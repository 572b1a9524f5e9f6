import Beamline.Proofs.Portrait.Actions

/-!
# Definitions on decks and on plain decks

What a statement does to a deck mirrors what it does to the plain deck that the deck stands for. On
the way to an element its trees are held by the definition; they pass to the table when the element
is stored.

* `mirrors_enterItem`: an item of an element releases exactly what it replaces.
* `mirrors_perform`, `mirrors_apply`: clauses and statements.
* `mirrors_slotValue` and the like: queries.
-/

namespace Beamline.Deck

open Diagnostic (Condition)
open Source (Position)
open Beamline.Expr (Formula Grove Node NodeId Term Tree)
open Beamline.Element (MapIndex)

variable {limits : Limits} {held : List Tree} {stray : Nat}
  {E : FatalError → Plain.Error → Work → Plain.Deck.Work → Prop}

theorem Alike.perm {trees : List Tree} {w : Work} {p : Plain.Deck.Work}
    (h : Alike limits held stray w p) (hp : held.Perm trees) : Alike limits trees stray w p := by
  obtain ⟨hraised, g, hd, hmap⟩ := h
  exact ⟨hraised, g, { hd with grove := hd.grove.perm (hp.append_left _) }, hmap⟩

/-- A tree that was just stored is evaluated; at an error it becomes stray. -/
theorem mirrors_evaluateStored (t : Tree) :
    Mirrors (Alike limits (t :: held) stray) (evaluate t.root) (Plain.Deck.evaluate t.term)
      (Returned limits (t :: held) stray) (Failed limits held) := by
  have habandon (e d w p) (h : Failed limits (t :: held) e d w p) : Failed limits held e d w p :=
    Failed.abandon (show Failed limits ([t] ++ held) e d w p from h)
  exact (mirrors_evaluate t).imp (fun _ _ h => h.holding List.mem_cons_self) (fun _ _ _ _ => id)
    habandon

/-! ## Constants and variables -/

theorem mirrors_defineConstant (raw : String) (formula : Formula) :
    Mirrors (Alike limits held stray) (defineConstant raw formula)
      (Plain.Deck.defineConstant raw formula) (fun _ _ => Alike limits held stray)
      (Failed limits held) := by
  refine mirrors_current fun deck g hd => ?_
  refine Mirrors.ite (by rw [hd.contains_vars]) (fun _ => hd.mirrors (mirrors_raise _))
    fun _ => hd.mirrors ?_
  refine (mirrors_lowerWith true formula).bind_view fun t => ?_
  refine (mirrors_evaluateStored t).bind_eq fun value => ?_
  -- the definition holds the tree until the constant is stored
  refine mirrors_current fun deck g hd => ?_
  have hinsert : Mirrors (Alike limits (t :: held) stray)
      (discard (insertConstant ⟨Name.ofText raw, value, t.root, deck.pos⟩))
      (Plain.Deck.insertConstant ⟨Name.ofText raw, value, t.term, deck.pos⟩)
      (fun _ _ => Alike limits held stray) (Failed limits held) :=
    mirrors_insertConstant (c := ⟨Name.ofText raw, value, t, deck.pos⟩) rfl
  have hpos : (g.map Tree.term).pos = deck.pos := hd.pos.symm
  rw [hpos]
  refine Mirrors.ite (by rw [hd.contains_consts]) (fun _ => ?_) fun _ => hd.mirrors hinsert
  exact (hd.mirrors (mirrors_raise _)).bind fun _ _ => hinsert

theorem mirrors_defineVariable (raw : String) (formula : Formula) (binding : Binding) :
    Mirrors (Alike limits held stray) (defineVariable raw formula binding)
      (Plain.Deck.defineVariable raw formula binding) (fun _ _ => Alike limits held stray)
      (Failed limits held) := by
  refine mirrors_current fun deck g hd => ?_
  refine Mirrors.ite (by rw [hd.contains_consts]) (fun _ => hd.mirrors (mirrors_raise _))
    fun _ => hd.mirrors ?_
  refine (mirrors_lowerWith false formula).bind_view fun t => ?_
  -- the variable keeps the tree that was stored, or one that holds its value
  have hkeep : ∀ id term, Mirrors (Stored limits held stray id term)
      (current >>= fun deck =>
        discard (insertVariable { name := Name.ofText raw, expr := id, pos := deck.pos }))
      (Plain.Deck.current >>= fun deck =>
        Plain.Deck.insertVariable { name := Name.ofText raw, expr := term, pos := deck.pos })
      (fun _ _ => Alike limits held stray) (Failed limits held) := by
    intro id term
    refine Mirrors.of_exists fun t => Mirrors.of_and fun hid => Mirrors.of_and fun hterm => ?_
    subst hid hterm
    refine mirrors_current fun deck g hd => hd.mirrors ?_
    have hpos : (g.map Tree.term).pos = deck.pos := hd.pos.symm
    rw [hpos]
    exact mirrors_insertVariable (v := ⟨Name.ofText raw, t, deck.pos⟩) rfl
  cases binding with
  | deferred =>
    have hreturn : Mirrors (Alike limits (t :: held) stray) (pure t.root : Action NodeId)
        (pure t.term : Plain.Deck.Action Term) (Stored limits held stray) (Failed limits held) :=
      Mirrors.of_pure fun _ _ h => ⟨t, rfl, rfl, h⟩
    exact hreturn.bind hkeep
  | immediate =>
    dsimp only
    simp only [map_eq_pure_bind, bind_assoc, pure_bind]
    refine (mirrors_evaluateStored t).bind_eq fun value => ?_
    -- the tree is released and a node with its value stored, which the plain deck does at once
    refine (mirrors_release t).bind_left fun _ => ?_
    have hstored : Mirrors (Alike limits held stray) _ (pure (Term.ofValue value) >>= _) _ _ :=
      (mirrors_alloc value).bind hkeep
    rwa [pure_bind] at hstored

/-! ## Elements -/

/-- An element on the way: its trees are held by the definition. -/
def Entering (limits : Limits) (held : List Tree) (stray : Nat) (element : Element)
    (plain : Plain.Element Term) (w : Work) (p : Plain.Deck.Work) : Prop :=
  ∃ e : Plain.Element Tree, element.view = e.map Tree.root ∧ plain = e.map Tree.term ∧
    Alike limits (e.exprs ++ held) stray w p

/-- An item that changes an element releases what it replaces. -/
theorem mirrors_replace {changed : Element} {e e' : Plain.Element Tree}
    (hview : changed.view = e'.map Tree.root) {t : Tree} {previous : Option Tree}
    (hperm : (t :: e.exprs).Perm (previous.toList ++ e'.exprs)) :
    Mirrors (Alike limits (t :: (e.exprs ++ held)) stray)
      (do
        releaseReplaced (previous.map Tree.root)
        return changed)
      (pure (e'.map Tree.term) : Plain.Deck.Action (Plain.Element Term))
      (Entering limits held stray) E := by
  have hrelease : Mirrors (Alike limits (t :: (e.exprs ++ held)) stray)
      (releaseReplaced (previous.map Tree.root)) (pure () : Plain.Deck.Action Unit)
      (fun _ _ => Alike limits (e'.exprs ++ held) stray) E := by
    refine (mirrors_releaseReplaced previous).imp (fun w p h => ?_) (fun _ _ _ _ => id)
      fun _ _ _ _ => id
    have := hperm.append_right held
    rw [List.append_assoc] at this
    exact h.perm this
  exact hrelease.bind_left fun _ => Mirrors.of_pure fun _ _ h => ⟨e', hview, rfl, h⟩

/-- Setting a slot of an element that is on the way. -/
theorem Entering.setSlot {element : Element} {e : Plain.Element Tree}
    (hview : element.view = e.map Tree.root) (i : Fin element.kind.catalog.length) (t : Tree) :
    element.view.slots[i.val]?.join = e.slots[i.val]?.join.map Tree.root ∧
      element.view.setSlot i t.root = (e.setSlot i t).map Tree.root ∧
      (t :: e.exprs).Perm (e.slots[i.val]?.join.toList ++ (e.setSlot i t).exprs) := by
  have hslots : element.view.slots = e.slots.map (Option.map Tree.root) :=
    congrArg Plain.Element.slots hview
  refine ⟨?_, ?_, e.perm_exprs_setSlot t ?_⟩
  · rw [hslots, List.getElem?_map, Option.join_map_eq_map_join]
  · rw [hview, Plain.Element.map_setSlot]
  · -- the catalog has a place for each slot, and so has the list
    have hlength := congrArg List.length hslots
    rw [List.length_map] at hlength
    rw [← hlength]
    change i.val < element.slots.toList.length
    rw [Vector.length_toList]
    exact i.isLt

/-- Storing a formula for an element that is on the way; at an error its trees become stray. -/
theorem mirrors_lowerEntering (e : Plain.Element Tree) (formula : Formula) :
    Mirrors (Alike limits (e.exprs ++ held) stray) (lower formula) (Plain.Deck.lower formula)
      (Stored limits (e.exprs ++ held) stray) (Failed limits held) :=
  (mirrors_lowerWith false formula).imp (fun _ _ => id) (fun _ _ _ _ => id)
    fun _ _ _ _ => Failed.abandon

/-- A refused item leaves the element as it is. -/
theorem mirrors_refused {element : Element} {e : Plain.Element Tree}
    (hview : element.view = e.map Tree.root) (condition : Condition) :
    Mirrors (Alike limits (e.exprs ++ held) stray)
      (do
        raise condition
        return element)
      (do
        Plain.Deck.raise condition
        return e.map Tree.term)
      (Entering limits held stray) E :=
  (mirrors_raise condition).bind fun _ _ => Mirrors.of_pure fun _ _ h => ⟨e, hview, rfl, h⟩

theorem mirrors_assignItem (element : Element) (plain : Plain.Element Term) (key : String)
    (value : Formula) :
    Mirrors (Entering limits held stray element plain) (assignItem element key value)
      (Plain.Deck.assignItem plain key value) (Entering limits held stray)
      (Failed limits held) := by
  refine Mirrors.of_exists fun e => Mirrors.of_and fun hview => Mirrors.of_and fun hplain => ?_
  subst hplain
  unfold assignItem Plain.Deck.assignItem
  cases (if Text.normalize key = "TYPE" then labelOf? value else none) with
  | some label =>
    refine Mirrors.of_pure fun w p h => ⟨e.relabel label, ?_, rfl, h⟩
    rw [element.view_relabel, hview]
    rfl
  | none =>
    -- the kinds are the same, on which the type of the place in the catalog depends
    obtain ⟨name, kind, label, pos, slots, entries⟩ := e
    obtain rfl : element.kind = kind := congrArg Plain.Element.kind hview
    dsimp only [Plain.Element.kind_map]
    cases hi : element.kind.slotIndex? key with
    | none =>
      rw [if_neg (by simp)]
      exact mirrors_refused hview _
    | some i =>
      rw [if_pos (by simp)]
      refine (mirrors_lowerEntering _ value).bind_view fun t => ?_
      obtain ⟨hprevious, hset, hperm⟩ := Entering.setSlot hview i t
      obtain ⟨changed, hassign, hchanged⟩ := element.view_assign hi t.root
      rw [hassign, hprevious, ← Plain.Element.map_setSlot]
      exact mirrors_replace (hchanged.trans hset) hperm

theorem mirrors_flagItem (element : Element) (plain : Plain.Element Term) (key : String) :
    Mirrors (Entering limits held stray element plain) (flagItem element key)
      (Plain.Deck.flagItem plain key) (Entering limits held stray) (Failed limits held) := by
  refine Mirrors.of_exists fun e => Mirrors.of_and fun hview => Mirrors.of_and fun hplain => ?_
  subst hplain
  unfold Plain.Deck.flagItem
  obtain ⟨name, kind, label, pos, slots, entries⟩ := e
  obtain rfl : element.kind = kind := congrArg Plain.Element.kind hview
  dsimp only [Plain.Element.kind_map]
  -- the default is stored in the forest as it is now
  rintro w p ⟨hraised, g, hd, hmap⟩
  have hcurrent : (current : Action Deck).run w = (.ok w.deck, w) := rfl
  rw [flagItem, run_bind_of_ok hcurrent]
  cases hi : element.kind.slotIndex? key with
  | none =>
    rw [element.flag_of_slotIndex?_eq_none hi]
    exact mirrors_refused hview _ w p ⟨hraised, g, hd, hmap⟩
  | some i =>
    cases hx : element.kind.flagDefault? key with
    | none =>
      rw [element.flag_of_flagDefault?_eq_none hi hx]
      exact mirrors_refused hview _ w p ⟨hraised, g, hd, hmap⟩
    | some x =>
      -- the node of the default is a tree of its own, whose term the plain element gets
      let t : Tree := .number (w.deck.forest.alloc (.number x)).1 x
      obtain ⟨hprevious, hset, hperm⟩ := Entering.setSlot hview i t
      obtain ⟨changed, hflag, hchanged⟩ := element.view_flag hi hx w.deck.forest
      have hterm := Plain.Element.map_setSlot Tree.term i t
        ⟨name, element.kind, label, pos, slots, entries⟩
      rw [hflag, hprevious]
      dsimp only
      rw [show Term.number x = t.term from rfl, ← hterm]
      have hd' := hd.alloc t rfl rfl
      exact mirrors_replace (hchanged.trans hset) hperm
        { w with deck := { w.deck with forest := (w.deck.forest.alloc t.node).2 } } p
        ⟨hraised, g, hd', hmap⟩

theorem mirrors_entryItem (element : Element) (plain : Plain.Element Term)
    (index : Option MapIndex) (written : String) (value : Formula) :
    Mirrors (Entering limits held stray element plain) (entryItem element index written value)
      (Plain.Deck.entryItem plain index written value) (Entering limits held stray)
      (Failed limits held) := by
  refine Mirrors.of_exists fun e => Mirrors.of_and fun hview => Mirrors.of_and fun hplain => ?_
  subst hplain
  have hkind : (e.map Tree.term).kind = element.kind := (congrArg Plain.Element.kind hview).symm
  have hname : (e.map Tree.term).name = element.name := (congrArg Plain.Element.name hview).symm
  unfold entryItem Plain.Deck.entryItem
  rw [hkind, hname]
  refine Mirrors.ite Iff.rfl (fun _ => mirrors_refused hview _) fun hmatrix => ?_
  cases index with
  | none => exact mirrors_refused hview _
  | some index =>
    refine (mirrors_lowerEntering e value).bind_view fun t => ?_
    obtain ⟨changed, hassign, hchanged⟩ :=
      element.view_assignEntry (Decidable.not_not.1 hmatrix) index t.root
    -- a matrix has a transfer map, with a place for each entry
    obtain ⟨entries, hentries, hlength⟩ : ∃ entries, e.entries = some entries ∧
        entries.length = 252 := by
      have hmap := congrArg Plain.Element.entries hview
      have hsome := element.isSome_map
      rw [Decidable.not_not.1 hmatrix] at hsome
      obtain ⟨m, hm⟩ := Option.isSome_iff_exists.1 hsome
      change element.map.map _ = e.entries.map _ at hmap
      rw [hm, Option.map_some, eq_comm, Option.map_eq_some_iff] at hmap
      obtain ⟨entries, hentries, heq⟩ := hmap
      have := congrArg List.length heq
      rw [List.length_map, Vector.length_toList] at this
      exact ⟨entries, hentries, this⟩
    have hprevious : (element.view.cell? index).join = (e.cell? index).join.map Tree.root := by
      rw [hview, Plain.Element.cell?_map, Option.join_map_eq_map_join]
    rw [hassign, hprevious, ← Plain.Element.map_setEntry]
    refine mirrors_replace (hchanged.trans ?_) (e.perm_exprs_setEntry t index hentries hlength)
    rw [hview, Plain.Element.map_setEntry]

/-- An item of an element releases exactly what it replaces. -/
theorem mirrors_enterItem (element : Element) (plain : Plain.Element Term) (item : Element.Item) :
    Mirrors (Entering limits held stray element plain) (enterItem element item)
      (Plain.Deck.enterItem plain item) (Entering limits held stray) (Failed limits held) := by
  cases item with
  | assign key value => exact mirrors_assignItem element plain key value
  | flag key => exact mirrors_flagItem element plain key
  | label text =>
    refine Mirrors.of_pure fun w p ⟨e, hview, hplain, h⟩ => ⟨e.relabel text, ?_, ?_, h⟩
    · rw [element.view_relabel, hview]
      rfl
    · rw [hplain]
      rfl
  | rm i j value => exact mirrors_entryItem element plain _ _ value
  | tm i j k value => exact mirrors_entryItem element plain _ _ value

theorem mirrors_defineElement (raw : String) (kind : Element.Kind) (items : List Element.Item) :
    Mirrors (Alike limits held stray) (defineElement raw kind items)
      (Plain.Deck.defineElement raw kind items) (fun _ _ => Alike limits held stray)
      (Failed limits held) := by
  -- what follows the removal, be there an element of the name or not
  have hrest : Mirrors (Alike limits held stray)
      (do
        let element ←
          items.foldlM enterItem (Element.blank (Name.ofText raw) kind (← current).pos)
        discard <| insertElement element)
      (do
        let element ← items.foldlM Plain.Deck.enterItem
          (Plain.Element.blank (Name.ofText raw) kind (← Plain.Deck.current).pos)
        Plain.Deck.insertElement element)
      (fun _ _ => Alike limits held stray) (Failed limits held) := by
    refine mirrors_current fun deck g hd => hd.mirrors ?_
    have hpos : (g.map Tree.term).pos = deck.pos := hd.pos.symm
    rw [hpos]
    let blank := Element.blank (Name.ofText raw) kind deck.pos
    let plainBlank : Plain.Element Term := Plain.Element.blank (Name.ofText raw) kind deck.pos
    have hblank : ∀ w p, Alike limits held stray w p →
        Entering limits held stray blank plainBlank w p := by
      intro w p h
      refine ⟨Plain.Element.blank (Name.ofText raw) kind deck.pos, ?_, ?_, ?_⟩
      · rw [Element.view_blank, Plain.Element.map_blank]
      · rw [Plain.Element.map_blank]
      · rwa [Plain.Element.exprs_blank]
    have hitems : Mirrors (Entering limits held stray blank plainBlank)
        (items.foldlM enterItem blank) (items.foldlM Plain.Deck.enterItem plainBlank)
        (Entering limits held stray) (Failed limits held) :=
      Mirrors.foldlM mirrors_enterItem items blank plainBlank
    refine (hitems.imp hblank (fun _ _ _ _ => id) fun _ _ _ _ => id).bind fun element plain => ?_
    refine Mirrors.of_exists fun e => Mirrors.of_and fun hview => Mirrors.of_and fun hplain => ?_
    subst hplain
    exact mirrors_insertElement hview
  refine (mirrors_removeElement (Name.ofText raw)).bind_eq fun isDefined => ?_
  refine Mirrors.ite Iff.rfl (fun _ => ?_) fun _ => hrest
  exact (mirrors_raise _).bind fun _ _ => hrest

/-! ## Lines -/

theorem mirrors_defineLine (raw : String) (body : Line.Body) :
    Mirrors (Alike limits held stray) (defineLine raw body) (Plain.Deck.defineLine raw body)
      (fun _ _ => Alike limits held stray) (Failed limits held) := by
  refine (mirrors_layout body).bind_eq fun entries => ?_
  have hrest : Mirrors (Alike limits held stray)
      (do discard <| insertLine { name := Name.ofText raw, entries, pos := (← current).pos })
      (do Plain.Deck.insertLine
            { name := Name.ofText raw, entries, pos := (← Plain.Deck.current).pos })
      (fun _ _ => Alike limits held stray) (Failed limits held) := by
    refine mirrors_current fun deck g hd => hd.mirrors ?_
    have hpos : (g.map Tree.term).pos = deck.pos := hd.pos.symm
    rw [hpos]
    exact mirrors_insertLine _
  refine (mirrors_removeLine (Name.ofText raw)).bind_eq fun isDefined => ?_
  refine Mirrors.ite Iff.rfl (fun _ => ?_) fun _ => hrest
  exact (mirrors_raise _).bind fun _ _ => hrest

/-! ## Comments -/

theorem mirrors_beginComment :
    Mirrors (Alike limits held stray) beginComment Plain.Deck.beginComment
      (fun _ _ => Alike limits held stray) E :=
  mirrors_changeCommentary fun commentary _ => commentary.begin

theorem mirrors_endComment :
    Mirrors (Alike limits held stray) endComment Plain.Deck.endComment
      (fun _ _ => Alike limits held stray) (Failed limits held) := by
  refine mirrors_current fun deck g hd => hd.mirrors ?_
  have hcommentary : (g.map Tree.term).commentary = deck.commentary := hd.commentary.symm
  rw [hcommentary]
  cases deck.commentary.finish with
  | ok commentary => exact mirrors_changeCommentary fun _ _ => commentary
  | error _ => exact mirrors_raise _

theorem mirrors_captureComment (text : String) (atEnd : Bool) :
    Mirrors (Alike limits held stray) (captureComment text atEnd)
      (Plain.Deck.captureComment text atEnd) (fun _ _ => Alike limits held stray) E :=
  mirrors_changeCommentary fun commentary pos =>
    commentary.capture text (if atEnd then Position.endOfInput else pos)

/-! ## Statements -/

/-- A clause does to a deck what it does to the plain deck. -/
theorem mirrors_perform (clause : Clause) :
    Mirrors (Alike limits held stray) (perform clause) (Plain.Deck.perform clause)
      (fun _ _ => Alike limits held stray) (Failed limits held) := by
  cases clause with
  | constant name value => exact mirrors_defineConstant name value
  | «variable» name value binding => exact mirrors_defineVariable name value binding
  | element name kind items => exact mirrors_defineElement name kind items
  | line name body => exact mirrors_defineLine name body
  | beginComment => exact mirrors_beginComment
  | endComment => exact mirrors_endComment
  | comment text atEnd => exact mirrors_captureComment text atEnd
  | pragma keyword text => exact Mirrors.of_pure fun _ _ h => h

/-- A statement does to a deck what it does to the plain deck. -/
theorem mirrors_apply (statement : Statement) :
    Mirrors (Alike limits held stray) (apply statement) (Plain.Deck.apply statement)
      (fun _ _ => Alike limits held stray) (Failed limits held) := by
  refine (mirrors_moveTo statement.pos).bind fun _ _ => ?_
  refine mirrors_current fun deck g hd => hd.mirrors ?_
  -- both decks are inside a comment block or neither is
  have hcommentary : (g.map Tree.term).commentary = deck.commentary := hd.commentary.symm
  rw [hcommentary]
  exact Mirrors.ite Iff.rfl (fun _ => Mirrors.of_pure fun _ _ h => h)
    fun _ => mirrors_perform statement.clause

/-! ## Queries -/

/-- A slot is evaluated alike if its tree stands in the forest. -/
theorem mirrors_slotValue {deck : Deck} {g : Plain.Deck Tree}
    (hd : deck.Depicts limits g held stray) (slot : Option (Option Tree))
    (hslot : ∀ t, slot = some (some t) → t ∈ g.symbols.exprs) :
    Mirrors (At deck (g.map Tree.term)) (slotValue (slot.map (Option.map Tree.root)))
      (Plain.Deck.slotValue (slot.map (Option.map Tree.term))) (Returned limits held stray)
      (Failed limits held) := by
  match slot with
  | none => exact hd.mirrors (mirrors_return none)
  | some none => exact hd.mirrors (mirrors_return (some Value.zero))
  | some (some t) =>
    have heval : Mirrors (At deck (g.map Tree.term)) (evaluate t.root)
        (Plain.Deck.evaluate t.term) (fun x y => Returned limits held stray (some x) (some y))
        (Failed limits held) := by
      refine (mirrors_evaluate t).imp (fun w p h => ?_)
        (fun _ _ _ _ h => ⟨congrArg some h.1, h.2⟩) fun _ _ _ _ => id
      obtain ⟨rfl, hplain, hraised⟩ := h
      exact ⟨hraised, g, hd, hplain.symm, List.mem_append_left _ (hslot t rfl)⟩
    exact heval.map

theorem mirrors_variableValue (raw : String) :
    Mirrors (Alike limits held stray) (variableValue raw) (Plain.Deck.variableValue raw)
      (Returned limits held stray) (Failed limits held) := by
  refine mirrors_current fun deck g hd => ?_
  rcases hd.variable_cases (Name.ofText raw) with
    ⟨hrecord, hterm⟩ | ⟨record, v, hrecord, hterm, hroot, hv⟩
  · rw [Table.lookup?, hrecord, hterm]
    exact mirrors_slotValue hd none nofun
  · rw [Table.lookup?, hrecord, hterm, Option.map_some, ← hroot]
    exact mirrors_slotValue hd (some (some v.expr)) fun t ht => by cases ht; exact hv

/-- What is asked of an element is asked of its plain form. -/
theorem mirrors_elementQuery (raw : String) (read : Element → Option (Option NodeId))
    (treeRead : Plain.Element Tree → Option (Option Tree))
    (plainRead : Plain.Element Term → Option (Option Term))
    (hread : ∀ record (e : Plain.Element Tree), record.view = e.map Tree.root →
      read record = (treeRead e).map (Option.map Tree.root))
    (hplain : ∀ e : Plain.Element Tree,
      plainRead (e.map Tree.term) = (treeRead e).map (Option.map Tree.term))
    (hmem : ∀ e t, treeRead e = some (some t) → t ∈ e.exprs) :
    Mirrors (Alike limits held stray)
      (do slotValue (((← current).symbols.elements.lookup? raw).bind read))
      (do Plain.Deck.slotValue
            (((← Plain.Deck.current).symbols.elements.get? (Name.ofText raw)).bind plainRead))
      (Returned limits held stray) (Failed limits held) := by
  refine mirrors_current fun deck g hd => ?_
  rcases hd.element_cases (Name.ofText raw) with
    ⟨hrecord, hterm⟩ | ⟨record, e, hrecord, hterm, hview, he⟩
  · rw [Table.lookup?, hrecord, hterm]
    exact mirrors_slotValue hd none nofun
  · rw [Table.lookup?, hrecord, hterm, Option.bind_some, Option.bind_some, hread record e hview,
      hplain e]
    exact mirrors_slotValue hd (treeRead e) fun t ht => he t (hmem e t ht)

theorem mirrors_attributeValue (raw key : String) :
    Mirrors (Alike limits held stray) (attributeValue raw key) (Plain.Deck.attributeValue raw key)
      (Returned limits held stray) (Failed limits held) :=
  mirrors_elementQuery raw (fun e => e.slot? key) (fun e => e.slot? key) (fun e => e.slot? key)
    (fun record e hview => by rw [← record.slot?_view, hview, Plain.Element.slot?_map])
    (fun e => e.slot?_map Tree.term key) fun _ _ => Plain.Element.mem_exprs_of_slot?

theorem mirrors_entryValue (raw : String) (index : MapIndex) :
    Mirrors (Alike limits held stray) (entryValue raw index) (Plain.Deck.entryValue raw index)
      (Returned limits held stray) (Failed limits held) := by
  unfold entryValue
  simp only [Option.map_bind]
  exact mirrors_elementQuery raw (fun e => e.map.map fun m => m.get? index)
    (fun e => e.cell? index) (fun e => e.cell? index)
    (fun record e hview => by rw [← record.cell?_view, hview, Plain.Element.cell?_map])
    (fun e => e.cell?_map Tree.term index) fun _ _ => Plain.Element.mem_exprs_of_cell?

theorem mirrors_elementLength (raw : String) :
    Mirrors (Alike limits held stray) (elementLength raw) (Plain.Deck.elementLength raw)
      (Returned limits held stray) (Failed limits held) := by
  unfold elementLength Plain.Deck.elementLength
  simp only [Option.map_eq_bind]
  refine mirrors_elementQuery raw (fun e => some e.length?) (fun e => some e.length?)
    (fun e => some e.length?) (fun record e hview => ?_)
    (fun e => congrArg some (e.length?_map Tree.term)) fun _ _ h =>
      Plain.Element.mem_exprs_of_length? (Option.some.inj h)
  rw [← record.length?_view, hview, Plain.Element.length?_map]
  rfl

end Beamline.Deck
