import Beamline.Proofs.Deck.Items
import Beamline.Proofs.Portrait.Definition
import Beamline.Proofs.Session.Limits
import Beamline.Proofs.Session.Reading

/-!
# Elements on request

In every state that requests lead to, an element that is defined holds in each place what the last
item has stored there. The expressions of an element that it replaces are released and those of
items that were overwritten by later ones as well, so that the forest grows by what the element
holds and by nothing else.

* `Plain.Element.LastWritten`: an element and the items that have made it.
* `Deck.Depicts.run_defineElement_of_ok`: a definition that is done.
* `Session.defineElement_exact`: the same on request, for every session.
-/

namespace Beamline

open Source (Position)
open Diagnostic (Condition)
open Beamline.Element (Item Kind MapIndex Role)
open Beamline.Expr (Formula Term Tree)

/-! ## The last item decides -/

namespace Plain

namespace Element

variable {ε : Type}

/-- The element is of the kind and holds in each place the term of what is stored there last. -/
structure LastWritten (term : Formula → ε) (kind : Kind) (roles : List Role) (e : Element ε) :
    Prop where
  /-- The kind. -/
  kind_eq : e.kind = kind
  /-- The label is the one given last, without the blanks around it. -/
  label_eq : e.label = (roles.filterMap Role.label?).getLast?.map Text.trim
  /-- A keyword of the catalog leads to what is stored last in its place. -/
  slot?_eq : ∀ key, e.slot? key = (kind.slotIndex? key).map fun i =>
    (roles.filterMap (Role.stored? (.slot i.val))).getLast?.map term
  /-- Exactly a matrix has entries, each with what is stored last in its place. -/
  cell?_eq : ∀ index, e.cell? index = if kind = .matrix
    then some ((roles.filterMap (Role.stored? (.entry index))).getLast?.map term) else none

theorem lastWritten_foldl_play (term : Formula → ε) (name : Name) {kind : Kind} (pos : Position)
    {roles : List Role} (hroles : ∀ role ∈ roles, role.Fits kind) :
    (roles.foldl (play term) (blank name kind pos)).LastWritten term kind roles := by
  have hblank : (blank name kind pos : Element ε).Shaped kind := shaped_blank name kind pos
  have hshaped : (roles.foldl (play term) (blank name kind pos)).Shaped kind :=
    hblank.foldl_play roles
  -- nothing is there before the first item
  have hcontent (place : Element.Place) :
      (roles.foldl (play term) (blank name kind pos)).content? place =
        (roles.filterMap (Role.stored? place)).getLast?.map term := by
    rw [hblank.content?_foldl_play hroles, content?_blank, Option.or_none]
  refine ⟨hshaped.kind_eq, ?_, fun key => ?_, fun index => ?_⟩
  · rw [label_foldl_play]
    exact Option.or_none
  · rw [hshaped.slot?_eq]
    simp only [hcontent]
  · rw [hshaped.cell?_eq, hcontent]

/-- The number of nodes of the expressions that the element holds. -/
def size (e : Element Term) : Nat :=
  (e.exprs.map Term.size).sum

end Element

namespace Deck

variable {deck : Deck Term}

theorem size_eq (deck : Deck Term) :
    deck.size =
      ((deck.symbols.consts.map Constant.source ++ deck.symbols.vars.map Variable.expr).map
        Term.size).sum + (deck.symbols.elements.map Element.size).sum := by
  rw [size, Symbols.exprs, List.map_append, List.sum_append_nat, List.map_flatMap]
  congr 1
  induction deck.symbols.elements with
  | nil => rfl
  | cons e elements ih =>
    rw [List.flatMap_cons, List.sum_append_nat, List.map_cons, List.sum_cons, ih]
    rfl

/-- An element that is taken out takes its expressions with it. -/
theorem size_withoutElement (hnodup : (deck.symbols.elements.map Named.name).Nodup) (name : Name) :
    (deck.withoutElement name).size + ((deck.symbols.elements.get? name).map Element.size).getD 0 =
      deck.size := by
  rw [size_eq, size_eq]
  show _ + ((deck.symbols.elements.without name).map Element.size).sum + _ = _
  cases hrecord : deck.symbols.elements.get? name with
  | none =>
    rw [Table.without_of_get?_eq_none hrecord]
    rfl
  | some e =>
    have hperm := ((Table.perm_of_get? hnodup hrecord).map Element.size).sum_nat
    rw [List.map_cons, List.sum_cons] at hperm
    rw [hperm, Option.map_some, Option.getD_some]
    simp only [withoutElement]
    omega

/-- An element that is added brings its expressions with it. -/
theorem size_cons (deck : Deck Term) (e : Element Term) :
    ({ deck with symbols := { deck.symbols with elements := e :: deck.symbols.elements } } :
      Deck Term).size = deck.size + e.size := by
  rw [size_eq, size_eq]
  dsimp only
  rw [List.map_cons, List.sum_cons]
  omega

end Deck

end Plain

/-! ## Decks -/

namespace Deck

variable {deck : Deck} {limits : Limits} {g : Plain.Deck Tree} {held : List Tree} {stray : Nat}

/-- The scope in which the expressions of an element are lowered while it is defined. An element
that had the name before is gone by then. -/
def itemScope (deck : Deck) (name : Name) (pos : Position) : Plain.LoweringScope where
  constant? other := (deck.symbols.consts.get? other).map Constant.value
  isVariable := deck.symbols.vars.contains
  isElement other := other ≠ name && deck.symbols.elements.contains other
  pos := pos
  constantsOnly := false

theorem Depicts.itemScope_eq (hd : deck.Depicts limits g held stray) (name : Name)
    (pos : Position) :
    (({ g.map Tree.term with pos } : Plain.Deck Term).withoutElement name).itemScope =
      deck.itemScope name pos := by
  unfold itemScope Plain.Deck.itemScope Plain.Symbols.loweringScope
  congr 1
  · exact funext fun other => (hd.constant? other).symm
  · exact funext fun other => (hd.contains_vars other).symm
  · funext other
    rw [hd.contains_elements]
    show Plain.Table.contains (Plain.Table.without name _) other = _
    unfold Plain.Table.contains
    rw [Plain.Table.get?_without]
    by_cases hother : other = name
    · simp [hother]
    · simp [hother]

/-- The forest holds the expressions of the records, those held by others and strays. -/
theorem Depicts.size_eq (hd : deck.Depicts limits g held stray) :
    deck.forest.size = (g.map Tree.term).size + ((held.map Tree.size).sum + stray) := by
  have hrecords : (g.map Tree.term).size = (g.symbols.exprs.map Tree.size).sum := by
    show (((g.symbols.map Tree.term).exprs).map Term.size).sum = _
    rw [Plain.Symbols.exprs_map, List.map_map]
    exact congrArg List.sum (List.map_congr_left fun t _ => t.size_term)
  rw [hd.grove.size_eq, List.map_append, List.sum_append_nat, hrecords, Nat.add_assoc]

theorem Depicts.reading_element? (hd : deck.Depicts limits g held stray) (name : Name) :
    deck.reading.elements.get? name =
      ((g.map Tree.term).symbols.elements.get? name).map (Plain.Element.map .ok) := by
  rw [hd.reading_eq]
  exact Plain.Table.get?_map (Plain.Element.name_map _) _ name

theorem Depicts.nodup_elements (hd : deck.Depicts limits g held stray) :
    ((g.map Tree.term).symbols.elements.map Plain.Named.name).Nodup := by
  have hnames := hd.symbols.elements.nodup_names
  show ((g.symbols.elements.map (Plain.Element.map Tree.term)).map Plain.Named.name).Nodup
  rw [List.map_map]
  exact hnames

/-- Moves to the position and defines an element. -/
def defineElementAt (pos : Position) (raw : String) (kind : Kind) (items : List Item) :
    Action Unit := do
  moveTo pos
  defineElement raw kind items

/-- A definition that is done stores an element in which the last item has decided on each place.
The forest grows by the expressions of the element and loses those of the element that had the name
before. -/
theorem Depicts.run_defineElement_of_ok (hd : deck.Depicts limits g held stray) {raw : String}
    {kind : Kind} {items : List Item} {pos : Position} {w : Work}
    (h : (defineElementAt pos raw kind items).run ⟨deck, #[]⟩ = (.ok (), w)) :
    let name := Name.ofText raw
    let scope := deck.itemScope name pos
    let roles := items.map (Item.role kind name)
    ∃ e : Plain.Element Term, ∃ old : Option (Plain.Element Term),
      w.deck.reading.elements.get? name = some (e.map .ok) ∧
        e.LastWritten (Formula.term scope.constant?) kind roles ∧ e.pos = pos ∧
        deck.reading.elements.get? name = old.map (Plain.Element.map .ok) ∧
        w.deck.forest.size + (old.map Plain.Element.size).getD 0 = deck.forest.size + e.size ∧
        w.raised.toList =
          (if deck.symbols.elements.contains name
            then [(Condition.elementRedefined name).diagnostic pos] else []) ++
          roles.flatMap scope.roleWarnings := by
  intro name scope roles
  let plain : Plain.Deck Term := { g.map Tree.term with pos }
  -- the plain deck gets the element as well
  have hmirrors : Mirrors (Alike limits held stray) (defineElementAt pos raw kind items)
      (do Plain.Deck.moveTo pos; Plain.Deck.defineElement raw kind items)
      (fun _ _ => Alike limits held stray) (Failed limits held) :=
    (mirrors_moveTo pos).bind fun _ _ => mirrors_defineElement raw kind items
  rcases hmirrors ⟨deck, #[]⟩ ⟨g.map Tree.term, #[]⟩ ⟨rfl, g, hd, rfl⟩ with
    ⟨_, _, w', q, ha, hb, hraised, g', hd', hmap⟩ | ⟨_, _, _, _, ha, -⟩
  · obtain rfl : w' = w := congrArg Prod.snd (ha.symm.trans h)
    have hrun : (Plain.Deck.defineElement raw kind items).run ⟨plain, #[]⟩ = (.ok (), q) := hb
    obtain ⟨hdeck, htold⟩ := Plain.Deck.run_defineElement_of_ok hrun
    have hscope : (plain.withoutElement name).itemScope = scope := hd.itemScope_eq name pos
    have hcontains : plain.symbols.elements.contains name =
        deck.symbols.elements.contains name := (hd.contains_elements name).symm
    let e := plain.definedElement name kind items
    have hname : Plain.Named.name e = name := Plain.Element.name_foldl_play _ _
    have hconstants : plain.itemScope.constant? = scope.constant? := by
      rw [← hscope]
      rfl
    refine ⟨e, plain.symbols.elements.get? name, ?_, ?_, ?_, ?_, ?_, ?_⟩
    · rw [hd'.reading_element?, hmap, hdeck]
      show (Plain.Table.get? (e :: _) name).map _ = _
      rw [Plain.Table.get?_cons, if_pos hname]
      rfl
    · rw [← hconstants]
      refine Plain.Element.lastWritten_foldl_play _ name pos fun role hrole => ?_
      obtain ⟨item, -, rfl⟩ := List.mem_map.1 hrole
      exact item.fits_role kind name
    · exact Plain.Element.pos_foldl_play _ _
    · exact hd.reading_element? name
    · have hsize := Plain.Deck.size_cons (plain.withoutElement name) e
      have hwithout : (plain.withoutElement name).size +
          ((plain.symbols.elements.get? name).map Plain.Element.size).getD 0 = plain.size :=
        Plain.Deck.size_withoutElement hd.nodup_elements name
      have hplain : plain.size = (g.map Tree.term).size := rfl
      have hstored : q.deck.size = (plain.withoutElement name).size + e.size :=
        (congrArg Plain.Deck.size hdeck).trans hsize
      rw [hd.size_eq, hd'.size_eq, hmap, hstored]
      omega
    · rw [hraised, htold, ← hscope, ← hcontains]
      rfl
  · cases ha.symm.trans h

end Deck

/-! ## Sessions -/

namespace Session

/-- What the definition answers and what deck it leaves. -/
theorem outcome_defineElement (s : Session) (raw : String) (kind : Kind) (items : List Item)
    (pos : Position) :
    let run := (Deck.defineElementAt pos raw kind items).run ⟨s.interpreter.deck, #[]⟩
    (s.step (.defineElement raw kind items pos)).1 = .done run.1 ∧
      (s.step (.defineElement raw kind items pos)).2.interpreter.deck = run.2.deck := by
  rw [step_defineElement]
  exact ⟨rfl, rfl⟩

/-- A definition that is done reports what it has raised. -/
theorem reportsOf_defineElement {s : Session} {raw : String} {kind : Kind} {items : List Item}
    {pos : Position} {w : Deck.Work}
    (hrun : (Deck.defineElementAt pos raw kind items).run ⟨s.interpreter.deck, #[]⟩ =
      (.ok (), w)) :
    s.reportsOf (.defineElement raw kind items pos) = w.raised.toList := by
  have haction : s.runAction (.defineElement raw kind items pos) = (.ok Request.done, w) := by
    have hmap : s.runAction (.defineElement raw kind items pos) =
        (((Deck.defineElementAt pos raw kind items).run ⟨s.interpreter.deck, #[]⟩).1.map
          fun _ => Request.done,
          ((Deck.defineElementAt pos raw kind items).run ⟨s.interpreter.deck, #[]⟩).2) :=
      run_map _ _ _
    rw [hmap, hrun]
    rfl
  have hsingle : (Request.defineElement raw kind items pos).IsSingle := fun _ => nofun
  rw [reportsOf_of_isSingle s hsingle, reportsOfSingle, haction]
  exact List.append_nil _

/-- In every session an element whose definition is done holds in each place what the last item has
stored there, and is labelled as the last item says that gives a label. The definition has warned
about an element of the name that it replaces, about each item that is ignored and about the names
in the expressions of the others, in this order. The forest has grown by the expressions of the
element, less those of the element that was replaced. Without the items that are ignored the
definition would have left the very same deck. -/
theorem defineElement_exact (config : Config) (requests : List Request) (raw : String)
    (kind : Kind) (items : List Item) (pos : Position)
    (h : (((ofConfig config).after requests).step
      (.defineElement raw kind items pos)).1.error? = none) :
    let s := (ofConfig config).after requests
    let name := Name.ofText raw
    let deck := s.interpreter.deck
    let next := (s.step (.defineElement raw kind items pos)).2.interpreter.deck
    let scope := deck.itemScope name pos
    let roles := items.map (Item.role kind name)
    let accepted := Element.accepted kind name items
    (∃ e : Plain.Element Term, ∃ old : Option (Plain.Element Term),
      next.reading.elements.get? name = some (e.map .ok) ∧
        e.LastWritten (Formula.term scope.constant?) kind roles ∧ e.pos = pos ∧
        deck.reading.elements.get? name = old.map (Plain.Element.map .ok) ∧
        next.forest.size + (old.map Plain.Element.size).getD 0 = deck.forest.size + e.size) ∧
      s.reportsOf (.defineElement raw kind items pos) =
        (if deck.symbols.elements.contains name
          then [(Condition.elementRedefined name).diagnostic pos] else []) ++
        roles.flatMap scope.roleWarnings ∧
      (s.step (.defineElement raw kind accepted pos)).1 = .done (.ok ()) ∧
      (s.step (.defineElement raw kind accepted pos)).2.interpreter.deck = next := by
  intro s name deck next scope roles accepted
  obtain ⟨stray, same, ⟨trees, ⟨⟨g, hd, -⟩, -⟩, -⟩, -⟩ :=
    alike_after requests (alike_ofConfig config)
  obtain ⟨hanswer, hnext⟩ := outcome_defineElement s raw kind items pos
  rcases hrun : (Deck.defineElementAt pos raw kind items).run ⟨deck, #[]⟩ with ⟨e | _, w⟩
  · rw [hanswer, hrun] at h
    cases h
  · rw [hrun] at hnext
    obtain ⟨e, old, hstored, hlast, hpos, hold, hsize, htold⟩ := hd.run_defineElement_of_ok hrun
    refine ⟨⟨e, old, ?_, hlast, hpos, hold, ?_⟩, (reportsOf_defineElement hrun).trans htold, ?_⟩
    · rw [show next = w.deck from hnext]
      exact hstored
    · rw [show next = w.deck from hnext]
      exact hsize
    · -- the same action without the ignored items, from the same deck
      obtain ⟨hanswer', hnext'⟩ := outcome_defineElement s raw kind accepted pos
      have htallies : Deck.Tallies (Deck.defineElementAt pos raw kind items)
          (Deck.defineElementAt pos raw kind accepted) :=
        (Deck.tallies_change _).bind_eq fun _ => Deck.tallies_defineElement raw kind items
      rcases htallies ⟨deck, #[]⟩ ⟨deck, #[]⟩ rfl with
        ⟨_, _, v, v', ha, hb, -, hsame⟩ | ⟨_, _, _, _, ha, -⟩
      · obtain rfl : v = w := congrArg Prod.snd (ha.symm.trans hrun)
        rw [hanswer', hnext', show s.interpreter.deck = deck from rfl, hb]
        exact ⟨rfl, hsame.symm.trans hnext.symm⟩
      · cases ha.symm.trans hrun

/-- A matrix is defined anew with two items for one entry, in different spellings of its indices,
and three items that are ignored. The one expression that is kept takes the place of the one that
was there before. In a quadrupole the second value of a strength replaces the first, and the tilt
written without a value has its default. -/
theorem defineElement_exact_of_overwritten :
    let pos := Position.unread
    let earlier : List Request := [.defineElement "M" .matrix [.rm 1.0 1.0 (.number 2.0)] pos]
    let name := Name.ofText " m "
    let items : List Item :=
      [.rm 1.0 2.0 (.binary .add (.name "X") (.number 1.0)), .rm 1.0 7.0 (.name "Y"),
        .assign "K9" (.name "Y"), .flag "L", .assign "type" (.name " wide "),
        .rm 1.4 2.9 (.number 3.0)]
    let roles := items.map (Item.role .matrix name)
    let accepted := Element.accepted .matrix name items
    let s := (ofConfig {}).after earlier
    let next := (s.step (.defineElement " m " .matrix items pos)).2.interpreter.deck
    let magnet : List Item :=
      [.assign "K1" (.number 2.0), .flag "tilt", .assign " k1 " (.number 3.0)]
    let magnets := (s.step (.defineElement "q" .quadrupole magnet pos)).2.interpreter.deck
    ((roles.filterMap (Role.stored? (.entry (.rm 0 1)))).length = 2 ∧
        next.forest.size = s.interpreter.deck.forest.size ∧
        (s.reportsOf (.defineElement " m " .matrix items pos)).map Diagnostic.code =
          [.elementRedefined, .variableUndefined, .indexOutOfRange, .unknownAttribute,
            .unknownAttribute]) ∧
      (∃ e : Plain.Element Term, next.reading.elements.get? name = some (e.map .ok) ∧
        e.LastWritten (Formula.term (s.interpreter.deck.itemScope name pos).constant?) .matrix
          roles) ∧
      (s.step (.defineElement " m " .matrix accepted pos)).2.interpreter.deck = next ∧
      magnet.map (Item.role .quadrupole (Name.ofText "q")) =
        [.store (.slot 1) (.number 2.0), .store (.slot 2) (.number (Angle.halfTurn / 4.0)),
          .store (.slot 1) (.number 3.0)] ∧
      ∃ e : Plain.Element Term, magnets.reading.elements.get? (Name.ofText "q") =
          some (e.map .ok) ∧
        e.slot? "K1" = some (some (.number 3.0)) ∧
        e.slot? "TILT" = some (some (.number (Angle.halfTurn / 4.0))) := by
  intro pos earlier name items roles accepted s next magnet magnets
  have hdone : (s.step (.defineElement " m " .matrix items pos)).1.error?.isNone = true := by
    decide +kernel
  obtain ⟨⟨e, old, hstored, hlast, -⟩, -, -, hsame⟩ :=
    defineElement_exact {} earlier " m " .matrix items pos (Option.isNone_iff_eq_none.1 hdone)
  -- another kind, with slots instead of entries
  have hmagnet : (s.step (.defineElement "q" .quadrupole magnet pos)).1.error?.isNone = true := by
    decide +kernel
  obtain ⟨⟨q, -, hq, hwritten, -⟩, -⟩ :=
    defineElement_exact {} earlier "q" .quadrupole magnet pos (Option.isNone_iff_eq_none.1 hmagnet)
  have hroles : (roles.filterMap (Role.stored? (.entry (.rm 0 1)))).length = 2 := by
    decide +kernel
  have hsize : next.forest.size = s.interpreter.deck.forest.size := by decide +kernel
  have hcodes : (s.reportsOf (.defineElement " m " .matrix items pos)).map Diagnostic.code =
      [.elementRedefined, .variableUndefined, .indexOutOfRange, .unknownAttribute,
        .unknownAttribute] := by
    decide +kernel
  have hs : (ofConfig {}).after earlier = s := rfl
  rw [hs] at hstored hlast hsame hq
  refine ⟨⟨hroles, hsize, hcodes⟩, ⟨e, hstored, hlast⟩, hsame, rfl, q, hq, ?_, ?_⟩
  · rw [hwritten.slot?_eq]
    rfl
  · rw [hwritten.slot?_eq]
    rfl

end Session

end Beamline
