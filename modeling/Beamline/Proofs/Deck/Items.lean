import Beamline.Proofs.Deck.Members
import Beamline.Proofs.Plain.Items
import Beamline.Proofs.Portrait.Element

/-!
# Items that are ignored

An item that is ignored raises its warning and does nothing else: its expression is not stored, and
the element stays as it is. Actions on a deck write diagnostics but never read them, so that the
items that come after are entered as if the ignored ones had not been there.

* `Deck.enterItem_of_ignored`: an ignored item.
* `Deck.tallies_defineElement`: a definition without its ignored items leaves the same deck.
-/

namespace Beamline

open Source (Position)
open Diagnostic (Condition)
open Beamline.Expr (Formula Forest Node NodeId)
open Beamline.Element (Item Kind Role)

/-! ## Lowering -/

namespace Lowering

/-- The same nodes are stored, whatever has been raised. -/
def SameForest (draft other : Draft) : Prop :=
  draft.forest = other.forest

/-- With the same nodes stored both steps come to the same result or the same error, and store the
same nodes. -/
abbrev Tallies {α : Type} (a b : Step α) : Prop :=
  Mirrors SameForest a b (fun x y draft other => x = y ∧ SameForest draft other)
    fun e d draft other => e = d ∧ SameForest draft other

variable {α : Type} {scope : Scope}

theorem tallies_pure (x : α) : Tallies (pure x) (pure x) :=
  Mirrors.of_pure fun _ _ h => ⟨rfl, h⟩

theorem tallies_throw (e : FatalError) : Tallies (throw e : Step α) (throw e) :=
  Mirrors.of_throw fun _ _ h => ⟨rfl, h⟩

theorem tallies_raise (condition : Condition) :
    Tallies (raise scope condition) (raise scope condition) :=
  Mirrors.of_modify fun _ _ h => ⟨rfl, h⟩

theorem tallies_alloc (node : Node) : Tallies (alloc node) (alloc node) := by
  intro draft other h
  refine .inl ⟨_, _, _, _, rfl, rfl, ?_, ?_⟩
  · rw [h]
  · exact congrArg (fun forest => (forest.alloc node).2) h

theorem tallies_unless_raise (known : Bool) (condition : Condition) {next : Step α}
    (h : Tallies next next) :
    Tallies
      (do
        unless known do
          raise scope condition
        next)
      (do
        unless known do
          raise scope condition
        next) := by
  cases known with
  | true => exact h
  | false => exact (tallies_raise condition).bind_eq fun _ => h

theorem tallies_classify (scope : Scope) (name : Name) (arithmetic : Bool) :
    Tallies (classify scope name arithmetic) (classify scope name arithmetic) := by
  unfold classify
  cases scope.symbols.consts.get? name with
  | some constant =>
    refine Mirrors.ite Iff.rfl (fun _ => tallies_pure _) fun _ => ?_
    exact Mirrors.ite Iff.rfl (fun _ => tallies_throw _) fun _ => tallies_pure _
  | none =>
    refine Mirrors.ite Iff.rfl (fun _ => ?_) fun _ => ?_
    · exact (tallies_raise _).bind_eq fun _ => tallies_pure _
    · exact tallies_unless_raise _ _ (tallies_pure _)

/-- What is stored does not depend on what has been raised. -/
theorem tallies_lower (scope : Scope) (formula : Formula) (arithmetic : Bool) :
    Tallies (lower scope formula arithmetic) (lower scope formula arithmetic) := by
  induction formula generalizing arithmetic with
  | number x => exact tallies_alloc _
  | text content =>
    cases arithmetic with
    | true => exact (tallies_throw _).bind_eq fun _ => tallies_alloc _
    | false => exact tallies_alloc _
  | name raw => exact (tallies_classify scope _ arithmetic).bind_eq fun node => tallies_alloc node
  | lengthOf raw => exact tallies_unless_raise _ _ (tallies_alloc _)
  | parens inner ih => exact (ih arithmetic).bind_eq fun id => tallies_alloc _
  | signed sign operand ih => exact (ih true).bind_eq fun id => tallies_alloc _
  | binary op left right ihl ihr =>
    exact (ihl true).bind_eq fun l => (ihr true).bind_eq fun r => tallies_alloc _
  | call f argument ih => exact (ih true).bind_eq fun id => tallies_alloc _

end Lowering

/-! ## Actions -/

namespace Deck

/-- The same deck is worked on, whatever has been raised. -/
def SameDeck (w v : Work) : Prop :=
  w.deck = v.deck

/-- On the same deck both actions come to the same result or the same error, and leave the same
deck. -/
abbrev Tallies {α : Type} (a b : Action α) : Prop :=
  Mirrors SameDeck a b (fun x y w v => x = y ∧ SameDeck w v) fun e d w v => e = d ∧ SameDeck w v

variable {α : Type} {element : Element}

theorem tallies_pure (x : α) : Tallies (pure x) (pure x) :=
  Mirrors.of_pure fun _ _ h => ⟨rfl, h⟩

theorem tallies_current {f g : Deck → Action α} (h : ∀ deck, Tallies (f deck) (g deck)) :
    Tallies (current >>= f) (current >>= g) := by
  rintro ⟨deck, raised⟩ ⟨other, raised'⟩ hsame
  obtain rfl : deck = other := hsame
  exact h deck _ _ rfl

theorem tallies_change (f : Deck → Deck) : Tallies (change f) (change f) :=
  Mirrors.of_modify fun _ _ h => ⟨rfl, congrArg f h⟩

theorem tallies_raise (condition : Condition) : Tallies (raise condition) (raise condition) :=
  Mirrors.of_modify fun _ _ h => ⟨rfl, h⟩

/-- Raising a condition or not makes no difference. -/
theorem tallies_raise_left (condition : Condition) {a b : Action α} (h : Tallies a b) :
    Tallies (do raise condition; a) b :=
  Mirrors.bind_left (R := fun _ => SameDeck) (fun _ v hsame => .inl ⟨_, _, _, v, rfl, rfl, hsame⟩)
    fun _ => h

theorem tallies_lower (formula : Formula) : Tallies (lower formula) (lower formula) := by
  rintro ⟨deck, raised⟩ ⟨other, raised'⟩ hsame
  obtain rfl : deck = other := hsame
  let scope : Lowering.Scope := { symbols := deck.symbols, pos := deck.pos, constantsOnly := false }
  have hrun (raised : Array Diagnostic) : (lower formula).run ⟨deck, raised⟩ =
      let run := (Lowering.lower scope formula false).run ⟨deck.forest, raised⟩
      (run.1, ⟨{ deck with forest := run.2.forest }, run.2.raised⟩) := rfl
  have hstored {d d' : Lowering.Draft} (h : Lowering.SameForest d d') :
      SameDeck ⟨{ deck with forest := d.forest }, d.raised⟩
        ⟨{ deck with forest := d'.forest }, d'.raised⟩ :=
    congrArg (fun forest => ({ deck with forest } : Deck)) h
  rw [hrun, hrun]
  rcases Lowering.tallies_lower scope formula false ⟨deck.forest, raised⟩ ⟨deck.forest, raised'⟩
      rfl with ⟨x, y, d, d', ha, hb, hxy, hforest⟩ | ⟨e, e', d, d', ha, hb, hee', hforest⟩
  · rw [ha, hb]
    exact .inl ⟨_, _, _, _, rfl, rfl, hxy, hstored hforest⟩
  · rw [ha, hb]
    exact .inr ⟨_, _, _, _, rfl, rfl, hee', hstored hforest⟩

/-- An action that keeps what has been raised and comes to what the deck says. -/
theorem tallies_of_run {a : Action α} {f : Deck → Except FatalError α × Deck}
    (h : ∀ w, a.run w = ((f w.deck).1, { w with deck := (f w.deck).2 })) : Tallies a a := by
  rintro ⟨deck, raised⟩ ⟨other, raised'⟩ hsame
  obtain rfl : deck = other := hsame
  rw [h, h]
  rcases f deck with ⟨e | x, next⟩
  · exact .inr ⟨_, _, _, _, rfl, rfl, rfl, rfl⟩
  · exact .inl ⟨_, _, _, _, rfl, rfl, rfl, rfl⟩

theorem tallies_release (id : NodeId) : Tallies (release id) (release id) :=
  tallies_of_run (f := fun deck =>
    let step := deck.forest.release id
    ((step.1.map fun _ => ()).mapError .fault, { deck with forest := step.2 })) fun _ => rfl

theorem tallies_removeElement (name : Name) : Tallies (removeElement name) (removeElement name) :=
  tallies_of_run (f := fun deck =>
    let step := deck.symbols.elements.remove name deck.forest
    (step.1.mapError .fault, { deck with
      symbols := { deck.symbols with elements := step.2.1 }
      forest := step.2.2 })) fun _ => rfl

theorem tallies_insertElement (record : Element) :
    Tallies (insertElement record) (insertElement record) :=
  tallies_of_run (f := fun deck =>
    let step := deck.symbols.elements.insert record deck.forest
    (step.1.mapError .fault, { deck with
      symbols := { deck.symbols with elements := step.2.1 }
      forest := step.2.2 })) fun _ => rfl

/-! ## Items -/

theorem tallies_refused (condition : Condition) (element : Element) :
    Tallies (do raise condition; return element) (do raise condition; return element) :=
  (tallies_raise condition).bind_eq fun _ => tallies_pure element

theorem tallies_releaseReplaced (previous : Option NodeId) :
    Tallies (releaseReplaced previous) (releaseReplaced previous) := by
  cases previous with
  | none => exact tallies_pure ()
  | some id => exact tallies_release id

theorem tallies_settle (formula : Formula) (element : Element)
    (enter : NodeId → Except Element.Refusal (Option NodeId × Element)) :
    Tallies
      (do
        let id ← lower formula
        settle element id (enter id))
      (do
        let id ← lower formula
        settle element id (enter id)) := by
  refine (tallies_lower formula).bind_eq fun id => ?_
  cases enter id with
  | ok changed => exact (tallies_releaseReplaced changed.1).bind_eq fun _ => tallies_pure changed.2
  | error refusal => exact (tallies_release id).bind_eq fun _ => tallies_refused _ element

theorem tallies_entryItem (element : Element) (index : Option Element.MapIndex) (written : String)
    (value : Formula) :
    Tallies (entryItem element index written value) (entryItem element index written value) := by
  refine Mirrors.ite Iff.rfl (fun _ => tallies_refused _ element) fun _ => ?_
  cases index with
  | none => exact tallies_refused _ element
  | some index => exact tallies_settle value element (element.assignEntry index)

/-- What an item does to the deck does not depend on what has been raised. -/
theorem tallies_enterItem (element : Element) (item : Item) :
    Tallies (enterItem element item) (enterItem element item) := by
  cases item with
  | assign key value =>
    rw [enterItem, assignItem]
    split
    · exact tallies_pure _
    · exact Mirrors.ite Iff.rfl (fun _ => tallies_settle value element (element.assign key))
        fun _ => tallies_refused _ element
  | flag key =>
    rw [enterItem, flagItem]
    refine tallies_current fun deck => ?_
    cases element.flag key deck.forest with
    | ok changed =>
      refine (tallies_change _).bind_eq fun _ => ?_
      exact (tallies_releaseReplaced changed.1).bind_eq fun _ => tallies_pure changed.2.1
    | error refusal => exact tallies_refused _ element
  | label text => exact tallies_pure _
  | rm i j value => exact tallies_entryItem element _ _ value
  | tm i j k value => exact tallies_entryItem element _ _ value

/-! ## Ignored items -/

variable {condition : Condition}

theorem assignItem_of_ignored {key : String} {value : Formula}
    (h : Element.assignRole element.kind key value = .ignored condition) :
    assignItem element key value = do raise condition; return element := by
  unfold Element.assignRole at h
  unfold assignItem
  rw [← Element.assignedLabel?]
  cases hlabel : Element.assignedLabel? key value with
  | some text =>
    rw [hlabel] at h
    cases h
  | none =>
    rw [hlabel] at h
    cases hi : element.kind.slotIndex? key with
    | some i =>
      rw [hi] at h
      cases h
    | none =>
      rw [hi] at h
      obtain rfl := Role.ignored.inj h
      rfl

theorem flagItem_of_ignored {key : String}
    (h : Element.flagRole element.kind key = .ignored condition) :
    flagItem element key = do raise condition; return element := by
  -- the element refuses the keyword on any forest
  obtain ⟨refusal, hflag, rfl⟩ : ∃ refusal : Element.Refusal,
      (∀ forest, element.flag key forest = .error refusal) ∧
        refusal.condition element.name = condition := by
    unfold Element.flagRole at h
    cases hi : element.kind.slotIndex? key with
    | none =>
      rw [hi] at h
      obtain rfl := Role.ignored.inj h
      exact ⟨_, element.flag_of_slotIndex?_eq_none hi, rfl⟩
    | some i =>
      cases hx : element.kind.flagDefault? key with
      | some x =>
        rw [hi, hx] at h
        cases h
      | none =>
        rw [hi, hx] at h
        obtain rfl := Role.ignored.inj h
        exact ⟨_, element.flag_of_flagDefault?_eq_none hi hx, rfl⟩
  have hcurrent (w : Work) : (current : Action Deck).run w = (.ok w.deck, w) := rfl
  refine ExceptT.ext (StateT.ext fun w => ?_)
  change (flagItem element key).run w = _
  rw [flagItem, run_bind_of_ok (hcurrent w), hflag]
  rfl

theorem entryItem_of_ignored {index : Option Element.MapIndex} {written : String} {value : Formula}
    (h : Element.entryRole element.kind element.name index written value = .ignored condition) :
    entryItem element index written value = do raise condition; return element := by
  unfold Element.entryRole at h
  unfold entryItem
  by_cases hkind : element.kind = .matrix
  · rw [if_neg (not_not.2 hkind)] at h
    rw [if_neg (not_not.2 hkind)]
    cases index with
    | none =>
      obtain rfl := Role.ignored.inj h
      rfl
    | some index => cases h
  · rw [if_pos hkind] at h
    obtain rfl := Role.ignored.inj h
    rw [if_pos hkind]
    rfl

/-- An ignored item raises its warning and does nothing else. -/
theorem enterItem_of_ignored {item : Item}
    (h : item.role element.kind element.name = .ignored condition) :
    enterItem element item = do raise condition; return element := by
  cases item with
  | assign key value =>
    rw [Item.role] at h
    rw [enterItem, assignItem_of_ignored h]
  | flag key =>
    rw [Item.role] at h
    rw [enterItem, flagItem_of_ignored h]
  | label text => cases h
  | rm i j value =>
    rw [Item.role] at h
    rw [enterItem, entryItem_of_ignored h]
  | tm i j k value =>
    rw [Item.role] at h
    rw [enterItem, entryItem_of_ignored h]

/-- Items that are ignored make no difference to the element and the deck. -/
theorem tallies_enterItems (items : List Item) (element : Element) :
    Tallies (items.foldlM enterItem element)
      ((Element.accepted element.kind element.name items).foldlM enterItem element) := by
  induction items generalizing element with
  | nil => exact tallies_pure element
  | cons item items ih =>
    rw [List.foldlM_cons, Element.accepted]
    cases hrole : item.role element.kind element.name with
    | ignored condition =>
      rw [List.filter_cons_of_neg (by simp [hrole, Role.isIgnored]),
        enterItem_of_ignored hrole, bind_assoc]
      exact tallies_raise_left condition (ih element)
    | store | label =>
      rw [List.filter_cons_of_pos (by simp [hrole, Role.isIgnored]), List.foldlM_cons]
      -- the element keeps its kind and its name, and with them the roles of the items to come
      have hitem := (tallies_enterItem element item).and_run fun _ _ _ x w hrun =>
        (keepsHead_enterItem element item).of_run_ok trivial hrun
      refine hitem.bind fun x y w v hxy => ?_
      obtain ⟨⟨rfl, hsame⟩, hname, hkind⟩ := hxy
      have hrest := ih x
      rw [hname, hkind] at hrest
      exact hrest w v hsame

theorem tallies_defineElement (raw : String) (kind : Kind) (items : List Item) :
    Tallies (defineElement raw kind items)
      (defineElement raw kind (Element.accepted kind (Name.ofText raw) items)) := by
  have hrest : Tallies
      (do
        let element ←
          items.foldlM enterItem (Element.blank (Name.ofText raw) kind (← current).pos)
        discard <| insertElement element)
      (do
        let element ← (Element.accepted kind (Name.ofText raw) items).foldlM enterItem
          (Element.blank (Name.ofText raw) kind (← current).pos)
        discard <| insertElement element) := by
    refine tallies_current fun deck => ?_
    refine (tallies_enterItems items (Element.blank (Name.ofText raw) kind deck.pos)).bind_eq
      fun element => ?_
    exact ((tallies_insertElement element).bind_eq fun _ => tallies_pure ())
  refine (tallies_removeElement (Name.ofText raw)).bind_eq fun isDefined => ?_
  refine Mirrors.ite Iff.rfl (fun _ => ?_) fun _ => hrest
  exact (tallies_raise _).bind_eq fun _ => hrest

end Deck

end Beamline
