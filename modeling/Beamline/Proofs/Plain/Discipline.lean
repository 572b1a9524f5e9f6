import Beamline.Proofs.Clause
import Beamline.Proofs.Ensures
import Beamline.Proofs.Plain.Deck

/-!
# Disciplines

A discipline says something of the terms that a deck keeps, of the values of its constants and of
the errors that are met on it. A deck obeys for ever if what the formulas handed over are lowered to
obeys, and if so do the values that such terms come to.

Nothing is stored before all of a definition has been lowered and evaluated. So a definition that
fails leaves the deck as it was, except for an element of the name that it defines, which is removed
before the items are entered.

* `Discipline.Governs`: what has to be shown of the formulas that are handed over.
* `Discipline.settles_perform`, `Discipline.settles_apply`: what a statement makes of a deck.
-/

namespace Beamline.Plain

open Source (Position)
open Diagnostic (Condition)
open Beamline.Expr (Formula Term)

/-! ## Losing an element -/

/-- The symbols without the element of the name that is lost, if one is. -/
def Symbols.but {ε : Type} (lost : Option Name) (symbols : Symbols ε) : Symbols ε :=
  { symbols with elements := symbols.elements.filter fun e => some e.name ≠ lost }

theorem Symbols.but_none {ε : Type} (symbols : Symbols ε) : symbols.but none = symbols := by
  rw [but, List.filter_eq_self.2 (by simp)]

theorem Symbols.but_some {ε : Type} (name : Name) (symbols : Symbols ε) :
    symbols.but (some name) = { symbols with elements := symbols.elements.without name } := by
  simp [but, Table.without, Named.name]

theorem Symbols.map_but {ε δ : Type} (f : ε → δ) (lost : Option Name) (symbols : Symbols ε) :
    (symbols.but lost).map f = (symbols.map f).but lost := by
  simp only [but, map, List.filter_map]
  rfl

/-- The deck without the element of the name that is lost, if one is. -/
def Deck.but (lost : Option Name) (d : Deck Term) : Deck Term :=
  { d with symbols := d.symbols.but lost }

theorem Deck.but_none (d : Deck Term) : d.but none = d := by
  rw [but, Symbols.but_none]

/-! ## Obeying -/

/-- What is said of terms and values, and of errors on a deck. -/
structure Discipline where
  /-- What is said of a term that is kept. -/
  term : Term → Prop
  /-- What is said of a value. -/
  value : Value → Prop
  /-- What is said of an error that leaves a deck behind. -/
  error : Deck Term → Error → Prop

namespace Table

/-- What is in a table after a record is stored is that record, or was there before. -/
theorem eq_or_mem_of_mem_insert {ρ : Type} [Named ρ] {t : Table ρ} {record other : ρ}
    (h : other ∈ t.insert record) : other = record ∨ other ∈ t :=
  (List.mem_cons.1 h).imp_right fun hmem => (List.mem_filter.1 hmem).1

end Table

namespace Element

variable {ε : Type} {e : Element ε} {x y : ε}

/-- The expressions among places of which one has been filled. -/
theorem eq_or_mem_of_mem_set {places : List (Option ε)} {i : Nat}
    (h : y ∈ (places.set i (some x)).filterMap id) : y = x ∨ y ∈ places.filterMap id := by
  obtain ⟨o, ho, rfl⟩ := List.mem_filterMap.1 h
  rcases List.mem_or_eq_of_mem_set ho with ho | ho
  · exact .inr (List.mem_filterMap.2 ⟨_, ho, rfl⟩)
  · exact .inl (Option.some.inj ho)

theorem eq_or_mem_of_mem_setSlot {i : Nat} (h : y ∈ (e.setSlot i x).exprs) :
    y = x ∨ y ∈ e.exprs := by
  rcases List.mem_append.1 h with h | h
  · exact (eq_or_mem_of_mem_set h).imp_right (List.mem_append_left _)
  · exact .inr (List.mem_append_right _ h)

theorem eq_or_mem_of_mem_setEntry {index : Beamline.Element.MapIndex}
    (h : y ∈ (e.setEntry index x).exprs) : y = x ∨ y ∈ e.exprs := by
  rcases List.mem_append.1 h with h | h
  · exact .inr (List.mem_append_left _ h)
  · unfold exprs
    unfold setEntry at h
    cases hentries : e.entries with
    | none =>
      rw [hentries] at h
      cases h
    | some entries =>
      rw [hentries] at h
      exact (eq_or_mem_of_mem_set h).imp_right (List.mem_append_right _)

end Element

namespace Deck

variable {d : Deck Term} {D : Discipline}

/-- All terms that the records hold obey, and all values of constants. -/
structure Obeys (d : Deck Term) (D : Discipline) : Prop where
  /-- The constants obey. -/
  consts : ∀ c ∈ d.symbols.consts, D.value c.value ∧ D.term c.source
  /-- The variables obey. -/
  vars : ∀ v ∈ d.symbols.vars, D.term v.expr
  /-- The elements obey. -/
  elements : ∀ e ∈ d.symbols.elements, ∀ t ∈ e.exprs, D.term t

namespace Obeys

theorem term_of_mem (h : d.Obeys D) {t : Term} (ht : t ∈ d.symbols.exprs) : D.term t := by
  rcases List.mem_append.1 ht with ht | ht
  · rcases List.mem_append.1 ht with ht | ht
    · obtain ⟨c, hc, rfl⟩ := List.mem_map.1 ht
      exact (h.consts c hc).2
    · obtain ⟨v, hv, rfl⟩ := List.mem_map.1 ht
      exact h.vars v hv
  · obtain ⟨e, he, ht⟩ := List.mem_flatMap.1 ht
    exact h.elements e he t ht

/-- More may be said of terms and values. -/
theorem mono (h : d.Obeys D) {D' : Discipline} (hterm : ∀ t, D.term t → D'.term t)
    (hvalue : ∀ v, D.value v → D'.value v) : d.Obeys D' where
  consts c hc := (h.consts c hc).imp (hvalue _) (hterm _)
  vars v hv := hterm _ (h.vars v hv)
  elements e he t ht := hterm t (h.elements e he t ht)

theorem but (h : d.Obeys D) (lost : Option Name) : (d.but lost).Obeys D where
  consts := h.consts
  vars := h.vars
  elements e he := h.elements e (List.mem_filter.1 he).1

theorem insertConstant (h : d.Obeys D) {record : Constant Term} (hvalue : D.value record.value)
    (hsource : D.term record.source) :
    Obeys { d with symbols := { d.symbols with consts := d.symbols.consts.insert record } } D where
  consts c hc := by
    rcases Table.eq_or_mem_of_mem_insert hc with rfl | hc
    · exact ⟨hvalue, hsource⟩
    · exact h.consts c hc
  vars := h.vars
  elements := h.elements

theorem insertVariable (h : d.Obeys D) {record : Variable Term} (hexpr : D.term record.expr) :
    Obeys { d with symbols := { d.symbols with vars := d.symbols.vars.insert record } } D where
  consts := h.consts
  vars v hv := by
    rcases Table.eq_or_mem_of_mem_insert hv with rfl | hv
    · exact hexpr
    · exact h.vars v hv
  elements := h.elements

theorem insertElement (h : d.Obeys D) {record : Element Term}
    (hexprs : ∀ t ∈ record.exprs, D.term t) :
    Obeys { d with symbols := { d.symbols with
      elements := d.symbols.elements.insert record } } D where
  consts := h.consts
  vars := h.vars
  elements e he := by
    rcases Table.eq_or_mem_of_mem_insert he with rfl | he
    · exact hexprs
    · exact h.elements e he

/-- Neither a position nor the lines matter. -/
theorem of_symbols (h : d.Obeys D) {d' : Deck Term} (hconsts : d'.symbols.consts = d.symbols.consts)
    (hvars : d'.symbols.vars = d.symbols.vars)
    (helements : d'.symbols.elements = d.symbols.elements) : d'.Obeys D where
  consts := hconsts ▸ h.consts
  vars := hvars ▸ h.vars
  elements := helements ▸ h.elements

end Obeys

end Deck

/-- The deck before the first statement obeys if the one constant that it has does. -/
theorem Deck.obeys_initial {D : Discipline} (limits : Limits)
    (hvalue : D.value (.number Angle.halfTurn)) (hterm : D.term (.number Angle.halfTurn)) :
    (initial limits).Obeys D where
  consts c hc := by
    rw [List.mem_singleton.1 hc]
    exact ⟨hvalue, hterm⟩
  vars _ hv := nomatch hv
  elements _ he := nomatch he

/-! ## Actions on a deck that obeys -/

/-- What is done with the deck as it is. -/
theorem Deck.ensures_current {α : Type} {d : Deck Term} {f : Deck Term → Deck.Action α}
    {Q : α → Deck.Work → Prop} {E : Error → Deck.Work → Prop}
    (h : Ensures (fun w : Deck.Work => w.deck = d) (f d) Q E) :
    Ensures (fun w : Deck.Work => w.deck = d) (Deck.current >>= f) Q E := by
  rintro w rfl
  exact h w rfl

namespace Discipline

variable {D : Discipline} {d : Deck Term} {α β : Type} {formulas : List Formula}
  {bodies : List Line.Body}

/-- The action leaves the deck as it is, and what it comes to obeys. -/
abbrev Tracks (D : Discipline) (d : Deck Term) (a : Deck.Action α) (Q : α → Prop) : Prop :=
  Ensures (fun w : Deck.Work => w.deck = d) a (fun x w => Q x ∧ w.deck = d)
    fun e w => D.error d e ∧ w.deck = d

/-- The action leaves a deck that obeys. If it fails, the deck is as it was but for the element that
is lost. -/
abbrev Settles (D : Discipline) (d : Deck Term) (lost : Option Name) (a : Deck.Action α) : Prop :=
  Ensures (fun w : Deck.Work => w.deck = d) a (fun _ w => w.deck.Obeys D)
    fun e w => D.error w.deck e ∧ w.deck = d.but lost

/-- On this deck the formulas are lowered to terms that obey, and terms that obey come to values
that do. -/
structure Covers (D : Discipline) (d : Deck Term) (formulas : List Formula)
    (bodies : List Line.Body) : Prop where
  /-- Numbers obey. -/
  number : ∀ x, D.value (.number x)
  /-- What stands for a value obeys if the value does. -/
  ofValue : ∀ v, D.value v → D.term (.ofValue v)
  /-- The formulas are lowered to terms that obey. -/
  lower : ∀ formula ∈ formulas, ∀ constantsOnly,
    D.Tracks d (Deck.lowerWith constantsOnly formula) D.term
  /-- Terms that obey come to values that obey. -/
  evaluate : ∀ t, D.term t → D.Tracks d (Deck.evaluate t) D.value
  /-- The bodies are laid out, or fail in an error that obeys. -/
  layout : ∀ body ∈ bodies, D.Tracks d (Deck.layout body) fun _ => True

/-- The formulas and the bodies are covered on all decks with the given constants that obey. -/
def Governs (D : Discipline) (consts : Table (Constant Term)) (formulas : List Formula)
    (bodies : List Line.Body) : Prop :=
  ∀ d : Deck Term, d.symbols.consts = consts → d.Obeys D → D.Covers d formulas bodies

theorem Covers.mono {part : List Formula} (h : D.Covers d formulas bodies)
    (hsub : part ⊆ formulas) : D.Covers d part bodies :=
  { h with lower := fun formula hmem => h.lower formula (hsub hmem) }

/-- An action that leaves the deck as it is, whatever it comes to. -/
theorem tracks_of_run {a : Deck.Action α} {Q : α → Prop}
    (hdeck : ∀ w, (a.run w).2.deck = w.deck) (hresult : ∀ x, Q x) (herror : ∀ e, D.error d e) :
    D.Tracks d a Q := by
  rintro w rfl
  have hw := hdeck w
  rcases hrun : a.run w with ⟨e | x, w'⟩ <;> rw [hrun] at hw
  · exact .inr ⟨e, w', rfl, herror e, hw⟩
  · exact .inl ⟨x, w', rfl, hresult x, hw⟩

/-- A step that only looks at the deck. -/
theorem tracks_observe {f : Deck Term → Step α} {Q : α → Prop}
    (h : Ensures (fun _ => True) (f d) (fun x _ => Q x) fun e _ => D.error d e) :
    D.Tracks d (Deck.observe f) Q := by
  rintro ⟨_, raised⟩ rfl
  rw [Deck.run_observe]
  rcases h raised trivial with ⟨x, raised', hrun, hx⟩ | ⟨e, raised', hrun, he⟩ <;> rw [hrun]
  · exact .inl ⟨x, _, rfl, hx, rfl⟩
  · exact .inr ⟨e, _, rfl, he, rfl⟩

/-- Where values and errors are free, only lowering is left to be shown. -/
theorem governs_of_lower {consts : Table (Constant Term)} (hvalue : ∀ v, D.value v)
    (herror : ∀ d e, D.error d e) (hofValue : ∀ v, D.term (.ofValue v))
    (hlower : ∀ d : Deck Term, d.symbols.consts = consts → ∀ formula ∈ formulas,
      ∀ constantsOnly, D.Tracks d (Deck.lowerWith constantsOnly formula) D.term) :
    D.Governs consts formulas bodies := fun d hconsts _ =>
  { number := fun _ => hvalue _
    ofValue := fun v _ => hofValue v
    lower := hlower d hconsts
    evaluate := fun _ _ => tracks_of_run (fun _ => rfl) hvalue (herror d)
    layout := fun _ _ => tracks_of_run (fun _ => rfl) (fun _ => trivial) (herror d) }

theorem tracks_pure {x : α} {Q : α → Prop} (h : Q x) : D.Tracks d (pure x) Q :=
  Ensures.of_pure fun _ hw => ⟨h, hw⟩

theorem tracks_raise (condition : Condition) : D.Tracks d (Deck.raise condition) fun _ => True :=
  Ensures.of_modify fun _ hw => ⟨trivial, hw⟩

theorem Tracks.bind {a : Deck.Action α} {f : α → Deck.Action β} {R : α → Prop} {Q : β → Prop}
    (h : D.Tracks d a R) (hf : ∀ x, R x → D.Tracks d (f x) Q) : D.Tracks d (a >>= f) Q :=
  Ensures.bind h fun x => Ensures.of_and (hf x)

theorem Tracks.map {a : Deck.Action α} {f : α → β} {R : α → Prop} {Q : β → Prop}
    (h : D.Tracks d a R) (hf : ∀ x, R x → Q (f x)) : D.Tracks d (f <$> a) Q :=
  Ensures.map (h.imp (fun _ => id) (fun x _ hx => ⟨hf x hx.1, hx.2⟩) fun _ _ => id)

/-- What leaves the deck as it is comes before what changes it. -/
theorem Tracks.bind_settles {a : Deck.Action α} {f : α → Deck.Action β} {R : α → Prop}
    (h : D.Tracks d a R) (hf : ∀ x, R x → D.Settles d none (f x)) :
    D.Settles d none (a >>= f) := by
  refine Ensures.bind (h.imp_error ?_) fun x => Ensures.of_and (hf x)
  rintro e w ⟨he, rfl⟩
  exact ⟨he, (Deck.but_none _).symm⟩

theorem Tracks.settles {a : Deck.Action α} {Q : α → Prop} (h : D.Tracks d a Q) (hd : d.Obeys D) :
    D.Settles d none a := by
  refine h.imp (fun _ => id) ?_ ?_
  · rintro _ w ⟨-, rfl⟩
    exact hd
  · rintro e w ⟨he, rfl⟩
    exact ⟨he, (Deck.but_none _).symm⟩

/-- What changes the deck into another that obeys. -/
theorem settles_of_run {a : Deck.Action Unit} (d' : Deck Term) {lost : Option Name}
    (hrun : ∀ raised, a.run ⟨d, raised⟩ = (.ok (), ⟨d', raised⟩)) (h : d'.Obeys D) :
    D.Settles d lost a := by
  rintro w rfl
  exact .inl ⟨(), _, hrun w.raised, h⟩

/-- What changes the commentary. -/
theorem settles_of_commentary (hd : d.Obeys D) {a : Deck.Action Unit} (commentary : Commentary)
    (hrun : ∀ raised, a.run ⟨d, raised⟩ = (.ok (), ⟨{ d with commentary }, raised⟩)) :
    D.Settles d none a :=
  settles_of_run { d with commentary } hrun (hd.of_symbols rfl rfl rfl)

/-! ## Definitions -/

theorem settles_defineConstant (hd : d.Obeys D) (raw : String) {formula : Formula}
    (h : D.Covers d [formula] bodies) : D.Settles d none (Deck.defineConstant raw formula) := by
  refine Deck.ensures_current (Ensures.ite (fun _ => (tracks_raise _).settles hd) fun _ => ?_)
  refine (h.lower formula List.mem_cons_self true).bind_settles fun t ht => ?_
  refine (h.evaluate t ht).bind_settles fun value hvalue => Deck.ensures_current ?_
  have hinsert : D.Settles d none (Deck.insertConstant ⟨Name.ofText raw, value, t, d.pos⟩) :=
    settles_of_run _ (fun _ => rfl) (hd.insertConstant hvalue ht)
  exact Ensures.ite (fun _ => (tracks_raise _).bind_settles fun _ _ => hinsert) fun _ => hinsert

theorem settles_defineVariable (hd : d.Obeys D) (raw : String) {formula : Formula}
    (binding : Binding) (h : D.Covers d [formula] bodies) :
    D.Settles d none (Deck.defineVariable raw formula binding) := by
  refine Deck.ensures_current (Ensures.ite (fun _ => (tracks_raise _).settles hd) fun _ => ?_)
  refine (h.lower formula List.mem_cons_self false).bind_settles fun t ht => ?_
  have hinsert (expr : Term) (hexpr : D.term expr) : D.Settles d none (do
      Deck.insertVariable { name := Name.ofText raw, expr, pos := (← Deck.current).pos }) := by
    let record : Variable Term := { name := Name.ofText raw, expr, pos := d.pos }
    have hrecord : D.term record.expr := hexpr
    exact settles_of_run _ (fun _ => rfl) (hd.insertVariable hrecord)
  cases binding with
  | deferred => exact (tracks_pure ht).bind_settles hinsert
  | immediate => exact ((h.evaluate t ht).map h.ofValue).bind_settles hinsert

/-! ## Elements -/

/-- All terms of the element obey. -/
def Holds (D : Discipline) (element : Element Term) : Prop :=
  ∀ t ∈ element.exprs, D.term t

variable {element : Element Term}

theorem Holds.setSlot (h : D.Holds element) {t : Term} (ht : D.term t) (i : Nat) :
    D.Holds (element.setSlot i t) := by
  intro u hu
  rcases Element.eq_or_mem_of_mem_setSlot hu with rfl | hu
  · exact ht
  · exact h u hu

theorem Holds.setEntry (h : D.Holds element) {t : Term} (ht : D.term t)
    (index : Beamline.Element.MapIndex) : D.Holds (element.setEntry index t) := by
  intro u hu
  rcases Element.eq_or_mem_of_mem_setEntry hu with rfl | hu
  · exact ht
  · exact h u hu

/-- A condition is raised, and the element stays as it is. -/
theorem tracks_refused (condition : Condition) (h : D.Holds element) :
    D.Tracks d (do
      Deck.raise condition
      return element) D.Holds :=
  (tracks_raise condition).bind fun _ _ => tracks_pure h

/-- A formula is lowered and entered into the element. -/
theorem tracks_entry {formula : Formula} {f : Term → Element Term}
    (h : D.Covers d [formula] bodies) (hf : ∀ t, D.term t → D.Holds (f t)) :
    D.Tracks d (do return f (← Deck.lower formula)) D.Holds :=
  (h.lower formula List.mem_cons_self false).bind fun t ht => tracks_pure (hf t ht)

theorem tracks_entryItem (helement : D.Holds element)
    (index : Option Beamline.Element.MapIndex) (written : String) {value : Formula}
    (h : D.Covers d [value] bodies) :
    D.Tracks d (Deck.entryItem element index written value) D.Holds := by
  refine Ensures.ite (fun _ => tracks_refused _ helement) fun _ => ?_
  cases index with
  | none => exact tracks_refused _ helement
  | some index => exact tracks_entry h fun t ht => helement.setEntry ht index

theorem tracks_enterItem (helement : D.Holds element) (item : Element.Item)
    (h : D.Covers d item.formulas bodies) : D.Tracks d (Deck.enterItem element item) D.Holds := by
  cases item with
  | assign key value =>
    rw [Deck.enterItem, Deck.assignItem]
    rw [Element.Item.formulas] at h
    cases hlabel : if Text.normalize key = "TYPE" then Deck.labelOf? value else none with
    | some label => exact tracks_pure helement
    | none =>
      rw [hlabel] at h
      dsimp only
      split
      · exact tracks_entry h fun t ht => helement.setSlot ht _
      · exact tracks_refused _ helement
  | flag key =>
    rw [Deck.enterItem, Deck.flagItem]
    split
    · split
      · exact tracks_pure (helement.setSlot (h.ofValue _ (h.number _)) _)
      · exact tracks_refused _ helement
    · exact tracks_refused _ helement
  | label text => exact tracks_pure helement
  | rm i j value => exact tracks_entryItem helement _ _ h
  | tm i j k value => exact tracks_entryItem helement _ _ h

theorem settles_defineElement (hd : d.Obeys D) (raw : String) (kind : Element.Kind)
    {items : List Element.Item}
    (h : D.Covers (d.but (some (Name.ofText raw))) (items.flatMap Element.Item.formulas)
      bodies) :
    D.Settles d (some (Name.ofText raw)) (Deck.defineElement raw kind items) := by
  let left := d.but (some (Name.ofText raw))
  have hleft : left.Obeys D := hd.but _
  -- what follows the removal, be there an element of the name or not
  have hrest : D.Settles left none (do
      let element ← items.foldlM Deck.enterItem
        (Element.blank (Name.ofText raw) kind (← Deck.current).pos)
      Deck.insertElement element) := by
    refine Deck.ensures_current ?_
    have hitem : ∀ item ∈ items, ∀ element,
        Ensures (fun w : Deck.Work => D.Holds element ∧ w.deck = left)
          (Deck.enterItem element item) (fun element w => D.Holds element ∧ w.deck = left)
          fun e w => D.error left e ∧ w.deck = left := by
      intro item hitem element
      refine Ensures.of_and fun helement => tracks_enterItem helement item (h.mono ?_)
      exact fun formula hformula => List.mem_flatMap.2 ⟨item, hitem, hformula⟩
    have hblank : D.Holds (Element.blank (Name.ofText raw) kind left.pos) := by
      intro t ht
      rw [Element.exprs_blank] at ht
      cases ht
    have hitems : D.Tracks left (items.foldlM Deck.enterItem
        (Element.blank (Name.ofText raw) kind left.pos)) D.Holds :=
      (Ensures.foldlM hitem _).imp (fun _ hw => ⟨hblank, hw⟩) (fun _ _ => id) fun _ _ => id
    exact hitems.bind_settles fun element helement =>
      settles_of_run _ (fun _ => rfl) (hleft.insertElement helement)
  have hremove : Ensures (fun w : Deck.Work => w.deck = d) (Deck.removeElement (Name.ofText raw))
      (fun _ w => w.deck = left) fun e w => D.error w.deck e ∧ w.deck = left := by
    refine Deck.ensures_current (Ensures.bind (R := fun _ w => w.deck = left)
      (Ensures.of_modify ?_) fun _ => Ensures.of_pure fun _ h => h)
    rintro w rfl
    exact congrArg (fun symbols => { w.deck with symbols }) (Symbols.but_some _ _).symm
  have hsettles {a : Deck.Action Unit} (ha : D.Settles left none a) :
      Ensures (fun w : Deck.Work => w.deck = left) a (fun _ w => w.deck.Obeys D)
        fun e w => D.error w.deck e ∧ w.deck = left :=
    ha.imp_error fun _ _ he => ⟨he.1, he.2.trans left.but_none⟩
  refine hremove.bind fun isDefined => Ensures.ite (fun _ => hsettles ?_) fun _ => hsettles hrest
  exact (tracks_raise _).bind_settles fun _ _ => hrest

/-! ## Other clauses -/

theorem settles_defineLine (hd : d.Obeys D) (raw : String) (body : Line.Body)
    (h : D.Covers d formulas [body]) : D.Settles d none (Deck.defineLine raw body) := by
  refine (h.layout body List.mem_cons_self).bind_settles fun entries _ => ?_
  -- from here on nothing fails, and no expression is stored
  have hrest : Ensures (fun w : Deck.Work => w.deck.Obeys D)
      (do Deck.insertLine { name := Name.ofText raw, entries, pos := (← Deck.current).pos })
      (fun _ w => w.deck.Obeys D) fun e w => D.error w.deck e ∧ w.deck = d.but none := by
    intro w hw
    exact .inl ⟨(), _, rfl, hw.of_symbols rfl rfl rfl⟩
  have hremove : Ensures (fun w : Deck.Work => w.deck = d) (Deck.removeLine (Name.ofText raw))
      (fun _ w => w.deck.Obeys D) fun e w => D.error w.deck e ∧ w.deck = d.but none := by
    rintro w rfl
    exact .inl ⟨_, _, rfl, hd.of_symbols rfl rfl rfl⟩
  refine hremove.bind fun isDefined => Ensures.ite (fun _ => ?_) fun _ => hrest
  · exact Ensures.bind (R := fun _ w => w.deck.Obeys D) (Ensures.of_modify fun _ hw => hw)
      fun _ => hrest

theorem settles_endComment (hd : d.Obeys D) : D.Settles d none Deck.endComment := by
  refine Deck.ensures_current ?_
  cases d.commentary.finish with
  | ok commentary => exact settles_of_commentary hd commentary fun _ => rfl
  | error _ => exact (tracks_raise _).settles hd

theorem settles_captureComment (hd : d.Obeys D) (text : String) (atEnd : Bool) :
    D.Settles d none (Deck.captureComment text atEnd) := by
  let pos := if atEnd then Position.endOfInput else d.pos
  exact settles_of_commentary hd (d.commentary.capture text pos) fun _ => rfl

/-- A clause leaves a deck that obeys if its formulas do. -/
theorem settles_perform (hd : d.Obeys D) {clause : Clause}
    (h : D.Governs d.symbols.consts clause.formulas clause.bodies) :
    D.Settles d clause.element? (Deck.perform clause) := by
  have hcovers : D.Covers d clause.formulas clause.bodies := h d rfl hd
  cases clause with
  | constant name value => exact settles_defineConstant hd name hcovers
  | «variable» name value binding => exact settles_defineVariable hd name binding hcovers
  | element name kind items => exact settles_defineElement hd name kind (h _ rfl (hd.but _))
  | line name body => exact settles_defineLine hd name body hcovers
  | beginComment => exact settles_of_commentary hd d.commentary.begin fun _ => rfl
  | endComment => exact settles_endComment hd
  | comment text atEnd => exact settles_captureComment hd text atEnd
  | pragma keyword text => exact (tracks_pure (Q := fun _ => True) trivial).settles hd

/-- An action of a statement read at a position. -/
theorem settles_at {lost : Option Name} {a : Deck.Action α} {pos : Position}
    (h : D.Settles { d with pos } lost a) :
    Ensures (fun w : Deck.Work => w.deck = d)
      (do
        Deck.moveTo pos
        a)
      (fun _ w => w.deck.Obeys D)
      fun e w => D.error w.deck e ∧ w.deck = { d with pos }.but lost := by
  refine Ensures.bind (R := fun _ w => w.deck = { d with pos }) (Ensures.of_modify ?_) fun _ => h
  rintro w rfl
  rfl

/-- A statement leaves a deck that obeys if its formulas do. -/
theorem settles_apply (hd : d.Obeys D) {statement : Statement}
    (h : D.Governs d.symbols.consts statement.clause.formulas statement.clause.bodies) :
    Ensures (fun w : Deck.Work => w.deck = d) (Deck.apply statement) (fun _ w => w.deck.Obeys D)
      fun e w => D.error w.deck e ∧
        w.deck = { d with pos := statement.pos }.but statement.clause.element? := by
  have hmoved : Deck.Obeys { d with pos := statement.pos } D := hd.of_symbols rfl rfl rfl
  refine settles_at (Deck.ensures_current ?_)
  refine Ensures.ite (fun _ => ?_) fun _ => settles_perform hmoved h
  exact Ensures.of_pure fun _ hw => hw ▸ hmoved

/-! ## Queries -/

/-- The value of a slot of a deck that obeys. -/
theorem tracks_slotValue (h : D.Covers d formulas bodies) {slot : Option (Option Term)}
    (hslot : ∀ t, slot = some (some t) → D.term t) :
    D.Tracks d (Deck.slotValue slot) fun o => ∀ v, o = some v → D.value v := by
  have hvalue {x : Value} (hx : D.value x) : ∀ v, some x = some v → D.value v :=
    fun v hv => Option.some.inj hv ▸ hx
  cases slot with
  | none => exact tracks_pure nofun
  | some content =>
    cases content with
    | none => exact tracks_pure (hvalue (h.number 0.0))
    | some t => exact (h.evaluate t (hslot t rfl)).map fun _ => hvalue

theorem tracks_variableValue (hd : d.Obeys D) (h : D.Covers d formulas bodies) (raw : String) :
    D.Tracks d (Deck.variableValue raw) fun o => ∀ v, o = some v → D.value v := by
  refine Deck.ensures_current (tracks_slotValue h fun t ht => ?_)
  obtain ⟨v, hv, ht⟩ := Option.map_eq_some_iff.1 ht
  obtain rfl := Option.some.inj ht
  exact hd.vars v (Table.mem_of_get? hv)

theorem tracks_attributeValue (hd : d.Obeys D) (h : D.Covers d formulas bodies) (raw key : String) :
    D.Tracks d (Deck.attributeValue raw key) fun o => ∀ v, o = some v → D.value v := by
  refine Deck.ensures_current (tracks_slotValue h fun t ht => ?_)
  obtain ⟨e, he, ht⟩ := Option.bind_eq_some_iff.1 ht
  exact hd.elements e (Table.mem_of_get? he) t (Element.mem_exprs_of_slot? ht)

theorem tracks_entryValue (hd : d.Obeys D) (h : D.Covers d formulas bodies) (raw : String)
    (index : Beamline.Element.MapIndex) :
    D.Tracks d (Deck.entryValue raw index) fun o => ∀ v, o = some v → D.value v := by
  refine Deck.ensures_current (tracks_slotValue h fun t ht => ?_)
  obtain ⟨e, he, ht⟩ := Option.bind_eq_some_iff.1 ht
  exact hd.elements e (Table.mem_of_get? he) t (Element.mem_exprs_of_cell? ht)

theorem tracks_elementLength (hd : d.Obeys D) (h : D.Covers d formulas bodies) (raw : String) :
    D.Tracks d (Deck.elementLength raw) fun o => ∀ v, o = some v → D.value v := by
  refine Deck.ensures_current (tracks_slotValue h fun t ht => ?_)
  obtain ⟨e, he, ht⟩ := Option.map_eq_some_iff.1 ht
  exact hd.elements e (Table.mem_of_get? he) t (Element.mem_exprs_of_length? ht)

end Discipline

end Beamline.Plain
