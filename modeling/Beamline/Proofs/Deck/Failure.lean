import Beamline.Deck.Query
import Beamline.Proofs.Clause
import Beamline.Proofs.Ensures
import Beamline.Proofs.Table.Listing

/-!
# What a failed action leaves behind

Actions on the stored expressions leave the records alone. A definition does its work on the stored
expressions first and stores its record last, so that a failure finds all records as they were;
only an element of the same name has been removed by then.

The one way in which a table itself can fail is that a record owns a stale handle. Whether that can
happen is no matter of the actions: it is left open here what such a failure leaves behind.

* `Deck.KeepsBut`: all records are kept, except for an element that is lost.
* `Deck.spares_perform`, `Deck.spares_apply`: what a failed statement leaves behind.
-/

namespace Beamline

open Source (Position)
open Diagnostic (Condition)
open Beamline.Expr (Fault Forest Formula Node NodeId)

/-- The fatal error is that a handle is stale. -/
def FatalError.IsStale (e : FatalError) : Prop :=
  ∃ h, e = .fault (.stale h)

/-! ## The forest and the tables -/

namespace Expr.Forest

/-- Releasing fails at stale handles only. -/
theorem exists_stale_of_releaseAll {pending : List NodeId} {forest left : Forest} {fault : Fault}
    (h : forest.releaseAll pending = (.error fault, left)) : ∃ handle, fault = .stale handle := by
  fun_induction releaseAll pending forest generalizing left fault with
  | case1 => cases h
  | case2 forest id rest =>
    cases h
    exact ⟨id, rfl⟩
  | case3 forest id rest node hget outcome left' hrun ih =>
    -- the fault is one of the nodes that are left
    cases outcome with
    | ok count => cases h
    | error other =>
      cases h
      exact ih hrun

theorem exists_stale_of_releaseEach {roots : List NodeId} {forest left : Forest} {fault : Fault}
    (h : releaseEach roots forest = (.error fault, left)) : ∃ handle, fault = .stale handle := by
  induction roots generalizing forest with
  | nil => cases h
  | cons root roots ih =>
    unfold releaseEach at h
    split at h
    · exact ih h
    · rename_i hroot
      cases h
      exact exists_stale_of_releaseAll hroot

end Expr.Forest

namespace Table

variable {α : Type} [Record α] {t after : Table α} {forest left : Forest}

/-- A table without a record of the name stays as it is. -/
theorem eq_of_remove {name : Name} {outcome : Except Fault Bool}
    (h : t.remove name forest = (outcome, after, left))
    (hnone : ∀ record ∈ t.toList, Record.name record ≠ name) : after = t := by
  have hget : t.get? name = none := by
    rw [get?_eq_find?, List.find?_eq_none]
    simpa using hnone
  unfold remove at h
  rw [take?_eq_none_iff.2 hget] at h
  cases h
  rfl

theorem exists_stale_of_remove {name : Name} {fault : Fault}
    (h : t.remove name forest = (.error fault, after, left)) :
    ∃ handle, fault = .stale handle := by
  unfold remove at h
  cases htake : t.take? name with
  | none =>
    rw [htake] at h
    cases h
  | some found =>
    rw [htake] at h
    rcases hrun : Forest.releaseEach (Record.owned found.1) forest with ⟨x | x, left'⟩
    · simp only [hrun] at h
      cases h
      exact Expr.Forest.exists_stale_of_releaseEach hrun
    · simp only [hrun] at h
      cases h

theorem exists_stale_of_insert {record : α} {fault : Fault}
    (h : t.insert record forest = (.error fault, after, left)) :
    ∃ handle, fault = .stale handle := by
  unfold insert at h
  split at h
  · cases h
  · split at h
    · cases h
    · rename_i hrun
      cases h
      exact Expr.Forest.exists_stale_of_releaseEach hrun

end Table

namespace Deck

/-! ## Actions that keep the records -/

/-- All records are kept, except for the element of the name that is lost, if one is; and so are
the limits and the commentary. What lies in the forest is left open. -/
structure KeepsBut (lost : Option Name) (deck after : Deck) : Prop where
  /-- The limits are the same. -/
  limits : after.limits = deck.limits
  /-- The constants are the same. -/
  consts : after.symbols.consts = deck.symbols.consts
  /-- The variables are the same. -/
  vars : after.symbols.vars = deck.symbols.vars
  /-- The lines are the same. -/
  lines : after.symbols.lines = deck.symbols.lines
  /-- The elements are the same without the one that is lost. -/
  elements : after.symbols.elements.toList =
    deck.symbols.elements.toList.filter fun e => some e.name ≠ lost
  /-- The elements are the same if there was none of the name. -/
  elements_eq : (∀ e ∈ deck.symbols.elements.toList, some e.name ≠ lost) →
    after.symbols.elements = deck.symbols.elements
  /-- The commentary is the same. -/
  commentary : after.commentary = deck.commentary

theorem KeepsBut.refl (deck : Deck) : deck.KeepsBut none deck where
  limits := rfl
  consts := rfl
  vars := rfl
  lines := rfl
  elements := (List.filter_eq_self.2 (by simp)).symm
  elements_eq _ := rfl
  commentary := rfl

variable {lost : Option Name} {deck : Deck} {α β : Type}

/-- A change of the forest and the position alone keeps what is kept. -/
theorem KeepsBut.congr {other after : Deck} (h : deck.KeepsBut lost other)
    (hlimits : after.limits = other.limits) (hsymbols : after.symbols = other.symbols)
    (hcommentary : after.commentary = other.commentary) : deck.KeepsBut lost after where
  limits := hlimits.trans h.limits
  consts := by rw [hsymbols, h.consts]
  vars := by rw [hsymbols, h.vars]
  lines := by rw [hsymbols, h.lines]
  elements := by rw [hsymbols, h.elements]
  elements_eq hnone := by rw [hsymbols, h.elements_eq hnone]
  commentary := hcommentary.trans h.commentary

/-- The action keeps the records, be it that it comes to a result or to an error. -/
abbrev KeepsRecords (deck : Deck) (lost : Option Name) (a : Action α) : Prop :=
  Preserves (fun w : Work => deck.KeepsBut lost w.deck) a

/-- An action that changes nothing but the forest and the position. -/
theorem keepsRecords_of_run {a : Action α}
    (h : ∀ w, (a.run w).2.deck.limits = w.deck.limits ∧
      (a.run w).2.deck.symbols = w.deck.symbols ∧
      (a.run w).2.deck.commentary = w.deck.commentary) : deck.KeepsRecords lost a := by
  intro w hw
  obtain ⟨hlimits, hsymbols, hcommentary⟩ := h w
  rcases hrun : a.run w with ⟨outcome, w'⟩
  rw [hrun] at hlimits hsymbols hcommentary
  have hw' := hw.congr hlimits hsymbols hcommentary
  cases outcome with
  | ok x => exact .inl ⟨x, w', rfl, hw'⟩
  | error e => exact .inr ⟨e, w', rfl, hw'⟩

theorem keepsRecords_pure (x : α) : deck.KeepsRecords lost (pure x : Action α) :=
  Ensures.of_pure fun _ => id

/-- What is done with the deck as it is. -/
theorem KeepsRecords.of_current {f : Deck → Action α} (h : ∀ d, deck.KeepsRecords lost (f d)) :
    deck.KeepsRecords lost (current >>= f) :=
  fun w hw => h w.deck w hw

theorem keepsRecords_raise (condition : Condition) : deck.KeepsRecords lost (raise condition) :=
  keepsRecords_of_run fun _ => ⟨rfl, rfl, rfl⟩

theorem keepsRecords_onForest (step : Forest → Except Fault α × Forest) :
    deck.KeepsRecords lost (onForest step) :=
  keepsRecords_of_run fun _ => ⟨rfl, rfl, rfl⟩

theorem keepsRecords_release (id : NodeId) : deck.KeepsRecords lost (release id) :=
  keepsRecords_onForest _

theorem keepsRecords_lowerWith (constantsOnly : Bool) (formula : Formula) :
    deck.KeepsRecords lost (lowerWith constantsOnly formula) :=
  keepsRecords_of_run fun _ => ⟨rfl, rfl, rfl⟩

theorem keepsRecords_evaluate (id : NodeId) : deck.KeepsRecords lost (evaluate id) :=
  keepsRecords_of_run fun _ => ⟨rfl, rfl, rfl⟩

theorem keepsRecords_layout (body : Line.Body) : deck.KeepsRecords lost (layout body) :=
  keepsRecords_of_run fun _ => ⟨rfl, rfl, rfl⟩

theorem keepsRecords_releaseReplaced (previous : Option NodeId) :
    deck.KeepsRecords lost (releaseReplaced previous) := by
  cases previous with
  | none => exact keepsRecords_pure ()
  | some id => exact keepsRecords_release id

/-- A condition is raised, and the element stays as it is. -/
theorem keepsRecords_refused (condition : Condition) (element : Element) :
    deck.KeepsRecords lost
      (do
        raise condition
        return element) :=
  (keepsRecords_raise condition).bind fun _ => keepsRecords_pure element

theorem keepsRecords_settle (element : Element) (id : NodeId)
    (outcome : Except Element.Refusal (Option NodeId × Element)) :
    deck.KeepsRecords lost (settle element id outcome) := by
  cases outcome with
  | ok changed =>
    exact (keepsRecords_releaseReplaced changed.1).bind fun _ => keepsRecords_pure changed.2
  | error refusal =>
    exact (keepsRecords_release id).bind fun _ => keepsRecords_refused _ element

theorem keepsRecords_entryItem (element : Element) (index : Option Element.MapIndex)
    (written : String) (value : Formula) :
    deck.KeepsRecords lost (entryItem element index written value) := by
  refine Ensures.ite (fun _ => keepsRecords_refused _ element) fun _ => ?_
  cases index with
  | none => exact keepsRecords_refused _ element
  | some index =>
    exact (keepsRecords_lowerWith false value).bind fun id => keepsRecords_settle element id _

/-- Items of an element work on the forest alone. -/
theorem keepsRecords_enterItem (element : Element) (item : Element.Item) :
    deck.KeepsRecords lost (enterItem element item) := by
  cases item with
  | assign key value =>
    rw [enterItem, assignItem]
    split
    · exact keepsRecords_pure _
    · refine Ensures.ite (fun _ => ?_) fun _ => keepsRecords_refused _ element
      exact (keepsRecords_lowerWith false value).bind fun id => keepsRecords_settle element id _
  | flag key =>
    rw [enterItem, flagItem]
    refine .of_current fun d => ?_
    cases element.flag key d.forest with
    | ok changed =>
      have hstore : deck.KeepsRecords lost
          (change fun deck => { deck with forest := changed.2.2 }) :=
        keepsRecords_of_run fun _ => ⟨rfl, rfl, rfl⟩
      exact hstore.bind fun _ => (keepsRecords_releaseReplaced changed.1).bind fun _ =>
        keepsRecords_pure changed.2.1
    | error refusal => exact keepsRecords_refused _ element
  | label text => exact keepsRecords_pure _
  | rm i j value => exact keepsRecords_entryItem element _ _ value
  | tm i j k value => exact keepsRecords_entryItem element _ _ value

/-! ## Actions that fail -/

/-- A failure of the action finds all records as they were, except for the element that is lost. -/
abbrev Spares (deck : Deck) (lost : Option Name) (a : Action α) : Prop :=
  Ensures (fun w : Work => deck.KeepsBut none w.deck) a (fun _ _ => True)
    fun e w => e.IsStale ∨ deck.KeepsBut lost w.deck

/-- An action that keeps the records does so if it fails. -/
theorem KeepsRecords.spares {a : Action α} (h : deck.KeepsRecords none a) : deck.Spares none a :=
  h.imp (fun _ => id) (fun _ _ _ => trivial) fun _ _ hkeeps => .inr hkeeps

/-- An action that keeps the records comes before one that may change them. -/
theorem KeepsRecords.bind_spares {a : Action α} {f : α → Action β} (h : deck.KeepsRecords none a)
    (hf : ∀ x, deck.Spares none (f x)) : deck.Spares none (a >>= f) :=
  (h.imp_error fun _ _ hkeeps => .inr hkeeps).bind hf

/-- What is done with the deck as it is. -/
theorem ensures_current {P : Work → Prop} {f : Deck → Action α} {Q : α → Work → Prop}
    {E : FatalError → Work → Prop} (h : ∀ d, Ensures P (f d) Q E) : Ensures P (current >>= f) Q E :=
  fun w hw => h w.deck w hw

/-- A step on a table, by what it does to the table and to the forest. -/
theorem ensures_onTable [Record α] {get : Symbols → Table α} {set : Table α → Symbols → Symbols}
    {step : Table α → Forest → Except Fault β × Table α × Forest} {P : Work → Prop}
    {Q : β → Work → Prop} {E : FatalError → Work → Prop}
    (hok : ∀ w x t forest, P w → step (get w.deck.symbols) w.deck.forest = (.ok x, t, forest) →
      Q x { w with deck := { w.deck with symbols := set t w.deck.symbols, forest } })
    (herror : ∀ w fault t forest, P w →
      step (get w.deck.symbols) w.deck.forest = (.error fault, t, forest) →
        E (.fault fault) { w with deck := { w.deck with
          symbols := set t w.deck.symbols, forest } }) :
    Ensures P (onTable get set step) Q E := by
  intro w hw
  have hrun : (onTable get set step).run w =
      ((step (get w.deck.symbols) w.deck.forest).1.mapError .fault,
        { w with deck := { w.deck with
            symbols := set (step (get w.deck.symbols) w.deck.forest).2.1 w.deck.symbols
            forest := (step (get w.deck.symbols) w.deck.forest).2.2 } }) := rfl
  rw [hrun]
  rcases hstep : step (get w.deck.symbols) w.deck.forest with ⟨x | x, t, forest⟩
  · exact .inr ⟨_, _, rfl, herror w x t forest hw hstep⟩
  · exact .inl ⟨_, _, rfl, hok w x t forest hw hstep⟩

/-- Storing a record fails at stale handles only. -/
theorem ensures_insert [Record α] {get : Symbols → Table α} {set : Table α → Symbols → Symbols}
    {record : α} {P : Work → Prop} {E : FatalError → Work → Prop} :
    Ensures P (discard (onTable get set (Table.insert record))) (fun _ _ => True)
      fun e w => e.IsStale ∨ E e w := by
  refine Ensures.discarded (ensures_onTable (fun _ _ _ _ _ _ => trivial) ?_)
  intro w fault t forest _ h
  obtain ⟨handle, rfl⟩ := Table.exists_stale_of_insert h
  exact .inl ⟨handle, rfl⟩

/-- An element that is removed is lost if the definition fails later. -/
theorem ensures_removeElement (name : Name) :
    Ensures (fun w : Work => deck.KeepsBut none w.deck) (removeElement name)
      (fun _ w => deck.KeepsBut (some name) w.deck) fun e _ => e.IsStale := by
  refine ensures_onTable (fun w _ t forest hw h => ?_) fun w fault t forest _ h => ?_
  · -- until then the elements are those of the deck
    rw [hw.elements_eq fun e _ => Option.some_ne_none e.name] at h
    refine ⟨hw.limits, hw.consts, hw.vars, hw.lines, ?_, fun hnone => ?_, hw.commentary⟩
    · refine (Table.toList_of_remove h).trans (List.filter_congr fun e _ => ?_)
      simp [Record.name]
    · exact Table.eq_of_remove h fun e he heq => hnone e he (congrArg some heq)
  · obtain ⟨handle, rfl⟩ := Table.exists_stale_of_remove h
    exact ⟨handle, rfl⟩

/-! ## Definitions that fail -/

theorem spares_defineConstant (raw : String) (formula : Formula) :
    deck.Spares none (defineConstant raw formula) := by
  refine ensures_current fun d => Ensures.ite (fun _ => (keepsRecords_raise _).spares) fun _ => ?_
  refine (keepsRecords_lowerWith true formula).bind_spares fun id => ?_
  refine (keepsRecords_evaluate id).bind_spares fun value => ensures_current fun d => ?_
  refine Ensures.ite (fun _ => ?_) fun _ => ensures_insert
  exact (keepsRecords_raise _).bind_spares fun _ => ensures_insert

theorem spares_defineVariable (raw : String) (formula : Formula) (binding : Binding) :
    deck.Spares none (defineVariable raw formula binding) := by
  refine ensures_current fun d => Ensures.ite (fun _ => (keepsRecords_raise _).spares) fun _ => ?_
  refine (keepsRecords_lowerWith false formula).bind_spares fun id => ?_
  have hinsert : ∀ expr, deck.Spares none (do
      discard <| insertVariable { name := Name.ofText raw, expr, pos := (← current).pos }) :=
    fun expr => ensures_current fun d => ensures_insert
  cases binding with
  | deferred => exact (keepsRecords_pure id).bind_spares hinsert
  | immediate =>
    refine (keepsRecords_evaluate id).bind_spares fun value => ?_
    refine (keepsRecords_release id).bind_spares fun _ => ?_
    exact (keepsRecords_onForest _).bind_spares hinsert

theorem spares_defineElement (raw : String) (kind : Element.Kind) (items : List Element.Item) :
    deck.Spares (some (Name.ofText raw)) (defineElement raw kind items) := by
  -- what follows the removal, be there an element of the name or not
  have hrest : Ensures (fun w : Work => deck.KeepsBut (some (Name.ofText raw)) w.deck)
      (do
        let element ←
          items.foldlM enterItem (Element.blank (Name.ofText raw) kind (← current).pos)
        discard <| insertElement element)
      (fun _ _ => True) fun e w => e.IsStale ∨ deck.KeepsBut (some (Name.ofText raw)) w.deck := by
    refine ensures_current fun d => ?_
    have hitem : ∀ item ∈ items, ∀ element,
        deck.KeepsRecords (some (Name.ofText raw)) (enterItem element item) :=
      fun item _ element => keepsRecords_enterItem element item
    have hitems := Ensures.foldlM hitem (Element.blank (Name.ofText raw) kind d.pos)
    refine (hitems.imp_error fun _ _ hkeeps => .inr hkeeps).bind ?_
    exact fun element => ensures_insert
  refine ((ensures_removeElement _).imp_error fun _ _ => .inl).bind ?_
  intro isDefined
  refine Ensures.ite (fun _ => ?_) fun _ => hrest
  refine Ensures.bind ?_ fun _ => hrest
  exact (keepsRecords_raise _).imp_error fun _ _ hkeeps => .inr hkeeps

theorem spares_defineLine (raw : String) (body : Line.Body) :
    deck.Spares none (defineLine raw body) := by
  refine (keepsRecords_layout body).bind_spares fun entries => ?_
  -- from here on nothing fails but at a stale handle
  have hrest (P : Work → Prop) : Ensures P
      (do discard <| insertLine { name := Name.ofText raw, entries, pos := (← current).pos })
      (fun _ _ => True) fun e w => e.IsStale ∨ deck.KeepsBut none w.deck :=
    ensures_current fun d => ensures_insert
  have hremove : Ensures (fun w : Work => deck.KeepsBut none w.deck) (removeLine (Name.ofText raw))
      (fun _ _ => True) fun e w => e.IsStale ∨ deck.KeepsBut none w.deck := by
    refine ensures_onTable (fun _ _ _ _ _ _ => trivial) fun w fault t forest _ h => ?_
    obtain ⟨handle, rfl⟩ := Table.exists_stale_of_remove h
    exact .inl ⟨handle, rfl⟩
  refine hremove.bind fun isDefined => Ensures.ite (fun _ => ?_) fun _ => hrest _
  have hraise : Ensures (fun _ : Work => True) (raise (.lineRedefined (Name.ofText raw)))
      (fun _ _ => True) fun e w => e.IsStale ∨ deck.KeepsBut none w.deck :=
    Ensures.of_modify fun _ h => h
  exact hraise.bind fun _ => hrest _

theorem spares_endComment : deck.Spares none endComment := by
  refine ensures_current fun d => ?_
  cases d.commentary.finish with
  | ok commentary => exact Ensures.of_modify fun _ _ => trivial
  | error _ => exact (keepsRecords_raise _).spares

/-- A failed clause finds all records as they were, but for the element that it defines. -/
theorem spares_perform (clause : Clause) : deck.Spares clause.element? (perform clause) := by
  cases clause with
  | constant name value => exact spares_defineConstant name value
  | «variable» name value binding => exact spares_defineVariable name value binding
  | element name kind items => exact spares_defineElement name kind items
  | line name body => exact spares_defineLine name body
  | beginComment => exact Ensures.of_modify fun _ _ => trivial
  | endComment => exact spares_endComment
  | comment text atEnd => exact Ensures.of_modify fun _ _ => trivial
  | pragma keyword text => exact Ensures.of_pure fun _ _ => trivial

/-- An action of a statement read at a position. -/
theorem Spares.at {a : Action α} (h : deck.Spares lost a) (pos : Position) :
    deck.Spares lost (do
      moveTo pos
      a) := by
  have hmove : Ensures (fun w : Work => deck.KeepsBut none w.deck) (moveTo pos)
      (fun _ w => deck.KeepsBut none w.deck) fun e w => e.IsStale ∨ deck.KeepsBut lost w.deck :=
    Ensures.of_modify fun w hw => hw.congr rfl rfl rfl
  exact hmove.bind fun _ => h

/-- A failed statement finds all records as they were, but for the element that it defines. -/
theorem spares_apply (statement : Statement) :
    deck.Spares statement.clause.element? (apply statement) := by
  refine Spares.at (ensures_current fun d => ?_) statement.pos
  exact Ensures.ite (fun _ => Ensures.of_pure fun _ _ => trivial)
    fun _ => spares_perform statement.clause

/-! ## Queries -/

theorem keepsRecords_slotValue (slot : Option (Option NodeId)) :
    deck.KeepsRecords lost (slotValue slot) := by
  cases slot with
  | none => exact keepsRecords_pure _
  | some content =>
    cases content with
    | none => exact keepsRecords_pure _
    | some id => exact (keepsRecords_evaluate id).map

end Deck

end Beamline
