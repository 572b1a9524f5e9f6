import Beamline.Proofs.Deck.Failure
import Beamline.Proofs.Deck.Raised

/-!
# What actions raise

Whatever an action does, it raises nothing but warnings, all of them about the position of the deck,
and if it ends in an error, then in one that was met there. Raising the error itself is no matter of
the action. That a definition is refused is raised where the deck refuses it and nowhere else.

* `Deck.warnsOn_perform`, `Deck.warns_apply`: clauses and statements.
* `Deck.warns_slotValue`: queries.
-/

namespace Beamline

open Source (Position)
open Diagnostic (Condition)
open Beamline.Expr (Fault Forest Formula NodeId)

/-- A refused item is no reason to stop. -/
theorem Element.Refusal.isMild_condition (refusal : Refusal) (name : Name) :
    (refusal.condition name).IsMild := by
  cases refusal <;> exact ⟨rfl, rfl⟩

namespace Clause

variable {clause : Clause} {condition : Condition}

/-- What is raised when a definition is refused. -/
theorem refusal?_cases (h : clause.refusal? = some condition) :
    (∃ name, condition = .constantIsVariable name) ∨
      ∃ name, condition = .variableIsConstant name := by
  cases clause with
  | constant raw formula => exact .inl ⟨_, (Option.some.inj h).symm⟩
  | «variable» raw formula binding => exact .inr ⟨_, (Option.some.inj h).symm⟩
  | _ => cases h

/-- A refused definition is no reason to stop. -/
theorem isFatal_code_of_refusal? (h : clause.refusal? = some condition) :
    condition.code.isFatal = false := by
  rcases refusal?_cases h with ⟨name, rfl⟩ | ⟨name, rfl⟩ <;> rfl

theorem isRefusal_code_of_refusal? (h : clause.refusal? = some condition) :
    condition.code.isRefusal = true := by
  rcases refusal?_cases h with ⟨name, rfl⟩ | ⟨name, rfl⟩ <;> rfl

end Clause

namespace Deck

variable {I : Array Diagnostic → Prop} {pos : Position} {α β : Type}

/-! ## Actions without warnings -/

/-- An action that raises nothing, stays where it is and fails at faults only. -/
theorem warns_of_run {a : Action α}
    (hrun : ∀ w, (a.run w).2.deck.pos = w.deck.pos ∧ (a.run w).2.raised = w.raised)
    (hfault : ∀ w e, (a.run w).1 = .error e → ∃ f, e = .fault f) : Warns pos I a := by
  rintro w ⟨rfl, hw⟩
  obtain ⟨hpos, hraised⟩ := hrun w
  rw [← hraised] at hw
  rcases ha : a.run w with ⟨e | x, w'⟩ <;> rw [ha] at hpos hw
  · obtain ⟨f, rfl⟩ := hfault w e (congrArg Prod.fst ha)
    exact .inr ⟨_, w', rfl, ⟨hpos, hw⟩, rfl⟩
  · exact .inl ⟨x, w', rfl, hpos, hw⟩

theorem warns_pure (x : α) : Warns pos I (pure x : Action α) :=
  Ensures.of_pure fun _ => id

theorem exists_fault_of_mapError {outcome : Except Fault α} {e : FatalError}
    (h : outcome.mapError FatalError.fault = .error e) : ∃ f, e = .fault f := by
  cases outcome with
  | ok x => cases h
  | error f => exact ⟨f, (Except.error.inj h).symm⟩

theorem warns_onForest (step : Forest → Except Fault α × Forest) : Warns pos I (onForest step) :=
  warns_of_run (fun _ => ⟨rfl, rfl⟩) fun _ _ => exists_fault_of_mapError

theorem warns_onTable [Record α] {get : Symbols → Table α} {set : Table α → Symbols → Symbols}
    {step : Table α → Forest → Except Fault β × Table α × Forest} :
    Warns pos I (onTable get set step) :=
  warns_of_run (fun _ => ⟨rfl, rfl⟩) fun _ _ => exists_fault_of_mapError

theorem warns_change {f : Deck → Deck} (hf : ∀ deck, (f deck).pos = deck.pos) :
    Warns pos I (change f) :=
  Ensures.of_modify fun w hw => ⟨(hf w.deck).trans hw.1, hw.2⟩

theorem warns_beginComment : Warns pos I beginComment := by
  unfold beginComment
  exact warns_change fun _ => rfl

theorem warns_captureComment (text : String) (atEnd : Bool) :
    Warns pos I (captureComment text atEnd) := by
  unfold captureComment
  exact warns_change fun _ => rfl

theorem warns_release (id : NodeId) : Warns pos I (release id) :=
  warns_onForest _

theorem warns_releaseReplaced (previous : Option NodeId) :
    Warns pos I (releaseReplaced previous) := by
  cases previous with
  | none => exact warns_pure ()
  | some id => exact warns_release id

/-! ## Definitions -/

variable (hI : LastingAt pos I)

section

include hI

theorem warns_raise {condition : Condition} (h : condition.IsMild) :
    Warns pos I (raise condition) := by
  refine Ensures.of_modify fun w hw => ⟨hw.1, ?_⟩
  rw [hw.1]
  exact hI w.raised condition h hw.2

/-- A warning is raised, and the element stays as it is. -/
theorem warns_refused {condition : Condition} (h : condition.IsMild) (element : Element) :
    Warns pos I
      (do
        raise condition
        return element) :=
  (warns_raise hI h).bind fun _ => warns_pure element

theorem warns_settle (element : Element) (id : NodeId)
    (outcome : Except Element.Refusal (Option NodeId × Element)) :
    Warns pos I (settle element id outcome) := by
  cases outcome with
  | ok changed => exact (warns_releaseReplaced changed.1).bind fun _ => warns_pure changed.2
  | error refusal =>
    exact (warns_release id).bind fun _ => warns_refused hI (refusal.isMild_condition _) element

theorem warns_entryItem (element : Element) (index : Option Element.MapIndex) (written : String)
    (value : Formula) : Warns pos I (entryItem element index written value) := by
  refine Ensures.ite (fun _ => ?_) fun _ => ?_
  · exact warns_refused hI (Element.Refusal.isMild_condition _ _) element
  · cases index with
    | none => exact warns_refused hI ⟨rfl, rfl⟩ element
    | some index =>
      exact (warns_lowerWith hI false value).bind fun id => warns_settle hI element id _

theorem warns_enterItem (element : Element) (item : Element.Item) :
    Warns pos I (enterItem element item) := by
  cases item with
  | assign key value =>
    rw [enterItem, assignItem]
    split
    · exact warns_pure _
    · refine Ensures.ite (fun _ => ?_) fun _ => warns_refused hI ⟨rfl, rfl⟩ element
      exact (warns_lowerWith hI false value).bind fun id => warns_settle hI element id _
  | flag key =>
    refine ensures_current fun deck => ?_
    cases element.flag key deck.forest with
    | ok changed =>
      have hstore : Warns pos I (change fun deck => { deck with forest := changed.2.2 }) :=
        warns_change fun _ => rfl
      exact hstore.bind fun _ => (warns_releaseReplaced changed.1).bind fun _ =>
        warns_pure changed.2.1
    | error refusal => exact warns_refused hI (refusal.isMild_condition _) element
  | label text => exact warns_pure _
  | rm i j value => exact warns_entryItem hI element _ _ value
  | tm i j k value => exact warns_entryItem hI element _ _ value

theorem warns_defineElement (raw : String) (kind : Element.Kind) (items : List Element.Item) :
    Warns pos I (defineElement raw kind items) := by
  -- what follows the removal, be there an element of the name or not
  have hrest : Warns pos I (do
      let element ← items.foldlM enterItem (Element.blank (Name.ofText raw) kind (← current).pos)
      discard <| insertElement element) := by
    refine ensures_current fun deck => Ensures.bind ?_ fun element => warns_onTable.discarded
    exact Ensures.foldlM (fun item _ element => warns_enterItem hI element item) _
  refine warns_onTable.bind fun isDefined => Ensures.ite (fun _ => ?_) fun _ => hrest
  exact (warns_raise hI ⟨rfl, rfl⟩).bind fun _ => hrest

theorem warns_defineLine (raw : String) (body : Line.Body) :
    Warns pos I (defineLine raw body) := by
  refine (warns_layout hI body).bind fun entries => ?_
  have hinsert : Warns pos I (do
      discard <| insertLine { name := Name.ofText raw, entries, pos := (← current).pos }) :=
    ensures_current fun deck => warns_onTable.discarded
  refine warns_onTable.bind fun isDefined => Ensures.ite (fun _ => ?_) fun _ => hinsert
  exact (warns_raise hI ⟨rfl, rfl⟩).bind fun _ => hinsert

theorem warns_endComment : Warns pos I endComment := by
  refine ensures_current fun deck => ?_
  cases deck.commentary.finish with
  | ok commentary => exact warns_change fun _ => rfl
  | error _ => exact warns_raise hI ⟨rfl, rfl⟩

theorem warns_slotValue (slot : Option (Option NodeId)) : Warns pos I (slotValue slot) := by
  match slot with
  | none => exact warns_pure _
  | some none => exact warns_pure _
  | some (some id) => exact (warns_evaluate hI id).map

end

/-! ## Refused definitions -/

variable {deck : Deck} {clause : Clause}

/-- What is said of the diagnostics still holds when the deck refuses the clause, with a warning
about the position. -/
def OutlastsRefusal (I : Array Diagnostic → Prop) (pos : Position) (deck : Deck) (clause : Clause) :
    Prop :=
  deck.refuses clause = true → ∀ condition, clause.refusal? = some condition →
    ∀ raised, I raised → I (raised.push (condition.diagnostic pos))

/-- Done on the deck at the position, the action keeps what is said of the diagnostics, and fails at
the position. -/
abbrev WarnsOn (deck : Deck) (pos : Position) (I : Array Diagnostic → Prop) (a : Action α) : Prop :=
  Ensures (fun w : Work => w.deck = deck.movedTo pos ∧ I w.raised) a
    (fun _ w => w.deck.pos = pos ∧ I w.raised)
    fun e w => (w.deck.pos = pos ∧ I w.raised) ∧ e.IsAt pos

theorem Warns.on {a : Action α} (h : Warns pos I a) : WarnsOn deck pos I a :=
  h.imp (fun _ hw => ⟨congrArg Deck.pos hw.1, hw.2⟩) (fun _ _ => id) fun _ _ => id

/-- What is done with the deck before anything has changed it. -/
theorem WarnsOn.of_current {f : Deck → Action α} (h : WarnsOn deck pos I (f (deck.movedTo pos))) :
    WarnsOn deck pos I (current >>= f) := by
  intro w hw
  have hrun : (current >>= f).run w = (f w.deck).run w := rfl
  rw [hrun, hw.1]
  exact h w hw

/-- The warning of a refused definition. -/
theorem warnsOn_refuse {condition : Condition} (hI : OutlastsRefusal I pos deck clause)
    (hrefuses : deck.refuses clause = true) (h : clause.refusal? = some condition) :
    WarnsOn deck pos I (raise condition) := by
  refine Ensures.of_modify fun w hw => ?_
  rw [hw.1]
  exact ⟨rfl, hI hrefuses condition h w.raised hw.2⟩

include hI

theorem warnsOn_defineConstant {raw : String} {formula : Formula}
    (hrefusal : OutlastsRefusal I pos deck (.constant raw formula)) :
    WarnsOn deck pos I (defineConstant raw formula) := by
  -- that the deck refuses is known only of the deck as it is at first; later any will do
  refine WarnsOn.of_current
    (Ensures.ite (fun h => warnsOn_refuse hrefusal h rfl) fun _ => Warns.on ?_)
  refine (warns_lowerWith hI true formula).bind fun id => ?_
  refine (warns_evaluate hI id).bind fun value => ?_
  refine ensures_current fun deck => Ensures.ite (fun _ => ?_) fun _ => warns_onTable.discarded
  exact (warns_raise hI ⟨rfl, rfl⟩).bind fun _ => warns_onTable.discarded

theorem warnsOn_defineVariable {raw : String} {formula : Formula} {binding : Binding}
    (hrefusal : OutlastsRefusal I pos deck (.variable raw formula binding)) :
    WarnsOn deck pos I (defineVariable raw formula binding) := by
  have hinsert (expr : NodeId) : Warns pos I (do
      discard <| insertVariable { name := Name.ofText raw, expr, pos := (← current).pos }) :=
    ensures_current fun deck => warns_onTable.discarded
  refine WarnsOn.of_current
    (Ensures.ite (fun h => warnsOn_refuse hrefusal h rfl) fun _ => Warns.on ?_)
  refine (warns_lowerWith hI false formula).bind fun id => ?_
  cases binding with
  | deferred => exact hinsert id
  | immediate =>
    refine (warns_evaluate hI id).bind fun value => (warns_release id).bind fun _ => ?_
    exact (warns_onForest _).bind fun expr => hinsert expr

/-- A clause raises warnings only. -/
theorem warnsOn_perform (hrefusal : OutlastsRefusal I pos deck clause) :
    WarnsOn deck pos I (perform clause) := by
  cases clause with
  | constant name value => exact warnsOn_defineConstant hI hrefusal
  | «variable» name value binding => exact warnsOn_defineVariable hI hrefusal
  | element name kind items => exact (warns_defineElement hI name kind items).on
  | line name body => exact (warns_defineLine hI name body).on
  | beginComment => exact warns_beginComment.on
  | endComment => exact (warns_endComment hI).on
  | comment text atEnd => exact (warns_captureComment text atEnd).on
  | pragma keyword text => exact (warns_pure ()).on

omit hI

/-- An action of a statement warns about the position of the statement. -/
theorem WarnsOn.at {a : Action α} (h : WarnsOn deck pos I a) :
    Ensures (fun w : Work => w.deck = deck ∧ I w.raised)
      (do
        moveTo pos
        a)
      (fun _ w => w.deck.pos = pos ∧ I w.raised)
      fun e w => (w.deck.pos = pos ∧ I w.raised) ∧ e.IsAt pos := by
  have hmove : Ensures (fun w : Work => w.deck = deck ∧ I w.raised) (moveTo pos)
      (fun _ w => w.deck = deck.movedTo pos ∧ I w.raised)
      fun e w => (w.deck.pos = pos ∧ I w.raised) ∧ e.IsAt pos :=
    Ensures.of_modify fun _ hw => ⟨congrArg (movedTo pos) hw.1, hw.2⟩
  exact hmove.bind fun _ => h

theorem warns_apply {statement : Statement} (hI : LastingAt statement.pos I)
    (hrefusal : (deck.commentary.isActive && !statement.clause.isComment) = false →
      OutlastsRefusal I statement.pos deck statement.clause) :
    Ensures (fun w : Work => w.deck = deck ∧ I w.raised) (apply statement)
      (fun _ w => w.deck.pos = statement.pos ∧ I w.raised)
      fun e w => (w.deck.pos = statement.pos ∧ I w.raised) ∧ e.IsAt statement.pos := by
  refine WarnsOn.at (WarnsOn.of_current ?_)
  refine Ensures.ite (fun _ => (warns_pure ()).on) fun hperform => warnsOn_perform hI ?_
  exact hrefusal (Bool.eq_false_iff.2 hperform)

end Deck

end Beamline
