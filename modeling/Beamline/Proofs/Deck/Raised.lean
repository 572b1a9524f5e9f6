import Beamline.Deck.Query
import Beamline.Proofs.Ensures

/-!
# What was raised stays raised

Storing a formula, evaluating an expression and laying out a line add to the diagnostics and take
none away, be it that they come to a result or to an error. What they add are mild warnings about
the position of the statement: definitions may be refused for their names, but that is no matter of
formulas and bodies. So whatever still holds when such a warning is added holds after them if
it has held before. What is said of errors comes along: an error was met at the position of the
statement, and no evaluation fails for a repetition.

* `Deck.warns_lowerWith`, `Deck.warns_evaluate`, `Deck.warns_layout`: warnings at a position.
* `Deck.keepsRaised_lowerWith`, `Deck.ensures_evaluate`, `Deck.keepsRaised_layout`: what lasts
  whatever is added.
-/

namespace Beamline

open Source (Position)
open Diagnostic (Condition)
open Beamline.Expr (Formula Node NodeId)

/-- What is said of the diagnostics still holds when one is added. -/
def Lasting (I : Array Diagnostic → Prop) : Prop :=
  ∀ raised d, I raised → I (raised.push d)

theorem lasting_mem (d : Diagnostic) : Lasting (d ∈ ·) :=
  fun _ _ h => Array.mem_push_of_mem _ h

/-- The definition is refused as its name is taken, by a constant or by a variable. -/
def Diagnostic.Code.isRefusal : Diagnostic.Code → Bool
  | .constantIsVariable | .variableIsConstant => true
  | _ => false

/-- The condition is a warning, and not that a definition is refused. -/
def Diagnostic.Condition.IsMild (condition : Condition) : Prop :=
  condition.code.isFatal = false ∧ condition.code.isRefusal = false

/-- What is said of the diagnostics still holds when a mild warning about the position is added. -/
def LastingAt (pos : Position) (I : Array Diagnostic → Prop) : Prop :=
  ∀ raised (condition : Condition), condition.IsMild → I raised →
    I (raised.push (condition.diagnostic pos))

/-- What lasts whatever is added lasts when warnings are. -/
theorem Lasting.at {I : Array Diagnostic → Prop} (h : Lasting I) (pos : Position) :
    LastingAt pos I :=
  fun raised condition _ => h raised (condition.diagnostic pos)

/-- The error is that of a repetition. -/
def FatalError.IsOverflow (e : FatalError) : Prop :=
  ∃ limit pos, e = .lineTooLong limit pos

/-- The error was met at the position, unless it does not know where it was met. -/
def FatalError.IsAt (e : FatalError) (pos : Position) : Prop :=
  e.pos?.getD pos = pos

variable {I : Array Diagnostic → Prop}

namespace Lowering

variable {scope : Scope} {α : Type}

/-- The step keeps what is said of the diagnostics, and fails at the position of the statement. -/
abbrev Warns (scope : Scope) (I : Array Diagnostic → Prop) (a : Step α) : Prop :=
  Ensures (fun draft => I draft.raised) a (fun _ draft => I draft.raised)
    fun e draft => I draft.raised ∧ e.IsAt scope.pos

theorem warns_pure (x : α) : Warns scope I (pure x : Step α) :=
  Ensures.of_pure fun _ => id

theorem warns_textInArithmetic (symbol : String) :
    Warns scope I (throw (.textInArithmetic symbol scope.pos) : Step α) :=
  Ensures.of_throw fun _ h => ⟨h, rfl⟩

theorem warns_alloc (node : Node) : Warns scope I (alloc node) :=
  fun draft h => .inl ⟨_, { draft with forest := (draft.forest.alloc node).2 }, rfl, h⟩

variable (hI : LastingAt scope.pos I)
include hI

theorem warns_raise {condition : Condition} (h : condition.IsMild) :
    Warns scope I (raise scope condition) :=
  Ensures.of_modify fun _ => hI _ condition h

theorem warns_classify (name : Name) (arithmetic : Bool) :
    Warns scope I (classify scope name arithmetic) := by
  unfold classify
  cases scope.symbols.consts.get? name with
  | some constant =>
    refine Ensures.ite (fun _ => warns_pure _) fun _ => ?_
    exact Ensures.ite (fun _ => warns_textInArithmetic _) fun _ => warns_pure _
  | none =>
    refine Ensures.ite (fun _ => (warns_raise hI ⟨rfl, rfl⟩).bind fun _ => warns_pure _) fun _ => ?_
    exact Ensures.ite (fun _ => warns_pure _) fun _ =>
      (warns_raise hI ⟨rfl, rfl⟩).bind fun _ => warns_pure _

theorem warns_lower (formula : Formula) (arithmetic : Bool) :
    Warns scope I (lower scope formula arithmetic) := by
  -- by induction on the formula: what one part has raised is there while the next is stored
  induction formula generalizing arithmetic with
  | number x => exact warns_alloc _
  | text content =>
    refine Ensures.ite (fun _ => ?_) fun _ => warns_alloc _
    exact (warns_textInArithmetic _).bind fun _ => warns_alloc _
  | name raw => exact (warns_classify hI _ arithmetic).bind fun node => warns_alloc node
  | lengthOf raw =>
    refine Ensures.ite (fun _ => warns_alloc _) fun _ => ?_
    exact (warns_raise hI ⟨rfl, rfl⟩).bind fun _ => warns_alloc _
  | parens inner ih => exact (ih arithmetic).bind fun id => warns_alloc _
  | signed sign operand ih => exact (ih true).bind fun id => warns_alloc _
  | binary op left right ihl ihr =>
    exact (ihl true).bind fun l => (ihr true).bind fun r => warns_alloc _
  | call f argument ih => exact (ih true).bind fun id => warns_alloc _

end Lowering

namespace Evaluation

variable {scope : Scope} {α : Type}

/-- The step keeps what is said of the diagnostics, and fails at the position of the statement or
query, but for no repetition. -/
abbrev Warns (scope : Scope) (I : Array Diagnostic → Prop) (a : Step α) : Prop :=
  Ensures (fun e => I e.raised) a (fun _ e => I e.raised)
    fun err e => I e.raised ∧ err.IsAt scope.pos ∧ ¬err.IsOverflow

theorem warns_pure (x : α) : Warns scope I (pure x : Step α) :=
  Ensures.of_pure fun _ => id

theorem warns_textInArithmetic (symbol : String) :
    Warns scope I (throw (.textInArithmetic symbol scope.pos) : Step α) :=
  Ensures.of_throw fun _ h => ⟨h, rfl, nofun⟩

theorem warns_fault (f : Expr.Fault) : Warns scope I (throw (.fault f) : Step α) :=
  Ensures.of_throw fun _ h => ⟨h, rfl, nofun⟩

variable (hI : LastingAt scope.pos I)

section

include hI

/-- A name without a record is warned about and counts as zero. -/
theorem warns_missing {condition : Condition} (h : condition.IsMild) :
    Warns scope I
      (do
        raise scope condition
        return Value.zero) := by
  have hraise : Warns scope I (raise scope condition) :=
    Ensures.of_modify fun _ => hI _ condition h
  exact hraise.bind fun _ => warns_pure _

theorem warns_constant (name : Name) : Warns scope I (constant scope name) := by
  unfold constant
  cases scope.symbols.consts.get? name with
  | some record => exact warns_pure record.value
  | none => exact warns_missing hI ⟨rfl, rfl⟩

/-- At the limit a warning is added, otherwise the step is run. -/
theorem warns_deeper {step : Step Value} (h : Warns scope I step) :
    Warns scope I (deeper scope step) := by
  intro e he
  rw [run_deeper]
  split
  · exact .inl ⟨_, _, rfl, he⟩
  · split
    · rename_i exceeded _
      exact .inl ⟨_, _, rfl, hI _ (.nestingTooDeep exceeded.limit) ⟨rfl, rfl⟩ he⟩
    · -- on the way back only the nesting is reset
      rename_i nesting _
      rcases h { e with nesting } he with ⟨x, e', ha, he'⟩ | ⟨err, e', ha, he'⟩
      · rw [ha]
        exact .inl ⟨x, _, rfl, he'⟩
      · rw [ha]
        exact .inr ⟨err, _, rfl, he'⟩

end

section Nodes

variable {visit : NodeId → Step Value} (h : ∀ id, Warns scope I (visit id))
include h

theorem warns_number (id : NodeId) : Warns scope I (number scope visit id) := by
  refine (h id).bind fun value => ?_
  cases value with
  | number x => exact warns_pure x
  | text content => exact warns_textInArithmetic _

include hI

theorem warns_node (n : Node) : Warns scope I (node scope visit n) := by
  cases n with
  | number x => exact warns_pure (Value.number x)
  | text content => exact warns_pure (Value.text content)
  | numberConstant name =>
    refine (warns_constant hI name).bind fun value => ?_
    cases value with
    | number x => exact warns_pure (Value.number x)
    | text content => exact warns_textInArithmetic _
  | textConstant name => exact warns_constant hI name
  | «variable» name =>
    rw [node]
    cases scope.symbols.vars.get? name with
    | some record => exact h record.expr
    | none => exact warns_missing hI ⟨rfl, rfl⟩
  | lengthOf name =>
    rw [node]
    cases scope.symbols.elements.get? name with
    | none => exact warns_missing hI ⟨rfl, rfl⟩
    | some record =>
      dsimp only
      -- an element without a length is no reason for a warning
      cases record.length? with
      | some length => exact h length
      | none => exact warns_pure Value.zero
  | parens inner => exact h inner
  | signed sign operand => exact (warns_number h operand).bind fun _ => warns_pure _
  | binary op left right =>
    refine (warns_number h left).bind fun _ => ?_
    exact (warns_number h right).bind fun _ => warns_pure _
  | call f argument => exact (warns_number h argument).bind fun _ => warns_pure _

end Nodes

include hI

theorem warns_visitWithin (levels : Nat) (id : NodeId) :
    Warns scope I (visitWithin scope levels id) := by
  -- by induction on the levels left, of which each node takes one
  induction levels generalizing id with
  | zero => exact warns_fault _
  | succ levels ih =>
    refine warns_deeper hI ?_
    cases scope.forest.get? id with
    | some n => exact warns_node hI ih n
    | none => exact warns_fault _

end Evaluation

namespace Line.Body

variable {scope : Scope}

mutual

/-- A body keeps what is said of the diagnostics, and fails at the position of the statement. -/
theorem warns_layout (hI : LastingAt scope.pos I) (body : Body) :
    Ensures I (layout scope body) (fun _ => I) fun e raised => I raised ∧ e.IsAt scope.pos := by
  match body with
  | .member raw =>
    unfold layout
    have hwarn (name : Name) : Ensures I
        (modify (·.push ((Condition.memberUndefined name).diagnostic scope.pos)) : Step PUnit)
        (fun _ => I) fun e raised => I raised ∧ e.IsAt scope.pos :=
      Ensures.of_modify fun _ => hI _ _ ⟨rfl, rfl⟩
    refine Ensures.ite (fun _ => Ensures.of_pure fun _ => id) fun _ => ?_
    exact (hwarn _).bind fun _ => Ensures.of_pure fun _ => id
  | .sequence items => exact warns_layoutAll hI items
  | .repetition count body =>
    unfold layout
    refine (warns_layout hI body).bind fun entries => ?_
    cases repeat? count entries scope.limit with
    | ok entries => exact Ensures.of_pure fun _ => id
    | error overflow => exact Ensures.of_throw fun _ h => ⟨h, rfl⟩
  | .reflection body =>
    unfold layout
    exact (warns_layout hI body).bind fun _ => Ensures.of_pure fun _ => id

theorem warns_layoutAll (hI : LastingAt scope.pos I) (items : List Body) :
    Ensures I (layoutAll scope items) (fun _ => I) fun e raised => I raised ∧ e.IsAt scope.pos := by
  match items with
  | [] => exact Ensures.of_pure fun _ => id
  | item :: items =>
    unfold layoutAll
    refine (warns_layout hI item).bind fun _ => ?_
    exact (warns_layoutAll hI items).bind fun _ => Ensures.of_pure fun _ => id

end

end Line.Body

namespace Deck

variable {α : Type} {pos : Position}

/-- The scope in which lines are laid out. -/
def lineScope (deck : Deck) : Line.Body.Scope where
  symbols := deck.symbols
  pos := deck.pos
  limit := deck.limits.lineEntries

theorem run_layout (body : Line.Body) (w : Work) :
    (layout body).run w = (((body.layout w.deck.lineScope).run w.raised).1,
      { w with raised := ((body.layout w.deck.lineScope).run w.raised).2 }) :=
  rfl

/-- On a deck at the position the action keeps what is said of the diagnostics, and fails at the
position. -/
abbrev Warns (pos : Position) (I : Array Diagnostic → Prop) (a : Action α) : Prop :=
  Ensures (fun w : Work => w.deck.pos = pos ∧ I w.raised) a
    (fun _ w => w.deck.pos = pos ∧ I w.raised)
    fun e w => (w.deck.pos = pos ∧ I w.raised) ∧ e.IsAt pos

theorem warns_lowerWith (hI : LastingAt pos I) (constantsOnly : Bool) (formula : Formula) :
    Warns pos I (lowerWith constantsOnly formula) := by
  rintro w ⟨rfl, hw⟩
  let scope : Lowering.Scope := { symbols := w.deck.symbols, pos := w.deck.pos, constantsOnly }
  have hrun : (lowerWith constantsOnly formula).run w =
      let run := (Lowering.lower scope formula false).run ⟨w.deck.forest, w.raised⟩
      (run.1, { deck := { w.deck with forest := run.2.forest }, raised := run.2.raised }) := rfl
  have hI : LastingAt scope.pos I := hI
  rw [hrun]
  rcases Lowering.warns_lower hI formula false ⟨w.deck.forest, w.raised⟩ hw with
    ⟨id, draft, ha, hd⟩ | ⟨e, draft, ha, hd, he⟩
  · rw [ha]
    exact .inl ⟨id, _, rfl, rfl, hd⟩
  · rw [ha]
    exact .inr ⟨e, _, rfl, ⟨rfl, hd⟩, he⟩

/-- An evaluation adds warnings, and fails for no repetition. -/
theorem ensures_evaluate (hI : LastingAt pos I) (id : NodeId) :
    Ensures (fun w : Work => w.deck.pos = pos ∧ I w.raised) (evaluate id)
      (fun _ w => w.deck.pos = pos ∧ I w.raised)
      fun e w => ((w.deck.pos = pos ∧ I w.raised) ∧ e.IsAt pos) ∧ ¬e.IsOverflow := by
  rintro w ⟨rfl, hw⟩
  let scope : Evaluation.Scope :=
    { forest := w.deck.forest, symbols := w.deck.symbols, pos := w.deck.pos }
  let levels := Evaluation.levels scope w.deck.limits.evalDepth
  let start := { Evaluation.ofLimit w.deck.limits.evalDepth with raised := w.raised }
  have hrun : (evaluate id).run w =
      (((Evaluation.visitWithin scope levels id).run start).1,
        { w with raised := ((Evaluation.visitWithin scope levels id).run start).2.raised }) := rfl
  have hI : LastingAt scope.pos I := hI
  rw [hrun]
  rcases Evaluation.warns_visitWithin hI levels id start hw with
    ⟨value, e', ha, hd⟩ | ⟨e, e', ha, hd, he, hshort⟩
  · rw [ha]
    exact .inl ⟨value, _, rfl, rfl, hd⟩
  · rw [ha]
    exact .inr ⟨e, _, rfl, ⟨⟨rfl, hd⟩, he⟩, hshort⟩

theorem warns_evaluate (hI : LastingAt pos I) (id : NodeId) : Warns pos I (evaluate id) :=
  (ensures_evaluate hI id).imp_error fun _ _ h => h.1

theorem warns_layout (hI : LastingAt pos I) (body : Line.Body) : Warns pos I (layout body) := by
  rintro w ⟨rfl, hw⟩
  have hI : LastingAt w.deck.lineScope.pos I := hI
  rw [run_layout]
  rcases Line.Body.warns_layout hI body w.raised hw with
    ⟨entries, raised, ha, hd⟩ | ⟨e, raised, ha, hd, he⟩
  · rw [ha]
    exact .inl ⟨entries, _, rfl, rfl, hd⟩
  · rw [ha]
    exact .inr ⟨e, _, rfl, ⟨rfl, hd⟩, he⟩

/-- What warnings at any position leave as it is. -/
theorem keepsRaised_of_warns {a : Action α} (h : ∀ pos, Warns pos I a) :
    Preserves (fun w : Work => I w.raised) a := by
  intro w hw
  rcases h w.deck.pos w ⟨rfl, hw⟩ with ⟨x, w', ha, -, hd⟩ | ⟨e, w', ha, ⟨-, hd⟩, -⟩
  · exact .inl ⟨x, w', ha, hd⟩
  · exact .inr ⟨e, w', ha, hd⟩

theorem keepsRaised_lowerWith (hI : Lasting I) (constantsOnly : Bool) (formula : Formula) :
    Preserves (fun w : Work => I w.raised) (lowerWith constantsOnly formula) :=
  keepsRaised_of_warns fun pos => warns_lowerWith (hI.at pos) constantsOnly formula

theorem keepsRaised_evaluate (hI : Lasting I) (id : NodeId) :
    Preserves (fun w : Work => I w.raised) (evaluate id) :=
  keepsRaised_of_warns fun pos => warns_evaluate (hI.at pos) id

theorem keepsRaised_layout (hI : Lasting I) (body : Line.Body) :
    Preserves (fun w : Work => I w.raised) (layout body) :=
  keepsRaised_of_warns fun pos => warns_layout (hI.at pos) body

/-- An evaluation fails for no repetition. -/
theorem not_isOverflow_of_evaluate (id : NodeId) :
    Ensures (fun _ => True) (evaluate id) (fun _ _ => True) fun e _ => ¬e.IsOverflow := by
  intro w _
  have hall : LastingAt w.deck.pos fun _ => True := fun _ _ _ _ => trivial
  rcases ensures_evaluate hall id w ⟨rfl, trivial⟩ with ⟨x, w', ha, -⟩ | ⟨e, w', ha, -, he⟩
  · exact .inl ⟨x, w', ha, trivial⟩
  · exact .inr ⟨e, w', ha, he⟩

/-- What is asked of a slot is answered without a repetition. -/
theorem not_isOverflow_of_slotValue (slot : Option (Option NodeId)) :
    Ensures (fun _ => True) (slotValue slot) (fun _ _ => True) fun e _ => ¬e.IsOverflow := by
  match slot with
  | none => exact Ensures.of_pure fun _ => id
  | some none => exact Ensures.of_pure fun _ => id
  | some (some id) => exact (not_isOverflow_of_evaluate id).map

end Deck

end Beamline
