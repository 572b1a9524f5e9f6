import Beamline.Diagnostic.Console
import Beamline.Evaluation

/-!
# Evaluation with a console

How stored expressions are evaluated when there is a console to be told: every warning of
`Evaluation` is reported when it is met, at whatever depth, and the console answers whether it has
kept it. The rest of the expression is evaluated after that report, with the console as the report
left it.
-/

namespace Beamline

open Diagnostic (Condition Console)
open Beamline.Expr (Node NodeId)

/-- The state of an evaluation when there is a console. -/
structure Evaluator where
  /-- The levels entered and not left. -/
  nesting : Nesting
  /-- The limit on the depth was reached. -/
  tripped : Bool
  /-- Where warnings are reported. -/
  console : Console

namespace Evaluator

open Evaluation (Scope)

/-- An evaluation not begun, with a limit on its depth. -/
def ofLimit (limit : Nat) (console : Console) : Evaluator where
  nesting := Nesting.ofLimit limit
  tripped := false
  console := console

/-- A step of an evaluation. A fatal error leaves the state as it was when the error was met. -/
abbrev Step := ExceptT FatalError (StateM Evaluator)

/-- Reports a condition at the position of the statement or query. Returns whether it was kept. -/
def report (scope : Scope) (condition : Condition) : Step Bool :=
  modifyGet fun e =>
    let (accepted, console) := e.console.report (condition.diagnostic scope.pos)
    (accepted, { e with console })

theorem run_report (scope : Scope) (condition : Condition) (e : Evaluator) :
    (report scope condition).run e =
      (.ok (e.console.report (condition.diagnostic scope.pos)).1,
        { e with console := (e.console.report (condition.diagnostic scope.pos)).2 }) :=
  rfl

/-! ## Depth -/

/-- Reports a condition and counts as zero. -/
def missing (scope : Scope) (condition : Condition) : Step Value := do
  discard <| report scope condition
  return .zero

/-- Runs a step one level deeper. At the limit the step is not run but counts as zero; a warning
says so, and no step is run from then on. -/
def deeper (scope : Scope) (step : Step Value) : Step Value :=
  .mk fun e =>
    if e.tripped then
      (.ok .zero, e)
    else
      match e.nesting.enter with
      | .error exceeded =>
        (missing scope (.nestingTooDeep exceeded.limit)).run { e with tripped := true }
      | .ok nesting =>
        let (outcome, inner) := step.run { e with nesting }
        (outcome, { inner with nesting := inner.nesting.leave })

theorem run_deeper (scope : Scope) (step : Step Value) (e : Evaluator) :
    (deeper scope step).run e =
      if e.tripped then (.ok .zero, e)
      else match e.nesting.enter with
        | .error exceeded =>
          (missing scope (.nestingTooDeep exceeded.limit)).run { e with tripped := true }
        | .ok nesting =>
          ((step.run { e with nesting }).1, { (step.run { e with nesting }).2 with
            nesting := (step.run { e with nesting }).2.nesting.leave }) :=
  rfl

/-! ## Nodes -/

/-- The value behind a handle, as a number. `visit` evaluates what lies behind a handle. -/
def number (scope : Scope) (visit : NodeId → Step Value) (id : NodeId) : Step Float := do
  match ← visit id with
  | .number x => return x
  | .text content =>
    let symbol := Evaluation.blame scope.forest content (scope.forest.size + 1) id
    throw (.textInArithmetic symbol scope.pos)

/-- The value of a constant. -/
def constant (scope : Scope) (name : Name) : Step Value := do
  match scope.symbols.consts.get? name with
  | some record => return record.value
  | none => missing scope (.constantUndefined name)

/-- The value of a node. `visit` evaluates what lies behind a handle. -/
def node (scope : Scope) (visit : NodeId → Step Value) : Node → Step Value
  | .number x => return .number x
  | .text content => return .text content
  | .numberConstant name => do
    match ← constant scope name with
    | .number x => return .number x
    | .text _ => throw (.textInArithmetic name.text scope.pos)
  | .textConstant name => constant scope name
  | .variable name => do
    match scope.symbols.vars.get? name with
    | some record => visit record.expr
    | none => missing scope (.variableUndefined name)
  | .lengthOf name => do
    match scope.symbols.elements.get? name with
    | some record =>
      match record.length? with
      | some length => visit length
      | none => return .zero
    | none => missing scope (.elementUndefined name)
  | .parens inner => visit inner
  | .signed sign operand => do
    return .number (sign.apply (← number scope visit operand))
  | .binary op left right => do
    let left ← number scope visit left
    let right ← number scope visit right
    return .number (op.apply left right)
  | .call f argument => do
    return .number (f.apply (← number scope visit argument))

/-! ## Expressions -/

/-- The value behind a handle, if at most `levels` levels are needed. -/
def visitWithin (scope : Scope) : (levels : Nat) → NodeId → Step Value
  | 0, id => throw (.fault (.endless id))
  | levels + 1, id => deeper scope do
    match scope.forest.get? id with
    | some n => node scope (visitWithin scope levels) n
    | none => throw (.fault (.stale id))

/-- The value behind a handle. -/
def visit (scope : Scope) (id : NodeId) : Step Value := do
  visitWithin scope (Evaluation.levels scope (← get).nesting.limit) id

/-- Begins an evaluation. -/
def begin : Step Unit :=
  modify fun e => { e with tripped := false }

/-- Evaluates a stored expression. -/
def evaluate (scope : Scope) (id : NodeId) : Step Value := do
  begin
  visit scope id

/-- Evaluates a stored expression where a number is needed. -/
def evaluateNumber (scope : Scope) (id : NodeId) : Step Float := do
  begin
  number scope (visit scope) id

end Evaluator

end Beamline
