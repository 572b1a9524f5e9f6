import Beamline.FatalError
import Beamline.Nesting
import Beamline.Symbols

/-!
# Evaluation

A stored expression is evaluated against the symbols as they are at that moment. Names are looked
up when the evaluation comes to them, not when the expression was stored; a name without a record
counts as zero, with a warning. A text where a number is needed ends the evaluation.

Every node is one level deeper than the node that needs its value, and a variable or a length goes
on into the expression that it refers to. When the limit on the depth is reached, a warning is
raised once and the rest of the evaluation counts as zero. All levels that were entered are left
again, so that one evaluation can follow another.

Here the warnings are listed. `Evaluator` evaluates in the same way and reports each to a console.
-/

namespace Beamline

open Source (Position)
open Diagnostic (Condition)
open Beamline.Expr (Node NodeId Forest)

/-- The state of an evaluation. -/
structure Evaluation where
  /-- The levels entered and not left. -/
  nesting : Nesting
  /-- The limit on the depth was reached. -/
  tripped : Bool
  /-- The diagnostics raised, in order. -/
  raised : Array Diagnostic

namespace Evaluation

/-- What an evaluation depends on. -/
structure Scope where
  /-- The stored expressions. -/
  forest : Forest
  /-- The symbols. -/
  symbols : Symbols
  /-- The position of the statement or query. -/
  pos : Position

/-- An evaluation not begun, with a limit on its depth. -/
def ofLimit (limit : Nat) : Evaluation where
  nesting := Nesting.ofLimit limit
  tripped := false
  raised := #[]

/-- A step of an evaluation. A fatal error leaves the state as it was when the error was met. -/
abbrev Step := ExceptT FatalError (StateM Evaluation)

/-- Raises a condition at the position of the statement or query. -/
def raise (scope : Scope) (condition : Condition) : Step Unit :=
  modify fun e => { e with raised := e.raised.push (condition.diagnostic scope.pos) }

/-! ## Depth -/

/-- Runs a step one level deeper. At the limit the step is not run but counts as zero; a warning
says so, and no step is run from then on. -/
def deeper (scope : Scope) (step : Step Value) : Step Value :=
  .mk fun e =>
    if e.tripped then
      (.ok .zero, e)
    else
      match e.nesting.enter with
      | .error exceeded =>
        (.ok .zero, { e with
          tripped := true
          raised := e.raised.push
            ((Condition.nestingTooDeep exceeded.limit).diagnostic scope.pos) })
      | .ok nesting =>
        let (outcome, inner) := step.run { e with nesting }
        (outcome, { inner with nesting := inner.nesting.leave })

theorem run_deeper (scope : Scope) (step : Step Value) (e : Evaluation) :
    (deeper scope step).run e =
      if e.tripped then (.ok .zero, e)
      else match e.nesting.enter with
        | .error exceeded =>
          (.ok .zero, { e with
            tripped := true
            raised := e.raised.push
              ((Condition.nestingTooDeep exceeded.limit).diagnostic scope.pos) })
        | .ok nesting =>
          ((step.run { e with nesting }).1, { (step.run { e with nesting }).2 with
            nesting := (step.run { e with nesting }).2.nesting.leave }) :=
  rfl

/-! ## Nodes -/

/-- What to blame for a text: the identifier behind the parentheses, or the text in quotes. -/
def blame (forest : Forest) (content : String) : (levels : Nat) → NodeId → String
  | 0, _ => Value.quote content
  | levels + 1, id =>
    match forest.get? id with
    | some (.parens inner) => blame forest content levels inner
    | some node =>
      match node.name? with
      | some name => name.text
      | none => Value.quote content
    | none => Value.quote content

/-- The value behind a handle, as a number. `visit` evaluates what lies behind a handle. -/
def number (scope : Scope) (visit : NodeId → Step Value) (id : NodeId) : Step Float := do
  match ← visit id with
  | .number x => return x
  | .text content =>
    throw (.textInArithmetic (blame scope.forest content (scope.forest.size + 1) id) scope.pos)

/-- The value of a constant. -/
def constant (scope : Scope) (name : Name) : Step Value := do
  match scope.symbols.consts.get? name with
  | some record => return record.value
  | none =>
    raise scope (.constantUndefined name)
    return .zero

/-- The value of a node. `visit` evaluates what lies behind a handle. -/
def node (scope : Scope) (visit : NodeId → Step Value) : Node → Step Value
  | .number x => return .number x
  | .text content => return .text content
  | .numberConstant name => do
    match ← constant scope name with
    | .number x => return .number x
    | .text _ => throw (.textInArithmetic name.text scope.pos)
  | .textConstant name => constant scope name
  | .variable name => do
    match scope.symbols.vars.get? name with
    | some record => visit record.expr
    | none =>
      raise scope (.variableUndefined name)
      return .zero
  | .lengthOf name => do
    match scope.symbols.elements.get? name with
    | some record =>
      match record.length? with
      | some length => visit length
      | none => return .zero
    | none =>
      raise scope (.elementUndefined name)
      return .zero
  | .parens inner => visit inner
  | .signed sign operand => do
    return .number (sign.apply (← number scope visit operand))
  | .binary op left right => do
    let left ← number scope visit left
    let right ← number scope visit right
    return .number (op.apply left right)
  | .call f argument => do
    return .number (f.apply (← number scope visit argument))

/-! ## Expressions -/

/-- The value behind a handle, if at most `levels` levels are needed. -/
def visitWithin (scope : Scope) : (levels : Nat) → NodeId → Step Value
  | 0, id => throw (.fault (.endless id))
  | levels + 1, id => deeper scope do
    match scope.forest.get? id with
    | some n => node scope (visitWithin scope levels) n
    | none => throw (.fault (.stale id))

/-- The levels that any evaluation that ends can need. With a limit this is one level more, at
which the limit takes effect. Without one, an evaluation that ends meets each stored node at most
once on the way to any depth, and a stale handle after the last. -/
def levels (scope : Scope) (limit : Nat) : Nat :=
  if limit = 0 then scope.forest.size + 1 else limit + 1

/-- The value behind a handle. -/
def visit (scope : Scope) (id : NodeId) : Step Value := do
  visitWithin scope (levels scope (← get).nesting.limit) id

/-- Begins an evaluation. -/
def begin : Step Unit :=
  modify fun e => { e with tripped := false }

/-- Evaluates a stored expression. -/
def evaluate (scope : Scope) (id : NodeId) : Step Value := do
  begin
  visit scope id

/-- Evaluates a stored expression where a number is needed. -/
def evaluateNumber (scope : Scope) (id : NodeId) : Step Float := do
  begin
  number scope (visit scope) id

end Evaluation

end Beamline
