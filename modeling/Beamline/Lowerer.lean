import Beamline.Diagnostic.Console
import Beamline.Lowering

/-!
# Lowering with a console

How formulas are lowered when there is a console to be told: every warning of `Lowering` is
reported when it is met, in the middle of the formula, and the console answers whether it has kept
it. The rest of the formula is lowered after that report, with the console as the report left it.
-/

namespace Beamline

open Diagnostic (Condition Console)
open Beamline.Expr (Formula Node NodeId Forest)

/-- What lowering changes when there is a console. -/
structure Lowerer where
  /-- The stored nodes. -/
  forest : Forest
  /-- Where warnings are reported. -/
  console : Console

namespace Lowerer

open Lowering (Scope)

/-- A step of lowering. A fatal error leaves the stored nodes and the console as they were when the
error was met. -/
abbrev Step := ExceptT FatalError (StateM Lowerer)

/-- Reports a condition at the position of the statement. Returns whether it was kept. -/
def report (scope : Scope) (condition : Condition) : Step Bool :=
  modifyGet fun lowerer =>
    let (accepted, console) := lowerer.console.report (condition.diagnostic scope.pos)
    (accepted, { lowerer with console })

theorem run_report (scope : Scope) (condition : Condition) (lowerer : Lowerer) :
    (report scope condition).run lowerer =
      (.ok (lowerer.console.report (condition.diagnostic scope.pos)).1,
        { lowerer with
          console := (lowerer.console.report (condition.diagnostic scope.pos)).2 }) :=
  rfl

/-- Stores a node. -/
def alloc (node : Node) : Step NodeId :=
  modifyGet fun lowerer =>
    let (id, forest) := lowerer.forest.alloc node
    (id, { lowerer with forest })

/-- The node of an identifier. `arithmetic` says that a number is needed. -/
def classify (scope : Scope) (name : Name) (arithmetic : Bool) : Step Node := do
  match scope.symbols.consts.get? name with
  | some constant =>
    if !constant.value.isText then
      return .numberConstant name
    else if arithmetic then
      throw (.textInArithmetic name.text scope.pos)
    else
      return .textConstant name
  | none =>
    if scope.constantsOnly then
      discard <| report scope (.constantUndefined name)
      return .number 0.0
    else
      unless scope.symbols.vars.contains name do
        discard <| report scope (.variableUndefined name)
      return .variable name

/-- Stores a formula. `arithmetic` says that a number is needed, which holds for the operands of
operators and functions; parentheses pass it on. -/
def lower (scope : Scope) : Formula → (arithmetic : Bool) → Step NodeId
  | .number x, _ => alloc (.number x)
  | .text content, arithmetic => do
    if arithmetic then
      throw (.textInArithmetic (Value.quote content) scope.pos)
    alloc (.text content)
  | .name raw, arithmetic => do
    alloc (← classify scope (Name.ofText raw) arithmetic)
  | .lengthOf raw, _ => do
    let name := Name.ofText raw
    unless scope.symbols.elements.contains name do
      discard <| report scope (.elementUndefined name)
    alloc (.lengthOf name)
  | .parens inner, arithmetic => do
    alloc (.parens (← lower scope inner arithmetic))
  | .signed sign operand, _ => do
    alloc (.signed sign (← lower scope operand true))
  | .binary op left right, _ => do
    let left ← lower scope left true
    let right ← lower scope right true
    alloc (.binary op left right)
  | .call f argument, _ => do
    alloc (.call f (← lower scope argument true))

end Lowerer

end Beamline
