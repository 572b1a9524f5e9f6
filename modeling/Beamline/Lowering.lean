import Beamline.Statement
import Beamline.FatalError
import Beamline.Symbols

/-!
# Lowering

A formula is lowered when the statement that holds it is read: its nodes are stored in the forest,
operands before the node that needs them and left before right, and each identifier is told apart
by the constants defined at that moment. A number constant stays one for good; what is no constant
is taken for a variable, with a warning if there is none yet. A text where a number is needed ends
the run before anything is evaluated; the nodes stored until then stay in the forest, owned by
nobody.

In the definition of a constant only constants count. Any other identifier is warned about and
lowered to zero.

Here the warnings are listed. `Lowerer` lowers in the same way and reports each to a console.
-/

namespace Beamline

open Source (Position)
open Diagnostic (Condition)
open Beamline.Expr (Formula Node NodeId Forest)

namespace Lowering

/-- What lowering depends on. -/
structure Scope where
  /-- The symbols defined so far. -/
  symbols : Symbols
  /-- The position of the statement. -/
  pos : Position
  /-- Whether identifiers other than constants count for nothing. -/
  constantsOnly : Bool

/-- What lowering changes. -/
structure Draft where
  /-- The stored nodes. -/
  forest : Forest
  /-- The diagnostics raised, in order. -/
  raised : Array Diagnostic

/-- A step of lowering. A fatal error leaves the draft as it was when the error was met. -/
abbrev Step := ExceptT FatalError (StateM Draft)

/-- Raises a condition at the position of the statement. -/
def raise (scope : Scope) (condition : Condition) : Step Unit :=
  modify fun draft => { draft with raised := draft.raised.push (condition.diagnostic scope.pos) }

/-- Stores a node. -/
def alloc (node : Node) : Step NodeId :=
  modifyGet fun draft =>
    let (id, forest) := draft.forest.alloc node
    (id, { draft with forest })

/-- The node of an identifier. `arithmetic` says that a number is needed. -/
def classify (scope : Scope) (name : Name) (arithmetic : Bool) : Step Node := do
  match scope.symbols.consts.get? name with
  | some constant =>
    if !constant.value.isText then
      return .numberConstant name
    else if arithmetic then
      throw (.textInArithmetic name.text scope.pos)
    else
      return .textConstant name
  | none =>
    if scope.constantsOnly then
      raise scope (.constantUndefined name)
      return .number 0.0
    else
      unless scope.symbols.vars.contains name do
        raise scope (.variableUndefined name)
      return .variable name

/-- Stores a formula. `arithmetic` says that a number is needed, which holds for the operands of
operators and functions; parentheses pass it on. -/
def lower (scope : Scope) : Formula → (arithmetic : Bool) → Step NodeId
  | .number x, _ => alloc (.number x)
  | .text content, arithmetic => do
    if arithmetic then
      throw (.textInArithmetic (Value.quote content) scope.pos)
    alloc (.text content)
  | .name raw, arithmetic => do
    alloc (← classify scope (Name.ofText raw) arithmetic)
  | .lengthOf raw, _ => do
    let name := Name.ofText raw
    unless scope.symbols.elements.contains name do
      raise scope (.elementUndefined name)
    alloc (.lengthOf name)
  | .parens inner, arithmetic => do
    alloc (.parens (← lower scope inner arithmetic))
  | .signed sign operand, _ => do
    alloc (.signed sign (← lower scope operand true))
  | .binary op left right, _ => do
    let left ← lower scope left true
    let right ← lower scope right true
    alloc (.binary op left right)
  | .call f argument, _ => do
    alloc (.call f (← lower scope argument true))

end Lowering

end Beamline
