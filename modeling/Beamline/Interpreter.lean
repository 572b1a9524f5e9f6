import Beamline.Deck.Query
import Beamline.Interpreter.Definition

/-!
# The interpreter

What can be asked of an interpreter. A fatal error that ends an operation is reported once, after
all that was reported on the way.
-/

namespace Beamline.Interpreter

open Source (Position)
open Beamline.Expr (Formula NodeId)

/-- Applies a statement. While a comment block is open, only clauses about comments count. -/
def apply (statement : Statement) : Action Unit := check do
  onDeck (Deck.moveTo statement.pos)
  unless (← current).commentary.isActive && !statement.clause.isComment do
    enter statement.clause

/-- Applies statements in order, up to the first fatal error. -/
def run : List Statement → Action Unit
  | [] => return ()
  | statement :: statements => do
    apply statement
    run statements

/-- Prints the summary of the diagnostics. -/
def finish (it : Interpreter) : Interpreter :=
  { it with console := it.console.finish }

/-! ## Definitions -/

/-- Runs the steps of an operation at a position, and reports the error that has ended them. -/
def checkAt {α : Type} (pos : Position) (steps : Action α) : Action α := check do
  onDeck (Deck.moveTo pos)
  steps

/-- Defines a constant, whether or not a comment block is open. -/
def defineConstant (raw : String) (formula : Formula) (pos : Position) : Action Unit :=
  checkAt pos (enterConstant raw formula)

/-- Defines a variable, whether or not a comment block is open. -/
def defineVariable (raw : String) (formula : Formula) (binding : Binding) (pos : Position) :
    Action Unit :=
  checkAt pos (enterVariable raw formula binding)

/-- Defines an element, whether or not a comment block is open. -/
def defineElement (raw : String) (kind : Element.Kind) (items : List Element.Item)
    (pos : Position) : Action Unit :=
  checkAt pos (enterElement raw kind items)

/-- Defines a line, whether or not a comment block is open. -/
def defineLine (raw : String) (body : Line.Body) (pos : Position) : Action Unit :=
  checkAt pos (enterLine raw body)

/-! ## Expressions and lines -/

/-- Lays out the body of a line without defining one. -/
def layout (body : Line.Body) : Action (List Line.Entry) :=
  check (flatten body)

/-- Stores a formula, which then belongs to the caller. -/
def lower (formula : Formula) : Action NodeId :=
  check (runLowerer false formula)

/-- Evaluates a stored expression. -/
def evaluate (id : NodeId) : Action Value :=
  check (runEvaluator id)

/-! ## Queries -/

/-- The value of a slot: none if there is no such slot, zero if it is not set. -/
def slotValue : Option (Option NodeId) → Action (Option Value)
  | none => return none
  | some none => return some .zero
  | some (some id) => some <$> evaluate id

/-- The value of a variable. -/
def variableValue (raw : String) : Action (Option Value) := do
  slotValue (((← current).symbols.vars.lookup? raw).map fun record => some record.expr)

/-- The value of an attribute. -/
def attributeValue (raw key : String) : Action (Option Value) := do
  slotValue (((← current).symbols.elements.lookup? raw).bind fun element => element.slot? key)

/-- The value of an entry of a transfer map. -/
def entryValue (raw : String) (index : Element.MapIndex) : Action (Option Value) := do
  let map := ((← current).symbols.elements.lookup? raw).bind fun element => element.map
  slotValue (map.map fun m => m.get? index)

/-- The length of an element. -/
def elementLength (raw : String) : Action (Option Value) := do
  slotValue (((← current).symbols.elements.lookup? raw).map Element.length?)

end Beamline.Interpreter
