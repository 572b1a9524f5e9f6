import Beamline.Deck.Basic
import Beamline.Evaluator
import Beamline.Lowerer

/-!
# The interpreter at work

An interpreter is a deck with a console. The steps of its operations report what there is to warn
about when it is met, and go on with the deck and the console as they are then. A fatal error is
not reported by the step that meets it but by the operation that it ends.
-/

namespace Beamline

open Source (Position)
open Diagnostic (Condition Console Policy Terminal)
open Beamline.Expr (Formula NodeId)

/-- The settings of an interpreter. -/
structure Config where
  /-- The limits on the deck. -/
  limits : Limits := {}
  /-- Which warnings are kept. -/
  policy : Policy := {}
  deriving DecidableEq

/-- A deck and the console to which its diagnostics go. -/
structure Interpreter where
  /-- What has been defined so far. -/
  deck : Deck
  /-- Where diagnostics go. -/
  console : Console

namespace Interpreter

/-- The interpreter before the first statement. -/
def ofConfig (config : Config) : Interpreter where
  deck := Deck.initial config.limits
  console := Console.ofPolicy config.policy

/-- The settings of the interpreter. -/
def config (it : Interpreter) : Config where
  limits := it.deck.limits
  policy := it.console.ledger.policy

/-- Attaches a terminal. -/
def attach (terminal : Terminal) (it : Interpreter) : Interpreter :=
  { it with console := { it.console with terminal := some terminal } }

/-- A step or an operation of the interpreter. A fatal error leaves the interpreter as it was when
the error was met. -/
abbrev Action := ExceptT FatalError (StateM Interpreter)

/-! ## The deck -/

/-- The deck. -/
def current : Action Deck :=
  return (← get).deck

/-- Runs an action on the deck that has no access to the console: it moves to a position, enters
records into the tables, stores or releases nodes, or keeps comments, and raises nothing. -/
def onDeck {α : Type} (action : Deck.Action α) : Action α :=
  .mk fun it =>
    let (outcome, work) := action.run { deck := it.deck, raised := #[] }
    (outcome, { it with deck := work.deck })

/-! ## Reports -/

/-- Reports a diagnostic. Returns whether it was kept. -/
def report (d : Diagnostic) : Action Bool :=
  modifyGet fun it =>
    let (accepted, console) := it.console.report d
    (accepted, { it with console })

/-- Reports a warning at the position of the statement. -/
def warn (condition : Condition) : Action Unit := do
  discard <| report (condition.diagnostic (← current).pos)

theorem run_warn (condition : Condition) (it : Interpreter) :
    (warn condition).run it = (.ok ⟨⟩, { it with
      console := (it.console.report (condition.diagnostic it.deck.pos)).2 }) :=
  rfl

/-- Runs the steps of an operation and reports the error that has ended them, if one did. -/
def check {α : Type} (steps : Action α) : Action α :=
  .mk fun it =>
    match steps.run it with
    | (.ok x, it) => (.ok x, it)
    | (.error e, it) => (.error e, ((report (e.diagnostic it.deck.pos)).run it).2)

theorem run_check {α : Type} (steps : Action α) (it : Interpreter) :
    (check steps).run it = match steps.run it with
      | (.ok x, it) => (.ok x, it)
      | (.error e, it) => (.error e, ((report (e.diagnostic it.deck.pos)).run it).2) :=
  rfl

/-! ## Expressions and lines -/

/-- Stores a formula. With `constantsOnly`, identifiers other than constants count for nothing. -/
def runLowerer (constantsOnly : Bool) (formula : Formula) : Action NodeId :=
  .mk fun it =>
    let scope : Lowering.Scope :=
      { symbols := it.deck.symbols, pos := it.deck.pos, constantsOnly }
    let (outcome, lowerer) :=
      (Lowerer.lower scope formula false).run { forest := it.deck.forest, console := it.console }
    (outcome, { deck := { it.deck with forest := lowerer.forest }, console := lowerer.console })

/-- Evaluates a stored expression. -/
def runEvaluator (id : NodeId) : Action Value :=
  .mk fun it =>
    let scope : Evaluation.Scope :=
      { forest := it.deck.forest, symbols := it.deck.symbols, pos := it.deck.pos }
    let (outcome, evaluator) :=
      (Evaluator.evaluate scope id).run (Evaluator.ofLimit it.deck.limits.evalDepth it.console)
    (outcome, { it with console := evaluator.console })

mutual

/-- The entries of a body. -/
def flatten : Line.Body → Action (List Line.Entry)
  | .member raw => do
    let name := Name.ofText raw
    let (entries, isDefined) := Line.entriesOf (← current).symbols name
    unless isDefined do
      warn (.memberUndefined name)
    return entries
  | .sequence items => flattenAll items
  | .repetition count body => do
    let entries ← flatten body
    let deck ← current
    match Line.repeat? count entries deck.limits.lineEntries with
    | .ok entries => return entries
    | .error overflow => throw (.lineTooLong overflow.limit deck.pos)
  | .reflection body => return Line.reflect (← flatten body)

/-- The entries of bodies one after the other. -/
def flattenAll : List Line.Body → Action (List Line.Entry)
  | [] => return []
  | item :: items => do
    let entries ← flatten item
    return entries ++ (← flattenAll items)

end

end Interpreter

end Beamline
