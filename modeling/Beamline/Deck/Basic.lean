import Beamline.Commentary
import Beamline.Evaluation
import Beamline.Lowering
import Beamline.Line.Layout

/-!
# Decks

A deck is what has been defined so far: the stored expressions, the four namespaces and the
commentary. An action on a deck can raise diagnostics and can end in a fatal error; the deck stays
as the action left it.

An action lists what it raises and tells nobody. The operations of an interpreter report to a
console while they are at work; each is equal to an action that is performed and then reported
(`Interpreter.perform`), so that what is proved of actions holds of operations.
-/

namespace Beamline

open Source (Position)
open Diagnostic (Condition)
open Beamline.Expr (Formula Node NodeId Fault Forest)

/-- The limits on a deck. -/
structure Limits where
  /-- The greatest depth of an evaluation; zero for no limit. -/
  evalDepth : Nat := 10000
  /-- The most entries of a repetition; zero for no limit but the room there is. -/
  lineEntries : Nat := 16777216
  deriving DecidableEq

/-- What has been defined so far. -/
structure Deck where
  /-- The limits. -/
  limits : Limits
  /-- The stored expressions. -/
  forest : Forest
  /-- The namespaces. -/
  symbols : Symbols
  /-- The commentary. -/
  commentary : Commentary
  /-- The position of the statement read last. -/
  pos : Position

namespace Deck

/-- A deck in which nothing is defined. -/
def blank (limits : Limits) : Deck where
  limits := limits
  forest := Pool.empty
  symbols := Symbols.empty
  commentary := Commentary.empty
  pos := Position.unread

/-- The deck before the first statement. `PI` is a constant of every deck. -/
def initial (limits : Limits) : Deck :=
  let deck := blank limits
  let (source, forest) := deck.forest.alloc (.number Angle.halfTurn)
  let record : Constant :=
    { name := Name.ofText "PI", value := .number Angle.halfTurn, source, pos := deck.pos }
  let (_, consts, forest) := deck.symbols.consts.insert record forest
  { deck with forest, symbols := { deck.symbols with consts } }

/-! ## Actions -/

/-- A deck at work and the diagnostics raised so far. -/
structure Work where
  /-- The deck. -/
  deck : Deck
  /-- The diagnostics raised, in order. -/
  raised : Array Diagnostic

/-- An action on a deck. A fatal error leaves the deck as it was when the error was met. -/
abbrev Action := ExceptT FatalError (StateM Work)

/-- The deck. -/
def current : Action Deck :=
  return (← get).deck

/-- Changes the deck. -/
def change (f : Deck → Deck) : Action Unit :=
  modify fun work => { work with deck := f work.deck }

/-- Raises a condition at the position of the statement. -/
def raise (condition : Condition) : Action Unit :=
  modify fun work =>
    { work with raised := work.raised.push (condition.diagnostic work.deck.pos) }

/-- Moves to the position of the next statement. -/
def moveTo (pos : Position) : Action Unit :=
  change fun deck => { deck with pos }

/-! ## Expressions -/

/-- Stores a formula. With `constantsOnly`, identifiers other than constants count for nothing. -/
def lowerWith (constantsOnly : Bool) (formula : Formula) : Action NodeId :=
  .mk fun work =>
    let scope : Lowering.Scope :=
      { symbols := work.deck.symbols, pos := work.deck.pos, constantsOnly }
    let (outcome, draft) :=
      (Lowering.lower scope formula false).run
        { forest := work.deck.forest, raised := work.raised }
    (outcome, { deck := { work.deck with forest := draft.forest }, raised := draft.raised })

/-- Stores a formula. -/
def lower (formula : Formula) : Action NodeId :=
  lowerWith false formula

/-- Evaluates a stored expression. -/
def evaluate (id : NodeId) : Action Value :=
  .mk fun work =>
    let deck := work.deck
    let scope : Evaluation.Scope :=
      { forest := deck.forest, symbols := deck.symbols, pos := deck.pos }
    let start := { Evaluation.ofLimit deck.limits.evalDepth with raised := work.raised }
    let (outcome, finish) := (Evaluation.evaluate scope id).run start
    (outcome, { work with raised := finish.raised })

/-- Lays out the body of a line. -/
def layout (body : Line.Body) : Action (List Line.Entry) :=
  .mk fun work =>
    let deck := work.deck
    let scope : Line.Body.Scope :=
      { symbols := deck.symbols, pos := deck.pos, limit := deck.limits.lineEntries }
    let (outcome, raised) := (body.layout scope).run work.raised
    (outcome, { work with raised })

/-- Runs a step on the stored expressions that can meet a fault. -/
def onForest {α : Type} (step : Forest → Except Fault α × Forest) : Action α :=
  .mk fun work =>
    let (outcome, forest) := step work.deck.forest
    (outcome.mapError .fault, { work with deck := { work.deck with forest } })

/-- Stores a node. -/
def alloc (node : Node) : Action NodeId :=
  onForest fun forest =>
    let (id, forest) := forest.alloc node
    (.ok id, forest)

/-- Releases a stored expression. -/
def release (id : NodeId) : Action Unit :=
  onForest fun forest =>
    let (outcome, forest) := forest.release id
    (outcome.map fun _ => (), forest)

/-- Releases a stored expression that was replaced, if there was one. -/
def releaseReplaced (previous : Option NodeId) : Action Unit :=
  match previous with
  | some id => release id
  | none => return ()

/-! ## Symbols -/

/-- Runs a step on one table and the stored expressions. -/
def onTable {α β : Type} [Record α] (get : Symbols → Table α) (set : Table α → Symbols → Symbols)
    (step : Table α → Forest → Except Fault β × Table α × Forest) : Action β :=
  .mk fun work =>
    let deck := work.deck
    let (outcome, table, forest) := step (get deck.symbols) deck.forest
    (outcome.mapError .fault,
      { work with deck := { deck with symbols := set table deck.symbols, forest } })

/-- Stores a constant in place of the one that has its name. -/
def insertConstant (record : Constant) : Action Bool :=
  onTable Symbols.consts (fun consts symbols => { symbols with consts })
    (Table.insert record)

/-- Stores a variable in place of the one that has its name. -/
def insertVariable (record : Variable) : Action Bool :=
  onTable Symbols.vars (fun vars symbols => { symbols with vars })
    (Table.insert record)

/-- Stores an element in place of the one that has its name. -/
def insertElement (record : Element) : Action Bool :=
  onTable Symbols.elements (fun elements symbols => { symbols with elements })
    (Table.insert record)

/-- Removes the element of a name. Returns whether there was one. -/
def removeElement (name : Name) : Action Bool :=
  onTable Symbols.elements (fun elements symbols => { symbols with elements })
    (Table.remove name)

/-- Stores a line in place of the one that has its name. -/
def insertLine (record : Line) : Action Bool :=
  onTable Symbols.lines (fun lines symbols => { symbols with lines }) (Table.insert record)

/-- Removes the line of a name. Returns whether there was one. -/
def removeLine (name : Name) : Action Bool :=
  onTable Symbols.lines (fun lines symbols => { symbols with lines }) (Table.remove name)

end Deck

end Beamline
