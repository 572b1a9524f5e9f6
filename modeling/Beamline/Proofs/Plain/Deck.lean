import Mathlib.Algebra.GroupWithZero.Nat
import Beamline.Commentary
import Beamline.Deck.Definition
import Beamline.Proofs.Plain.Evaluation
import Beamline.Proofs.Plain.Layout

/-!
# Plain decks

A plain deck holds the terms of its constants, variables and elements in the records themselves.
There are no handles, and no term is ever released: a record that is replaced or removed is simply
no longer there. Otherwise a plain deck does what a deck does: it accepts the same statements,
raises the same diagnostics and answers the same questions.
-/

namespace Beamline.Plain

open Source (Position)
open Diagnostic (Condition)
open Beamline.Expr (Formula Term)
open Beamline.Element (MapIndex)

/-- A deck with its expressions in its records. -/
structure Deck (ε : Type) where
  /-- The limits. -/
  limits : Limits
  /-- The namespaces. -/
  symbols : Symbols ε
  /-- The commentary. -/
  commentary : Commentary
  /-- The position of the statement read last. -/
  pos : Position

namespace Deck

variable {ε δ : Type}

/-- The deck with its expressions in another form. -/
def map (f : ε → δ) (deck : Deck ε) : Deck δ :=
  { deck with symbols := deck.symbols.map f }

/-- The deck before the first statement, with the expression of the one constant that every deck
has. -/
def initialWith (limits : Limits) (source : ε) : Deck ε where
  limits := limits
  symbols := { Symbols.empty with
    consts := [{ name := Name.ofText "PI", value := .number Angle.halfTurn, source
                 pos := Position.unread }] }
  commentary := Commentary.empty
  pos := Position.unread

/-- The deck before the first statement. `PI` is a constant of every deck. -/
def initial (limits : Limits) : Deck Term :=
  initialWith limits (.number Angle.halfTurn)

/-! ## Actions -/

/-- A deck at work and the diagnostics raised so far. -/
structure Work where
  /-- The deck. -/
  deck : Deck Term
  /-- The diagnostics raised, in order. -/
  raised : Array Diagnostic

/-- An action on a deck. A fatal error leaves the deck as it was when the error was met. -/
abbrev Action := ExceptT Error (StateM Work)

/-- The deck. -/
def current : Action (Deck Term) :=
  return (← get).deck

/-- Changes the deck. -/
def change (f : Deck Term → Deck Term) : Action Unit :=
  modify fun work => { work with deck := f work.deck }

/-- Changes the symbols. -/
def changeSymbols (f : Symbols Term → Symbols Term) : Action Unit :=
  change fun deck => { deck with symbols := f deck.symbols }

/-- Raises a condition at the position of the statement. -/
def raise (condition : Condition) : Action Unit :=
  modify fun work =>
    { work with raised := work.raised.push (condition.diagnostic work.deck.pos) }

/-- Moves to the position of the next statement. -/
def moveTo (pos : Position) : Action Unit :=
  change fun deck => { deck with pos }

/-! ## Expressions -/

/-- Runs a step that leaves the deck as it is. -/
def observe {α : Type} (step : Deck Term → Step α) : Action α :=
  .mk fun work =>
    let (outcome, raised) := (step work.deck).run work.raised
    (outcome, { work with raised })

theorem run_observe {α : Type} (step : Deck Term → Step α) (w : Work) :
    (observe step).run w =
      (((step w.deck).run w.raised).1, { w with raised := ((step w.deck).run w.raised).2 }) :=
  rfl

/-- The term of a formula. With `constantsOnly`, identifiers other than constants count for
nothing. -/
def lowerWith (constantsOnly : Bool) (formula : Formula) : Action Term :=
  observe fun deck => (deck.symbols.loweringScope deck.pos constantsOnly).lower formula false

/-- The term of a formula. -/
def lower (formula : Formula) : Action Term :=
  lowerWith false formula

/-- The number of nodes of all terms that the records hold. -/
def size (deck : Deck Term) : Nat :=
  (deck.symbols.exprs.map Term.size).sum

/-- The levels that an evaluation may enter. Without a limit they are as many as there are nodes:
an evaluation that comes to an end is on the way to no node more than once. -/
def levels (deck : Deck Term) (t : Term) : Nat :=
  if deck.limits.evalDepth = 0 then deck.size + t.size else deck.limits.evalDepth

/-- The value of a term. -/
def evaluate (t : Term) : Action Value :=
  -- written as a function of the state, as evaluation keeps a state of its own
  .mk fun work =>
    let deck := work.deck
    let scope := deck.symbols.evaluationScope deck.pos deck.limits.evalDepth
    let start : Progress := { tripped := false, raised := work.raised }
    let (outcome, finish) := (scope.visit (deck.levels t) t).run start
    (outcome, { work with raised := finish.raised })

/-- The entries of the body of a line. -/
def layout (body : Line.Body) : Action (List Line.Entry) :=
  observe fun deck =>
    let scope : LayoutScope :=
      { entriesOf := deck.symbols.entriesOf, pos := deck.pos, limit := deck.limits.lineEntries }
    scope.layout body

/-! ## Symbols -/

/-- Removes the element of a name. Returns whether there was one. -/
def removeElement (name : Name) : Action Bool := do
  let isDefined := (← current).symbols.elements.contains name
  changeSymbols fun symbols => { symbols with elements := symbols.elements.without name }
  return isDefined

/-- Removes the line of a name. Returns whether there was one. -/
def removeLine (name : Name) : Action Bool := do
  let isDefined := (← current).symbols.lines.contains name
  changeSymbols fun symbols => { symbols with lines := symbols.lines.without name }
  return isDefined

/-- Stores a constant in place of the one that has its name. -/
def insertConstant (record : Constant Term) : Action Unit :=
  changeSymbols fun symbols => { symbols with consts := symbols.consts.insert record }

/-- Stores a variable in place of the one that has its name. -/
def insertVariable (record : Variable Term) : Action Unit :=
  changeSymbols fun symbols => { symbols with vars := symbols.vars.insert record }

/-- Stores an element in place of the one that has its name. -/
def insertElement (record : Element Term) : Action Unit :=
  changeSymbols fun symbols => { symbols with elements := symbols.elements.insert record }

/-- Stores a line in place of the one that has its name. -/
def insertLine (record : Line) : Action Unit :=
  changeSymbols fun symbols => { symbols with lines := symbols.lines.insert record }

/-! ## Constants and variables -/

/-- Defines a constant. -/
def defineConstant (raw : String) (formula : Formula) : Action Unit := do
  let name := Name.ofText raw
  if (← current).symbols.vars.contains name then
    raise (.constantIsVariable name)
  else
    -- constants are evaluated at once: the value kept is that of this moment
    let source ← lowerWith true formula
    let value ← evaluate source
    let deck ← current
    if deck.symbols.consts.contains name then
      raise (.constantRedefined name)
    insertConstant { name, value, source, pos := deck.pos }

/-- Defines a variable. With an immediate binding the formula is evaluated and its value kept. -/
def defineVariable (raw : String) (formula : Formula) (binding : Binding) : Action Unit := do
  let name := Name.ofText raw
  if (← current).symbols.consts.contains name then
    raise (.variableIsConstant name)
  else
    let lowered ← lower formula
    let expr ← match binding with
      | .deferred => pure lowered
      | .immediate => Term.ofValue <$> evaluate lowered
    insertVariable { name, expr, pos := (← current).pos }

/-! ## Elements -/

/-- Sets an attribute of an element, or its label if the keyword is `TYPE` and the value can be
one. -/
def assignItem (element : Element Term) (key : String) (value : Formula) :
    Action (Element Term) := do
  match if Text.normalize key = "TYPE" then Deck.labelOf? value else none with
  | some label => return element.relabel label
  | none =>
    match element.kind.slotIndex? key with
    | some i => return element.setSlot i (← lower value)
    | none =>
      raise (.unknownAttribute element.kind (Text.normalize key))
      return element

/-- Sets an attribute of an element to the default of its kind. -/
def flagItem (element : Element Term) (key : String) : Action (Element Term) := do
  match element.kind.slotIndex? key with
  | some i =>
    match element.kind.flagDefault? key with
    | some x => return element.setSlot i (.number x)
    | none =>
      raise (.attributeNeedsValue element.kind (Text.normalize key))
      return element
  | none =>
    raise (.unknownAttribute element.kind (Text.normalize key))
    return element

/-- Sets an entry of the transfer map of an element. `written` is the index as written. -/
def entryItem (element : Element Term) (index : Option MapIndex) (written : String)
    (value : Formula) : Action (Element Term) := do
  if element.kind ≠ .matrix then
    raise (.notAMatrix element.name element.kind)
    return element
  else
    match index with
    | none =>
      raise (.indexOutOfRange written)
      return element
    | some index => return element.setEntry index (← lower value)

/-- Enters one item of a definition into the element. -/
def enterItem (element : Element Term) : Element.Item → Action (Element Term)
  | .assign key value => assignItem element key value
  | .flag key => flagItem element key
  | .label text => return element.relabel text
  | .rm i j value => entryItem element (MapIndex.rm? i j) (Deck.writtenIndex [i, j]) value
  | .tm i j k value => entryItem element (MapIndex.tm? i j k) (Deck.writtenIndex [i, j, k]) value

/-- Defines an element. An element of the same name is removed before the items are entered. -/
def defineElement (raw : String) (kind : Element.Kind) (items : List Element.Item) :
    Action Unit := do
  let name := Name.ofText raw
  -- removed first, so that an item that refers to the element itself is warned about
  if ← removeElement name then
    raise (.elementRedefined name)
  let element ← items.foldlM enterItem (Element.blank name kind (← current).pos)
  insertElement element

/-! ## Lines -/

/-- Defines a line. The body is laid out before a line of the same name is removed. -/
def defineLine (raw : String) (body : Line.Body) : Action Unit := do
  let name := Name.ofText raw
  -- the body may name the line that it replaces
  let entries ← layout body
  if ← removeLine name then
    raise (.lineRedefined name)
  insertLine { name, entries, pos := (← current).pos }

/-! ## Comments -/

/-- Opens a comment block. -/
def beginComment : Action Unit :=
  change fun deck => { deck with commentary := deck.commentary.begin }

/-- Closes a comment block; with a warning if none is open. -/
def endComment : Action Unit := do
  match (← current).commentary.finish with
  | .ok commentary => change fun deck => { deck with commentary }
  | .error _ => raise .unmatchedEnd

/-- Keeps a comment, at the end of the input if `atEnd`. -/
def captureComment (text : String) (atEnd : Bool) : Action Unit :=
  change fun deck =>
    let pos := if atEnd then Position.endOfInput else deck.pos
    { deck with commentary := deck.commentary.capture text pos }

/-! ## Statements -/

/-- Does what a clause says. -/
def perform : Clause → Action Unit
  | .constant name value => defineConstant name value
  | .variable name value binding => defineVariable name value binding
  | .element name kind items => defineElement name kind items
  | .line name body => defineLine name body
  | .beginComment => beginComment
  | .endComment => endComment
  | .comment text atEnd => captureComment text atEnd
  | .pragma .. => return ()

/-- Applies a statement. While a comment block is open, only clauses about comments count. -/
def apply (statement : Statement) : Action Unit := do
  moveTo statement.pos
  unless (← current).commentary.isActive && !statement.clause.isComment do
    perform statement.clause

/-! ## Queries -/

/-- The value of a constant. -/
def constantValue? (deck : Deck ε) (raw : String) : Option Value :=
  (deck.symbols.consts.get? (Name.ofText raw)).map Constant.value

/-- The value of a slot: none if there is no such slot, zero if it is not set. -/
def slotValue : Option (Option Term) → Action (Option Value)
  | none => return none
  -- an attribute that was never set counts as zero
  | some none => return some .zero
  | some (some t) => some <$> evaluate t

/-- The value of a variable. -/
def variableValue (raw : String) : Action (Option Value) := do
  slotValue (((← current).symbols.vars.get? (Name.ofText raw)).map fun record => some record.expr)

/-- The value of an attribute. -/
def attributeValue (raw key : String) : Action (Option Value) := do
  slotValue (((← current).symbols.elements.get? (Name.ofText raw)).bind fun e => e.slot? key)

/-- The value of an entry of a transfer map. -/
def entryValue (raw : String) (index : MapIndex) : Action (Option Value) := do
  slotValue (((← current).symbols.elements.get? (Name.ofText raw)).bind fun e => e.cell? index)

/-- The length of an element. -/
def elementLength (raw : String) : Action (Option Value) := do
  slotValue (((← current).symbols.elements.get? (Name.ofText raw)).map Element.length?)

end Deck

end Beamline.Plain
