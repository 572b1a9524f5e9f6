import Beamline.Deck.Basic
import Beamline.Statement

/-!
# Definitions

How the statements of a deck define its symbols. A constant and a variable cannot share a name:
the one that comes second is refused with a warning, and its formula is not looked at. In all
other cases a new definition takes the place of the old one, with a warning for constants, elements
and lines. These are the actions on the deck; `Interpreter.Definition` has the steps that report to
a console.
-/

namespace Beamline.Deck

open Source (Position)
open Diagnostic (Condition)
open Beamline.Expr (Formula Node NodeId)
open Element (MapIndex)

/-! ## Constants and variables -/

/-- Defines a constant. The formula is evaluated once and may name constants only. -/
def defineConstant (raw : String) (formula : Formula) : Action Unit := do
  let name := Name.ofText raw
  if (← current).symbols.vars.contains name then
    raise (.constantIsVariable name)
  else
    -- a formula that ends in a fatal error does not count as a redefinition
    let source ← lowerWith true formula
    let value ← evaluate source
    let deck ← current
    if deck.symbols.consts.contains name then
      raise (.constantRedefined name)
    discard <| insertConstant { name, value, source, pos := deck.pos }

/-- Defines a variable. With an immediate binding the formula is evaluated and its value stored. -/
def defineVariable (raw : String) (formula : Formula) (binding : Binding) : Action Unit := do
  let name := Name.ofText raw
  if (← current).symbols.consts.contains name then
    raise (.variableIsConstant name)
  else
    let lowered ← lower formula
    let expr ← match binding with
      | .deferred => pure lowered
      | .immediate => do
        let value ← evaluate lowered
        release lowered
        alloc (.ofValue value)
    discard <| insertVariable { name, expr, pos := (← current).pos }

/-! ## Elements -/

/-- Releases what an item of an element has replaced, or the expression itself if the item is
refused, with a warning. -/
def settle (element : Element) (id : NodeId)
    (outcome : Except Element.Refusal (Option NodeId × Element)) : Action Element := do
  match outcome with
  | .ok (previous, changed) =>
    releaseReplaced previous
    return changed
  | .error refusal =>
    release id
    raise (refusal.condition element.name)
    return element

/-- The label that a formula assigned to `TYPE` stands for. -/
def labelOf? : Formula → Option String
  | .text content => some content
  | .name raw => some raw
  | _ => none

/-- Sets an attribute of an element, or its label if the keyword is `TYPE` and the value can be
one. An attribute that the kind does not have is left out, with a warning. -/
def assignItem (element : Element) (key : String) (value : Formula) : Action Element := do
  match if Text.normalize key = "TYPE" then labelOf? value else none with
  | some label => return element.relabel label
  | none =>
    if (element.kind.slotIndex? key).isSome then
      let id ← lower value
      settle element id (element.assign key id)
    else
      raise (.unknownAttribute element.kind (Text.normalize key))
      return element

/-- Sets an attribute of an element to the default of its kind. -/
def flagItem (element : Element) (key : String) : Action Element := do
  match element.flag key (← current).forest with
  | .ok (previous, changed, forest) =>
    change fun deck => { deck with forest }
    releaseReplaced previous
    return changed
  | .error refusal =>
    raise (refusal.condition element.name)
    return element

/-- Sets an entry of the transfer map of an element. `written` is the index as written. -/
def entryItem (element : Element) (index : Option Element.MapIndex) (written : String)
    (value : Formula) : Action Element := do
  if element.kind ≠ .matrix then
    raise ((Element.Refusal.noMap element.kind).condition element.name)
    return element
  else
    match index with
    | none =>
      raise (.indexOutOfRange written)
      return element
    | some index =>
      let id ← lower value
      settle element id (element.assignEntry index id)

/-- An index as written. -/
def writtenIndex (raw : List Float) : String :=
  "(" ++ ",".intercalate (raw.map Decimal.text) ++ ")"

/-- Enters one item of a definition into the element. -/
def enterItem (element : Element) : Element.Item → Action Element
  | .assign key value => assignItem element key value
  | .flag key => flagItem element key
  | .label text => return element.relabel text
  | .rm i j value => entryItem element (MapIndex.rm? i j) (writtenIndex [i, j]) value
  | .tm i j k value => entryItem element (MapIndex.tm? i j k) (writtenIndex [i, j, k]) value

/-- Defines an element. An element of the same name is removed before the items are entered. -/
def defineElement (raw : String) (kind : Element.Kind) (items : List Element.Item) :
    Action Unit := do
  let name := Name.ofText raw
  if ← removeElement name then
    raise (.elementRedefined name)
  let element ← items.foldlM enterItem (Element.blank name kind (← current).pos)
  discard <| insertElement element

/-! ## Lines -/

/-- Defines a line. The body is laid out before a line of the same name is removed, so that a line
can extend itself. -/
def defineLine (raw : String) (body : Line.Body) : Action Unit := do
  let name := Name.ofText raw
  let entries ← layout body
  if ← removeLine name then
    raise (.lineRedefined name)
  discard <| insertLine { name, entries, pos := (← current).pos }

/-! ## Comments -/

/-- Opens a comment block. -/
def beginComment : Action Unit :=
  change fun deck => { deck with commentary := deck.commentary.begin }

/-- Closes a comment block; with a warning if none is open. -/
def endComment : Action Unit := do
  match (← current).commentary.finish with
  | .ok commentary => change fun deck => { deck with commentary }
  | .error _ => raise .unmatchedEnd

/-- Keeps a comment, at the end of the input if `atEnd`. -/
def captureComment (text : String) (atEnd : Bool) : Action Unit :=
  change fun deck =>
    let pos := if atEnd then Position.endOfInput else deck.pos
    { deck with commentary := deck.commentary.capture text pos }

/-! ## Statements -/

/-- Does what a clause says. -/
def perform : Clause → Action Unit
  | .constant name value => defineConstant name value
  | .variable name value binding => defineVariable name value binding
  | .element name kind items => defineElement name kind items
  | .line name body => defineLine name body
  | .beginComment => beginComment
  | .endComment => endComment
  | .comment text atEnd => captureComment text atEnd
  | .pragma .. => return ()

/-- Applies a statement. While a comment block is open, only clauses about comments count. -/
def apply (statement : Statement) : Action Unit := do
  moveTo statement.pos
  unless (← current).commentary.isActive && !statement.clause.isComment do
    perform statement.clause

end Beamline.Deck
