import Beamline.Deck.Definition
import Beamline.Interpreter.Basic

/-!
# Definitions of an interpreter

How the statements of a deck define its symbols while the console is told of what there is to warn
about: a name that is taken, a definition that takes the place of another, an item of an element
that is left out. Nothing that follows such a report looks at what the console made of it.
-/

namespace Beamline.Interpreter

open Diagnostic (Condition)
open Beamline.Expr (Formula NodeId)
open Element (MapIndex)

/-! ## Constants and variables -/

/-- Enters a constant. The formula is evaluated once and may name constants only. -/
def enterConstant (raw : String) (formula : Formula) : Action Unit := do
  let name := Name.ofText raw
  if (← current).symbols.vars.contains name then
    warn (.constantIsVariable name)
  else
    let source ← runLowerer true formula
    let value ← runEvaluator source
    let deck ← current
    if deck.symbols.consts.contains name then
      warn (.constantRedefined name)
    discard <| onDeck (Deck.insertConstant { name, value, source, pos := deck.pos })

/-- Enters a variable. With an immediate binding the formula is evaluated and its value stored. -/
def enterVariable (raw : String) (formula : Formula) (binding : Binding) : Action Unit := do
  let name := Name.ofText raw
  if (← current).symbols.consts.contains name then
    warn (.variableIsConstant name)
  else
    let lowered ← runLowerer false formula
    let expr ← match binding with
      | .deferred => pure lowered
      | .immediate => do
        let value ← runEvaluator lowered
        onDeck (Deck.release lowered)
        onDeck (Deck.alloc (.ofValue value))
    discard <| onDeck (Deck.insertVariable { name, expr, pos := (← current).pos })

/-! ## Elements -/

/-- Releases what an item of an element has replaced, or the expression itself if the item is
refused, with a warning. -/
def settle (element : Element) (id : NodeId)
    (outcome : Except Element.Refusal (Option NodeId × Element)) : Action Element := do
  match outcome with
  | .ok (previous, changed) =>
    onDeck (Deck.releaseReplaced previous)
    return changed
  | .error refusal =>
    onDeck (Deck.release id)
    warn (refusal.condition element.name)
    return element

/-- Sets an attribute of an element, or its label if the keyword is `TYPE` and the value can be
one. An attribute that the kind does not have is left out, with a warning. -/
def assignItem (element : Element) (key : String) (value : Formula) : Action Element := do
  match if Text.normalize key = "TYPE" then Deck.labelOf? value else none with
  | some label => return element.relabel label
  | none =>
    if (element.kind.slotIndex? key).isSome then
      let id ← runLowerer false value
      settle element id (element.assign key id)
    else
      warn (.unknownAttribute element.kind (Text.normalize key))
      return element

/-- Sets an attribute of an element to the default of its kind. -/
def flagItem (element : Element) (key : String) : Action Element := do
  match element.flag key (← current).forest with
  | .ok (previous, changed, forest) =>
    onDeck (Deck.change fun deck => { deck with forest })
    onDeck (Deck.releaseReplaced previous)
    return changed
  | .error refusal =>
    warn (refusal.condition element.name)
    return element

/-- Sets an entry of the transfer map of an element. `written` is the index as written. -/
def entryItem (element : Element) (index : Option MapIndex) (written : String)
    (value : Formula) : Action Element := do
  if element.kind ≠ .matrix then
    warn ((Element.Refusal.noMap element.kind).condition element.name)
    return element
  else
    match index with
    | none =>
      warn (.indexOutOfRange written)
      return element
    | some index =>
      let id ← runLowerer false value
      settle element id (element.assignEntry index id)

/-- Enters one item of a definition into the element. -/
def enterItem (element : Element) : Element.Item → Action Element
  | .assign key value => assignItem element key value
  | .flag key => flagItem element key
  | .label text => return element.relabel text
  | .rm i j value => entryItem element (MapIndex.rm? i j) (Deck.writtenIndex [i, j]) value
  | .tm i j k value =>
    entryItem element (MapIndex.tm? i j k) (Deck.writtenIndex [i, j, k]) value

/-- Enters an element. One of the same name is removed before the items are entered. -/
def enterElement (raw : String) (kind : Element.Kind) (items : List Element.Item) :
    Action Unit := do
  let name := Name.ofText raw
  if ← onDeck (Deck.removeElement name) then
    warn (.elementRedefined name)
  let element ← items.foldlM enterItem (Element.blank name kind (← current).pos)
  discard <| onDeck (Deck.insertElement element)

/-! ## Lines -/

/-- Enters a line. The body is laid out before a line of the same name is removed, so that a line
can extend itself. -/
def enterLine (raw : String) (body : Line.Body) : Action Unit := do
  let name := Name.ofText raw
  let entries ← flatten body
  if ← onDeck (Deck.removeLine name) then
    warn (.lineRedefined name)
  discard <| onDeck (Deck.insertLine { name, entries, pos := (← current).pos })

/-! ## Comments -/

/-- Opens a comment block. -/
def beginComment : Action Unit :=
  onDeck Deck.beginComment

/-- Closes a comment block; with a warning if none is open. -/
def endComment : Action Unit := do
  match (← current).commentary.finish with
  | .ok commentary => onDeck (Deck.change fun deck => { deck with commentary })
  | .error _ => warn .unmatchedEnd

/-- Keeps a comment. -/
def captureComment (text : String) (atEnd : Bool) : Action Unit :=
  onDeck (Deck.captureComment text atEnd)

/-! ## Statements -/

/-- Does what a clause says. -/
def enter : Clause → Action Unit
  | .constant name value => enterConstant name value
  | .variable name value binding => enterVariable name value binding
  | .element name kind items => enterElement name kind items
  | .line name body => enterLine name body
  | .beginComment => beginComment
  | .endComment => endComment
  | .comment text atEnd => captureComment text atEnd
  | .pragma .. => return ()

end Beamline.Interpreter
