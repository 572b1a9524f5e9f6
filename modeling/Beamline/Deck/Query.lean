import Beamline.Deck.Basic

/-!
# Queries

What can be asked about a deck. Values of variables, attributes and lengths are evaluated when
they are asked for. What is defined but not set counts as zero; what is not defined has no value.
-/

namespace Beamline.Deck

open Beamline.Expr (NodeId)

/-- The value of a constant. -/
def constantValue? (deck : Deck) (raw : String) : Option Value :=
  (deck.symbols.consts.lookup? raw).map Constant.value

/-- The value of a slot: none if there is no such slot, zero if it is not set. -/
def slotValue : Option (Option NodeId) → Action (Option Value)
  | none => return none
  | some none => return some .zero
  | some (some id) => some <$> evaluate id

/-- The value of a variable. -/
def variableValue (raw : String) : Action (Option Value) := do
  slotValue (((← current).symbols.vars.lookup? raw).map fun record => some record.expr)

/-- The value of an attribute. -/
def attributeValue (raw key : String) : Action (Option Value) := do
  slotValue (((← current).symbols.elements.lookup? raw).bind fun element => element.slot? key)

/-- The value of an entry of a transfer map. -/
def entryValue (raw : String) (index : Element.MapIndex) : Action (Option Value) := do
  let map := ((← current).symbols.elements.lookup? raw).bind fun element => element.map
  slotValue (map.map fun m => m.get? index)

/-- The length of an element. -/
def elementLength (raw : String) : Action (Option Value) := do
  slotValue (((← current).symbols.elements.lookup? raw).map Element.length?)

/-- What an entry of a line refers to now. -/
def resolve (deck : Deck) (entry : Line.Entry) : Symbols.Member :=
  deck.symbols.resolve entry.name

/-- The elements of the given kinds, in the order of their definitions. -/
def elementsOf (deck : Deck) (kinds : Element.Kinds) : List Element :=
  deck.symbols.elements.ordered.filter fun element => kinds.contains element.kind

/-- The text of a stored expression. -/
def render (deck : Deck) (id : NodeId) : Except FatalError String :=
  (deck.forest.render id).mapError .fault

end Beamline.Deck
