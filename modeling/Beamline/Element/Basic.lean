import Beamline.Source.Position
import Beamline.Element.Kinds
import Beamline.Element.TransferMap

/-!
# Elements

An element has a slot for each attribute of its kind, and a transfer map if it is a matrix. A slot
holds the expression last assigned to it; an operation that sets a slot returns the expression
that it replaces, so that whoever stores expressions can release it.

* `slot?_setSlot`: setting a slot changes no other.
* `map_eq_none_iff`: exactly the matrices have a transfer map.
-/

namespace Beamline

open Beamline.Expr (NodeId Forest)
open Source (Position)

/-- An element of the accelerator. -/
structure Element where
  /-- The name. -/
  name : Name
  /-- What the element is. -/
  kind : Element.Kind
  /-- The label given by `TYPE`, if there is one. -/
  label : Option String
  /-- Where the element was defined. -/
  pos : Position
  /-- The expressions of the attributes, in the order of the catalog. -/
  slots : Vector (Option NodeId) kind.catalog.length
  /-- The transfer map. -/
  map : Option Element.TransferMap
  /-- Exactly a matrix has a transfer map. -/
  isSome_map : map.isSome = (kind == .matrix)

namespace Element

/-- Why an item of an element definition is not accepted. -/
inductive Refusal where
  /-- The kind has no attribute with this keyword. -/
  | unknownAttribute (kind : Kind) (key : String)
  /-- The attribute cannot be written without a value. -/
  | noDefault (kind : Kind) (key : String)
  /-- The kind has no transfer map. -/
  | noMap (kind : Kind)
  deriving DecidableEq

/-- The text of a refusal. -/
def Refusal.message : Refusal → String
  | .unknownAttribute kind key => s!"{kind.keyword} has no attribute {key}"
  | .noDefault kind key => s!"attribute {key} of {kind.keyword} needs a value"
  | .noMap kind => s!"{kind.keyword} has no transfer matrix"

/-- An element with nothing set. -/
def blank (name : Name) (kind : Kind) (pos : Position) : Element where
  name := name
  kind := kind
  label := none
  pos := pos
  slots := Vector.replicate kind.catalog.length none
  map := if kind = .matrix then some TransferMap.empty else none
  isSome_map := by
    split <;> simp_all

/-! ## Attributes -/

/-- The content of the slot with the given keyword: `none` if the kind has no such slot,
`some none` if nothing is set. -/
def slot? (e : Element) (key : String) : Option (Option NodeId) :=
  (e.kind.slotIndex? key).map fun i => e.slots[i]

/-- Sets a slot. Returns the expression that it replaces. -/
def setSlot (e : Element) (i : Fin e.kind.catalog.length) (id : NodeId) : Option NodeId × Element :=
  (e.slots[i], { e with slots := e.slots.set i (some id) })

/-- The place of an attribute in the slots. -/
def slotIndex (e : Element) (key : String) : Except Refusal (Fin e.kind.catalog.length) :=
  match e.kind.slotIndex? key with
  | some i => .ok i
  | none => .error (.unknownAttribute e.kind (Text.normalize key))

/-- Sets an attribute: `KEY = id`. -/
def assign (e : Element) (key : String) (id : NodeId) : Except Refusal (Option NodeId × Element) :=
  (e.slotIndex key).map fun i => e.setSlot i id

/-- Sets an attribute written without a value to the default of the kind, stored as a number.
Nothing is stored if the attribute is refused. -/
def flag (e : Element) (key : String) (forest : Forest) :
    Except Refusal (Option NodeId × Element × Forest) := do
  let i ← e.slotIndex key
  match e.kind.flagDefault? key with
  | some value =>
    let (id, forest) := forest.alloc (.number value)
    let (previous, e) := e.setSlot i id
    return (previous, e, forest)
  | none => throw (.noDefault e.kind (Text.normalize key))

/-- Sets the label. -/
def relabel (e : Element) (label : String) : Element :=
  { e with label := some (Text.trim label) }

/-- Sets an entry of the transfer map. -/
def assignEntry (e : Element) (index : MapIndex) (id : NodeId) :
    Except Refusal (Option NodeId × Element) :=
  match hm : e.map with
  | some m =>
    .ok ((m.set index id).1, { e with
      map := some (m.set index id).2
      isSome_map := by rw [← e.isSome_map, hm]; rfl })
  | none => .error (.noMap e.kind)

/-- The expression of the length, if the kind has one and it is set. -/
def length? (e : Element) : Option NodeId :=
  if e.kind.hasLength then e.slots.toList.head?.join else none

/-- The attributes that are set, with their keywords, in the order of the catalog. -/
def attributes (e : Element) : List (String × NodeId) :=
  (e.kind.catalog.zip e.slots.toList).filterMap fun (key, slot) => slot.map (key, ·)

/-- The entries of the transfer map that are set, in the order of their places. -/
def mapEntries (e : Element) : List (MapIndex × NodeId) :=
  match e.map with
  | some m => MapIndex.all.filterMap fun index => (m.get? index).map (index, ·)
  | none => []

/-- The expressions that the element owns. -/
def owned (e : Element) : List NodeId :=
  e.slots.toList.filterMap id ++ (e.map.map TransferMap.exprs).getD []

/-- The name with the label, or with the keyword of the kind if there is no label. -/
def qualifiedName (e : Element) : String :=
  e.name.text ++ ":" ++ e.label.getD e.kind.keyword

/-! ## Laws -/

/-- Setting a slot changes that slot only. -/
theorem slot?_setSlot (e : Element) (i : Fin e.kind.catalog.length) (id : NodeId) (key : String) :
    (e.setSlot i id).2.slot? key =
      if e.kind.slotIndex? key = some i then some (some id) else e.slot? key := by
  change (e.kind.slotIndex? key).map (fun j => (e.slots.set i (some id))[j]) = _
  unfold slot?
  cases e.kind.slotIndex? key with
  | none => simp
  | some j =>
    simp only [Option.map_some, Fin.getElem_fin, Vector.getElem_set, Fin.val_inj,
      Option.some.injEq, eq_comm]
    split <;> rfl

/-- Exactly the matrices have a transfer map. -/
theorem map_eq_none_iff (e : Element) : e.map = none ↔ e.kind ≠ .matrix := by
  have := e.isSome_map
  cases hm : e.map <;> simp_all

end Element

end Beamline
