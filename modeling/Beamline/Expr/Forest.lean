import Beamline.Pool.Lemmas
import Beamline.Expr.Term

/-!
# The forest of stored expressions

The expressions of a deck are stored node by node in one pool, each node referring to its
operands by handle. Every node belongs to one tree only, and every tree to one owner: a record of
the deck or the caller who asked for it. The owner releases a tree as a whole.

A handle that is stale, and a way through the nodes that never ends, are faults; neither occurs
while owners keep to their own trees.

* `Forest.alloc` and `Forest.release` add a node and take a tree away.
* `Forest.read` gives the term that a handle stands for, `Forest.render` its text.
-/

namespace Beamline.Expr

/-- A reference to a stored node. -/
abbrev NodeId := Handle

/-- A stored node. Its operands are references to other nodes. -/
inductive Node where
  /-- A number. -/
  | number (x : Float)
  /-- A text in quotes. -/
  | text (content : String)
  /-- An identifier that named a number constant. -/
  | numberConstant (name : Name)
  /-- An identifier that named a text constant. -/
  | textConstant (name : Name)
  /-- An identifier that named no constant. -/
  | variable (name : Name)
  /-- The length of an element. -/
  | lengthOf (name : Name)
  /-- A node in parentheses. -/
  | parens (inner : NodeId)
  /-- A sign before an operand. -/
  | signed (sign : Sign) (operand : NodeId)
  /-- An operator between two operands. -/
  | binary (op : Operator) (left right : NodeId)
  /-- A function call. -/
  | call (f : Function) (argument : NodeId)

namespace Node

/-- The operands of a node, left to right. -/
def operands : Node → List NodeId
  | .number _ | .text _ | .numberConstant _ | .textConstant _ | .variable _ | .lengthOf _ => []
  | .parens inner => [inner]
  | .signed _ operand => [operand]
  | .binary _ left right => [left, right]
  | .call _ argument => [argument]

/-- The name that a node refers to, if it is an identifier or a length. -/
def name? : Node → Option Name
  | .numberConstant name | .textConstant name | .variable name | .lengthOf name => some name
  | .number _ | .text _ | .parens _ | .signed .. | .binary .. | .call .. => none

/-- The node that stores a value. -/
def ofValue : Value → Node
  | .number x => .number x
  | .text content => .text content

end Node

/-! ## Faults -/

/-- What is wrong with a handle. -/
inductive Fault where
  /-- No node lies behind the handle. -/
  | stale (handle : Handle)
  /-- The nodes reached from the handle never come to an end. -/
  | endless (handle : Handle)
  deriving DecidableEq

namespace Fault

/-- The handle at fault. -/
def handle : Fault → Handle
  | .stale h => h
  | .endless h => h

/-- The text of a fault. -/
def message : Fault → String
  | .stale h => s!"stale arena handle {h.label} (already released or never allocated)"
  | .endless h => s!"endless expression at handle {h.label}"

end Fault

/-! ## Storing and releasing -/

/-- The stored nodes. -/
abbrev Forest := Pool Node

namespace Forest

/-- The node behind a handle. -/
def node (forest : Forest) (id : NodeId) : Except Fault Node :=
  match forest.get? id with
  | some node => .ok node
  | none => .error (.stale id)

/-- Stores a node. -/
def alloc (node : Node) (forest : Forest) : NodeId × Forest :=
  forest.insert node

/-- Releases the pending nodes and all below them, the one to the right before the one to its
left. Returns how many were released. Those released before a stale handle is met stay
released. -/
def releaseAll (pending : List NodeId) (forest : Forest) : Except Fault Nat × Forest :=
  match pending with
  | [] => (.ok 0, forest)
  | id :: rest =>
    match _hget : forest.get? id with
    | none => (.error (.stale id), forest)
    | some node =>
      let (outcome, left) := releaseAll (node.operands.reverse ++ rest) (forest.erase id)
      (outcome.map (· + 1), left)
termination_by forest.size
decreasing_by
  have := Pool.size_erase_of_get? ‹_›
  omega

/-- Releases a tree. Returns the number of its nodes. -/
def release (id : NodeId) (forest : Forest) : Except Fault Nat × Forest :=
  forest.releaseAll [id]

/-- Releases trees one after the other, up to the first fault. -/
def releaseEach : List NodeId → Forest → Except Fault Unit × Forest
  | [], forest => (.ok (), forest)
  | root :: roots, forest =>
    match forest.release root with
    | (.ok _, forest) => releaseEach roots forest
    | (.error fault, forest) => (.error fault, forest)

/-! ## Reading -/

/-- The term behind a handle, if it is at most `levels` deep. -/
def readWithin (forest : Forest) : (levels : Nat) → NodeId → Except Fault Term
  | 0, id => .error (.endless id)
  | levels + 1, id => do
    match ← forest.node id with
    | .number x => return .number x
    | .text content => return .text content
    | .numberConstant name => return .numberConstant name
    | .textConstant name => return .textConstant name
    | .variable name => return .variable name
    | .lengthOf name => return .lengthOf name
    | .parens inner => return .parens (← readWithin forest levels inner)
    | .signed sign operand => return .signed sign (← readWithin forest levels operand)
    | .binary op left right =>
      let left ← readWithin forest levels left
      let right ← readWithin forest levels right
      return .binary op left right
    | .call f argument => return .call f (← readWithin forest levels argument)

/-- The term behind a handle. No tree is deeper than it has nodes, and the level below the
deepest node is there to find a stale handle. -/
def read (forest : Forest) (id : NodeId) : Except Fault Term :=
  forest.readWithin (forest.size + 1) id

/-- The text of the expression behind a handle. -/
def render (forest : Forest) (id : NodeId) : Except Fault String :=
  Term.render <$> forest.read id

end Forest

end Beamline.Expr
