import Mathlib.Algebra.GroupWithZero.Nat
import Beamline.Expr.Forest

/-!
# Trees

A tree is a term together with the handle of each of its nodes: the picture of an expression as it
lies in a forest. Its cells are what the forest must hold for the tree to stand there.

* `Tree.cells_eq`: the cells of a tree are that of its root and those of its operands.
* `Tree.length_cells`: a tree has as many cells as its term has nodes.
* `Tree.induction_on_operands`: what passes from the operands to a tree holds of all trees.
-/

namespace Beamline.Expr

/-- A term with the handles of its nodes. -/
inductive Tree where
  /-- A number. -/
  | number (id : NodeId) (x : Float)
  /-- A text in quotes. -/
  | text (id : NodeId) (content : String)
  /-- An identifier that named a number constant. -/
  | numberConstant (id : NodeId) (name : Name)
  /-- An identifier that named a text constant. -/
  | textConstant (id : NodeId) (name : Name)
  /-- An identifier that named no constant. -/
  | variable (id : NodeId) (name : Name)
  /-- The length of an element. -/
  | lengthOf (id : NodeId) (name : Name)
  /-- A tree in parentheses. -/
  | parens (id : NodeId) (inner : Tree)
  /-- A sign before an operand. -/
  | signed (id : NodeId) (sign : Sign) (operand : Tree)
  /-- An operator between two operands. -/
  | binary (id : NodeId) (op : Operator) (left right : Tree)
  /-- A function call. -/
  | call (id : NodeId) (f : Function) (argument : Tree)

namespace Tree

/-- The handle of the whole tree. -/
def root : Tree → NodeId
  | .number id _ | .text id _ | .numberConstant id _ | .textConstant id _ | .variable id _
  | .lengthOf id _ | .parens id _ | .signed id _ _ | .binary id _ _ _ | .call id _ _ => id

/-- The tree without its handles. -/
def term : Tree → Term
  | .number _ x => .number x
  | .text _ content => .text content
  | .numberConstant _ name => .numberConstant name
  | .textConstant _ name => .textConstant name
  | .variable _ name => .variable name
  | .lengthOf _ name => .lengthOf name
  | .parens _ inner => .parens inner.term
  | .signed _ sign operand => .signed sign operand.term
  | .binary _ op left right => .binary op left.term right.term
  | .call _ f argument => .call f argument.term

/-- The node at the root. -/
def node : Tree → Node
  | .number _ x => .number x
  | .text _ content => .text content
  | .numberConstant _ name => .numberConstant name
  | .textConstant _ name => .textConstant name
  | .variable _ name => .variable name
  | .lengthOf _ name => .lengthOf name
  | .parens _ inner => .parens inner.root
  | .signed _ sign operand => .signed sign operand.root
  | .binary _ op left right => .binary op left.root right.root
  | .call _ f argument => .call f argument.root

/-- The trees right below the root, left to right. -/
def operands : Tree → List Tree
  | .number .. | .text .. | .numberConstant .. | .textConstant .. | .variable .. | .lengthOf .. =>
    []
  | .parens _ inner => [inner]
  | .signed _ _ operand => [operand]
  | .binary _ _ left right => [left, right]
  | .call _ _ argument => [argument]

/-- The nodes of the tree with their handles, each before those below it. -/
def cells (t : Tree) : List (NodeId × Node) :=
  match t with
  | .number .. | .text .. | .numberConstant .. | .textConstant .. | .variable .. | .lengthOf .. =>
    [(t.root, t.node)]
  | .parens _ inner => (t.root, t.node) :: inner.cells
  | .signed _ _ operand => (t.root, t.node) :: operand.cells
  | .binary _ _ left right => (t.root, t.node) :: (left.cells ++ right.cells)
  | .call _ _ argument => (t.root, t.node) :: argument.cells

/-- The handles of all nodes. -/
def ids (t : Tree) : List NodeId :=
  t.cells.map Prod.fst

/-- The number of nodes. -/
def size (t : Tree) : Nat :=
  t.cells.length

/-- The cells of a tree are that of its root and those of its operands. -/
theorem cells_eq (t : Tree) : t.cells = (t.root, t.node) :: t.operands.flatMap cells := by
  cases t <;> simp [cells, operands]

/-- The node at the root refers to the roots of the operands. -/
@[simp]
theorem operands_node (t : Tree) : t.node.operands = t.operands.map root := by
  cases t <;> rfl

/-- What passes from the operands to a tree holds of all trees. -/
theorem induction_on_operands {motive : Tree → Prop}
    (h : ∀ t : Tree, (∀ o ∈ t.operands, motive o) → motive t) (t : Tree) : motive t := by
  induction t with
  | number | text | numberConstant | textConstant | «variable» | lengthOf =>
    exact h _ (by simp [operands])
  | parens _ _ ih | signed _ _ _ ih | call _ _ _ ih => exact h _ (by simpa [operands] using ih)
  | binary _ _ _ _ ihl ihr => exact h _ (by simpa [operands] using ⟨ihl, ihr⟩)

/-- A tree has as many cells as its term has nodes. -/
theorem length_cells (t : Tree) : t.cells.length = t.term.size := by
  induction t with
  | number | text | numberConstant | textConstant | «variable» | lengthOf => rfl
  | parens _ _ ih | signed _ _ _ ih | call _ _ _ ih =>
    rw [cells, List.length_cons, ih, term, Term.size]
  | binary _ _ _ _ ihl ihr =>
    rw [cells, List.length_cons, List.length_append, ihl, ihr, term, Term.size]

@[simp]
theorem size_term (t : Tree) : t.term.size = t.size :=
  t.length_cells.symm

theorem size_eq (t : Tree) : t.size = (t.operands.map size).sum + 1 := by
  rw [size, cells_eq, List.length_cons, List.length_flatMap]
  rfl

/-- The handles of some trees, when the first is taken apart into its root and its operands. -/
theorem flatMap_ids_cons (t : Tree) (ts : List Tree) :
    (t :: ts).flatMap ids = t.root :: (t.operands ++ ts).flatMap ids := by
  rw [List.flatMap_cons, List.flatMap_append, ids, cells_eq, List.map_cons, List.map_flatMap,
    List.cons_append]
  rfl

/-- The number of nodes of some trees, when the first is taken apart. -/
theorem sum_size_cons (t : Tree) (ts : List Tree) :
    ((t :: ts).map size).sum = ((t.operands ++ ts).map size).sum + 1 := by
  rw [List.map_cons, List.sum_cons, t.size_eq, List.map_append, List.sum_append_nat]
  omega

theorem size_lt_of_mem_operands {t o : Tree} (ho : o ∈ t.operands) : o.size < t.size := by
  -- the size of `o` is one of the numbers that are summed
  obtain ⟨before, behind, heq⟩ := List.append_of_mem ho
  rw [t.size_eq, heq, List.map_append, List.sum_append_nat, List.map_cons, List.sum_cons]
  omega

end Tree

end Beamline.Expr
