import Beamline.Expr.Forest

/-!
# Transfer maps

A transfer map has a first-order table of 6 by 6 entries `RM(i,j)` and a second-order table of 6
by 6 by 6 entries `TM(i,j,k)`, each holding an expression or nothing. In the input the indices are
numbers from 1 to 6. They are read with a tolerance: a millionth is added and the fraction dropped.

* `get?_set`: setting an entry changes no other.
-/

namespace Beamline.Element

open Beamline.Expr (NodeId)

/-- An index into a transfer map, counted from zero. -/
inductive MapIndex where
  /-- An entry of the first-order table. -/
  | rm (i j : Fin 6)
  /-- An entry of the second-order table. -/
  | tm (i j k : Fin 6)
  deriving DecidableEq

namespace MapIndex

/-- The index that a number from 1 to 6 stands for, counted from zero. A millionth is added and the
fraction dropped, by which all that is below one, or no number at all, becomes zero. -/
def fold? (raw : Float) : Option (Fin 6) :=
  let index := (raw + 1.0e-6).toUInt64.toNat
  if h : 1 ≤ index ∧ index ≤ 6 then some ⟨index - 1, by omega⟩ else none

/-- The first-order index with the given raw numbers. -/
def rm? (i j : Float) : Option MapIndex := do
  return .rm (← fold? i) (← fold? j)

/-- The second-order index with the given raw numbers. -/
def tm? (i j k : Float) : Option MapIndex := do
  return .tm (← fold? i) (← fold? j) (← fold? k)

/-- The text of an index, counted from one. -/
def render : MapIndex → String
  | .rm i j => s!"RM({i.val + 1},{j.val + 1})"
  | .tm i j k => s!"TM({i.val + 1},{j.val + 1},{k.val + 1})"

/-- The place of an entry: the first-order table row by row, then the second-order table. -/
def offset : MapIndex → Fin 252
  | .rm i j => ⟨6 * i.val + j.val, by omega⟩
  | .tm i j k => ⟨36 + (36 * i.val + 6 * j.val + k.val), by omega⟩

theorem offset_inj {a b : MapIndex} : a.offset = b.offset ↔ a = b := by
  refine ⟨fun h => ?_, congrArg offset⟩
  replace h := Fin.val_eq_of_eq h
  cases a <;> cases b <;> simp only [offset, rm.injEq, tm.injEq, Fin.ext_iff] at h ⊢ <;> omega

/-- All indices in the order of their places. -/
def all : List MapIndex :=
  let axis := List.finRange 6
  (axis.flatMap fun i => axis.map fun j => .rm i j) ++
    axis.flatMap fun i => axis.flatMap fun j => axis.map fun k => .tm i j k

end MapIndex

/-- The expressions of a transfer map, in the order of their places. -/
structure TransferMap where
  /-- The entries; `none` where nothing is set. -/
  entries : Vector (Option NodeId) 252
  deriving DecidableEq

namespace TransferMap

/-- The map with no entry set. -/
def empty : TransferMap :=
  ⟨Vector.replicate 252 none⟩

/-- The expression of an entry, if it is set. -/
def get? (m : TransferMap) (index : MapIndex) : Option NodeId :=
  m.entries[index.offset]

/-- Sets an entry. Returns the expression that it replaces. -/
def set (index : MapIndex) (id : NodeId) (m : TransferMap) : Option NodeId × TransferMap :=
  (m.get? index, ⟨m.entries.set index.offset (some id)⟩)

/-- The expressions of all entries set, in the order of their places. -/
def exprs (m : TransferMap) : List NodeId :=
  m.entries.toList.filterMap id

theorem get?_empty (index : MapIndex) : empty.get? index = none := by
  simp [empty, get?]

@[simp]
theorem exprs_empty : empty.exprs = [] := by
  rw [exprs, empty, Vector.toList_replicate, List.filterMap_replicate_of_none rfl]

/-- Setting an entry changes that entry only. -/
theorem get?_set (index : MapIndex) (id : NodeId) (m : TransferMap) (other : MapIndex) :
    (m.set index id).2.get? other = if other = index then some id else m.get? other := by
  simp only [set, get?, Fin.getElem_fin, Vector.getElem_set, Fin.val_inj, MapIndex.offset_inj]
  simp [eq_comm]

end TransferMap

end Beamline.Element
