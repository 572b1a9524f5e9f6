import Mathlib.Data.ENat.Lattice
import Mathlib.Logic.Relation
import Mathlib.Order.CompletePartialOrder
import Beamline.Evaluation

/-!
# The depth of stored expressions

The depth of what lies behind a handle counts a level for every node on the longest way down. A
variable goes on into the expression that it stands for, a length into the expression of the
length. Nothing keeps the ways from running in circles: nodes may be their own operands, variables
and lengths may be defined by themselves or by each other. The depth is a natural number or `⊤`.

* `Scope.depth_eq`: one more than the depth of the deepest expression needed.
* `Scope.eq_depth`: no other measure has this property.
* `Scope.depth_eq_top`: what needs itself, directly or not, is infinitely deep.
* `Scope.lt_depth_iff`: whether the depth exceeds a number is decided by going that far down.
-/

namespace Beamline.Evaluation.Scope

open Beamline.Expr (Forest Node NodeId)

variable {scope : Scope} {id o : NodeId}

/-! ## What is needed -/

/-- The expressions whose values a node needs. -/
@[simp]
def needsOf (scope : Scope) : Node → List NodeId
  | .variable name => ((scope.symbols.vars.get? name).map Variable.expr).toList
  | .lengthOf name => ((scope.symbols.elements.get? name).bind Element.length?).toList
  | node => node.operands

/-- The expressions whose values are needed for the value behind a handle. A stale handle has no
value and needs none. -/
def needs (scope : Scope) (id : NodeId) : List NodeId :=
  match scope.forest.get? id with
  | some node => scope.needsOf node
  | none => []

/-- A way down from the handle has more than `levels` nodes. -/
def Exceeds (scope : Scope) : (levels : Nat) → NodeId → Prop
  | 0, _ => True
  | levels + 1, id => ∃ o ∈ scope.needs id, scope.Exceeds levels o

instance decidableExceeds (scope : Scope) : ∀ levels id, Decidable (scope.Exceeds levels id)
  | 0, _ => inferInstanceAs (Decidable True)
  | levels + 1, id =>
    have := scope.decidableExceeds levels
    inferInstanceAs (Decidable (∃ o ∈ scope.needs id, scope.Exceeds levels o))

/-- A way with more than a number of nodes has more than any smaller number. -/
theorem Exceeds.of_le {fewer levels : Nat} (h : scope.Exceeds levels id)
    (hle : fewer ≤ levels) : scope.Exceeds fewer id := by
  induction fewer generalizing levels id with
  | zero => trivial
  | succ fewer ih =>
    obtain ⟨levels, rfl⟩ : ∃ n, levels = n + 1 := ⟨levels - 1, by omega⟩
    obtain ⟨o, ho, hdeep⟩ := h
    exact ⟨o, ho, ih hdeep (by omega)⟩

/-! ## Depth -/

/-- The nodes on the longest way down from a handle. -/
noncomputable def depth (scope : Scope) (id : NodeId) : ℕ∞ :=
  ⨆ (levels : Nat) (_ : scope.Exceeds levels id), ((levels + 1 : Nat) : ℕ∞)

/-- Whether the depth exceeds a number is decided by going that far down. -/
theorem lt_depth_iff {levels : Nat} : levels < scope.depth id ↔ scope.Exceeds levels id := by
  constructor
  · intro hlt
    by_contra hnot
    refine absurd (iSup₂_le fun other hother => ?_) (not_le.2 hlt)
    -- a way that is longer than `other` nodes but not than `levels` leaves `other` the smaller
    have : other < levels := not_le.1 fun hle => hnot (hother.of_le hle)
    exact Nat.cast_le.2 this
  · intro hdeep
    calc (levels : ℕ∞) < ((levels + 1 : Nat) : ℕ∞) := Nat.cast_lt.2 (Nat.lt_succ_self _)
      _ ≤ scope.depth id := le_iSup₂ (f := fun n (_ : scope.Exceeds n id) => ((n + 1 : Nat) : ℕ∞))
          levels hdeep

/-- Two measures that exceed the same numbers are the same. -/
theorem eq_of_forall_lt_iff {a b : ℕ∞} (h : ∀ n : Nat, n < a ↔ n < b) : a = b := by
  refine ENat.eq_of_forall_natCast_le_iff fun n => ?_
  cases n with
  | zero => simp
  | succ n =>
    have hn : (n : ℕ∞) ≠ ⊤ := ENat.natCast_ne_top n
    rw [Nat.cast_succ, ENat.add_one_le_iff hn, ENat.add_one_le_iff hn, h]

/-- What is one more than the greatest of some measures exceeds a number if one of them exceeds
the number before. -/
theorem succ_lt_one_add_iSup_iff {measure : NodeId → ℕ∞} {ids : List NodeId} {n : Nat} :
    ((n + 1 : Nat) : ℕ∞) < 1 + ⨆ o ∈ ids, measure o ↔ ∃ o ∈ ids, (n : ℕ∞) < measure o := by
  rw [Nat.cast_succ, add_comm 1, ENat.add_lt_add_iff_right ENat.one_ne_top, lt_iSup_iff]
  simp only [lt_iSup_iff, exists_prop]

/-- A measure that is one more than that of the deepest expression needed exceeds just the numbers
that the depth exceeds. -/
theorem lt_iff_exceeds {measure : NodeId → ℕ∞}
    (h : ∀ id, measure id = 1 + ⨆ o ∈ scope.needs id, measure o) {n : Nat} :
    n < measure id ↔ scope.Exceeds n id := by
  -- by induction on the number: with every level that is gone down the number is one less
  induction n generalizing id with
  | zero =>
    refine iff_of_true ?_ trivial
    rw [h, Nat.cast_zero]
    exact lt_of_lt_of_le zero_lt_one le_self_add
  | succ n ih =>
    rw [h, succ_lt_one_add_iSup_iff]
    simp only [ih, Exceeds]

/-- The depth is one more than that of the deepest expression needed. -/
theorem depth_eq (scope : Scope) (id : NodeId) :
    scope.depth id = 1 + ⨆ o ∈ scope.needs id, scope.depth o := by
  refine eq_of_forall_lt_iff fun n => ?_
  cases n with
  | zero =>
    refine iff_of_true (lt_depth_iff.2 trivial) ?_
    rw [Nat.cast_zero]
    exact lt_of_lt_of_le zero_lt_one le_self_add
  | succ n =>
    rw [lt_depth_iff, succ_lt_one_add_iSup_iff]
    simp only [lt_depth_iff, Exceeds]

/-- No other measure is one more than that of the deepest expression needed. -/
theorem eq_depth {measure : NodeId → ℕ∞}
    (h : ∀ id, measure id = 1 + ⨆ o ∈ scope.needs id, measure o) : measure = scope.depth := by
  funext id
  refine eq_of_forall_lt_iff fun n => ?_
  rw [lt_iff_exceeds h, lt_depth_iff]

/-! ## Circles -/

/-- What is needed, directly or not, is less deep. -/
theorem depth_add_one_le (h : Relation.TransGen (fun id o => o ∈ scope.needs id) id o) :
    scope.depth o + 1 ≤ scope.depth id := by
  have hstep {id o : NodeId} (ho : o ∈ scope.needs id) : scope.depth o + 1 ≤ scope.depth id := by
    rw [scope.depth_eq id, add_comm]
    exact add_le_add_right (le_iSup₂ (f := fun o (_ : o ∈ scope.needs id) => scope.depth o) o ho) 1
  induction h with
  | single ho => exact hstep ho
  | tail _ ho ih =>
    calc scope.depth _ + 1 ≤ scope.depth _ := hstep ho
      _ ≤ scope.depth _ + 1 := le_self_add
      _ ≤ scope.depth id := ih

/-- What needs itself, directly or not, is infinitely deep. -/
theorem depth_eq_top (h : Relation.TransGen (fun id o => o ∈ scope.needs id) id id) :
    scope.depth id = ⊤ := by
  -- were the depth finite, it would be less than itself
  by_contra hne
  exact absurd ((ENat.add_one_le_iff hne).1 (depth_add_one_le h)) (lt_irrefl _)

end Beamline.Evaluation.Scope
