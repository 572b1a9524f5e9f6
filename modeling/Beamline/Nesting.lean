/-!
# Bounded nesting

A nesting counts how many levels have been entered and not left, against a fixed limit. A limit
of zero is no limit.

* `leave_enter`: a level that is left brings the count back.
* `descend_snd`: a descent comes back to where it started.
-/

namespace Beamline

/-- A count of levels and the limit that it may reach. -/
structure Nesting where
  /-- The levels entered and not left. -/
  depth : Nat
  /-- The greatest depth; zero for no limit. -/
  limit : Nat
  deriving DecidableEq

namespace Nesting

/-- The refusal to go deeper than `limit`. -/
structure Exceeded where
  /-- The limit that stands in the way. -/
  limit : Nat
  deriving DecidableEq

/-- The text of the refusal. -/
def Exceeded.message (e : Exceeded) : String :=
  s!"recursion depth limit of {e.limit} exceeded"

/-- A nesting at depth zero. -/
def ofLimit (limit : Nat) : Nesting where
  depth := 0
  limit := limit

/-- Whether no further level may be entered. -/
def isFull (n : Nesting) : Bool :=
  0 < n.limit && n.limit ≤ n.depth

/-- Enters a level, unless the limit is reached. -/
def enter (n : Nesting) : Except Exceeded Nesting :=
  if n.isFull then .error { limit := n.limit } else .ok { n with depth := n.depth + 1 }

/-- Leaves a level. -/
def leave (n : Nesting) : Nesting :=
  { n with depth := n.depth - 1 }

theorem leave_enter {n m : Nesting} (h : n.enter = .ok m) : m.leave = n := by
  unfold enter at h
  split at h
  · cases h
  · cases h
    rfl

/-- Enters `levels` levels one inside the other and leaves all that were entered. Returns how
many they were, or the refusal met on the way. -/
def descend (n : Nesting) : Nat → Except Exceeded Nat × Nesting
  | 0 => (.ok 0, n)
  | levels + 1 =>
    match n.enter with
    | .error e => (.error e, n)
    | .ok inner =>
      let (outcome, inner) := inner.descend levels
      (outcome.map (· + 1), inner.leave)

/-- A descent comes back to where it started, also when it is refused. -/
theorem descend_snd (levels : Nat) (n : Nesting) : (n.descend levels).2 = n := by
  induction levels generalizing n with
  | zero => rfl
  | succ levels ih =>
    unfold descend
    split
    · rfl
    · rename_i inner h
      simp [ih, leave_enter h]

end Nesting

end Beamline
