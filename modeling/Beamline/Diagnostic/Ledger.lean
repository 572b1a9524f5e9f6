import Beamline.Diagnostic.Basic

/-!
# The ledger of diagnostics

The ledger keeps the diagnostics that were accepted, in the order of their arrival, and counts
those accepted and refused. A fatal diagnostic is always accepted. A warning is refused if it
repeats the one kept last, or if as many warnings as the limit allows have been accepted before.
Taking out what is kept leaves the counts as they are.

* `add_of_isFatal`: a fatal diagnostic is accepted.
* `total_add`: every diagnostic added is counted once.
-/

namespace Beamline.Diagnostic

/-- Which warnings are kept. -/
structure Policy where
  /-- The most warnings that are accepted; zero for no limit. -/
  limit : Nat := 0
  /-- Whether a warning that repeats the one before on the same line is refused. -/
  deduplicate : Bool := true
  deriving DecidableEq

/-- The policy that keeps everything. -/
def Policy.keepAll : Policy where
  limit := 0
  deduplicate := false

/-- The diagnostics accepted and how many there were. -/
structure Ledger where
  /-- Which warnings are kept. -/
  policy : Policy
  /-- The diagnostics accepted since they were last taken out. -/
  kept : Array Diagnostic
  /-- How many warnings have been accepted. -/
  warnings : Nat
  /-- How many fatal diagnostics have been accepted. -/
  fatals : Nat
  /-- How many diagnostics have been refused. -/
  refused : Nat
  deriving DecidableEq

namespace Ledger

/-- A ledger without entries. -/
def ofPolicy (policy : Policy) : Ledger where
  policy := policy
  kept := #[]
  warnings := 0
  fatals := 0
  refused := 0

/-- Whether the warnings accepted have reached the limit. -/
def limitReached (l : Ledger) : Bool :=
  0 < l.policy.limit && l.policy.limit ≤ l.warnings

/-- Whether two diagnostics say the same on the same line. -/
def sameText (a b : Diagnostic) : Bool :=
  a.pos.line == b.pos.line && a.code == b.code && a.message == b.message

/-- Whether a diagnostic says the same as the one kept last. -/
def repeatsLast (l : Ledger) (d : Diagnostic) : Bool :=
  l.kept.back?.any (sameText · d)

/-- Whether a diagnostic is accepted. -/
def accepts (l : Ledger) (d : Diagnostic) : Bool :=
  d.isFatal || !(l.policy.deduplicate && l.repeatsLast d || l.limitReached)

/-- Adds a diagnostic, or counts it as refused. Returns whether it was accepted. -/
def add (d : Diagnostic) (l : Ledger) : Bool × Ledger :=
  if l.accepts d then
    (true, { l with
      kept := l.kept.push d
      warnings := if d.isFatal then l.warnings else l.warnings + 1
      fatals := if d.isFatal then l.fatals + 1 else l.fatals })
  else
    (false, { l with refused := l.refused + 1 })

/-- Takes out the diagnostics kept. -/
def flush (l : Ledger) : List Diagnostic × Ledger :=
  (l.kept.toList, { l with kept := #[] })

/-- The number of diagnostics kept. -/
def size (l : Ledger) : Nat :=
  l.kept.size

/-- Whether a fatal diagnostic has been accepted. -/
def hasFatal (l : Ledger) : Bool :=
  0 < l.fatals

/-- How many diagnostics were added. -/
def total (l : Ledger) : Nat :=
  l.warnings + l.fatals + l.refused

/-! ## Laws -/

@[simp]
theorem fst_add (d : Diagnostic) (l : Ledger) : (l.add d).1 = l.accepts d := by
  cases h : l.accepts d <;> simp [add, h]

/-- A fatal diagnostic is accepted. -/
theorem add_of_isFatal {d : Diagnostic} (h : d.isFatal = true) (l : Ledger) :
    l.add d = (true, { l with kept := l.kept.push d, fatals := l.fatals + 1 }) := by
  simp [add, accepts, h]

/-- Every diagnostic added is counted once. -/
theorem total_add (d : Diagnostic) (l : Ledger) : (l.add d).2.total = l.total + 1 := by
  cases ha : l.accepts d <;> cases hf : d.isFatal <;> simp [add, ha, hf, total] <;> omega

end Ledger

end Beamline.Diagnostic
