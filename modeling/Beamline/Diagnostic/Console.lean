import Beamline.Diagnostic.Ledger
import Beamline.Diagnostic.Terminal

/-!
# The console

The console is where diagnostics go. It knows which files are being read, keeps the ledger, and
prints each diagnostic that the ledger accepts, if a terminal is attached.
-/

namespace Beamline.Diagnostic

open Source (Cursor)

/-- The reading cursor, the ledger and the terminal. -/
structure Console where
  /-- Where the input is being read. -/
  cursor : Cursor
  /-- The diagnostics reported. -/
  ledger : Ledger
  /-- The terminal, if one is attached. -/
  terminal : Option Terminal
  deriving DecidableEq

namespace Console

/-- A console before the first line, without a terminal. -/
def ofPolicy (policy : Policy) : Console where
  cursor := Cursor.start
  ledger := Ledger.ofPolicy policy
  terminal := none

/-- The terminal after it was handed the diagnostic that the ledger has kept last. -/
def printLast (c : Console) : Option Terminal :=
  match c.terminal, c.ledger.kept.back? with
  | some terminal, some last => some (terminal.emit c.cursor last)
  | terminal, _ => terminal

/-- Adds a diagnostic to the ledger. If it is accepted, what the ledger has now kept last is
printed. Returns whether it was. -/
def report (d : Diagnostic) (c : Console) : Bool × Console :=
  let (accepted, ledger) := c.ledger.add d
  let c := { c with ledger }
  (accepted, { c with terminal := if accepted then c.printLast else c.terminal })

/-- Reports diagnostics in order. -/
def reportAll (ds : List Diagnostic) (c : Console) : Console :=
  ds.foldl (fun c d => (c.report d).2) c

/-- Prints the counts of the ledger. -/
def finish (c : Console) : Console :=
  { c with terminal := c.terminal.map (·.emitSummary c.ledger.warnings c.ledger.fatals) }

@[simp]
theorem cursor_report (d : Diagnostic) (c : Console) : (c.report d).2.cursor = c.cursor :=
  rfl

@[simp]
theorem ledger_report (d : Diagnostic) (c : Console) :
    (c.report d).2.ledger = (c.ledger.add d).2 :=
  rfl

/-- What is accepted is kept last, so that it is what is printed. -/
theorem report_of_accepts {d : Diagnostic} {c : Console} (h : c.ledger.accepts d = true) :
    c.report d = (true, { c with
      ledger := (c.ledger.add d).2
      terminal := c.terminal.map (·.emit c.cursor d) }) := by
  cases ht : c.terminal <;> simp [report, printLast, Ledger.add, h, ht]

theorem reportAll_append (ds es : List Diagnostic) (c : Console) :
    c.reportAll (ds ++ es) = (c.reportAll ds).reportAll es := by
  simp [reportAll]

theorem reportAll_push (ds : Array Diagnostic) (d : Diagnostic) (c : Console) :
    c.reportAll (ds.push d).toList = ((c.reportAll ds.toList).report d).2 := by
  simp [reportAll]

end Console

end Beamline.Diagnostic
