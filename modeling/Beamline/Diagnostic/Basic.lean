import Beamline.Diagnostic.Code
import Beamline.Source.Cursor

/-!
# Diagnostics

A diagnostic is what is told about a condition: a message, where it was met, and notes. A warning
names a neutral value that is used instead, or an item that is left out, and the run goes on; a
fatal diagnostic ends it.
-/

namespace Beamline

open Source (Position Cursor)

namespace Diagnostic

/-- Whether the run goes on after a condition. -/
inductive Severity where
  | warning
  | fatal
  deriving DecidableEq

/-- The text of a severity. -/
def Severity.text : Severity → String
  | .warning => "warning"
  | .fatal => "fatal error"

end Diagnostic

/-- What is told about a condition. -/
structure Diagnostic where
  /-- The code of the condition. -/
  code : Diagnostic.Code
  /-- Whether the run goes on. -/
  severity : Diagnostic.Severity
  /-- What is the matter. -/
  message : String
  /-- Where the condition was met. -/
  pos : Position
  /-- What else is useful to know. -/
  notes : List String
  deriving DecidableEq

namespace Diagnostic

/-- Whether the diagnostic is a warning. -/
def isWarning (d : Diagnostic) : Bool :=
  d.severity == .warning

/-- Whether the diagnostic is fatal. -/
def isFatal (d : Diagnostic) : Bool :=
  d.severity == .fatal

/-- The diagnostic with its severity and code, without its position. -/
def summary (d : Diagnostic) : String :=
  s!"{d.severity.text} [{d.code.text}]: {d.message}"

/-- The text of a position: the path and the local line if the file has a name, otherwise the
global line. -/
def place (cursor : Cursor) (pos : Position) : String :=
  if pos.isEndOfInput then
    "End of input"
  else
    match pos.file.bind cursor.path? with
    | some path => s!"{path}:{pos.localLine}"
    | none => s!"Line {pos.line}"

/-- The message with its position, as one line. -/
def line (d : Diagnostic) (cursor : Cursor) : String :=
  s!"{place cursor d.pos}: {d.message}"

end Diagnostic

end Beamline
