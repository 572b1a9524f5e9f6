import Beamline.Diagnostic.Basic

/-!
# Printing to a terminal

Each diagnostic is printed as one line with its position, followed by a line for each note. With
colours, the line of a fatal diagnostic is red, that of a warning yellow, and the word before a
note cyan. A summary says how many diagnostics there were.
-/

namespace Beamline.Diagnostic

open Source (Cursor)

/-- When colours are used. -/
inductive ColorChoice where
  /-- If the output is a terminal. -/
  | auto
  /-- In any case. -/
  | always
  /-- In no case. -/
  | never
  deriving DecidableEq

/-- Whether colours are used on an output that is a terminal or not. -/
def ColorChoice.usesColors (isTerminal : Bool) : ColorChoice → Bool
  | .auto => isTerminal
  | .always => true
  | .never => false

/-- A colour of printed text. -/
inductive Color where
  | red
  | yellow
  | cyan
  deriving DecidableEq

/-- The control sequence that switches to a bold colour. -/
def Color.code : Color → String
  | .red => "\x1b[1;31m"
  | .yellow => "\x1b[1;33m"
  | .cyan => "\x1b[1;36m"

/-- The control sequence that switches colours off. -/
def Color.reset : String :=
  "\x1b[0m"

/-- The colour of a severity. -/
def Severity.color : Severity → Color
  | .warning => .yellow
  | .fatal => .red

/-! ## Output -/

/-- What has been printed, and whether with colours. -/
structure Terminal where
  /-- Whether colours are used. -/
  colors : Bool
  /-- The text printed and not yet taken away. -/
  printed : String
  deriving DecidableEq

namespace Terminal

/-- A terminal on which nothing has been printed. -/
def ofColors (colors : Bool) : Terminal where
  colors := colors
  printed := ""

/-- The text in a colour, if colours are used. -/
def paint (colors : Bool) (color : Color) (text : String) : String :=
  if colors then color.code ++ text ++ Color.reset else text

/-- The printed form of a diagnostic. -/
def layout (colors : Bool) (cursor : Cursor) (d : Diagnostic) : String :=
  paint colors d.severity.color (d.line cursor) ++ "\n" ++
    String.join (d.notes.map fun note => "  " ++ paint colors .cyan "note" ++ ": " ++ note ++ "\n")

/-- The noun with its count. -/
def counted (count : Nat) (noun : String) : String :=
  s!"{count} {noun}" ++ if count = 1 then "" else "s"

/-- The printed form of the counts. A count of zero is not mentioned. -/
def summaryLayout (colors : Bool) (warnings fatals : Nat) : String :=
  (if fatals = 0 then "" else
    paint colors .red ("run aborted after " ++ counted fatals "fatal error") ++ "\n") ++
  (if warnings = 0 then "" else paint colors .yellow (counted warnings "warning") ++ "\n")

/-- Prints a diagnostic. -/
def emit (cursor : Cursor) (d : Diagnostic) (t : Terminal) : Terminal :=
  { t with printed := t.printed ++ layout t.colors cursor d }

/-- Prints the counts. -/
def emitSummary (warnings fatals : Nat) (t : Terminal) : Terminal :=
  { t with printed := t.printed ++ summaryLayout t.colors warnings fatals }

/-- Takes the printed text away. -/
def take (t : Terminal) : String × Terminal :=
  (t.printed, { t with printed := "" })

end Terminal

end Beamline.Diagnostic
