/-!
# Source positions

A position holds two line numbers: the global one counts the lines of all files in the order in
which they are read and orders definitions; the local one counts within the file and appears in
messages. Line numbers are 32-bit words; the last of them stands for the end of the input.
-/

namespace Beamline.Source

/-- A file, by its place in the order in which files were opened. -/
abbrev FileId := Nat

/-- The greatest line number. It is reserved for what is read after the last line. -/
def lastLine : Nat :=
  UInt32.size - 1

/-- The line after `line`; the greatest line number stays. -/
def nextLine (line : Nat) : Nat :=
  min (line + 1) lastLine

/-- A place in the input. -/
structure Position where
  /-- The file; `none` for a buffer without a name. -/
  file : Option FileId
  /-- The line, counted over all files. -/
  line : Nat
  /-- The line within the file. -/
  localLine : Nat
  deriving DecidableEq

namespace Position

/-- The position of what has not been read from anywhere. -/
def unread : Position where
  file := none
  line := 0
  localLine := 0

/-- Line `line` of a buffer without a name. -/
def inBuffer (line : Nat) : Position where
  file := none
  line := line
  localLine := line

/-- The position of text read after the last line. -/
def endOfInput : Position :=
  inBuffer lastLine

/-- Whether the position lies after the last line. -/
def isEndOfInput (pos : Position) : Bool :=
  pos.line == lastLine

end Position

end Beamline.Source
