import Beamline.Decimal.Numeral

/-!
# Scanning for a numeral

A scan finds the end of the longest numeral at the start of a text. It goes over the bytes of the
text from offset to offset: behind the sign, the digits, the point with its digits, and the exponent
if that is complete. The numeral is then cut out of the text and read.

Texts are stored in UTF-8, and slices of them are taken at offsets that count bytes. A slice exists
only if its offset lies within the text, and a slice of the text itself only if the offset does not
lie inside a character.
-/

namespace Beamline

/-! ## Bytes -/

namespace Text

/-- The bytes of `cs` in UTF-8. -/
def bytes (cs : List Char) : List UInt8 :=
  cs.flatMap String.utf8EncodeChar

/-- Why a slice does not exist. -/
inductive SliceFault where
  /-- The offset lies beyond the end. -/
  | beyondEnd
  /-- The offset lies inside a character. -/
  | insideCharacter
  deriving DecidableEq

/-- The bytes from an offset on. -/
def bytesFrom (bs : List UInt8) (offset : Nat) : Except SliceFault (List UInt8) :=
  if offset ≤ bs.length then .ok (bs.drop offset) else .error .beyondEnd

/-- The characters up to an offset in their bytes. -/
def charsUpTo : (offset : Nat) → List Char → Except SliceFault (List Char)
  | 0, _ => .ok []
  | _ + 1, [] => .error .beyondEnd
  | offset + 1, c :: cs =>
    if c.utf8Size ≤ offset + 1 then
      (c :: ·) <$> charsUpTo (offset + 1 - c.utf8Size) cs
    else
      .error .insideCharacter

end Text

/-! ## Scanning -/

namespace Decimal

open Text (SliceFault bytesFrom)

/-- The byte of a digit. -/
def isDigitByte (b : UInt8) : Bool :=
  '0'.toUInt8 ≤ b && b ≤ '9'.toUInt8

/-- The byte of a sign. -/
def isSignByte (b : UInt8) : Bool :=
  b = '+'.toUInt8 || b = '-'.toUInt8

/-- The byte of the letter before an exponent. -/
def isExponentByte (b : UInt8) : Bool :=
  b = 'e'.toUInt8 || b = 'E'.toUInt8

/-- The number of digits at the start. -/
def countDigits (bs : List UInt8) : Nat :=
  (bs.takeWhile isDigitByte).length

/-- The offset behind the sign, if one stands there. -/
def skipSign (bs : List UInt8) (offset : Nat) : Nat :=
  if bs[offset]?.any isSignByte then offset + 1 else offset

/-- The number of digits after the point, if one stands there, and the offset behind them. -/
def scanFraction (bs : List UInt8) (offset : Nat) : Except SliceFault (Nat × Nat) := do
  if bs[offset]? = some '.'.toUInt8 then
    let count := countDigits (← bytesFrom bs (offset + 1))
    return (count, offset + 1 + count)
  else
    return (0, offset)

/-- The offset behind the exponent, if a complete one stands there. -/
def scanExponent (bs : List UInt8) (offset : Nat) : Except SliceFault Nat := do
  if bs[offset]?.any isExponentByte then
    let start := skipSign bs (offset + 1)
    let count := countDigits (← bytesFrom bs (min start bs.length))
    return if 0 < count then start + count else offset
  else
    return offset

/-- The offset behind the longest numeral at the start, if there is one. -/
def scanNumeral (bs : List UInt8) : Except SliceFault (Option Nat) := do
  let start := skipSign bs 0
  let whole := countDigits (← bytesFrom bs start)
  let (fraction, stop) ← scanFraction bs (start + whole)
  if whole + fraction = 0 then
    return none
  else
    return some (← scanExponent bs stop)

/-- The double that a text stands for which is a numeral as a whole. -/
def Numeral.parse? (cs : List Char) : Option Float :=
  match read? cs with
  | some n => if n.written = cs then some n.toFloat else none
  | none => none

end Decimal

end Beamline
