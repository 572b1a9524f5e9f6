import Beamline.Decimal.Shortest

/-!
# Positional number text

Numbers are written with the fewest digits that identify them, always positionally: no exponent
is written, an integer has no point, and zeros fill the places up to the point. Zero keeps its
sign. What is no finite number is written `NaN`, `inf` or `-inf`.
-/

namespace Beamline.Decimal

/-- `digits` without the zeros at the end. -/
def dropZerosEnd (digits : List Char) : List Char :=
  (digits.reverse.dropWhile (· = '0')).reverse

/-- The positional text of `d`. With a negative exponent the digits are padded at the front so
that at least one stands before the point. -/
def Expansion.positional (d : Expansion) : List Char :=
  let digits := Nat.toDigits 10 d.digits
  let places := (-d.exponent).toNat
  let padded := List.replicate (places + 1 - digits.length) '0' ++
    (digits ++ List.replicate d.exponent.toNat '0')
  let whole := padded.length - places
  match dropZerosEnd (padded.drop whole) with
  | [] => padded.take whole
  | fraction => padded.take whole ++ '.' :: fraction

/-- The text of the double with the given bits. -/
def textOfBits (bits : UInt64) : String :=
  let sign := if bits.toNat < signBit then "" else "-"
  let magnitude := bits.toNat % signBit
  if lastField * hiddenBit < magnitude then
    "NaN"
  else if magnitude = lastField * hiddenBit then
    sign ++ "inf"
  else if magnitude = 0 then
    sign ++ "0"
  else
    sign ++ String.ofList (Magnitude.ofBits bits).shortest.positional

/-- The text of a number. -/
def text (x : Float) : String :=
  textOfBits x.toBits

end Beamline.Decimal
