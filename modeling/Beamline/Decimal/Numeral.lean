import Beamline.Decimal.Nearest

/-!
# Numerals

A numeral is an optional sign, digits that may have one point before, after or among them, and
an optional exponent: `e` or `E`, an optional sign and at least one digit. `Numeral.read?` takes
the longest numeral at the start of a text; what follows it is ignored. A point needs a digit on
one of its sides, and an exponent without digits does not belong to the numeral.

* `Numeral.exists_of_read?`: the characters of the numeral that is read stand at the start.
-/

namespace Beamline.Decimal

/-! ## Digits and signs -/

/-- The digits at the start of `cs`. -/
def leadingDigits (cs : List Char) : List Char :=
  cs.takeWhile Char.isDigit

/-- What follows the digits at the start of `cs`. -/
def afterDigits (cs : List Char) : List Char :=
  cs.dropWhile Char.isDigit

theorem leadingDigits_append_afterDigits (cs : List Char) :
    leadingDigits cs ++ afterDigits cs = cs :=
  List.takeWhile_append_dropWhile

/-- The natural that `digits` write in base ten. -/
def natOfDigits (digits : List Char) : Nat :=
  digits.foldl (fun value digit => 10 * value + (digit.toNat - '0'.toNat)) 0

/-- The sign written at the start of `cs`, if there is one, and what follows it. -/
def splitSign : List Char → Option Char × List Char
  | '+' :: rest => (some '+', rest)
  | '-' :: rest => (some '-', rest)
  | cs => (none, cs)

theorem splitSign_append (cs : List Char) : (splitSign cs).1.toList ++ (splitSign cs).2 = cs := by
  unfold splitSign
  split <;> rfl

/-! ## Exponents -/

/-- An exponent as written. -/
structure Exponent where
  /-- The letter, `e` or `E`. -/
  letter : Char
  /-- The sign, if one is written. -/
  sign : Option Char
  /-- The digits. -/
  digits : List Char
  deriving DecidableEq

/-- The exponent at the start of `cs`, if a complete one stands there. -/
def Exponent.read? : List Char → Option Exponent
  | [] => none
  | letter :: rest =>
    let (sign, rest) := splitSign rest
    let digits := leadingDigits rest
    if (letter = 'e' ∨ letter = 'E') ∧ digits ≠ [] then some { letter, sign, digits } else none

/-- The characters of an exponent. -/
def Exponent.written (e : Exponent) : List Char :=
  e.letter :: e.sign.toList ++ e.digits

/-- The characters of an exponent that is read stand at the start. -/
theorem Exponent.exists_of_read? {cs : List Char} {e : Exponent} (h : Exponent.read? cs = some e) :
    ∃ rest, e.written ++ rest = cs := by
  cases cs with
  | nil => cases h
  | cons letter tail =>
    simp only [Exponent.read?] at h
    split at h
    · cases h
      refine ⟨afterDigits (splitSign tail).2, ?_⟩
      simp only [Exponent.written, List.cons_append, List.append_assoc,
        leadingDigits_append_afterDigits, splitSign_append]
    · cases h

/-- The power of ten that an exponent stands for. -/
def Exponent.value (e : Exponent) : Int :=
  if e.sign = some '-' then -(natOfDigits e.digits : Int) else natOfDigits e.digits

/-! ## Numerals -/

/-- A numeral as written. -/
structure Numeral where
  /-- The sign, if one is written. -/
  sign : Option Char
  /-- The digits before the point. -/
  whole : List Char
  /-- The digits after the point, if a point is written. -/
  fraction : Option (List Char)
  /-- The exponent, if one is written. -/
  exponent : Option Exponent
  deriving DecidableEq

namespace Numeral

/-- The digits on both sides of the point. -/
def digits (n : Numeral) : List Char :=
  n.whole ++ n.fraction.getD []

/-- The characters of a numeral. -/
def written (n : Numeral) : List Char :=
  n.sign.toList ++ n.whole ++ (n.fraction.map ('.' :: ·)).getD [] ++
    (n.exponent.map Exponent.written).getD []

/-- The fraction at the start of `cs`, if a point stands there, and what follows. -/
def splitFraction : List Char → Option (List Char) × List Char
  | '.' :: rest => (some (leadingDigits rest), afterDigits rest)
  | cs => (none, cs)

theorem splitFraction_append (cs : List Char) :
    ((splitFraction cs).1.map ('.' :: ·)).getD [] ++ (splitFraction cs).2 = cs := by
  unfold splitFraction
  split
  · simp [leadingDigits_append_afterDigits]
  · rfl

/-- The longest numeral at the start of `cs`, if there is one. -/
def read? (cs : List Char) : Option Numeral :=
  let (sign, rest) := splitSign cs
  let whole := leadingDigits rest
  let (fraction, rest) := splitFraction (afterDigits rest)
  if whole ++ fraction.getD [] = [] then
    none
  else
    some { sign, whole, fraction, exponent := Exponent.read? rest }

/-- The characters of the numeral that is read stand at the start. -/
theorem exists_of_read? {cs : List Char} {n : Numeral} (h : read? cs = some n) :
    ∃ rest, n.written ++ rest = cs := by
  simp only [read?] at h
  split at h
  · cases h
  · cases h
    simp only [written, List.append_assoc]
    obtain ⟨rest, hrest⟩ : ∃ rest,
        ((Exponent.read? (splitFraction (afterDigits (splitSign cs).2)).2).map
          Exponent.written).getD [] ++ rest = (splitFraction (afterDigits (splitSign cs).2)).2 := by
      cases he : Exponent.read? (splitFraction (afterDigits (splitSign cs).2)).2 with
      | none => exact ⟨_, rfl⟩
      | some e => exact Exponent.exists_of_read? he
    refine ⟨rest, ?_⟩
    rw [hrest, splitFraction_append, leadingDigits_append_afterDigits, splitSign_append]

/-! ## Values -/

/-- The power of ten of the last digit. -/
def lastPlace (n : Numeral) : Int :=
  (n.exponent.map Exponent.value).getD 0 - (n.fraction.getD []).length

/-- The bits of the double nearest the value of a numeral, without its sign. A value of `10 ^ 400`
or more is out of range and one below `10 ^ (-400)` rounds to zero, whatever its digits. -/
def magnitudeBits (n : Numeral) : Nat :=
  let significant := n.digits.dropWhile (· = '0')
  let top := n.lastPlace + significant.length
  -- outside of these bounds the exponent may be too great to compute with
  if significant = [] ∨ top < -400 then
    0
  else if 400 < top then
    infinityBits
  else
    Expansion.nearestBits { digits := natOfDigits significant, exponent := n.lastPlace }

/-- The double nearest the value of a numeral. -/
def toFloat (n : Numeral) : Float :=
  Float.ofBits (.ofNat (if n.sign = some '-' then n.magnitudeBits + signBit else n.magnitudeBits))

end Numeral

end Beamline.Decimal
