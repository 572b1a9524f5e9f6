import Beamline.Line.Basic
import Beamline.Proofs.Decimal.Rounding
import Beamline.Proofs.Decimal.Scan

/-!
# Repetition counts are the longest numerals

The count of a repetition is the longest numeral after the blanks at the start of its text, whatever
follows. It is found without leaving the text or cutting through a character, it is read as the
double nearest its value, and that double tells how often the body is repeated.

* `ite_one_le_eq_timesOf`: how often a body is repeated, by the value of a double.
* `reads_longest_numeral`: the count of every text.
-/

namespace Beamline.Line

open Float.Model (UnpackedFloat)
open Decimal (IsNearest Numeral valueOf scanNumeral)
open Text (bytes charsUpTo dropBlanks)

/-- How often a body is repeated whose count is the double `x`: not at all below one, and otherwise
as often as the integer part says, up to the greatest count. -/
def timesOf (x : Float) : Nat :=
  match x.toModel.unpack with
  | .infinity .positive => maxCount
  | .infinity .negative => 0
  | .notANumber => 0
  | _ => if valueOf x < 1 then 0 else min ⌊valueOf x⌋₊ maxCount

variable {x : Float}

theorem timesOf_of_isFinite (h : x.isFinite = true) :
    timesOf x = if valueOf x < 1 then 0 else min ⌊valueOf x⌋₊ maxCount := by
  have hfinite : x.toModel.unpack.isFinite = true := h
  unfold timesOf
  cases hx : x.toModel.unpack with
  | infinity sign =>
    rw [hx] at hfinite
    cases hfinite
  | notANumber =>
    rw [hx] at hfinite
    cases hfinite
  | zero sign => rfl
  | finite sign mantissa exponent hpos => rfl

theorem ite_one_le_of_isFinite (h : x.isFinite = true) :
    (if 1.0 ≤ x then x.toUInt64.toNat else 0) = timesOf x := by
  have hone := Decimal.one_le_iff h
  rw [timesOf_of_isFinite h]
  by_cases hle : 1 ≤ valueOf x
  · rw [if_pos (hone.2 hle), if_neg hle.not_gt]
    exact Decimal.toNat_toUInt64 h
  · rw [if_neg (mt hone.1 hle), if_pos (lt_of_not_ge hle)]

/-- The conversion of a double to a count. -/
theorem ite_one_le_eq_timesOf (x : Float) :
    (if 1.0 ≤ x then x.toUInt64.toNat else 0) = timesOf x := by
  obtain ⟨hpos, hunit⟩ := Decimal.unpack_one
  cases hx : x.toModel.unpack with
  | infinity sign =>
    cases sign with
    | positive =>
      have hle : (1.0 : Float) ≤ x := by
        rw [Decimal.le_iff, hunit, hx]
        rfl
      rw [if_pos hle, Decimal.toNat_toUInt64_of_infinity hx, timesOf, hx]
      rfl
    | negative =>
      have hnot : ¬ (1.0 : Float) ≤ x := by
        rw [Decimal.le_iff, hunit, hx]
        exact Bool.false_ne_true
      rw [if_neg hnot, timesOf, hx]
  | notANumber =>
    have hnot : ¬ (1.0 : Float) ≤ x := by
      rw [Decimal.le_iff, hunit, hx]
      exact Bool.false_ne_true
    rw [if_neg hnot, timesOf, hx]
  | zero sign => exact ite_one_le_of_isFinite (congrArg UnpackedFloat.isFinite hx)
  | finite sign mantissa exponent hpos =>
    exact ite_one_le_of_isFinite (congrArg UnpackedFloat.isFinite hx)

/-- The count of a text is the numeral `n`. -/
structure Counts (text : String) (n : Numeral) : Prop where
  /-- It is the longest numeral after the blanks. -/
  longest : n.IsLongest (dropBlanks text.toList)
  /-- The scan ends behind it, and no slice of the bytes fails. -/
  scanned : scanNumeral (bytes (dropBlanks text.toList)) = .ok (some n.written.length)
  /-- There the text can be cut. -/
  cut : charsUpTo n.written.length (dropBlanks text.toList) = .ok n.written
  /-- What is cut out is a number. -/
  parsed : Numeral.parse? n.written = some n.toFloat
  /-- It is the double nearest the value of the numeral. -/
  nearest : IsNearest n.value n.toFloat
  number : leadingNumber text = .ok n.toFloat
  times : repeatCount text = timesOf n.toFloat

/-- The count of a text is the longest numeral after its blanks. Without one it is zero. -/
theorem reads_longest_numeral (text : String) :
    (∃! n : Numeral, Counts text n) ∨
      (∀ n : Numeral, n.WellFormed → ¬ n.written <+: dropBlanks text.toList) ∧
        scanNumeral (bytes (dropBlanks text.toList)) = .ok none ∧
        leadingNumber text = .ok 0.0 ∧ repeatCount text = 0 := by
  have hscan := Decimal.scanNumeral_bytes (dropBlanks text.toList)
  cases hread : Numeral.read? (dropBlanks text.toList) with
  | some n =>
    rw [hread] at hscan
    have hlongest := Numeral.isLongest_of_read? hread
    have hcut := hlongest.wellFormed.charsUpTo_written hlongest.atStart
    have hparsed := hlongest.wellFormed.parse?_written
    have hnumber : leadingNumber text = .ok n.toFloat := by
      unfold leadingNumber
      dsimp only
      rw [hscan]
      show (charsUpTo n.written.length (dropBlanks text.toList)).bind _ = _
      rw [hcut]
      show Except.ok ((Numeral.parse? n.written).getD 0.0) = _
      rw [hparsed, Option.getD_some]
    have htimes : repeatCount text = timesOf n.toFloat := by
      rw [← ite_one_le_eq_timesOf, repeatCount, countValue, hnumber]
      rfl
    have hnearest := hlongest.wellFormed.isNearest_toFloat
    exact .inl ⟨n, ⟨hlongest, hscan, hcut, hparsed, hnearest, hnumber, htimes⟩,
      fun m hm => hm.longest.eq hlongest⟩
  | none =>
    rw [hread] at hscan
    have hnumber : leadingNumber text = .ok 0.0 := by
      unfold leadingNumber
      dsimp only
      rw [hscan]
      rfl
    refine .inr ⟨Numeral.read?_eq_none_iff.1 hread, hscan, hnumber, ?_⟩
    have hbelow : ¬ (1.0 : Float) ≤ 0.0 := by decide +kernel
    rw [repeatCount, countValue, hnumber]
    exact if_neg hbelow

example : repeatCount "\t+3.9e0.5 times" = 3 := by decide +kernel

example : repeatCount ".e1" = 0 := by decide +kernel

end Beamline.Line
