import Beamline.Decimal.Scan
import Beamline.Proofs.Bytes
import Beamline.Proofs.Decimal.Numeral

/-!
# The scan finds the longest numeral

All that belongs to a numeral is ASCII. So wherever the scan stands behind a part of the numeral, it
stands between two characters, and each of its steps takes in the same characters as the reader
does.

* `scanNumeral_bytes`: the scan ends behind the numeral that is read, and none of its slices fails.
* `Numeral.WellFormed.charsUpTo_written`: the numeral can be cut out of the text.
* `Numeral.WellFormed.parse?_written`: what is cut out is a numeral as a whole.
-/

namespace Beamline.Decimal

open Text

variable {cs rest : List Char}

/-! ## Parts of a numeral are ASCII -/

theorem AreDigits.isAscii (h : AreDigits cs) : IsAscii cs := fun c hc =>
  ((Char.isDigit_iff_toNat.1 (h c hc)).2).trans_lt (by decide)

theorem IsSign.isAscii {sign : Option Char} (h : IsSign sign) : IsAscii sign.toList := by
  intro c hc
  rcases h c (Option.mem_toList.1 hc) with rfl | rfl <;> decide

/-! ## Bytes of characters -/

theorem isSignByte_leadByte (c : Char) :
    isSignByte (leadByte c) = true ↔ c = '+' ∨ c = '-' := by
  rw [isSignByte, Bool.or_eq_true, decide_eq_true_eq, decide_eq_true_eq,
    leadByte_eq_iff (by decide), leadByte_eq_iff (by decide)]

theorem isExponentByte_leadByte (c : Char) :
    isExponentByte (leadByte c) = true ↔ c = 'e' ∨ c = 'E' := by
  rw [isExponentByte, Bool.or_eq_true, decide_eq_true_eq, decide_eq_true_eq,
    leadByte_eq_iff (by decide), leadByte_eq_iff (by decide)]

theorem isDigitByte_leadByte (c : Char) : isDigitByte (leadByte c) = c.isDigit := by
  rw [Bool.eq_iff_iff, Char.isDigit_iff_toNat, isDigitByte, Bool.and_eq_true, decide_eq_true_eq,
    decide_eq_true_eq, UInt8.le_iff_toNat_le, UInt8.le_iff_toNat_le]
  have hzero : '0'.toUInt8.toNat = 48 := by decide
  have hnine : '9'.toUInt8.toNat = 57 := by decide
  have hzero' : '0'.toNat = 48 := by decide
  have hnine' : '9'.toNat = 57 := by decide
  rcases Nat.lt_or_ge c.toNat 128 with hascii | hwide
  · rw [leadByte_of_ascii hascii, toNat_toUInt8_of_ascii hascii]
    rfl
  · have hlead := le_toNat_leadByte hwide
    omega

/-! ## The steps of the scan -/

theorem countDigits_bytes (cs : List Char) :
    countDigits (bytes cs) = (leadingDigits cs).length := by
  induction cs with
  | nil => rfl
  | cons c cs ih =>
    cases hc : c.isDigit with
    | true =>
      have hascii : c.toNat < 128 := (Char.isDigit_iff_toNat.1 hc).2.trans_lt (by decide)
      have hdigit := isDigitByte_leadByte c
      rw [leadByte_of_ascii hascii, hc] at hdigit
      rw [countDigits, bytes_cons, utf8EncodeChar_of_ascii hascii, List.singleton_append,
        List.takeWhile_cons_of_pos hdigit, leadingDigits, List.takeWhile_cons_of_pos hc,
        List.length_cons, List.length_cons]
      exact congrArg Nat.succ ih
    | false =>
      obtain ⟨bs, hbytes⟩ := exists_bytes_cons c cs
      have hdigit : ¬ isDigitByte (leadByte c) = true := by
        rw [isDigitByte_leadByte, hc]
        exact Bool.false_ne_true
      rw [countDigits, hbytes, List.takeWhile_cons_of_neg hdigit, leadingDigits_cons_of_not hc]
      rfl

/-- The sign is skipped that is split off. -/
theorem skipSign_bytes (h : IsAscii cs) (rest : List Char) :
    skipSign (bytes (cs ++ rest)) cs.length = (cs ++ (splitSign rest).1.toList).length := by
  rw [skipSign, getElem?_bytes_append h]
  cases rest with
  | nil => simp [splitSign]
  | cons c rest =>
    rw [List.head?_cons, Option.map_some, Option.any_some]
    by_cases hc : c = '+' ∨ c = '-'
    · rw [if_pos ((isSignByte_leadByte c).2 hc)]
      rcases hc with rfl | rfl <;> simp [splitSign]
    · rw [if_neg (mt (isSignByte_leadByte c).1 hc)]
      unfold splitSign
      split <;> simp_all

/-- The fraction is scanned that is split off. -/
theorem scanFraction_bytes (h : IsAscii cs) (rest : List Char) :
    scanFraction (bytes (cs ++ rest)) cs.length =
      .ok (((Numeral.splitFraction rest).1.getD []).length,
        (cs ++ ((Numeral.splitFraction rest).1.map ('.' :: ·)).getD []).length) := by
  rw [scanFraction, getElem?_bytes_append h]
  cases rest with
  | nil =>
    show Except.ok (0, cs.length) = _
    simp [Numeral.splitFraction]
  | cons c rest =>
    have hpoint : (c :: rest).head?.map leadByte = some '.'.toUInt8 ↔ c = '.' := by
      rw [List.head?_cons, Option.map_some, Option.some_inj, leadByte_eq_iff (by decide)]
    by_cases hc : c = '.'
    · have hslice := bytesFrom_bytes_append (h.concat (a := '.') (by decide)) rest
      rw [List.length_append, List.length_singleton] at hslice
      rw [if_pos (hpoint.2 hc), hc, List.append_cons, hslice]
      show Except.ok (countDigits (bytes rest), cs.length + 1 + countDigits (bytes rest)) = _
      rw [countDigits_bytes]
      simp [Numeral.splitFraction]
      omega
    · rw [if_neg (mt hpoint.1 hc)]
      show Except.ok (0, cs.length) = _
      simp [Numeral.splitFraction, hc]

/-- The exponent is scanned that is read. -/
theorem scanExponent_bytes (h : IsAscii cs) (rest : List Char) :
    scanExponent (bytes (cs ++ rest)) cs.length =
      .ok (cs ++ ((Exponent.read? rest).map Exponent.written).getD []).length := by
  rw [scanExponent, getElem?_bytes_append h]
  cases rest with
  | nil =>
    show Except.ok cs.length = _
    simp [Exponent.read?]
  | cons c rest =>
    have hletter :
        ((c :: rest).head?.map leadByte).any isExponentByte = true ↔ c = 'e' ∨ c = 'E' := by
      rw [List.head?_cons, Option.map_some, Option.any_some, isExponentByte_leadByte]
    by_cases hc : c = 'e' ∨ c = 'E'
    · have hstart : IsAscii (cs ++ [c]) := by
        refine h.concat ?_
        rcases hc with rfl | rfl <;> decide
      have hsign := skipSign_bytes hstart rest
      have hdigits : IsAscii (cs ++ [c] ++ (splitSign rest).1.toList) :=
        hstart.append (isSign_splitSign rest).isAscii
      -- the text once more, cut behind the sign of the exponent
      have htext :
          cs ++ c :: rest = cs ++ [c] ++ (splitSign rest).1.toList ++ (splitSign rest).2 := by
        rw [List.append_assoc _ _ (splitSign rest).2, splitSign_append, ← List.append_cons]
      have hlength : (cs ++ [c]).length = cs.length + 1 := List.length_append
      rw [hlength, ← List.append_cons] at hsign
      rw [if_pos (hletter.2 hc), hsign, htext]
      dsimp only
      rw [Nat.min_eq_left (length_le_length_bytes_append hdigits _),
        bytesFrom_bytes_append hdigits]
      show Except.ok (if 0 < countDigits (bytes (splitSign rest).2) then _ else _) = _
      rw [countDigits_bytes]
      by_cases hnil : leadingDigits (splitSign rest).2 = []
      · -- the exponent is not complete, and the scan stays in front of its letter
        simp [Exponent.read?, hnil]
      · rw [if_pos (List.length_pos_iff.2 hnil)]
        simp [Exponent.read?, Exponent.written, hc, hnil]
        omega
    · rw [if_neg (mt hletter.1 hc)]
      show Except.ok cs.length = _
      simp [Exponent.read?, hc]

/-- The fraction that is split off is ASCII. -/
theorem isAscii_splitFraction (cs : List Char) :
    IsAscii (((Numeral.splitFraction cs).1.map ('.' :: ·)).getD []) := by
  unfold Numeral.splitFraction
  split
  · exact (areDigits_leadingDigits _).isAscii.cons (by decide)
  · exact isAscii_nil

/-- The scan ends behind the numeral that is read, and none of its slices fails. -/
theorem scanNumeral_bytes (cs : List Char) :
    scanNumeral (bytes cs) = .ok ((Numeral.read? cs).map fun n => n.written.length) := by
  obtain ⟨⟨sign, behindSign⟩, hsign⟩ : ∃ parts, splitSign cs = parts := ⟨_, rfl⟩
  obtain ⟨⟨fraction, behindFraction⟩, hfraction⟩ :
      ∃ parts, Numeral.splitFraction (afterDigits behindSign) = parts := ⟨_, rfl⟩
  -- the text is cut behind the sign, behind the digits and behind the fraction
  have hcut₁ : sign.toList ++ behindSign = cs := by
    have happend := splitSign_append cs
    rwa [hsign] at happend
  have hcut₂ : sign.toList ++ leadingDigits behindSign ++ afterDigits behindSign = cs := by
    rw [List.append_assoc, leadingDigits_append_afterDigits, hcut₁]
  have hcut₃ : sign.toList ++ leadingDigits behindSign ++ (fraction.map ('.' :: ·)).getD [] ++
      behindFraction = cs := by
    have happend := Numeral.splitFraction_append (afterDigits behindSign)
    rw [hfraction] at happend
    rw [List.append_assoc, happend, hcut₂]
  have hascii₁ : IsAscii sign.toList := by
    have hisSign := isSign_splitSign cs
    rw [hsign] at hisSign
    exact hisSign.isAscii
  have hascii₂ := hascii₁.append (areDigits_leadingDigits behindSign).isAscii
  have hascii₃ := hascii₂.append (isAscii_splitFraction (afterDigits behindSign))
  -- each step of the scan starts where the one before has stopped
  have hstep₁ : skipSign (bytes cs) 0 = sign.toList.length := by
    have hstep := skipSign_bytes isAscii_nil cs
    rwa [List.nil_append, List.nil_append, hsign] at hstep
  have hslice := bytesFrom_bytes_append hascii₁ behindSign
  have hstep₂ := scanFraction_bytes hascii₂ (afterDigits behindSign)
  rw [hfraction] at hascii₃ hstep₂
  have hstep₃ := scanExponent_bytes hascii₃ behindFraction
  rw [hcut₁] at hslice
  have hlength : (sign.toList ++ leadingDigits behindSign).length =
      sign.toList.length + (leadingDigits behindSign).length := List.length_append
  rw [hcut₂, hlength] at hstep₂
  rw [hcut₃] at hstep₃
  unfold scanNumeral
  dsimp only
  rw [hstep₁, hslice]
  show (scanFraction (bytes cs) (sign.toList.length + countDigits (bytes behindSign))).bind _ = _
  rw [countDigits_bytes, hstep₂]
  show (if (leadingDigits behindSign).length + (fraction.getD []).length = 0 then _ else _) = _
  rw [← List.length_append]
  simp only [Numeral.read?, hsign, hfraction, List.length_eq_zero_iff]
  split
  · rfl
  · show (scanExponent (bytes cs) _).bind _ = _
    rw [hstep₃]
    rfl

/-! ## What is cut out of the text -/

theorem Exponent.WellFormed.isAscii {e : Exponent} (h : e.WellFormed) : IsAscii e.written := by
  have hletter : e.letter.toNat < 128 := by
    rcases h.letter with hletter | hletter <;> rw [hletter] <;> decide
  exact (h.sign.isAscii.cons hletter).append h.digits.isAscii

namespace Numeral

variable {n : Numeral}

theorem WellFormed.isAscii (h : n.WellFormed) : IsAscii n.written := by
  refine ((h.sign.isAscii.append h.whole.isAscii).append ?_).append ?_
  · cases hfraction : n.fraction with
    | none => exact isAscii_nil
    | some ds => exact (h.fraction ds hfraction).isAscii.cons (by decide)
  · cases hexponent : n.exponent with
    | none => exact isAscii_nil
    | some e => exact (h.exponent e hexponent).isAscii

/-- A numeral at the start of a text can be cut out of it. -/
theorem WellFormed.charsUpTo_written (h : n.WellFormed) (hstart : n.written <+: cs) :
    charsUpTo n.written.length cs = .ok n.written := by
  obtain ⟨rest, rfl⟩ := hstart
  exact charsUpTo_append h.isAscii rest

/-- A numeral is read as a whole. -/
theorem WellFormed.parse?_written (h : n.WellFormed) : parse? n.written = some n.toFloat := by
  simp [parse?, read?_written h]

end Numeral

end Beamline.Decimal
