import Mathlib.Data.List.Induction
import Mathlib.Data.List.TakeWhile
import Beamline.Decimal.Numeral
import Beamline.Proofs.Decimal.Double

/-!
# Numbers that are told apart by their text

The text of a finite number without a sign consists of digits with at most one point among them.
Read place by place it is the decimal that the search has found, and that decimal reads back as one
double only. So two such numbers with one text are the same number.

* `Expansion.placeValue_positional`: the places of a positional text.
* `text_inj`: numbers and their texts.
-/

namespace Beamline.Decimal

/-! ## Digits -/

theorem natOfDigits_append (digits more : List Char) :
    natOfDigits (digits ++ more) = natOfDigits digits * 10 ^ more.length + natOfDigits more := by
  induction more using List.reverseRecOn with
  | nil => simp [natOfDigits]
  | append_singleton more c ih =>
    unfold natOfDigits at ih ⊢
    rw [← List.append_assoc, List.foldl_append, ih, List.foldl_append, List.length_append]
    simp only [List.foldl_cons, List.foldl_nil, List.length_singleton]
    ring

theorem natOfDigits_replicate_zero (count : Nat) : natOfDigits (List.replicate count '0') = 0 := by
  induction count with
  | zero => rfl
  | succ count ih =>
    rw [List.replicate_succ', natOfDigits_append, ih]
    rfl

theorem natOfDigits_toDigits (n : Nat) : natOfDigits (Nat.toDigits 10 n) = n :=
  Nat.ofDigitChars_toDigits (by decide) (by decide)

/-- What is dropped from the end are zeros. -/
theorem exists_dropZerosEnd_append (digits : List Char) :
    ∃ count, dropZerosEnd digits ++ List.replicate count '0' = digits := by
  have hzeros : digits.reverse.takeWhile (· = '0') =
      List.replicate (digits.reverse.takeWhile (· = '0')).length '0' :=
    List.eq_replicate_of_mem fun c hc => by simpa using List.mem_takeWhile_imp hc
  refine ⟨(digits.reverse.takeWhile (· = '0')).length, ?_⟩
  rw [dropZerosEnd, ← List.reverse_replicate, ← hzeros, ← List.reverse_append,
    List.takeWhile_append_dropWhile, List.reverse_reverse]

/-! ## Places -/

/-- The value of digits with at most one point among them. -/
def placeValue (cs : List Char) : ℚ :=
  let fraction := (afterDigits cs).drop 1
  natOfDigits (leadingDigits cs ++ fraction) / 10 ^ fraction.length

variable {whole fraction : List Char}

theorem placeValue_of_whole (hwhole : ∀ c ∈ whole, c.isDigit = true) :
    placeValue whole = natOfDigits whole := by
  have hleading : leadingDigits whole = whole := List.takeWhile_eq_self_iff.2 hwhole
  have hafter : afterDigits whole = [] := List.dropWhile_eq_nil_iff.2 hwhole
  unfold placeValue
  rw [hleading, hafter]
  simp

theorem placeValue_of_point (hwhole : ∀ c ∈ whole, c.isDigit = true) :
    placeValue (whole ++ '.' :: fraction) =
      natOfDigits (whole ++ fraction) / 10 ^ fraction.length := by
  have hleading : leadingDigits (whole ++ '.' :: fraction) = whole := by
    rw [leadingDigits, List.takeWhile_append_of_pos hwhole]
    simp
  have hafter : afterDigits (whole ++ '.' :: fraction) = '.' :: fraction := by
    rw [afterDigits, List.dropWhile_append_of_pos hwhole]
    simp
  unfold placeValue
  rw [hleading, hafter]
  rfl

/-- Zeros at the end of the fraction make no difference. -/
theorem placeValue_dropZerosEnd (hwhole : ∀ c ∈ whole, c.isDigit = true) :
    placeValue (match dropZerosEnd fraction with
      | [] => whole
      | rest => whole ++ '.' :: rest) =
      natOfDigits (whole ++ fraction) / 10 ^ fraction.length := by
  obtain ⟨count, hfraction⟩ := exists_dropZerosEnd_append fraction
  have hshort : natOfDigits (whole ++ fraction) / (10 : ℚ) ^ fraction.length =
      natOfDigits (whole ++ dropZerosEnd fraction) / 10 ^ (dropZerosEnd fraction).length := by
    have hdigits : natOfDigits (whole ++ fraction) =
        natOfDigits (whole ++ dropZerosEnd fraction) * 10 ^ count := by
      conv_lhs => rw [← hfraction, ← List.append_assoc, natOfDigits_append,
        natOfDigits_replicate_zero, List.length_replicate, Nat.add_zero]
    have hlength : fraction.length = (dropZerosEnd fraction).length + count := by
      conv_lhs => rw [← hfraction, List.length_append, List.length_replicate]
    rw [hdigits, hlength, pow_add, Nat.cast_mul, Nat.cast_pow, Nat.cast_ofNat]
    exact mul_div_mul_right _ _ (by positivity)
  rw [hshort]
  cases hrest : dropZerosEnd fraction with
  | nil =>
    rw [List.append_nil, List.length_nil, pow_zero, div_one]
    exact placeValue_of_whole hwhole
  | cons c rest => exact placeValue_of_point hwhole

namespace Expansion

variable (d : Expansion)

/-- The number of places after the point. -/
def places : Nat :=
  (-d.exponent).toNat

/-- The digits of the decimal, with the zeros that are needed to fill the places up to the point. -/
def padded : List Char :=
  List.replicate (d.places + 1 - (Nat.toDigits 10 d.digits).length) '0' ++
    (Nat.toDigits 10 d.digits ++ List.replicate d.exponent.toNat '0')

theorem positional_eq :
    d.positional =
      match dropZerosEnd (d.padded.drop (d.padded.length - d.places)) with
      | [] => d.padded.take (d.padded.length - d.places)
      | fraction => d.padded.take (d.padded.length - d.places) ++ '.' :: fraction :=
  rfl

theorem places_lt_length_padded : d.places < d.padded.length := by
  unfold padded
  rw [List.length_append, List.length_append, List.length_replicate, List.length_replicate]
  omega

theorem isDigit_of_mem_padded {c : Char} (h : c ∈ d.padded) : c.isDigit = true := by
  have hzero {count : Nat} (h : c ∈ List.replicate count '0') : c.isDigit = true := by
    rw [List.eq_of_mem_replicate h]
    decide
  rcases List.mem_append.1 h with h | h
  · exact hzero h
  · rcases List.mem_append.1 h with h | h
    · exact Nat.isDigit_of_mem_toDigits (by decide) (by decide) h
    · exact hzero h

theorem natOfDigits_padded : natOfDigits d.padded = d.digits * 10 ^ d.exponent.toNat := by
  unfold padded
  rw [natOfDigits_append, natOfDigits_replicate_zero, Nat.zero_mul, Nat.zero_add,
    natOfDigits_append, natOfDigits_replicate_zero, natOfDigits_toDigits, List.length_replicate,
    Nat.add_zero]

/-- Place by place a positional text is the decimal that it is written for. -/
theorem placeValue_positional : placeValue d.positional = d.value := by
  have hplaces := d.places_lt_length_padded
  have hwhole : ∀ c ∈ d.padded.take (d.padded.length - d.places), c.isDigit = true :=
    fun c hc => d.isDigit_of_mem_padded (List.mem_of_mem_take hc)
  have hlength : (d.padded.drop (d.padded.length - d.places)).length = d.places := by
    rw [List.length_drop]
    omega
  rw [positional_eq, placeValue_dropZerosEnd hwhole, List.take_append_drop, hlength,
    natOfDigits_padded, value, div_eq_iff (by positivity)]
  have hpower : ((10 ^ d.exponent.toNat : ℕ) : ℚ) =
      (10 : ℚ) ^ d.exponent * ((10 ^ d.places : ℕ) : ℚ) :=
    power_eq (show 0 < 10 by decide) d.exponent
  rw [Nat.cast_mul, hpower, Nat.cast_pow, Nat.cast_ofNat, mul_assoc]

theorem isDigit_or_point_of_mem_positional {c : Char} (h : c ∈ d.positional) :
    c.isDigit = true ∨ c = '.' := by
  have hwhole (h : c ∈ d.padded.take (d.padded.length - d.places)) : c.isDigit = true :=
    d.isDigit_of_mem_padded (List.mem_of_mem_take h)
  rw [positional_eq] at h
  cases hrest : dropZerosEnd (d.padded.drop (d.padded.length - d.places)) with
  | nil =>
    rw [hrest] at h
    exact .inl (hwhole h)
  | cons first rest =>
    rw [hrest] at h
    rcases List.mem_append.1 h with h | h
    · exact .inl (hwhole h)
    · rcases List.mem_cons.1 h with h | h
      · exact .inr h
      · -- the fraction is what is left of the digits when zeros are dropped
        obtain ⟨count, happend⟩ :=
          exists_dropZerosEnd_append (d.padded.drop (d.padded.length - d.places))
        have hmem : c ∈ d.padded.drop (d.padded.length - d.places) := by
          rw [← happend, hrest]
          exact List.mem_append_left _ h
        exact .inl (d.isDigit_of_mem_padded (List.mem_of_mem_drop hmem))

theorem positional_ne_nil : d.positional ≠ [] := by
  have hplaces := d.places_lt_length_padded
  have hwhole : d.padded.take (d.padded.length - d.places) ≠ [] := by
    rw [Ne, List.take_eq_nil_iff, not_or]
    refine ⟨by omega, ?_⟩
    intro hnil
    rw [hnil] at hplaces
    exact absurd hplaces (Nat.not_lt_zero _)
  rw [positional_eq]
  split
  · exact hwhole
  · exact List.append_ne_nil_of_left_ne_nil hwhole _

end Expansion

/-! ## Texts of numbers -/

/-- The number is finite and its sign bit is clear. -/
def IsUnsigned (x : Float) : Prop :=
  x.isFinite = true ∧ x.toBits.toNat < signBit

instance (x : Float) : Decidable (IsUnsigned x) :=
  inferInstanceAs (Decidable (x.isFinite = true ∧ x.toBits.toNat < signBit))

variable {x y : Float}

/-- The exponent field of a finite number is not the last one. -/
theorem IsUnsigned.toNat_toBits_lt (h : IsUnsigned x) : x.toBits.toNat < lastField * hiddenBit := by
  have hfinite := isFinite_iff.1 h.1
  rwa [Nat.mod_eq_of_lt h.2] at hfinite

/-- Two numbers with the same bits are the same number. -/
theorem toBits_inj (h : x.toBits = y.toBits) : x = y := by
  obtain ⟨⟨bits, valid⟩⟩ := x
  obtain ⟨⟨bits', valid'⟩⟩ := y
  obtain rfl : bits = bits' := h
  rfl

theorem IsUnsigned.text_eq (h : IsUnsigned x) :
    (text x).toList =
      if x.toBits.toNat = 0 then ['0'] else (Magnitude.ofBits x.toBits).shortest.positional := by
  have hlt := h.toNat_toBits_lt
  unfold text textOfBits
  rw [if_pos h.2, Nat.mod_eq_of_lt h.2, if_neg (by omega), if_neg (by omega)]
  split
  · rfl
  · simp

/-- The text of a finite number without a sign consists of digits and points. -/
theorem IsUnsigned.isDigit_or_point (h : IsUnsigned x) {c : Char} (hc : c ∈ (text x).toList) :
    c.isDigit = true ∨ c = '.' := by
  rw [h.text_eq] at hc
  split at hc
  · rw [List.mem_singleton.1 hc]
    decide
  · exact Expansion.isDigit_or_point_of_mem_positional _ hc

theorem IsUnsigned.text_ne_nil (h : IsUnsigned x) : (text x).toList ≠ [] := by
  rw [h.text_eq]
  split
  · exact List.cons_ne_nil _ _
  · exact Expansion.positional_ne_nil _

/-- Place by place the text of a number is zero for zero alone, and otherwise a decimal that reads
back. -/
theorem IsUnsigned.placeValue_text (h : IsUnsigned x) :
    (x.toBits.toNat = 0 ∧ placeValue (text x).toList = 0) ∨
      (0 < x.toBits.toNat ∧ 0 < placeValue (text x).toList ∧
        ∃ d : Expansion, (Magnitude.ofBits x.toBits).admits d = true ∧
          d.value = placeValue (text x).toList) := by
  rw [h.text_eq]
  by_cases hzero : x.toBits.toNat = 0
  · rw [if_pos hzero]
    refine .inl ⟨hzero, ?_⟩
    rw [placeValue_of_whole (by simp)]
    rfl
  · rw [if_neg hzero, Expansion.placeValue_positional]
    have hpos : 0 < x.toBits.toNat := Nat.pos_of_ne_zero hzero
    have hadmits := Magnitude.admits_shortest (Magnitude.mantissa_pos h.2 hpos)
    have hvalue := Magnitude.value_pos_of_admits (Magnitude.mantissa_pos h.2 hpos) hadmits
    exact .inr ⟨hpos, hvalue, _, hadmits, rfl⟩

/-- Finite numbers without a sign that have the same text are the same. -/
theorem text_inj (hx : IsUnsigned x) (hy : IsUnsigned y) (h : text x = text y) : x = y := by
  refine toBits_inj ?_
  rcases hx.placeValue_text with ⟨hzero, hx0⟩ | ⟨-, hpos, d, hd, hvalue⟩
  · rcases hy.placeValue_text with ⟨hzero', -⟩ | ⟨-, hpos', -⟩
    · exact UInt64.toNat_inj.1 (hzero.trans hzero'.symm)
    · rw [← h, hx0] at hpos'
      exact absurd hpos' (lt_irrefl 0)
  · rcases hy.placeValue_text with ⟨-, hy0⟩ | ⟨-, -, d', hd', hvalue'⟩
    · rw [h, hy0] at hpos
      exact absurd hpos (lt_irrefl 0)
    · refine Magnitude.bits_eq_of_admits hx.2 hy.2 hd hd' ?_
      rw [hvalue, hvalue', h]

end Beamline.Decimal
