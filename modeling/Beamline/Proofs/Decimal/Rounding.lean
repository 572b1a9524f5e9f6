import Beamline.Proofs.Decimal.Double
import Beamline.Proofs.Decimal.Numeral
import Beamline.Proofs.Decimal.Positional

/-!
# Numerals as doubles

A numeral stands for a rational, and it is read as the double nearest that. The search compares
exact decimals, so the result is right for any number of digits and any exponent. Beyond the bounds
within which the exponent is computed with, all values round to zero or are too great for a double.

* `IsNearest`: to nearest, with ties to the even mantissa.
* `isNearest_of_nearestBits`: what the search finds, with a sign.
* `Numeral.magnitudeBits_eq`: the bounds of the exponent make no difference.
* `Numeral.isNearest_toFloat`: a numeral is read as the nearest double.
-/

namespace Beamline.Decimal

open Float.Model (Format UnpackedFloat)
open Float.Model.UnpackedFloat

/-! ## The nearest double -/

/-- The least value that is too great for a double: halfway from the greatest double to the power of
two that would come next. -/
def overflow : ℚ :=
  2 ^ 1024 - 2 ^ 970

theorem overflow_pos : 0 < overflow := by
  unfold overflow
  exact sub_pos.2 (pow_lt_pow_right₀ one_lt_two (by decide))

/-- The double `x` is the one nearest `v`, and an infinity if `v` is too great. -/
structure IsNearest (v : ℚ) (x : Float) : Prop where
  isFinite_iff : x.isFinite = true ↔ |v| < overflow
  /-- An infinity has the sign of the value. -/
  infinite : overflow ≤ |v| →
    x.toModel.unpack = .infinity (if v < 0 then .negative else .positive)
  /-- No finite double is nearer. -/
  dist_le : |v| < overflow → ∀ y : Float, y.isFinite = true → |v - valueOf x| ≤ |v - valueOf y|
  /-- Of two that are equally near the one with the even mantissa is taken. -/
  even_of_tie : |v| < overflow → ∀ y : Float, y.isFinite = true → valueOf y ≠ valueOf x →
    |v - valueOf y| = |v - valueOf x| → x.toBits.toNat % 2 = 0

theorem signedOne_of_ne {s s' : Sign} (h : s ≠ s') : signedOne s' = -signedOne s := by
  cases s <;> cases s' <;> simp_all [signedOne, Sign.apply]

/-- What the search finds, with a sign, is nearest the decimal with that sign. -/
theorem isNearest_of_nearestBits {d : Expansion} {x : Float}
    (hbits : x.toBits.toNat % signBit = d.nearestBits) :
    IsNearest (signedOne (signOf x.toBits) * d.value) x := by
  have habs : |signedOne (signOf x.toBits) * d.value| = d.value := by
    rw [abs_signedOne_mul, abs_of_nonneg d.value_nonneg]
  have hfinite : x.isFinite = true ↔ d.value < overflow := by
    rw [isFinite_iff, hbits, lt_iff_le_and_ne, and_iff_right d.nearestBits_le, Ne,
      Expansion.nearestBits_eq_infinityBits_iff, not_le]
    rfl
  -- the distance to the double does not depend on the sign, which both have
  have hdist (h : d.value < overflow) : |signedOne (signOf x.toBits) * d.value - valueOf x| =
      |d.value - (Magnitude.nth d.nearestBits).value| := by
    rw [valueOf_eq (hfinite.2 h), hbits, ← mul_sub, abs_signedOne_mul]
  have hother (y : Float) (hy : y.isFinite = true) :
      |d.value - (Magnitude.nth (y.toBits.toNat % signBit)).value| ≤
        |signedOne (signOf x.toBits) * d.value - valueOf y| := by
    have hle := abs_abs_sub_abs_le (signedOne (signOf x.toBits) * d.value) (valueOf y)
    rwa [habs, abs_valueOf hy] at hle
  refine ⟨?_, ?_, ?_, ?_⟩ <;> rw [habs]
  · exact hfinite
  · intro hover
    have hpos : 0 < d.value := overflow_pos.trans_le hover
    rw [unpack_toModel, unpack_infinity
      (hbits.trans (Expansion.nearestBits_eq_infinityBits_iff.2 hover))]
    congr 1
    cases signOf x.toBits with
    | negative => simp [signedOne, Sign.apply, hpos]
    | positive => simp [signedOne, Sign.apply, hpos.le]
  · intro h y hy
    rw [hdist h]
    exact (Expansion.dist_nearestBits_le (isFinite_iff.1 hy)).trans (hother y hy)
  · intro h y hy hne htie
    have hparity : x.toBits.toNat % 2 = d.nearestBits % 2 := by
      rw [← hbits, Nat.mod_mod_of_dvd _ (by decide)]
    rw [hparity]
    by_cases hsame : y.toBits.toNat % signBit = d.nearestBits
    · -- a double and its negation are equally near to nothing but zero, which is nearest zero
      exfalso
      rw [valueOf_eq hy, valueOf_eq (hfinite.2 h), hsame, hbits] at hne
      have hsign : signOf x.toBits ≠ signOf y.toBits := fun heq => hne (by rw [heq])
      have hnear := Expansion.dist_nearestBits_le (d := d) (k := 0) (by decide)
      rw [Magnitude.value_nth_zero, sub_zero, abs_of_nonneg d.value_nonneg, ← hdist h, ← htie,
        valueOf_eq hy, hsame, signedOne_of_ne hsign, neg_mul, sub_neg_eq_add, ← mul_add,
        abs_signedOne_mul] at hnear
      have hzero : (Magnitude.nth d.nearestBits).value = 0 := by
        refine le_antisymm ?_ (Magnitude.value_nonneg _)
        have := le_abs_self (d.value + (Magnitude.nth d.nearestBits).value)
        linarith
      exact hne (by rw [hzero, mul_zero, mul_zero])
    · refine Expansion.even_nearestBits (isFinite_iff.1 hy) hsame (le_antisymm ?_ ?_)
      · rw [← hdist h, ← htie]
        exact hother y hy
      · exact Expansion.dist_nearestBits_le (isFinite_iff.1 hy)

/-! ## Digits -/

variable {ds : List Char} {c : Char}

theorem natOfDigits_cons (c : Char) (ds : List Char) :
    natOfDigits (c :: ds) = (c.toNat - '0'.toNat) * 10 ^ ds.length + natOfDigits ds := by
  have happend := natOfDigits_append [c] ds
  simpa [natOfDigits] using happend

/-- Zeros at the start make no difference. -/
theorem natOfDigits_dropWhile (ds : List Char) :
    natOfDigits (ds.dropWhile (· = '0')) = natOfDigits ds := by
  induction ds with
  | nil => rfl
  | cons c ds ih =>
    by_cases hc : c = '0'
    · rw [List.dropWhile_cons_of_pos (by simpa using hc), ih, natOfDigits_cons, hc, Nat.sub_self,
        Nat.zero_mul, Nat.zero_add]
    · rw [List.dropWhile_cons_of_neg (by simpa using hc)]

theorem natOfDigits_lt (h : AreDigits ds) : natOfDigits ds < 10 ^ ds.length := by
  induction ds with
  | nil => exact Nat.one_pos
  | cons c ds ih =>
    have hdigit : c.toNat - '0'.toNat ≤ 9 :=
      Nat.sub_le_of_le_add (Char.isDigit_iff_toNat.1 (h c List.mem_cons_self)).2
    have hrest := ih fun c' hc' => h c' (List.mem_cons_of_mem c hc')
    rw [natOfDigits_cons, List.length_cons, Nat.pow_succ]
    calc _ < (c.toNat - '0'.toNat) * 10 ^ ds.length + 10 ^ ds.length := by omega
      _ = (c.toNat - '0'.toNat + 1) * 10 ^ ds.length := (Nat.succ_mul ..).symm
      _ ≤ 10 * 10 ^ ds.length := Nat.mul_le_mul_right _ (by omega)
      _ = 10 ^ ds.length * 10 := Nat.mul_comm ..

theorem pow_le_natOfDigits (hc : c.isDigit = true) (hne : c ≠ '0') :
    10 ^ ds.length ≤ natOfDigits (c :: ds) := by
  have hdigit : 1 ≤ c.toNat - '0'.toNat := by
    have hle := (Char.isDigit_iff_toNat.1 hc).1
    have hcode : c.toNat ≠ '0'.toNat := mt Char.toNat_inj.1 hne
    omega
  rw [natOfDigits_cons]
  exact (Nat.le_mul_of_pos_left _ hdigit).trans (Nat.le_add_right ..)

/-! ## Values out of range -/

theorem two_pow_le_ten_pow {j k : Nat} (h : j ≤ 3 * k) : (2 : ℚ) ^ j ≤ 10 ^ k :=
  calc (2 : ℚ) ^ j ≤ 2 ^ (3 * k) := pow_le_pow_right₀ one_le_two h
    _ = 8 ^ k := by
      rw [pow_mul]
      norm_num
    _ ≤ 10 ^ k := pow_le_pow_left₀ (by norm_num) (by norm_num) k

namespace Expansion

variable {d : Expansion}

/-- A decimal below half the least double is rounded to zero. -/
theorem nearestBits_eq_zero (h : d.value < 2 ^ (-1075 : ℤ)) : d.nearestBits = 0 := by
  have hlower : (Magnitude.nth 1).lower = 2 ^ (-1075 : ℤ) := by
    have hnth : Magnitude.nth 1 = { mantissa := 1, exponent := -1074, narrowBelow := false } := by
      decide
    rw [hnth, Magnitude.lower, if_neg Bool.false_ne_true,
      show (-1075 : ℤ) = 1 + (-1074 - 2) by rfl, zpow_add₀ two_ne_zero]
    norm_num
  have hnot : ¬ d.reaches 1 = true := by
    rw [reaches_iff, hlower]
    rintro ⟨-, hlt | ⟨hodd, -⟩⟩
    · exact h.not_gt hlt
    · cases hodd
  rw [reaches_iff_le_nearestBits] at hnot
  omega

end Expansion

/-! ## The value of a numeral -/

namespace Numeral

/-- The value of a numeral. -/
def value (n : Numeral) : ℚ :=
  let fraction := n.fraction.getD []
  (if n.sign = some '-' then -1 else 1) *
    ((natOfDigits n.whole + natOfDigits fraction / 10 ^ fraction.length) *
      10 ^ (n.exponent.map Exponent.value).getD 0)

/-- The decimal that a numeral without its sign stands for. -/
def expansion (n : Numeral) : Expansion :=
  { digits := natOfDigits n.digits, exponent := n.lastPlace }

variable {n : Numeral}

theorem value_eq (n : Numeral) :
    n.value = (if n.sign = some '-' then -1 else 1) * n.expansion.value := by
  have hplaces : (10 : ℚ) ^ n.lastPlace = 10 ^ (n.exponent.map Exponent.value).getD 0 /
      10 ^ (n.fraction.getD []).length := by
    rw [lastPlace, zpow_sub₀ (by norm_num), zpow_natCast]
  rw [value, expansion, Expansion.value, hplaces, digits, natOfDigits_append]
  push_cast
  field_simp

/-- The bounds of a decimal without zeros at the start. -/
theorem expansion_bounds (h : n.WellFormed) :
    n.expansion.value < 10 ^ (n.lastPlace + (n.digits.dropWhile (· = '0')).length) ∧
      (n.digits.dropWhile (· = '0') ≠ [] →
        (10 : ℚ) ^ (n.lastPlace + (n.digits.dropWhile (· = '0')).length - 1) ≤
          n.expansion.value) := by
  have hpower : (0 : ℚ) < 10 ^ n.lastPlace := by positivity
  have hsignificant : AreDigits (n.digits.dropWhile (· = '0')) := fun c hc =>
    h.areDigits c ((List.dropWhile_sublist _).subset hc)
  rw [expansion, Expansion.value, ← natOfDigits_dropWhile]
  -- as a natural the digits lie between two powers of ten, and the last place scales them
  constructor
  · rw [zpow_add₀ (by norm_num), zpow_natCast, mul_comm]
    refine mul_lt_mul_of_pos_left ?_ hpower
    exact_mod_cast natOfDigits_lt hsignificant
  · intro hne
    obtain ⟨c, ds, hds⟩ := List.exists_cons_of_ne_nil hne
    have hc : c ≠ '0' := by
      have := List.head_dropWhile_not (· = '0') hne
      simpa [hds] using this
    rw [hds] at hsignificant ⊢
    have hexponent : n.lastPlace + ((c :: ds).length : ℤ) - 1 = n.lastPlace + (ds.length : ℕ) := by
      rw [List.length_cons]
      omega
    rw [hexponent, zpow_add₀ (by norm_num), zpow_natCast, mul_comm]
    refine mul_le_mul_of_nonneg_right ?_ hpower.le
    exact_mod_cast pow_le_natOfDigits (hsignificant c List.mem_cons_self) hc

/-- Where the bounds of the exponent are exceeded the search would find the same. -/
theorem magnitudeBits_eq (h : n.WellFormed) : n.magnitudeBits = n.expansion.nearestBits := by
  obtain ⟨hbelow, habove⟩ := expansion_bounds h
  unfold magnitudeBits
  dsimp only
  split
  next hsmall =>
    -- zero, or less than half the least double
    refine (Expansion.nearestBits_eq_zero ?_).symm
    rcases hsmall with hnil | htop
    · have hzero : n.expansion.value = 0 := by
        rw [expansion, Expansion.value, ← natOfDigits_dropWhile, hnil]
        exact (congrArg (· * _) Nat.cast_zero).trans (zero_mul _)
      rw [hzero]
      positivity
    · calc n.expansion.value
          < 10 ^ (n.lastPlace + (n.digits.dropWhile (· = '0')).length) := hbelow
        _ ≤ 10 ^ (-401 : ℤ) := zpow_le_zpow_right₀ (by norm_num) (by omega)
        _ ≤ 2 ^ (-1075 : ℤ) := by
          rw [zpow_neg, zpow_neg, zpow_ofNat, zpow_ofNat]
          exact inv_anti₀ (by positivity) (two_pow_le_ten_pow (by decide))
  next hlarge =>
    split
    next htop =>
      -- the first digit alone exceeds the greatest double
      refine (Expansion.nearestBits_eq_infinityBits_iff.2 ?_).symm
      calc (2 : ℚ) ^ 1024 - 2 ^ 970
          ≤ 2 ^ 1024 := sub_le_self _ (by positivity)
        _ ≤ 10 ^ (400 : ℤ) := by
          rw [zpow_ofNat]
          exact two_pow_le_ten_pow (by decide)
        _ ≤ 10 ^ (n.lastPlace + (n.digits.dropWhile (· = '0')).length - 1) :=
          zpow_le_zpow_right₀ (by norm_num) (by omega)
        _ ≤ n.expansion.value := habove fun hnil => hlarge (.inl hnil)
    next =>
      -- the search is the same, only without the zeros at the start
      rw [natOfDigits_dropWhile]
      rfl

theorem toNat_toBits_toFloat (h : n.WellFormed) :
    n.toFloat.toBits.toNat =
      if n.sign = some '-' then n.magnitudeBits + signBit else n.magnitudeBits := by
  have hle : n.magnitudeBits ≤ infinityBits := by
    rw [magnitudeBits_eq h]
    exact n.expansion.nearestBits_le
  have hbits {k : Nat} (hk : k = n.magnitudeBits ∨ k = n.magnitudeBits + signBit) :
      (UInt64.ofNat k).toNat = k := by
    refine UInt64.toNat_ofNat_of_lt' ?_
    simp only [UInt64.size, infinityBits, lastField, hiddenBit, signBit] at *
    omega
  rw [toFloat]
  split
  next =>
    rw [toBits_ofBits, hbits (.inr rfl)]
    rw [hbits (.inr rfl), Nat.add_mod_right]
    exact (Nat.mod_le ..).trans hle
  next =>
    rw [toBits_ofBits, hbits (.inl rfl)]
    rw [hbits (.inl rfl)]
    exact (Nat.mod_le ..).trans hle

/-- A numeral is read as the double nearest its value. -/
theorem WellFormed.isNearest_toFloat (h : n.WellFormed) : IsNearest n.value n.toFloat := by
  have hlt : n.magnitudeBits < signBit := by
    rw [magnitudeBits_eq h]
    exact n.expansion.nearestBits_le.trans_lt Magnitude.infinityBits_lt_signBit
  have htoNat := toNat_toBits_toFloat h
  have hbits : n.toFloat.toBits.toNat % signBit = n.expansion.nearestBits := by
    rw [htoNat, ← magnitudeBits_eq h]
    split
    · rw [Nat.add_mod_right, Nat.mod_eq_of_lt hlt]
    · exact Nat.mod_eq_of_lt hlt
  have hsign : signedOne (signOf n.toFloat.toBits) = if n.sign = some '-' then -1 else 1 := by
    rw [signOf, htoNat]
    split
    · rw [if_neg (by omega)]
      simp [signedOne, Sign.apply]
    · simp [signedOne, Sign.apply]
  rw [value_eq, ← hsign]
  exact isNearest_of_nearestBits hbits

end Numeral

end Beamline.Decimal
