import Mathlib.Algebra.Order.Field.Power
import Mathlib.Algebra.Order.Ring.Rat
import Mathlib.Order.Compare
import Mathlib.Tactic.FieldSimp
import Mathlib.Tactic.Linarith
import Mathlib.Tactic.NormNum
import Mathlib.Tactic.Positivity
import Mathlib.Tactic.Ring
import Beamline.Decimal.Positional

/-!
# Rounding intervals

The decimals that read back as a double lie in an interval around it, whose ends are halfway to its
neighbours. The intervals of all positive doubles follow one another: each ends where the next one
starts. The common end belongs to the interval with the even mantissa alone, so that no decimal
reads back as two doubles.

* `compareScaled_eq`: the comparison of products of naturals as one of rationals.
* `Magnitude.admits_iff`: the interval of a double.
* `Magnitude.bits_eq_of_admits`: a decimal reads back as one double only.
-/

namespace Beamline.Decimal

/-! ## Exact comparison -/

theorem power_eq {base : Nat} (hbase : 0 < base) (e : Int) :
    (power base e : ℚ) = (base : ℚ) ^ e * power base (-e) := by
  have hne : (base : ℚ) ≠ 0 := by positivity
  show ((base ^ e.toNat : ℕ) : ℚ) = (base : ℚ) ^ e * ((base ^ (-e).toNat : ℕ) : ℚ)
  push_cast
  rw [← zpow_natCast, ← zpow_natCast, ← zpow_add₀ hne]
  congr 1
  omega

theorem power_eq_of_nonneg {base : Nat} {e : Int} (he : 0 ≤ e) :
    (power base e : ℚ) = (base : ℚ) ^ e := by
  show ((base ^ e.toNat : ℕ) : ℚ) = (base : ℚ) ^ e
  rw [Nat.cast_pow, ← zpow_natCast, Int.toNat_of_nonneg he]

theorem power_pos {base : Nat} (hbase : 0 < base) (e : Int) : 0 < power base e :=
  Nat.pow_pos hbase

/-- The value of a decimal. -/
def Expansion.value (d : Expansion) : ℚ :=
  d.digits * (10 : ℚ) ^ d.exponent

/-- A comparison of products is one of the values that are scaled. -/
theorem compareScaled_eq (d : Nat) (e : Int) (m : Nat) (q : Int) :
    compareScaled d e m q = cmp (d * (10 : ℚ) ^ e) (m * (2 : ℚ) ^ q) := by
  have hten := power_eq (show 0 < 10 by decide) e
  have htwo := power_eq (show 0 < 2 by decide) q
  have hscale : (0 : ℚ) < power 10 (-e) * power 2 (-q) := by
    have hpos := Nat.mul_pos (power_pos (show 0 < 10 by decide) (-e))
      (power_pos (show 0 < 2 by decide) (-q))
    exact_mod_cast hpos
  have hleft : ((d * power 10 e * power 2 (-q) : ℕ) : ℚ) =
      d * (10 : ℚ) ^ e * (power 10 (-e) * power 2 (-q)) := by
    push_cast
    rw [hten]
    push_cast
    ring
  have hright : ((m * power 2 q * power 10 (-e) : ℕ) : ℚ) =
      m * (2 : ℚ) ^ q * (power 10 (-e) * power 2 (-q)) := by
    push_cast
    rw [htwo]
    push_cast
    ring
  have hcast : StrictMono (Nat.cast : ℕ → ℚ) := Nat.strictMono_cast
  rw [compareScaled, ← cmp_eq_compare, ← hcast.cmp_map_eq, hleft, hright, cmp_mul_pos_right hscale]

section Comparison

variable {d m : Nat} {e q : Int}

theorem compareScaled_eq_lt_iff :
    compareScaled d e m q = .lt ↔ d * (10 : ℚ) ^ e < m * (2 : ℚ) ^ q := by
  rw [compareScaled_eq, cmp_eq_lt_iff]

theorem compareScaled_eq_eq_iff :
    compareScaled d e m q = .eq ↔ d * (10 : ℚ) ^ e = m * (2 : ℚ) ^ q := by
  rw [compareScaled_eq, cmp_eq_eq_iff]

theorem compareScaled_eq_gt_iff :
    compareScaled d e m q = .gt ↔ m * (2 : ℚ) ^ q < d * (10 : ℚ) ^ e := by
  rw [compareScaled_eq, cmp_eq_gt_iff]

end Comparison

namespace Magnitude

/-! ## Intervals -/

/-- Where the interval of a double starts. -/
def lower (x : Magnitude) : ℚ :=
  ((if x.narrowBelow then 4 * x.mantissa - 1 else 4 * x.mantissa - 2 : ℕ) : ℚ) *
    (2 : ℚ) ^ (x.exponent - 2)

/-- Where the interval of a double ends. -/
def upper (x : Magnitude) : ℚ :=
  ((4 * x.mantissa + 2 : ℕ) : ℚ) * (2 : ℚ) ^ (x.exponent - 2)

/-- A decimal reads back if it lies between the ends, or on one of them if the mantissa is even. -/
theorem admits_iff {x : Magnitude} {d : Expansion} :
    x.admits d = true ↔
      (x.lower < d.value ∨ x.mantissa % 2 = 0 ∧ d.value = x.lower) ∧
        (d.value < x.upper ∨ x.mantissa % 2 = 0 ∧ d.value = x.upper) := by
  unfold admits
  simp only [compareScaled_eq_lt_iff, compareScaled_eq_eq_iff, compareScaled_eq_gt_iff,
    Bool.and_eq_true, Bool.or_eq_true, decide_eq_true_eq, Expansion.value, lower, upper]

theorem lower_lt_upper (x : Magnitude) : x.lower < x.upper := by
  unfold lower upper
  refine mul_lt_mul_of_pos_right ?_ (by positivity)
  rw [Nat.cast_lt]
  split <;> omega

theorem lower_pos {x : Magnitude} (hx : 0 < x.mantissa) : 0 < x.lower := by
  unfold lower
  refine mul_pos ?_ (by positivity)
  rw [Nat.cast_pos]
  split <;> omega

theorem value_pos_of_admits {x : Magnitude} {d : Expansion} (hx : 0 < x.mantissa)
    (h : x.admits d = true) : 0 < d.value := by
  have hlower := lower_pos hx
  rcases (admits_iff.1 h).1 with hlt | ⟨-, heq⟩ <;> linarith

/-! ## One interval after the other -/

variable {a b : UInt64} {d d' : Expansion}

theorem ofBits_eq (h : a.toNat < signBit) :
    ofBits a =
      if a.toNat / hiddenBit = 0 then
        { mantissa := a.toNat % hiddenBit, exponent := -1074, narrowBelow := false }
      else
        { mantissa := hiddenBit + a.toNat % hiddenBit
          exponent := ((a.toNat / hiddenBit : ℕ) : ℤ) - 1075
          narrowBelow := a.toNat % hiddenBit = 0 && 1 < a.toNat / hiddenBit } := by
  unfold ofBits
  rw [Nat.mod_eq_of_lt h]

theorem mantissa_pos (h : a.toNat < signBit) (hpos : 0 < a.toNat) : 0 < (ofBits a).mantissa := by
  rw [ofBits_eq h]
  split <;> simp only [hiddenBit] at * <;> omega

/-- The last bit of the mantissa is the last of all. -/
theorem mantissa_mod_two (h : a.toNat < signBit) :
    (ofBits a).mantissa % 2 = a.toNat % 2 := by
  rw [ofBits_eq h]
  split <;> simp only [hiddenBit] <;> omega

/-- Where the exponent stays the same the mantissa grows by one. -/
theorem upper_eq_lower_of_succ {x y : Magnitude} (hmantissa : y.mantissa = x.mantissa + 1)
    (hexponent : y.exponent = x.exponent) (hnarrow : y.narrowBelow = false) :
    x.upper = y.lower := by
  rw [upper, lower, hexponent, hmantissa, hnarrow, if_neg Bool.false_ne_true]
  congr 2

/-- Where the exponent grows by one the mantissa is halved. -/
theorem upper_eq_lower_of_half {x y : Magnitude} (hmantissa : x.mantissa + 1 = 2 * y.mantissa)
    (hexponent : y.exponent = x.exponent + 1) (hnarrow : y.narrowBelow = true) :
    x.upper = y.lower := by
  have hdouble : 4 * x.mantissa + 2 = (4 * y.mantissa - 1) * 2 := by omega
  have hpower : (2 : ℚ) ^ (x.exponent + 1 - 2) = 2 * 2 ^ (x.exponent - 2) := by
    rw [← zpow_one_add₀ two_ne_zero]
    congr 1
    ring
  rw [upper, lower, hexponent, hnarrow, if_pos rfl, hdouble, hpower]
  push_cast
  ring

/-- From one double to the next either the mantissa grows by one or it starts anew with the next
exponent. -/
theorem ofBits_succ (hb : b.toNat < signBit) (hnext : b.toNat = a.toNat + 1) :
    ((ofBits b).mantissa = (ofBits a).mantissa + 1 ∧ (ofBits b).exponent = (ofBits a).exponent ∧
        (ofBits b).narrowBelow = false) ∨
      ((ofBits a).mantissa + 1 = 2 * (ofBits b).mantissa ∧
        (ofBits b).exponent = (ofBits a).exponent + 1 ∧ (ofBits b).narrowBelow = true) := by
  have ha : a.toNat < signBit := by omega
  by_cases hlast : b.toNat % hiddenBit = 0
  · -- the next fraction is the first one of the next field
    have hfield : b.toNat / hiddenBit = a.toNat / hiddenBit + 1 := by
      simp only [hiddenBit] at *
      omega
    have hfraction : a.toNat % hiddenBit + 1 = hiddenBit := by
      simp only [hiddenBit] at *
      omega
    rw [ofBits_eq ha, ofBits_eq hb, hlast, hfield, if_neg (Nat.succ_ne_zero _)]
    by_cases hzero : a.toNat / hiddenBit = 0
    · -- after the last subnormal double the hidden bit is set
      rw [if_pos hzero, hzero]
      exact .inl ⟨hfraction.symm, rfl, by simp⟩
    · rw [if_neg hzero]
      have hmore : 1 < a.toNat / hiddenBit + 1 := Nat.succ_lt_succ (Nat.pos_of_ne_zero hzero)
      refine .inr ⟨?_, ?_, by simp [hmore]⟩
      · dsimp only
        omega
      · dsimp only
        omega
  · have hfield : b.toNat / hiddenBit = a.toNat / hiddenBit := by
      simp only [hiddenBit] at *
      omega
    have hfraction : b.toNat % hiddenBit = a.toNat % hiddenBit + 1 := by
      simp only [hiddenBit] at *
      omega
    rw [ofBits_eq ha, ofBits_eq hb, hfield, hfraction]
    by_cases hzero : a.toNat / hiddenBit = 0
    · rw [if_pos hzero, if_pos hzero]
      exact .inl ⟨rfl, rfl, rfl⟩
    · rw [if_neg hzero, if_neg hzero]
      exact .inl ⟨rfl, rfl, by simp⟩

/-- The interval of a double ends where that of the next one starts. -/
theorem upper_eq_lower (hb : b.toNat < signBit) (hnext : b.toNat = a.toNat + 1) :
    (ofBits a).upper = (ofBits b).lower := by
  rcases ofBits_succ hb hnext with ⟨hmantissa, hexponent, hnarrow⟩ | ⟨hmantissa, hexponent, hnarrow⟩
  · exact upper_eq_lower_of_succ hmantissa hexponent hnarrow
  · exact upper_eq_lower_of_half hmantissa hexponent hnarrow

/-- The interval of a double ends before that of a greater one starts, and not right there unless
there is no double between them. -/
theorem upper_le_lower (hlt : a.toNat < b.toNat) (hb : b.toNat < signBit) :
    (ofBits a).upper ≤ (ofBits b).lower ∧
      (a.toNat + 1 < b.toNat → (ofBits a).upper < (ofBits b).lower) := by
  -- by induction on the number of doubles between them, from the one before the greater
  obtain ⟨k, hk⟩ : ∃ k, b.toNat = a.toNat + 1 + k := ⟨b.toNat - a.toNat - 1, by omega⟩
  induction k generalizing b with
  | zero => exact ⟨(upper_eq_lower hb hk).le, fun h => by omega⟩
  | succ k ih =>
    let c := UInt64.ofNat (b.toNat - 1)
    have hc : c.toNat = b.toNat - 1 :=
      UInt64.toNat_ofNat_of_lt (Nat.lt_of_le_of_lt (Nat.sub_le ..) b.toNat_lt)
    have hbefore : (ofBits a).upper ≤ (ofBits c).lower :=
      (ih (by omega) (by omega) (by omega)).1
    have hbetween : (ofBits c).upper = (ofBits b).lower := upper_eq_lower hb (by omega)
    have hstrict : (ofBits a).upper < (ofBits b).lower :=
      hbetween ▸ hbefore.trans_lt (ofBits c).lower_lt_upper
    exact ⟨hstrict.le, fun _ => hstrict⟩

/-- No value lies in the intervals of two doubles. -/
theorem value_ne_of_lt (hlt : a.toNat < b.toNat) (hb : b.toNat < signBit)
    (hd : (ofBits a).admits d = true) (hd' : (ofBits b).admits d' = true) :
    d.value ≠ d'.value := by
  intro hvalue
  obtain ⟨hle, hstrict⟩ := upper_le_lower hlt hb
  -- the value lies on the common end, and both doubles claim that end
  rcases (admits_iff.1 hd).2 with habove | ⟨heven, hend⟩
  · rcases (admits_iff.1 hd').1 with hbelow | ⟨-, hstart⟩ <;> linarith
  · rcases (admits_iff.1 hd').1 with hbelow | ⟨heven', hstart⟩
    · linarith
    · have hnext : b.toNat = a.toNat + 1 := by
        by_contra hgap
        have := hstrict (by omega)
        linarith
      rw [mantissa_mod_two (by omega)] at heven
      rw [mantissa_mod_two hb] at heven'
      omega

/-- A decimal reads back as one double only. -/
theorem bits_eq_of_admits (ha : a.toNat < signBit) (hb : b.toNat < signBit)
    (hd : (ofBits a).admits d = true) (hd' : (ofBits b).admits d' = true)
    (hvalue : d.value = d'.value) : a = b := by
  rcases Nat.lt_trichotomy a.toNat b.toNat with hlt | heq | hlt
  · exact absurd hvalue (value_ne_of_lt hlt hb hd hd')
  · exact UInt64.toNat_inj.1 heq
  · exact absurd hvalue.symm (value_ne_of_lt hlt ha hd' hd)

/-! ## The decimal that is written -/

theorem value_exact (x : Magnitude) : x.exact.value = x.mantissa * (2 : ℚ) ^ x.exponent := by
  unfold exact Expansion.value
  by_cases hexponent : 0 ≤ x.exponent
  · rw [if_pos hexponent, Nat.cast_mul, power_eq_of_nonneg hexponent, zpow_zero, mul_one,
      Nat.cast_ofNat]
  · -- the fives are taken out again by the power of ten
    have hten : (10 : ℚ) ^ x.exponent = 2 ^ x.exponent * 5 ^ x.exponent := by
      rw [← mul_zpow]
      norm_num
    have hcancel : (5 : ℚ) ^ (-x.exponent) * 5 ^ x.exponent = 1 := by
      rw [zpow_neg]
      exact inv_mul_cancel₀ (by positivity)
    rw [if_neg hexponent, Nat.cast_mul, power_eq_of_nonneg (by omega), hten, Nat.cast_ofNat]
    calc (x.mantissa : ℚ) * 5 ^ (-x.exponent) * (2 ^ x.exponent * 5 ^ x.exponent)
        = x.mantissa * 2 ^ x.exponent * (5 ^ (-x.exponent) * 5 ^ x.exponent) := by ring
      _ = x.mantissa * 2 ^ x.exponent := by rw [hcancel, mul_one]

/-- The value of a double lies in its interval. -/
theorem admits_exact {x : Magnitude} (hx : 0 < x.mantissa) : x.admits x.exact = true := by
  have hquarter : (2 : ℚ) ^ x.exponent = 4 * 2 ^ (x.exponent - 2) := by
    rw [zpow_sub₀ two_ne_zero]
    ring
  have hvalue : x.exact.value = (4 * x.mantissa : ℕ) * (2 : ℚ) ^ (x.exponent - 2) := by
    rw [value_exact, hquarter]
    push_cast
    ring
  have hpower : (0 : ℚ) < 2 ^ (x.exponent - 2) := by positivity
  refine admits_iff.2 ⟨.inl ?_, .inl ?_⟩
  · rw [hvalue, lower]
    refine mul_lt_mul_of_pos_right ?_ hpower
    rw [Nat.cast_lt]
    split <;> omega
  · rw [hvalue, upper]
    refine mul_lt_mul_of_pos_right ?_ hpower
    rw [Nat.cast_lt]
    omega

/-- The decimal that is written reads back. -/
theorem admits_shortest {x : Magnitude} (hx : 0 < x.mantissa) : x.admits x.shortest = true := by
  unfold shortest
  cases hd : x.shortestWithin 17 with
  | none => exact admits_exact hx
  | some d => exact admits_shortestWithin hd

end Magnitude

end Beamline.Decimal
