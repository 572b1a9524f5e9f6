import Mathlib.Algebra.Order.Group.Abs
import Mathlib.Tactic.LinearCombination
import Beamline.Decimal.Nearest
import Beamline.Proofs.Decimal.Intervals

/-!
# The search for the nearest double

The finite doubles without a sign are counted by their bits, and infinity comes after the last of
them. Each interval ends halfway between its double and the next one. So the last double whose
interval begins at or below a decimal is the one nearest it, and where the decimal lies halfway
between two doubles the search ends at the one with the even mantissa.

* `Expansion.reaches_iff_le_nearestBits`: what the search finds.
* `Expansion.dist_nearestBits_le`: no double is nearer.
* `Expansion.even_nearestBits`: of two that are equally near the one with the even mantissa is
  taken.
* `Expansion.nearestBits_eq_infinityBits_iff`: the decimals that are too great for a double.
* `Expansion.nearestBits_shortest`: what is written for a double is read as that double.
-/

namespace Beamline.Decimal

/-! ## The doubles in order -/

namespace Magnitude

/-- The value of a double without its sign. -/
def value (x : Magnitude) : ℚ :=
  x.mantissa * (2 : ℚ) ^ x.exponent

theorem value_nonneg (x : Magnitude) : 0 ≤ x.value := by
  unfold value
  positivity

/-- The `k`-th double without a sign. -/
def nth (k : Nat) : Magnitude :=
  ofBits (.ofNat k)

theorem toNat_ofNat_of_le {k : Nat} (hk : k ≤ infinityBits) : (UInt64.ofNat k).toNat = k := by
  refine UInt64.toNat_ofNat_of_lt (Nat.lt_of_le_of_lt hk ?_)
  decide

theorem infinityBits_lt_signBit : infinityBits < signBit := by
  decide

theorem toNat_ofNat_lt_signBit {k : Nat} (hk : k ≤ infinityBits) :
    (UInt64.ofNat k).toNat < signBit := by
  rw [toNat_ofNat_of_le hk]
  exact hk.trans_lt infinityBits_lt_signBit

variable {j k : Nat}

theorem nth_mantissa_mod_two (hk : k ≤ infinityBits) : (nth k).mantissa % 2 = k % 2 := by
  rw [nth, mantissa_mod_two (toNat_ofNat_lt_signBit hk), toNat_ofNat_of_le hk]

theorem upper_nth (hk : k < infinityBits) : (nth k).upper = (nth (k + 1)).lower := by
  refine upper_eq_lower (toNat_ofNat_lt_signBit hk) ?_
  rw [toNat_ofNat_of_le hk, toNat_ofNat_of_le hk.le]

theorem upper_nth_le (hlt : j < k) (hk : k ≤ infinityBits) : (nth j).upper ≤ (nth k).lower := by
  refine (upper_le_lower ?_ (toNat_ofNat_lt_signBit hk)).1
  rwa [toNat_ofNat_of_le hk, toNat_ofNat_of_le (hlt.le.trans hk)]

/-- An interval ends half a unit of the last place above its double. -/
theorem upper_eq_add (x : Magnitude) : x.upper = x.value + (2 : ℚ) ^ x.exponent / 2 := by
  have hquarter : (2 : ℚ) ^ x.exponent = 4 * 2 ^ (x.exponent - 2) := by
    rw [zpow_sub₀ two_ne_zero]
    ring
  rw [upper, value, hquarter]
  push_cast
  ring

/-- The next double is a unit of the last place away. -/
theorem value_nth_succ (hk : k < infinityBits) :
    (nth (k + 1)).value = (nth k).value + (2 : ℚ) ^ (nth k).exponent := by
  have hnext : (UInt64.ofNat (k + 1)).toNat = (UInt64.ofNat k).toNat + 1 := by
    rw [toNat_ofNat_of_le hk, toNat_ofNat_of_le hk.le]
  unfold value nth
  rcases ofBits_succ (toNat_ofNat_lt_signBit hk) hnext with
    ⟨hmantissa, hexponent, -⟩ | ⟨hmantissa, hexponent, -⟩
  · rw [hmantissa, hexponent]
    push_cast
    ring
  · -- the mantissa counts twice as much with the next exponent
    have hdouble : ((ofBits (.ofNat k)).mantissa : ℚ) + 1 =
        2 * (ofBits (.ofNat (k + 1))).mantissa := by
      exact_mod_cast hmantissa
    rw [hexponent, zpow_add_one₀ two_ne_zero]
    linear_combination (2 : ℚ) ^ (ofBits (.ofNat k)).exponent * -hdouble

/-- An interval ends halfway to the next double. -/
theorem upper_nth_eq_midpoint (hk : k < infinityBits) :
    (nth k).upper = ((nth k).value + (nth (k + 1)).value) / 2 := by
  rw [upper_eq_add, value_nth_succ hk]
  ring

/-- The values ascend with the bits. -/
theorem value_nth_lt (hlt : j < k) (hk : k ≤ infinityBits) : (nth j).value < (nth k).value := by
  have hgap (i : Nat) : (0 : ℚ) < 2 ^ (nth i).exponent := by positivity
  induction k, hlt using Nat.le_induction with
  | base =>
    rw [value_nth_succ hk]
    exact lt_add_of_pos_right _ (hgap j)
  | succ k _ ih =>
    rw [value_nth_succ hk]
    exact (ih (by omega)).trans (lt_add_of_pos_right _ (hgap k))

theorem value_nth_le (hle : j ≤ k) (hk : k ≤ infinityBits) : (nth j).value ≤ (nth k).value := by
  rcases hle.eq_or_lt with rfl | hlt
  · exact le_rfl
  · exact (value_nth_lt hlt hk).le

theorem value_nth_zero : (nth 0).value = 0 := by
  rw [value, show (nth 0).mantissa = 0 by decide]
  simp

/-- The interval of infinity begins halfway between the greatest double and the power of two that
would come next. -/
theorem lower_nth_infinityBits : (nth infinityBits).lower = 2 ^ 1024 - 2 ^ 970 := by
  have hnth : nth infinityBits =
      { mantissa := hiddenBit, exponent := 972, narrowBelow := true } := by
    decide
  have hpower : (2 : ℚ) ^ 1024 = 2 ^ 54 * 2 ^ 970 := by
    rw [← pow_add]
  have hlower : ((4 * hiddenBit - 1 : ℕ) : ℚ) = 2 ^ 54 - 1 := by
    norm_num [hiddenBit]
  rw [hnth, lower, if_pos rfl, hlower, hpower, sub_one_mul]
  rfl

/-- Where the interval of `x` begins. -/
theorem begins_iff {x : Magnitude} {d : Expansion} :
    x.begins d = true ↔ x.lower < d.value ∨ x.mantissa % 2 = 0 ∧ d.value = x.lower := by
  unfold begins
  simp only [compareScaled_eq_eq_iff, compareScaled_eq_gt_iff, Bool.and_eq_true, Bool.or_eq_true,
    decide_eq_true_eq, Expansion.value, lower]

end Magnitude

/-! ## The search -/

namespace Expansion

open Magnitude

variable {d : Expansion} {j k : Nat}

theorem value_nonneg (d : Expansion) : 0 ≤ d.value := by
  unfold Expansion.value
  positivity

theorem reaches_iff :
    d.reaches k = true ↔ k ≤ infinityBits ∧
      ((nth k).lower < d.value ∨ k % 2 = 0 ∧ d.value = (nth k).lower) := by
  rw [reaches, Bool.and_eq_true, decide_eq_true_eq]
  refine and_congr_right fun hk => ?_
  rw [← nth_mantissa_mod_two hk]
  exact begins_iff

/-- The interval of every smaller double begins below `d` as well. -/
theorem reaches_of_le (hle : j ≤ k) (h : d.reaches k = true) : d.reaches j = true := by
  rcases hle.eq_or_lt with rfl | hlt
  · exact h
  · obtain ⟨hk, hbegins⟩ := reaches_iff.1 h
    have hbelow : (nth j).lower < (nth k).lower :=
      (nth j).lower_lt_upper.trans_le (upper_nth_le hlt hk)
    refine reaches_iff.2 ⟨hle.trans hk, .inl ?_⟩
    rcases hbegins with hlower | ⟨-, hlower⟩
    · exact hbelow.trans hlower
    · exact hlower ▸ hbelow

theorem reaches_zero (d : Expansion) : d.reaches 0 = true := by
  have hlower : (nth 0).lower = 0 := by
    rw [lower, show nth 0 = { mantissa := 0, exponent := -1074, narrowBelow := false } by decide]
    simp
  refine reaches_iff.2 ⟨Nat.zero_le _, ?_⟩
  rw [hlower]
  exact d.value_nonneg.lt_or_eq.imp_right fun h => ⟨rfl, h.symm⟩

theorem climb_succ (d : Expansion) (count bits : Nat) :
    d.climb (count + 1) bits =
      d.climb count (if d.reaches (bits + 2 ^ count) then bits + 2 ^ count else bits) :=
  rfl

/-- The search ends at the greatest of the doubles that it may reach. -/
theorem climb_spec {count bits : Nat} (h : d.reaches bits = true) :
    d.reaches (d.climb count bits) = true ∧
      ∀ k < bits + 2 ^ count, d.reaches k = true → k ≤ d.climb count bits := by
  -- by induction on the bits that are left; with all of them set the number stays below the bound
  induction count generalizing bits with
  | zero => exact ⟨h, fun k hk _ => Nat.le_of_lt_succ hk⟩
  | succ count ih =>
    rw [climb_succ, Nat.pow_succ]
    split
    next hset =>
      obtain ⟨hreaches, hmax⟩ := ih hset
      exact ⟨hreaches, fun k hk => hmax k (by omega)⟩
    next hunset =>
      obtain ⟨hreaches, hmax⟩ := ih h
      refine ⟨hreaches, fun k _ hk => hmax k ?_ hk⟩
      -- with the bit set the interval begins above `d`, and so does every later one
      by_contra hbit
      exact hunset (reaches_of_le (Nat.le_of_not_lt hbit) hk)

/-- The nearest double is the last one whose interval begins at or below `d`. -/
theorem reaches_iff_le_nearestBits : d.reaches k = true ↔ k ≤ d.nearestBits := by
  obtain ⟨hreaches, hmax⟩ : d.reaches d.nearestBits = true ∧
      ∀ k < 0 + 2 ^ 63, d.reaches k = true → k ≤ d.nearestBits := climb_spec d.reaches_zero
  refine ⟨fun hk => hmax k ?_ hk, fun hle => reaches_of_le hle hreaches⟩
  rw [Nat.zero_add]
  exact (reaches_iff.1 hk).1.trans_lt infinityBits_lt_signBit

theorem nearestBits_le (d : Expansion) : d.nearestBits ≤ infinityBits :=
  (reaches_iff.1 (reaches_iff_le_nearestBits.2 le_rfl)).1

/-- The decimals that are too great for a double. -/
theorem nearestBits_eq_infinityBits_iff :
    d.nearestBits = infinityBits ↔ (2 : ℚ) ^ 1024 - 2 ^ 970 ≤ d.value := by
  have hreaches : d.nearestBits = infinityBits ↔ d.reaches infinityBits = true := by
    rw [reaches_iff_le_nearestBits]
    exact d.nearestBits_le.ge_iff_eq.symm
  have heven : infinityBits % 2 = 0 := by decide
  rw [hreaches, reaches_iff, lower_nth_infinityBits, and_iff_right (Nat.le_refl _),
    and_iff_right heven, le_iff_lt_or_eq, eq_comm (a := d.value)]

/-! ## Nearest, with ties to even -/

/-- `d` does not lie above the end of the interval, nor on it if the mantissa is odd. -/
theorem value_le_upper (h : d.nearestBits < infinityBits) :
    d.value ≤ (nth d.nearestBits).upper ∧
      (d.value = (nth d.nearestBits).upper → d.nearestBits % 2 = 0) := by
  have hnot : ¬ d.reaches (d.nearestBits + 1) = true := fun hreaches =>
    absurd (reaches_iff_le_nearestBits.1 hreaches) (Nat.not_succ_le_self _)
  rw [reaches_iff, ← upper_nth h] at hnot
  have hlower := fun hlt => hnot ⟨h, .inl hlt⟩
  have hend := fun heven heq => hnot ⟨h, .inr ⟨heven, heq⟩⟩
  refine ⟨le_of_not_gt hlower, fun heq => ?_⟩
  by_contra hodd
  exact hend (by omega) heq

/-- `d` does not lie below the start of the interval, nor on it if the mantissa is odd. -/
theorem lower_le_value (d : Expansion) :
    (nth d.nearestBits).lower ≤ d.value ∧
      (d.value = (nth d.nearestBits).lower → d.nearestBits % 2 = 0) := by
  have hreaches := reaches_iff_le_nearestBits.2 (le_refl d.nearestBits)
  obtain ⟨-, hlt | ⟨heven, heq⟩⟩ := reaches_iff.1 hreaches
  · exact ⟨hlt.le, fun h => absurd h hlt.ne'⟩
  · exact ⟨heq.ge, fun _ => heven⟩

/-- The distance to a double beyond the nearest one. -/
theorem dist_nearestBits_above (hk : d.nearestBits < k) (hfinite : k ≤ infinityBits) :
    |d.value - (nth d.nearestBits).value| ≤ |d.value - (nth k).value| ∧
      (|d.value - (nth k).value| = |d.value - (nth d.nearestBits).value| →
        d.nearestBits % 2 = 0) := by
  have hlt := hk.trans_le hfinite
  obtain ⟨hupper, hend⟩ := value_le_upper hlt
  rw [upper_nth_eq_midpoint hlt] at hupper hend
  -- `d` lies at most halfway to the next double, and the other one is that or lies behind it
  have hnext := value_nth_lt (Nat.lt_succ_self d.nearestBits) hlt
  have hbeyond := value_nth_le hk hfinite
  have hdist : |d.value - (nth k).value| = (nth k).value - d.value := by
    rw [abs_sub_comm]
    exact abs_of_nonneg (by linarith)
  rw [hdist]
  refine ⟨abs_le.2 ⟨by linarith, by linarith⟩, fun heq => hend ?_⟩
  rcases abs_choice (d.value - (nth d.nearestBits).value) with habs | habs <;> linarith

/-- The distance to a double before the nearest one. -/
theorem dist_nearestBits_below (hk : k < d.nearestBits) :
    |d.value - (nth d.nearestBits).value| ≤ |d.value - (nth k).value| ∧
      (|d.value - (nth k).value| = |d.value - (nth d.nearestBits).value| →
        d.nearestBits % 2 = 0) := by
  obtain ⟨hlower, hstart⟩ := d.lower_le_value
  obtain ⟨m, hm⟩ := Nat.exists_eq_succ_of_ne_zero (Nat.ne_zero_of_lt hk)
  have hmlt : m < infinityBits := by
    have := d.nearestBits_le
    omega
  rw [hm, ← upper_nth hmlt, upper_nth_eq_midpoint hmlt] at hlower hstart
  rw [hm]
  -- `d` lies at least halfway from the double before, and the other one is that or lies before it
  have hnext := value_nth_lt (Nat.lt_succ_self m) hmlt
  have hbefore := value_nth_le (show k ≤ m by omega) hmlt.le
  have hdist : |d.value - (nth k).value| = d.value - (nth k).value :=
    abs_of_nonneg (by linarith)
  rw [hdist]
  refine ⟨abs_le.2 ⟨by linarith, by linarith⟩, fun heq => hstart ?_⟩
  rcases abs_choice (d.value - (nth (m + 1)).value) with habs | habs <;> linarith

/-- No double is nearer than the one that is found. -/
theorem dist_nearestBits_le (hk : k < infinityBits) :
    |d.value - (nth d.nearestBits).value| ≤ |d.value - (nth k).value| := by
  rcases Nat.lt_trichotomy d.nearestBits k with hlt | rfl | hlt
  · exact (dist_nearestBits_above hlt hk.le).1
  · exact le_rfl
  · exact (dist_nearestBits_below hlt).1

/-- Of two doubles that are equally near the one with the even mantissa is found. -/
theorem even_nearestBits (hk : k < infinityBits) (hne : k ≠ d.nearestBits)
    (hdist : |d.value - (nth k).value| = |d.value - (nth d.nearestBits).value|) :
    d.nearestBits % 2 = 0 := by
  rcases Nat.lt_or_gt_of_ne hne with hlt | hlt
  · exact (dist_nearestBits_below hlt).2 hdist
  · exact (dist_nearestBits_above hlt hk.le).2 hdist

/-! ## Reading what was written -/

/-- A decimal in the interval of a double is read as that double. -/
theorem nearestBits_of_admits (hk : k < infinityBits) (h : (nth k).admits d = true) :
    d.nearestBits = k := by
  obtain ⟨hlower, hupper⟩ := admits_iff.1 h
  rw [nth_mantissa_mod_two hk.le, upper_nth hk] at hupper
  rw [nth_mantissa_mod_two hk.le] at hlower
  refine Nat.le_antisymm (Nat.le_of_not_lt fun hnext => ?_)
    (reaches_iff_le_nearestBits.1 (reaches_iff.2 ⟨hk.le, hlower⟩))
  -- only one of two neighbours is even, so that the common end belongs to one of them
  obtain ⟨-, hbegins⟩ := reaches_iff.1 (reaches_iff_le_nearestBits.2 hnext)
  rcases hbegins with hlt | ⟨heven, heq⟩
  · rcases hupper with hlt' | ⟨-, heq⟩ <;> linarith
  · rcases hupper with hlt | ⟨heven', -⟩
    · linarith
    · omega

/-- The decimal that is written for a double is read as that double. -/
theorem nearestBits_shortest (hpos : 0 < k) (hk : k < infinityBits) :
    (nth k).shortest.nearestBits = k := by
  refine nearestBits_of_admits hk (admits_shortest ?_)
  refine mantissa_pos (toNat_ofNat_lt_signBit hk.le) ?_
  rwa [toNat_ofNat_of_le hk.le]

end Expansion

end Beamline.Decimal
