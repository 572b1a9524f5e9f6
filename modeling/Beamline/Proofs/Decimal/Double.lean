import Mathlib.Algebra.Order.Floor.Semifield
import Mathlib.Data.Rat.Floor
import Beamline.Proofs.Decimal.Nearest

/-!
# Doubles as rationals

The bits of a double are a sign, an exponent field and a fraction. Unpacking them gives the zero,
the infinities and the finite doubles with their mantissa and exponent; packing these gives the same
bits again.

* `toBits_ofBits`: the bits survive, unless they are those of a NaN.
* `valueOf_eq`: the value of a finite double from its bits.
* `one_le_iff`: comparison with one.
* `toNat_toUInt64`: conversion to a natural drops the fraction and saturates.
-/

namespace Beamline.Decimal

open Float.Model (Format UnpackedFloat)
open Float.Model.UnpackedFloat

/-! ## The fields of the bits -/

/-- The sign of the double with the bits `b`. -/
def signOf (b : UInt64) : Sign :=
  if b.toNat < signBit then .positive else .negative

variable {b : UInt64}

theorem toNat_unpackMantissa (b : UInt64) :
    (@unpackMantissa Format.binary64 b.toBitVec).toNat = b.toNat % hiddenBit := by
  simp [unpackMantissa, hiddenBit]

theorem toNat_unpackExponent (b : UInt64) :
    (@unpackExponent Format.binary64 b.toBitVec).toNat =
      b.toNat % signBit / hiddenBit := by
  simp [unpackExponent, Nat.shiftRight_eq_div_pow, hiddenBit, signBit]
  omega

theorem toNat_unpackSign (b : UInt64) :
    (@unpackSign Format.binary64 b.toBitVec).toNat = b.toNat / signBit := by
  have hlt := b.toNat_lt
  show ((b.toBitVec.extractLsb 63 63).cast rfl).toNat = _
  simp [Nat.shiftRight_eq_div_pow, signBit]
  omega

theorem ofBitVec_unpackSign (b : UInt64) :
    Sign.ofBitVec (@unpackSign Format.binary64 b.toBitVec) = signOf b := by
  have hzero : @unpackSign Format.binary64 b.toBitVec = 0#1 ↔ b.toNat < signBit := by
    rw [← BitVec.toNat_inj, toNat_unpackSign, BitVec.toNat_ofNat, Nat.zero_mod,
      Nat.div_eq_zero_iff]
    simp [signBit]
  rw [Sign.ofBitVec, signOf]
  simp only [hzero]

theorem toNat_one_append (m : BitVec 52) : (1#1 ++ m).toNat = hiddenBit + m.toNat := by
  rw [BitVec.toNat_append, ← Nat.shiftLeft_add_eq_or_of_lt m.isLt, Nat.shiftLeft_eq]
  rfl

/-- The exponent field of an infinity or a NaN. -/
theorem unpackExponent_eq_last_iff :
    @unpackExponent Format.binary64 b.toBitVec = -1#_ ↔
      infinityBits ≤ b.toNat % signBit := by
  rw [← BitVec.toNat_inj, toNat_unpackExponent,
    show (-1#11).toNat = lastField by decide]
  simp only [infinityBits, lastField, hiddenBit, signBit]
  omega

/-- The exponent field of a zero or a subnormal double. -/
theorem unpackExponent_eq_zero_iff :
    @unpackExponent Format.binary64 b.toBitVec = 0#_ ↔
      b.toNat % signBit / hiddenBit = 0 := by
  rw [← BitVec.toNat_inj, toNat_unpackExponent]
  rfl

theorem unpackMantissa_eq_zero_iff :
    @unpackMantissa Format.binary64 b.toBitVec = 0#_ ↔ b.toNat % hiddenBit = 0 := by
  rw [← BitVec.toNat_inj, toNat_unpackMantissa]
  rfl

/-- Neither a zero nor an infinity has a fraction. -/
theorem fraction_eq_zero (h : b.toNat % signBit = 0 ∨ b.toNat % signBit = infinityBits) :
    b.toNat % hiddenBit = 0 := by
  simp only [signBit, hiddenBit, infinityBits, lastField] at *
  omega

/-! ## Unpacking -/

theorem unpack_zero (h : b.toNat % signBit = 0) :
    UnpackedFloat.unpack Format.binary64 b.toBitVec = .zero (signOf b) := by
  have hlast : ¬ infinityBits ≤ b.toNat % signBit := by
    simp [h, infinityBits, lastField, hiddenBit]
  have hfield : b.toNat % signBit / hiddenBit = 0 := by
    rw [h, Nat.zero_div]
  unfold UnpackedFloat.unpack
  rw [if_neg (mt unpackExponent_eq_last_iff.1 hlast), if_pos (unpackExponent_eq_zero_iff.2 hfield),
    dif_pos (unpackMantissa_eq_zero_iff.2 (fraction_eq_zero (.inl h))), ofBitVec_unpackSign]

theorem unpack_infinity (h : b.toNat % signBit = infinityBits) :
    UnpackedFloat.unpack Format.binary64 b.toBitVec = .infinity (signOf b) := by
  unfold UnpackedFloat.unpack
  rw [if_pos (unpackExponent_eq_last_iff.2 h.ge),
    if_pos (unpackMantissa_eq_zero_iff.2 (fraction_eq_zero (.inr h))), ofBitVec_unpackSign]

theorem unpack_nan (h : infinityBits < b.toNat % signBit) :
    UnpackedFloat.unpack Format.binary64 b.toBitVec = .notANumber := by
  have hfraction : ¬ b.toNat % hiddenBit = 0 := by
    simp only [signBit, hiddenBit, infinityBits, lastField] at *
    omega
  unfold UnpackedFloat.unpack
  rw [if_pos (unpackExponent_eq_last_iff.2 h.le),
    if_neg (mt unpackMantissa_eq_zero_iff.1 hfraction)]

theorem finite_eq {s s' : Sign} {m m' : Nat} {e e' : Int} (hpos : 0 < m) (hs : s = s')
    (hm : m = m') (he : e = e') :
    ∃ hpos', UnpackedFloat.finite s m e hpos = .finite s' m' e' hpos' := by
  subst hs hm he
  exact ⟨hpos, rfl⟩

theorem unpack_finite (hpos : 0 < b.toNat % signBit) (h : b.toNat % signBit < infinityBits) :
    ∃ hmantissa, UnpackedFloat.unpack Format.binary64 b.toBitVec =
      .finite (signOf b) (Magnitude.ofBits b).mantissa (Magnitude.ofBits b).exponent hmantissa := by
  have hbias : ((Format.binary64.exponentBias : ℤ) + Format.binary64.mantissaBitsWithoutImplicit) =
      1075 := by decide
  unfold UnpackedFloat.unpack Magnitude.ofBits
  rw [if_neg (mt unpackExponent_eq_last_iff.1 h.not_ge)]
  by_cases hfield : b.toNat % signBit / hiddenBit = 0
  · have hfraction : ¬ b.toNat % hiddenBit = 0 := by
      simp only [signBit, hiddenBit] at *
      omega
    rw [if_pos (unpackExponent_eq_zero_iff.2 hfield),
      dif_neg (mt unpackMantissa_eq_zero_iff.1 hfraction), if_pos hfield]
    refine finite_eq _ (ofBitVec_unpackSign b) (toNat_unpackMantissa b) ?_
    rw [toNat_unpackExponent, hfield, hbias]
    rfl
  · rw [if_neg (mt unpackExponent_eq_zero_iff.1 hfield), if_neg hfield]
    refine finite_eq _ (ofBitVec_unpackSign b) ?_ ?_
    · rw [toNat_one_append, toNat_unpackMantissa]
    · rw [toNat_unpackExponent, hbias]

/-! ## Packing -/

theorem toBitVec_ofBitVec (v : BitVec 1) : (Sign.ofBitVec v).toBitVec = v := by
  revert v
  decide

/-- The bits are the sign, the exponent field and the fraction one after the other. -/
theorem packComponents_unpack {e : BitVec 11} {m : BitVec 52}
    (he : @unpackExponent Format.binary64 b.toBitVec = e)
    (hm : @unpackMantissa Format.binary64 b.toBitVec = m) :
    packComponents Format.binary64 (signOf b) e m = b.toBitVec := by
  subst he hm
  have hsign :
      @unpackSign Format.binary64 b.toBitVec = (b.toBitVec.extractLsb 63 63).cast rfl := rfl
  rw [← ofBitVec_unpackSign]
  simp only [packComponents, toBitVec_ofBitVec, hsign, unpackExponent, unpackMantissa,
    BitVec.extractLsb]
  ext i hi
  grind

/-- A double with a short mantissa is packed as a subnormal one. -/
theorem pack_subnormal {s : Sign} {m : Nat} (hpos : 0 < m) (hm : m < hiddenBit) :
    UnpackedFloat.pack Format.binary64 (.finite s m (-1074) hpos) =
      packComponents Format.binary64 s 0#_ (BitVec.ofNat _ m) := by
  have hlog : ¬ m.log2 + 1 = Format.binary64.mantissaBits := by
    have hlt : m.log2 < 52 := (Nat.log2_lt hpos.ne').2 hm
    have hbits : Format.binary64.mantissaBits = 53 := by decide
    omega
  unfold UnpackedFloat.pack
  rw [if_neg (by decide), if_neg hlog]

/-- A double with the hidden bit is packed as a normal one. -/
theorem pack_normal {s : Sign} {m field : Nat} (hpos : 0 < m) (hlow : hiddenBit ≤ m)
    (hm : m < 2 * hiddenBit) (hfield : field < lastField) :
    UnpackedFloat.pack Format.binary64 (.finite s m (field - 1075) hpos) =
      packComponents Format.binary64 s (BitVec.ofNat _ field) (BitVec.ofNat _ m) := by
  have hlog : m.log2 + 1 = Format.binary64.mantissaBits := by
    have hge : 52 ≤ m.log2 := (Nat.le_log2 hpos.ne').2 hlow
    have hlt : m.log2 < 53 := (Nat.log2_lt hpos.ne').2 hm
    have hbits : Format.binary64.mantissaBits = 53 := by decide
    omega
  have hbiased : ((field : ℤ) - 1075 + Format.binary64.exponentBias +
      Format.binary64.mantissaBitsWithoutImplicit).toNat = field := by
    have hbias : ((Format.binary64.exponentBias : ℕ) : ℤ) = 1023 := by decide
    rw [hbias]
    simp only [Nat.cast_ofNat]
    omega
  have hlast : ¬ 2 ^ Format.binary64.exponentBits ≤ field + 1 := by
    simp only [lastField] at hfield
    simp only [Nat.reducePow]
    omega
  unfold UnpackedFloat.pack
  rw [hbiased, if_neg hlast, if_pos hlog]

/-- Packing a double that is not a NaN gives its bits back. -/
theorem pack_unpack (h : b.toNat % signBit ≤ infinityBits) :
    UnpackedFloat.pack Format.binary64 (UnpackedFloat.unpack Format.binary64 b.toBitVec) =
      b.toBitVec := by
  -- of each kind the exponent field and the fraction are those that were unpacked
  rcases h.eq_or_lt with hlast | hfinite
  · rw [unpack_infinity hlast]
    exact packComponents_unpack (unpackExponent_eq_last_iff.2 hlast.ge)
      (unpackMantissa_eq_zero_iff.2 (fraction_eq_zero (.inr hlast)))
  rcases Nat.eq_zero_or_pos (b.toNat % signBit) with hzero | hpos
  · rw [unpack_zero hzero]
    refine packComponents_unpack (unpackExponent_eq_zero_iff.2 ?_)
      (unpackMantissa_eq_zero_iff.2 (fraction_eq_zero (.inl hzero)))
    rw [hzero, Nat.zero_div]
  obtain ⟨hmantissa, hunpack⟩ := unpack_finite hpos hfinite
  rw [hunpack]
  have hfraction := toNat_unpackMantissa b
  generalize hx : Magnitude.ofBits b = x at hmantissa ⊢
  unfold Magnitude.ofBits at hx
  by_cases hfield : b.toNat % signBit / hiddenBit = 0
  · rw [if_pos hfield] at hx
    subst hx
    rw [pack_subnormal hmantissa (Nat.mod_lt _ (by decide)), ← hfraction, BitVec.ofNat_toNat]
    exact packComponents_unpack (unpackExponent_eq_zero_iff.2 hfield) (BitVec.setWidth_eq _).symm
  · rw [if_neg hfield] at hx
    subst hx
    rw [pack_normal hmantissa (Nat.le_add_right ..) ?_ ?_]
    · -- the hidden bit does not fit into the fraction, and so it is dropped
      refine packComponents_unpack ?_ ?_
      · rw [← toNat_unpackExponent, BitVec.ofNat_toNat, BitVec.setWidth_eq]
      · rw [← BitVec.toNat_inj, hfraction, BitVec.toNat_ofNat]
        simp only [hiddenBit]
        omega
    · have hlt := Nat.mod_lt b.toNat (show 0 < hiddenBit by decide)
      dsimp only
      omega
    · exact (Nat.div_lt_iff_lt_mul (by decide)).2 hfinite

/-! ## Values -/

variable {x y : Float}

theorem toBits_ofBits (h : b.toNat % signBit ≤ infinityBits) : (Float.ofBits b).toBits = b := by
  show UInt64.ofBitVec (UnpackedFloat.pack Format.binary64
    (UnpackedFloat.unpack Format.binary64 b.toBitVec)) = b
  rw [pack_unpack h]

theorem unpack_toModel (x : Float) :
    x.toModel.unpack = UnpackedFloat.unpack Format.binary64 x.toBits.toBitVec :=
  rfl

/-- The value of a finite double. -/
def valueOf (x : Float) : ℚ :=
  match x.toModel.unpack with
  | .finite sign mantissa exponent _ => sign.apply mantissa * (2 : ℚ) ^ exponent
  | _ => 0

theorem valueOf_of_unpack {sign : Sign} {m : Nat} {e : Int} {hpos : 0 < m}
    (h : x.toModel.unpack = .finite sign m e hpos) :
    valueOf x = sign.apply m * (2 : ℚ) ^ e := by
  rw [valueOf, h]

theorem negative_apply_mul_nonpos (x : Magnitude) :
    (Sign.negative.apply x.mantissa : ℚ) * 2 ^ x.exponent ≤ 0 := by
  refine mul_nonpos_of_nonpos_of_nonneg ?_ (by positivity)
  simp [Sign.apply]

theorem isFinite_iff : x.isFinite = true ↔ x.toBits.toNat % signBit < infinityBits := by
  show x.toModel.unpack.isFinite = true ↔ _
  rw [unpack_toModel]
  rcases Nat.lt_trichotomy (x.toBits.toNat % signBit) infinityBits with hlt | heq | hlt
  · refine iff_of_true ?_ hlt
    rcases Nat.eq_zero_or_pos (x.toBits.toNat % signBit) with hzero | hpos
    · rw [unpack_zero hzero]
      rfl
    · obtain ⟨_, hunpack⟩ := unpack_finite hpos hlt
      rw [hunpack]
      rfl
  · rw [unpack_infinity heq]
    exact iff_of_false Bool.false_ne_true heq.not_lt
  · rw [unpack_nan hlt]
    exact iff_of_false Bool.false_ne_true hlt.not_gt

/-- The sign does not belong to the magnitude. -/
theorem ofBits_eq_nth (b : UInt64) : Magnitude.ofBits b = Magnitude.nth (b.toNat % signBit) := by
  have hbits : (UInt64.ofNat (b.toNat % signBit)).toNat = b.toNat % signBit :=
    UInt64.toNat_ofNat_of_lt ((Nat.mod_le ..).trans_lt b.toNat_lt)
  have hfraction : b.toNat % signBit % hiddenBit = b.toNat % hiddenBit :=
    Nat.mod_mod_of_dvd _ (by decide)
  rw [Magnitude.nth, Magnitude.ofBits, Magnitude.ofBits, hbits, Nat.mod_mod, hfraction]

/-- One with a sign. -/
def signedOne (s : Sign) : ℚ :=
  s.apply 1

theorem abs_signedOne_mul (s : Sign) (q : ℚ) : |signedOne s * q| = |q| := by
  cases s <;> simp [signedOne, Sign.apply]

/-- The value of a finite double from its bits. -/
theorem valueOf_eq (h : x.isFinite = true) :
    valueOf x = signedOne (signOf x.toBits) *
      (Magnitude.nth (x.toBits.toNat % signBit)).value := by
  rw [isFinite_iff] at h
  rw [← ofBits_eq_nth]
  rcases Nat.eq_zero_or_pos (x.toBits.toNat % signBit) with hzero | hpos
  · rw [valueOf, unpack_toModel, unpack_zero hzero, ofBits_eq_nth, hzero,
      Magnitude.value_nth_zero, mul_zero]
  · obtain ⟨_, hunpack⟩ := unpack_finite hpos h
    rw [valueOf_of_unpack hunpack, Magnitude.value, ← mul_assoc]
    cases signOf x.toBits <;> simp [signedOne, Sign.apply]

theorem abs_valueOf (h : x.isFinite = true) :
    |valueOf x| = (Magnitude.nth (x.toBits.toNat % signBit)).value := by
  rw [valueOf_eq h, abs_signedOne_mul, abs_of_nonneg (Magnitude.value_nonneg _)]

/-! ## Comparison with one -/

/-- A mantissa has 53 bits, or fewer with the least exponent. -/
theorem mantissa_bounds (b : UInt64) :
    (Magnitude.ofBits b).mantissa < 2 ^ 53 ∧
      (2 ^ 52 ≤ (Magnitude.ofBits b).mantissa ∨ (Magnitude.ofBits b).exponent = -1074) := by
  have hfraction := Nat.mod_lt b.toNat (show 0 < hiddenBit by decide)
  unfold Magnitude.ofBits
  dsimp only
  split
  · exact ⟨hfraction.trans (by decide), .inr rfl⟩
  · exact ⟨Nat.add_lt_add_left hfraction hiddenBit, .inl (Nat.le_add_right ..)⟩

/-- Of two doubles the one with the greater exponent is greater. -/
theorem one_le_scaled_iff {m : Nat} {e : Int} (hm : m < 2 ^ 53) (hnormal : 2 ^ 52 ≤ m ∨ e = -1074) :
    (1 : ℚ) ≤ m * 2 ^ e ↔ -52 < e ∨ e = -52 ∧ 2 ^ 52 ≤ m := by
  have hone : (1 : ℚ) = 2 ^ (52 : ℤ) * 2 ^ (-52 : ℤ) := by
    rw [← zpow_add₀ two_ne_zero]
    rfl
  rcases lt_trichotomy e (-52) with hlt | rfl | hlt
  · -- with a smaller exponent even the greatest mantissa falls short of one
    refine iff_of_false (not_le_of_gt ?_) (by omega)
    calc (m : ℚ) * 2 ^ e
        < 2 ^ (53 : ℤ) * 2 ^ e := by
          refine mul_lt_mul_of_pos_right ?_ (by positivity)
          exact_mod_cast hm
      _ ≤ 2 ^ (53 : ℤ) * 2 ^ (-53 : ℤ) := by
          refine mul_le_mul_of_nonneg_left ?_ (by positivity)
          exact zpow_le_zpow_right₀ one_le_two (by omega)
      _ = 1 := by
          rw [← zpow_add₀ two_ne_zero]
          rfl
  · have hiff : (1 : ℚ) ≤ m * 2 ^ (-52 : ℤ) ↔ (2 : ℚ) ^ (52 : ℤ) ≤ m := by
      nth_rewrite 1 [hone]
      exact mul_le_mul_iff_of_pos_right (by positivity)
    rw [hiff]
    norm_cast
    simp
  · -- with a greater one the double is normal, and the least mantissa is enough
    have hlow : 2 ^ 52 ≤ m := hnormal.resolve_right (by omega)
    refine iff_of_true ?_ (.inl hlt)
    calc (1 : ℚ) = 2 ^ (52 : ℤ) * 2 ^ (-52 : ℤ) := hone
      _ ≤ m * 2 ^ e := by
          refine mul_le_mul ?_ (zpow_le_zpow_right₀ one_le_two hlt.le) (by positivity)
            (by positivity)
          exact_mod_cast hlow

theorem le_iff : x ≤ y ↔
    (UnpackedFloat.compare x.toModel.unpack y.toModel.unpack).any (·.isLE) = true := by
  show decide (x.toModel.unpack.le y.toModel.unpack = true) = true ↔ _
  rw [decide_eq_true_iff]
  rfl

/-- One is the double `2 ^ 52 * 2 ^ (-52)`. -/
theorem unpack_one :
    ∃ hpos, (1.0 : Float).toModel.unpack = .finite .positive (2 ^ 52) (-52) hpos := by
  have hbits : (1.0 : Float).toBits = 0x3FF0000000000000 := by decide +kernel
  rw [unpack_toModel, hbits]
  exact unpack_finite (b := 0x3FF0000000000000) (by decide) (by decide)

theorem one_le_iff (h : x.isFinite = true) : 1.0 ≤ x ↔ 1 ≤ valueOf x := by
  obtain ⟨_, hone⟩ := unpack_one
  rw [isFinite_iff] at h
  rw [le_iff, hone]
  rcases Nat.eq_zero_or_pos (x.toBits.toNat % signBit) with hzero | hpos
  · rw [valueOf, unpack_toModel, unpack_zero hzero]
    exact iff_of_false Bool.false_ne_true (by norm_num)
  · obtain ⟨hmantissa, hunpack⟩ := unpack_finite hpos h
    obtain ⟨hlt, hnormal⟩ := mantissa_bounds x.toBits
    rw [valueOf_of_unpack hunpack, unpack_toModel, hunpack]
    cases signOf x.toBits with
    | negative =>
      have hbelow := (negative_apply_mul_nonpos (Magnitude.ofBits x.toBits)).trans_lt one_pos
      exact iff_of_false Bool.false_ne_true hbelow.not_ge
    | positive =>
      show ((compare (-52) (Magnitude.ofBits x.toBits).exponent).then
        (compare (2 ^ 52) (Magnitude.ofBits x.toBits).mantissa)).isLE = true ↔
          1 ≤ ((Magnitude.ofBits x.toBits).mantissa : ℚ) * 2 ^ (Magnitude.ofBits x.toBits).exponent
      rw [one_le_scaled_iff hlt hnormal, Ordering.isLE_then_iff_or, Int.compare_eq_lt,
        Nat.isLE_compare, compare_eq_iff_eq, eq_comm (a := (-52 : ℤ))]

/-! ## Conversion to a natural -/

theorem shiftRight_mantissa (em : ExtendedMantissa) (count : Nat) :
    (em >>> count).mantissa = em.mantissa / 2 ^ count := by
  induction count with
  | zero => exact (Nat.div_one _).symm
  | succ count ih =>
    show (em >>> count).mantissa / 2 = _
    rw [ih, Nat.div_div_eq_div_mul, Nat.pow_succ]

/-- Rounding to an integer drops the fraction of the magnitude. -/
theorem roundToInt_eq (s : Sign) (m : Nat) (e : Int) :
    roundToInt s m e = s.apply ⌊(m : ℚ) * 2 ^ e⌋₊ := by
  -- one of the two powers is one, according to the sign of the exponent
  have hfloor : ⌊(m : ℚ) * 2 ^ e⌋₊ = m * 2 ^ e.toNat / 2 ^ (-e).toNat := by
    have hpower : (2 : ℚ) ^ e = (2 ^ e.toNat : ℕ) / (2 ^ (-e).toNat : ℕ) := by
      push_cast
      rw [← zpow_natCast, ← zpow_natCast, ← zpow_sub₀ two_ne_zero]
      congr 1
      omega
    rw [hpower, ← mul_div_assoc, ← Nat.cast_mul, Nat.floor_div_eq_div]
  have hshift : (0 - (e - e.toNat)).toNat = (-e).toNat := by omega
  simp only [roundToInt, decreaseExponent, shiftToExponent, shiftRight_mantissa, sub_zero, hshift,
    Nat.shiftLeft_eq, hfloor]
  rfl

theorem toNat_ofNatClamp (n : Nat) : (UInt64.ofNatClamp n).toNat = min n (UInt64.size - 1) := by
  unfold UInt64.ofNatClamp
  split
  next h =>
    rw [Nat.min_eq_left (by omega)]
    rfl
  next h =>
    rw [Nat.min_eq_right (by omega)]
    rfl

/-- A finite double is converted to the natural below it; negative ones saturate at zero, great ones
at the greatest of the type. -/
theorem toNat_toUInt64 (h : x.isFinite = true) :
    x.toUInt64.toNat = min ⌊valueOf x⌋₊ (UInt64.size - 1) := by
  rw [isFinite_iff] at h
  show (UInt64.ofNatClamp
    (UnpackedFloat.toInt 0 (UInt64.size - 1) x.toModel.unpack).toNat).toNat = _
  rw [toNat_ofNatClamp]
  congr 1
  rcases Nat.eq_zero_or_pos (x.toBits.toNat % signBit) with hzero | hpos
  · rw [valueOf, unpack_toModel, unpack_zero hzero]
    exact Nat.floor_zero.symm
  · obtain ⟨hmantissa, hunpack⟩ := unpack_finite hpos h
    rw [valueOf_of_unpack hunpack, unpack_toModel, hunpack]
    show (roundToInt (signOf x.toBits) _ _).toNat = _
    rw [roundToInt_eq]
    cases signOf x.toBits with
    | negative =>
      rw [Nat.floor_of_nonpos (negative_apply_mul_nonpos _)]
      simp only [Sign.apply]
      omega
    | positive => simp only [Sign.apply, Int.cast_natCast, Int.toNat_natCast]

theorem toNat_toUInt64_of_infinity (h : x.toModel.unpack = .infinity .positive) :
    x.toUInt64.toNat = UInt64.size - 1 := by
  show (UInt64.ofNatClamp
    (UnpackedFloat.toInt 0 (UInt64.size - 1) x.toModel.unpack).toNat).toNat = _
  rw [toNat_ofNatClamp, h]
  rfl

end Beamline.Decimal
