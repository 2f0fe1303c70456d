import Mathlib

/-!
# Floats and powers of two

The product of a float and a power of two is exact unless it overflows, because rounding drops only
zeros of its mantissa. So where the products of one float with growing powers of two are converted
to integers, the results grow. The floats are the ones of the logical model of `Float32` and `Float`.
-/

namespace MpmcMap.Floats

open Float.Model (Format UnpackedFloat totalExponent)
open Float.Model.UnpackedFloat

variable {spec : Format} {s : Sign} {m n : Nat} {e c : Int}

/-! ## Finite floats -/

/-- The mantissa and the exponent are the ones that the format asks for. -/
def Canonical (spec : Format) (m : Nat) (e : Int) : Prop :=
  spec.targetExponent (totalExponent m e) = e

/-- The absolute value of a finite float. -/
def value (m : Nat) (e : Int) : ℚ := m * 2 ^ e

theorem value_nonneg (m : Nat) (e : Int) : 0 ≤ value m e :=
  mul_nonneg (Nat.cast_nonneg m) (zpow_nonneg zero_le_two e)

theorem value_mul_pow (m n : Nat) (e : Int) : value (m * 2 ^ n) e = value m (e + n) := by
  unfold value
  push_cast
  rw [zpow_add₀ two_ne_zero, zpow_natCast, mul_assoc, mul_comm (2 ^ n : ℚ)]

/-- A canonical mantissa fits its format. -/
theorem Canonical.log2_lt (h : Canonical spec m e) : m.log2 < spec.mantissaBits := by
  unfold Canonical Format.targetExponent totalExponent at h
  omega

theorem Canonical.min_le (h : Canonical spec m e) : spec.minExponent ≤ e := by
  unfold Canonical Format.targetExponent at h
  omega

/-- A mantissa that does not fill its format has the smallest exponent. -/
theorem Canonical.eq_min (h : Canonical spec m e) (hm : m.log2 + 1 ≠ spec.mantissaBits) :
    e = spec.minExponent := by
  unfold Canonical Format.targetExponent totalExponent at h
  omega

theorem log2_mul_pow (hm : 0 < m) (n : Nat) : (m * 2 ^ n).log2 = m.log2 + n := by
  rw [Nat.log2_eq_iff (by positivity), pow_add, show m.log2 + n + 1 = m.log2 + 1 + n by omega,
    pow_add]
  obtain ⟨hle, hlt⟩ := (Nat.log2_eq_iff hm.ne').mp (rfl : m.log2 = m.log2)
  exact ⟨Nat.mul_le_mul_right _ hle, Nat.mul_lt_mul_of_pos_right hlt (by positivity)⟩

/-! ## Rounding -/

theorem shift_zero (em : ExtendedMantissa) : em >>> 0 = em := rfl

theorem shift_succ (em : ExtendedMantissa) (n : Nat) : em >>> (n + 1) = (em >>> n).shiftRightOne :=
  rfl

theorem mantissa_shift (em : ExtendedMantissa) (n : Nat) :
    (em >>> n).mantissa = em.mantissa / 2 ^ n := by
  induction n with
  | zero => rw [shift_zero, pow_zero, Nat.div_one]
  | succ n ih =>
    rw [shift_succ, ExtendedMantissa.shiftRightOne, ih, Nat.div_div_eq_div_mul, pow_succ]

/-- Zeros are shifted out without a trace. -/
theorem exact_shift (m n : Nat) :
    (⟨m * 2 ^ n, false, false⟩ : ExtendedMantissa) >>> n = ⟨m, false, false⟩ := by
  induction n generalizing m with
  | zero => rw [shift_zero, pow_zero, mul_one]
  | succ n ih =>
    rw [shift_succ, pow_succ', ← mul_assoc, ih, ExtendedMantissa.shiftRightOne]
    simp

/-- Rounding that drops only zeros is exact. -/
theorem roundWithAccuracy_exact (hm : 0 < m) (h : Canonical spec m (e + n)) :
    roundWithAccuracy spec s (m * 2 ^ n) e .exact = .finite s m (e + n) hm := by
  have htarget : spec.targetExponent (totalExponent (m * 2 ^ n) e) = e + n := by
    rw [totalExponent, log2_mul_pow hm]
    rw [Canonical, totalExponent] at h
    rw [← h]
    congr 1
    push_cast
    ring
  have hfirst : shiftToTargetExponent spec (m * 2 ^ n) e .exact = (⟨m, false, false⟩, e + n) := by
    rw [shiftToTargetExponent, htarget, shiftToExponent]
    simp [ExtendedMantissa.ofMantissaAndAccuracy, exact_shift]
  have hsecond : shiftToTargetExponent spec m (e + n) .exact = (⟨m, false, false⟩, e + n) := by
    rw [shiftToTargetExponent, h, shiftToExponent]
    simp [ExtendedMantissa.ofMantissaAndAccuracy, shift_zero]
  rw [roundWithAccuracy, hfirst]
  simp [ExtendedMantissa.roundedMantissa, ExtendedMantissa.accuracy, Accuracy.roundToNearestEven,
    hsecond, hm.ne']

/-- The product with a power of two, whose mantissa fills the format, is exact before it is packed. -/
theorem mul_two_pow (hm : 0 < m) (h : Canonical spec m e)
    (hc : 0 ≤ c + spec.mantissaBitsWithoutImplicit) :
    ∃ m' e', ∃ hm' : 0 < m',
      mul spec (.finite .positive (2 ^ spec.mantissaBitsWithoutImplicit) c (Nat.two_pow_pos _))
        (.finite s m e hm) = .finite s m' e' hm' ∧ Canonical spec m' e' ∧
      value m' e' = value m e * 2 ^ (c + spec.mantissaBitsWithoutImplicit) := by
  generalize hn : spec.mantissaBitsWithoutImplicit = n at *
  have hbits : spec.mantissaBits = 1 + n := by rw [Format.mantissaBits, hn]
  have hlog := h.log2_lt
  have hmin := h.min_le
  -- the number of zeros that rounding drops
  obtain ⟨d, hd, hdn⟩ : ∃ d : Nat, (d : Int) = max (m.log2 : Int) (spec.minExponent - c - e) ∧ d ≤ n :=
    ⟨(max (m.log2 : Int) (spec.minExponent - c - e)).toNat, by omega, by omega⟩
  have hm' : 0 < m * 2 ^ (n - d) := by positivity
  have hsign : Sign.positive * s = s := by cases s <;> rfl
  have hcanonical : Canonical spec (m * 2 ^ (n - d)) (c + e + d) := by
    rw [Canonical, Format.targetExponent, totalExponent, log2_mul_pow hm, hbits]
    omega
  refine ⟨m * 2 ^ (n - d), c + e + d, hm', ?_, hcanonical, ?_⟩
  · rw [UnpackedFloat.mul, hsign]
    have hsplit : 2 ^ n * m = m * 2 ^ (n - d) * 2 ^ d := by
      rw [mul_assoc, ← pow_add, Nat.sub_add_cancel hdn, mul_comm]
    simp only [hsplit]
    exact roundWithAccuracy_exact hm' hcanonical
  · rw [value_mul_pow, value, value, mul_assoc, ← zpow_add₀ two_ne_zero]
    congr 2
    push_cast [hdn]
    ring

/-! ## Packing -/

/-- The leading one of a normal float, which is not stored. -/
theorem toNat_leadingOne {w : Nat} (v : BitVec w) : (1#1 ++ v).toNat = 2 ^ w + v.toNat := by
  rw [BitVec.toNat_append, ← Nat.shiftLeft_add_eq_or_of_lt v.isLt, Nat.shiftLeft_eq,
    BitVec.toNat_ofNat, Nat.mod_eq_of_lt (by decide), one_mul]

theorem toNat_leadingOne_ofNat {w : Nat} (h : m.log2 = w) (hm : 0 < m) :
    (1#1 ++ BitVec.ofNat w m).toNat = m := by
  obtain ⟨hle, hlt⟩ := (Nat.log2_eq_iff hm.ne').mp h
  rw [toNat_leadingOne, BitVec.toNat_ofNat, Nat.mod_eq_sub_mod hle, Nat.mod_eq_of_lt (by omega)]
  omega

theorem minExponent_eq (spec : Format) :
    spec.minExponent = 1 - (spec.exponentBias + spec.mantissaBitsWithoutImplicit : Int) := by
  have hpos : 0 < 2 ^ (spec.exponentBits - 1) := by positivity
  unfold Format.minExponent Format.exponentBias Format.mantissaBits
  push_cast [Nat.cast_sub (show 1 ≤ 2 ^ (spec.exponentBits - 1) from hpos)]
  ring

theorem two_le_pow_exponentBits (spec : Format) : 2 ≤ 2 ^ spec.exponentBits :=
  Nat.le_self_pow spec.he.ne' 2

/-- The exponent is too great for the format. -/
def Overflows (spec : Format) (e : Int) : Prop :=
  2 ^ spec.exponentBits ≤ (e + spec.exponentBias + spec.mantissaBitsWithoutImplicit).toNat + 1

/-- The numbers that overflow are great. -/
theorem Canonical.not_overflows (h : Canonical spec m e) (hbias : 0 < spec.exponentBias)
    (hm : 0 < m) (hlt : value m e < 2 ^ (spec.exponentBias + 1)) : ¬ Overflows spec e := by
  intro hover
  have hmin := minExponent_eq spec
  have hpow : 2 ^ spec.exponentBits = 2 * (spec.exponentBias + 1) := by
    have hpos : 0 < 2 ^ (spec.exponentBits - 1) := by positivity
    rw [Format.exponentBias, Nat.sub_add_cancel hpos, ← pow_succ', Nat.sub_add_cancel spec.he]
  have hexponent : (spec.exponentBias + 1 - spec.mantissaBitsWithoutImplicit : Int) ≤ e := by
    unfold Overflows at hover
    omega
  -- a number with a great exponent fills its mantissa
  have hlog : m.log2 = spec.mantissaBitsWithoutImplicit := by
    have hfull : m.log2 + 1 = spec.mantissaBits := by
      by_contra hne
      have heq := h.eq_min hne
      omega
    unfold Format.mantissaBits at hfull
    omega
  obtain ⟨hle, -⟩ := (Nat.log2_eq_iff hm.ne').mp hlog
  refine absurd hlt (not_lt.mpr ?_)
  calc (2 : ℚ) ^ (spec.exponentBias + 1)
      = 2 ^ spec.mantissaBitsWithoutImplicit *
          2 ^ (spec.exponentBias + 1 - spec.mantissaBitsWithoutImplicit : Int) := by
        rw [← zpow_natCast, ← zpow_natCast, ← zpow_add₀ two_ne_zero]
        congr 1
        push_cast
        ring
    _ ≤ m * 2 ^ e := by
        apply mul_le_mul
        · exact_mod_cast hle
        · exact zpow_le_zpow_right₀ one_le_two hexponent
        · exact zpow_nonneg zero_le_two _
        · exact Nat.cast_nonneg m

theorem unpack_pack_infinity (hm : 0 < m) (h : Overflows spec e) :
    unpack spec (pack spec (.finite s m e hm)) = .infinity s := by
  have htwo := two_le_pow_exponentBits spec
  unfold Overflows at h
  simp only [pack]
  rw [if_pos h]
  simp [unpack, packedInfinity, unpackSign_packComponents, Sign.ofBitVec_toBitVec]

/-- A canonical float that does not overflow is unpacked as it was packed. -/
theorem unpack_pack (hm : 0 < m) (h : Canonical spec m e) (hover : ¬ Overflows spec e) :
    unpack spec (pack spec (.finite s m e hm)) = .finite s m e hm := by
  have hlog := h.log2_lt
  have hmin := h.min_le
  have htwo := two_le_pow_exponentBits spec
  rw [minExponent_eq] at hmin
  unfold Overflows at hover
  simp only [pack]
  rw [if_neg hover]
  split
  · next hfull =>
    have hone : m.log2 = spec.mantissaBitsWithoutImplicit := by
      unfold Format.mantissaBits at hfull
      omega
    have hsmall : (e + spec.exponentBias + spec.mantissaBitsWithoutImplicit).toNat <
        2 ^ spec.exponentBits := by omega
    have hnotOnes : BitVec.ofNat spec.exponentBits
        (e + spec.exponentBias + spec.mantissaBitsWithoutImplicit).toNat ≠ -1#_ := by
      rw [BitVec.neg_one_eq_allOnes, BitVec.toNat_ne, BitVec.toNat_ofNat,
        Nat.mod_eq_of_lt hsmall, BitVec.toNat_allOnes]
      omega
    have hnotZero : BitVec.ofNat spec.exponentBits
        (e + spec.exponentBias + spec.mantissaBitsWithoutImplicit).toNat ≠ 0#_ := by
      rw [BitVec.toNat_ne, BitVec.toNat_ofNat, Nat.mod_eq_of_lt hsmall, BitVec.toNat_zero]
      omega
    simp only [unpack, unpackExponent_packComponents, unpackMantissa_packComponents,
      unpackSign_packComponents, Sign.ofBitVec_toBitVec, hnotOnes, hnotZero, if_false,
      toNat_leadingOne_ofNat hone hm, BitVec.toNat_ofNat, Nat.mod_eq_of_lt hsmall]
    congr 1
    omega
  · next hpart =>
    have hless : m < 2 ^ spec.mantissaBitsWithoutImplicit := by
      apply (Nat.log2_lt hm.ne').mp
      unfold Format.mantissaBits at hlog hpart
      omega
    have hne : BitVec.ofNat spec.mantissaBitsWithoutImplicit m ≠ 0#_ := by
      rw [BitVec.toNat_ne, BitVec.toNat_ofNat, Nat.mod_eq_of_lt hless, BitVec.toNat_zero]
      omega
    have hzero : BitVec.ofNat spec.exponentBits 0 ≠ -1#_ := by
      rw [BitVec.neg_one_eq_allOnes, BitVec.toNat_ne, BitVec.toNat_zero, BitVec.toNat_allOnes]
      omega
    have heq := h.eq_min hpart
    rw [minExponent_eq] at heq
    simp only [unpack, unpackExponent_packComponents, unpackMantissa_packComponents,
      unpackSign_packComponents, Sign.ofBitVec_toBitVec, hzero, if_false, if_true, hne, dif_neg,
      not_false_eq_true, BitVec.toNat_ofNat, Nat.mod_eq_of_lt hless]
    congr 1
    simp
    omega

/-- What is unpacked is canonical. -/
theorem unpack_canonical {b : BitVec spec.numBits} {hm : 0 < m}
    (h : unpack spec b = .finite s m e hm) : Canonical spec m e := by
  have hbits : spec.mantissaBits = 1 + spec.mantissaBitsWithoutImplicit := rfl
  have hmin := minExponent_eq spec
  simp only [unpack] at h
  split at h
  · split at h <;> cases h
  · split at h
    · split at h
      · cases h
      · next hzero hne =>
        cases h
        have hless := (Nat.log2_lt (n := (unpackMantissa b).toNat) hm.ne').mpr
          (unpackMantissa b).isLt
        rw [Canonical, Format.targetExponent, totalExponent]
        rw [hzero, BitVec.toNat_zero]
        omega
    · next hones hzero =>
      cases h
      have hpos : 0 < (unpackExponent b).toNat := by
        apply Nat.pos_of_ne_zero
        rwa [← show (BitVec.ofNat spec.exponentBits 0).toNat = 0 from BitVec.toNat_zero, ← BitVec.toNat_ne]
      have hlog : (1#1 ++ unpackMantissa b).toNat.log2 = spec.mantissaBitsWithoutImplicit := by
        have hlt := (unpackMantissa b).isLt
        rw [toNat_leadingOne, Nat.log2_eq_iff (by positivity), pow_succ]
        omega
      rw [Canonical, Format.targetExponent, totalExponent, hlog]
      omega

/-! ## Conversion to integers -/

/-- A conversion to an integer drops the digits behind the point. -/
theorem roundToInt_eq (s : Sign) (m : Nat) (e : Int) :
    roundToInt s m e = s.apply ⌊value m e⌋₊ := by
  have hvalue : value m e = (m * 2 ^ e.toNat : Nat) / (2 ^ (-e).toNat : Nat) := by
    rcases Int.le_total 0 e with he | he
    · lift e to Nat using he
      simp [value]
    · obtain ⟨n, hn⟩ : ∃ n : Nat, e = -n := ⟨(-e).toNat, by omega⟩
      subst hn
      simp [value, div_eq_mul_inv]
  have hshift : (0 - (e - (e.toNat : Int))).toNat = (-e).toNat := by omega
  rw [hvalue, Nat.floor_div_eq_div, roundToInt, decreaseExponent]
  simp only [shiftToExponent, sub_zero, hshift, mantissa_shift, Nat.shiftLeft_eq,
    ExtendedMantissa.ofMantissaAndAccuracy]

/-- The conversion to an unsigned integer of 64 bits has a value: the number is none of the special
ones and, without the digits behind the point, in range. -/
def Converts (x : UnpackedFloat) : Prop :=
  x.isNaN = false ∧ 0 ≤ x.toInt (-1) (2 ^ 64) ∧ x.toInt (-1) (2 ^ 64) < 2 ^ 64

instance (x : UnpackedFloat) : Decidable (Converts x) := by
  unfold Converts
  infer_instance

/-- The conversion; `undef` gives the results that are left open. -/
def toSize (undef : UnpackedFloat → Nat) (x : UnpackedFloat) : Nat :=
  if Converts x then (x.toInt (-1) (2 ^ 64)).toNat else undef x

/-- The conversion to the greater format. -/
def widen (x : Float32) : Float :=
  .ofModel (.pack (match x.toModel.unpack with
    | .finite s m e _ => UnpackedFloat.round Format.binary64 s m e
    | u => u))

example : widen (1 / 4) = 1 / 4 ∧ widen (1 / 3) ≠ 1 / 3 := by decide +kernel

theorem not_converts_infinity (s : Sign) : ¬ Converts (.infinity s) := by
  cases s <;> decide

theorem Converts.value_lt {hm : 0 < m} (h : Converts (.finite s m e hm)) : value m e < 2 ^ 64 := by
  obtain ⟨-, hnonneg, hlt⟩ := h
  simp only [toInt, roundToInt_eq] at hnonneg hlt
  have hfloor : ⌊value m e⌋₊ < 2 ^ 64 := by
    cases s <;> simp only [Sign.apply] at hnonneg hlt <;> omega
  exact_mod_cast (Nat.floor_lt (value_nonneg m e)).mp hfloor

/-- Of two floats with one sign, where the greater one can be converted. -/
theorem Converts.of_le {m' : Nat} {e' : Int} {hm : 0 < m} {hm' : 0 < m'}
    (h : Converts (.finite s m' e' hm')) (hle : value m e ≤ value m' e') :
    Converts (.finite s m e hm) ∧ (UnpackedFloat.finite s m e hm).toInt (-1) (2 ^ 64) ≤
      (UnpackedFloat.finite s m' e' hm').toInt (-1) (2 ^ 64) := by
  have hfloor : ⌊value m e⌋₊ ≤ ⌊value m' e'⌋₊ := Nat.floor_le_floor hle
  obtain ⟨-, hnonneg, hlt⟩ := h
  simp only [Converts, toInt, roundToInt_eq, UnpackedFloat.isNaN] at hnonneg hlt ⊢
  cases s <;> simp only [Sign.apply] at hnonneg hlt ⊢ <;>
    exact ⟨⟨trivial, by omega, by omega⟩, by omega⟩

/-! ## Products with powers of two -/

/-- `static_cast<float>(2 ^ k) * x`. -/
def scaled (k : Nat) (x : Float32) : Float32 := (2 ^ k).toUInt64.toFloat32 * x

theorem unpack_two_pow {k : Nat} (hk : k ≤ 30) :
    (2 ^ k).toUInt64.toFloat32.toModel.unpack =
      .finite .positive (2 ^ 23) (k - 23) (Nat.two_pow_pos 23) := by
  interval_cases k <;> rfl

/-- The product is the packed product of the unpacked factors. -/
theorem unpack_scaled {k : Nat} (hk : k ≤ 30) (x : Float32) :
    (scaled k x).toModel.unpack = UnpackedFloat.unpack Format.binary32
      (UnpackedFloat.pack Format.binary32 (UnpackedFloat.mul Format.binary32
        (.finite .positive (2 ^ 23) (k - 23) (Nat.two_pow_pos 23)) x.toModel.unpack)) := by
  rw [← unpack_two_pow hk]
  rfl

/-- The product of a finite float and a power of two overflows or is exact. -/
theorem unpack_scaled_finite {x : Float32} {k : Nat} {hm : 0 < m} (hk : k ≤ 30)
    (hx : x.toModel.unpack = .finite s m e hm) :
    ∃ m' e', ∃ hm' : 0 < m', Canonical Format.binary32 m' e' ∧ value m' e' = value m e * 2 ^ k ∧
      (scaled k x).toModel.unpack = UnpackedFloat.unpack Format.binary32
        (UnpackedFloat.pack Format.binary32 (.finite s m' e' hm')) := by
  have hbits : (k - 23 : Int) + (Format.binary32.mantissaBitsWithoutImplicit : Nat) = k := by simp
  obtain ⟨m', e', hm', hmul, hcanonical, hvalue⟩ :=
    mul_two_pow (s := s) (c := k - 23) hm (unpack_canonical hx) (by rw [hbits]; exact Int.natCast_nonneg k)
  refine ⟨m', e', hm', hcanonical, ?_, ?_⟩
  · rw [hvalue, hbits, zpow_natCast]
  · rw [unpack_scaled hk, hx, ← hmul]

/-- Where the product with a power of two can be converted, the ones with smaller powers can, and
they give no more. -/
theorem scaled_mono {x : Float32} {i j : Nat} (hij : i ≤ j) (hj : j ≤ 30)
    (h : Converts (scaled j x).toModel.unpack) :
    Converts (scaled i x).toModel.unpack ∧ (scaled i x).toModel.unpack.toInt (-1) (2 ^ 64) ≤
      (scaled j x).toModel.unpack.toInt (-1) (2 ^ 64) := by
  have hi : i ≤ 30 := hij.trans hj
  cases hx : x.toModel.unpack with
  | infinity s =>
    rw [unpack_scaled hj, hx, UnpackedFloat.mul] at h
    cases s <;> exact absurd h (by decide)
  | notANumber =>
    rw [unpack_scaled hj, hx] at h
    simp only [UnpackedFloat.mul] at h
    exact absurd h (by decide)
  | zero s =>
    rw [unpack_scaled hi, unpack_scaled hj, hx, UnpackedFloat.mul, UnpackedFloat.mul]
    cases s <;> decide
  | finite s m e hm =>
    obtain ⟨mi, ei, hmi, hci, hvi, hsi⟩ := unpack_scaled_finite hi hx
    obtain ⟨mj, ej, hmj, hcj, hvj, hsj⟩ := unpack_scaled_finite hj hx
    have hle : value mi ei ≤ value mj ej := by
      rw [hvi, hvj]
      exact mul_le_mul_of_nonneg_left (pow_le_pow_right₀ one_le_two hij) (value_nonneg m e)
    have hfinite : ¬ Overflows Format.binary32 ej := by
      intro hover
      rw [hsj, unpack_pack_infinity hmj hover] at h
      exact not_converts_infinity s h
    rw [hsj, unpack_pack hmj hcj hfinite] at h ⊢
    have hsmall : value mi ei < 2 ^ (Format.binary32.exponentBias + 1) :=
      (hle.trans_lt h.value_lt).trans_le (pow_le_pow_right₀ one_le_two (by decide))
    rw [hsi, unpack_pack hmi hci (hci.not_overflows (by decide) hmi hsmall)]
    exact h.of_le hle

theorem toSize_scaled_mono (undef : UnpackedFloat → Nat) {x : Float32} {i j : Nat} (hij : i ≤ j)
    (hj : j ≤ 30) (h : Converts (scaled j x).toModel.unpack) :
    toSize undef (scaled i x).toModel.unpack ≤ toSize undef (scaled j x).toModel.unpack := by
  obtain ⟨hi, hle⟩ := scaled_mono hij hj h
  rw [toSize, toSize, if_pos hi, if_pos h]
  exact Int.toNat_le_toNat hle

end MpmcMap.Floats
