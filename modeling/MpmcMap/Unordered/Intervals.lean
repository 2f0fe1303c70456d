import MpmcMap.Unordered.BitOrder

/-!
# The interval of a bucket

The reversal takes the low `j` bits of a word to its high `j` bits. So the regular keys of a bucket
of a table with `2 ^ j` buckets are those in the interval of length `2 ^ (64 - j)` that begins at
its dummy.
-/

namespace MpmcMap.Unordered

variable {m m' : Word} {j b b' : Nat}

theorem testBit_bitReverse (x : Word) (i : Nat) :
    (bitReverse x).toNat.testBit i = (decide (i < 64) && x.toNat.testBit (63 - i)) := by
  rw [BitVec.testBit_toNat, bitReverse_eq, BitVec.getLsbD_reverse, BitVec.getMsbD_eq_getLsbD,
    BitVec.testBit_toNat]

theorem testBit_dummy (hb : b < 2 ^ 64) (i : Nat) :
    (dummySplitOrderKey b).toNat.testBit i = (decide (i < 64) && b.testBit (63 - i)) := by
  rw [dummySplitOrderKey, testBit_bitReverse, BitVec.toNat_ofNat, Nat.mod_eq_of_lt hb]

theorem testBit_soKeyOf (m : Word) (i : Nat) :
    (soKeyOf m).toNat.testBit i =
      (decide (i < 64) && (m.toNat.testBit (63 - i) || decide (i = 0))) := by
  rw [soKeyOf, testBit_bitReverse, BitVec.toNat_or, Nat.testBit_or]
  have htop : topBit.toNat = 2 ^ 63 := rfl
  rw [htop, Nat.testBit_two_pow]
  by_cases hi : i < 64
  · have hzero : (63 = 63 - i) ↔ i = 0 := by omega
    simp only [hzero]
  · simp [hi]

theorem two_pow_lt (hj : j ≤ 63) : 2 ^ j < 2 ^ 64 :=
  Nat.pow_lt_pow_right (by decide) (by omega)

/-- The high `j` bits of a regular key are the dummy of its bucket. -/
theorem soKeyOf_high (m : Word) (hj : j ≤ 63) :
    (soKeyOf m).toNat / 2 ^ (64 - j) * 2 ^ (64 - j) =
      (dummySplitOrderKey (m.toNat % 2 ^ j)).toNat := by
  have hlt : m.toNat % 2 ^ j < 2 ^ 64 :=
    (Nat.mod_lt _ (Nat.two_pow_pos j)).trans (two_pow_lt hj)
  apply Nat.eq_of_testBit_eq
  intro i
  rw [Nat.testBit_mul_two_pow, Nat.testBit_div_two_pow, testBit_dummy hlt, testBit_soKeyOf,
    Nat.testBit_mod_two_pow]
  by_cases hi : 64 - j ≤ i
  · have hsum : i - (64 - j) + (64 - j) = i := by omega
    have hne : i ≠ 0 := by omega
    have hin : i < 64 → 63 - i < j := by omega
    by_cases h64 : i < 64
    · simp [hi, hsum, hne, h64, hin h64]
    · simp [hsum, h64]
  · have hout : ¬ 63 - i < j := by omega
    simp [hi, hout]

/-- A dummy has no other bits. -/
theorem dummy_high (hj : j ≤ 63) (hb : b < 2 ^ j) :
    ∃ q, (dummySplitOrderKey b).toNat = q * 2 ^ (64 - j) := by
  have hhigh := soKeyOf_high (BitVec.ofNat 64 b) hj
  rw [BitVec.toNat_ofNat, Nat.mod_eq_of_lt (hb.trans (two_pow_lt hj)),
    Nat.mod_eq_of_lt hb] at hhigh
  exact ⟨_, hhigh.symm⟩

theorem dummy_inj (hb : b < 2 ^ 64) (hb' : b' < 2 ^ 64)
    (h : dummySplitOrderKey b = dummySplitOrderKey b') : b = b' := by
  have hnat := congrArg BitVec.toNat (bitReverse_inj h)
  rwa [BitVec.toNat_ofNat, BitVec.toNat_ofNat, Nat.mod_eq_of_lt hb, Nat.mod_eq_of_lt hb'] at hnat

theorem soKeyOf_odd (m : Word) : (soKeyOf m).toNat % 2 = 1 := by
  have hbit := testBit_soKeyOf m 0
  simpa [Nat.testBit_zero] using hbit

theorem dummy_even (hb : b < 2 ^ 63) : (dummySplitOrderKey b).toNat % 2 = 0 := by
  have hbit := testBit_dummy (hb.trans (by decide)) 0
  simpa [Nat.testBit_zero, Nat.testBit_lt_two_pow hb] using hbit

/-- The regular keys of a bucket are those in the interval of its dummy. -/
theorem mod_eq_iff_interval (hj : j ≤ 63) (hb : b < 2 ^ j) :
    m.toNat % 2 ^ j = b ↔ dummySplitOrderKey b < soKeyOf m ∧
      (soKeyOf m).toNat - (dummySplitOrderKey b).toNat < 2 ^ (64 - j) := by
  have hhigh := soKeyOf_high m hj
  have hpos := Nat.two_pow_pos (64 - j)
  have hdiv := Nat.div_add_mod' (soKeyOf m).toNat (2 ^ (64 - j))
  have hmod := Nat.mod_lt (soKeyOf m).toNat hpos
  rw [BitVec.lt_def]
  constructor
  · intro h
    rw [h] at hhigh
    -- the key is odd, its high bits are not
    have hodd := soKeyOf_odd m
    have heven : (dummySplitOrderKey b).toNat % 2 = 0 :=
      dummy_even (hb.trans_le (Nat.pow_le_pow_right (by decide) hj))
    omega
  · rintro ⟨hlt, hlen⟩
    obtain ⟨q, hq⟩ := dummy_high hj hb
    have hquot : (soKeyOf m).toNat / 2 ^ (64 - j) = q := by
      apply Nat.div_eq_of_lt_le
      · omega
      · rw [Nat.succ_mul]
        omega
    rw [hquot, ← hq] at hhigh
    have hbucket : m.toNat % 2 ^ j < 2 ^ 64 :=
      (Nat.mod_lt _ (Nat.two_pow_pos j)).trans (two_pow_lt hj)
    exact dummy_inj hbucket (hb.trans (two_pow_lt hj)) (BitVec.eq_of_toNat_eq hhigh.symm)

theorem getLsbD_topBit {i : Nat} (hi : i < 63) : topBit.getLsbD i = false := by
  have hval : topBit.toNat = 2 ^ 63 := rfl
  rw [← BitVec.testBit_toNat, hval, Nat.testBit_two_pow, decide_eq_false (by omega)]

/-- Two hashes have the same regular key if and only if they agree on all bits but the top one. -/
theorem soKeyOf_eq_iff :
    soKeyOf m = soKeyOf m' ↔ ∀ i < 63, m.getLsbD i = m'.getLsbD i := by
  constructor
  · intro h i hi
    have hor := congrArg (BitVec.getLsbD · i) (bitReverse_inj h)
    simpa [getLsbD_topBit hi] using hor
  · intro h
    apply congrArg bitReverse
    apply BitVec.eq_of_getLsbD_eq
    intro i hi
    rw [BitVec.getLsbD_or, BitVec.getLsbD_or]
    by_cases hlow : i < 63
    · rw [h i hlow]
    · obtain rfl : i = 63 := by omega
      simp [topBit]

/-- The hash that an iterator rebuilds is the hash without its top bit. -/
theorem rebuiltHash_soKeyOf (m : Word) : rebuiltHash (soKeyOf m) = m &&& ~~~topBit := by
  rw [rebuiltHash, soKeyOf, bitReverse_bitReverse]
  apply BitVec.eq_of_getLsbD_eq
  intro i hi
  simp only [BitVec.getLsbD_and, BitVec.getLsbD_or, BitVec.getLsbD_not, hi, decide_true,
    Bool.true_and]
  cases topBit.getLsbD i <;> simp

theorem bucketOf_rebuiltHash (m : Word) (hj : j ≤ 30) :
    bucketOf (rebuiltHash (soKeyOf m)) (2 ^ j) = bucketOf m (2 ^ j) := by
  rw [rebuiltHash_soKeyOf, bucketOf_eq (by omega), bucketOf_eq (by omega)]
  apply Nat.eq_of_testBit_eq
  intro i
  rw [Nat.testBit_mod_two_pow, Nat.testBit_mod_two_pow]
  by_cases hi : i < j
  · have htop : topBit.getLsbD i = false := by
      rw [← BitVec.testBit_toNat]
      have hval : topBit.toNat = 2 ^ 63 := rfl
      rw [hval, Nat.testBit_two_pow, decide_eq_false (by omega)]
    have h64 : i < 64 := by omega
    rw [BitVec.testBit_toNat, BitVec.testBit_toNat, BitVec.getLsbD_and, BitVec.getLsbD_not, htop]
    simp [h64]
  · simp [hi]

/-- The split-order interval law. -/
theorem splitOrder_law :
    (∀ (m : Word) (j b : Nat), j ≤ 63 → b < 2 ^ j →
      (m.toNat % 2 ^ j = b ↔ dummySplitOrderKey b < soKeyOf m ∧
        (soKeyOf m).toNat - (dummySplitOrderKey b).toNat < 2 ^ (64 - j))) ∧
    (∀ b < 2 ^ 63, (dummySplitOrderKey b).toNat % 2 = 0) ∧
    (∀ b < 2 ^ 63, ∀ b' < 2 ^ 63, dummySplitOrderKey b = dummySplitOrderKey b' → b = b') ∧
    (∀ m : Word, (soKeyOf m).toNat % 2 = 1) ∧
    (∀ m m' : Word, soKeyOf m = soKeyOf m' ↔ ∀ i < 63, m.getLsbD i = m'.getLsbD i) ∧
    ∀ (m : Word) (j : Nat), j ≤ 30 →
      bucketOf (rebuiltHash (soKeyOf m)) (2 ^ j) = bucketOf m (2 ^ j) := by
  refine ⟨fun m j b hj hb => mod_eq_iff_interval hj hb, fun b hb => dummy_even hb,
    fun b hb b' hb' h => ?_, soKeyOf_odd, fun m m' => soKeyOf_eq_iff,
    fun m j hj => bucketOf_rebuiltHash m hj⟩
  exact dummy_inj (hb.trans (by decide)) (hb'.trans (by decide)) h

end MpmcMap.Unordered
