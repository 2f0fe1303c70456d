import MpmcMap.Unordered.SplitOrder

/-!
# The order of the list

What the integer functions say about the order of split-order keys: `bit_reverse` reverses the bits
of a word, so a word whose bits are among those of another one has a smaller reversal. That is why a
dummy comes before the nodes of its bucket and before the dummies of the buckets below it.
-/

namespace MpmcMap.Unordered

/-! ## The reversal -/

/-- Where stage `s` of `bit_reverse` takes bit `i` from. -/
def swapIndex (s i : Nat) : Nat := if i / s % 2 = 0 then i + s else i - s

theorem getLsbD_swapGroups {s : Nat} {m : Word} (hs : 0 < s)
    (hmask : ∀ i < 64, m.getLsbD i = decide (i / s % 2 = 0)) (x : Word) {i : Nat} (hi : i < 64) :
    (swapGroups s m x).getLsbD i = x.getLsbD (swapIndex s i) := by
  unfold swapGroups swapIndex
  rw [BitVec.getLsbD_or, BitVec.getLsbD_shiftLeft, BitVec.getLsbD_and, BitVec.getLsbD_and,
    BitVec.getLsbD_ushiftRight, hmask i hi, hmask (i - s) (by omega), decide_eq_true hi]
  have hsub : (i - s) / s = i / s - 1 := by
    have h := Nat.sub_mul_div i s 1
    rwa [Nat.mul_one] at h
  have hlt : i < s ↔ i / s = 0 := by rw [Nat.div_eq_zero_iff, or_iff_right hs.ne']
  rw [hsub]
  split
  · next heven =>
    -- a bit of the lower group comes from the upper one
    have hodd : ¬(i / s - 1) % 2 = 0 ∨ i < s := by
      rw [hlt]
      generalize i / s = q at heven
      omega
    rcases hodd with hodd | his
    · simp [heven, hodd, Nat.add_comm]
    · simp [heven, his, Nat.add_comm]
  · next hodd =>
    have his : ¬i < s := by
      rw [hlt]
      omega
    have heven : (i / s - 1) % 2 = 0 := by omega
    simp [heven, hodd, his]

/-- `bit_reverse` reverses the 64 bits. -/
theorem bitReverse_eq (x : Word) : bitReverse x = x.reverse := by
  apply BitVec.eq_of_getLsbD_eq
  intro i hi
  have hindex : ∀ i < 64, swapIndex 1 (swapIndex 2 (swapIndex 4 (swapIndex 8 (swapIndex 16
      (if i < 32 then i + 32 else i - 32))))) = 63 - i := by decide
  have hin : ∀ s ∈ [2, 4, 8, 16], ∀ i < 64, swapIndex s i < 64 := by decide
  have hhalf : (if i < 32 then i + 32 else i - 32) < 64 := by
    split <;> omega
  have h16 := hin 16 (by decide) _ hhalf
  have h8 := hin 8 (by decide) _ h16
  have h4 := hin 4 (by decide) _ h8
  have h2 := hin 2 (by decide) _ h4
  rw [BitVec.getLsbD_reverse, BitVec.getMsbD_eq_getLsbD, decide_eq_true hi, Bool.true_and,
    show 64 - 1 - i = 63 - i by omega, ← hindex i hi,
    ← getLsbD_swapGroups (m := 0x5555555555555555) (by decide) (by decide) x h2,
    ← getLsbD_swapGroups (m := 0x3333333333333333) (by decide) (by decide) _ h4,
    ← getLsbD_swapGroups (m := 0x0f0f0f0f0f0f0f0f) (by decide) (by decide) _ h8,
    ← getLsbD_swapGroups (m := 0x00ff00ff00ff00ff) (by decide) (by decide) _ h16,
    ← getLsbD_swapGroups (m := 0x0000ffff0000ffff) (by decide) (by decide) _ hhalf]
  unfold bitReverse
  rw [BitVec.getLsbD_or, BitVec.getLsbD_shiftLeft, BitVec.getLsbD_ushiftRight, decide_eq_true hi]
  split
  · next hlt =>
    rw [Nat.add_comm]
    simp [hlt]
  · next hge =>
    have hout : 64 ≤ 32 + i := by omega
    simp [hge, BitVec.getLsbD_of_ge _ _ hout]

theorem bitReverse_bitReverse (x : Word) : bitReverse (bitReverse x) = x := by
  rw [bitReverse_eq, bitReverse_eq, BitVec.reverse_reverse_eq]

theorem bitReverse_and (x y : Word) : bitReverse (x &&& y) = bitReverse x &&& bitReverse y := by
  simp only [bitReverse_eq]
  apply BitVec.eq_of_getLsbD_eq
  intro i _
  simp only [BitVec.getLsbD_reverse, BitVec.getLsbD_and, BitVec.getMsbD_and]

/-- Fewer bits, smaller reversal. -/
theorem bitReverse_le {x y : Word} (h : x &&& y = x) : bitReverse x ≤ bitReverse y := by
  rw [← h, bitReverse_and, BitVec.le_def, BitVec.toNat_and]
  exact Nat.and_le_right

theorem bitReverse_inj {x y : Word} (h : bitReverse x = bitReverse y) : x = y := by
  rw [← bitReverse_bitReverse x, h, bitReverse_bitReverse]

/-! ## Regular nodes and dummies -/

theorem isRegular_eq (so : Word) : isRegular so = so.getLsbD 0 := by
  have hand : so &&& 1 = if so.getLsbD 0 then 1 else 0 := by
    apply BitVec.eq_of_getLsbD_eq
    intro i _
    rw [BitVec.getLsbD_and]
    cases i with
    | zero => cases so.getLsbD 0 <;> rfl
    | succ i => cases h : so.getLsbD 0 <;> simp [BitVec.getLsbD_one]
  rw [isRegular, hand]
  cases so.getLsbD 0 <;> rfl

theorem getLsbD_bitReverse_zero (x : Word) : (bitReverse x).getLsbD 0 = x.getLsbD 63 := by
  rw [bitReverse_eq, BitVec.getLsbD_reverse, BitVec.getMsbD_eq_getLsbD]
  rfl

/-- The key of a regular node is odd. -/
theorem isRegular_soKeyOf (mixed : Word) : isRegular (soKeyOf mixed) = true := by
  rw [isRegular_eq, soKeyOf, getLsbD_bitReverse_zero, BitVec.getLsbD_or]
  simp [topBit]

/-- The key of a dummy is even. -/
theorem isRegular_dummy {b : Nat} (hb : b < 2 ^ 63) : isRegular (dummySplitOrderKey b) = false := by
  rw [isRegular_eq, dummySplitOrderKey, getLsbD_bitReverse_zero, BitVec.getLsbD_ofNat]
  simp [Nat.testBit_lt_two_pow hb]

/-- Only the dummy of the first bucket has the key 0. -/
theorem dummy_ne_zero {b : Nat} (hb : b ≠ 0) (hlt : b < 2 ^ 64) : dummySplitOrderKey b ≠ 0 := by
  intro h
  have hzero : dummySplitOrderKey b = dummySplitOrderKey 0 := h.trans (by decide)
  have hnat := congrArg BitVec.toNat (bitReverse_inj hzero)
  rw [BitVec.toNat_ofNat, Nat.mod_eq_of_lt hlt] at hnat
  exact hb hnat

/-! ## Buckets -/

section Buckets

variable {mixed so : Word} {b j : Nat}

theorem bucketOf_eq (hj : j < 64) : bucketOf mixed (2 ^ j) = mixed.toNat % 2 ^ j := by
  have hlt : 2 ^ j - 1 < 2 ^ 64 := by
    have := Nat.pow_lt_pow_right (by decide : 1 < 2) hj
    omega
  rw [bucketOf, BitVec.toNat_and, BitVec.toNat_ofNat, Nat.mod_eq_of_lt hlt,
    Nat.and_two_pow_sub_one_eq_mod]

theorem bucketOf_lt (hj : j < 64) : bucketOf mixed (2 ^ j) < 2 ^ j := by
  rw [bucketOf_eq hj]
  exact Nat.mod_lt _ (Nat.two_pow_pos j)

/-- A walk to the key `so` may begin at the bucket of `mixed`. -/
structure Suits (mixed so : Word) : Prop where
  regular : isRegular so = true
  bits : mixed &&& bitReverse so = mixed

theorem suits_soKeyOf (mixed : Word) : Suits mixed (soKeyOf mixed) where
  regular := isRegular_soKeyOf mixed
  bits := by
    rw [soKeyOf, bitReverse_bitReverse]
    apply BitVec.eq_of_getLsbD_eq
    intro i _
    rw [BitVec.getLsbD_and, BitVec.getLsbD_or]
    cases mixed.getLsbD i <;> rfl

theorem suits_rebuiltHash (h : isRegular so = true) : Suits (rebuiltHash so) so where
  regular := h
  bits := by
    rw [rebuiltHash, BitVec.and_assoc, BitVec.and_comm (~~~topBit), ← BitVec.and_assoc,
      BitVec.and_self]

/-- The dummy of the bucket comes before the key. -/
theorem Suits.dummy_lt (h : Suits mixed so) (hj : j < 63) :
    dummySplitOrderKey (bucketOf mixed (2 ^ j)) < so := by
  have hle : dummySplitOrderKey (bucketOf mixed (2 ^ j)) ≤ so := by
    rw [← bitReverse_bitReverse so]
    apply bitReverse_le
    rw [bucketOf, BitVec.ofNat_toNat, BitVec.setWidth_eq, BitVec.and_assoc,
      BitVec.and_comm (BitVec.ofNat 64 _), ← BitVec.and_assoc, h.bits]
  refine BitVec.lt_of_le_ne hle fun heq => ?_
  have hodd := h.regular
  have hlt : bucketOf mixed (2 ^ j) < 2 ^ 63 :=
    (bucketOf_lt (by omega)).trans (Nat.pow_lt_pow_right (by decide) hj)
  rw [← heq, isRegular_dummy hlt] at hodd
  cases hodd

theorem parentBucket_eq (hb : b ≠ 0) (hlt : b < 2 ^ 64) :
    parentBucket b = b % 2 ^ Nat.log2 b := by
  have h1 := Nat.log2_self_le hb
  have h2 := Nat.lt_log2_self (n := b)
  rw [Nat.pow_succ] at h2
  have hmod : b % 2 ^ Nat.log2 b = b - 2 ^ Nat.log2 b := by
    rw [Nat.mod_eq_sub_mod h1, Nat.mod_eq_of_lt (by omega)]
  rw [parentBucket, hmod]
  omega

theorem parentBucket_lt (hb : b ≠ 0) (hlt : b < 2 ^ 64) : parentBucket b < b := by
  rw [parentBucket_eq hb hlt]
  exact (Nat.mod_lt _ (Nat.two_pow_pos _)).trans_le (Nat.log2_self_le hb)

/-- The dummy of the parent comes before the dummy of the bucket. -/
theorem dummy_parent_lt (hb : b ≠ 0) (hlt : b < 2 ^ 64) :
    dummySplitOrderKey (parentBucket b) < dummySplitOrderKey b := by
  have hparent := parentBucket_lt hb hlt
  have hle : dummySplitOrderKey (parentBucket b) ≤ dummySplitOrderKey b := by
    apply bitReverse_le
    apply BitVec.eq_of_toNat_eq
    rw [BitVec.toNat_and, BitVec.toNat_ofNat, BitVec.toNat_ofNat, Nat.mod_eq_of_lt hlt,
      Nat.mod_eq_of_lt (hparent.trans hlt), parentBucket_eq hb hlt,
      ← Nat.and_two_pow_sub_one_eq_mod, Nat.and_assoc, Nat.and_comm (_ - 1), ← Nat.and_assoc,
      Nat.and_self]
  refine BitVec.lt_of_le_ne hle fun heq => ?_
  have hnat := congrArg BitVec.toNat (bitReverse_inj heq)
  rw [BitVec.toNat_ofNat, BitVec.toNat_ofNat, Nat.mod_eq_of_lt hlt,
    Nat.mod_eq_of_lt (hparent.trans hlt)] at hnat
  omega

end Buckets

end MpmcMap.Unordered
