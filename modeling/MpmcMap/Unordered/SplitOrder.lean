import Mathlib.Algebra.Order.Ring.Int
import Mathlib.Data.Nat.Log

/-!
# Split-order keys

The integer functions of `detail/utils.hpp` that order the list of the unordered engine, on 64-bit
words, and the bucket arithmetic of `split_ordered_table`.
-/

namespace MpmcMap.Unordered

/-- A 64-bit word. -/
abbrev Word := BitVec 64

/-- One stage of `bit_reverse`: neighbouring groups of `s` bits change places. -/
def swapGroups (s : Nat) (mask x : Word) : Word := ((x &&& mask) <<< s) ||| ((x >>> s) &&& mask)

/-- `bit_reverse`. -/
def bitReverse (x : Word) : Word :=
  let x := swapGroups 1 0x5555555555555555 x
  let x := swapGroups 2 0x3333333333333333 x
  let x := swapGroups 4 0x0f0f0f0f0f0f0f0f x
  let x := swapGroups 8 0x00ff00ff00ff00ff x
  let x := swapGroups 16 0x0000ffff0000ffff x
  (x <<< 32) ||| (x >>> 32)

/-- `mix_hash`. -/
def mixHash (h : Word) : Word :=
  let h := h ^^^ (h >>> 33)
  let h := h * 0xff51afd7ed558ccd
  let h := h ^^^ (h >>> 33)
  let h := h * 0xc4ceb9fe1a85ec53
  h ^^^ (h >>> 33)

/-- `1ULL << 63`. -/
def topBit : Word := 0x8000000000000000

/-- `so_key_of`, the split-order key of a regular node. -/
def soKeyOf (mixed : Word) : Word := bitReverse (mixed ||| topBit)

/-- `dummy_split_order_key`. -/
def dummySplitOrderKey (b : Nat) : Word := bitReverse (BitVec.ofNat 64 b)

/-- The test `(so_key & 1) != 0` for a regular node. -/
def isRegular (so : Word) : Bool := so &&& 1 != 0

/-- The hash that an iterator rebuilds: `bit_reverse(so_key) & ~(1ULL << 63)`. -/
def rebuiltHash (so : Word) : Word := bitReverse so &&& ~~~topBit

/-- `mixed & (size - 1)`. -/
def bucketOf (mixed : Word) (size : Nat) : Nat := (mixed &&& BitVec.ofNat 64 (size - 1)).toNat

/-- `parent_bucket`: the loop finds the greatest power of two that is at most `b`, or 1. -/
def parentBucket (b : Nat) : Nat := (2 ^ 64 + b - 2 ^ Nat.log2 b) % 2 ^ 64

end MpmcMap.Unordered
