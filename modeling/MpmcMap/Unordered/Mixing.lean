import MpmcMap.Unordered.Engine

/-!
# The mixed hash

`mix_hash` can be undone: a shift by more than half of the word xored into the word undoes itself,
and an odd factor has an inverse modulo `2 ^ 64`.
-/

namespace MpmcMap.Unordered

/-! ## Words that can be undone -/

section Words

variable {w s : Nat} {c d : BitVec w}

/-- `x ^= x >> s`. -/
def xorShift (s : Nat) (x : BitVec w) : BitVec w := x ^^^ (x >>> s)

/-- Nothing is left of a word that is shifted twice. -/
theorem xorShift_xorShift (hs : w ≤ s + s) (x : BitVec w) : xorShift s (xorShift s x) = x := by
  have htwice : x >>> s >>> s = 0#w := by
    rw [← BitVec.shiftRight_add]
    exact BitVec.ushiftRight_eq_zero hs
  unfold xorShift
  calc x ^^^ x >>> s ^^^ (x ^^^ x >>> s) >>> s
      = x ^^^ x >>> s ^^^ (x >>> s ^^^ x >>> s >>> s) := by rw [BitVec.ushiftRight_xor_distrib]
    _ = x ^^^ (x >>> s ^^^ x >>> s) := by rw [htwice, BitVec.xor_zero, BitVec.xor_assoc]
    _ = x := by rw [BitVec.xor_self, BitVec.xor_zero]

theorem mul_mul_inverse (hcd : c * d = 1#w) (x : BitVec w) : x * c * d = x := by
  rw [BitVec.mul_assoc, hcd, BitVec.mul_one]

end Words

/-! ## `mix_hash` -/

/-- The stages of `mix_hash` undone, the last one first. -/
def unmixHash (x : Word) : Word :=
  let x := xorShift 33 x
  let x := x * 0x9cb4b2f8129337db
  let x := xorShift 33 x
  let x := x * 0x4f74430c22a54005
  xorShift 33 x

theorem mixHash_eq (h : Word) : mixHash h = xorShift 33 (xorShift 33 (xorShift 33 h *
    0xff51afd7ed558ccd) * 0xc4ceb9fe1a85ec53) := rfl

theorem unmixHash_mixHash (h : Word) : unmixHash (mixHash h) = h := by
  have hshift : ∀ x : Word, xorShift 33 (xorShift 33 x) = x := xorShift_xorShift (by decide)
  rw [mixHash_eq, unmixHash, hshift, mul_mul_inverse (by decide), hshift,
    mul_mul_inverse (by decide), hshift]

theorem mixHash_unmixHash (x : Word) : mixHash (unmixHash x) = x := by
  have hshift : ∀ x : Word, xorShift 33 (xorShift 33 x) = x := xorShift_xorShift (by decide)
  rw [mixHash_eq, unmixHash, hshift, mul_mul_inverse (by decide), hshift,
    mul_mul_inverse (by decide), hshift]

/-- `mix_hash` is a bijection on 64-bit words, so two keys have the same mixed hash only if the
user's hash is the same. -/
theorem mixHash_invertible {Key : Type} (C : Config Key) :
    (∃ g : Word → Word, (∀ h, g (mixHash h) = h) ∧ ∀ x, mixHash (g x) = x) ∧
    ∀ k k', C.mixedHash k = C.mixedHash k' ↔ C.hash k = C.hash k' := by
  refine ⟨⟨unmixHash, unmixHash_mixHash, mixHash_unmixHash⟩, ?_⟩
  intro k k'
  constructor
  · intro hmixed
    have hinv : Function.LeftInverse unmixHash mixHash := unmixHash_mixHash
    exact hinv.injective hmixed
  · intro hhash
    rw [Config.mixedHash, Config.mixedHash, hhash]

example : mixHash 1 = 0xb456bcfc34c2cb2c := by decide

end MpmcMap.Unordered
