import Mathlib.Data.List.Pairwise
import Mathlib.Data.List.Perm.Lattice

/-!
# Finite maps without an order

Maps over an equality of keys, as lists of entries in which no key occurs twice: what an unordered
container is for. An entry carries its key, and `eq` compares the keys of two entries. The order of
the entries means nothing: lists that are permutations of each other answer alike.
-/

namespace MpmcMap.Maps

variable {Entry : Type}

/-- An equality of keys. -/
class KeyEquiv (eq : Entry → Entry → Bool) : Prop where
  refl : ∀ a, eq a a = true
  symm : ∀ a b, eq a b = true → eq b a = true
  trans : ∀ a b c, eq a b = true → eq b c = true → eq a c = true

/-- No key occurs twice. -/
def Distinct (eq : Entry → Entry → Bool) (L : List Entry) : Prop :=
  L.Pairwise fun a b => eq a b = false

/-- A finite map. -/
@[ext]
structure FiniteMap (eq : Entry → Entry → Bool) where
  entries : List Entry
  distinct : Distinct eq entries

section Lists

variable {eq : Entry → Entry → Bool} [KeyEquiv eq] {L L' : List Entry} {a k : Entry}

theorem KeyEquiv.ne_symm {b : Entry} (h : eq a b = false) : eq b a = false := by
  rw [Bool.eq_false_iff] at h ⊢
  exact fun hba => h (KeyEquiv.symm _ _ hba)

/-- The entry of a key is the only one. -/
theorem Distinct.find_eq (hd : Distinct eq L) (ha : a ∈ L) (hk : eq a k = true) :
    L.find? (fun e => eq e k) = some a := by
  cases hf : L.find? fun e => eq e k with
  | none =>
    have := List.find?_eq_none.mp hf a ha
    exact absurd hk this
  | some b =>
    by_contra hne
    have : Std.Symm fun a b : Entry => eq a b = false := ⟨fun _ _ => KeyEquiv.ne_symm⟩
    have hab := List.Pairwise.forall hd ha (List.mem_of_find?_eq_some hf) fun h => hne (h ▸ rfl)
    have hbk := List.find?_some (p := fun e => eq e k) hf
    rw [KeyEquiv.trans _ _ _ hk (KeyEquiv.symm _ _ hbk)] at hab
    cases hab

/-- The order does not matter to a lookup. -/
theorem Distinct.find_perm (hd : Distinct eq L) (hp : L.Perm L') :
    L'.find? (fun e => eq e k) = L.find? fun e => eq e k := by
  cases hf : L.find? fun e => eq e k with
  | none =>
    rw [List.find?_eq_none] at hf ⊢
    exact fun e he => hf e (hp.mem_iff.mpr he)
  | some a =>
    have hd' : Distinct eq L' := (hp.pairwise_iff fun h => KeyEquiv.ne_symm h).mp hd
    exact hd'.find_eq (hp.mem_iff.mp (List.mem_of_find?_eq_some hf))
      (List.find?_some (p := fun e => eq e k) hf)

/-- Erasing a key removes its entry. -/
theorem Distinct.eraseP_perm (hd : Distinct eq (a :: L)) (hp : (a :: L).Perm L')
    (hk : eq a k = true) : L.Perm (L'.eraseP fun e => eq e k) := by
  have hmem : a ∈ L' := hp.mem_iff.mp (by simp)
  obtain ⟨A, B, rfl⟩ := List.append_of_mem hmem
  have hperm : L.Perm (A ++ B) := (hp.trans List.perm_middle).cons_inv
  have hA : ∀ b ∈ A, ¬ eq b k = true := by
    intro b hb hbk
    have hab := (List.pairwise_cons.mp hd).1 b (hperm.mem_iff.mpr (by simp [hb]))
    rw [KeyEquiv.trans _ _ _ hk (KeyEquiv.symm _ _ hbk)] at hab
    cases hab
  rw [List.eraseP_append_right _ hA, List.eraseP_cons_of_pos (p := fun e => eq e k) hk]
  exact hperm

end Lists

namespace FiniteMap

variable {eq : Entry → Entry → Bool}

def empty : FiniteMap eq := ⟨[], List.Pairwise.nil⟩

variable (m : FiniteMap eq) (k : Entry)

def find : Option Entry := m.entries.find? fun e => eq e k

theorem distinct_append (h : m.find k = none) : Distinct eq (m.entries ++ [k]) := by
  refine List.pairwise_append.mpr ⟨m.distinct, List.pairwise_singleton _ _, fun a ha b hb => ?_⟩
  rw [List.mem_singleton.mp hb]
  simpa using List.find?_eq_none.mp h a ha

/-- The entry is added if its key is absent. -/
def insert : Bool × FiniteMap eq :=
  match h : m.find k with
  | some _ => (false, m)
  | none => (true, ⟨m.entries ++ [k], m.distinct_append k h⟩)

/-- The entry of the key is removed. -/
def erase : Bool × FiniteMap eq :=
  ((m.find k).isSome,
    ⟨m.entries.eraseP fun e => eq e k, m.distinct.sublist (List.eraseP_sublist ..)⟩)

def size : Nat := m.entries.length

variable {m k}

theorem insert_present (h : (m.find k).isSome = true) : m.insert k = (false, m) := by
  unfold insert
  split
  · rfl
  · next hn =>
    rw [hn] at h
    cases h

theorem insert_absent (h : m.find k = none) :
    (m.insert k).1 = true ∧ (m.insert k).2.entries = m.entries ++ [k] := by
  unfold insert
  split
  · next hn =>
    rw [hn] at h
    cases h
  · exact ⟨rfl, rfl⟩

theorem erase_absent (h : m.find k = none) : m.erase k = (false, m) := by
  refine Prod.ext (by rw [erase, h]; rfl) (FiniteMap.ext ?_)
  exact List.eraseP_of_forall_not fun e he => List.find?_eq_none.mp h e he

end FiniteMap

end MpmcMap.Maps
