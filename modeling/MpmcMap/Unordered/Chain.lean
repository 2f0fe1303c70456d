import MpmcMap.Maps.Finite
import MpmcMap.Unordered.BitOrder
import MpmcMap.Unordered.Engine
import Mathlib.Data.List.Nodup

/-!
# The list between two operations

What the container stores when no operation is running: the nodes of the list in order, none of them
marked, sorted by their split-order keys, and the buckets of the table that point into it.
-/

namespace MpmcMap.Unordered

variable {Addr Key : Type}

/-! ## Linked nodes -/

/-- The nodes `N` are linked in this order, without marks, and the last one ends the list. -/
def Linked (next : Addr → Link Addr) : List Addr → Prop
  | [] => True
  | a :: N => next a = .plain N.head? ∧ Linked next N

section Linked

variable {next next' : Addr → Link Addr} {A B B' N : List Addr} {p : Addr}

theorem Linked.suffix (h : Linked next (A ++ B)) : Linked next B := by
  induction A with
  | nil => exact h
  | cons a A ih => exact ih h.2

theorem Linked.next_eq (h : Linked next (A ++ p :: B)) : next p = .plain B.head? := h.suffix.1

theorem Linked.congr (h : Linked next N) (hne : ∀ a ∈ N, next' a = next a) : Linked next' N := by
  induction N with
  | nil => trivial
  | cons a N ih =>
    refine ⟨(hne a (by simp)).trans h.1, ih h.2 fun b hb => hne b ?_⟩
    exact List.mem_cons_of_mem _ hb

/-- The nodes behind `p` are replaced. -/
theorem Linked.splice (h : Linked next (A ++ p :: B)) (hA : ∀ a ∈ A, next' a = next a)
    (hp : next' p = .plain B'.head?) (hB : Linked next' B') : Linked next' (A ++ p :: B') := by
  induction A with
  | nil => exact ⟨hp, hB⟩
  | cons a A ih =>
    refine ⟨?_, ih h.2 fun b hb => hA b (List.mem_cons_of_mem _ hb)⟩
    rw [hA a (by simp), h.1]
    cases A <;> rfl

/-- Nothing is marked. -/
theorem Linked.unmarked (h : Linked next N) :
    Linked (fun a => (next a).clearMark) N ∧ ∀ a ∈ N, (next a).marked = false := by
  have hmark : ∀ a ∈ N, (next a).marked = false := by
    intro a ha
    obtain ⟨A, B, rfl⟩ := List.append_of_mem ha
    rw [h.next_eq]
    rfl
  refine ⟨h.congr fun a ha => ?_, hmark⟩
  rw [Link.clearMark, ← hmark a ha]

end Linked

/-! ## The state between two operations -/

/-- What the engine may assume of the user's functions. -/
structure Config.Lawful (C : Config Key) : Prop extends Maps.KeyEquiv C.eq where
  hash : ∀ a b, C.eq a b = true → C.hash a = C.hash b

/-- The nodes of `N` that hold elements. -/
def Heap.regular (h : Heap Addr Key) (N : List Addr) : List Addr :=
  N.filter fun a => isRegular (h.soKey a)

section Regular

variable {h : Heap Addr Key} {a : Addr} {A B : List Addr}

theorem Heap.regular_cons_pos (ha : isRegular (h.soKey a) = true) :
    h.regular (a :: B) = a :: h.regular B := List.filter_cons_of_pos ha

theorem Heap.regular_cons_neg (ha : isRegular (h.soKey a) = false) :
    h.regular (a :: B) = h.regular B := List.filter_cons_of_neg (by simp [ha])

theorem Heap.regular_append : h.regular (A ++ B) = h.regular A ++ h.regular B :=
  List.filter_append ..

theorem Heap.mem_regular : a ∈ h.regular A ↔ a ∈ A ∧ isRegular (h.soKey a) = true :=
  List.mem_filter

end Regular

/-- The list of the container is `N`. -/
structure Stores (C : Config Key) (h : Heap Addr Key) (N : List Addr) : Prop where
  linked : Linked h.next N
  nodup : N.Nodup
  sorted : N.Pairwise fun a b => h.soKey a ≤ h.soKey b
  alive : ∀ a ∈ N, a ∈ h.inUse
  size : ∃ j, 1 ≤ j ∧ j ≤ 30 ∧ h.size h.table = 2 ^ j
  made : h.table < h.tables
  head : ∃ d, N.head? = some d ∧ h.bucket h.table 0 = some d
  filled : ∀ b d, b < h.size h.table → h.bucket h.table b = some d →
    d ∈ N ∧ h.soKey d = dummySplitOrderKey b
  keyed : ∀ a ∈ N, isRegular (h.soKey a) = true → h.soKey a = soKeyOf (C.mixedHash (h.key a))
  distinct : (h.regular N).Pairwise fun a b => C.eq (h.key a) (h.key b) = false
  idle : h.growing = false

/-- The list is cut at the key `cmp`: behind `p` comes `B`. -/
structure CutAt (h : Heap Addr Key) (N : List Addr) (cmp : Word) (A : List Addr) (p : Addr)
    (B : List Addr) : Prop where
  eq : N = A ++ p :: B
  below : ∀ a ∈ A ++ [p], h.soKey a < cmp
  above : ∀ b ∈ B, cmp ≤ h.soKey b

section Stores

variable {C : Config Key} {h h' : Heap Addr Key} {A B N : List Addr} {n p t : Addr} {cmp : Word}

theorem Stores.size_pos (hs : Stores C h N) : 0 < h.size h.table := by
  obtain ⟨j, -, -, hj⟩ := hs.size
  rw [hj]
  exact Nat.two_pow_pos j

theorem Stores.size_le (hs : Stores C h N) : h.size h.table ≤ 2 ^ 30 := by
  obtain ⟨j, -, hj, hsize⟩ := hs.size
  rw [hsize]
  exact Nat.pow_le_pow_right (by decide) hj

/-- A dummy is not regular. -/
theorem Stores.not_regular (hs : Stores C h N) {b : Nat} {d : Addr} (hb : b < h.size h.table)
    (hd : h.bucket h.table b = some d) : isRegular (h.soKey d) = false := by
  rw [(hs.filled b d hb hd).2]
  have := hs.size_le
  exact isRegular_dummy (by omega)

/-- What the list of the container depends on. -/
theorem Stores.congr (hs : Stores C h N) (hnext : ∀ a ∈ N, h'.next a = h.next a)
    (hso : ∀ a ∈ N, h'.soKey a = h.soKey a)
    (hkey : ∀ a ∈ N, isRegular (h.soKey a) = true → h'.key a = h.key a)
    (halive : ∀ a ∈ N, a ∈ h'.inUse)
    (htable : h'.table = h.table ∧ h'.tables = h.tables ∧ h'.size = h.size ∧
      h'.bucket = h.bucket ∧ h'.growing = h.growing) : Stores C h' N := by
  obtain ⟨h1, h2, h3, h4, h5⟩ := htable
  have hreg : h'.regular N = h.regular N := by
    apply List.filter_congr
    intro a ha
    rw [hso a ha]
  constructor
  · exact hs.linked.congr hnext
  · exact hs.nodup
  · refine hs.sorted.imp_of_mem fun ha hb hab => ?_
    rw [hso _ ha, hso _ hb]
    exact hab
  · exact halive
  · rw [h1, h3]
    exact hs.size
  · rw [h1, h2]
    exact hs.made
  · rw [h1, h4]
    exact hs.head
  · intro b d hb hd
    rw [h1, h3] at hb
    rw [h1, h4] at hd
    obtain ⟨hmem, heq⟩ := hs.filled b d hb hd
    exact ⟨hmem, (hso d hmem).trans heq⟩
  · intro a ha hr
    rw [hso a ha] at hr ⊢
    rw [hkey a ha hr]
    exact hs.keyed a ha hr
  · rw [hreg]
    refine hs.distinct.imp_of_mem fun ha hb hab => ?_
    rw [Heap.regular, List.mem_filter] at ha hb
    rw [hkey _ ha.1 ha.2, hkey _ hb.1 hb.2]
    exact hab
  · rw [h5]
    exact hs.idle

/-- A cut of the list at a key above the one of the node `d`. -/
theorem CutAt.of_split (hs : Stores C h N) (hN : N = A ++ p :: B) (hp : h.soKey p < cmp)
    (hB : ∀ b ∈ B.head?, cmp ≤ h.soKey b) : CutAt h N cmp A p B where
  eq := hN
  below := by
    have hsorted := hs.sorted
    rw [hN, List.pairwise_append] at hsorted
    intro a ha
    rcases List.mem_append.mp ha with ha | ha
    · have hle := hsorted.2.2 a ha p (by simp)
      bv_omega
    · rw [List.mem_singleton.mp ha]
      exact hp
  above := by
    have hsorted := hs.sorted
    rw [hN, List.pairwise_append, List.pairwise_cons] at hsorted
    intro b hb
    cases B with
    | nil => cases hb
    | cons c B =>
      have hc := hB c rfl
      rcases List.mem_cons.mp hb with rfl | hb
      · exact hc
      · have hle := (List.pairwise_cons.mp hsorted.2.1.2).1 b hb
        bv_omega

theorem CutAt.congr (hcut : CutAt h N cmp A p B) (hso : ∀ a ∈ N, h'.soKey a = h.soKey a) :
    CutAt h' N cmp A p B where
  eq := hcut.eq
  below := by
    intro a ha
    rw [hso a (by rw [hcut.eq, List.append_cons]; exact List.mem_append_left _ ha)]
    exact hcut.below a ha
  above := by
    intro b hb
    rw [hso b (by rw [hcut.eq, List.append_cons]; exact List.mem_append_right _ hb)]
    exact hcut.above b hb

/-! ## One node more, one node less -/

theorem perm_insert (A B : List Addr) (p n : Addr) : (A ++ p :: n :: B).Perm (n :: (A ++ p :: B)) := by
  have h : ((A ++ [p]) ++ n :: B).Perm (n :: ((A ++ [p]) ++ B)) := List.perm_middle
  simpa using h

theorem Heap.regular_perm (hn : isRegular (h.soKey n) = true) :
    (h.regular (A ++ p :: n :: B)).Perm (n :: h.regular (A ++ p :: B)) := by
  have hperm := (perm_insert A B p n).filter fun a => isRegular (h.soKey a)
  rw [List.filter_cons_of_pos (p := fun a => isRegular (h.soKey a)) hn] at hperm
  exact hperm

/-- The node `n` is linked behind `p`. -/
theorem Stores.insert (hsymm : ∀ a b, C.eq a b = false → C.eq b a = false) (hs : Stores C h N)
    (hcut : CutAt h N (h.soKey n) A p B)
    (hn : n ∉ N) (halive : n ∈ h.inUse)
    (hkey : isRegular (h.soKey n) = true → h.soKey n = soKeyOf (C.mixedHash (h.key n)) ∧
      ∀ a ∈ N, isRegular (h.soKey a) = true → C.eq (h.key a) (h.key n) = false)
    {next : Addr → Link Addr} (hnext : next n = .plain B.head?) (hp : next p = .plain (some n))
    (hother : ∀ a ∈ N, a ≠ p → next a = h.next a) :
    Stores C { h with next := next } (A ++ p :: n :: B) := by
  obtain ⟨rfl, hbelow, habove⟩ := hcut
  have hperm := perm_insert A B p n
  have hnodup := hs.nodup
  rw [List.nodup_append, List.nodup_cons] at hnodup
  have hmem : ∀ a ∈ A ++ p :: n :: B, a = n ∨ a ∈ A ++ p :: B := by
    intro a ha
    exact List.mem_cons.mp (hperm.mem_iff.mp ha)
  have hsub : ∀ a ∈ A ++ p :: B, a ∈ A ++ p :: n :: B := by
    intro a ha
    exact hperm.mem_iff.mpr (List.mem_cons_of_mem _ ha)
  constructor
  · refine hs.linked.splice (fun a ha => hother a (by simp [ha]) ?_) hp ⟨hnext, ?_⟩
    · rintro rfl
      exact hnodup.2.2 a ha a (by simp) rfl
    · refine hs.linked.suffix.2.congr fun a ha => hother a (by simp [ha]) ?_
      rintro rfl
      exact hnodup.2.1.1 ha
  · exact hperm.nodup_iff.mpr (List.nodup_cons.mpr ⟨hn, hs.nodup⟩)
  · have hsorted := hs.sorted
    rw [List.append_cons, List.pairwise_append] at hsorted ⊢
    refine ⟨hsorted.1, List.pairwise_cons.mpr ⟨habove, hsorted.2.1⟩, fun a ha b hb => ?_⟩
    rcases List.mem_cons.mp hb with rfl | hb
    -- before `n` the keys are smaller
    · have hlt := hbelow a ha
      bv_omega
    · exact hsorted.2.2 a ha b hb
  · intro a ha
    rcases hmem a ha with rfl | ha
    · exact halive
    · exact hs.alive a ha
  · exact hs.size
  · exact hs.made
  · obtain ⟨d, hd, hbucket⟩ := hs.head
    refine ⟨d, ?_, hbucket⟩
    rw [← hd]
    cases A <;> rfl
  · intro b d hb hd
    obtain ⟨hd, heq⟩ := hs.filled b d hb hd
    exact ⟨hsub d hd, heq⟩
  · intro a ha hr
    rcases hmem a ha with rfl | ha
    · exact (hkey hr).1
    · exact hs.keyed a ha hr
  · refine ((hperm.filter _).pairwise_iff (hsymm _ _)).mpr ?_
    rw [List.filter_cons]
    split
    · next hr =>
      -- a regular node is new among the keys
      refine List.pairwise_cons.mpr ⟨fun a ha => ?_, hs.distinct⟩
      rw [List.mem_filter] at ha
      exact hsymm _ _ ((hkey hr).2 a ha.1 ha.2)
    · exact hs.distinct
  · exact hs.idle

/-- The regular node `t` is unlinked from behind `p`. -/
theorem Stores.remove (hs : Stores C h (A ++ p :: t :: B)) (ht : isRegular (h.soKey t) = true)
    {next : Addr → Link Addr} (hp : next p = .plain B.head?)
    (hother : ∀ a ∈ A ++ p :: t :: B, a ≠ p → a ≠ t → next a = h.next a) :
    Stores C { h with next := next } (A ++ p :: B) := by
  have hperm := perm_insert A B p t
  obtain ⟨htN, hnodup'⟩ := List.nodup_cons.mp (hperm.nodup_iff.mp hs.nodup)
  have hnodup := hnodup'
  rw [List.nodup_append, List.nodup_cons] at hnodup
  have hsublist : (A ++ p :: B).Sublist (A ++ p :: t :: B) :=
    (List.Sublist.refl A).append ((List.sublist_cons_self t B).cons_cons p)
  have hkeep : ∀ a ∈ A ++ p :: B, a ≠ p → next a = h.next a := by
    intro a ha hap
    refine hother a (hsublist.subset ha) hap ?_
    rintro rfl
    exact htN ha
  constructor
  · refine hs.linked.splice (fun a ha => hkeep a (by simp [ha]) ?_) hp ?_
    · rintro rfl
      exact hnodup.2.2 a ha a (by simp) rfl
    · refine hs.linked.suffix.2.2.congr fun a ha => hkeep a (by simp [ha]) ?_
      rintro rfl
      exact hnodup.2.1.1 ha
  · exact hnodup'
  · exact hs.sorted.sublist hsublist
  · exact fun a ha => hs.alive a (hsublist.subset ha)
  · exact hs.size
  · exact hs.made
  · obtain ⟨d, hd, hbucket⟩ := hs.head
    refine ⟨d, ?_, hbucket⟩
    rw [← hd]
    cases A <;> rfl
  · intro b d hb hd
    have hdummy := hs.not_regular hb hd
    obtain ⟨hdN, heq⟩ := hs.filled b d hb hd
    refine ⟨?_, heq⟩
    rcases List.mem_cons.mp (hperm.mem_iff.mp hdN) with rfl | hdN
    · exact absurd ht (by simp [hdummy])
    · exact hdN
  · exact fun a ha hr => hs.keyed a (hsublist.subset ha) hr
  · exact hs.distinct.sublist (hsublist.filter _)
  · exact hs.idle

end Stores

end MpmcMap.Unordered
