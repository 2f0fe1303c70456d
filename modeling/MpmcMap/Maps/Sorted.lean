import Mathlib.Data.List.Basic

/-!
# Strictly sorted maps

Maps over a strict weak order, as strictly sorted lists of entries: what an ordered container is
for. Keys that compare neither way are one key.
-/

namespace MpmcMap.Maps

variable {Key Val : Type}

/-- A comparison predicate that a sorted container may use. -/
class StrictWeakOrder (cmp : Key → Key → Bool) : Prop where
  irrefl : ∀ a, cmp a a = false
  trans : ∀ a b c, cmp a b = true → cmp b c = true → cmp a c = true
  incomp_trans : ∀ a b c, cmp a b = false → cmp b a = false → cmp b c = false → cmp c b = false →
    cmp a c = false ∧ cmp c a = false

namespace StrictWeakOrder

variable {cmp : Key → Key → Bool} [hw : StrictWeakOrder cmp] {a b c : Key}

theorem lt_trans (hab : cmp a b = true) (hbc : cmp b c = true) : cmp a c = true :=
  hw.trans a b c hab hbc

theorem asymm (h : cmp a b = true) : cmp b a = false := by
  by_contra hba
  have haa := hw.trans a b a h (by simpa using hba)
  rw [hw.irrefl] at haa
  cases haa

/-- What is below `b` is below everything equivalent to `b`. -/
theorem lt_of_lt_of_equiv (hab : cmp a b = true) (h1 : cmp b c = false) (h2 : cmp c b = false) :
    cmp a c = true := by
  by_contra hac
  have hac' : cmp a c = false := by simpa using hac
  cases hca : cmp c a with
  | true =>
    have := hw.trans c a b hca hab
    rw [h2] at this
    cases this
  | false =>
    have := (hw.incomp_trans a c b hac' hca h2 h1).1
    rw [hab] at this
    cases this

/-- What is above `b` is above everything equivalent to `b`. -/
theorem lt_of_equiv_of_lt (h1 : cmp a b = false) (h2 : cmp b a = false) (hbc : cmp b c = true) :
    cmp a c = true := by
  by_contra hac
  have hac' : cmp a c = false := by simpa using hac
  cases hca : cmp c a with
  | true =>
    have := hw.trans b c a hbc hca
    rw [h2] at this
    cases this
  | false =>
    have := (hw.incomp_trans b a c h2 h1 hac' hca).1
    rw [hbc] at this
    cases this

end StrictWeakOrder

open StrictWeakOrder

section Lists

variable (cmp : Key → Key → Bool) (k : Key) (L : List (Key × Val))

/-- Strictly increasing keys. -/
def Sorted : Prop := L.Pairwise fun a b => cmp a.1 b.1 = true

/-- The entries with a smaller key. -/
def below : List (Key × Val) := L.filter fun e => cmp e.1 k

/-- The entries with a greater key. -/
def above : List (Key × Val) := L.filter fun e => cmp k e.1

/-- The entry of a key. -/
def lookup : Option (Key × Val) := L.find? fun e => !cmp e.1 k && !cmp k e.1

end Lists

variable {cmp : Key → Key → Bool} [StrictWeakOrder cmp] {k k' : Key} {v v' : Val}
  {A B L : List (Key × Val)}

/-- A list cut at a key that it does not contain. -/
theorem cut_absent (hA : ∀ e ∈ A, cmp e.1 k = true) (hB : ∀ e ∈ B, cmp k e.1 = true) :
    below cmp k (A ++ B) = A ∧ lookup cmp k (A ++ B) = none ∧ above cmp k (A ++ B) = B := by
  have hA' : ∀ e ∈ A, cmp k e.1 = false := fun e he => asymm (hA e he)
  have hB' : ∀ e ∈ B, cmp e.1 k = false := fun e he => asymm (hB e he)
  refine ⟨?_, ?_, ?_⟩
  · rw [below, List.filter_append, List.filter_eq_self.mpr hA, List.filter_eq_nil_iff.mpr]
    · simp
    · intro e he
      simp [hB' e he]
  · rw [lookup, List.find?_eq_none]
    intro e he
    rcases List.mem_append.mp he with he | he
    · simp [hA e he]
    · simp [hB e he]
  · rw [above, List.filter_append, List.filter_eq_self.mpr hB, List.filter_eq_nil_iff.mpr]
    · rfl
    · intro e he
      simp [hA' e he]

/-- A list cut at the entry of a key. -/
theorem cut_present (hA : ∀ e ∈ A, cmp e.1 k = true) (hB : ∀ e ∈ B, cmp k e.1 = true)
    (h1 : cmp k' k = false) (h2 : cmp k k' = false) :
    below cmp k (A ++ (k', v) :: B) = A ∧ lookup cmp k (A ++ (k', v) :: B) = some (k', v) ∧
      above cmp k (A ++ (k', v) :: B) = B := by
  obtain ⟨hb, hl, ha⟩ := cut_absent hA hB
  rw [below, List.filter_append] at hb
  rw [above, List.filter_append] at ha
  refine ⟨?_, ?_, ?_⟩
  · rw [below, List.filter_append, List.filter_cons_of_neg (by simp [h1]), hb]
  · have hA' : A.find? (fun e => !cmp e.1 k && !cmp k e.1) = none := by
      rw [List.find?_eq_none]
      intro e he
      simp [hA e he]
    rw [lookup, List.find?_append, hA']
    simp [h1, h2]
  · rw [above, List.filter_append, List.filter_cons_of_neg (by simp [h2]), ha]

/-- The neighbours of the entry of `k`. -/
theorem Sorted.cut (h : Sorted cmp (A ++ (k', v) :: B)) (h1 : cmp k' k = false)
    (h2 : cmp k k' = false) :
    (∀ e ∈ A, cmp e.1 k = true) ∧ ∀ e ∈ B, cmp k e.1 = true := by
  rw [Sorted, List.pairwise_append, List.pairwise_cons] at h
  obtain ⟨-, ⟨hB, -⟩, hA⟩ := h
  exact ⟨fun e he => lt_of_lt_of_equiv (hA e he _ List.mem_cons_self) h1 h2,
    fun e he => lt_of_equiv_of_lt h2 h1 (hB e he)⟩

/-- Every sorted list is cut at every key. -/
theorem Sorted.parts (h : Sorted cmp L) (k : Key) :
    L = below cmp k L ++ (lookup cmp k L).toList ++ above cmp k L := by
  induction L with
  | nil => rfl
  | cons e L ih =>
    obtain ⟨he, hL⟩ := List.pairwise_cons.mp h
    cases hek : cmp e.1 k with
    | true =>
      have hke : cmp k e.1 = false := asymm hek
      simpa [below, lookup, above, hek, hke] using ih hL
    | false =>
      cases hke : cmp k e.1 with
      | false =>
        obtain ⟨h1, h2⟩ := Sorted.cut (A := []) h hek hke
        obtain ⟨h3, h4, h5⟩ := cut_present (v := e.2) (A := []) (by simp) h2 hek hke
        rw [List.nil_append] at h3 h4 h5
        rw [show e :: L = (e.1, e.2) :: L from rfl, h3, h4, h5]
        rfl
      | true =>
        have hall : ∀ x ∈ e :: L, cmp k x.1 = true := by
          intro x hx
          rcases List.mem_cons.mp hx with rfl | hx
          · exact hke
          · exact lt_trans hke (he x hx)
        obtain ⟨h3, h4, h5⟩ := cut_absent (A := []) (by simp) hall
        rw [List.nil_append] at h3 h4 h5
        rw [h3, h4, h5]
        rfl

/-- The entry at the top of a search tree is the one looked up. -/
theorem Sorted.lookup_here (h : Sorted cmp (A ++ (k', v) :: B)) (h1 : cmp k' k = false)
    (h2 : cmp k k' = false) : lookup cmp k (A ++ (k', v) :: B) = some (k', v) :=
  (cut_present (h.cut h1 h2).1 (h.cut h1 h2).2 h1 h2).2.1

/-- A smaller key is looked up among the smaller entries. -/
theorem Sorted.lookup_left (h : Sorted cmp (A ++ (k', v) :: B)) (hk : cmp k k' = true) :
    lookup cmp k (A ++ (k', v) :: B) = lookup cmp k A := by
  rw [Sorted, List.pairwise_append, List.pairwise_cons] at h
  have hB : ∀ e ∈ (k', v) :: B, cmp k e.1 = true := by
    intro e he
    rcases List.mem_cons.mp he with rfl | he
    · exact hk
    · exact lt_trans hk (h.2.1.1 e he)
  have hnone : lookup cmp k ((k', v) :: B) = none := (cut_absent (A := []) (by simp) hB).2.1
  rw [lookup] at hnone
  rw [lookup, lookup, List.find?_append, hnone, Option.or_none]

/-- A greater key is looked up among the greater entries. -/
theorem Sorted.lookup_right (h : Sorted cmp (A ++ (k', v) :: B)) (hk : cmp k' k = true) :
    lookup cmp k (A ++ (k', v) :: B) = lookup cmp k B := by
  rw [Sorted, List.pairwise_append] at h
  have hA : ∀ e ∈ A ++ [(k', v)], cmp e.1 k = true := by
    intro e he
    rcases List.mem_append.mp he with he | he
    · exact lt_trans (h.2.2 e he _ List.mem_cons_self) hk
    · obtain rfl := List.mem_singleton.mp he
      exact hk
  have hnone : lookup cmp k (A ++ [(k', v)]) = none := by
    have := (cut_absent (B := []) hA (by simp)).2.1
    rwa [List.append_nil] at this
  rw [lookup] at hnone
  rw [List.append_cons, lookup, lookup, List.find?_append, hnone, Option.none_or]

theorem Sorted.insert (h : Sorted cmp L) (v : Val) :
    Sorted cmp (below cmp k L ++ (k, v) :: above cmp k L) := by
  have hb : ∀ e ∈ below cmp k L, cmp e.1 k = true := fun e he => (List.mem_filter.mp he).2
  have ha : ∀ e ∈ above cmp k L, cmp k e.1 = true := fun e he => (List.mem_filter.mp he).2
  rw [Sorted, List.pairwise_append, List.pairwise_cons]
  refine ⟨h.filter _, ⟨ha, h.filter _⟩, fun e he e' he' => ?_⟩
  rcases List.mem_cons.mp he' with rfl | he'
  · exact hb e he
  · exact lt_trans (hb e he) (ha e' he')

theorem Sorted.erase (h : Sorted cmp L) : Sorted cmp (below cmp k L ++ above cmp k L) := by
  rw [Sorted, List.pairwise_append]
  exact ⟨h.filter _, h.filter _, fun e he e' he' =>
    lt_trans (List.mem_filter.mp he).2 (List.mem_filter.mp he').2⟩

/-! ## The maps -/

/-- A map with strictly increasing keys. -/
structure SortedMap (cmp : Key → Key → Bool) (Val : Type) where
  entries : List (Key × Val)
  sorted : Sorted cmp entries

namespace SortedMap

variable (m : SortedMap cmp Val)

/-- No entries. -/
def empty : SortedMap cmp Val := ⟨[], List.Pairwise.nil⟩

/-- The value of a key. -/
def find (k : Key) : Option Val := (lookup cmp k m.entries).map Prod.snd

/-- Add an entry, unless the key is present. -/
def insert (k : Key) (v : Val) : Bool × SortedMap cmp Val :=
  if (lookup cmp k m.entries).isSome then (false, m)
  else (true, ⟨below cmp k m.entries ++ (k, v) :: above cmp k m.entries, m.sorted.insert v⟩)

/-- Remove a key. -/
def erase (k : Key) : Bool × SortedMap cmp Val :=
  ((lookup cmp k m.entries).isSome,
    ⟨below cmp k m.entries ++ above cmp k m.entries, m.sorted.erase⟩)

/-- The least key that is not below `k`, or the least above it. -/
def bound (k : Key) (strict : Bool) : Option Key :=
  (m.entries.find? fun e => if strict then cmp k e.1 else !cmp e.1 k).map Prod.fst

/-- The least key. -/
def first : Option Key := m.entries.head?.map Prod.fst

/-- The number of keys. -/
def size : Nat := m.entries.length

variable {m}

omit [StrictWeakOrder cmp] in
@[ext] theorem ext {m m' : SortedMap cmp Val} (h : m.entries = m'.entries) : m = m' := by
  cases m
  cases m'
  cases h
  rfl

theorem insert_absent (he : m.entries = A ++ B) (hA : ∀ e ∈ A, cmp e.1 k = true)
    (hB : ∀ e ∈ B, cmp k e.1 = true) :
    (m.insert k v).1 = true ∧ (m.insert k v).2.entries = A ++ (k, v) :: B := by
  obtain ⟨h1, h2, h3⟩ := cut_absent hA hB
  simp [insert, he, h1, h2, h3]

theorem insert_present (he : m.entries = A ++ (k', v') :: B) (h1 : cmp k' k = false)
    (h2 : cmp k k' = false) : m.insert k v = (false, m) := by
  obtain ⟨hA, hB⟩ := Sorted.cut (he ▸ m.sorted) h1 h2
  obtain ⟨-, h4, -⟩ := cut_present (v := v') hA hB h1 h2
  simp [insert, he, h4]

/-- The entry of a key after its insertion. -/
theorem lookup_insert (m : SortedMap cmp Val) (k : Key) (v : Val) :
    (m.insert k v).1 = (lookup cmp k m.entries).isNone ∧
      lookup cmp k (m.insert k v).2.entries = some ((lookup cmp k m.entries).getD (k, v)) := by
  cases hl : lookup cmp k m.entries with
  | none =>
    have hA : ∀ e ∈ below cmp k m.entries, cmp e.1 k = true := fun e he => (List.mem_filter.mp he).2
    have hB : ∀ e ∈ above cmp k m.entries, cmp k e.1 = true := fun e he => (List.mem_filter.mp he).2
    have hpresent := (cut_present (v := v) hA hB (irrefl k) (irrefl k)).2.1
    simp [insert, hl, hpresent]
  | some e => simp [insert, hl]

theorem erase_absent (h : ∀ e ∈ m.entries, cmp e.1 k = true ∨ cmp k e.1 = true) :
    m.erase k = (false, m) := by
  have hnone : lookup cmp k m.entries = none := by
    rw [lookup, List.find?_eq_none]
    intro e he
    rcases h e he with h | h <;> simp [h]
  have hparts := m.sorted.parts k
  rw [hnone] at hparts
  refine Prod.ext (by simp [erase, hnone]) (ext ?_)
  show below cmp k m.entries ++ above cmp k m.entries = m.entries
  simpa using hparts.symm

theorem erase_present (he : m.entries = A ++ (k', v') :: B) (h1 : cmp k' k = false)
    (h2 : cmp k k' = false) : (m.erase k).1 = true ∧ (m.erase k).2.entries = A ++ B := by
  obtain ⟨hA, hB⟩ := Sorted.cut (he ▸ m.sorted) h1 h2
  obtain ⟨h3, h4, h5⟩ := cut_present (v := v') hA hB h1 h2
  simp [erase, he, h3, h4, h5]

/-- The least key above the one of an entry is that of the next entry. -/
theorem find_after (h : Sorted cmp (A ++ (k', v) :: B)) (h1 : cmp k' k = false)
    (h2 : cmp k k' = false) :
    (A ++ (k', v) :: B).find? (fun e => cmp k e.1) = B.head? := by
  obtain ⟨hA, hB⟩ := h.cut h1 h2
  have hnone : A.find? (fun e => cmp k e.1) = none := by
    rw [List.find?_eq_none]
    intro e he
    rw [asymm (hA e he)]
    decide
  rw [List.find?_append, hnone, Option.none_or, List.find?_cons_of_neg (by simp [h2])]
  cases B with
  | nil => rfl
  | cons b B => simp [hB b (by simp)]

end SortedMap

end MpmcMap.Maps
