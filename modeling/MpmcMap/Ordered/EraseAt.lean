import MpmcMap.Maps.Positions
import MpmcMap.Ordered.Values

/-!
# `erase(const_iterator)` of the ordered containers

An iterator keeps a key, also once it is an end iterator. `erase` turns its argument into a mutable
iterator, which is never an end iterator, and increments that one first.
-/

namespace MpmcMap.Ordered

open Conc RedBlack Maps

variable {Key : Type}

/-- `iterator` and `const_iterator`. -/
structure Iterator (Key : Type) where
  isEnd : Bool
  key : Key

/-! ## The code -/

section Code

variable {Addr : Type} [DecidableEq Addr] (cmp : Key → Key → Bool)

/-- `iterator::advance()`. -/
def Iterator.advance (i : Iterator Key) : Code Addr Key (Iterator Key) := do
  match ← nextNode cmp i.key with
  | some key => return { i with key }
  | none => return { i with isEnd := true }

/-- `const_iterator_to_iterator(c)`. -/
def constIteratorToIterator (c : Iterator Key) : Iterator Key := ⟨false, c.key⟩

/-- `erase(pos)`. -/
def eraseAt (pos : Iterator Key) : Code Addr Key (Iterator Key) := do
  let next ← (constIteratorToIterator pos).advance cmp
  if !pos.isEnd then
    let _ ← eraseNode cmp pos.key
    return next
  else
    return next

end Code

/-! ## Iterators into a container -/

/-- The entries in the order of iteration. -/
def Heap.Entries (h : Heap Ptr Key) (L : List (Key × Ptr)) : Prop :=
  ∃ t, h.Stores t ∧ entriesOf h.key t = L

/-- An iterator to the entry `e`, or an end iterator, which stores any key. -/
def Iterator.Into (cmp : Key → Key → Bool) (h : Heap Ptr Key) (i : Iterator Key) :
    Option (Key × Ptr) → Prop
  | some e => i.isEnd = false ∧ cmp e.1 i.key = false ∧ cmp i.key e.1 = false ∧
      ∃ L, h.Entries L ∧ e ∈ L
  | none => i.isEnd = true

/-- The ordered containers with `erase(const_iterator)`. -/
def ordered (cmp : Key → Key → Bool) : IterModel (Iterator Key) (Key × Ptr) where
  State := Heap Ptr Key
  Reached := Reached cmp
  Calm _ := True
  Elements := Heap.Entries
  Into h i := i.Into cmp h
  Last h i := ∃ L, h.Entries L ∧ ∀ e ∈ L, cmp i.key e.1 = false
  eraseAt i h fuel :=
    ((eraseAt cmp i).run (fun o h => o.perform h) fuel h).map fun r => (some r.1, r.2)

/-! ## What the call does -/

section Laws

variable {cmp : Key → Key → Bool} {h h' : Heap Ptr Key} {t : PtrTree Ptr} {k : Key} {e : Key × Ptr}
  {i pos : Iterator Key} {m : SortedMap cmp Ptr} {A B L L' : List (Key × Ptr)}

theorem Heap.Entries.unique (h1 : h.Entries L) (h2 : h.Entries L') : L = L' := by
  obtain ⟨t, ht, rfl⟩ := h1
  obtain ⟨t', ht', rfl⟩ := h2
  rw [ht.unique ht']

theorem Quiet.represents (hq : Quiet m h t) : h.Entries m.entries :=
  ⟨t, hq.stores, hq.entries⟩

/-- The iterator moved to an entry, or to the end. -/
def Iterator.moved (i : Iterator Key) : Option (Key × Ptr) → Iterator Key
  | some e => { i with key := e.1 }
  | none => { i with isEnd := true }

variable [StrictWeakOrder cmp]

/-- An increment moves to the least greater entry. -/
theorem Iterator.advance_ends (hq : Quiet m h t) (i : Iterator Key) :
    Ends sequential
      (fun j h' => j = i.moved (m.entries.find? fun e => cmp i.key e.1) ∧ h' = h)
      (i.advance cmp) h := by
  have hsorted : Sorted cmp (entriesOf h.key t) := hq.entries ▸ m.sorted
  apply Ends.bind (steady_sequential
    (boundNode_spec hq.rest.unlocked hq.rest.root hq.rest.fits hsorted))
  rintro r h' ⟨rfl, rfl⟩
  rw [hq.entries]
  have hbound : (isBound cmp i.key true : Key × Ptr → Bool) = fun e => cmp i.key e.1 := rfl
  rw [hbound]
  cases m.entries.find? fun e => cmp i.key e.1 with
  | none => exact Ends.ret ⟨rfl, rfl⟩
  | some e => exact Ends.ret ⟨rfl, rfl⟩

/-- An iterator that has moved to an entry of the new tree. -/
theorem Iterator.moved_into (hend : i.isEnd = false) (hL : h.Entries L) (he : e ∈ L) :
    (i.moved (some e)).Into cmp h (some e) :=
  ⟨hend, StrictWeakOrder.irrefl _, StrictWeakOrder.irrefl _, L, hL, he⟩

/-- An end iterator: nothing is erased. -/
theorem eraseAt_end (hq : Quiet m h t) (hend : pos.isEnd = true) :
    Ends sequential (fun j h' => h' = h ∧
        j = (constIteratorToIterator pos).moved (m.entries.find? fun e => cmp pos.key e.1))
      (eraseAt cmp pos) h := by
  apply Ends.bind ((constIteratorToIterator pos).advance_ends hq)
  rintro j h' ⟨rfl, rfl⟩
  rw [hend]
  exact Ends.ret ⟨rfl, rfl⟩

/-- An element: it is erased. -/
theorem eraseAt_element (hq : Quiet m h t) (hend : pos.isEnd = false)
    (hm : m.entries = A ++ e :: B) (h1 : cmp e.1 pos.key = false) (h2 : cmp pos.key e.1 = false) :
    Ends sequential (fun j h' => j = (constIteratorToIterator pos).moved B.head? ∧
        h'.Entries (A ++ B))
      (eraseAt cmp pos) h := by
  have hentries : m.entries = A ++ (e.1, e.2) :: B := hm
  have hsorted : Sorted cmp (A ++ (e.1, e.2) :: B) := hentries ▸ m.sorted
  apply Ends.bind ((constIteratorToIterator pos).advance_ends hq)
  rintro j h' ⟨rfl, rfl⟩
  have hfollow : m.entries.find? (fun e => cmp pos.key e.1) = B.head? := by
    rw [hm]
    exact SortedMap.find_after hsorted h1 h2
  rw [hend]
  apply Ends.bind (eraseNode_seq small_ptr hq)
  rintro b h'' ⟨-, t', hq'⟩
  refine Ends.ret ⟨?_, ?_⟩
  · show Iterator.moved _ (m.entries.find? fun e => cmp pos.key e.1) = _
    rw [hfollow]
  · rw [← (m.erase_present hentries h1 h2).2]
    exact hq'.represents

theorem ordered_resumes : (ordered cmp).Resumes where
  into_unique := by
    rintro h pos e e' he he' rfl
    cases e' with
    | none => rfl
    | some e =>
      have h1 : pos.isEnd = true := he
      rw [he'.1] at h1
      cases h1
  eraseAt := by
    rintro h L pos e hs hL he
    obtain ⟨m, t, hq⟩ := hs.quiet
    obtain rfl := hL.unique hq.represents
    cases e with
    | some e =>
      obtain ⟨hend, h1, h2, L', hL', hmem⟩ := he
      obtain rfl := hL.unique hL'
      obtain ⟨A, B, hm⟩ := List.append_of_mem hmem
      apply (Ends.returns sequential_executes (eraseAt_element hq hend hm h1 h2)).map
      rintro ⟨j, h'⟩ ⟨rfl, hL'⟩
      refine ⟨fun _ => rfl, ?_⟩
      rintro next hnext
      obtain rfl := Option.some.inj hnext
      refine ⟨A, B, hm, hL', ?_⟩
      cases B with
      | nil => exact rfl
      | cons b B => exact Iterator.moved_into rfl hL' (by simp)
    | none =>
      apply (Ends.returns sequential_executes (eraseAt_end hq he)).map
      rintro ⟨j, h'⟩ ⟨rfl, rfl⟩
      refine ⟨fun _ => rfl, ?_⟩
      rintro next hnext
      obtain rfl := Option.some.inj hnext
      refine ⟨hL, m.entries.find? fun e => cmp pos.key e.1, ?_, ?_⟩
      · cases hf : m.entries.find? fun e => cmp pos.key e.1 with
        | none => exact rfl
        | some e => exact Iterator.moved_into rfl hL (List.mem_of_find?_eq_some hf)
      -- it is the end iff no element follows the stored key
      · rw [List.find?_eq_none]
        constructor
        · intro hlast
          exact ⟨_, hL, fun e he => Bool.eq_false_iff.mpr (hlast e he)⟩
        · rintro ⟨L, hL', hlast⟩ e he
          rw [← hL.unique hL'] at hlast
          rw [hlast e he]
          decide

end Laws

end MpmcMap.Ordered
