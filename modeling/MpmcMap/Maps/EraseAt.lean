import MpmcMap.Ordered.EraseAt
import MpmcMap.Unordered.EraseAt

/-!
# The law of `erase(const_iterator)`

An end iterator is converted to an iterator at the key that it stores, and the increment then finds
whatever element comes after that key.
-/

namespace MpmcMap.Maps

open Conc

/-- The containers: the sets, and the maps with pairs as their keys. -/
inductive Container : {Pos Elem : Type} → IterModel Pos Elem → Prop where
  | unordered {Addr Key : Type} [DecidableEq Addr] {C : Unordered.Config Key} (hC : C.Lawful) :
      Container (Unordered.unordered Addr C)
  | ordered {Key : Type} {cmp : Key → Key → Bool} [StrictWeakOrder cmp] :
      Container (Ordered.ordered cmp)

theorem Container.resumes {Pos Elem : Type} {M : IterModel Pos Elem} (hM : Container M) :
    M.Resumes := by
  cases hM with
  | unordered hC => exact Unordered.unordered_resumes hC
  | ordered => exact Ordered.ordered_resumes

/-- Where nothing throws the call returns, and then the law holds exactly for the elements and for
the end iterators whose stored key nothing follows. -/
theorem eraseLaw_iff {Pos Elem : Type} {M : IterModel Pos Elem} (hM : Container M) {s : M.State}
    {L : List Elem} {pos : Pos} {e : Option Elem} (hs : M.Reached s) (hL : M.Elements s L)
    (he : M.Into s pos e) :
    (M.Calm s → M.Completes pos s) ∧
      (M.Completes pos s → (M.EraseLaw pos s L e ↔ e ≠ none ∨ M.Last s pos)) := by
  have hresumes := hM.resumes
  exact ⟨hresumes.completes hs hL he, hresumes.eraseLaw_cases hs hL he⟩

/-! ## A set with one element -/

section OneElement

open Ordered

/-- The set of numbers. -/
abbrev someSet : IterModel (Iterator Nat) (Nat × Ptr) := ordered natLess

/-- A run that has inserted 1. -/
theorem someSet_element : ∃ h, someSet.Reached h ∧ someSet.Elements h [(1, ptr 1)] := by
  have hq := quiet_new natLess fun _ : Ptr => 0
  have hn := hq.outside (n := ptr 1) (by simp [SortedMap.empty])
  obtain ⟨⟨b, h⟩, ⟨-, -, t, hq'⟩, ⟨F, hF⟩, -⟩ :=
    Ends.returns sequential_executes (emplace_seq (k := 1) hq hn)
  exact ⟨h, .emplace (.new _) hn (hF F (Nat.le_refl F)), hq'.represents⟩

/-- `end()` stores the key 0, and the element 1 comes after it. -/
theorem eraseLaw_end : ∃ h, someSet.Reached h ∧ someSet.Elements h [(1, ptr 1)] ∧
    someSet.Into h ⟨true, 0⟩ none ∧ ¬ someSet.EraseLaw ⟨true, 0⟩ h [(1, ptr 1)] none := by
  obtain ⟨h, hs, hL⟩ := someSet_element
  have he : someSet.Into h ⟨true, 0⟩ none := rfl
  refine ⟨h, hs, hL, he, fun hlaw => ?_⟩
  have hresumes : someSet.Resumes := ordered_resumes
  have hdone := hresumes.completes hs hL he trivial
  rcases (hresumes.eraseLaw_cases hs hL he hdone).mp hlaw with hne | ⟨L, hL', hlast⟩
  · exact hne rfl
  · rw [← Heap.Entries.unique hL hL'] at hlast
    have := hlast (1, ptr 1) (by simp)
    cases this

/-- The element itself. -/
theorem eraseLaw_iff_element : ∃ h, someSet.Reached h ∧
    someSet.EraseLaw ⟨false, 1⟩ h [(1, ptr 1)] (some (1, ptr 1)) := by
  obtain ⟨h, hs, hL⟩ := someSet_element
  have hM : Container someSet := .ordered
  have he : someSet.Into h ⟨false, 1⟩ (some (1, ptr 1)) :=
    ⟨rfl, rfl, rfl, [(1, ptr 1)], hL, by simp⟩
  have hlaw := eraseLaw_iff hM hs hL he
  exact ⟨h, hs, (hlaw.2 (hlaw.1 trivial)).mpr (.inl nofun)⟩

end OneElement

end MpmcMap.Maps
