import Mathlib.Data.List.Nodup
import Mathlib.Data.List.Perm.Basic
import Mathlib.Logic.Function.Basic

/-!
# Linked lists in a heap

A cell of the heap holds a link and a payload. `Chain heap h L e` says that the links lead from `h`
through the cells of `L`, each listed with its payload, to `e`. A chain that ends is acyclic, and
what happens outside its cells does not matter to it.
-/

namespace MpmcMap.Conc

variable {α β : Type}

/-- The cells from `h` to `e`. -/
def Chain (heap : α → Option (Option α × β)) : Option α → List (α × β) → Option α → Prop
  | h, [], e => h = e
  | h, c :: L, e => h = some c.1 ∧ ∃ n, heap c.1 = some (n, c.2) ∧ Chain heap n L e

namespace Chain

variable {heap heap' : α → Option (Option α × β)} {h m e : Option α} {L K : List (α × β)} {a : α}
  {b : β}

@[simp] theorem nil : Chain heap h [] e ↔ h = e := Iff.rfl

@[simp] theorem cons {c : α × β} : Chain heap h (c :: L) e ↔
    h = some c.1 ∧ ∃ n, heap c.1 = some (n, c.2) ∧ Chain heap n L e := Iff.rfl

/-- A chain that starts nowhere has no cells. -/
theorem eq_nil (hL : Chain heap none L e) : L = [] := by
  cases L with
  | nil => rfl
  | cons c L =>
    obtain ⟨h, -⟩ := hL
    cases h

theorem append : Chain heap h (L ++ K) e ↔ ∃ m, Chain heap h L m ∧ Chain heap m K e := by
  induction L generalizing h with
  | nil => simp
  | cons c L ih => simp only [List.cons_append, cons, ih]; grind

/-- Only the cells of the chain matter. -/
theorem congr (hL : Chain heap h L e) (hc : ∀ c ∈ L, heap' c.1 = heap c.1) :
    Chain heap' h L e := by
  induction L generalizing h with
  | nil => exact hL
  | cons c L ih =>
    obtain ⟨rfl, n, hn, hrest⟩ := hL
    refine ⟨rfl, n, ?_, ih hrest fun d hd => hc d (List.mem_cons_of_mem _ hd)⟩
    rw [hc c List.mem_cons_self, hn]

theorem cell (hL : Chain heap h L e) (hab : (a, b) ∈ L) : ∃ n, heap a = some (n, b) := by
  induction L generalizing h with
  | nil => cases hab
  | cons c L ih =>
    obtain ⟨-, n, hn, hrest⟩ := hL
    rcases List.mem_cons.mp hab with rfl | hab
    · exact ⟨n, hn⟩
    · exact ih hrest hab

/-- There is one chain from `h` to the end. -/
theorem unique (hL : Chain heap h L none) (hK : Chain heap h K none) : L = K := by
  induction L generalizing h K with
  | nil =>
    cases K with
    | nil => rfl
    | cons c K =>
      obtain rfl := hL
      exact absurd hK.1 (by simp)
  | cons c L ih =>
    obtain ⟨rfl, n, hn, hrest⟩ := hL
    cases K with
    | nil => cases hK
    | cons d K =>
      obtain ⟨hd, n', hn', hrest'⟩ := hK
      obtain ⟨c, b⟩ := c
      obtain ⟨d, b'⟩ := d
      obtain rfl : c = d := Option.some.inj hd
      rw [hn] at hn'
      obtain ⟨rfl, rfl⟩ : n = n' ∧ b = b' := by simpa using hn'
      rw [ih hrest hrest']

/-- A chain that ends does not come back to a cell. -/
theorem nodup (hL : Chain heap h L none) : (L.map Prod.fst).Nodup := by
  induction L generalizing h with
  | nil => exact List.nodup_nil
  | cons c L ih =>
    obtain ⟨rfl, n, hn, hrest⟩ := hL
    refine List.nodup_cons.mpr ⟨fun hmem => ?_, ih hrest⟩
    obtain ⟨d, hd, hdc⟩ := List.mem_map.mp hmem
    obtain ⟨L₁, L₂, rfl⟩ := List.append_of_mem hd
    -- the part after the second visit would be the whole chain after the first
    obtain ⟨m, -, hm⟩ := append.mp hrest
    obtain ⟨-, n', hn', htail⟩ := hm
    rw [hdc, hn] at hn'
    obtain ⟨rfl, -⟩ : n = n' ∧ c.2 = d.2 := by simpa using hn'
    have hlen := congrArg List.length (unique hrest htail)
    simp only [List.length_append, List.length_cons] at hlen
    omega

variable [DecidableEq α]

open Function (update)

/-- Writing a cell that is not on the chain. -/
theorem update_of_notMem (hL : Chain heap h L e) (ha : a ∉ L.map Prod.fst)
    (v : Option (Option α × β)) : Chain (update heap a v) h L e := by
  refine hL.congr fun c hc => Function.update_of_ne ?_ _ _
  rintro rfl
  exact ha (List.mem_map_of_mem hc)

/-- Link a cell in front of a chain. -/
theorem push (hL : Chain heap h L e) (ha : a ∉ L.map Prod.fst) :
    Chain (update heap a (some (h, b))) (some a) ((a, b) :: L) e :=
  ⟨rfl, h, by simp, hL.update_of_notMem ha _⟩

/-- Redirect the last cell of a chain. -/
theorem redirect (hL : Chain heap h (L ++ [(a, b)]) m) (ha : a ∉ L.map Prod.fst) (e : Option α) :
    Chain (update heap a (some (e, b))) h (L ++ [(a, b)]) e := by
  obtain ⟨n, hn, rfl, -⟩ := append.mp hL
  exact append.mpr ⟨some a, hn.update_of_notMem ha _, rfl, e, by simp, rfl⟩

end Chain

end MpmcMap.Conc
