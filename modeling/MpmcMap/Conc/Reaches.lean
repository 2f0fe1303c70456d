import Mathlib.Logic.Function.Basic
import Mathlib.Logic.Relation

/-!
# Reachability through successors

Each node has at most one successor. `Reaches f r x` says that the successors `f` lead from `r` to
`x`. What one writes to a linked list keeps the nodes that a root reaches, but for the one that is
cut out or spliced in.
-/

namespace MpmcMap.Conc

variable {α : Type} {f g : α → Option α} {r x p c n b : α}

/-- The successors lead from `r` to `x`. -/
abbrev Reaches (f : α → Option α) (r x : α) : Prop :=
  Relation.ReflTransGen (fun a b => f a = some b) r x

namespace Reaches

/-- Only the successors of the nodes that are reached matter. -/
theorem congr (h : Reaches f r x) (hfg : ∀ a, Reaches f r a → g a = f a) : Reaches g r x := by
  induction h with
  | refl => exact .refl
  | tail hy hyz ih => exact ih.tail ((hfg _ hy).trans hyz)

/-- What holds of the root and of each successor holds of all that is reached. -/
theorem closed {P : α → Prop} (h : Reaches f r x) (hr : P r)
    (hstep : ∀ a b, f a = some b → P b) : P x := by
  cases h with
  | refl => exact hr
  | tail _ hyz => exact hstep _ _ hyz

/-- A node without a successor reaches itself only. -/
theorem eq_of_none (hr : f r = none) (h : Reaches f r x) : x = r := by
  induction h with
  | refl => rfl
  | tail _ hyz ih =>
    rw [ih, hr] at hyz
    cases hyz

variable [DecidableEq α]

open Function (update)

/-- A node that is not reached may be written. -/
theorem write (h : Reaches f r x) (hn : ¬ Reaches f r n) (v : Option α) :
    Reaches (update f n v) r x := by
  apply h.congr
  intro a ha
  apply Function.update_of_ne
  rintro rfl
  exact hn ha

theorem of_write {v : Option α} (hn : ¬ Reaches f r n) (h : Reaches (update f n v) r x) :
    Reaches f r x := by
  induction h with
  | refl => exact .refl
  | @tail y z _ hyz ih =>
    have hy : y ≠ n := by
      rintro rfl
      exact hn ih
    rw [Function.update_of_ne hy] at hyz
    exact ih.tail hyz

/-- What is written at the end of a path does not matter. -/
theorem to_write (h : Reaches f r p) (v : Option α) : Reaches (update f p v) r p := by
  induction h using Relation.ReflTransGen.head_induction_on with
  | refl => exact .refl
  | @head a b hab _ ih =>
    by_cases hap : a = p
    · rw [hap]
    · exact .head ((Function.update_of_ne hap _ _).trans hab) ih

/-- Cutting out the successor of `p` reaches nothing new. -/
theorem of_cut (hp : f p = some c) (h : Reaches (update f p (f c)) r x) : Reaches f r x := by
  induction h with
  | refl => exact .refl
  | @tail y z _ hyz ih =>
    by_cases hy : y = p
    · subst hy
      rw [Function.update_self] at hyz
      exact (ih.tail hp).tail hyz
    · rw [Function.update_of_ne hy] at hyz
      exact ih.tail hyz

/-- All but the node that is cut out is still reached. -/
theorem cut (hp : f p = some c) (h : Reaches f r x) :
    Reaches (update f p (f c)) r x ∨ x = c := by
  suffices Reaches (update f p (f c)) r x ∨ x = c ∧ Reaches (update f p (f c)) r p from
    this.imp_right And.left
  induction h with
  | refl => exact .inl .refl
  | @tail y z _ hyz ih =>
    rcases ih with ih | ⟨rfl, ih⟩
    · by_cases hy : y = p
      · subst hy
        rw [hp] at hyz
        exact .inr ⟨(Option.some.inj hyz).symm, ih⟩
      · exact .inl (ih.tail ((Function.update_of_ne hy _ _).trans hyz))
    · -- past the node that is cut out
      exact .inl (ih.tail ((Function.update_self _ _ _).trans hyz))

/-- A node spliced in behind `p` is cut out again by giving `p` its successor. -/
theorem update_splice (hn : f n = f p) (hne : n ≠ p) :
    update (update f p (some n)) p (update f p (some n) n) = f := by
  rw [Function.update_idem, Function.update_of_ne hne, hn, Function.update_eq_self]

/-- Splicing `n` in behind `p` reaches no other node. -/
theorem of_splice (hn : f n = f p) (hne : n ≠ p) (h : Reaches (update f p (some n)) r x) :
    Reaches f r x ∨ x = n := by
  have hcut := cut (Function.update_self p (some n) f) h
  rwa [update_splice hn hne] at hcut

theorem splice (hn : f n = f p) (hne : n ≠ p) (h : Reaches f r x) :
    Reaches (update f p (some n)) r x := by
  apply of_cut (Function.update_self p (some n) f)
  rwa [update_splice hn hne]

/-- A last node may be followed by one that is reached. -/
theorem of_extend (hb : Reaches f r b) (h : Reaches (update f p (some b)) r x) :
    Reaches f r x := by
  induction h with
  | refl => exact .refl
  | @tail y z _ hyz ih =>
    by_cases hy : y = p
    · subst hy
      rw [Function.update_self] at hyz
      exact Option.some.inj hyz ▸ hb
    · rw [Function.update_of_ne hy] at hyz
      exact ih.tail hyz

theorem extend (hp : f p = none) (v : Option α) (h : Reaches f r x) :
    Reaches (update f p v) r x := by
  induction h with
  | refl => exact .refl
  | @tail y z _ hyz ih =>
    apply ih.tail
    rw [← hyz]
    apply Function.update_of_ne
    rintro rfl
    rw [hp] at hyz
    cases hyz

end Reaches

end MpmcMap.Conc
