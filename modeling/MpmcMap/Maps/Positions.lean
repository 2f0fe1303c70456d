import MpmcMap.Conc.Total

/-!
# Containers with iterators

What `erase(const_iterator)` promises: the element of the iterator is gone, nothing else is, and the
result is the iterator to the element that follows.
-/

namespace MpmcMap.Maps

/-- A container as the user of its iterators sees it. A call is given a number of steps; it answers
an iterator, or `none` after an exception. -/
structure IterModel (Pos Elem : Type) where
  State : Type
  /-- The states of all sequential runs. -/
  Reached : State → Prop
  /-- No call is going to throw. -/
  Calm : State → Prop
  /-- The elements, in the order of iteration. -/
  Elements : State → List Elem → Prop
  /-- The iterator is one into the container: to an element or, where there is none, an end
  iterator. -/
  Into : State → Pos → Option Elem → Prop
  /-- No element comes after the key that the iterator stores. -/
  Last : State → Pos → Prop
  /-- `erase(pos)`. -/
  eraseAt : Pos → State → Nat → Option (Option Pos × State)

namespace IterModel

variable {Pos Elem : Type} (M : IterModel Pos Elem)

/-- The element of the iterator is removed from `L`, and `next` is the iterator to the element that
follows it. -/
def Erased (L : List Elem) (e : Option Elem) (next : Pos) (s : M.State) : Prop :=
  match e with
  | some t => ∃ A B, L = A ++ t :: B ∧ M.Elements s (A ++ B) ∧ M.Into s next B.head?
  | none => M.Elements s L ∧ M.Into s next none

/-- The law of `erase(pos)` in a state with the elements `L`. -/
def EraseLaw (pos : Pos) (s : M.State) (L : List Elem) (e : Option Elem) : Prop :=
  ∀ fuel next s', M.eraseAt pos s fuel = some (some next, s') → M.Erased L e next s'

/-- `erase(pos)` returns, and not by an exception. -/
def Completes (pos : Pos) (s : M.State) : Prop :=
  Conc.Returns (M.eraseAt pos s) fun r => r.1.isSome = true

/-- What `erase(pos)` does: after an end iterator it looks for an element after the stored key. -/
structure Resumes : Prop where
  into_unique : ∀ {s pos e e'}, M.Into s pos e → M.Into s pos e' → e = none → e' = none
  eraseAt : ∀ {s L pos e}, M.Reached s → M.Elements s L → M.Into s pos e →
    Conc.Returns (M.eraseAt pos s) fun r => (M.Calm s → r.1.isSome = true) ∧
      ∀ next, r.1 = some next →
        match e with
        | some _ => M.Erased L e next r.2
        | none => M.Elements r.2 L ∧ ∃ e', M.Into r.2 next e' ∧ (e' = none ↔ M.Last s pos)

variable {M} {pos : Pos} {s : M.State} {L : List Elem} {e : Option Elem}

theorem Resumes.completes (hM : M.Resumes) (hs : M.Reached s) (hL : M.Elements s L)
    (he : M.Into s pos e) (hcalm : M.Calm s) : M.Completes pos s :=
  (hM.eraseAt hs hL he).mono fun _ h => h.1 hcalm

/-- The law holds for the elements, and for an end iterator whose stored key nothing follows. -/
theorem Resumes.eraseLaw_cases (hM : M.Resumes) (hs : M.Reached s) (hL : M.Elements s L)
    (he : M.Into s pos e) (hdone : M.Completes pos s) :
    M.EraseLaw pos s L e ↔ e ≠ none ∨ M.Last s pos := by
  have hspec := hM.eraseAt hs hL he
  constructor
  · intro hlaw
    cases e with
    | some t => exact .inl nofun
    | none =>
      obtain ⟨⟨r, s'⟩, hr, ⟨F, hF⟩, -⟩ := hdone
      obtain ⟨next, rfl⟩ := Option.isSome_iff_exists.mp hr
      have hrun := hF F (Nat.le_refl F)
      obtain ⟨-, e', he', hiff⟩ := (hspec.of_eq hrun).2 next rfl
      exact .inr (hiff.mp (hM.into_unique (hlaw F next s' hrun).2 he' rfl))
  · intro hcond fuel next s' hrun
    have h := (hspec.of_eq hrun).2 next rfl
    cases e with
    | some t => exact h
    | none =>
      obtain ⟨hel, e', he', hiff⟩ := h
      rcases hcond with hne | hlast
      · exact absurd rfl hne
      · obtain rfl := hiff.mpr hlast
        exact ⟨hel, he'⟩

end IterModel

end MpmcMap.Maps
