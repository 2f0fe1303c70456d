import MpmcMap.Conc.Total

/-!
# What every action of a program meets

`Always M Q p s` says that `p`, run from `s`, performs only actions whose precondition holds, and
that its result satisfies `Q` if it returns. It is the partial-correctness counterpart of `Ends`,
without variants for the loops. `Until.join` adds what `Always` says in one account of the actions
to a total-correctness triple in another one.
-/

namespace MpmcMap.Conc

variable {E : Type → Type} {S T α β γ σ : Type}

/-- What `Always` says of the first `n` steps. -/
def Safe (M : Solo E S) (Q : α → S → Prop) : Nat → Prog E α → S → Prop
  | 0, _, _ => True
  | _ + 1, .ret a, s => Q a s
  | n + 1, .act e k, s => M.pre e s ∧ ∀ r s', M.step e s r s' → Safe M Q n (k r) s'
  | n + 1, .loop body st k, s => Safe M Q n (.unroll body st k) s

/-- Every action that `p` performs is permitted, and `Q` holds of its result. -/
def Always (M : Solo E S) (Q : α → S → Prop) (p : Prog E α) (s : S) : Prop := ∀ n, Safe M Q n p s

variable {M : Solo E S} {Q R : α → S → Prop} {p : Prog E α} {s : S}

theorem Safe.bind {f : α → Prog E γ} {R : γ → S → Prop} {n : Nat} (h : Safe M Q n p s)
    (hf : ∀ m ≤ n, ∀ a s, Q a s → Safe M R m (f a) s) : Safe M R n (p.bind f) s := by
  induction n generalizing p s with
  | zero => trivial
  | succ n ih =>
    cases p with
    | ret a => exact hf _ (Nat.le_refl _) a s h
    | act e k =>
      obtain ⟨hpre, hk⟩ := h
      exact ⟨hpre, fun r s' hs => ih (hk r s' hs) fun m hm => hf m (by omega)⟩
    | loop body st k =>
      show Safe M R n (.unroll body st fun b => (k b).bind f) s
      rw [← Prog.unroll_bind]
      exact ih h fun m hm => hf m (by omega)

namespace Always

theorem ret {a : α} (h : Q a s) : Always M Q (.ret a) s := by
  intro n
  cases n with
  | zero => trivial
  | succ n => exact h

theorem act {e : E β} {k : β → Prog E α} (hpre : M.pre e s)
    (hk : ∀ r s', M.step e s r s' → Always M Q (k r) s') : Always M Q (.act e k) s := by
  intro n
  cases n with
  | zero => trivial
  | succ n => exact ⟨hpre, fun r s' hs => hk r s' hs n⟩

theorem bind {f : α → Prog E γ} {R : γ → S → Prop} (h : Always M Q p s)
    (hf : ∀ a s, Q a s → Always M R (f a) s) : Always M R (p.bind f) s :=
  fun n => (h n).bind fun m _ a s ha => hf a s ha m

theorem mono (h : Always M Q p s) (hQ : ∀ a s, Q a s → R a s) : Always M R p s := by
  have hret := h.bind (f := .ret) fun a s ha => ret (hQ a s ha)
  rwa [Prog.bind_ret] at hret

/-- A loop with an invariant. -/
theorem iterate {body : σ → Prog E (σ ⊕ β)} {I : σ → S → Prop} {T : β → S → Prop}
    (hbody : ∀ st s, I st s → Always M (fun x s => Sum.elim (I · s) (T · s) x) (body st) s)
    {st : σ} (h : I st s) : Always M T (Prog.iterate body st) s := by
  intro n
  induction n using Nat.strongRecOn generalizing st s with
  | _ n ih =>
    cases n with
    | zero => trivial
    | succ n =>
      refine (hbody st s h n).bind fun m hm x s hx => ?_
      cases x with
      | inl st' => exact ih m (by omega) hx
      | inr b => exact (ret hx : Always M T (.ret b) s) m

/-- A program of actions that the states `I` permit and that keep `I`. -/
theorem of_uses {good : {β : Type} → E β → Prop} {I : S → Prop}
    (hgood : ∀ {β : Type} (e : E β) (s : S), good e → I s →
      M.pre e s ∧ ∀ r s', M.step e s r s' → I s')
    (hp : p.Uses good) (h : I s) : Always M (fun _ s => I s) p s := by
  intro n
  induction n generalizing p s with
  | zero => trivial
  | succ n ih =>
    cases hp with
    | ret a => exact h
    | act he hk =>
      obtain ⟨hpre, hstep⟩ := hgood _ s he h
      exact ⟨hpre, fun r s' hs => ih (hk r) (hstep r s' hs)⟩
    | loop hbody hk =>
      refine ih ((hbody _).bind fun x => ?_) h
      cases x with
      | inl st => exact .loop hbody hk
      | inr b => exact hk b

end Always

/-- A run that ends by one account and meets the conditions of another one; `J` says how the two
accounts go together. -/
theorem Until.join {M : Solo E S} {N : Solo E T} {K : Solo E γ} {π : γ → S} {ρ : γ → T}
    {J : γ → Prop} {s : γ} {X : Prog E α → S → Prop} {Q : α → T → Prop}
    (hpre : ∀ {β : Type} (e : E β) (s : γ), J s → M.pre e (π s) → N.pre e (ρ s) → K.pre e s)
    (hstep : ∀ {β : Type} (e : E β) (s : γ) (r : β) (s' : γ), J s → M.pre e (π s) →
      K.step e s r s' → M.step e (π s) r (π s') ∧ N.step e (ρ s) r (ρ s') ∧ J s')
    (hs : J s) (h : Until M X p (π s)) (ha : Always N Q p (ρ s)) :
    Until K (fun p s => X p (π s)) p s := by
  generalize hπ : π s = s₀ at h
  induction h generalizing s with
  | stop h =>
    subst hπ
    exact .stop h
  | act hp _ ih =>
    subst hπ
    obtain ⟨hn, -⟩ := ha 1
    refine .act (hpre _ _ hs hp hn) fun r s' hk => ?_
    obtain ⟨hm, hn, hs'⟩ := hstep _ _ r s' hs hp hk
    exact ih r _ hm hs' (fun n => (ha (n + 1)).2 r _ hn) rfl
  | loop _ ih => exact .loop (ih hs (fun n => ha (n + 1)) hπ)

end MpmcMap.Conc
