import MpmcMap.Conc.Prog

/-!
# Running one program alone

`Solo` describes the actions of a program that nobody interferes with, up to the choices that are
left open (an action may have several outcomes). `Until M X p s` says that `p`, run from `s`,
performs only actions whose precondition holds and reaches, whatever the choices, a configuration
in `X` after finitely many steps. `Ends M Q p s` is the case where it returns: a total-correctness
triple. `Ends.runs` evaluates it: with enough fuel the program returns.
-/

namespace MpmcMap.Conc

/-- The actions of a program that runs alone: when they may be performed and with what outcome. -/
structure Solo (E : Type → Type) (S : Type) where
  pre : {β : Type} → E β → S → Prop
  step : {β : Type} → E β → S → β → S → Prop

variable {E : Type → Type} {S α β γ σ : Type}

/-- Every execution of `p` from `s` reaches `X`. -/
inductive Until (M : Solo E S) (X : Prog E α → S → Prop) : Prog E α → S → Prop where
  | stop {p : Prog E α} {s : S} : X p s → Until M X p s
  | act {β : Type} {e : E β} {k : β → Prog E α} {s : S} :
      M.pre e s → (∀ r s', M.step e s r s' → Until M X (k r) s') → Until M X (.act e k) s
  | loop {β σ : Type} {body : σ → Prog E (σ ⊕ β)} {st : σ} {k : β → Prog E α} {s : S} :
      Until M X (.unroll body st k) s → Until M X (.loop body st k) s

/-- Every execution of `p` from `s` returns with a result that satisfies `Q`. -/
def Ends (M : Solo E S) (Q : α → S → Prop) (p : Prog E α) (s : S) : Prop :=
  Until M (fun p s => ∃ a, p = .ret a ∧ Q a s) p s

variable {M : Solo E S} {X Y : Prog E α → S → Prop} {Q R : α → S → Prop} {p : Prog E α} {s : S}

/-- What is reached may be followed further. -/
theorem Until.trans (h : Until M X p s) (hX : ∀ p s, X p s → Until M Y p s) :
    Until M Y p s := by
  induction h with
  | stop h => exact hX _ _ h
  | act hpre _ ih => exact .act hpre ih
  | loop _ ih => exact .loop ih

theorem Until.mono (h : Until M X p s) (hX : ∀ p s, X p s → Y p s) : Until M Y p s :=
  h.trans fun p s hp => .stop (hX p s hp)

/-- Sequencing: the first program is followed until `X`, what comes after it from there. -/
theorem Until.bind {f : α → Prog E γ} {Z : Prog E γ → S → Prop} (h : Until M X p s)
    (hX : ∀ p s, X p s → Until M Z (p.bind f) s) : Until M Z (p.bind f) s := by
  induction h with
  | stop h => exact hX _ _ h
  | act hpre _ ih => exact .act hpre ih
  | loop _ ih =>
    refine .loop ?_
    rw [← Prog.unroll_bind]
    exact ih

/-- What holds in one account of the actions holds in a more precise one. -/
theorem Until.lift {N : Solo E S} (h : Until M X p s)
    (hpre : ∀ {β : Type} (e : E β) (s : S), M.pre e s → N.pre e s)
    (hstep : ∀ {β : Type} (e : E β) (s : S) (r : β) (s' : S), M.pre e s → N.step e s r s' →
      M.step e s r s') : Until N X p s := by
  induction h with
  | stop h => exact .stop h
  | act h _ ih => exact .act (hpre _ _ h) fun r s' hs => ih r s' (hstep _ _ r s' h hs)
  | loop _ ih => exact .loop ih

/-- The same with an invariant of the state that the actions keep. -/
theorem Until.lift_inv {N : Solo E S} {I : S → Prop} (h : Until M X p s) (hI : I s)
    (hpre : ∀ {β : Type} (e : E β) (s : S), I s → M.pre e s → N.pre e s)
    (hstep : ∀ {β : Type} (e : E β) (s : S) (r : β) (s' : S), I s → M.pre e s → N.step e s r s' →
      M.step e s r s' ∧ I s') : Until N X p s := by
  induction h with
  | stop h => exact .stop h
  | act h _ ih =>
    refine .act (hpre _ _ hI h) fun r s' hs => ?_
    obtain ⟨hs, hI⟩ := hstep _ _ r s' hI h hs
    exact ih r s' hs hI
  | loop _ ih => exact .loop (ih hI)

/-- The same actions under a further condition. -/
def Solo.strict (M : Solo E S) (ok : {β : Type} → E β → S → Prop) : Solo E S where
  pre e s := M.pre e s ∧ ok e s
  step e s r s' := M.step e s r s'

theorem Until.of_strict {ok : {β : Type} → E β → S → Prop} (h : Until (M.strict ok) X p s) :
    Until M X p s :=
  h.lift (fun _ _ h => h.1) fun _ _ _ _ _ h => h

theorem Ends.ret {a : α} (h : Q a s) : Ends M Q (.ret a) s := .stop ⟨a, rfl, h⟩

theorem Ends.mono (h : Ends M Q p s) (hQ : ∀ a s, Q a s → R a s) : Ends M R p s :=
  Until.mono h fun _ s ⟨a, hp, ha⟩ => ⟨a, hp, hQ a s ha⟩

theorem Ends.bind {f : α → Prog E γ} {Z : Prog E γ → S → Prop} (h : Ends M Q p s)
    (hf : ∀ a s, Q a s → Until M Z (f a) s) : Until M Z (p.bind f) s :=
  Until.bind h fun _ s ⟨a, hp, ha⟩ => hp ▸ hf a s ha

/-- A loop whose variant decreases along `r` at each iteration that continues. -/
theorem Until.iterate {body : σ → Prog E (σ ⊕ β)} {st : σ} {k : β → Prog E α}
    {ι : Type} {r : ι → ι → Prop} (hr : WellFounded r) {I : ι → σ → S → Prop} {i : ι}
    (h : I i st s)
    (hbody : ∀ i st s, I i st s → Until M
      (fun q s => (∃ st' j, q = .loop body st' k ∧ r j i ∧ I j st' s) ∨ Until M X q s)
      (.unroll body st k) s) :
    Until M X (.loop body st k) s := by
  induction i using hr.induction generalizing st s with
  | _ i ih =>
    refine .loop ((hbody i st s h).trans ?_)
    rintro q s (⟨st', j, rfl, hj, hI⟩ | hq)
    · exact ih j hj hI
    · exact hq

/-- The same for a loop as a program of its own. -/
theorem Ends.iterate {body : σ → Prog E (σ ⊕ β)} {st : σ} {T : β → S → Prop} {ι : Type}
    {r : ι → ι → Prop} (hr : WellFounded r) {I : ι → σ → S → Prop} {i : ι} (h : I i st s)
    (hbody : ∀ i st s, I i st s →
      Ends M (fun x s => Sum.elim (fun st' => ∃ j, r j i ∧ I j st' s) (fun b => T b s) x) (body st) s) :
    Ends M T (Prog.iterate body st) s := by
  refine Until.iterate hr h fun i st s hI => ?_
  refine Ends.bind (hbody i st s hI) fun x s hx => ?_
  cases x with
  | inl st' =>
    obtain ⟨j, hj, hI⟩ := hx
    exact .stop (.inl ⟨st', j, rfl, hj, hI⟩)
  | inr b => exact .stop (.inr (Ends.ret hx))

/-! ## Evaluation -/

/-- Run `p` alone for at most `fuel` steps. -/
def Prog.run (action : {β : Type} → E β → S → Option (β × S)) {α : Type} :
    Nat → Prog E α → S → Option (α × S)
  | 0, _, _ => none
  | n + 1, p, s =>
    match p with
    | .ret a => some (a, s)
    | .act e k => (action e s).bind fun r => run action n (k r.1) r.2
    | .loop body st k => run action n (.unroll body st k) s

variable {action : {β : Type} → E β → S → Option (β × S)}

/-- More fuel does not change the result. -/
theorem Prog.run_succ {n : Nat} {p : Prog E α} {s : S} {r : α × S}
    (h : p.run action n s = some r) : p.run action (n + 1) s = some r := by
  induction n generalizing p s with
  | zero => simp [run] at h
  | succ n ih =>
    cases p with
    | ret a => exact h
    | act e k =>
      obtain ⟨x, hx, hrest⟩ := Option.bind_eq_some_iff.mp h
      exact Option.bind_eq_some_iff.mpr ⟨x, hx, ih hrest⟩
    | loop body st k => exact ih h

theorem Prog.run_le {m n : Nat} {p : Prog E α} {s : S} {r : α × S} (hmn : m ≤ n)
    (h : p.run action m s = some r) : p.run action n s = some r := by
  induction hmn with
  | refl => exact h
  | step _ ih => exact run_succ ih

/-- Two runs of a program that return agree. -/
theorem Prog.run_unique {m n : Nat} {p : Prog E α} {s : S} {r r' : α × S}
    (h : p.run action m s = some r) (h' : p.run action n s = some r') : r = r' := by
  have h1 := run_le (Nat.le_max_left m n) h
  have h2 := run_le (Nat.le_max_right m n) h'
  exact Option.some.inj (h1.symm.trans h2)

theorem Prog.run_ret {n : Nat} {a : α} {s : S} {r : α × S}
    (h : (ret a : Prog E α).run action n s = some r) : r = (a, s) := by
  cases n with
  | zero => cases h
  | succ n => exact (Option.some.inj h).symm

/-- A run of a sequence that returns is a run of each part. -/
theorem Prog.run_bind {f : α → Prog E γ} {n : Nat} {p : Prog E α} {s : S} {r : γ × S}
    (h : (p.bind f).run action n s = some r) :
    ∃ m a t k, p.run action m s = some (a, t) ∧ k ≤ n ∧ (f a).run action k t = some r := by
  induction n generalizing p s with
  | zero => cases p <;> cases h
  | succ n ih =>
    cases p with
    | ret a => exact ⟨1, a, s, n + 1, rfl, Nat.le_refl _, h⟩
    | act e k =>
      obtain ⟨x, hx, hrest⟩ := Option.bind_eq_some_iff.mp h
      obtain ⟨m, a, t, j, hrun, hj, hend⟩ := ih hrest
      exact ⟨m + 1, a, t, j, Option.bind_eq_some_iff.mpr ⟨x, hx, hrun⟩, by omega, hend⟩
    | loop body st k =>
      replace h : (unroll body st fun b => (k b).bind f).run action n s = some r := h
      rw [← unroll_bind] at h
      obtain ⟨m, a, t, j, hrun, hj, hend⟩ := ih h
      exact ⟨m + 1, a, t, j, hrun, by omega, hend⟩

/-- The parts of a sequence make a run of it. -/
theorem Prog.run_bind_of {f : α → Prog E γ} {m n : Nat} {p : Prog E α} {s t : S} {a : α}
    {r : γ × S} (hp : p.run action m s = some (a, t)) (hf : (f a).run action n t = some r) :
    (p.bind f).run action (m + n) s = some r := by
  induction m generalizing p s with
  | zero => cases hp
  | succ m ih =>
    rw [Nat.succ_add]
    cases p with
    | ret b =>
      obtain ⟨rfl, rfl⟩ := Prod.mk.inj (run_ret hp)
      exact run_le (by omega) hf
    | act e k =>
      obtain ⟨x, hx, hrest⟩ := Option.bind_eq_some_iff.mp hp
      exact Option.bind_eq_some_iff.mpr ⟨x, hx, ih hrest⟩
    | loop body st k =>
      have h := ih (p := unroll body st k) hp
      rw [unroll_bind] at h
      exact h

/-- A run with more checks is a run without them. -/
theorem Prog.run_of_checked {T : Type} {π : T → S}
    {checked : {β : Type} → E β → T → Option (β × T)}
    (hact : ∀ {β : Type} (e : E β) (t : T) (r : β) (t' : T), checked e t = some (r, t') →
      action e (π t) = some (r, π t')) {n : Nat} {p : Prog E α} {a : α} {t t' : T}
    (h : p.run checked n t = some (a, t')) : p.run action n (π t) = some (a, π t') := by
  induction n generalizing p t with
  | zero => cases h
  | succ n ih =>
    cases p with
    | ret b =>
      obtain ⟨rfl, rfl⟩ := Prod.mk.inj (Option.some.inj h)
      rfl
    | act e k =>
      obtain ⟨⟨r, u⟩, hr, hrest⟩ := Option.bind_eq_some_iff.mp h
      exact Option.bind_eq_some_iff.mpr ⟨_, hact e t r u hr, ih hrest⟩
    | loop body st k => exact ih h

/-- `action` performs every action of `M` that may be performed. -/
def Solo.Executes (M : Solo E S) (action : {β : Type} → E β → S → Option (β × S)) : Prop :=
  ∀ {β : Type} (e : E β) (s : S), M.pre e s → ∃ r s', action e s = some (r, s') ∧ M.step e s r s'

/-- A total-correctness triple gives a run that returns. -/
theorem Ends.runs (hM : M.Executes action) (h : Ends M Q p s) :
    ∃ n a s', p.run action n s = some (a, s') ∧ Q a s' := by
  induction h with
  | stop h =>
    obtain ⟨a, rfl, ha⟩ := h
    exact ⟨1, a, _, rfl, ha⟩
  | act hpre _ ih =>
    obtain ⟨r, s', hact, hstep⟩ := hM _ _ hpre
    obtain ⟨n, a, s'', hrun, ha⟩ := ih r s' hstep
    exact ⟨n + 1, a, s'', Option.bind_eq_some_iff.mpr ⟨_, hact, hrun⟩, ha⟩
  | loop _ ih =>
    obtain ⟨n, a, s', hrun, ha⟩ := ih
    exact ⟨n + 1, a, s', hrun, ha⟩

/-- What a triple says of a run that returns. -/
theorem Ends.of_run (hM : M.Executes action) {n : Nat} {a : α} {t : S} (h : Ends M Q p s)
    (hrun : p.run action n s = some (a, t)) : Q a t := by
  obtain ⟨m, b, u, hend, hb⟩ := Ends.runs hM h
  obtain ⟨rfl, rfl⟩ := Prod.mk.inj (Prog.run_unique hend hrun)
  exact hb

/-- A run that returns passes through `X`. -/
theorem Until.of_run (hM : M.Executes action) {n : Nat} {r : α × S} (h : Until M X p s)
    (hrun : p.run action n s = some r) : ∃ q t m, X q t ∧ q.run action m t = some r := by
  induction h generalizing n with
  | stop h => exact ⟨_, _, n, h, hrun⟩
  | act hpre _ ih =>
    cases n with
    | zero => cases hrun
    | succ n =>
      obtain ⟨b, t, hact, hstep⟩ := hM _ _ hpre
      obtain ⟨x, hx, hrest⟩ := Option.bind_eq_some_iff.mp hrun
      obtain rfl := Option.some.inj (hact.symm.trans hx)
      exact ih b t hstep hrest
  | loop _ ih =>
    cases n with
    | zero => cases hrun
    | succ n => exact ih hrun

/-- A loop whose iterations return: in a run that returns, the last of them has ended the loop. -/
theorem Ends.run_iterate (hM : M.Executes action) {body : σ → Prog E (σ ⊕ β)}
    {I : σ → S → Prop} {T : β → S → Prop}
    (hbody : ∀ st s, I st s →
      Ends M (fun x s => Sum.elim (fun st' => I st' s) (fun b => T b s) x) (body st) s)
    {n : Nat} {st : σ} {s t : S} {b : β} (h : I st s)
    (hrun : (Prog.iterate body st).run action n s = some (b, t)) : T b t := by
  induction n using Nat.strongRecOn generalizing st s with
  | _ n ih =>
    cases n with
    | zero => cases hrun
    | succ n =>
      obtain ⟨m, x, u, hend, hx⟩ := Ends.runs hM (hbody st s h)
      obtain ⟨m', x', u', k, hbodyRun, hk, hrest⟩ := Prog.run_bind (p := body st) hrun
      obtain ⟨rfl, rfl⟩ := Prod.mk.inj (Prog.run_unique hend hbodyRun)
      cases x with
      | inl st' => exact ih k (by omega) hx hrest
      | inr c =>
        obtain ⟨rfl, rfl⟩ := Prod.mk.inj (Prog.run_ret hrest)
        exact hx

/-- A program whose actions are performed by `action`. -/
def Solo.of (action : {β : Type} → E β → S → Option (β × S)) : Solo E S where
  pre e s := (action e s).isSome = true
  step e s r s' := action e s = some (r, s')

theorem Solo.of_executes : (Solo.of action).Executes action := by
  intro β e s hpre
  obtain ⟨⟨r, s'⟩, hr⟩ := Option.isSome_iff_exists.mp hpre
  exact ⟨r, s', hr, hr⟩

/-- A program that ends under checks returns with and without them, in the same way. -/
theorem Ends.checked {T : Type} {π : T → S} {checked : {β : Type} → E β → T → Option (β × T)}
    {Q : α → T → Prop} {t : T}
    (hact : ∀ {β : Type} (e : E β) (t : T) (r : β) (t' : T), checked e t = some (r, t') →
      action e (π t) = some (r, π t')) (h : Ends (Solo.of checked) Q p t) :
    ∃ N, ∀ fuel, N ≤ fuel → ∃ a t', p.run checked fuel t = some (a, t') ∧
      p.run action fuel (π t) = some (a, π t') ∧ Q a t' := by
  obtain ⟨N, a, t', hrun, ha⟩ := Ends.runs Solo.of_executes h
  refine ⟨N, fun fuel hfuel => ⟨a, t', Prog.run_le hfuel hrun, ?_, ha⟩⟩
  exact Prog.run_of_checked hact (Prog.run_le hfuel hrun)

theorem Until.perform {e : E β} {k : β → Prog E α} {r : β} {t : S}
    (he : action e s = some (r, t)) (hk : Until (Solo.of action) X (k r) t) :
    Until (Solo.of action) X (.act e k) s := by
  refine .act (by simp [Solo.of, he]) ?_
  intro r' t' hstep
  obtain ⟨rfl, rfl⟩ := Prod.mk.inj (Option.some.inj (he.symm.trans hstep))
  exact hk

/-! ## Calls with a number of steps -/

/-- A call that is given a number of steps returns, always the same result, and `Q` holds of it. -/
def Returns (call : Nat → Option α) (Q : α → Prop) : Prop :=
  ∃ a, Q a ∧ (∃ F, ∀ fuel, F ≤ fuel → call fuel = some a) ∧
    ∀ fuel r, call fuel = some r → r = a

namespace Returns

variable {call : Nat → Option α} {P R : α → Prop}

theorem mono (h : Returns call P) (hPR : ∀ a, P a → R a) : Returns call R := by
  obtain ⟨a, ha, hrun⟩ := h
  exact ⟨a, hPR a ha, hrun⟩

theorem pure {a : α} (h : P a) : Returns (fun _ => some a) P :=
  ⟨a, h, ⟨0, fun _ _ => rfl⟩, fun _ _ hr => (Option.some.inj hr).symm⟩

/-- One call after another. -/
theorem bind {next : α → Nat → Option γ} {T : γ → Prop} (h : Returns call P)
    (hnext : ∀ a, P a → Returns (next a) T) :
    Returns (fun fuel => (call fuel).bind fun a => next a fuel) T := by
  obtain ⟨a, ha, ⟨F, hF⟩, hsame⟩ := h
  obtain ⟨b, hb, ⟨G, hG⟩, hsame'⟩ := hnext a ha
  refine ⟨b, hb, ⟨max F G, fun fuel hfuel => ?_⟩, fun fuel r hr => ?_⟩
  · have h1 := hF fuel (by omega)
    have h2 := hG fuel (by omega)
    simp only [h1, Option.bind_some, h2]
  · obtain ⟨a', ha', hr'⟩ := Option.bind_eq_some_iff.mp hr
    obtain rfl := hsame fuel a' ha'
    exact hsame' fuel r hr'

theorem map {T : γ → Prop} (h : Returns call P) (f : α → γ) (hf : ∀ a, P a → T (f a)) :
    Returns (fun fuel => (call fuel).map f) T := by
  obtain ⟨a, ha, ⟨F, hF⟩, hsame⟩ := h
  refine ⟨f a, hf a ha, ⟨F, fun fuel hfuel => ?_⟩, fun fuel r hr => ?_⟩
  · simp only [hF fuel hfuel, Option.map_some]
  · obtain ⟨b, hb, rfl⟩ := Option.map_eq_some_iff.mp hr
    rw [hsame fuel b hb]

/-- What holds of every result. -/
theorem of_eq {fuel : Nat} {r : α} (h : Returns call P) (hr : call fuel = some r) : P r := by
  obtain ⟨a, ha, -, hsame⟩ := h
  exact (hsame fuel r hr) ▸ ha

end Returns

theorem Ends.returns (hM : M.Executes action) (h : Ends M Q p s) :
    Returns (fun fuel => p.run action fuel s) fun r => Q r.1 r.2 := by
  obtain ⟨n, a, t, hrun, ha⟩ := Ends.runs hM h
  exact ⟨(a, t), ha, ⟨n, fun _ hfuel => Prog.run_le hfuel hrun⟩,
    fun _ _ hr => Prog.run_unique hr hrun⟩

end MpmcMap.Conc
