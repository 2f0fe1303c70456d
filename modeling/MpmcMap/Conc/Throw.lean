import MpmcMap.Conc.Total

/-!
# Programs that may throw

An exception is a value: `Prog.attempt f p` performs each action of `p` by a program that answers
`none` where it throws, and answers `none` itself as soon as one of them has. A caller that catches
looks at the answer. `Exits M f Q p s` is the total-correctness triple of such a run; `Q` speaks of
both ways to leave.
-/

namespace MpmcMap.Conc

variable {E F : Type → Type} {S α β γ σ : Type}

namespace Prog

/-- How an iteration of a loop leaves: by the next one, by the end of the loop or by an exception. -/
def leave : Option (σ ⊕ β) → σ ⊕ Option β
  | none => .inr none
  | some (.inl s) => .inl s
  | some (.inr b) => .inr (some b)

/-- Perform each action by a program that may throw. -/
def attempt (f : {β : Type} → E β → Prog F (Option β)) :
    {α : Type} → Prog E α → Prog F (Option α)
  | _, .ret a => .ret (some a)
  | _, .act e k => (f e).bind fun r => r.elim (.ret none) fun b => (k b).attempt f
  | _, .loop body s k =>
    .loop (fun s => ((body s).attempt f).bind fun r => .ret (leave r)) s fun r =>
      r.elim (.ret none) fun b => (k b).attempt f

/-- What comes after a program that may throw. -/
def andThen (p : Prog F (Option α)) (g : α → Prog F (Option β)) : Prog F (Option β) :=
  p.bind fun r => r.elim (.ret none) g

variable (f : {β : Type} → E β → Prog F (Option β))

theorem attempt_bind (p : Prog E α) (g : α → Prog E γ) :
    (p.bind g).attempt f =
      (p.attempt f).andThen fun a => (g a).attempt f := by
  show _ = (p.attempt f).bind _
  induction p with
  | ret a => rfl
  | act e k ih =>
    simp only [act_bind, attempt, ih, bind_assoc]
    congr 1
    funext r
    cases r <;> rfl
  | loop body s k _ ih =>
    simp only [loop_bind, attempt, ih]
    congr 1
    funext r
    cases r <;> rfl

/-- The next iteration of a loop that may throw. -/
theorem attempt_unroll (body : σ → Prog E (σ ⊕ β)) (st : σ) (k : β → Prog E α) :
    (unroll body st k).attempt f =
      unroll (fun s => ((body s).attempt f).bind fun r => .ret (leave r)) st
        fun r => r.elim (.ret none) fun b => (k b).attempt f := by
  rw [unroll, attempt_bind, unroll, bind_assoc, andThen]
  congr 1
  funext r
  cases r with
  | none => rfl
  | some x =>
    cases x with
    | inl _ => rfl
    | inr _ => rfl

end Prog

/-- Every execution of `p` returns or throws, and `Q` holds of the way it does. -/
def Exits (M : Solo F S) (f : {β : Type} → E β → Prog F (Option β)) (Q : Option α → S → Prop)
    (p : Prog E α) (s : S) : Prop :=
  Ends M Q (p.attempt f) s

variable {M : Solo F S} {f : {β : Type} → E β → Prog F (Option β)} {Q R : Option α → S → Prop}
  {p : Prog E α} {s : S}

/-- An exception leaves, a value goes on. -/
theorem Ends.andThen {T : Option α → S → Prop} {U : Option β → S → Prop} {p : Prog F (Option α)}
    {g : α → Prog F (Option β)} (hp : Ends M T p s) (hg : ∀ a s, T (some a) s → Ends M U (g a) s)
    (hthrow : ∀ s, T none s → U none s) : Ends M U (p.andThen g) s := by
  refine Ends.bind hp fun r s hr => ?_
  cases r with
  | none => exact Ends.ret (hthrow s hr)
  | some a => exact hg a s hr

namespace Exits

theorem ret {a : α} (h : Q (some a) s) : Exits M f Q (.ret a) s := Ends.ret h

theorem mono (h : Exits M f Q p s) (hQ : ∀ r s, Q r s → R r s) : Exits M f R p s :=
  Ends.mono h hQ

theorem act {e : E β} {k : β → Prog E α} {T : Option β → S → Prop} (he : Ends M T (f e) s)
    (hk : ∀ b s, T (some b) s → Exits M f Q (k b) s) (hthrow : ∀ s, T none s → Q none s) :
    Exits M f Q (.act e k) s := Ends.andThen he hk hthrow

theorem bind {T : Option γ → S → Prop} {q : Prog E γ} {g : γ → Prog E α} (hq : Exits M f T q s)
    (hg : ∀ a s, T (some a) s → Exits M f Q (g a) s) (hthrow : ∀ s, T none s → Q none s) :
    Exits M f Q (q.bind g) s := by
  show Ends M Q ((q.bind g).attempt f) s
  rw [Prog.attempt_bind]
  exact Ends.andThen hq hg hthrow

/-- One iteration, then the rest of the loop. -/
theorem unroll {body : σ → Prog E (σ ⊕ α)} {st : σ}
    (h : Exits M f (fun x s => x.elim (Q none s)
      (Sum.elim (fun st' => Exits M f Q (Prog.iterate body st') s) fun a => Q (some a) s))
      (body st) s) :
    Exits M f Q (Prog.iterate body st) s := by
  refine .loop ?_
  show Until M _ (Prog.bind (Prog.bind ((body st).attempt f) _) _) s
  rw [Prog.bind_assoc]
  refine Ends.bind h fun x s hx => ?_
  match x with
  | none => exact Ends.ret hx
  | some (.inl st') => exact hx
  | some (.inr a) => exact Ends.ret hx

/-- A loop whose variant decreases at each iteration that continues. -/
theorem iterate {body : σ → Prog E (σ ⊕ β)} {st : σ} {T : Option β → S → Prop} {ι : Type}
    {r : ι → ι → Prop} (hr : WellFounded r) {I : ι → σ → S → Prop} {i : ι} (h : I i st s)
    (hbody : ∀ i st s, I i st s → Exits M f
      (fun x s => x.elim (T none s) (Sum.elim (fun st' => ∃ j, r j i ∧ I j st' s)
        fun b => T (some b) s)) (body st) s) :
    Exits M f T (Prog.iterate body st) s := by
  have hloop : Ends M T (Prog.iterate (fun s => ((body s).attempt f).bind fun r =>
      .ret (Prog.leave r)) st) s := by
    refine Ends.iterate (I := I) hr h fun i st s hI => ?_
    refine Ends.bind (hbody i st s hI) fun x s hx => Ends.ret ?_
    cases x with
    | none => exact hx
    | some x => cases x <;> exact hx
  have hend : (fun x : Option β => x.elim (Prog.ret none) fun b => (Prog.ret b : Prog E β).attempt f)
      = (Prog.ret : Option β → Prog F (Option β)) := funext fun x => by cases x <;> rfl
  show Ends M T (.loop _ st _) s
  rw [hend]
  exact hloop

end Exits

/-- A run in which no action throws: it reaches, through the relation `R`, what it reaches where no
action can throw. -/
theorem Until.attempt {T : Type} {N : Solo E T} {R : T → S → Prop} {X : Prog E α → T → Prop} {t : T}
    (hf : ∀ {β : Type} (e : E β) (t : T) (s : S), N.pre e t → R t s →
      Ends M (fun x s' => ∃ r t', x = some r ∧ N.step e t r t' ∧ R t' s') (f e) s)
    (h : Until N X p t) (hR : R t s) :
    Until M (fun q s => ∃ p t, q = p.attempt f ∧ X p t ∧ R t s) (p.attempt f) s := by
  induction h generalizing s with
  | stop h => exact .stop ⟨_, _, rfl, h, hR⟩
  | @act β e k t hpre _ ih =>
    refine Ends.bind (hf e t s hpre hR) ?_
    rintro _ s' ⟨r, t', rfl, hstep, hR'⟩
    exact ih r t' hstep hR'
  | loop _ ih =>
    refine .loop ?_
    rw [← Prog.attempt_unroll]
    exact ih hR

end MpmcMap.Conc
