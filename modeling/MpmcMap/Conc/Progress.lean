import MpmcMap.Conc.Alone
import MpmcMap.Conc.RelyGuarantee

/-!
# Progress of a thread that is left alone

All threads but one have stopped somewhere inside their calls, and no action fails that need not.
`Alone` says that the thread that goes on comes to the end of its program after finitely many steps,
or to an action that is not permitted. `Lives` is `WP` with this at every point that the program may
be stopped and resumed at. It asks nothing new of a single action; of a loop it asks that the
iterations end when nobody interferes.

`Discipline.reach_halts` is the soundness theorem: in every reachable configuration every thread
that is left alone comes to the end of its call.
-/

namespace MpmcMap.Conc

variable {E : Type → Type} {S Call Ret A α β γ σ : Type}

/-- The program is at an action that is not permitted. -/
def Prog.Barred (ok : {β : Type} → E β → S → Prop) (p : Prog E α) (s : S) : Prop :=
  ∃ (β : Type) (e : E β) (k : β → Prog E α), p = .act e k ∧ ¬ ok e s

theorem Prog.Barred.bind {ok : {β : Type} → E β → S → Prop} {p : Prog E α} {s : S}
    (h : p.Barred ok s) (f : α → Prog E γ) : (p.bind f).Barred ok s := by
  obtain ⟨β, e, k, rfl, he⟩ := h
  exact ⟨β, e, _, rfl, he⟩

namespace SharedObject

variable (Y : SharedObject E S Call Ret)

/-- The actions of thread `t` while no other thread moves and nothing fails that need not. -/
def lone (t : Nat) : Solo E S := Solo.of fun e s => Y.action t false e s

/-- Left alone, thread `t` comes to the end of the program with a result that satisfies `Q`, or to
an action that is not permitted. -/
def Alone (ok : {β : Type} → Nat → E β → S → Prop) (t : Nat) (Q : α → S → Prop) (p : Prog E α)
    (s : S) : Prop :=
  Until (Y.lone t) (fun q s => (∃ a, q = .ret a ∧ Q a s) ∨ q.Barred (ok t) s) p s

/-- Left alone, thread `t` comes to the end of the program, or to an action that is not
permitted. -/
abbrev Halts (ok : {β : Type} → Nat → E β → S → Prop) (t : Nat) (p : Prog E α) (s : S) : Prop :=
  Y.Alone ok t (fun _ _ => True) p s

variable {Y} {ok : {β : Type} → Nat → E β → S → Prop} {t : Nat} {Q R : α → S → Prop}
  {p : Prog E α} {s s' : S}

namespace Alone

theorem ret {a : α} (h : Q a s) : Y.Alone ok t Q (.ret a) s := .stop (.inl ⟨a, rfl, h⟩)

theorem mono (h : Y.Alone ok t Q p s) (hQ : ∀ a s, Q a s → R a s) : Y.Alone ok t R p s :=
  Until.mono h fun _ s hq => hq.imp_left fun ⟨a, hp, ha⟩ => ⟨a, hp, hQ a s ha⟩

theorem halts (h : Y.Alone ok t Q p s) : Y.Halts ok t p s := h.mono fun _ _ _ => trivial

theorem bind {f : α → Prog E γ} {T : γ → S → Prop} (h : Y.Alone ok t Q p s)
    (hf : ∀ a s, Q a s → Y.Alone ok t T (f a) s) : Y.Alone ok t T (p.bind f) s := by
  refine Until.bind h fun q s hq => ?_
  rcases hq with ⟨a, rfl, ha⟩ | hq
  · exact hf a s ha
  · exact .stop (.inr (hq.bind f))

/-- One action. -/
theorem act {e : E β} {k : β → Prog E α} {r : β} {x : S} (he : Y.action t false e s = some (r, x))
    (hk : Y.Alone ok t Q (k r) x) : Y.Alone ok t Q (.act e k) s :=
  Until.perform he hk

/-- An action that is not permitted. -/
theorem barred {e : E β} {k : β → Prog E α} (h : ¬ ok t e s) : Y.Alone ok t Q (.act e k) s :=
  .stop (.inr ⟨β, e, k, rfl, h⟩)

/-- A loop whose last iteration this is. -/
theorem last {body : σ → Prog E (σ ⊕ β)} {st : σ} {T : β → S → Prop}
    (h : Y.Alone ok t (fun x s => ∃ b, x = .inr b ∧ T b s) (body st) s) :
    Y.Alone ok t T (Prog.iterate body st) s := by
  refine .loop (h.bind ?_)
  rintro x s ⟨b, rfl, hb⟩
  exact ret hb

/-- A loop that goes on as from elsewhere after one iteration. -/
theorem unroll {body : σ → Prog E (σ ⊕ β)} {st : σ} {T : β → S → Prop}
    (h : Y.Alone ok t (fun x s => Sum.elim (fun st' => Y.Alone ok t T (Prog.iterate body st') s)
      (fun b => T b s) x) (body st) s) :
    Y.Alone ok t T (Prog.iterate body st) s := by
  refine .loop (h.bind fun x s hx => ?_)
  cases x with
  | inl st' => exact hx
  | inr b => exact ret hx

/-- A loop whose variant decreases. -/
theorem iterate {body : σ → Prog E (σ ⊕ β)} {st : σ} {T : β → S → Prop} {ι : Type}
    {r : ι → ι → Prop} (hr : WellFounded r) {I : ι → σ → S → Prop} {i : ι} (h : I i st s)
    (hbody : ∀ i st s, I i st s → Y.Alone ok t
      (fun x s => Sum.elim (fun st' => ∃ j, r j i ∧ I j st' s) (fun b => T b s) x) (body st) s) :
    Y.Alone ok t T (Prog.iterate body st) s := by
  induction i using hr.induction generalizing st s with
  | _ i ih =>
    refine unroll ((hbody i st s h).mono fun x s hx => ?_)
    cases x with
    | inl st' =>
      obtain ⟨j, hj, hI⟩ := hx
      exact ih j hj hI
    | inr b => exact hx

end Alone

/-! ## The steps of the thread -/

variable {op : Call} {q : Prog E Ret} {c : Config E S Call Ret}

/-- The thread comes to where its program is followed to. -/
theorem lone_exec {X : Prog E Ret → S → Prop} (h : Until (Y.lone t) X q s) (hs : c.shared = s)
    (hq : c.thread t = some (op, q)) :
    ∃ n c' q', Y.exec c (List.replicate n (.step t false)) = some c' ∧
      c'.thread t = some (op, q') ∧ X q' c'.shared := by
  induction h generalizing c with
  | stop h => exact ⟨0, c, _, rfl, hq, hs ▸ h⟩
  | @act β e k s hpre _ ih =>
    obtain ⟨⟨r, s'⟩, hact⟩ := Option.isSome_iff_exists.mp hpre
    replace hact : Y.action t false e s = some (r, s') := hact
    let d : Config E S Call Ret :=
      { shared := s', thread := setThread c.thread t (some (op, k r)) }
    obtain ⟨n, c', q', hn, hend⟩ := ih r s' hact (c := d) rfl (setThread_same _ _ _)
    refine ⟨n + 1, c', q', ?_, hend⟩
    have hd : Y.next c (.step t false) = some d := by
      rw [next_step hq, stepProg, hs, hact]
      rfl
    rw [List.replicate_succ, exec_cons, hd]
    exact hn
  | @loop β σ body st k s _ ih =>
    let d : Config E S Call Ret :=
      { shared := c.shared, thread := setThread c.thread t (some (op, .unroll body st k)) }
    obtain ⟨n, c', q', hn, hend⟩ := ih (c := d) hs (setThread_same _ _ _)
    refine ⟨n + 1, c', q', ?_, hend⟩
    have hd : Y.next c (.step t false) = some d := by
      rw [next_step hq]
      rfl
    rw [List.replicate_succ, exec_cons, hd]
    exact hn

theorem Alone.exec {Q : Ret → S → Prop} (h : Y.Alone ok t Q q s) (hs : c.shared = s)
    (hq : c.thread t = some (op, q)) :
    ∃ n c', Y.exec c (List.replicate n (.step t false)) = some c' ∧
      ((∃ a, c'.answered t = some (op, a) ∧ Q a c'.shared) ∨
        ∃ (β : Type) (e : E β) (k : β → Prog E Ret), c'.thread t = some (op, .act e k) ∧
          ¬ ok t e c'.shared) := by
  obtain ⟨n, c', q', hn, hq', hend⟩ := lone_exec h hs hq
  refine ⟨n, c', hn, hend.imp ?_ ?_⟩
  · rintro ⟨a, rfl, ha⟩
    exact ⟨a, by simp only [Config.answered, hq'], ha⟩
  · rintro ⟨β, e, k, rfl, hbar⟩
    exact ⟨β, e, k, hq', hbar⟩

/-- A loop that goes on after each of its iterations is never left. -/
theorem never_answered {body : σ → Prog E (σ ⊕ β)} {f : β → Prog E Ret} {I : σ → S → Prop} {st : σ}
    (hbody : ∀ st s, I st s → Y.Alone (fun _ _ _ => True) t
      (fun x s => ∃ st', x = .inl st' ∧ I st' s) (body st) s)
    (h : I st c.shared) (hp : c.thread t = some (op, (Prog.iterate body st).bind f)) (n : Nat) :
    ∃ c', Y.exec c (List.replicate n (.step t false)) = some c' ∧ c'.answered t = none := by
  -- after one iteration the thread stands before the next one
  have hround : ∀ (c : Config E S Call Ret) st, I st c.shared →
      c.thread t = some (op, .loop body st f) → ∃ m c' st',
        Y.exec c (List.replicate (m + 1) (.step t false)) = some c' ∧ I st' c'.shared ∧
        c'.thread t = some (op, .loop body st' f) := by
    intro c st h hp
    have hbody : Until (Y.lone t) (fun q s => ∃ st', q = .loop body st' f ∧ I st' s)
        (.unroll body st f) c.shared := by
      refine Until.bind (hbody st c.shared h) fun q s hq => ?_
      rcases hq with ⟨x, rfl, st', rfl, hI⟩ | ⟨β, e, k, -, hbar⟩
      · exact .stop ⟨st', rfl, hI⟩
      · exact absurd trivial hbar
    let d : Config E S Call Ret :=
      { shared := c.shared, thread := setThread c.thread t (some (op, .unroll body st f)) }
    obtain ⟨m, c', q', hm, hq', st', rfl, hI⟩ :=
      lone_exec (c := d) hbody rfl (setThread_same _ _ _)
    refine ⟨m, c', st', ?_, hI, hq'⟩
    have hd : Y.next c (.step t false) = some d := by
      rw [next_step hp]
      rfl
    rw [List.replicate_succ, exec_cons, hd]
    exact hm
  have hfar : ∀ k, ∃ m c' st', k ≤ m ∧ Y.exec c (List.replicate m (.step t false)) = some c' ∧
      I st' c'.shared ∧ c'.thread t = some (op, .loop body st' f) := by
    intro k
    induction k with
    | zero => exact ⟨0, c, st, Nat.le_refl 0, rfl, h, hp⟩
    | succ k ih =>
      obtain ⟨m, c', st', hk, hm, hI, hp'⟩ := ih
      obtain ⟨m', c'', st'', hm', hI', hp''⟩ := hround c' st' hI hp'
      refine ⟨m + (m' + 1), c'', st'', by omega, ?_, hI', hp''⟩
      rw [← List.replicate_append_replicate, exec_append, hm]
      exact hm'
  -- a thread that has answered does not come any further
  obtain ⟨m, c', -, hk, hm, -, -⟩ := hfar (n + 1)
  obtain ⟨j, rfl⟩ := Nat.exists_eq_add_of_le hk
  rw [Nat.add_assoc, ← List.replicate_append_replicate, exec_append] at hm
  obtain ⟨d, hd, hrest⟩ := Option.bind_eq_some_iff.mp hm
  refine ⟨d, hd, ?_⟩
  rw [Nat.add_comm, List.replicate_succ, exec_cons] at hrest
  obtain ⟨d', hnext, -⟩ := Option.bind_eq_some_iff.mp hrest
  cases hanswer : d.answered t with
  | none => rfl
  | some r =>
    rw [next_step (Config.thread_of_answered hanswer)] at hnext
    cases hnext

end SharedObject

namespace Discipline

open SharedObject

variable {Y : SharedObject E S Call Ret} (D : Discipline Y A)
  (ok : {β : Type} → Nat → E β → S → Prop) {t : Nat}

/-- All steps of `p` are safe and its result satisfies `Q`, and wherever it is stopped, it comes to
its end, or to an action that `ok` does not permit, if it is left alone from there. -/
def Lives (t : Nat) (p : Prog E α) (Q : α → A → Prop) (s : A) : Prop :=
  ∃ W : Prog E α → A → Prop,
    (∀ p s, W p s → D.StepSafe t W Q p s ∧ Y.Halts ok t p (D.erase s)) ∧ W p s

variable {D} {ok} {p : Prog E α} {Q R : α → A → Prop} {s s' : A}

theorem Lives.wp (h : D.Lives ok t p Q s) : D.WP t p Q s := by
  obtain ⟨W, hW, hp⟩ := h
  exact ⟨W, fun p s hw => (hW p s hw).1, hp⟩

theorem Lives.step (h : D.Lives ok t p Q s) :
    D.StepSafe t (fun p s => D.Lives ok t p Q s) Q p s ∧ Y.Halts ok t p (D.erase s) := by
  obtain ⟨W, hW, hp⟩ := h
  exact ⟨(hW p s hp).1.mono fun q s' hq => ⟨W, hW, hq⟩, (hW p s hp).2⟩

theorem Lives.halts (h : D.Lives ok t p Q s) : Y.Halts ok t p (D.erase s) := h.step.2

theorem Lives.inv (h : D.Lives ok t p Q s) : D.inv s := h.step.1.1

theorem Lives.interfere {u : Nat} (h : D.Lives ok t p Q s) (hu : u ≠ t) (hi : D.inv s')
    (hg : D.guar u s s') : D.Lives ok t p Q s' :=
  h.step.1.2.1 u hu s' hi hg

theorem Lives.stable (p : Prog E α) (Q : α → A → Prop) : D.Stable t (D.Lives ok t p Q) :=
  fun _ hu _ _ _ hi' hg h => h.interfere hu hi' hg

variable (hok : ∀ {β : Type} (t : Nat) (e : E β) (s : S), ok t e s → D.ok t e s)

include hok in
/-- What a program does alone, in a state that its `WP` describes. -/
theorem WP.alone {T : α → S → Prop} (hw : D.WP t p Q s) (h : Y.Alone ok t T p (D.erase s)) :
    Y.Alone ok t (fun a s' => T a s' ∧ ∃ x, D.erase x = s' ∧ D.inv x ∧ Q a x) p (D.erase s) := by
  generalize he : D.erase s = s₀ at h
  induction h generalizing s with
  | stop h =>
    refine .stop (h.imp_left ?_)
    rintro ⟨a, rfl, ha⟩
    exact ⟨a, rfl, ha, s, he, hw.inv, hw.step.2.2⟩
  | @act β e k s₀ hpre _ ih =>
    subst he
    by_cases he : ok t e (D.erase s)
    · refine Until.act hpre fun r s₁ hstep => ?_
      obtain ⟨x, hx, -, -, hk⟩ := hw.step.2.2 false r s₁ (hok t e _ he) hstep
      exact ih r s₁ hstep hk hx
    · exact Alone.barred he
  | loop _ ih => exact Until.loop (ih hw.step.2.2 he)

include hok in
theorem Lives.alone (h : D.Lives ok t p Q s) :
    Y.Alone ok t (fun a s' => ∃ x, D.erase x = s' ∧ D.inv x ∧ Q a x) p (D.erase s) :=
  (h.wp.alone hok h.halts).mono fun _ _ hx => hx.2

/-! ## Rules -/

theorem Lives.mono (hQ : ∀ a s, D.inv s → Q a s → R a s) (h : D.Lives ok t p Q s) :
    D.Lives ok t p R s := by
  refine ⟨fun p s => D.Lives ok t p Q s, fun p s hp => ⟨?_, hp.halts⟩, h⟩
  obtain ⟨hi, hrely, hown⟩ := hp.step.1
  refine ⟨hi, hrely, ?_⟩
  cases p with
  | ret a => exact hQ a s hi hown
  | act e k => exact hown
  | loop body st k => exact hown

theorem Lives.ret {a : α} (hQ : D.Stable t (Q a)) (hi : D.inv s) (h : Q a s) :
    D.Lives ok t (.ret a) Q s := by
  refine ⟨fun p s => p = .ret a ∧ D.inv s ∧ Q a s, ?_, rfl, hi, h⟩
  rintro p s ⟨rfl, hi, h⟩
  exact ⟨⟨hi, fun u hu s' hi' hg => ⟨rfl, hi', hQ u hu s s' hi hi' hg h⟩, h⟩, .ret trivial⟩

include hok in
/-- Sequencing. -/
theorem Lives.bind {f : α → Prog E γ} {T : γ → A → Prop}
    (h : D.Lives ok t p (fun a s => D.Lives ok t (f a) T s) s) : D.Lives ok t (p.bind f) T s := by
  refine ⟨fun q s => (∃ p, q = p.bind f ∧ D.Lives ok t p (fun a s => D.Lives ok t (f a) T s) s) ∨
    D.Lives ok t q T s, ?_, .inl ⟨p, rfl, h⟩⟩
  rintro q s (⟨p, rfl, hp⟩ | hq)
  · constructor
    · obtain ⟨hi, hrely, hown⟩ := hp.step.1
      cases p with
      | ret a => exact (Lives.step hown).1.mono fun _ _ => .inr
      | act e k =>
        refine ⟨hi, fun u hu s' hi' hg => .inl ⟨_, rfl, hrely u hu s' hi' hg⟩, ?_⟩
        intro b r s' hok hact
        obtain ⟨a, h1, h2, h3, h4⟩ := hown b r s' hok hact
        exact ⟨a, h1, h2, h3, .inl ⟨_, rfl, h4⟩⟩
      | loop body st k =>
        exact ⟨hi, fun u hu s' hi' hg => .inl ⟨_, rfl, hrely u hu s' hi' hg⟩,
          .inl ⟨_, (Prog.unroll_bind body st k f).symm, hown⟩⟩
    · apply (hp.alone hok).bind
      rintro a _ ⟨x, rfl, -, hx⟩
      exact hx.halts
  · exact ⟨hq.step.1.mono fun _ _ => .inr, hq.halts⟩

include hok in
/-- One action, from a precondition that the other threads keep. -/
theorem Lives.act {e : E β} {k : β → Prog E α} {P : A → Prop} (hP : D.Stable t P)
    (hi : D.inv s) (h : P s)
    (henabled : ∀ s, D.inv s → P s → ok t e (D.erase s) →
      ∃ r, Y.action t false e (D.erase s) = some r)
    (hstep : ∀ s b r s', D.inv s → P s → D.ok t e (D.erase s) →
      Y.action t b e (D.erase s) = some (r, s') →
      ∃ a, D.erase a = s' ∧ D.inv a ∧ D.guar t s a ∧ D.Lives ok t (k r) Q a) :
    D.Lives ok t (.act e k) Q s := by
  refine ⟨fun q s => (q = .act e k ∧ D.inv s ∧ P s) ∨ D.Lives ok t q Q s, ?_, .inl ⟨rfl, hi, h⟩⟩
  rintro q s (⟨rfl, hi, h⟩ | hq)
  · constructor
    · refine ⟨hi, fun u hu s' hi' hg => .inl ⟨rfl, hi', hP u hu s s' hi hi' hg h⟩, ?_⟩
      intro b r s' hok hact
      obtain ⟨a, h1, h2, h3, h4⟩ := hstep s b r s' hi h hok hact
      exact ⟨a, h1, h2, h3, .inr h4⟩
    · by_cases he : ok t e (D.erase s)
      · obtain ⟨⟨r, s'⟩, hact⟩ := henabled s hi h he
        obtain ⟨a, rfl, -, -, hk⟩ := hstep s false r s' hi h (hok t e _ he) hact
        exact .act hact hk.halts
      · exact Alone.barred he
  · exact ⟨hq.step.1.mono fun _ _ => .inr, hq.halts⟩

include hok in
/-- A loop, from an invariant on its locals that the other threads keep, if its iterations end where
the invariant holds and nobody interferes. -/
theorem Lives.loop {body : σ → Prog E (σ ⊕ β)} {st : σ} {k : β → Prog E α} {I : σ → A → Prop}
    (hI : ∀ st, D.Stable t (I st)) (hi : D.inv s) (h : I st s)
    (hbody : ∀ st s, D.inv s → I st s → D.Lives ok t (body st)
      (fun r s => Sum.elim (fun st' => I st' s) (fun b => D.Lives ok t (k b) Q s) r) s)
    (hends : ∀ st s, D.inv s → I st s → Y.Halts ok t (Prog.iterate body st) (D.erase s)) :
    D.Lives ok t (.loop body st k) Q s := by
  let next : σ ⊕ β → Prog E α := Sum.elim (fun st => .loop body st k) k
  let after : σ ⊕ β → A → Prop :=
    fun r s => Sum.elim (fun st => I st s) (fun b => D.Lives ok t (k b) Q s) r
  -- alone, the loop ends in a state from which the rest ends
  have hloop : ∀ st s, D.inv s → I st s → Y.Halts ok t (.loop body st k) (D.erase s) := by
    intro st s hi h
    have hw : D.WP t (Prog.iterate body st) (fun b s => D.Lives ok t (k b) Q s) s := by
      refine WP.loop hI hi h fun st s hi h => ?_
      refine WP.mono (fun r s hi hr => ?_) (hbody st s hi h).wp
      cases r with
      | inl st' => exact hr
      | inr b => exact WP.ret (Lives.stable _ _) hi hr
    refine Alone.bind (p := Prog.iterate body st) (hw.alone hok (hends st s hi h)) ?_
    rintro b _ ⟨-, x, rfl, -, hx⟩
    exact hx.halts
  have hafter : ∀ p s, D.Lives ok t p after s → Y.Halts ok t (p.bind next) (D.erase s) := by
    intro p s hp
    apply (hp.alone hok).bind
    rintro r _ ⟨x, rfl, hi, hx⟩
    cases r with
    | inl st => exact hloop st x hi hx
    | inr b => exact Lives.halts hx
  refine ⟨fun q s => (∃ st, q = .loop body st k ∧ D.inv s ∧ I st s) ∨
    (∃ p, q = p.bind next ∧ D.Lives ok t p after s) ∨ D.Lives ok t q Q s, ?_, .inl ⟨st, rfl, hi, h⟩⟩
  have atLoop : ∀ st s, D.inv s → I st s → D.StepSafe t (fun q s =>
      (∃ st, q = .loop body st k ∧ D.inv s ∧ I st s) ∨
      (∃ p, q = p.bind next ∧ D.Lives ok t p after s) ∨ D.Lives ok t q Q s) Q (.loop body st k) s :=
    fun st s hi h => ⟨hi, fun u hu s' hi' hg => .inl ⟨st, rfl, hi', hI st u hu s s' hi hi' hg h⟩,
      .inr (.inl ⟨body st, rfl, hbody st s hi h⟩)⟩
  rintro q s (⟨st, rfl, hi, h⟩ | ⟨p, rfl, hp⟩ | hq)
  · exact ⟨atLoop st s hi h, hloop st s hi h⟩
  · refine ⟨?_, hafter p s hp⟩
    obtain ⟨hi, hrely, hown⟩ := hp.step.1
    cases p with
    | ret r =>
      cases r with
      | inl st' => exact atLoop st' s hi hown
      | inr b => exact (Lives.step hown).1.mono fun _ _ h => .inr (.inr h)
    | act e k' =>
      refine ⟨hi, fun u hu s' hi' hg => .inr (.inl ⟨_, rfl, hrely u hu s' hi' hg⟩), ?_⟩
      intro b r s' hok hact
      obtain ⟨a, h1, h2, h3, h4⟩ := hown b r s' hok hact
      exact ⟨a, h1, h2, h3, .inr (.inl ⟨_, rfl, h4⟩)⟩
    | loop body' st' k' =>
      exact ⟨hi, fun u hu s' hi' hg => .inr (.inl ⟨_, rfl, hrely u hu s' hi' hg⟩),
        .inr (.inl ⟨_, (Prog.unroll_bind body' st' k' next).symm, hown⟩)⟩
  · exact ⟨hq.step.1.mono fun _ _ h => .inr (.inr h), hq.halts⟩

/-- A program may be followed with what no step makes false. -/
theorem Lives.frame {P : A → Prop} (hP : D.Persistent P) (h : D.Lives ok t p Q s) (hs : P s) :
    D.Lives ok t p (fun a s => Q a s ∧ P s) s := by
  refine ⟨fun p s => D.Lives ok t p Q s ∧ P s, ?_, h, hs⟩
  rintro p s ⟨hp, hs⟩
  refine ⟨?_, hp.halts⟩
  obtain ⟨hi, hrely, hown⟩ := hp.step.1
  refine ⟨hi, fun u hu s' hi' hg => ⟨hrely u hu s' hi' hg, hP u s s' hi hi' hg hs⟩, ?_⟩
  cases p with
  | ret a => exact ⟨hown, hs⟩
  | act e k =>
    intro b r s' hok hact
    obtain ⟨a, h1, h2, h3, h4⟩ := hown b r s' hok hact
    exact ⟨a, h1, h2, h3, h4, hP t s a hi h2 h3 hs⟩
  | loop body st k => exact ⟨hown, hs⟩

/-! ## Soundness -/

/-- What a step of thread `t` must establish at the boundaries of a call; `ok` may depend on the
call. -/
structure CoversLive (D : Discipline Y A) (ok : Call → {β : Type} → Nat → E β → S → Prop)
    (post : Nat → Call → Ret → A → Prop) : Prop where
  invoke : ∀ t c s s', D.inv s → Y.invoke t c (D.erase s) = some s' →
    ∃ a, D.erase a = s' ∧ D.guar t s a ∧ D.Lives (ok c) t (Y.code c) (post t c) a
  respond : ∀ t c r s, D.inv s → post t c r s →
    ∃ a, D.erase a = Y.respond t c r (D.erase s) ∧ D.inv a ∧ D.guar t s a

variable {ok : Call → {β : Type} → Nat → E β → S → Prop} {post : Nat → Call → Ret → A → Prop}
  {c : Config E S Call Ret} {a₀ : A}

theorem CoversLive.covers (hD : D.CoversLive ok post) : D.Covers post where
  respond := hD.respond
  invoke t c s s' hi hinvoke := by
    obtain ⟨a, ha, hg, h⟩ := hD.invoke t c s s' hi hinvoke
    exact ⟨a, ha, hg, h.wp⟩

/-- In every reachable configuration every thread inside a call is covered. -/
theorem reach_lives (hD : D.CoversLive ok post) (h₀ : D.inv a₀)
    (h : Y.Reach D.ok (D.erase a₀) c) :
    ∃ a, D.erase a = c.shared ∧ D.inv a ∧
      ∀ t op p, c.thread t = some (op, p) → D.Lives (ok op) t p (post t op) a := by
  induction h with
  | start => exact ⟨a₀, rfl, h₀, fun t op p ht => by simp [SharedObject.start] at ht⟩
  | @step c c' l _ hok hnext ih =>
    obtain ⟨a, he, hi, hcov⟩ := ih
    -- one thread moves within its guarantee, and is covered afterwards
    have hmove : ∃ a' v, D.erase a' = c'.shared ∧ D.inv a' ∧ (a' = a ∨ D.guar l.thread a a') ∧
        c'.thread = setThread c.thread l.thread v ∧
        ∀ op p, v = some (op, p) → D.Lives (ok op) l.thread p (post l.thread op) a' := by
      cases l with
      | call t op =>
        simp only [next] at hnext
        split at hnext
        · cases hnext
        · obtain ⟨s', hs', rfl⟩ := Option.map_eq_some_iff.mp hnext
          obtain ⟨a', rfl, hg, hlives⟩ := hD.invoke t op _ _ hi (he.symm ▸ hs')
          refine ⟨a', _, rfl, hlives.inv, .inr hg, rfl, fun op' p' heq => ?_⟩
          cases heq
          exact hlives
      | step t b =>
        simp only [next] at hnext
        split at hnext
        · cases hnext
        · next op p hp =>
          obtain ⟨⟨p', s'⟩, hs', rfl⟩ := Option.map_eq_some_iff.mp hnext
          have hlives := hcov t op p hp
          cases p with
          | ret r => cases hs'
          | act e k =>
            obtain ⟨⟨r, s''⟩, hact, heq⟩ := Option.map_eq_some_iff.mp hs'
            cases heq
            have hok' : D.ok t e c.shared := by simpa [Permits, hp] using hok
            rw [← he] at hact hok'
            obtain ⟨a', rfl, hi', hg, hk⟩ := hlives.step.1.2.2 b r s'' hok' hact
            refine ⟨a', _, rfl, hi', .inr hg, rfl, fun op' p' heq => ?_⟩
            cases heq
            exact hk
          | loop body st k =>
            cases hs'
            refine ⟨a, _, he, hi, .inl rfl, rfl, fun op' p' heq => ?_⟩
            cases heq
            exact hlives.step.1.2.2
      | ret t =>
        simp only [next] at hnext
        split at hnext
        · next op r hp =>
          cases hnext
          obtain ⟨a', he', hi', hg⟩ := hD.respond t op r _ hi (hcov t op _ hp).step.1.2.2
          exact ⟨a', none, he'.trans (he ▸ rfl), hi', .inr hg, rfl, fun _ _ heq => by cases heq⟩
        · cases hnext
    obtain ⟨a', v, he', hi', hg, hthread, hown⟩ := hmove
    refine ⟨a', he', hi', fun u op p hu => ?_⟩
    rw [hthread] at hu
    by_cases hul : u = l.thread
    · subst hul
      exact hown op p (by simpa using hu)
    · rw [setThread_other _ _ hul] at hu
      rcases hg with rfl | hg
      · exact hcov u op p hu
      · exact (hcov u op p hu).interfere (Ne.symm hul) hi' hg

/-- In every reachable configuration every thread inside a call comes to its end, or to an action
that is not permitted, if it is left alone. -/
theorem reach_halts (hD : D.CoversLive ok post) (h₀ : D.inv a₀)
    (h : Y.Reach D.ok (D.erase a₀) c) {t : Nat} {op : Call} {p : Prog E Ret}
    (hp : c.thread t = some (op, p)) :
    ∃ n c', Y.exec c (List.replicate n (.step t false)) = some c' ∧
      ((c'.answered t).isSome = true ∨ ∃ (β : Type) (e : E β) (k : β → Prog E Ret),
        c'.thread t = some (op, .act e k) ∧ ¬ ok op t e c'.shared) := by
  obtain ⟨a, he, -, hcov⟩ := reach_lives hD h₀ h
  obtain ⟨n, c', hn, hend⟩ := (hcov t op p hp).halts.exec he.symm hp
  refine ⟨n, c', hn, hend.imp_left ?_⟩
  rintro ⟨a, ha, -⟩
  rw [ha]
  rfl

end Discipline

end MpmcMap.Conc
