import MpmcMap.Conc.SharedObject

/-!
# Rely-guarantee reasoning

A `Discipline` for a system names the global invariant, what a step of each thread may change (its
guarantee), and the condition under which actions are considered. All of these speak of *augmented*
states: states of the object together with history variables that the proof chooses at each step
and the program does not see. `WP D t p Q s` says that thread `t`, about to run `p` from `s` while
every other thread keeps its guarantee, keeps the invariant and its own guarantee at each action,
and satisfies `Q` if it returns. It is a partial-correctness notion, the greatest predicate closed
under steps, so it covers retry loops and spinning.

`Discipline.reach_inv` is the soundness theorem: if each call is covered by a `WP` and client and
bookkeeping steps keep the invariant, then every reachable configuration has history variables for
which the invariant holds.
-/

namespace MpmcMap.Conc

/-- The proof obligations shared by all threads of a system. -/
structure Discipline {E : Type → Type} {S Call Ret : Type} (Y : SharedObject E S Call Ret)
    (A : Type*) where
  /-- Forget the history variables. -/
  erase : A → S
  inv : A → Prop
  guar : Nat → A → A → Prop
  ok : {β : Type} → Nat → E β → S → Prop

namespace Discipline

variable {E : Type → Type} {S Call Ret : Type} {A : Type*} {Y : SharedObject E S Call Ret}
variable (D : Discipline Y A) {α β γ σ : Type} {t : Nat}

/-- One step of `p` is safe, its own or another thread's, and leads to configurations in `W`. -/
def StepSafe (t : Nat) (W : Prog E α → A → Prop) (Q : α → A → Prop) (p : Prog E α) (s : A) :
    Prop :=
  D.inv s ∧
  (∀ u, u ≠ t → ∀ s', D.inv s' → D.guar u s s' → W p s') ∧
  match p with
  | .ret a => Q a s
  | .act e k => ∀ b r s', D.ok t e (D.erase s) → Y.action t b e (D.erase s) = some (r, s') →
      ∃ a, D.erase a = s' ∧ D.inv a ∧ D.guar t s a ∧ W (k r) a
  | .loop body st k => W (.unroll body st k) s

/-- All steps of `p` are safe and its result satisfies `Q`. -/
def WP (t : Nat) (p : Prog E α) (Q : α → A → Prop) (s : A) : Prop :=
  ∃ W : Prog E α → A → Prop, (∀ p s, W p s → D.StepSafe t W Q p s) ∧ W p s

/-- Steps of other threads keep `P`. -/
def Stable (t : Nat) (P : A → Prop) : Prop :=
  ∀ u, u ≠ t → ∀ s s', D.inv s → D.inv s' → D.guar u s s' → P s → P s'

/-! ## Stable assertions -/

variable {D}

theorem Stable.const {P : Prop} : D.Stable t fun _ => P := fun _ _ _ _ _ _ _ h => h

theorem Stable.and {P R : A → Prop} (hP : D.Stable t P) (hR : D.Stable t R) :
    D.Stable t fun s => P s ∧ R s :=
  fun u hu s s' hi hi' hg h => ⟨hP u hu s s' hi hi' hg h.1, hR u hu s s' hi hi' hg h.2⟩

theorem Stable.or {P R : A → Prop} (hP : D.Stable t P) (hR : D.Stable t R) :
    D.Stable t fun s => P s ∨ R s :=
  fun u hu s s' hi hi' hg h => h.imp (hP u hu s s' hi hi' hg) (hR u hu s s' hi hi' hg)

theorem Stable.exist {ι : Sort _} {P : ι → A → Prop} (hP : ∀ i, D.Stable t (P i)) :
    D.Stable t fun s => ∃ i, P i s :=
  fun u hu s s' hi hi' hg h => h.imp fun i => hP i u hu s s' hi hi' hg

theorem Stable.imp {C : Prop} {P : A → Prop} (hP : C → D.Stable t P) :
    D.Stable t fun s => C → P s :=
  fun u hu s s' hi hi' hg h c => hP c u hu s s' hi hi' hg (h c)

/-! ## Rules -/

variable {p : Prog E α} {Q R : α → A → Prop} {s : A}

theorem StepSafe.mono {W V : Prog E α → A → Prop} (hV : ∀ p s, W p s → V p s)
    (h : D.StepSafe t W Q p s) : D.StepSafe t V Q p s := by
  obtain ⟨hi, hrely, hown⟩ := h
  refine ⟨hi, fun u hu s' hi' hg => hV _ _ (hrely u hu s' hi' hg), ?_⟩
  cases p with
  | ret a => exact hown
  | act e k =>
    intro b r s' hok hact
    obtain ⟨a, h1, h2, h3, h4⟩ := hown b r s' hok hact
    exact ⟨a, h1, h2, h3, hV _ _ h4⟩
  | loop body st k => exact hV _ _ hown

/-- A `WP` allows one more step. -/
theorem WP.step (h : D.WP t p Q s) : D.StepSafe t (fun p s => D.WP t p Q s) Q p s := by
  obtain ⟨W, hW, hp⟩ := h
  exact (hW p s hp).mono fun q s' hq => ⟨W, hW, hq⟩

theorem WP.inv (h : D.WP t p Q s) : D.inv s := h.step.1

/-- Interference keeps a `WP`. -/
theorem WP.interfere {u : Nat} {s' : A} (h : D.WP t p Q s) (hu : u ≠ t) (hi : D.inv s')
    (hg : D.guar u s s') : D.WP t p Q s' :=
  h.step.2.1 u hu s' hi hg

theorem WP.stable (p : Prog E α) (Q : α → A → Prop) : D.Stable t (D.WP t p Q) :=
  fun _ hu _ _ _ hi' hg h => h.interfere hu hi' hg

/-- What the result satisfies may be weakened. -/
theorem WP.mono (hQ : ∀ a s, D.inv s → Q a s → R a s) (h : D.WP t p Q s) :
    D.WP t p R s := by
  refine ⟨fun p s => D.WP t p Q s, fun p s hp => ?_, h⟩
  obtain ⟨hi, hrely, hown⟩ := hp.step
  refine ⟨hi, hrely, ?_⟩
  cases p with
  | ret a => exact hQ a s hi hown
  | act e k => exact hown
  | loop body st k => exact hown

theorem WP.ret {a : α} (hQ : D.Stable t (Q a)) (hi : D.inv s) (h : Q a s) :
    D.WP t (.ret a) Q s := by
  refine ⟨fun p s => p = .ret a ∧ D.inv s ∧ Q a s, ?_, rfl, hi, h⟩
  rintro p s ⟨rfl, hi, h⟩
  exact ⟨hi, fun u hu s' hi' hg => ⟨rfl, hi', hQ u hu s s' hi hi' hg h⟩, h⟩

/-- Sequencing. -/
theorem WP.bind {f : α → Prog E γ} {T : γ → A → Prop}
    (h : D.WP t p (fun a s => D.WP t (f a) T s) s) : D.WP t (p.bind f) T s := by
  refine ⟨fun q s => (∃ p, q = p.bind f ∧ D.WP t p (fun a s => D.WP t (f a) T s) s) ∨
    D.WP t q T s, ?_, .inl ⟨p, rfl, h⟩⟩
  rintro q s (⟨p, rfl, hp⟩ | hq)
  · obtain ⟨hi, hrely, hown⟩ := hp.step
    cases p with
    | ret a => exact (WP.step hown).mono fun _ _ => .inr
    | act e k =>
      refine ⟨hi, fun u hu s' hi' hg => .inl ⟨_, rfl, hrely u hu s' hi' hg⟩, ?_⟩
      intro b r s' hok hact
      obtain ⟨a, h1, h2, h3, h4⟩ := hown b r s' hok hact
      exact ⟨a, h1, h2, h3, .inl ⟨_, rfl, h4⟩⟩
    | loop body st k =>
      exact ⟨hi, fun u hu s' hi' hg => .inl ⟨_, rfl, hrely u hu s' hi' hg⟩,
        .inl ⟨_, (Prog.unroll_bind body st k f).symm, hown⟩⟩
  · exact hq.step.mono fun _ _ => .inr

/-- One action, from a precondition that the other threads keep. -/
theorem WP.act {e : E β} {k : β → Prog E α} {P : A → Prop} (hP : D.Stable t P)
    (hi : D.inv s) (h : P s)
    (hstep : ∀ s b r s', D.inv s → P s → D.ok t e (D.erase s) →
      Y.action t b e (D.erase s) = some (r, s') →
      ∃ a, D.erase a = s' ∧ D.inv a ∧ D.guar t s a ∧ D.WP t (k r) Q a) :
    D.WP t (.act e k) Q s := by
  refine ⟨fun q s => (q = .act e k ∧ D.inv s ∧ P s) ∨ D.WP t q Q s, ?_, .inl ⟨rfl, hi, h⟩⟩
  rintro q s (⟨rfl, hi, h⟩ | hq)
  · refine ⟨hi, fun u hu s' hi' hg => .inl ⟨rfl, hi', hP u hu s s' hi hi' hg h⟩, ?_⟩
    intro b r s' hok hact
    obtain ⟨a, h1, h2, h3, h4⟩ := hstep s b r s' hi h hok hact
    exact ⟨a, h1, h2, h3, .inr h4⟩
  · exact hq.step.mono fun _ _ => .inr

/-- One action that only reads, for a guarantee that allows a thread to change nothing. -/
theorem WP.read {e : E β} {k : β → Prog E α} {P : A → Prop} (hrefl : ∀ s, D.guar t s s)
    (hP : D.Stable t P) (hi : D.inv s) (h : P s)
    (hstep : ∀ s b r s', D.inv s → P s → Y.action t b e (D.erase s) = some (r, s') →
      s' = D.erase s ∧ D.WP t (k r) Q s) :
    D.WP t (.act e k) Q s := by
  refine WP.act hP hi h fun s b r s' hi h _ hact => ?_
  obtain ⟨rfl, hw⟩ := hstep s b r s' hi h hact
  exact ⟨s, rfl, hi, hrefl s, hw⟩

/-- A loop, from an invariant on its locals that the other threads keep. -/
theorem WP.loop {body : σ → Prog E (σ ⊕ β)} {st : σ} {k : β → Prog E α} {I : σ → A → Prop}
    (hI : ∀ st, D.Stable t (I st)) (hi : D.inv s) (h : I st s)
    (hbody : ∀ st s, D.inv s → I st s → D.WP t (body st)
      (fun r s => Sum.elim (fun st' => I st' s) (fun b => D.WP t (k b) Q s) r) s) :
    D.WP t (.loop body st k) Q s := by
  -- the configurations inside an iteration are those of the body, followed by the loop
  let next : σ ⊕ β → Prog E α := Sum.elim (fun st => .loop body st k) k
  let after : σ ⊕ β → A → Prop :=
    fun r s => Sum.elim (fun st => I st s) (fun b => D.WP t (k b) Q s) r
  refine ⟨fun q s => (∃ st, q = .loop body st k ∧ D.inv s ∧ I st s) ∨
    (∃ p, q = p.bind next ∧ D.WP t p after s) ∨ D.WP t q Q s, ?_, .inl ⟨st, rfl, hi, h⟩⟩
  have atLoop : ∀ st s, D.inv s → I st s → D.StepSafe t (fun q s =>
      (∃ st, q = .loop body st k ∧ D.inv s ∧ I st s) ∨
      (∃ p, q = p.bind next ∧ D.WP t p after s) ∨ D.WP t q Q s) Q (.loop body st k) s :=
    fun st s hi h => ⟨hi, fun u hu s' hi' hg => .inl ⟨st, rfl, hi', hI st u hu s s' hi hi' hg h⟩,
      .inr (.inl ⟨body st, rfl, hbody st s hi h⟩)⟩
  rintro q s (⟨st, rfl, hi, h⟩ | ⟨p, rfl, hp⟩ | hq)
  · exact atLoop st s hi h
  · obtain ⟨hi, hrely, hown⟩ := hp.step
    cases p with
    | ret r =>
      cases r with
      | inl st' => exact atLoop st' s hi hown
      | inr b => exact (WP.step hown).mono fun _ _ h => .inr (.inr h)
    | act e k' =>
      refine ⟨hi, fun u hu s' hi' hg => .inr (.inl ⟨_, rfl, hrely u hu s' hi' hg⟩), ?_⟩
      intro b r s' hok hact
      obtain ⟨a, h1, h2, h3, h4⟩ := hown b r s' hok hact
      exact ⟨a, h1, h2, h3, .inr (.inl ⟨_, rfl, h4⟩)⟩
    | loop body' st' k' =>
      exact ⟨hi, fun u hu s' hi' hg => .inr (.inl ⟨_, rfl, hrely u hu s' hi' hg⟩),
        .inr (.inl ⟨_, (Prog.unroll_bind body' st' k' next).symm, hown⟩)⟩
  · exact hq.step.mono fun _ _ h => .inr (.inr h)

/-! ## Assertions that no step makes false -/

variable (D) in
/-- No thread's steps make `P` false. -/
def Persistent (P : A → Prop) : Prop :=
  ∀ u s s', D.inv s → D.inv s' → D.guar u s s' → P s → P s'

/-- A program may be followed with what no step makes false. -/
theorem WP.frame {P : A → Prop} (hP : D.Persistent P) (h : D.WP t p Q s) (hs : P s) :
    D.WP t p (fun a s => Q a s ∧ P s) s := by
  refine ⟨fun p s => D.WP t p Q s ∧ P s, ?_, h, hs⟩
  rintro p s ⟨hp, hs⟩
  obtain ⟨hi, hrely, hown⟩ := hp.step
  refine ⟨hi, fun u hu s' hi' hg => ⟨hrely u hu s' hi' hg, hP u s s' hi hi' hg hs⟩, ?_⟩
  cases p with
  | ret a => exact ⟨hown, hs⟩
  | act e k =>
    intro b r s' hok hact
    obtain ⟨a, h1, h2, h3, h4⟩ := hown b r s' hok hact
    exact ⟨a, h1, h2, h3, h4, hP t s a hi h2 h3 hs⟩
  | loop body st k => exact ⟨hown, hs⟩

/-! ## Programs that keep an assertion -/

variable (D) in
/-- The program may run wherever `I` holds, and `I` holds when it returns. -/
def Keeps (t : Nat) (I : A → Prop) (p : Prog E α) : Prop :=
  ∀ s, D.inv s → I s → D.WP t p (fun _ s => I s) s

variable {I : A → Prop}

theorem Keeps.ret (hI : D.Stable t I) (a : α) : D.Keeps t I (.ret a) :=
  fun _ hi h => WP.ret hI hi h

theorem Keeps.bind {f : α → Prog E γ} (hp : D.Keeps t I p) (hf : ∀ a, D.Keeps t I (f a)) :
    D.Keeps t I (p.bind f) :=
  fun s hi h => WP.bind ((hp s hi h).mono fun a s hi h => hf a s hi h)

theorem Keeps.act {e : E β} {k : β → Prog E α} {R : β → Prop} (hI : D.Stable t I)
    (hstep : ∀ s b r s', D.inv s → I s → D.ok t e (D.erase s) →
      Y.action t b e (D.erase s) = some (r, s') →
      ∃ a, D.erase a = s' ∧ D.inv a ∧ D.guar t s a ∧ I a ∧ R r)
    (hk : ∀ b, R b → D.Keeps t I (k b)) : D.Keeps t I (.act e k) := by
  intro s hi h
  refine WP.act hI hi h fun s b r s' hi h hok hact => ?_
  obtain ⟨a, h1, h2, h3, h4, h5⟩ := hstep s b r s' hi h hok hact
  exact ⟨a, h1, h2, h3, hk r h5 a h2 h4⟩

theorem Keeps.loop {body : σ → Prog E (σ ⊕ β)} {k : β → Prog E α} (hI : D.Stable t I)
    (hbody : ∀ st, D.Keeps t I (body st)) (hk : ∀ b, D.Keeps t I (k b)) (st : σ) :
    D.Keeps t I (.loop body st k) := by
  intro s hi h
  refine WP.loop (I := fun _ => I) (fun _ => hI) hi h fun st s hi h => ?_
  refine (hbody st s hi h).mono fun r s hi h => ?_
  cases r with
  | inl st' => exact h
  | inr b => exact hk b s hi h

/-- A program keeps what its actions keep. -/
theorem Keeps.of_uses {good : {β : Type} → E β → Prop} {p : Prog E α} (hI : D.Stable t I)
    (hgood : ∀ {β : Type} {e : E β}, good e → ∀ s b r s', D.inv s → I s → D.ok t e (D.erase s) →
      Y.action t b e (D.erase s) = some (r, s') →
      ∃ a, D.erase a = s' ∧ D.inv a ∧ D.guar t s a ∧ I a)
    (hp : p.Uses good) : D.Keeps t I p := by
  induction hp with
  | ret a => exact .ret hI a
  | act he _ ih =>
    refine .act (R := fun _ => True) hI (fun s b r s' hi h hok hact => ?_) fun b _ => ih b
    obtain ⟨a, h1, h2, h3, h4⟩ := hgood he s b r s' hi h hok hact
    exact ⟨a, h1, h2, h3, h4, trivial⟩
  | loop _ _ hbody hk => exact .loop hI hbody hk _

/-- A program keeps what the programs keep by which its actions are performed. -/
theorem Keeps.expand {F : Type → Type} {f : {β : Type} → F β → Prog E β}
    (hI : D.Stable t I) (hf : ∀ {β : Type} (e : F β), D.Keeps t I (f e)) (p : Prog F α) :
    D.Keeps t I (p.expand f) := by
  induction p with
  | ret a => exact .ret hI a
  | act e _ ih => exact .bind (hf e) ih
  | loop _ _ _ hbody hk => exact .loop hI hbody hk _

/-! ## Soundness -/

/-- What a step of thread `t` must establish at the boundaries of a call. -/
structure Covers (D : Discipline Y A) (post : Nat → Call → Ret → A → Prop) : Prop where
  invoke : ∀ t c s s', D.inv s → Y.invoke t c (D.erase s) = some s' →
    ∃ a, D.erase a = s' ∧ D.guar t s a ∧ D.WP t (Y.code c) (post t c) a
  respond : ∀ t c r s, D.inv s → post t c r s →
    ∃ a, D.erase a = Y.respond t c r (D.erase s) ∧ D.inv a ∧ D.guar t s a

/-- The same for threads of which something is known between two calls. -/
structure CoversIdle (D : Discipline Y A) (idle : Nat → A → Prop)
    (post : Nat → Call → Ret → A → Prop) : Prop where
  stable : ∀ t, D.Stable t (idle t)
  invoke : ∀ t c s s', D.inv s → idle t s → Y.invoke t c (D.erase s) = some s' →
    ∃ a, D.erase a = s' ∧ D.guar t s a ∧ D.WP t (Y.code c) (post t c) a
  respond : ∀ t c r s, D.inv s → post t c r s →
    ∃ a, D.erase a = Y.respond t c r (D.erase s) ∧ D.inv a ∧ D.guar t s a ∧ idle t a

/-- The same for threads of which something is known that depends on the call they made last. -/
structure CoversLast (D : Discipline Y A) (last : Nat → Option Call → A → Prop)
    (post : Nat → Call → Ret → A → Prop) : Prop where
  stable : ∀ t o, D.Stable t (last t o)
  invoke : ∀ t o c s s', D.inv s → last t o s → Y.invoke t c (D.erase s) = some s' →
    ∃ a, D.erase a = s' ∧ D.guar t s a ∧ D.WP t (Y.code c) (post t c) a
  respond : ∀ t c r s, D.inv s → post t c r s →
    ∃ a, D.erase a = Y.respond t c r (D.erase s) ∧ D.inv a ∧ D.guar t s a ∧ last t (some c) a

/-- With these history variables the invariant holds and every thread inside a call is covered. -/
structure GoodAt (D : Discipline Y A) (post : Nat → Call → Ret → A → Prop)
    (c : Config E S Call Ret) (a : A) : Prop where
  erase : D.erase a = c.shared
  inv : D.inv a
  covered : ∀ t op p, c.thread t = some (op, p) → D.WP t p (post t op) a

open SharedObject

section Soundness

variable {post : Nat → Call → Ret → A → Prop} {idle : Nat → A → Prop}
  {last : Nat → Option Call → A → Prop}
  {c c' : Config E S Call Ret} {a a' a₀ : A}

/-- A step of a thread inside a call. -/
theorem prog_step {t : Nat} {b : Bool} {op : Call} {p : Prog E Ret} {Q : Ret → A → Prop}
    (he : D.erase a = c.shared) (hw : D.WP t p Q a) (hp : c.thread t = some (op, p))
    (hok : Permits D.ok c (.step t b)) (h : Y.next c (.step t b) = some c') :
    ∃ a' p', D.erase a' = c'.shared ∧ (a' = a ∨ D.guar t a a') ∧
      c'.thread = setThread c.thread t (some (op, p')) ∧ D.WP t p' Q a' := by
  simp only [next, hp] at h
  obtain ⟨⟨p', s'⟩, hs', rfl⟩ := Option.map_eq_some_iff.mp h
  cases p with
  | ret r => simp [stepProg] at hs'
  | act e k =>
    obtain ⟨⟨r, s''⟩, hact, heq⟩ := Option.map_eq_some_iff.mp hs'
    cases heq
    have hok' : D.ok t e c.shared := by simpa [Permits, hp] using hok
    rw [← he] at hact hok'
    obtain ⟨a', rfl, -, hg, hw'⟩ := hw.step.2.2 b r s'' hok' hact
    exact ⟨a', k r, rfl, .inr hg, rfl, hw'⟩
  | loop body st k =>
    cases hs'
    exact ⟨a, _, he, .inl rfl, rfl, hw.step.2.2⟩

theorem CoversIdle.coversLast (hD : D.CoversIdle idle post) : D.CoversLast (fun t _ => idle t) post where
  stable t _ := hD.stable t
  invoke t _ := hD.invoke t
  respond := hD.respond

/-- What is known of the thread that moves, before and after its step. -/
theorem own_step (hD : D.CoversLast last post) {l : Label Call} {o : Option Call} (he : D.erase a = c.shared)
    (hi : D.inv a)
    (hcov : ∀ op p, c.thread l.thread = some (op, p) → D.WP l.thread p (post l.thread op) a)
    (hidle : c.thread l.thread = none → last l.thread o a) (hok : Permits D.ok c l)
    (h : Y.next c l = some c') :
    ∃ a' v, D.erase a' = c'.shared ∧ D.inv a' ∧ (a' = a ∨ D.guar l.thread a a') ∧
      c'.thread = setThread c.thread l.thread v ∧
      (∀ op p, v = some (op, p) → D.WP l.thread p (post l.thread op) a') ∧
      (v = none → ∃ op r, c.thread l.thread = some (op, .ret r) ∧ last l.thread (some op) a') := by
  cases l with
  | call t op =>
    simp only [next, Label.thread] at h hidle ⊢
    cases hth : c.thread t with
    | some x => simp [hth] at h
    | none =>
      rw [hth] at h
      obtain ⟨s', hs', rfl⟩ := Option.map_eq_some_iff.mp h
      rw [← he] at hs'
      obtain ⟨a', rfl, hg, hw⟩ := hD.invoke t o op _ _ hi (hidle hth) hs'
      refine ⟨a', _, rfl, hw.inv, .inr hg, rfl, fun op' p' heq => ?_, fun heq => by cases heq⟩
      cases heq
      exact hw
  | step t b =>
    simp only [Label.thread] at hcov ⊢
    cases hth : c.thread t with
    | none => simp [next, hth] at h
    | some x =>
      obtain ⟨op, p⟩ := x
      obtain ⟨a', p', he', hg, hthread, hw⟩ := prog_step he (hcov op p hth) hth hok h
      refine ⟨a', _, he', hw.inv, hg, hthread, fun op' p' heq => ?_, fun heq => by cases heq⟩
      cases heq
      exact hw
  | ret t =>
    simp only [next, Label.thread] at h hcov ⊢
    cases hth : c.thread t with
    | none => simp [hth] at h
    | some x =>
      obtain ⟨op, p⟩ := x
      rw [hth] at h
      cases p with
      | act e k => simp at h
      | loop body st k => simp at h
      | ret r =>
        cases h
        obtain ⟨a', he', hi', hg, hid⟩ := hD.respond t op r _ hi (hcov op _ hth).step.2.2
        exact ⟨a', none, he'.trans (he ▸ rfl), hi', .inr hg, rfl, fun _ _ heq => (by cases heq),
          fun _ => ⟨op, r, rfl, hid⟩⟩

/-- The other threads see a step within the guarantee of the thread that moves. -/
theorem WP.other {u : Nat} {p : Prog E Ret} {Q : Ret → A → Prop} (h : D.WP u p Q a) (hu : u ≠ t)
    (hi : D.inv a') (hg : a' = a ∨ D.guar t a a') : D.WP u p Q a' := by
  rcases hg with rfl | hg
  · exact h
  · exact h.interfere hu.symm hi hg

theorem CoversIdle.other (hD : D.CoversIdle idle post) {u : Nat} (h : idle u a) (hu : u ≠ t)
    (hi : D.inv a) (hi' : D.inv a') (hg : a' = a ∨ D.guar t a a') : idle u a' := by
  rcases hg with rfl | hg
  · exact h
  · exact hD.stable u t hu.symm a a' hi hi' hg h

theorem good_next (hD : D.CoversIdle idle post) {l : Label Call} (hc : D.GoodAt post c a)
    (hidle : ∀ u, c.thread u = none → idle u a) (hok : Permits D.ok c l)
    (h : Y.next c l = some c') :
    ∃ a', D.GoodAt post c' a' ∧ (a' = a ∨ D.guar l.thread a a') ∧
      ∀ u, c'.thread u = none → idle u a' := by
  obtain ⟨a', v, he, hi, hg, hthread, hcov, hid⟩ :=
    own_step (o := none) hD.coversLast hc.erase hc.inv (hc.covered l.thread) (hidle l.thread) hok h
  refine ⟨a', ⟨he, hi, fun u op p hu => ?_⟩, hg, fun u hu => ?_⟩
  · rw [hthread] at hu
    by_cases hul : u = l.thread
    · subst hul
      exact hcov op p (by simpa using hu)
    · rw [setThread_other _ _ hul] at hu
      exact (hc.covered u op p hu).other hul hi hg
  · rw [hthread] at hu
    by_cases hul : u = l.thread
    · subst hul
      obtain ⟨-, -, -, hid⟩ := hid (by simpa using hu)
      exact hid
    · rw [setThread_other _ _ hul] at hu
      exact hD.other (hidle u hu) hul hc.inv hi hg

/-- Soundness: a covered system keeps every thread covered in every run of permitted actions. -/
theorem reach_idle (hD : D.CoversIdle idle post) (h₀ : D.inv a₀) (hidle : ∀ t, idle t a₀)
    (h : Y.Reach D.ok (D.erase a₀) c) :
    ∃ a, D.GoodAt post c a ∧ ∀ u, c.thread u = none → idle u a := by
  induction h with
  | start =>
    exact ⟨a₀, ⟨rfl, h₀, fun t op p ht => by simp [SharedObject.start] at ht⟩,
      fun u _ => hidle u⟩
  | step _ hok hnext ih =>
    obtain ⟨a, ha, hid⟩ := ih
    obtain ⟨a', ha', -, hid'⟩ := good_next hD ha hid hok hnext
    exact ⟨a', ha', hid'⟩

/-- In every run of a schedule each thread is covered, and what depends on its last call is known of
it. -/
theorem exec_last (hD : D.CoversLast last post)
    (hany : ∀ {β : Type} (t : Nat) (e : E β) (s : S), D.ok t e s) (h₀ : D.inv a₀)
    (hlast : ∀ t, last t none a₀) (ls : List (Label Call))
    (h : Y.exec (SharedObject.start (D.erase a₀)) ls = some c) :
    ∃ a, D.GoodAt post c a ∧ ∀ u, c.thread u = none → last u (Label.lastCall u ls) a := by
  induction ls using List.reverseRecOn generalizing c with
  | nil =>
    cases h
    exact ⟨a₀, ⟨rfl, h₀, fun t op p ht => by simp [SharedObject.start] at ht⟩,
      fun u _ => hlast u⟩
  | append_singleton ls l ih =>
    rw [exec_append] at h
    obtain ⟨c₁, hc₁, hnext⟩ := Option.bind_eq_some_iff.mp h
    rw [exec_cons] at hnext
    obtain ⟨c₂, hnext, heq⟩ := Option.bind_eq_some_iff.mp hnext
    cases heq
    obtain ⟨a, ha, hid⟩ := ih hc₁
    -- every action is permitted here
    have hpermits : Permits D.ok c₁ l := by
      cases l with
      | step t b =>
        simp only [Permits]
        split
        · exact hany _ _ _
        · trivial
      | call t op => trivial
      | ret t => trivial
    obtain ⟨a', v, he, hi, hg, hthread, hcov, hret⟩ :=
      own_step hD ha.erase ha.inv (ha.covered l.thread) (hid l.thread) hpermits hnext
    refine ⟨a', ⟨he, hi, fun u op p hu => ?_⟩, fun u hu => ?_⟩
    · rw [hthread] at hu
      by_cases hul : u = l.thread
      · subst hul
        exact hcov op p (by simpa using hu)
      · rw [setThread_other _ _ hul] at hu
        exact (ha.covered u op p hu).other hul hi hg
    · rw [Label.lastCall_append]
      by_cases hul : u = l.thread
      · subst hul
        obtain ⟨op, r, hth, hafter⟩ := hret (by simpa [hthread] using hu)
        -- the thread that moves has returned from its last call
        have hlastCall := Y.exec_lastCall ls hc₁ hth
        cases l with
        | call w cl => simp [next, Label.thread] at hnext hth; simp [hth] at hnext
        | step w b => rwa [hlastCall]
        | ret w => rwa [hlastCall]
      · rw [hthread, setThread_other _ _ hul] at hu
        -- the others keep what they knew
        have hkept : last u (Label.lastCall u ls) a' := by
          rcases hg with rfl | hg
          · exact hid u hu
          · exact hD.stable u _ l.thread (Ne.symm hul) a a' ha.inv hi hg (hid u hu)
        cases l with
        | call w cl =>
          have hwu : w ≠ u := fun h => hul h.symm
          simpa only [if_neg hwu] using hkept
        | step w b => exact hkept
        | ret w => exact hkept

theorem Covers.coversIdle (hD : D.Covers post) : D.CoversIdle (fun _ _ => True) post where
  stable _ := Stable.const
  invoke t c s s' hi _ := hD.invoke t c s s' hi
  respond t c r s hi hp := by
    obtain ⟨a, h1, h2, h3⟩ := hD.respond t c r s hi hp
    exact ⟨a, h1, h2, h3, trivial⟩

theorem reach_good (hD : D.Covers post) (h₀ : D.inv a₀) (h : Y.Reach D.ok (D.erase a₀) c) :
    ∃ a, D.GoodAt post c a := by
  obtain ⟨a, ha, -⟩ := reach_idle hD.coversIdle h₀ (fun _ => trivial) h
  exact ⟨a, ha⟩

theorem reach_inv (hD : D.Covers post) (h₀ : D.inv a₀) (h : Y.Reach D.ok (D.erase a₀) c) :
    ∃ a, D.erase a = c.shared ∧ D.inv a := by
  obtain ⟨a, ha⟩ := reach_good hD h₀ h
  exact ⟨a, ha.erase, ha.inv⟩

/-- What every step does to the state, the steps from one configuration of a run to a later one do,
if it composes. -/
theorem reach_later_inv (hD : D.Covers post) (h₀ : D.inv a₀) {R : A → A → Prop} (hrefl : ∀ a, R a a)
    (htrans : ∀ a a' a'', R a a' → R a' a'' → R a a'')
    (hguar : ∀ u a a', D.inv a → D.inv a' → D.guar u a a' → R a a')
    (hc : Y.Reach D.ok (D.erase a₀) c) (hlater : Y.Later D.ok c c') :
    ∃ a a', D.erase a = c.shared ∧ D.erase a' = c'.shared ∧ D.inv a ∧ D.inv a' ∧ R a a' := by
  obtain ⟨a, ha⟩ := reach_good hD h₀ hc
  have hgood : ∃ a', D.GoodAt post c' a' ∧ R a a' := by
    clear hc
    induction hlater with
    | refl => exact ⟨a, ha, hrefl a⟩
    | step _ hok hnext ih =>
      obtain ⟨a', ha', hR⟩ := ih
      obtain ⟨a'', ha'', hstep, -⟩ := good_next hD.coversIdle ha' (fun _ _ => trivial) hok hnext
      refine ⟨a'', ha'', ?_⟩
      rcases hstep with rfl | hg
      · exact hR
      · exact htrans _ _ _ hR (hguar _ _ _ ha'.inv ha''.inv hg)
  obtain ⟨a', ha', hR⟩ := hgood
  exact ⟨a, a', ha.erase, ha'.erase, ha.inv, ha'.inv, hR⟩

theorem reach_later (hD : D.Covers post) (h₀ : D.inv a₀) {R : A → A → Prop} (hrefl : ∀ a, R a a)
    (htrans : ∀ a a' a'', R a a' → R a' a'' → R a a'')
    (hguar : ∀ u a a', D.inv a → D.inv a' → D.guar u a a' → R a a')
    (hc : Y.Reach D.ok (D.erase a₀) c) (hlater : Y.Later D.ok c c') :
    ∃ a a', D.erase a = c.shared ∧ D.erase a' = c'.shared ∧ R a a' := by
  obtain ⟨a, a', ha, ha', -, -, hR⟩ := reach_later_inv hD h₀ hrefl htrans hguar hc hlater
  exact ⟨a, a', ha, ha', hR⟩

/-! ### Calls during which a condition holds -/

variable (D) in
/-- The same obligations, for a thread that may count on `P`. -/
def assuming (P : S → Prop) : Discipline Y A where
  erase := D.erase
  inv a := D.inv a ∧ P (D.erase a)
  guar := D.guar
  ok := D.ok

/-- A call of thread `t` during which `P` holds: the thread may count on `P`, all others are covered
as before. -/
theorem reach_during (hD : D.CoversIdle idle post) {P : S → Prop} {t : Nat} {op : Call}
    {Q : Ret → A → Prop}
    (hop : ∀ s s', D.inv s → idle t s → Y.invoke t op (D.erase s) = some s' → P s' →
      ∃ a, D.erase a = s' ∧ D.guar t s a ∧ (D.assuming P).WP t (Y.code op) Q a)
    (h₀ : D.inv a₀) (hidle : ∀ t, idle t a₀) (h : Y.During D.ok (D.erase a₀) P t op c) :
    ∃ a p, D.erase a = c.shared ∧ c.thread t = some (op, p) ∧ (D.assuming P).WP t p Q a ∧
      (∀ u, u ≠ t → ∀ op p, c.thread u = some (op, p) → D.WP u p (post u op) a) ∧
      ∀ u, u ≠ t → c.thread u = none → idle u a := by
  induction h with
  | @call c c' hc _ hnext hP =>
    obtain ⟨a, ha, hid⟩ := reach_idle hD h₀ hidle hc
    simp only [next] at hnext
    cases hth : c.thread t with
    | some x => simp [hth] at hnext
    | none =>
      rw [hth] at hnext
      obtain ⟨s', hs', rfl⟩ := Option.map_eq_some_iff.mp hnext
      rw [← ha.erase] at hs'
      obtain ⟨a', rfl, hg, hw⟩ := hop _ _ ha.inv (hid t hth) hs' hP
      refine ⟨a', _, rfl, setThread_same _ _ _, hw, fun u hu op' p' hp => ?_, fun u hu hp => ?_⟩
      · simp only [setThread_other _ _ hu] at hp
        exact (ha.covered u op' p' hp).other hu hw.inv.1 (.inr hg)
      · simp only [setThread_other _ _ hu] at hp
        exact hD.other (hid u hp) hu ha.inv hw.inv.1 (.inr hg)
  | @step c c' l _ hne hok hnext hP ih =>
    obtain ⟨a, p, he, hp, hw, hcov, hid⟩ := ih
    by_cases hlt : l.thread = t
    · -- a step of the call itself
      cases l with
      | call u o =>
        obtain rfl : u = t := hlt
        simp [next, hp] at hnext
      | ret u =>
        obtain rfl : u = t := hlt
        exact absurd rfl hne
      | step u b =>
        obtain rfl : u = t := hlt
        obtain ⟨a', p', he', hg, hthread, hw'⟩ :=
          prog_step (D := D.assuming P) he hw hp hok hnext
        refine ⟨a', p', he', by rw [hthread, setThread_same], hw', fun v hv o q hq => ?_,
          fun v hv hq => ?_⟩
        · rw [hthread, setThread_other _ _ hv] at hq
          exact (hcov v hv o q hq).other hv hw'.inv.1 hg
        · rw [hthread, setThread_other _ _ hv] at hq
          exact hD.other (hid v hv hq) hv hw.inv.1 hw'.inv.1 hg
    · -- a step of another thread
      obtain ⟨a', v, he', hi', hg, hthread, hown, hidl⟩ :=
        own_step (o := none) hD.coversLast he hw.inv.1 (hcov l.thread hlt) (hid l.thread hlt) hok hnext
      refine ⟨a', p, he', by rw [hthread, setThread_other _ _ (Ne.symm hlt), hp],
        hw.other (D := D.assuming P) (Ne.symm hlt) ⟨hi', he' ▸ hP⟩ hg, fun u hu o q hq => ?_,
        fun u hu hq => ?_⟩
      · rw [hthread] at hq
        by_cases hul : u = l.thread
        · subst hul
          exact hown o q (by simpa using hq)
        · rw [setThread_other _ _ hul] at hq
          exact (hcov u hu o q hq).other hul hi' hg
      · rw [hthread] at hq
        by_cases hul : u = l.thread
        · subst hul
          obtain ⟨-, -, -, hid'⟩ := hidl (by simpa using hq)
          exact hid'
        · rw [setThread_other _ _ hul] at hq
          exact hD.other (hid u hu hq) hul hw.inv.1 hi' hg

/-- What a call during which `P` holds returns. -/
theorem during_ret (hD : D.CoversIdle idle post) {P : S → Prop} {t : Nat} {op : Call}
    {Q : Ret → A → Prop}
    (hop : ∀ s s', D.inv s → idle t s → Y.invoke t op (D.erase s) = some s' → P s' →
      ∃ a, D.erase a = s' ∧ D.guar t s a ∧ (D.assuming P).WP t (Y.code op) Q a)
    (h₀ : D.inv a₀) (hidle : ∀ t, idle t a₀) (h : Y.During D.ok (D.erase a₀) P t op c) {r : Ret}
    (hr : c.thread t = some (op, .ret r)) :
    ∃ a, D.erase a = c.shared ∧ D.inv a ∧ P (D.erase a) ∧ Q r a := by
  obtain ⟨a, p, he, hp, hw, -⟩ := reach_during hD hop h₀ hidle h
  rw [hr] at hp
  cases hp
  exact ⟨a, he, hw.inv.1, hw.inv.2, hw.step.2.2⟩

end Soundness

end Discipline

end MpmcMap.Conc
