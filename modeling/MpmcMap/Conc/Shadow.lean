import MpmcMap.Conc.RelyGuarantee
import Mathlib.Data.Nat.Pairing

/-!
# Runs in the background

Where the programs of one object perform the actions of another and more of their own besides, each
run of the first is accompanied by a run of the second on the part of the state that both have.
Every call of the first object is followed by a call that a new thread of the second makes, and
that need not come to its end, so a call may also be followed by the beginning of another one.

`Shadow.reach` gives the run. Its premise is about programs: `follows_expand` reduces it, along the
structure of a program, to the actions.
-/

namespace MpmcMap.Conc

open SharedObject
open Function (update)

/-- `q` is what is left of `p` when the iterations that it begins with have been entered. -/
inductive Prog.Enters {E : Type → Type} {α : Type} : Prog E α → Prog E α → Prop
  | refl (p : Prog E α) : Enters p p
  | loop {β σ : Type} {body : σ → Prog E (σ ⊕ β)} {st : σ} {k : β → Prog E α} {q : Prog E α} :
      Enters (.unroll body st k) q → Enters (.loop body st k) q

theorem Prog.Enters.trans {E : Type → Type} {α : Type} {p q r : Prog E α} (h : p.Enters q)
    (h' : q.Enters r) : p.Enters r := by
  induction h with
  | refl p => exact h'
  | loop _ ih => exact .loop (ih h')

variable {E E' : Type → Type} {S S' Call Call' Ret Ret' : Type}

/-- A state, and the run in its background: thread `t` is followed by the thread
`Nat.pair t (rounds t)`. -/
structure Shadow (E' : Type → Type) (S S' Call' Ret' : Type) where
  st : S
  cfg : Config E' S' Call' Ret'
  rounds : Nat → Nat

namespace Shadow

variable (Y : SharedObject E S Call Ret) (X : SharedObject E' S' Call' Ret') (π : S → S')
  (okY : {β : Type} → Nat → E β → S → Prop) (okX : {β : Type} → Nat → E' β → S' → Prop) (x₀ : S')

/-- The thread that follows thread `t` has `q` to do. -/
def At (t : Nat) (q : Prog E' Ret') (a : Shadow E' S S' Call' Ret') : Prop :=
  ∃ cl p, a.cfg.thread (Nat.pair t (a.rounds t)) = some (cl, p) ∧ p.Enters q

/-- The run in the background has come to the same state. -/
structure Inv (a : Shadow E' S S' Call' Ret') : Prop where
  reach : X.Reach okX x₀ a.cfg
  shared : a.cfg.shared = π a.st
  fresh : ∀ t n, a.rounds t < n → a.cfg.thread (Nat.pair t n) = none

/-- What a step of thread `u` may change. -/
structure Guar (u : Nat) (a b : Shadow E' S S' Call' Ret') : Prop where
  rounds : ∀ t, t ≠ u → b.rounds t = a.rounds t
  thread : ∀ t, t ≠ u → ∀ n, b.cfg.thread (Nat.pair t n) = a.cfg.thread (Nat.pair t n)

/-- The proof obligations of the threads. -/
def shadowing : Discipline Y (Shadow E' S S' Call' Ret') where
  erase := st
  inv := Inv X π okX x₀
  guar := Guar
  ok := okY

variable {Y X π okY okX x₀} {t u : Nat} {a b : Shadow E' S S' Call' Ret'} {α β : Type}
  {q : Prog E' Ret'}

theorem Guar.refl (u : Nat) (a : Shadow E' S S' Call' Ret') : Guar u a a :=
  ⟨fun _ _ => rfl, fun _ _ _ => rfl⟩

theorem Guar.trans {c : Shadow E' S S' Call' Ret'} (h : Guar u a b) (h' : Guar u b c) :
    Guar u a c where
  rounds t ht := (h'.rounds t ht).trans (h.rounds t ht)
  thread t ht n := (h'.thread t ht n).trans (h.thread t ht n)

theorem stable_at : (shadowing Y X π okY okX x₀).Stable t (At t q) := by
  intro u hu a b _ _ hg h
  obtain ⟨cl, p, hthread, hq⟩ := h
  refine ⟨cl, p, ?_, hq⟩
  rw [hg.rounds t hu.symm, hg.thread t hu.symm]
  exact hthread

theorem At.enters {p : Prog E' Ret'} (h : At t p a) (hq : p.Enters q) : At t q a := by
  obtain ⟨cl, p', hthread, hp⟩ := h
  exact ⟨cl, p', hthread, hp.trans hq⟩

/-! ## Steps in the background -/

/-- A step of the thread that follows thread `t`. -/
theorem Inv.step (hi : Inv X π okX x₀ a) {l : Label Call'} {st : S} {c : Config E' S' Call' Ret'}
    (hl : l.thread = Nat.pair t (a.rounds t)) (hok : Permits okX a.cfg l)
    (hnext : X.next a.cfg l = some c) (hst : c.shared = π st) :
    Inv X π okX x₀ ⟨st, c, a.rounds⟩ ∧ Guar t a ⟨st, c, a.rounds⟩ := by
  have hother : ∀ v n, Nat.pair v n ≠ l.thread → c.thread (Nat.pair v n) =
      a.cfg.thread (Nat.pair v n) := fun v n hne => X.next_other hnext hne
  refine ⟨⟨.step hi.reach hok hnext, hst, fun v n hn => ?_⟩, fun _ _ => rfl, fun v hv n => ?_⟩
  · refine (hother v n fun heq => ?_).trans (hi.fresh v n hn)
    obtain ⟨rfl, rfl⟩ := Nat.pair_eq_pair.mp (heq.trans hl)
    exact Nat.lt_irrefl _ hn
  · refine hother v n fun heq => ?_
    exact hv (Nat.pair_eq_pair.mp (heq.trans hl)).1

/-- The thread that follows enters the iterations. -/
theorem Inv.enter {cl : Call'} {p : Prog E' Ret'} (hq : p.Enters q)
    (hi : Inv X π okX x₀ a) (h : a.cfg.thread (Nat.pair t (a.rounds t)) = some (cl, p)) :
    ∃ c : Config E' S' Call' Ret', Inv X π okX x₀ ⟨a.st, c, a.rounds⟩ ∧
      Guar t a ⟨a.st, c, a.rounds⟩ ∧ c.thread (Nat.pair t (a.rounds t)) = some (cl, q) := by
  induction hq generalizing a with
  | refl p => exact ⟨a.cfg, hi, .refl t a, h⟩
  | @loop _ _ body st k q _ ih =>
    have hnext : X.next a.cfg (.step (Nat.pair t (a.rounds t)) false) = some
        { a.cfg with
          thread := setThread a.cfg.thread (Nat.pair t (a.rounds t))
            (some (cl, .unroll body st k)) } := by
      simp only [next, h]
      rfl
    obtain ⟨hi', hg⟩ := hi.step rfl (by simp only [Permits, h]) hnext hi.shared
    obtain ⟨c, hi'', hg', hc⟩ := ih hi' (setThread_same _ _ _)
    exact ⟨c, hi'', hg.trans hg', hc⟩

/-- The thread that follows performs an action. -/
theorem Inv.act {e : E' β} {k : β → Prog E' Ret'} {w : Bool} {r : β} {st : S}
    (hi : Inv X π okX x₀ a) (h : At t (.act e k) a) (hok : ∀ v, okX v e (π a.st))
    (hact : ∀ v, X.action v w e (π a.st) = some (r, π st)) :
    ∃ b : Shadow E' S S' Call' Ret', b.st = st ∧ Inv X π okX x₀ b ∧ Guar t a b ∧ At t (k r) b := by
  obtain ⟨cl, p, hthread, hp⟩ := h
  obtain ⟨c, hi', hg, hc⟩ := hi.enter hp hthread
  have hshared : c.shared = π a.st := hi'.shared
  have hnext : X.next c (.step (Nat.pair t (a.rounds t)) w) = some
      ⟨π st, setThread c.thread (Nat.pair t (a.rounds t)) (some (cl, k r))⟩ := by
    simp only [next, hc, stepProg, hshared, hact, Option.map_some]
  have hperm : Permits okX c (.step (Nat.pair t (a.rounds t)) w) := by
    simp only [Permits, hc, hshared]
    exact hok _
  obtain ⟨hi'', hg'⟩ := hi'.step (t := t) rfl hperm hnext rfl
  exact ⟨_, rfl, hi'', hg.trans hg', cl, k r, setThread_same _ _ _, .refl _⟩

/-- A new thread makes a call. -/
theorem Inv.call {cl : Call'} {st : S} (hi : Inv X π okX x₀ a)
    (hinv : ∀ v, X.invoke v cl (π a.st) = some (π st)) :
    ∃ b : Shadow E' S S' Call' Ret', b.st = st ∧ Inv X π okX x₀ b ∧ Guar t a b ∧
      At t (X.code cl) b := by
  -- the state before, with thread `t` followed by a thread that has not moved yet
  let a' : Shadow E' S S' Call' Ret' := { a with rounds := update a.rounds t (a.rounds t + 1) }
  have hround : a'.rounds t = a.rounds t + 1 := Function.update_self _ _ _
  have hother : ∀ v, v ≠ t → a'.rounds v = a.rounds v := fun v hv => Function.update_of_ne hv _ _
  have hi' : Inv X π okX x₀ a' := by
    refine ⟨hi.reach, hi.shared, fun v n hn => hi.fresh v n ?_⟩
    by_cases hv : v = t
    · subst hv
      omega
    · rwa [hother v hv] at hn
  have hg : Guar t a a' := ⟨hother, fun _ _ _ => rfl⟩
  have hnone : a'.cfg.thread (Nat.pair t (a'.rounds t)) = none :=
    hi.fresh t _ (hround ▸ Nat.lt_succ_self _)
  have hnext : X.next a'.cfg (.call (Nat.pair t (a'.rounds t)) cl) = some
      ⟨π st, setThread a'.cfg.thread (Nat.pair t (a'.rounds t)) (some (cl, X.code cl))⟩ := by
    simp only [next, hnone, hi'.shared]
    exact congrArg (Option.map _) (hinv _)
  obtain ⟨hi'', hg'⟩ := hi'.step (t := t) (l := .call _ cl) rfl trivial hnext rfl
  exact ⟨_, rfl, hi'', hg.trans hg', cl, X.code cl, setThread_same _ _ _, .refl _⟩

/-! ## Programs that are followed -/

variable (Y X π okY okX x₀) in
/-- While thread `t` runs `p`, the thread that follows it runs `q`, up to what `q` goes on with. -/
def Follows (t : Nat) (p : Prog E α) (q : (α → Prog E' Ret') → Prog E' Ret') : Prop :=
  ∀ k a, Inv X π okX x₀ a → At t (q k) a →
    (shadowing Y X π okY okX x₀).WP t p (fun r a => At t (k r) a) a

/-- An action that is performed in the background too. -/
theorem follows_act {o : E β} {e : E' β}
    (ho : ∀ w s r s', okY t o s → Y.action t w o s = some (r, s') →
      ∀ v, okX v e (π s) ∧ X.action v w e (π s) = some (r, π s')) :
    Follows Y X π okY okX x₀ t (.perform o) (.act e) := by
  intro k a hi h
  refine Discipline.WP.act stable_at hi h fun s w r s' hi h hok hact => ?_
  obtain ⟨b, hb, hi', hg, hat⟩ := hi.act h (fun v => (ho w s.st r s' hok hact v).1)
    fun v => (ho w s.st r s' hok hact v).2
  exact ⟨b, hb, hi', hg, Discipline.WP.ret stable_at hi' hat⟩

/-- A program of actions that are not seen in the background. -/
theorem follows_own {good : {β : Type} → E β → Prop} {p : Prog E Unit} (hp : p.Uses good)
    (hgood : ∀ {β : Type} {o : E β}, good o → ∀ w s r s', Y.action t w o s = some (r, s') →
      π s' = π s) :
    Follows Y X π okY okX x₀ t p fun k => k () := by
  intro k a hi h
  have hkeeps : (shadowing Y X π okY okX x₀).Keeps t (At t (k ())) p := by
    refine .of_uses stable_at (fun ho s w r s' hi h _ hact => ?_) hp
    have hsame : π s' = π s.st := hgood ho w s.st r s' hact
    exact ⟨⟨s', s.cfg, s.rounds⟩, rfl, ⟨hi.reach, hi.shared.trans hsame.symm, hi.fresh⟩,
      ⟨fun _ _ => rfl, fun _ _ _ => rfl⟩, h⟩
  exact hkeeps a hi h

theorem Follows.bind {γ : Type} {p : Prog E α} {f : α → Prog E γ}
    {q : (α → Prog E' Ret') → Prog E' Ret'} {g : α → (γ → Prog E' Ret') → Prog E' Ret'}
    (hp : Follows Y X π okY okX x₀ t p q)
    (hf : ∀ r, Follows Y X π okY okX x₀ t (f r) (g r)) :
    Follows Y X π okY okX x₀ t (p.bind f) fun k => q fun r => g r k :=
  fun k a hi h => Discipline.WP.bind ((hp _ a hi h).mono fun r _ hi h => hf r k _ hi h)

/-- A program over other actions is followed if each of the actions is. -/
theorem follows_expand {F : Type → Type} {f : {β : Type} → F β → Prog E β}
    {g : {β : Type} → F β → Prog E' β}
    (hf : ∀ {β : Type} (e : F β), Follows Y X π okY okX x₀ t (f e) (g e).bind)
    (p : Prog F α) : Follows Y X π okY okX x₀ t (p.expand f) (p.expand g).bind := by
  induction p with
  | ret r => exact fun k a hi h => Discipline.WP.ret stable_at hi h
  | act e k ih =>
    intro k' a hi h
    rw [Prog.expand, Prog.bind_assoc] at h
    exact (hf e).bind ih k' a hi h
  | loop body st k hbody ih =>
    intro k' a hi h
    refine Discipline.WP.loop (I := fun st => At t (((Prog.loop body st k).expand g).bind k'))
      (fun _ => stable_at) hi h fun st a hi h => ?_
    have hin := h.enters (.loop (.refl _))
    refine (hbody st _ a hi hin).mono fun r a hi h => ?_
    cases r with
    | inl st => exact h
    | inr r => exact ih r k' a hi h

/-! ## Runs -/

variable (X π okX) in
/-- If every call is followed, the part of the state that both objects have is that of a run of the
object in the background. -/
theorem reach {s₀ : S} {c : Config E S Call Ret}
    (hcall : ∀ t cl s s', Y.invoke t cl s = some s' → ∃ cl',
      (∀ v, X.invoke v cl' (π s) = some (π s')) ∧ ∀ a, Inv X π okX (π s₀) a →
        At t (X.code cl') a →
        (shadowing Y X π okY okX (π s₀)).WP t (Y.code cl) (fun _ _ => True) a)
    (hret : ∀ t cl r s, π (Y.respond t cl r s) = π s) (hc : Y.Reach okY s₀ c) :
    ∃ d, X.Reach okX (π s₀) d ∧ d.shared = π c.shared := by
  have hcov : (shadowing Y X π okY okX (π s₀)).Covers fun _ _ _ _ => True := by
    constructor
    · intro t cl a s hi hinv
      obtain ⟨cl', hinv', hcode⟩ := hcall t cl a.st s hinv
      obtain ⟨b, hb, hi', hg, hat⟩ := hi.call (t := t) hinv'
      exact ⟨b, hb, hg, hcode b hi' hat⟩
    · intro t cl r a hi _
      exact ⟨{ a with st := Y.respond t cl r a.st }, rfl,
        ⟨hi.reach, hi.shared.trans (hret t cl r a.st).symm, hi.fresh⟩, fun _ _ => rfl,
        fun _ _ _ => rfl⟩
  let first : Shadow E' S S' Call' Ret' := ⟨s₀, start (π s₀), fun _ => 0⟩
  have hfirst : (shadowing Y X π okY okX (π s₀)).inv first := ⟨.start, rfl, fun _ _ _ => rfl⟩
  obtain ⟨a, ha, hi⟩ := Discipline.reach_inv hcov hfirst hc
  have hst : a.st = c.shared := ha
  exact ⟨a.cfg, hi.reach, hst ▸ hi.shared⟩

end Shadow

end MpmcMap.Conc
