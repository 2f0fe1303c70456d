import MpmcMap.Conc.RelyGuarantee
import Mathlib.Data.Set.Finite.Basic

/-!
# Linearizability

The state of a shared object stands for the value of an abstract one. A run is linearizable if every
call takes effect at one point between its invocation and its return, as a call of the abstract
object does that nobody interrupts, and answers what it answers there.

A call that changes nothing may learn what it answers only after the point at which that was true.
So a run is considered beside a record of the values that the object has had since the last call of
each thread, and of the changes that the steps of that call have made. `SharedObject.linearizable`
says what this record has to tell of a system so that all its runs are linearizable: each call makes
at most one change, and what it answers is true of that change or, if there was none, of one of
those values.
-/

namespace MpmcMap.Conc

open Function (update)

/-- What is recorded of the last call of each thread. -/
structure Moments (Call σ : Type) where
  call : Nat → Option Call
  /-- The values of the object since then. -/
  seen : Nat → Set σ
  /-- The changes that the thread has made since then. -/
  changes : Nat → List (σ × σ)

namespace Moments

variable {Call Ret σ : Type}

/-- No call has been made; the value of the object is `x`. -/
def init (x : σ) : Moments Call σ := ⟨fun _ => none, fun _ => {x}, fun _ => []⟩

/-- Thread `t` calls `op` when the value is `x`. -/
def enter (m : Moments Call σ) (t : Nat) (op : Call) (x : σ) : Moments Call σ :=
  ⟨update m.call t (some op), update m.seen t {x}, update m.changes t []⟩

open Classical in
/-- A step of thread `t` has turned the value `x` into `x'`. -/
noncomputable def step (m : Moments Call σ) (t : Nat) (x x' : σ) : Moments Call σ where
  call := m.call
  seen u := insert x' (m.seen u)
  changes := if x = x' then m.changes else update m.changes t (m.changes t ++ [(x, x')])

theorem step_same (m : Moments Call σ) (t : Nat) (x : σ) : (m.step t x x).changes = m.changes :=
  if_pos rfl

theorem step_changes (m : Moments Call σ) (t : Nat) {x x' : σ} (h : x ≠ x') :
    (m.step t x x').changes = update m.changes t (m.changes t ++ [(x, x')]) :=
  if_neg h

theorem step_other (m : Moments Call σ) {t u : Nat} (x x' : σ) (h : u ≠ t) :
    (m.step t x x').changes u = m.changes u := by
  by_cases hx : x = x'
  · subst hx
    rw [step_same]
  · rw [step_changes m t hx, Function.update_of_ne h]

/-- Nothing is new to a record that knows the value of the object. -/
theorem step_now {m : Moments Call σ} {t : Nat} {x : σ} (h : ∀ u, x ∈ m.seen u) :
    m.step t x x = m := by
  have hseen : (m.step t x x).seen = m.seen := funext fun u => Set.insert_eq_of_mem (h u)
  have hchanges := m.step_same t x
  cases m
  simp only [step] at hseen hchanges ⊢
  rw [hseen, hchanges]

/-- The call `op` of thread `t` may have answered `r`: this is what it answers at the change that it
has made, or at some value that it has seen. -/
def Accounts (Does : Call → σ → σ → Ret → Prop) (m : Moments Call σ) (t : Nat) (op : Call)
    (r : Ret) : Prop :=
  (m.changes t = [] ∧ ∃ x ∈ m.seen t, Does op x x r) ∨
    ∃ x x', m.changes t = [(x, x')] ∧ Does op x x' r

end Moments

namespace SharedObject

variable {E : Type → Type} {S Call Ret σ : Type} (Y : SharedObject E S Call Ret)

/-! ## Runs with their schedules -/

/-- The runs from `s₀` all of whose actions meet `ok`, with their schedules. -/
inductive Trace (ok : {β : Type} → Nat → E β → S → Prop) (s₀ : S) :
    List (Label Call) → Config E S Call Ret → Prop
  | start : Trace ok s₀ [] (start s₀)
  | step {ls : List (Label Call)} {c c' : Config E S Call Ret} {l : Label Call} :
      Trace ok s₀ ls c → Permits ok c l → Y.next c l = some c' → Trace ok s₀ (ls ++ [l]) c'

variable {Y} {ok : {β : Type} → Nat → E β → S → Prop} {s₀ : S} {ls : List (Label Call)}
  {c c' : Config E S Call Ret} {t : Nat} {op : Call}

theorem Trace.reach (h : Y.Trace ok s₀ ls c) : Y.Reach ok s₀ c := by
  induction h with
  | start => exact .start
  | step _ hl hnext ih => exact .step ih hl hnext

/-- Running a schedule whose actions pass the test makes a run. -/
theorem trace_execIf {okb : {β : Type} → Nat → E β → S → Bool}
    (hok : ∀ {β : Type} (t : Nat) (e : E β) (s : S), okb t e s = true → ok t e s)
    (ms : List (Label Call)) (hc : Y.Trace ok s₀ ls c) (h : Y.execIf okb c ms = some c') :
    Y.Trace ok s₀ (ls ++ ms) c' := by
  induction ms generalizing ls c with
  | nil =>
    cases h
    rwa [List.append_nil]
  | cons l ms ih =>
    simp only [execIf] at h
    split at h
    · next hl =>
      obtain ⟨d, hd, hrest⟩ := Option.bind_eq_some_iff.mp h
      rw [List.append_cons]
      exact ih (.step hc (permits_sound hok hl) hd) hrest
    · cases h

theorem Reach.trace (h : Y.Reach ok s₀ c) : ∃ ls, Y.Trace ok s₀ ls c := by
  induction h with
  | start => exact ⟨[], .start⟩
  | @step c c' l _ hl hnext ih =>
    obtain ⟨ls, hls⟩ := ih
    exact ⟨ls ++ [l], .step hls hl hnext⟩

theorem of_next_call (h : Y.next c (.call t op) = some c') : c.thread t = none ∧
    ∃ s, Y.invoke t op c.shared = some s ∧
      c' = ⟨s, setThread c.thread t (some (op, Y.code op))⟩ := by
  simp only [next] at h
  split at h
  · cases h
  · next hth =>
    obtain ⟨s, hs, rfl⟩ := Option.map_eq_some_iff.mp h
    exact ⟨hth, s, hs, rfl⟩

theorem of_next_step {b : Bool} (h : Y.next c (.step t b) = some c') :
    ∃ op p p', c.thread t = some (op, p) ∧ c'.thread = setThread c.thread t (some (op, p')) ∧
      (c'.shared = c.shared ∨ ∃ (β : Type) (e : E β) (r : β),
        Y.action t b e c.shared = some (r, c'.shared)) := by
  simp only [next] at h
  split at h
  · cases h
  · next op p hth =>
    obtain ⟨r, hr, rfl⟩ := Option.map_eq_some_iff.mp h
    refine ⟨op, p, r.1, hth, rfl, ?_⟩
    cases p with
    | ret a => cases hr
    | act e k =>
      obtain ⟨a, ha, rfl⟩ := Option.map_eq_some_iff.mp hr
      exact .inr ⟨_, e, a.1, ha⟩
    | loop body st k =>
      cases hr
      exact .inl rfl

theorem of_next_ret (h : Y.next c (.ret t) = some c') : ∃ op r, c.answered t = some (op, r) ∧
    c' = ⟨Y.respond t op r c.shared, setThread c.thread t none⟩ := by
  simp only [next] at h
  split at h
  · next op r hth =>
    cases h
    exact ⟨op, r, by simp [Config.answered, hth], rfl⟩
  · cases h

/-- Only finitely many threads are inside a call. -/
theorem Trace.finite (h : Y.Trace ok s₀ ls c) : {t | c.thread t ≠ none}.Finite := by
  induction h with
  | start => simp [SharedObject.start]
  | @step ls c c' l _ _ hnext ih =>
    refine (ih.insert l.thread).subset fun t ht => ?_
    by_cases hlt : t = l.thread
    · exact .inl hlt
    · have ht : c'.thread t ≠ none := ht
      rw [Y.next_other hnext hlt] at ht
      exact .inr ht

/-! ## Points at which calls take effect -/

variable (Y) in
/-- The runs of the schedules `ls` to `c` with points at which the calls take effect: `x` is the
value of the abstract object after these, and `done t` what the current call of thread `t` has
answered, if its point is past. -/
inductive Linearized (Does : Call → σ → σ → Ret → Prop) (s₀ : S) (x₀ : σ) :
    List (Label Call) → Config E S Call Ret → σ → (Nat → Option Ret) → Prop
  | start : Linearized Does s₀ x₀ [] (start s₀) x₀ fun _ => none
  | call {ls : List (Label Call)} {c c' : Config E S Call Ret} {x : σ} {done : Nat → Option Ret}
      {t : Nat} {op : Call} :
      Linearized Does s₀ x₀ ls c x done → Y.next c (.call t op) = some c' →
      Linearized Does s₀ x₀ (ls ++ [.call t op]) c' x done
  | step {ls : List (Label Call)} {c c' : Config E S Call Ret} {x : σ} {done : Nat → Option Ret}
      {t : Nat} {b : Bool} :
      Linearized Does s₀ x₀ ls c x done → Y.next c (.step t b) = some c' →
      Linearized Does s₀ x₀ (ls ++ [.step t b]) c' x done
  | point {ls : List (Label Call)} {c : Config E S Call Ret} {x x' : σ} {done : Nat → Option Ret}
      {t : Nat} {op : Call} {p : Prog E Ret} {r : Ret} :
      Linearized Does s₀ x₀ ls c x done → c.thread t = some (op, p) → done t = none →
      Does op x x' r → Linearized Does s₀ x₀ ls c x' (update done t (some r))
  | ret {ls : List (Label Call)} {c c' : Config E S Call Ret} {x : σ} {done : Nat → Option Ret}
      {t : Nat} {op : Call} {r : Ret} :
      Linearized Does s₀ x₀ ls c x done → c.answered t = some (op, r) → done t = some r →
      Y.next c (.ret t) = some c' →
      Linearized Does s₀ x₀ (ls ++ [.ret t]) c' x (update done t none)

variable {Does : Call → σ → σ → Ret → Prop} {x₀ x : σ} {done done' : Nat → Option Ret}

/-- Calls that change nothing take effect, one after another. -/
theorem Linearized.reads (h : Y.Linearized Does s₀ x₀ ls c x done) (F : Finset Nat)
    (hF : ∀ t ∈ F, done t = none ∧ ∃ op p r, c.thread t = some (op, p) ∧ done' t = some r ∧
      Does op x x r) (hrest : ∀ t ∉ F, done' t = done t) :
    Y.Linearized Does s₀ x₀ ls c x done' := by
  induction F using Finset.induction_on generalizing done' with
  | empty =>
    obtain rfl : done' = done := funext fun t => hrest t (Finset.notMem_empty t)
    exact h
  | @insert t F ht ih =>
    obtain ⟨hnone, op, p, r, hthread, hr, hdoes⟩ := hF t (Finset.mem_insert_self t F)
    have hbefore : Y.Linearized Does s₀ x₀ ls c x (update done' t none) := by
      apply ih
      · intro u hu
        have hut : u ≠ t := by
          rintro rfl
          exact ht hu
        rw [Function.update_of_ne hut]
        exact hF u (Finset.mem_insert_of_mem hu)
      · intro u hu
        by_cases hut : u = t
        · rw [hut, Function.update_self, hnone]
        · rw [Function.update_of_ne hut]
          exact hrest u fun hmem => (Finset.mem_insert.mp hmem).elim hut hu
    have hpoint := hbefore.point hthread (Function.update_self t none done') hdoes
    rwa [Function.update_idem, ← hr, Function.update_eq_self] at hpoint

/-- All that may take effect now takes effect. -/
theorem Linearized.catchUp (h : Y.Linearized Does s₀ x₀ ls c x done)
    (hfinite : {t | c.thread t ≠ none}.Finite)
    (hdone : ∀ t, done' t = done t ∨ done t = none ∧ ∃ op p r, c.thread t = some (op, p) ∧
      done' t = some r ∧ Does op x x r) :
    Y.Linearized Does s₀ x₀ ls c x done' := by
  classical
  refine h.reads (hfinite.toFinset.filter fun t => done' t ≠ done t) (fun t ht => ?_) fun t ht => ?_
  · exact (hdone t).resolve_left (Finset.mem_filter.mp ht).2
  · rcases hdone t with heq | ⟨-, op, p, r, hthread, -⟩
    · exact heq
    · by_contra hne
      exact ht (Finset.mem_filter.mpr ⟨hfinite.mem_toFinset.mpr (by simp [hthread]), hne⟩)

/-! ## Runs beside their record -/

variable (Y) in
/-- The object beside the record of its calls. -/
noncomputable def timed (obj : S → σ) : SharedObject E (S × Moments Call σ) Call Ret where
  action t b e s := (Y.action t b e s.1).map fun r => (r.1, r.2, s.2.step t (obj s.1) (obj r.2))
  code := Y.code
  invoke t op s := (Y.invoke t op s.1).map fun s' => (s', s.2.enter t op (obj s'))
  respond t op r s := (Y.respond t op r s.1, s.2)

/-- The record left out. -/
def untimed (c : Config E (S × Moments Call σ) Call Ret) : Config E S Call Ret :=
  ⟨c.shared.1, c.thread⟩

variable {obj : S → σ} {d d' : Config E (S × Moments Call σ) Call Ret} {l : Label Call}

theorem next_timed (h : Y.next (untimed d) l = some c') :
    ∃ d', (Y.timed obj).next d l = some d' ∧ untimed d' = c' := by
  cases l with
  | call t op =>
    simp only [next, untimed] at h ⊢
    cases hth : d.thread t with
    | some y => simp [hth] at h
    | none =>
      rw [hth] at h
      obtain ⟨s', hs', rfl⟩ := Option.map_eq_some_iff.mp h
      simp [timed, hs']
  | step t b =>
    simp only [next, untimed] at h ⊢
    cases hth : d.thread t with
    | none => simp [hth] at h
    | some y =>
      obtain ⟨op, p⟩ := y
      rw [hth] at h
      obtain ⟨r, hr, rfl⟩ := Option.map_eq_some_iff.mp h
      cases p with
      | ret a => cases hr
      | act e k =>
        obtain ⟨a, ha, rfl⟩ := Option.map_eq_some_iff.mp hr
        simp [stepProg, timed, ha]
      | loop body st k =>
        cases hr
        simp [stepProg]
  | ret t =>
    simp only [next, untimed] at h ⊢
    split at h
    · cases h
      simp [timed]
    · cases h

theorem next_untimed (h : (Y.timed obj).next d l = some d') :
    Y.next (untimed d) l = some (untimed d') := by
  cases l with
  | call t op =>
    simp only [next, untimed] at h ⊢
    split at h
    · cases h
    · obtain ⟨s', hs', rfl⟩ := Option.map_eq_some_iff.mp h
      obtain ⟨s, hs, rfl⟩ := Option.map_eq_some_iff.mp hs'
      simp [hs, timed]
  | step t b =>
    simp only [next, untimed] at h ⊢
    split at h
    · cases h
    · next op p hth =>
      obtain ⟨r, hr, rfl⟩ := Option.map_eq_some_iff.mp h
      cases p with
      | ret a => cases hr
      | act e k =>
        obtain ⟨a, ha, rfl⟩ := Option.map_eq_some_iff.mp hr
        obtain ⟨y, hy, rfl⟩ := Option.map_eq_some_iff.mp ha
        simp [stepProg, hy]
      | loop body st k =>
        cases hr
        simp [stepProg]
  | ret t =>
    simp only [next, untimed] at h ⊢
    split at h
    · next heq =>
      cases h
      simp [timed]
    · cases h

theorem permits_untimed :
    Permits (fun t e (s : S × Moments Call σ) => ok t e s.1) d l ↔ Permits ok (untimed d) l := by
  cases l <;> exact Iff.rfl

variable (obj) in
/-- Every run has a record. -/
theorem Trace.timed (h : Y.Trace ok s₀ ls c) :
    ∃ d, (Y.timed obj).Trace (fun t e s => ok t e s.1) (s₀, .init (obj s₀)) ls d ∧
      untimed d = c := by
  induction h with
  | start => exact ⟨_, .start, rfl⟩
  | step _ hl hnext ih =>
    obtain ⟨d, hd, rfl⟩ := ih
    obtain ⟨d', hd', rfl⟩ := next_timed hnext
    exact ⟨d', .step hd (permits_untimed.mpr hl) hd', rfl⟩

variable (obj) in
theorem Reach.timed (h : Y.Reach ok s₀ c) :
    ∃ d, (Y.timed obj).Reach (fun t e s => ok t e s.1) (s₀, .init (obj s₀)) d ∧ untimed d = c := by
  obtain ⟨ls, hls⟩ := h.trace
  obtain ⟨d, hd, heq⟩ := hls.timed obj
  exact ⟨d, hd.reach, heq⟩

/-! ## Linearizable systems -/

/-- What the record tells in a configuration: the value that the object has now has been seen, each
call has made at most one change, and what has been answered was true. -/
structure Accounted (Does : Call → σ → σ → Ret → Prop) (obj : S → σ)
    (d : Config E (S × Moments Call σ) Call Ret) : Prop where
  now : ∀ t, obj d.shared.1 ∈ d.shared.2.seen t
  pending : ∀ t op p, d.thread t = some (op, p) → d.shared.2.changes t = [] ∨
    ∃ x x' r, d.shared.2.changes t = [(x, x')] ∧ Does op x x' r
  answer : ∀ t op r, d.answered t = some (op, r) → d.shared.2.Accounts Does t op r

/-- What thread `t` may have answered, or not, inside its call. -/
def Fits (Does : Call → σ → σ → Ret → Prop) (m : Moments Call σ) (t : Nat) :
    Option Call → Option Ret → Prop
  | none, o => o = none
  | some _, none => m.changes t = []
  | some op, some r => m.Accounts Does t op r

/-- Every thread may have answered so. -/
def Compatible (Does : Call → σ → σ → Ret → Prop) (d : Config E (S × Moments Call σ) Call Ret)
    (done : Nat → Option Ret) : Prop :=
  ∀ t, Fits Does d.shared.2 t ((d.thread t).map Prod.fst) (done t)

/-- There are answers that all threads may have given. -/
theorem Accounted.compatible (h : Accounted Does obj d) : ∃ done, Compatible Does d done := by
  have hpoint : ∀ t, ∃ o, Fits Does d.shared.2 t ((d.thread t).map Prod.fst) o := by
    intro t
    cases hth : d.thread t with
    | none => exact ⟨none, rfl⟩
    | some y =>
      obtain ⟨op, p⟩ := y
      rcases h.pending t op p hth with hnone | ⟨x, x', r, hchange, hdoes⟩
      · exact ⟨none, hnone⟩
      · exact ⟨some r, .inr ⟨x, x', hchange, hdoes⟩⟩
  exact ⟨fun t => (hpoint t).choose, fun t => (hpoint t).choose_spec⟩

variable {m m' : Moments Call σ} {o : Option Call} {a : Option Ret}

theorem Fits.congr (h : Fits Does m t o a) (hseen : m'.seen t = m.seen t)
    (hchanges : m'.changes t = m.changes t) : Fits Does m' t o a := by
  cases o with
  | none => exact h
  | some op =>
    cases a with
    | none => exact hchanges.trans h
    | some r =>
      unfold Fits Moments.Accounts at h ⊢
      rwa [hseen, hchanges]

/-- Where a step of another thread has led to the value `x`, a call may have answered so before, or
it has changed nothing and what it has answered is true of `x`. -/
theorem Fits.before {u : Nat} {y : σ} (h : Fits Does (m.step t y x) u o a) (hu : u ≠ t) :
    Fits Does m u o a ∨
      Fits Does m u o none ∧ ∃ op r, o = some op ∧ a = some r ∧ Does op x x r := by
  have hchanges := m.step_other y x hu
  cases o with
  | none => exact .inl h
  | some op =>
    cases a with
    | none => exact .inl (hchanges.symm.trans h)
    | some r =>
      rcases h with ⟨hnone, z, hz, hdoes⟩ | ⟨z, z', hchange, hdoes⟩
      · have hempty : m.changes u = [] := hchanges.symm.trans hnone
        rcases hz with rfl | hz
        · exact .inr ⟨hempty, op, r, rfl, rfl, hdoes⟩
        · exact .inl (.inl ⟨hempty, z, hz, hdoes⟩)
      · exact .inl (.inr ⟨z, z', hchanges.symm.trans hchange, hdoes⟩)

/-- A thread that has just changed the value from `y` to `x` had changed nothing before, and has
answered what is true of this change. -/
theorem Fits.changed {y : σ} (h : Fits Does (m.step t y x) t (some op) a) (hne : y ≠ x)
    (hone : ∀ z ∈ (m.step t y x).changes t, (m.step t y x).changes t = [z]) :
    m.changes t = [] ∧ ∃ r, a = some r ∧ Does op y x r := by
  have hchanges : (m.step t y x).changes t = m.changes t ++ [(y, x)] := by
    rw [m.step_changes t hne, Function.update_self]
  have hsingle := hone (y, x) (by simp [hchanges])
  have hempty : m.changes t = [] := by
    rw [hchanges] at hsingle
    simpa using hsingle
  refine ⟨hempty, ?_⟩
  cases a with
  | none =>
    have h : (m.step t y x).changes t = [] := h
    rw [hsingle] at h
    cases h
  | some r =>
    rcases h with ⟨hnone, -⟩ | ⟨z, z', hchange, hdoes⟩
    · rw [hsingle] at hnone
      cases hnone
    · rw [hsingle] at hchange
      cases hchange
      exact ⟨r, rfl, hdoes⟩

/-! ### The points before and after a step -/

section Points

variable (ih : ∀ done, Compatible Does d done →
  Y.Linearized Does s₀ x₀ ls (untimed d) (obj d.shared.1) done)

include ih

/-- The call of thread `t` that begins has changed nothing. -/
theorem points_call (hnext : (Y.timed obj).next d (.call t op) = some d')
    (hobj : obj d'.shared.1 = obj d.shared.1) (hfinite : {u | d'.thread u ≠ none}.Finite)
    (hdone : Compatible Does d' done) :
    Y.Linearized Does s₀ x₀ (ls ++ [.call t op]) (untimed d') (obj d'.shared.1) done := by
  obtain ⟨hth, s', hs', rfl⟩ := of_next_call hnext
  obtain ⟨s, -, rfl⟩ := Option.map_eq_some_iff.mp hs'
  have hbefore : Compatible Does d (update done t none) := by
    intro u
    by_cases hut : u = t
    · rw [hut, Function.update_self, hth]
      rfl
    · have hfits := hdone u
      simp only [setThread_other _ _ hut] at hfits
      rw [Function.update_of_ne hut]
      exact hfits.congr (Function.update_of_ne hut _ _).symm (Function.update_of_ne hut _ _).symm
  rw [hobj]
  refine ((ih _ hbefore).call (next_untimed hnext)).catchUp hfinite fun u => ?_
  by_cases hut : u = t
  · subst hut
    have hfits := hdone u
    simp only [setThread_same, Option.map_some] at hfits
    cases hr : done u with
    | none => exact .inl (Function.update_self u none done).symm
    | some r =>
      rw [hr] at hfits
      refine .inr ⟨Function.update_self u none done, op, _, r, setThread_same _ _ _, rfl, ?_⟩
      -- a call that answers at once does so for the value of its beginning
      rcases hfits with ⟨-, x, hx, hdoes⟩ | ⟨x, x', hchange, -⟩
      · have hx : x ∈ update d.shared.2.seen u {obj s} u := hx
        rw [Function.update_self] at hx
        obtain rfl := Set.mem_singleton_iff.mp hx
        rw [← hobj]
        exact hdoes
      · have hchange : update d.shared.2.changes u [] u = [(x, x')] := hchange
        rw [Function.update_self] at hchange
        cases hchange
  · exact .inl (Function.update_of_ne hut _ _).symm

/-- What thread `t` returns, it has answered before. -/
theorem points_ret (hnext : (Y.timed obj).next d (.ret t) = some d')
    (hobj : obj d'.shared.1 = obj d.shared.1) (hacc : Accounted Does obj d)
    (hdone : Compatible Does d' done) :
    Y.Linearized Does s₀ x₀ (ls ++ [.ret t]) (untimed d') (obj d'.shared.1) done := by
  obtain ⟨op, r, hanswered, rfl⟩ := of_next_ret hnext
  have hth := Config.thread_of_answered hanswered
  have hnone : done t = none := by
    have hfits := hdone t
    simp only [setThread_same] at hfits
    exact hfits
  have hbefore : Compatible Does d (update done t (some r)) := by
    intro u
    by_cases hut : u = t
    · rw [hut, Function.update_self, hth]
      exact hacc.answer t op r hanswered
    · have hfits := hdone u
      simp only [setThread_other _ _ hut] at hfits
      rw [Function.update_of_ne hut]
      exact hfits
  have hret := (ih _ hbefore).ret hanswered (Function.update_self t (some r) done)
    (next_untimed hnext)
  rw [Function.update_idem, ← hnone, Function.update_eq_self] at hret
  rw [hobj]
  exact hret

/-- A step that changes the value is the point of its call; calls that have changed nothing may have
theirs right after it. -/
theorem points_change {b : Bool} (hnext : (Y.timed obj).next d (.step t b) = some d')
    (hm : d'.shared.2 = d.shared.2.step t (obj d.shared.1) (obj d'.shared.1))
    (hne : obj d.shared.1 ≠ obj d'.shared.1) (hacc : Accounted Does obj d')
    (hfinite : {u | d'.thread u ≠ none}.Finite) (hdone : Compatible Does d' done) :
    Y.Linearized Does s₀ x₀ (ls ++ [.step t b]) (untimed d') (obj d'.shared.1) done := by
  classical
  obtain ⟨op, p, p', hth, hthread, -⟩ := of_next_step hnext
  have hcalls : ∀ u, (d'.thread u).map Prod.fst = (d.thread u).map Prod.fst := by
    intro u
    rw [hthread]
    by_cases hut : u = t
    · rw [hut, setThread_same, hth]
      rfl
    · rw [setThread_other _ _ hut]
  have hfits : ∀ u, Fits Does (d.shared.2.step t (obj d.shared.1) (obj d'.shared.1)) u
      ((d.thread u).map Prod.fst) (done u) := by
    intro u
    rw [← hm, ← hcalls]
    exact hdone u
  have hth' : d'.thread t = some (op, p') := by rw [hthread, setThread_same]
  -- the thread that moves
  have hone : ∀ z ∈ d'.shared.2.changes t, d'.shared.2.changes t = [z] := by
    intro z hz
    rcases hacc.pending t op p' hth' with hnone | ⟨x, x', r, hchange, -⟩
    · rw [hnone] at hz
      cases hz
    · rw [hchange] at hz ⊢
      rw [List.mem_singleton.mp hz]
  have hown := hfits t
  rw [hth] at hown
  rw [hm] at hone
  obtain ⟨hempty, r, hr, hdoes⟩ := hown.changed hne hone
  -- the answers before the step
  let before (u : Nat) : Option Ret :=
    if u = t then none
    else if Fits Does d.shared.2 u ((d.thread u).map Prod.fst) (done u) then done u else none
  have hbefore : Compatible Does d before := by
    intro u
    by_cases hut : u = t
    · simp only [before, hut, hth]
      exact hempty
    · simp only [before, if_neg hut]
      split
      · assumption
      · next hnot => exact ((hfits u).before hut).resolve_left hnot |>.1
  have hpoint := ((ih _ hbefore).step (next_untimed hnext)).point hth' (if_pos rfl) hdoes
  refine hpoint.catchUp hfinite fun u => ?_
  by_cases hut : u = t
  · rw [hut, Function.update_self, hr]
    exact .inl rfl
  · rw [Function.update_of_ne hut]
    simp only [before, if_neg hut]
    split
    · exact .inl rfl
    · next hnot =>
      obtain ⟨-, op', r', hop', hr', hdoes'⟩ := ((hfits u).before hut).resolve_left hnot
      obtain ⟨⟨op'', q⟩, hq, rfl⟩ := Option.map_eq_some_iff.mp ((hcalls u).trans hop')
      exact .inr ⟨rfl, op'', q, r', hq, hr', hdoes'⟩

/-- A step that changes nothing is nobody's point. -/
theorem points_step {b : Bool} (hnext : (Y.timed obj).next d (.step t b) = some d')
    (hacc : Accounted Does obj d) (hacc' : Accounted Does obj d')
    (hfinite : {u | d'.thread u ≠ none}.Finite) (hdone : Compatible Does d' done) :
    Y.Linearized Does s₀ x₀ (ls ++ [.step t b]) (untimed d') (obj d'.shared.1) done := by
  obtain ⟨op, p, p', hth, hthread, hshared⟩ := of_next_step hnext
  have hm : d'.shared = d.shared ∨
      d'.shared.2 = d.shared.2.step t (obj d.shared.1) (obj d'.shared.1) := by
    refine hshared.imp_right ?_
    rintro ⟨β, e, r, hact⟩
    obtain ⟨a, -, ha⟩ := Option.map_eq_some_iff.mp hact
    simp only [Prod.mk.injEq] at ha
    rw [← ha.2]
  by_cases hne : obj d.shared.1 = obj d'.shared.1
  · have hsame : d'.shared.2 = d.shared.2 := by
      rcases hm with hm | hm
      · rw [hm]
      · rw [hm, ← hne, Moments.step_now hacc.now]
    have hbefore : Compatible Does d done := by
      intro u
      have hfits := hdone u
      rw [hsame, hthread] at hfits
      by_cases hut : u = t
      · rw [hut, setThread_same] at hfits
        rw [hut, hth]
        exact hfits
      · rwa [setThread_other _ _ hut] at hfits
    rw [← hne]
    exact (ih _ hbefore).step (next_untimed hnext)
  · have hm := hm.resolve_left fun h => hne (by rw [h])
    exact points_change ih hnext hm hne hacc' hfinite hdone

end Points

/-- A system is linearizable if its calls make at most one change each, and what they answer is true
of that change or of a value that the object has had during the call. -/
theorem linearizable (hacc : ∀ d, (Y.timed obj).Reach (fun t e s => ok t e s.1)
      (s₀, .init (obj s₀)) d → Accounted Does obj d)
    (hquiet : ∀ d d' l, (Y.timed obj).Reach (fun t e s => ok t e s.1) (s₀, .init (obj s₀)) d →
      (Y.timed obj).next d l = some d' → (∀ t b, l ≠ .step t b) →
      obj d'.shared.1 = obj d.shared.1) (h : Y.Trace ok s₀ ls c) :
    ∃ done, Y.Linearized Does s₀ (obj s₀) ls c (obj c.shared) done := by
  have hpoints : ∀ {ls d}, (Y.timed obj).Trace (fun t e s => ok t e s.1) (s₀, .init (obj s₀)) ls d →
      ∀ done, Compatible Does d done →
        Y.Linearized Does s₀ (obj s₀) ls (untimed d) (obj d.shared.1) done := by
    intro ls d hd
    induction hd with
    | start =>
      intro done hdone
      obtain rfl : done = fun _ => none := funext hdone
      exact .start
    | @step ls d d' l hd hl hnext ih =>
      intro done hdone
      have hd' := hd.step hl hnext
      cases l with
      | call t op =>
        exact points_call ih hnext (hquiet _ _ _ hd.reach hnext (by simp)) hd'.finite hdone
      | step t b =>
        exact points_step ih hnext (hacc _ hd.reach) (hacc _ hd'.reach) hd'.finite hdone
      | ret t =>
        exact points_ret ih hnext (hquiet _ _ _ hd.reach hnext (by simp)) (hacc _ hd.reach) hdone
  obtain ⟨d, hd, rfl⟩ := h.timed obj
  obtain ⟨done, hdone⟩ := (hacc d hd.reach).compatible
  exact ⟨done, hpoints hd done hdone⟩

/-- A thread inside a call is inside the call that is recorded of it. -/
theorem Reach.call_timed {ok : {β : Type} → Nat → E β → S × Moments Call σ → Prop}
    {s : S × Moments Call σ} {p : Prog E Ret} (h : (Y.timed obj).Reach ok s d)
    (hth : d.thread t = some (op, p)) : d.shared.2.call t = some op := by
  induction h generalizing t op p with
  | start => cases hth
  | @step d d' l _ _ hnext ih =>
    cases l with
    | call u op' =>
      obtain ⟨-, s', hs', rfl⟩ := of_next_call hnext
      obtain ⟨s, -, rfl⟩ := Option.map_eq_some_iff.mp hs'
      show update d.shared.2.call u (some op') t = some op
      by_cases htu : t = u
      · subst htu
        simp only [setThread_same] at hth
        cases hth
        exact Function.update_self _ _ _
      · simp only [setThread_other _ _ htu] at hth
        rw [Function.update_of_ne htu]
        exact ih hth
    | step u b =>
      obtain ⟨op', q, q', hq, hthread, hshared⟩ := of_next_step hnext
      -- a step records values, not calls
      have hcall : d'.shared.2.call = d.shared.2.call := by
        rcases hshared with hshared | ⟨β, e, r, hact⟩
        · rw [hshared]
        · obtain ⟨a, -, ha⟩ := Option.map_eq_some_iff.mp hact
          simp only [Prod.mk.injEq] at ha
          rw [← ha.2]
          rfl
      rw [hcall]
      rw [hthread] at hth
      by_cases htu : t = u
      · subst htu
        rw [setThread_same] at hth
        cases hth
        exact ih hq
      · rw [setThread_other _ _ htu] at hth
        exact ih hth
    | ret u =>
      obtain ⟨op', r, -, rfl⟩ := of_next_ret hnext
      have htu : t ≠ u := by
        rintro rfl
        simp only [setThread_same] at hth
        cases hth
      simp only [setThread_other _ _ htu] at hth
      exact ih hth

end SharedObject

namespace Discipline

open SharedObject

variable {E : Type → Type} {S Call Ret σ A : Type} {Y : SharedObject E S Call Ret} {obj : S → σ}
  {Does : Call → σ → σ → Ret → Prop} {D : Discipline (Y.timed obj) A} {a₀ : A}
  {idle : Nat → A → Prop} {post : Nat → Call → Ret → A → Prop}

/-- A system whose threads are covered beside the record of their calls is linearizable. -/
theorem linearizable
    (hD : D.CoversIdle idle post) (h₀ : D.inv a₀) (hidle : ∀ t, idle t a₀)
    (hpost : ∀ t op r a, D.inv a → post t op r a → (D.erase a).2.Accounts Does t op r)
    (hnow : ∀ a t, D.inv a → obj (D.erase a).1 ∈ (D.erase a).2.seen t)
    (hpending : ∀ a t op, D.inv a → (D.erase a).2.call t = some op → (D.erase a).2.changes t = [] ∨
      ∃ x x' r, (D.erase a).2.changes t = [(x, x')] ∧ Does op x x' r)
    (hinvoke : ∀ a t op s, D.inv a → Y.invoke t op (D.erase a).1 = some s →
      obj s = obj (D.erase a).1)
    (hrespond : ∀ a t op r, D.inv a → obj (Y.respond t op r (D.erase a).1) = obj (D.erase a).1)
    {ok : {β : Type} → Nat → E β → S → Prop} {s₀ : S}
    (hok : ∀ {β : Type} (t : Nat) (e : E β) (s : S × Moments Call σ), ok t e s.1 → D.ok t e s)
    (hs₀ : D.erase a₀ = (s₀, .init (obj s₀))) {ls : List (Label Call)} {c : Config E S Call Ret}
    (h : Y.Trace ok s₀ ls c) : ∃ done, Y.Linearized Does s₀ (obj s₀) ls c (obj c.shared) done := by
  -- every reachable configuration has its annotated state
  have hgood : ∀ d, (Y.timed obj).Reach (fun t e s => ok t e s.1) (s₀, .init (obj s₀)) d →
      ∃ a, D.GoodAt post d a := by
    intro d hd
    rw [← hs₀] at hd
    obtain ⟨a, ha, -⟩ := reach_idle hD h₀ hidle (hd.mono hok)
    exact ⟨a, ha⟩
  refine SharedObject.linearizable (fun d hd => ?_) (fun d d' l hd hnext hl => ?_) h
  · obtain ⟨a, ha⟩ := hgood d hd
    refine ⟨fun t => ?_, fun t op p hth => ?_, fun t op r hanswered => ?_⟩
    · rw [← ha.erase]
      exact hnow a t ha.inv
    · have hcall := hd.call_timed hth
      rw [← ha.erase] at hcall ⊢
      exact hpending a t op ha.inv hcall
    · rw [← ha.erase]
      exact hpost t op r a ha.inv (ha.covered t op _ (Config.thread_of_answered hanswered)).step.2.2
  · obtain ⟨a, ha⟩ := hgood d hd
    cases l with
    | call t op =>
      obtain ⟨-, s', hs', rfl⟩ := of_next_call hnext
      obtain ⟨s, hs, rfl⟩ := Option.map_eq_some_iff.mp hs'
      rw [← ha.erase] at hs ⊢
      exact hinvoke a t op s ha.inv hs
    | step t b => exact absurd rfl (hl t b)
    | ret t =>
      obtain ⟨op, r, -, rfl⟩ := of_next_ret hnext
      rw [← ha.erase]
      exact hrespond a t op r ha.inv

end Discipline

end MpmcMap.Conc
