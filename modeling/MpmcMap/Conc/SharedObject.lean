import MpmcMap.Conc.Prog
import Mathlib.Data.List.Induction

/-!
# Interleaving semantics

Threads (numbered by `Nat`) call the operations of a shared object. Each call runs a program over
the object's atomic actions, and one step of the system is one thread calling an operation,
performing one action of its current call (or unrolling a loop once), or returning. An action may
be *disabled* in a state (waiting for a spin lock): it then has no step.

`SharedObject.exec` runs a schedule, so that concrete interleavings can be evaluated.
-/

namespace MpmcMap.Conc

/-- A shared object: its state, the meaning of its atomic actions and the program of each call. -/
structure SharedObject (E : Type → Type) (S Call Ret : Type) where
  /-- `action t b e s`: thread `t` performs `e` in `s`. The scheduler's `b` decides what the source
  leaves open, e.g. whether a weak compare-exchange fails spuriously. -/
  action : {β : Type} → Nat → Bool → E β → S → Option (β × S)
  /-- The code of a call. -/
  code : Call → Prog E Ret
  /-- The client's side: whether thread `t` may make this call, and what is recorded of it. -/
  invoke : Nat → Call → S → Option S
  /-- What is recorded when a call of thread `t` returns. -/
  respond : Nat → Call → Ret → S → S

/-- One scheduling decision. -/
inductive Label (Call : Type) where
  | call (t : Nat) (c : Call)
  | step (t : Nat) (b : Bool)
  | ret (t : Nat)

/-- The thread that moves. -/
def Label.thread {Call : Type} : Label Call → Nat
  | .call t _ => t
  | .step t _ => t
  | .ret t => t

/-- A call of thread `t` that takes `n` steps. -/
def Label.whole {Call : Type} (t : Nat) (cl : Call) (n : Nat) : List (Label Call) :=
  .call t cl :: List.replicate n (.step t false) ++ [.ret t]

/-- The call that thread `t` made last, from the one it had made last before. -/
def Label.record {Call : Type} (t : Nat) (o : Option Call) : Label Call → Option Call
  | .call u cl => if u = t then some cl else o
  | _ => o

/-- The call that thread `t` made last in a schedule. -/
def Label.lastCall {Call : Type} (t : Nat) (ls : List (Label Call)) : Option Call :=
  ls.foldl (record t) none

theorem Label.lastCall_append {Call : Type} (t : Nat) (ls : List (Label Call)) (l : Label Call) :
    lastCall t (ls ++ [l]) = match l with
      | .call u cl => if u = t then some cl else lastCall t ls
      | _ => lastCall t ls := by
  rw [lastCall, List.foldl_append]
  cases l <;> rfl

/-- The shared state and, for each thread inside a call, what is left of that call. -/
structure Config (E : Type → Type) (S Call Ret : Type) where
  shared : S
  thread : Nat → Option (Call × Prog E Ret)

/-- The call that thread `t` has come to the end of, with its answer. -/
def Config.answered {E : Type → Type} {S Call Ret : Type} (c : Config E S Call Ret) (t : Nat) :
    Option (Call × Ret) :=
  match c.thread t with
  | some (cl, .ret r) => some (cl, r)
  | _ => none

theorem Config.thread_of_answered {E : Type → Type} {S Call Ret : Type} {c : Config E S Call Ret}
    {t : Nat} {cl : Call} {r : Ret} (h : c.answered t = some (cl, r)) :
    c.thread t = some (cl, .ret r) := by
  unfold Config.answered at h
  split at h
  · next hthread =>
    cases h
    exact hthread
  · cases h

namespace SharedObject

variable {E : Type → Type} {S Call Ret : Type} (Y : SharedObject E S Call Ret)

/-- Replace the state of thread `t`. -/
def setThread (f : Nat → Option (Call × Prog E Ret)) (t : Nat) (v : Option (Call × Prog E Ret)) :
    Nat → Option (Call × Prog E Ret) :=
  fun u => if u = t then v else f u

@[simp] theorem setThread_same (f : Nat → Option (Call × Prog E Ret)) (t : Nat)
    (v : Option (Call × Prog E Ret)) : setThread f t v t = v := by simp [setThread]

theorem setThread_other (f : Nat → Option (Call × Prog E Ret)) {t u : Nat}
    (v : Option (Call × Prog E Ret)) (h : u ≠ t) : setThread f t v u = f u := by
  simp [setThread, h]

/-- One step of the program of a call. -/
def stepProg (t : Nat) (b : Bool) (p : Prog E Ret) (s : S) : Option (Prog E Ret × S) :=
  match p with
  | .ret _ => none
  | .act e k => (Y.action t b e s).map fun r => (k r.1, r.2)
  | .loop body st k => some (.unroll body st k, s)

/-- The configuration after a scheduling decision, if that decision is possible. -/
def next (c : Config E S Call Ret) : Label Call → Option (Config E S Call Ret)
  | .call t op =>
    match c.thread t with
    | some _ => none
    | none => (Y.invoke t op c.shared).map fun s =>
        { shared := s, thread := setThread c.thread t (some (op, Y.code op)) }
  | .step t b =>
    match c.thread t with
    | none => none
    | some (op, p) => (Y.stepProg t b p c.shared).map fun r =>
        { shared := r.2, thread := setThread c.thread t (some (op, r.1)) }
  | .ret t =>
    match c.thread t with
    | some (op, .ret a) => some
        { shared := Y.respond t op a c.shared, thread := setThread c.thread t none }
    | _ => none

/-- Nobody is inside a call. -/
def start (s : S) : Config E S Call Ret where
  shared := s
  thread := fun _ => none

/-- The action that a scheduling decision is about to perform meets the condition `ok`. -/
def Permits (ok : {β : Type} → Nat → E β → S → Prop) (c : Config E S Call Ret) :
    Label Call → Prop
  | .step t _ =>
    match c.thread t with
    | some (_, .act e _) => ok t e c.shared
    | _ => True
  | _ => True

/-- The configurations of the runs from `s₀` all of whose actions meet `ok`. -/
inductive Reach (ok : {β : Type} → Nat → E β → S → Prop) (s₀ : S) : Config E S Call Ret → Prop
  | start : Reach ok s₀ (start s₀)
  | step {c c' : Config E S Call Ret} {l : Label Call} :
      Reach ok s₀ c → Permits ok c l → Y.next c l = some c' → Reach ok s₀ c'

/-- The configurations that the runs of such actions lead to from `c`. -/
inductive Later (ok : {β : Type} → Nat → E β → S → Prop) (c : Config E S Call Ret) :
    Config E S Call Ret → Prop
  | refl : Later ok c c
  | step {c' c'' : Config E S Call Ret} {l : Label Call} :
      Later ok c c' → Permits ok c' l → Y.next c' l = some c'' → Later ok c c''

/-- No condition on the actions. -/
def anyAction : {β : Type} → Nat → E β → S → Prop := fun _ _ _ => True

/-- The configurations of all runs. -/
abbrev Reachable (s₀ : S) : Config E S Call Ret → Prop := Y.Reach anyAction s₀

theorem Permits.mono {ok ok' : {β : Type} → Nat → E β → S → Prop}
    (h : ∀ {β : Type} (t : Nat) (e : E β) (s : S), ok t e s → ok' t e s)
    {c : Config E S Call Ret} {l : Label Call} (hl : Permits ok c l) : Permits ok' c l := by
  cases l with
  | step t b =>
    simp only [Permits] at hl ⊢
    split
    · next heq =>
      rw [heq] at hl
      exact h _ _ _ hl
    · trivial
  | call t op => trivial
  | ret t => trivial

/-- The configurations of the runs from `s₀` in which thread `t` is inside a call of `op` and `P` has
held since just before that call. -/
inductive During (ok : {β : Type} → Nat → E β → S → Prop) (s₀ : S) (P : S → Prop) (t : Nat)
    (op : Call) : Config E S Call Ret → Prop
  | call {c c' : Config E S Call Ret} :
      Y.Reach ok s₀ c → P c.shared → Y.next c (.call t op) = some c' → P c'.shared →
      During ok s₀ P t op c'
  | step {c c' : Config E S Call Ret} {l : Label Call} :
      During ok s₀ P t op c → l ≠ .ret t → Permits ok c l → Y.next c l = some c' →
      P c'.shared → During ok s₀ P t op c'

variable {Y} in
/-- A weaker condition allows more runs. -/
theorem Reach.mono {ok ok' : {β : Type} → Nat → E β → S → Prop} {s₀ : S}
    {c : Config E S Call Ret} (hc : Y.Reach ok s₀ c)
    (h : ∀ {β : Type} (t : Nat) (e : E β) (s : S), ok t e s → ok' t e s) :
    Y.Reach ok' s₀ c := by
  induction hc with
  | start => exact .start
  | step _ hl hnext ih => exact .step ih (hl.mono h) hnext

variable {Y} in
/-- What holds in every state of the runs may be added to their condition. -/
theorem Reach.and {ok : {β : Type} → Nat → E β → S → Prop} {J : S → Prop} {s₀ : S}
    {c : Config E S Call Ret} (hJ : ∀ c, Y.Reach ok s₀ c → J c.shared) (hc : Y.Reach ok s₀ c) :
    Y.Reach (fun t e s => ok t e s ∧ J s) s₀ c := by
  induction hc with
  | start => exact .start
  | @step c c' l hc hl hnext ih =>
    refine .step ih ?_ hnext
    cases l with
    | step t b =>
      simp only [Permits] at hl ⊢
      split
      · next heq =>
        rw [heq] at hl
        exact ⟨hl, hJ c hc⟩
      · trivial
    | call t op => trivial
    | ret t => trivial

variable {Y} in
theorem During.mono {ok ok' : {β : Type} → Nat → E β → S → Prop} {s₀ : S} {P : S → Prop} {t : Nat}
    {op : Call} {c : Config E S Call Ret} (hc : Y.During ok s₀ P t op c)
    (h : ∀ {β : Type} (t : Nat) (e : E β) (s : S), ok t e s → ok' t e s) :
    Y.During ok' s₀ P t op c := by
  induction hc with
  | call hc hP hnext hP' => exact .call (hc.mono h) hP hnext hP'
  | step _ hne hl hnext hP ih => exact .step ih hne (hl.mono h) hnext hP

variable {Y} in
theorem During.reach {ok : {β : Type} → Nat → E β → S → Prop} {s₀ : S} {P : S → Prop} {t : Nat}
    {op : Call} {c : Config E S Call Ret} (hc : Y.During ok s₀ P t op c) : Y.Reach ok s₀ c := by
  induction hc with
  | call hc _ hnext _ => exact .step (l := .call t op) hc trivial hnext
  | step _ _ hl hnext _ ih => exact .step ih hl hnext

/-- `Permits` for a condition that is given by a test. -/
def permits (okb : {β : Type} → Nat → E β → S → Bool) (c : Config E S Call Ret) :
    Label Call → Bool
  | .step t _ =>
    match c.thread t with
    | some (_, .act e _) => okb t e c.shared
    | _ => true
  | _ => true

/-- Run a schedule, stopping at an action that fails the test. -/
def execIf (okb : {β : Type} → Nat → E β → S → Bool) (c : Config E S Call Ret) :
    List (Label Call) → Option (Config E S Call Ret)
  | [] => some c
  | l :: ls => if permits okb c l then (Y.next c l).bind fun c' => execIf okb c' ls else none

/-- Run a schedule. -/
abbrev exec (c : Config E S Call Ret) (ls : List (Label Call)) : Option (Config E S Call Ret) :=
  Y.execIf (fun _ _ _ => true) c ls

variable {okb : {β : Type} → Nat → E β → S → Bool} {ok : {β : Type} → Nat → E β → S → Prop}

theorem permits_sound (hok : ∀ {β : Type} (t : Nat) (e : E β) (s : S), okb t e s = true → ok t e s)
    {c : Config E S Call Ret} {l : Label Call} (h : permits okb c l = true) : Permits ok c l := by
  cases l with
  | step t b =>
    simp only [permits, Permits] at h ⊢
    split
    · next heq =>
      rw [heq] at h
      exact hok _ _ _ h
    · trivial
  | call t op => trivial
  | ret t => trivial

/-- Running a schedule whose actions pass the test reaches a configuration. -/
theorem reach_execIf
    (hok : ∀ {β : Type} (t : Nat) (e : E β) (s : S), okb t e s = true → ok t e s)
    {s₀ : S} {c c' : Config E S Call Ret} (ls : List (Label Call)) (hc : Y.Reach ok s₀ c)
    (h : Y.execIf okb c ls = some c') : Y.Reach ok s₀ c' := by
  induction ls generalizing c with
  | nil =>
    cases h
    exact hc
  | cons l ls ih =>
    simp only [execIf] at h
    split at h
    · next hl =>
      obtain ⟨d, hd, hrest⟩ := Option.bind_eq_some_iff.mp h
      exact ih (.step hc (permits_sound hok hl) hd) hrest
    · cases h

variable {Y} in
theorem Later.head {c c' c'' : Config E S Call Ret} {l : Label Call} (hl : Permits ok c l)
    (hnext : Y.next c l = some c') (h : Y.Later ok c' c'') : Y.Later ok c c'' := by
  induction h with
  | refl => exact .step .refl hl hnext
  | step _ hl' hnext' ih => exact .step ih hl' hnext'

theorem later_execIf
    (hok : ∀ {β : Type} (t : Nat) (e : E β) (s : S), okb t e s = true → ok t e s)
    {c c' : Config E S Call Ret} (ls : List (Label Call)) (h : Y.execIf okb c ls = some c') :
    Y.Later ok c c' := by
  induction ls generalizing c with
  | nil =>
    cases h
    exact .refl
  | cons l ls ih =>
    simp only [execIf] at h
    split at h
    · next hl =>
      obtain ⟨d, hd, hrest⟩ := Option.bind_eq_some_iff.mp h
      exact (ih hrest).head (permits_sound hok hl) hd
    · cases h

theorem permits_true (c : Config E S Call Ret) (l : Label Call) :
    permits (fun {β : Type} _ (_ : E β) (_ : S) => true) c l = true := by
  cases l with
  | step u b =>
    simp only [permits]
    split <;> rfl
  | call u o => rfl
  | ret u => rfl

theorem exec_cons (c : Config E S Call Ret) (l : Label Call) (ls : List (Label Call)) :
    Y.exec c (l :: ls) = (Y.next c l).bind fun d => Y.exec d ls := by
  simp only [exec, execIf, permits_true, if_true]

theorem exec_append (c : Config E S Call Ret) (ls ms : List (Label Call)) :
    Y.exec c (ls ++ ms) = (Y.exec c ls).bind fun d => Y.exec d ms := by
  induction ls generalizing c with
  | nil => rfl
  | cons l ls ih =>
    rw [List.cons_append, exec_cons, exec_cons, Option.bind_assoc]
    exact congrArg _ (funext ih)

/-- A step leaves the threads that do not move where they are. -/
theorem next_other {c c' : Config E S Call Ret} {l : Label Call} (h : Y.next c l = some c') {t : Nat}
    (ht : t ≠ l.thread) : c'.thread t = c.thread t := by
  cases l with
  | call u op =>
    simp only [next] at h
    split at h
    · cases h
    · obtain ⟨s, -, rfl⟩ := Option.map_eq_some_iff.mp h
      exact setThread_other _ _ ht
  | step u b =>
    simp only [next] at h
    split at h
    · cases h
    · obtain ⟨r, -, rfl⟩ := Option.map_eq_some_iff.mp h
      exact setThread_other _ _ ht
  | ret u =>
    simp only [next] at h
    split at h
    · cases h
      exact setThread_other _ _ ht
    · cases h

/-- A thread inside a call is inside the call that it made last. -/
theorem exec_lastCall {s₀ : S} {c : Config E S Call Ret} {t : Nat} {op : Call} {p : Prog E Ret}
    (ls : List (Label Call)) (h : Y.exec (start s₀) ls = some c) (hp : c.thread t = some (op, p)) :
    Label.lastCall t ls = some op := by
  -- induction on the schedule from its end: only the thread of the last label has to be looked at
  induction ls using List.reverseRecOn generalizing c p with
  | nil =>
    cases h
    cases hp
  | append_singleton ls l ih =>
    rw [exec_append] at h
    obtain ⟨c₁, hc₁, hnext⟩ := Option.bind_eq_some_iff.mp h
    rw [exec_cons] at hnext
    obtain ⟨c₂, hnext, heq⟩ := Option.bind_eq_some_iff.mp hnext
    cases heq
    rw [Label.lastCall_append]
    by_cases hlt : t = l.thread
    · subst hlt
      cases l with
      | call u cl =>
        simp only [next, Label.thread] at hnext hp
        split at hnext
        · cases hnext
        · obtain ⟨s, -, rfl⟩ := Option.map_eq_some_iff.mp hnext
          simp only [setThread_same] at hp
          cases hp
          simp only [Label.thread, if_true]
      | step u b =>
        simp only [next, Label.thread] at hnext hp
        split at hnext
        · cases hnext
        · next q hq =>
          obtain ⟨r, -, rfl⟩ := Option.map_eq_some_iff.mp hnext
          simp only [setThread_same] at hp
          cases hp
          exact ih hc₁ hq
      | ret u =>
        simp only [next, Label.thread] at hnext hp
        split at hnext
        · cases hnext
          simp only [setThread_same] at hp
          cases hp
        · cases hnext
    · rw [Y.next_other hnext hlt] at hp
      have hls := ih hc₁ hp
      cases l with
      | call u cl =>
        have hut : u ≠ t := fun h => hlt h.symm
        simp only [if_neg hut, hls]
      | step u b => exact hls
      | ret u => exact hls

/-- Run a schedule without a return of thread `t`, testing the states for `P`. -/
def execDuring (okb : {β : Type} → Nat → E β → S → Bool) (P : S → Bool) (t : Nat)
    (c : Config E S Call Ret) : List (Label Call) → Option (Config E S Call Ret)
  | [] => some c
  | .ret u :: ls => if u = t then none else
      (Y.next c (.ret u)).bind fun c' => if P c'.shared then execDuring okb P t c' ls else none
  | l :: ls => if permits okb c l then
      (Y.next c l).bind fun c' => if P c'.shared then execDuring okb P t c' ls else none
    else none

variable {Y} in
theorem During.holds {s₀ : S} {P : S → Prop} {t : Nat} {op : Call} {c : Config E S Call Ret}
    (hc : Y.During ok s₀ P t op c) : P c.shared := by
  cases hc with
  | call _ _ _ hP => exact hP
  | step _ _ _ _ hP => exact hP

/-- Running a schedule stays inside the call if the tests, of the actions and of the states, show
that `P` goes on holding. -/
theorem during_execDuring
    (hok : ∀ {β : Type} (t : Nat) (e : E β) (s : S), okb t e s = true → ok t e s)
    {s₀ : S} {P : S → Prop} {Pb : S → Bool}
    (hP : ∀ {c d : Config E S Call Ret} {l : Label Call}, P c.shared → permits okb c l = true →
      Y.next c l = some d → Pb d.shared = true → P d.shared)
    {t : Nat} {op : Call} {c c' : Config E S Call Ret} (ls : List (Label Call))
    (hc : Y.During ok s₀ P t op c) (h : Y.execDuring okb Pb t c ls = some c') :
    Y.During ok s₀ P t op c' := by
  induction ls generalizing c with
  | nil =>
    cases h
    exact hc
  | cons l ls ih =>
    -- any label but the return of the call itself
    have hstep : l ≠ .ret t → permits okb c l = true →
        ((Y.next c l).bind fun d => if Pb d.shared then Y.execDuring okb Pb t d ls else none) =
          some c' → Y.During ok s₀ P t op c' := by
      intro hne hl h
      obtain ⟨d, hd, hrest⟩ := Option.bind_eq_some_iff.mp h
      split at hrest
      · next hPd =>
        exact ih (.step hc hne (permits_sound hok hl) hd (hP hc.holds hl hd hPd)) hrest
      · cases hrest
    cases l with
    | ret u =>
      simp only [execDuring] at h
      split at h
      · cases h
      · next hut => exact hstep (by simp [hut]) rfl h
    | call u o =>
      simp only [execDuring, permits, if_true] at h
      exact hstep (by simp) rfl h
    | step u b =>
      simp only [execDuring] at h
      split at h
      · next hl => exact hstep (by simp) hl h
      · cases h

theorem execIf_other {c c' : Config E S Call Ret} {t : Nat} (ls : List (Label Call))
    (h : Y.execIf okb c ls = some c') (ht : t ∉ ls.map Label.thread) :
    c'.thread t = c.thread t := by
  induction ls generalizing c with
  | nil =>
    cases h
    rfl
  | cons l ls ih =>
    simp only [List.map_cons, List.mem_cons, not_or] at ht
    simp only [execIf] at h
    split at h
    · obtain ⟨d, hd, hrest⟩ := Option.bind_eq_some_iff.mp h
      rw [ih hrest ht.2, Y.next_other hd ht.1]
    · cases h

/-- Running a schedule reaches a configuration. -/
theorem reachable_exec {s₀ : S} {c : Config E S Call Ret} (ls : List (Label Call))
    (h : Y.exec (start s₀) ls = some c) : Y.Reachable s₀ c :=
  Y.reach_execIf (fun _ _ _ _ => trivial) ls .start h

end SharedObject

end MpmcMap.Conc
