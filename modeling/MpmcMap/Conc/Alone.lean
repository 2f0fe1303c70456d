import MpmcMap.Conc.SharedObject
import MpmcMap.Conc.Total

/-!
# A thread that runs alone

While only thread `t` moves, what happens is a run of its program alone. `SharedObject.alone`
counts how often the scheduler may still choose the failure of an action, so that a loop around an
action that may fail terminates. A total-correctness triple for it gives both that every schedule
which lets the call return ends as the triple says, and that there is one.
-/

namespace MpmcMap.Conc

variable {E : Type → Type} {S Call Ret : Type}

/-- A call of thread `t` with the scheduler's choices `bs`. -/
def Label.run (t : Nat) (cl : Call) (bs : List Bool) : List (Label Call) :=
  .call t cl :: (bs.map (.step t) ++ [.ret t])

theorem Label.lastCall_run (u t : Nat) (cl : Call) (bs : List Bool) (ls : List (Label Call)) :
    lastCall u (ls ++ Label.run t cl bs) = if t = u then some cl else lastCall u ls := by
  have hsteps : ∀ o : Option Call, (bs.map (Label.step t)).foldl (record u) o = o := by
    intro o
    induction bs with
    | nil => rfl
    | cons b bs ih => exact ih
  simp only [lastCall, Label.run, List.foldl_append, List.foldl_cons, hsteps, List.foldl_nil,
    record]

/-- Calls of thread `t`, one after the other, each with the scheduler's choices for it. -/
def Label.runs (t : Nat) (cls : List (Call × List Bool)) : List (Label Call) :=
  cls.flatMap fun cl => Label.run t cl.1 cl.2

namespace SharedObject

variable (Y : SharedObject E S Call Ret)

/-- After the schedule no thread is inside a call, and every other thread than `t` that has made
calls has made `leave` last. -/
def LastOne (leave : Call) (t : Nat) (ls : List (Label Call)) (c : Config E S Call Ret) : Prop :=
  (∀ u, c.thread u = none) ∧ ∀ u, u ≠ t → ∀ op, Label.lastCall u ls = some op → op = leave

/-- The actions of thread `t` while no other thread moves. Besides the state there is the number of
failures that the scheduler may still choose. -/
def alone (t : Nat) : Solo E (S × Nat) where
  pre e s := ∃ r, Y.action t false e s.1 = some r
  step e s r s' := ∃ b : Bool, Y.action t b e s.1 = some (r, s'.1) ∧ s'.2 + b.toNat = s.2

variable {Y} {t : Nat} {op : Call} {p : Prog E Ret} {Q : Ret → S → Prop} {s : S × Nat}
  {c c' : Config E S Call Ret}

/-- One action of the thread. -/
theorem alone_act {α β : Type} {X : Prog E α → S × Nat → Prop} {e : E β} {k : β → Prog E α} {s : S}
    {n : Nat} (hpre : ∃ r, Y.action t false e s = some r)
    (h : ∀ b r s' m, Y.action t b e s = some (r, s') → m + b.toNat = n →
      Until (Y.alone t) X (k r) (s', m)) :
    Until (Y.alone t) X (.act e k) (s, n) := by
  refine .act hpre fun r s' hstep => ?_
  obtain ⟨b, hact, hcount⟩ := hstep
  exact h b r s'.1 s'.2 hact hcount

/-! ## The steps of the call -/

theorem next_step (hp : c.thread t = some (op, p)) (b : Bool) :
    Y.next c (.step t b) = (Y.stepProg t b p c.shared).map fun r =>
      { shared := r.2, thread := setThread c.thread t (some (op, r.1)) } := by
  simp only [next, hp]

theorem setThread_setThread (f : Nat → Option (Call × Prog E Ret)) (t : Nat)
    (v w : Option (Call × Prog E Ret)) : setThread (setThread f t v) t w = setThread f t w := by
  funext u
  simp only [setThread]
  split <;> rfl

theorem next_ret (hp : c.thread t = some (op, p)) :
    Y.next c (.ret t) = some c' ↔ ∃ r, p = .ret r ∧
      c' = { shared := Y.respond t op r c.shared, thread := setThread c.thread t none } := by
  cases p with
  | ret r => simp [next, hp, eq_comm]
  | act e k => simp [next, hp]
  | loop body st k => simp [next, hp]

/-- Every schedule that lets the program return gives it a result as the triple says. -/
theorem exec_alone (h : Ends (Y.alone t) (fun r s => Q r s.1) p s) (bs : List Bool)
    (hbs : bs.count true ≤ s.2) (hs : c.shared = s.1) (hp : c.thread t = some (op, p))
    (hc : Y.exec c (bs.map (.step t) ++ [.ret t]) = some c') :
    ∃ r s', Q r s' ∧ c' = { shared := Y.respond t op r s', thread := setThread c.thread t none } := by
  induction h generalizing bs c with
  | stop h =>
    obtain ⟨r, rfl, hr⟩ := h
    cases bs with
    | nil =>
      rw [List.map_nil, List.nil_append, exec_cons] at hc
      obtain ⟨d, hd, hrest⟩ := Option.bind_eq_some_iff.mp hc
      cases hrest
      obtain ⟨r', heq, rfl⟩ := (next_ret hp).mp hd
      cases heq
      exact ⟨r, c.shared, hs ▸ hr, rfl⟩
    | cons b bs =>
      rw [List.map_cons, List.cons_append, exec_cons, next_step hp] at hc
      cases hc
  | @act β e k s hpre _ ih =>
    cases bs with
    | nil =>
      rw [List.map_nil, List.nil_append, exec_cons] at hc
      obtain ⟨d, hd, hrest⟩ := Option.bind_eq_some_iff.mp hc
      obtain ⟨r', heq, -⟩ := (next_ret hp).mp hd
      cases heq
    | cons b bs =>
      rw [List.map_cons, List.cons_append, exec_cons, next_step hp] at hc
      obtain ⟨d, hd, hrest⟩ := Option.bind_eq_some_iff.mp hc
      obtain ⟨⟨q, s'⟩, hq, rfl⟩ := Option.map_eq_some_iff.mp hd
      obtain ⟨⟨r, s''⟩, hact, heq⟩ := Option.map_eq_some_iff.mp hq
      cases heq
      rw [hs] at hact
      rw [List.count_cons] at hbs
      -- a failure uses up one of those that are left
      have hcount : bs.count true + b.toNat ≤ s.2 := by
        cases b <;> simpa using hbs
      obtain ⟨r', s', hr, rfl⟩ := ih r (s'', s.2 - b.toNat) ⟨b, hact, by simp only; omega⟩ bs
        (by simp only; omega) rfl (setThread_same _ _ _) hrest
      exact ⟨r', s', hr, by rw [setThread_setThread]⟩
  | @loop β σ body st k s _ ih =>
    cases bs with
    | nil =>
      rw [List.map_nil, List.nil_append, exec_cons] at hc
      obtain ⟨d, hd, hrest⟩ := Option.bind_eq_some_iff.mp hc
      obtain ⟨r', heq, -⟩ := (next_ret hp).mp hd
      cases heq
    | cons b bs =>
      rw [List.map_cons, List.cons_append, exec_cons, next_step hp] at hc
      obtain ⟨d, hd, hrest⟩ := Option.bind_eq_some_iff.mp hc
      obtain ⟨q, hq, rfl⟩ := Option.map_eq_some_iff.mp hd
      cases hq
      rw [List.count_cons] at hbs
      let d : Config E S Call Ret :=
        { shared := c.shared, thread := setThread c.thread t (some (op, .unroll body st k)) }
      obtain ⟨r', s', hr, rfl⟩ := ih (c := d) bs (by omega) hs (setThread_same _ _ _) hrest
      exact ⟨r', s', hr, by rw [setThread_setThread]⟩

/-- There is a schedule without failures that lets the program return. -/
theorem exists_exec_alone (h : Ends (Y.alone t) (fun r s => Q r s.1) p s) (hs : c.shared = s.1)
    (hp : c.thread t = some (op, p)) :
    ∃ n c', Y.exec c (List.replicate n (.step t false) ++ [.ret t]) = some c' := by
  induction h generalizing c with
  | stop h =>
    obtain ⟨r, rfl, -⟩ := h
    refine ⟨0, { shared := Y.respond t op r c.shared, thread := setThread c.thread t none }, ?_⟩
    rw [List.replicate_zero, List.nil_append, exec_cons, (next_ret hp).mpr ⟨r, rfl, rfl⟩]
    rfl
  | @act β e k s hpre _ ih =>
    obtain ⟨⟨r, s'⟩, hact⟩ := hpre
    let d : Config E S Call Ret :=
      { shared := s', thread := setThread c.thread t (some (op, k r)) }
    obtain ⟨n, c', hn⟩ := ih r (s', s.2) ⟨false, hact, rfl⟩ (c := d) rfl (setThread_same _ _ _)
    refine ⟨n + 1, c', ?_⟩
    have hd : Y.next c (.step t false) = some d := by
      rw [next_step hp, stepProg, hs, hact]
      rfl
    rw [List.replicate_succ, List.cons_append, exec_cons, hd]
    exact hn
  | @loop β σ body st k s _ ih =>
    let d : Config E S Call Ret :=
      { shared := c.shared, thread := setThread c.thread t (some (op, .unroll body st k)) }
    obtain ⟨n, c', hn⟩ := ih (c := d) hs (setThread_same _ _ _)
    refine ⟨n + 1, c', ?_⟩
    have hd : Y.next c (.step t false) = some d := by
      rw [next_step hp]
      rfl
    rw [List.replicate_succ, List.cons_append, exec_cons, hd]
    exact hn

/-- What a call of a thread that runs alone does, whatever the scheduler chooses, and that it
returns. -/
theorem exec_run {s' : S} (hidle : c.thread t = none) (hinv : Y.invoke t op c.shared = some s')
    (h : ∀ n, Ends (Y.alone t) (fun r s => Q r s.1) (Y.code op) (s', n)) :
    (∀ bs c', Y.exec c (Label.run t op bs) = some c' →
      ∃ r s'', Q r s'' ∧ c' = { shared := Y.respond t op r s'', thread := c.thread }) ∧
    ∃ n c', Y.exec c (Label.run t op (List.replicate n false)) = some c' := by
  let d : Config E S Call Ret :=
    { shared := s', thread := setThread c.thread t (some (op, Y.code op)) }
  have hd : Y.next c (.call t op) = some d := by
    simp only [next, hidle, hinv]
    rfl
  have hp : d.thread t = some (op, Y.code op) := setThread_same _ _ _
  constructor
  · intro bs c' hc
    rw [Label.run, exec_cons, hd] at hc
    obtain ⟨r, s'', hr, rfl⟩ := exec_alone (h (bs.count true)) bs (Nat.le_refl _) rfl hp hc
    refine ⟨r, s'', hr, ?_⟩
    congr 1
    funext u
    rw [setThread_setThread]
    simp only [setThread]
    split
    · next hu => rw [hu, hidle]
    · rfl
  · obtain ⟨n, c', hn⟩ := exists_exec_alone (h 0) rfl hp
    refine ⟨n, c', ?_⟩
    rw [Label.run, exec_cons, hd, List.map_replicate]
    exact hn

/-! ## Several calls -/

variable (Y) in
/-- Thread `t` making the calls `ops` alone leads from `A` to `B`, whatever the scheduler chooses,
and the calls can return. -/
def Performs (t : Nat) (ops : List Call) (A B : S → Prop) : Prop :=
  ∀ c : Config E S Call Ret, c.thread t = none → A c.shared →
    (∀ cls c', cls.map Prod.fst = ops → Y.exec c (Label.runs t cls) = some c' →
      c'.thread = c.thread ∧ B c'.shared) ∧
    ∃ cls c', cls.map Prod.fst = ops ∧ Y.exec c (Label.runs t cls) = some c'

variable {ops ops' : List Call} {A B C : S → Prop}

theorem Performs.nil (h : ∀ s, A s → B s) : Y.Performs t [] A B := by
  intro c _ hA
  constructor
  · intro cls c' hcls hc
    rw [List.map_eq_nil_iff] at hcls
    subst hcls
    cases hc
    exact ⟨rfl, h _ hA⟩
  · exact ⟨[], c, rfl, rfl⟩

theorem Performs.call (h : ∀ s, A s → ∃ s', Y.invoke t op s = some s' ∧
    ∀ n, Ends (Y.alone t) (fun r s => B (Y.respond t op r s.1)) (Y.code op) (s', n)) :
    Y.Performs t [op] A B := by
  intro c hidle hA
  obtain ⟨s', hinv, hends⟩ := h _ hA
  obtain ⟨hall, n, c', hn⟩ := exec_run (Q := fun r s => B (Y.respond t op r s)) hidle hinv hends
  have hone : ∀ bs, Label.runs t [(op, bs)] = Label.run t op bs := fun bs => List.append_nil _
  constructor
  · intro cls c' hcls hc
    obtain ⟨⟨cl, bs⟩, rfl, rfl⟩ := List.map_eq_singleton_iff.mp hcls
    rw [hone] at hc
    obtain ⟨r, s'', hr, rfl⟩ := hall bs c' hc
    exact ⟨rfl, hr⟩
  · exact ⟨[(op, List.replicate n false)], c', rfl, (hone _).symm ▸ hn⟩

theorem Performs.append (h : Y.Performs t ops A B) (h' : Y.Performs t ops' B C) :
    Y.Performs t (ops ++ ops') A C := by
  intro c hidle hA
  obtain ⟨hall, cls, d, hcls, hd⟩ := h c hidle hA
  constructor
  · intro cls c' hcls hc
    obtain ⟨xs, ys, rfl, hxs, hys⟩ := List.map_eq_append_iff.mp hcls
    rw [Label.runs, List.flatMap_append, exec_append] at hc
    obtain ⟨d, hd, hc⟩ := Option.bind_eq_some_iff.mp hc
    obtain ⟨hthread, hB⟩ := hall xs d hxs hd
    obtain ⟨hthread', hC⟩ := (h' d (hthread ▸ hidle) hB).1 ys c' hys hc
    exact ⟨hthread'.trans hthread, hC⟩
  · obtain ⟨hthread, hB⟩ := hall cls d hcls hd
    obtain ⟨-, cls', c', hcls', hc'⟩ := h' d (hthread ▸ hidle) hB
    refine ⟨cls ++ cls', c', ?_, ?_⟩
    · rw [List.map_append, hcls, hcls']
    · rw [Label.runs, List.flatMap_append, exec_append]
      exact Option.bind_eq_some_iff.mpr ⟨d, hd, hc'⟩

/-- The condition of `LastOne` concerns only the threads of the schedule. -/
theorem LastOne.of_lt {leave : Call} {s₀ : S} {ls : List (Label Call)}
    (hc : Y.exec (start s₀) ls = some c) (n : Nat)
    (hlt : (ls.map Label.thread).all (· < n) = true) (hidle : ∀ u < n, c.thread u = none)
    (hleft : ∀ u < n, u ≠ t → Label.lastCall u ls = none ∨ Label.lastCall u ls = some leave) :
    LastOne leave t ls c := by
  constructor
  · intro u
    by_cases hu : u ∈ ls.map Label.thread
    · exact hidle u (by simpa using List.all_eq_true.mp hlt u hu)
    · rw [Y.execIf_other ls hc hu]
      rfl
  · intro u hut op hop
    by_cases hu : u < n
    · rcases hleft u hu hut with h | h
      · rw [h] at hop
        cases hop
      · rw [h] at hop
        exact (Option.some.inj hop).symm
    -- a thread that the schedule does not name has made no call
    · have hnone : ∀ ms : List (Label Call), (∀ l ∈ ms, l.thread < n) →
          Label.lastCall u ms = none := by
        intro ms hms
        induction ms using List.reverseRecOn with
        | nil => rfl
        | append_singleton ms l ih =>
          rw [Label.lastCall_append]
          have hl := hms l (by simp)
          have hrest := ih fun m hm => hms m (by simp [hm])
          cases l with
          | call v cl =>
            have hvu : v ≠ u := by
              rintro rfl
              exact hu hl
            simpa only [if_neg hvu] using hrest
          | step v b => exact hrest
          | ret v => exact hrest
      rw [hnone ls fun l hl => ?_] at hop
      · cases hop
      · exact of_decide_eq_true (List.all_eq_true.mp hlt _ (List.mem_map_of_mem hl))

end SharedObject

end MpmcMap.Conc
