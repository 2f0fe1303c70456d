import MpmcMap.Reclaim.EpochAccount

/-!
# The guards of the epoch reclaimer

Whatever the callers do, `active` counts for each epoch the threads that are inside a guard of it,
the epochs and the tags of orphans are below `EPOCHS`, and a thread inside a guard is counted in the
epoch that it remembers.
-/

namespace MpmcMap.Reclaim.Epoch.Account

open Conc

/-- The counts are right, and the epoch and the tags are in range. -/
structure Counted (s : State) : Prop where
  global_lt : s.global < EPOCHS
  active_eq : ∀ e, s.active e = (s.members e).card
  tag_lt : ∀ o r, s.orphans o = some r → r.tag < EPOCHS

/-- No thread touches another thread's state or membership. -/
structure Apart (u : Nat) (s s' : State) : Prop where
  tls : ∀ v, v ≠ u → s'.tls v = s.tls v
  phase : ∀ v, v ≠ u → s'.phase v = s.phase v
  members : ∀ v, v ≠ u → ∀ e, v ∈ s'.members e ↔ v ∈ s.members e

def guards : Discipline accounts State where
  erase := id
  inv := Counted
  guar := Apart
  ok := SharedObject.anyAction

/-- Thread `t` remembers epoch `l`, stands at `p` with respect to its guard, and is counted in the
epochs of `m`. -/
structure Stands (t l : Nat) (p : Phase) (m : Nat → Prop) (s : State) : Prop where
  localEpoch : (s.tls t).localEpoch = l
  phase : s.phase t = p
  members : ∀ e, t ∈ s.members e ↔ m e

variable {t l : Nat} {p : Phase} {m : Nat → Prop} {s s' : State} {α β : Type}

theorem Apart.refl (u : Nat) (s : State) : Apart u s s :=
  ⟨fun _ _ => rfl, fun _ _ => rfl, fun _ _ _ => Iff.rfl⟩

theorem stable_stands : guards.Stable t (Stands t l p m) := by
  intro u hu s s' _ _ hg h
  constructor
  · rw [hg.tls t hu.symm, h.localEpoch]
  · rw [hg.phase t hu.symm, h.phase]
  · intro e
    rw [hg.members t hu.symm e]
    exact h.members e

/-! ## Actions that leave the guard alone -/

/-- The actions of a thread that remembers epoch `l`, but for those that enter and leave it. -/
def Plain (l : Nat) {β : Type} : Op β → Prop
  | .incActive _ | .decActive _ => False
  | .casGlobal _ desired => desired < EPOCHS
  | .setTls ts => ts.localEpoch = l
  | .newOrphan o => o.tag < EPOCHS
  | _ => True

/-- What such an action may answer. -/
def Answers (l : Nat) {β : Type} : Op β → β → Prop
  | .getTls, ts => ts.localEpoch = l
  | _, _ => True

theorem orphan_upd {f : Nat → Option Orphan} {i : Nat} {v : Option Orphan}
    (hf : ∀ o r, f o = some r → r.tag < EPOCHS) (hv : ∀ r, v = some r → r.tag < EPOCHS) (o : Nat)
    (r : Orphan) (h : upd f i v o = some r) : r.tag < EPOCHS := by
  by_cases hoi : o = i
  · subst hoi
    rw [upd_same] at h
    exact hv r h
  · rw [upd_other _ _ hoi] at h
    exact hf o r h

/-- A plain action keeps the invariant and where the thread stands. -/
theorem action_plain {o : Op β} {b : Bool} {r : β} (ho : Plain l o) (hi : Counted s)
    (h : Stands t l p m s) (hact : action t b o s = some (r, s')) :
    Counted s' ∧ Apart t s s' ∧ Stands t l p m s' ∧ Answers l o r := by
  -- what the thread writes of its own leaves the epoch and the counts alone
  have hown : ∀ ts : ThreadState, ts.localEpoch = l → ∀ s' : State,
      s' = { s with tls := upd s.tls t ts, accepted := s'.accepted } →
      Counted s' ∧ Apart t s s' ∧ Stands t l p m s' := by
    intro ts hts s' hs'
    rw [hs']
    refine ⟨⟨hi.global_lt, hi.active_eq, hi.tag_lt⟩, ⟨fun v hv => upd_other _ _ hv,
      fun _ _ => rfl, fun _ _ _ => Iff.rfl⟩, ⟨?_, h.phase, h.members⟩⟩
    simp only [upd_same]
    exact hts
  have hsame : ∀ s' : State, s'.tls = s.tls → s'.phase = s.phase → s'.members = s.members →
      s'.active = s.active → s'.global < EPOCHS →
      (∀ o r, s'.orphans o = some r → r.tag < EPOCHS) →
      Counted s' ∧ Apart t s s' ∧ Stands t l p m s' := by
    intro s' htls hphase hmembers hactive hglobal htag
    refine ⟨⟨hglobal, ?_, htag⟩, ⟨?_, ?_, ?_⟩, ?_, ?_, ?_⟩
    · rw [hactive, hmembers]
      exact hi.active_eq
    · intro v _
      rw [htls]
    · intro v _
      rw [hphase]
    · intro v _ e
      rw [hmembers]
    · rw [htls, h.localEpoch]
    · rw [hphase, h.phase]
    · intro e
      rw [hmembers]
      exact h.members e
  have hquiet : ∀ s' : State, s'.tls = s.tls → s'.phase = s.phase → s'.members = s.members →
      s'.active = s.active → s'.global = s.global → s'.orphans = s.orphans →
      Counted s' ∧ Apart t s s' ∧ Stands t l p m s' := by
    intro s' htls hphase hmembers hactive hglobal horphans
    refine hsame s' htls hphase hmembers hactive ?_ ?_
    · rw [hglobal]
      exact hi.global_lt
    · rw [horphans]
      exact hi.tag_lt
  have hout : ∀ {C D A : Prop}, (C ∧ D ∧ A) → Answers l o r → C ∧ D ∧ A ∧ Answers l o r :=
    fun h ha => ⟨h.1, h.2.1, h.2.2, ha⟩
  cases o <;> simp only [Plain] at ho <;> simp only [action] at hact
  case casGlobal expected desired =>
    split at hact
    · cases hact
      exact hout (hsame _ rfl rfl rfl rfl ho hi.tag_lt) trivial
    · cases hact
      exact hout (hquiet _ rfl rfl rfl rfl rfl rfl) trivial
  case getTls =>
    cases hact
    exact hout (hquiet _ rfl rfl rfl rfl rfl rfl) h.localEpoch
  case setTls ts =>
    cases hact
    exact hout (hown ts ho _ rfl) trivial
  case pushRetired e x =>
    split at hact
    · cases hact
      exact hout (hquiet _ rfl rfl rfl rfl rfl rfl) trivial
    · cases hact
      exact hout (hown ((s.tls t).pushRetired e x) h.localEpoch _ rfl) trivial
  case pushAction e f =>
    split at hact
    · cases hact
      exact hout (hquiet _ rfl rfl rfl rfl rfl rfl) trivial
    · cases hact
      exact hout (hown ((s.tls t).pushAction e f) h.localEpoch _ rfl) trivial
  case casLate =>
    split at hact <;> cases hact <;> exact hout (hquiet _ rfl rfl rfl rfl rfl rfl) trivial
  case newOrphan q =>
    split at hact
    · cases hact
      refine hout (hsame _ rfl rfl rfl rfl hi.global_lt
        (orphan_upd hi.tag_lt fun q' hq => ?_)) trivial
      cases hq
      exact ho
    · cases hact
  case setOrphanNext i v =>
    cases hact
    refine hout (hsame _ rfl rfl rfl rfl hi.global_lt (orphan_upd hi.tag_lt fun q hq => ?_)) trivial
    obtain ⟨q', hq', rfl⟩ := Option.map_eq_some_iff.mp hq
    exact hi.tag_lt i q' hq'
  case deleteOrphan i =>
    cases hact
    refine hout (hsame _ rfl rfl rfl rfl hi.global_lt (orphan_upd hi.tag_lt fun q hq => ?_)) trivial
    cases hq
  all_goals
    cases hact
    exact hout (hquiet _ rfl rfl rfl rfl rfl rfl) trivial

/-! ## The calls -/

theorem keeps_ret (a : α) : guards.Keeps t (Stands t l p m) (.ret a : Code α) :=
  .ret stable_stands a

theorem keeps_act {o : Op β} {k : β → Code α} (ho : Plain l o)
    (hk : ∀ r, Answers l o r → guards.Keeps t (Stands t l p m) (k r)) :
    guards.Keeps t (Stands t l p m) (.act o k) := by
  refine Discipline.Keeps.act (R := Answers l o) stable_stands (fun s b r s' hi h _ hact => ?_) hk
  obtain ⟨hi', hg, h', ha⟩ := action_plain ho hi h hact
  exact ⟨s', rfl, hi', hg, h', ha⟩

theorem keeps_loop {σ : Type} {body : σ → Code (σ ⊕ β)} {k : β → Code α}
    (hbody : ∀ st, guards.Keeps t (Stands t l p m) (body st))
    (hk : ∀ b, guards.Keeps t (Stands t l p m) (k b)) (st : σ) :
    guards.Keeps t (Stands t l p m) (.loop body st k) := .loop stable_stands hbody hk st

theorem keeps_freeTagged (tag : Nat) : guards.Keeps t (Stands t l p m) (freeTagged tag) := by
  unfold freeTagged
  simp only [Prog.bind_eq, Prog.perform_bind, Prog.iterate_bind, Prog.pure_eq]
  refine keeps_act trivial fun ts hts => keeps_act hts fun _ _ => keeps_loop (fun i => ?_)
    (fun _ => ?_) _
  · split
    · exact keeps_act trivial fun _ _ => keeps_act trivial fun _ _ => keeps_ret _
    · exact keeps_ret _
  · exact keeps_act trivial fun ts hts => keeps_act hts fun _ _ => keeps_ret _

theorem keeps_pushLate (o : Nat) : guards.Keeps t (Stands t l p m) (pushLate o) := by
  unfold pushLate
  simp only [Prog.bind_eq, Prog.perform_bind, Prog.pure_eq]
  refine keeps_act trivial fun e _ => keeps_loop (fun e => ?_) (fun _ => keeps_ret _) _
  refine keeps_act trivial fun _ _ => keeps_act trivial fun r _ => ?_
  split <;> exact keeps_ret _

theorem keeps_pushAll (head : Option Nat) : guards.Keeps t (Stands t l p m) (pushAll head) := by
  refine keeps_loop (fun cur => ?_) keeps_ret _
  simp only [Prog.bind_eq, Prog.perform_bind, Prog.pure_eq]
  split
  · exact keeps_ret _
  · exact keeps_act trivial fun o _ => (keeps_pushLate _).bind fun _ => keeps_ret _

theorem keeps_drainLate (tag : Nat) : guards.Keeps t (Stands t l p m) (drainLate tag) := by
  unfold drainLate
  simp only [Prog.bind_eq, Prog.perform_bind, Prog.iterate_bind, Prog.pure_eq]
  refine keeps_act trivial fun head _ => keeps_loop (fun st => ?_) (fun kept => ?_) _
  · split
    · exact keeps_ret _
    · refine keeps_act trivial fun o _ => ?_
      split
      · exact keeps_act trivial fun _ _ => keeps_act trivial fun _ _ => keeps_act trivial fun _ _ =>
          keeps_ret _
      · split
        · exact keeps_ret _
        · exact keeps_act trivial fun _ _ => keeps_ret _
  · split
    · exact keeps_ret _
    · exact keeps_act trivial fun _ _ => keeps_pushAll _

theorem keeps_reclaim : guards.Keeps t (Stands t l p m) reclaim := by
  have hend : guards.Keeps t (Stands t l p m) (.act .getTls fun ts =>
      .act (.setTls { ts with retiredTotal :=
        (ts.retired 0).length + (ts.retired 1).length + (ts.retired 2).length }) .ret) :=
    keeps_act trivial fun ts hts => keeps_act hts fun _ _ => keeps_ret _
  unfold reclaim
  simp only [Prog.bind_eq, Prog.perform_bind]
  refine keeps_act trivial fun g _ => (keeps_freeTagged _).bind fun _ => ?_
  refine keeps_act trivial fun ts _ => ?_
  split
  · refine keeps_act trivial fun head _ => ?_
    split
    · refine (keeps_drainLate _).bind fun _ => ?_
      exact keeps_act trivial fun ts hts => keeps_act hts fun _ _ => hend
    · exact hend
  · exact hend

theorem keeps_retire (x : Ptr) (f : RetireAction) :
    guards.Keeps t (Stands t l p m) (retire x f) := by
  have hundo : ∀ e, guards.Keeps t (Stands t l p m) (.act .getTls fun ts =>
      if (ts.retiredActions e).length < (ts.retired e).length then
        .act (.setTls { ts with retired := upd ts.retired e (ts.retired e).dropLast }) fun _ =>
          .act .decOutstanding fun _ => .ret false
      else .act .decOutstanding fun _ => .ret false : Code Bool) := by
    intro e
    have hdec : guards.Keeps t (Stands t l p m)
        (.act .decOutstanding fun _ => .ret false : Code Bool) :=
      keeps_act trivial fun _ _ => keeps_ret _
    refine keeps_act trivial fun ts hts => ?_
    split
    · exact keeps_act hts fun _ _ => hdec
    · exact hdec
  unfold retire
  simp only [Prog.bind_eq, Prog.perform_bind, Prog.pure_eq]
  refine keeps_act trivial fun _ _ => keeps_act trivial fun ts _ => ?_
  refine keeps_act trivial fun pushed _ => ?_
  split
  · refine keeps_act trivial fun both _ => ?_
    split
    · refine keeps_act trivial fun ts hts => keeps_act hts fun _ _ => ?_
      split
      · exact keeps_reclaim.bind fun _ => keeps_ret _
      · exact keeps_ret _
    · exact hundo _
  · rw [Prog.ret_bind, if_neg Bool.false_ne_true]
    exact hundo _

theorem keeps_makeOrphans : guards.Keeps t (Stands t l p m) makeOrphans := by
  refine keeps_loop (fun st => ?_) keeps_ret _
  obtain ⟨e, i, head⟩ := st
  simp only [Prog.bind_eq, Prog.perform_bind, Prog.pure_eq]
  split
  · next he =>
    refine keeps_act trivial fun ts hts => ?_
    split
    · exact keeps_act he fun _ _ => keeps_ret _
    · exact keeps_act hts fun _ _ => keeps_ret _
  · exact keeps_ret _

theorem keeps_finalizeThread : guards.Keeps t (Stands t l p m) finalizeThread := by
  unfold finalizeThread
  simp only [Prog.bind_eq, Prog.perform_bind]
  refine keeps_reclaim.bind fun _ => keeps_makeOrphans.bind fun head => ?_
  exact keeps_act trivial fun ts hts => keeps_act hts fun _ _ => keeps_pushAll _

theorem keeps_drainAll : guards.Keeps t (Stands t l p m) drainAll := by
  unfold drainAll drainLateAll
  simp only [Prog.bind_eq, Prog.perform_bind, Prog.pure_eq]
  refine (keeps_freeTagged 0).bind fun _ => (keeps_freeTagged 1).bind fun _ =>
    (keeps_freeTagged 2).bind fun _ => ?_
  refine keeps_act trivial fun ts hts => keeps_act hts fun _ _ => ?_
  refine keeps_loop (fun _ => ?_) keeps_ret _
  refine keeps_act trivial fun head _ => ?_
  split
  · exact keeps_ret _
  · refine Discipline.Keeps.bind (keeps_loop (fun head => ?_) keeps_ret _) fun _ => keeps_ret _
    split
    · exact keeps_ret _
    · exact keeps_act trivial fun o _ => keeps_act trivial fun _ _ => keeps_act trivial fun _ _ =>
        keeps_act trivial fun _ _ => keeps_ret _

/-! ### The guard -/

/-- The thread is counted in no epoch. -/
def Nowhere : Nat → Prop := fun _ => False

/-- The thread is counted in the epoch that it remembers. -/
def Only (l : Nat) : Nat → Prop := fun e => e = l % EPOCHS

theorem wp_plain {o : Op β} {k : β → Code α} {Q : α → State → Prop} (ho : Plain l o)
    (hi : Counted s) (h : Stands t l p m s)
    (hk : ∀ r s, Answers l o r → Counted s → Stands t l p m s → guards.WP t (k r) Q s) :
    guards.WP t (.act o k) Q s := by
  refine Discipline.WP.act stable_stands hi h fun s b r s' hi h _ hact => ?_
  obtain ⟨hi', hg, h', ha⟩ := action_plain ho hi h hact
  exact ⟨s', rfl, hi', hg, hk r s' ha hi' h'⟩

theorem guards_enter (hi : Counted s) (h : Stands t l .entering Nowhere s) :
    guards.WP t enter (fun _ s => ∃ g, Stands t g .entering (Only g) s) s := by
  unfold enter
  simp only [Prog.bind_eq, Prog.perform_bind]
  refine wp_plain trivial hi h fun g s _ hi h => ?_
  refine Discipline.WP.act stable_stands hi h fun s b r s' hi h _ hact => ?_
  have hnot : t ∉ s.members (g % EPOCHS) := fun hm => (h.members _).mp hm
  cases hact
  have hmem : ∀ v e, v ∈ upd s.members (g % EPOCHS) (insert t (s.members (g % EPOCHS))) e ↔
      v ∈ s.members e ∨ v = t ∧ e = g % EPOCHS := by
    intro v e
    by_cases he : e = g % EPOCHS
    · rw [he, upd_same, Finset.mem_insert]
      simp [or_comm]
    · rw [upd_other _ _ he]
      simp [he]
  have hi' : Counted { s with
      active := upd s.active (g % EPOCHS) (s.active (g % EPOCHS) + 1)
      members := upd s.members (g % EPOCHS) (insert t (s.members (g % EPOCHS))) } := by
    refine ⟨hi.global_lt, fun e => ?_, hi.tag_lt⟩
    by_cases he : e = g % EPOCHS
    · rw [he]
      simp only [upd_same, Finset.card_insert_of_notMem hnot, hi.active_eq]
    · simp only [upd_other _ _ he, hi.active_eq]
  have hg : Apart t s { s with
      active := upd s.active (g % EPOCHS) (s.active (g % EPOCHS) + 1)
      members := upd s.members (g % EPOCHS) (insert t (s.members (g % EPOCHS))) } := by
    refine ⟨fun _ _ => rfl, fun _ _ => rfl, fun v hv e => ?_⟩
    rw [hmem v e]
    simp [hv]
  have h' : Stands t l .entering (Only g) { s with
      active := upd s.active (g % EPOCHS) (s.active (g % EPOCHS) + 1)
      members := upd s.members (g % EPOCHS) (insert t (s.members (g % EPOCHS))) } := by
    refine ⟨h.localEpoch, h.phase, fun e => ?_⟩
    rw [hmem t e, h.members e]
    simp [Nowhere, Only]
  refine ⟨_, rfl, hi', hg, wp_plain trivial hi' h' fun ts s _ hi h => ?_⟩
  -- the thread remembers the epoch that it has joined
  refine Discipline.WP.act stable_stands hi h fun s b r s' hi h _ hact => ?_
  cases hact
  have hi₂ : Counted { s with tls := upd s.tls t { ts with localEpoch := g } } :=
    ⟨hi.global_lt, hi.active_eq, hi.tag_lt⟩
  refine ⟨_, rfl, hi₂, ⟨fun v hv => upd_other _ _ hv, fun _ _ => rfl, fun _ _ _ => Iff.rfl⟩,
    Discipline.WP.ret (.exist fun _ => stable_stands) hi₂ ⟨g, ?_, h.phase, h.members⟩⟩
  simp only [upd_same]

theorem guards_exit (hi : Counted s) (h : Stands t l .exiting (Only l) s) :
    guards.WP t exit (fun _ s => Stands t l .exiting Nowhere s) s := by
  have hret : ∀ s, Counted s → Stands t l .exiting Nowhere s →
      guards.WP t (.ret () : Code Unit) (fun _ s => Stands t l .exiting Nowhere s) s :=
    fun s hi h => Discipline.WP.ret stable_stands hi h
  unfold exit
  simp only [Prog.bind_eq, Prog.perform_bind, Prog.pure_eq]
  refine wp_plain trivial hi h fun ts s hts hi h => ?_
  obtain rfl : ts.localEpoch = l := hts
  refine Discipline.WP.act stable_stands hi h fun s b old s' hi h _ hact => ?_
  have hin : t ∈ s.members (ts.localEpoch % EPOCHS) := (h.members _).mpr rfl
  cases hact
  -- the decrement takes the thread out of the bucket in which it is counted, and no other thread
  have hmem : ∀ v e, v ∈ upd s.members (ts.localEpoch % EPOCHS)
      ((s.members (ts.localEpoch % EPOCHS)).erase t) e ↔
      v ∈ s.members e ∧ ¬(v = t ∧ e = ts.localEpoch % EPOCHS) := by
    intro v e
    by_cases he : e = ts.localEpoch % EPOCHS
    · rw [he, upd_same, Finset.mem_erase]
      simp [and_comm]
    · rw [upd_other _ _ he]
      simp [he]
  have hi' : Counted { s with
      active := upd s.active (ts.localEpoch % EPOCHS) (s.active (ts.localEpoch % EPOCHS) - 1)
      members := upd s.members (ts.localEpoch % EPOCHS)
        ((s.members (ts.localEpoch % EPOCHS)).erase t) } := by
    refine ⟨hi.global_lt, fun e => ?_, hi.tag_lt⟩
    by_cases he : e = ts.localEpoch % EPOCHS
    · rw [he]
      simp only [upd_same, Finset.card_erase_of_mem hin, hi.active_eq]
    · simp only [upd_other _ _ he, hi.active_eq]
  have hg : Apart t s { s with
      active := upd s.active (ts.localEpoch % EPOCHS) (s.active (ts.localEpoch % EPOCHS) - 1)
      members := upd s.members (ts.localEpoch % EPOCHS)
        ((s.members (ts.localEpoch % EPOCHS)).erase t) } := by
    refine ⟨fun _ _ => rfl, fun _ _ => rfl, fun v hv e => ?_⟩
    rw [hmem v e]
    simp [hv]
  have h' : Stands t ts.localEpoch .exiting Nowhere { s with
      active := upd s.active (ts.localEpoch % EPOCHS) (s.active (ts.localEpoch % EPOCHS) - 1)
      members := upd s.members (ts.localEpoch % EPOCHS)
        ((s.members (ts.localEpoch % EPOCHS)).erase t) } := by
    refine ⟨h.localEpoch, h.phase, fun e => ?_⟩
    rw [hmem t e, h.members e]
    simp [Nowhere, Only]
  refine ⟨_, rfl, hi', hg, ?_⟩
  split
  · refine wp_plain trivial hi' h' fun g s _ hi h => ?_
    split
    · exact wp_plain (Nat.mod_lt _ (by decide)) hi h fun _ s _ hi h => hret s hi h
    · exact hret s hi h
  · exact hret _ hi' h'

/-! ## Every run -/

/-- A thread between two calls is outside its guard, or inside and counted in its epoch. -/
def Between (t : Nat) (s : State) : Prop :=
  (∃ l, Stands t l .outside Nowhere s) ∨ ∃ l, Stands t l .inside (Only l) s

/-- What a call of thread `t` leaves for the bookkeeping of its return. -/
def leaving (t : Nat) (c : Call) (_ : Bool) (s : State) : Prop :=
  match c with
  | .enter => ∃ g, Stands t g .entering (Only g) s
  | .exit => ∃ l, Stands t l .exiting Nowhere s
  | _ => Between t s

theorem stable_between : guards.Stable t (Between t) :=
  (Discipline.Stable.exist fun _ => stable_stands).or (.exist fun _ => stable_stands)

/-- A thread that has moved to another phase. -/
theorem Stands.setPhase (h : Stands t l p m s) (q : Phase) :
    Stands t l q m { s with phase := upd s.phase t q } :=
  ⟨h.localEpoch, upd_same _ _ _, h.members⟩

theorem Counted.setPhase (hi : Counted s) (q : Phase) :
    Counted { s with phase := upd s.phase t q } := ⟨hi.global_lt, hi.active_eq, hi.tag_lt⟩

theorem apart_setPhase (q : Phase) : Apart t s { s with phase := upd s.phase t q } :=
  ⟨fun _ _ => rfl, fun _ hv => upd_other _ _ hv, fun _ _ _ => Iff.rfl⟩

/-- A call that keeps where the thread stands. -/
theorem Between.keeps {c : Code α} (hi : Counted s) (h : Between t s)
    (hc : ∀ l p m, guards.Keeps t (Stands t l p m) c) :
    guards.WP t c (fun _ s => Between t s) s := by
  rcases h with ⟨l, h⟩ | ⟨l, h⟩
  · exact (hc l _ _ s hi h).mono fun _ _ _ h => .inl ⟨l, h⟩
  · exact (hc l _ _ s hi h).mono fun _ _ _ h => .inr ⟨l, h⟩

theorem covers_guards : guards.CoversIdle Between leaving where
  stable _ := stable_between
  invoke t c s s' hi h hinv := by
    have hret : ∀ {c : Code Unit} {Q : State → Prop} {s}, guards.Stable t Q →
        guards.WP t c (fun _ s => Q s) s →
        guards.WP t (c.bind fun _ => .ret true) (fun _ s => Q s) s :=
      fun hQ hw => Discipline.WP.bind (hw.mono fun _ _ hi h => Discipline.WP.ret hQ hi h)
    have hsame : ∀ c : Code Unit, (∀ l p m, guards.Keeps t (Stands t l p m) c) → s' = s →
        ∃ a, a = s' ∧ Apart t s a ∧
          guards.WP t (c.bind fun _ => .ret true) (fun _ s => Between t s) a := by
      intro c hc hs
      exact ⟨s, hs.symm, .refl t s, hret stable_between (h.keeps hi hc)⟩
    cases c with
    | enter =>
      simp only [accounts, invoke] at hinv
      split at hinv
      · next hout =>
        cases hinv
        -- only a thread outside its guard may enter
        rcases h with ⟨l, h⟩ | ⟨l, h⟩
        · refine ⟨_, rfl, apart_setPhase .entering, ?_⟩
          exact hret (.exist fun _ => stable_stands)
            (guards_enter (hi.setPhase .entering) (h.setPhase .entering))
        · have hout : s.phase t = .outside := hout
          rw [h.phase] at hout
          cases hout
      · cases hinv
    | exit =>
      simp only [accounts, invoke] at hinv
      split at hinv
      · next hin =>
        cases hinv
        rcases h with ⟨l, h⟩ | ⟨l, h⟩
        -- only a thread inside its guard may exit
        · have hin : s.phase t = .inside := hin
          rw [h.phase] at hin
          cases hin
        · refine ⟨_, rfl, apart_setPhase .exiting, ?_⟩
          have hexit := guards_exit (hi.setPhase .exiting) (h.setPhase .exiting)
          exact hret (.exist fun _ => stable_stands) (hexit.mono fun _ _ _ h => ⟨l, h⟩)
      · cases hinv
    | retire x f =>
      simp only [accounts, invoke] at hinv
      split at hinv
      · cases hinv
      · cases hinv
        have hb : Between t { s with submitted := insert x s.submitted } := by
          rcases h with ⟨l, h⟩ | ⟨l, h⟩
          · exact .inl ⟨l, h.localEpoch, h.phase, h.members⟩
          · exact .inr ⟨l, h.localEpoch, h.phase, h.members⟩
        refine ⟨_, rfl, ⟨fun _ _ => rfl, fun _ _ => rfl, fun _ _ _ => Iff.rfl⟩, ?_⟩
        exact hb.keeps ⟨hi.global_lt, hi.active_eq, hi.tag_lt⟩ fun l p m => keeps_retire x f
    | reclaim =>
      cases hinv
      exact hsame _ (fun _ _ _ => keeps_reclaim) rfl
    | finalizeThread =>
      cases hinv
      exact hsame _ (fun _ _ _ => keeps_finalizeThread) rfl
    | drainAll =>
      cases hinv
      exact hsame _ (fun _ _ _ => keeps_drainAll) rfl
  respond t c r s hi h := by
    cases c with
    | enter =>
      obtain ⟨g, h⟩ := h
      exact ⟨_, rfl, hi.setPhase .inside, apart_setPhase .inside,
        .inr ⟨g, h.setPhase .inside⟩⟩
    | exit =>
      obtain ⟨l, h⟩ := h
      exact ⟨_, rfl, hi.setPhase .outside, apart_setPhase .outside,
        .inl ⟨l, h.setPhase .outside⟩⟩
    | retire x f =>
      have hbetween : ∀ sub ret, Between t { s with submitted := sub, returned := ret } := by
        intro sub ret
        rcases h with ⟨l, h⟩ | ⟨l, h⟩
        · exact .inl ⟨l, h.localEpoch, h.phase, h.members⟩
        · exact .inr ⟨l, h.localEpoch, h.phase, h.members⟩
      cases r <;> exact ⟨_, rfl, ⟨hi.global_lt, hi.active_eq, hi.tag_lt⟩, ⟨fun _ _ => rfl,
        fun _ _ => rfl, fun _ _ _ => Iff.rfl⟩, hbetween _ _⟩
    | _ => exact ⟨s, rfl, hi, .refl t s, h⟩

variable {address : Nat → Nat} {c : Config Op State Call Bool}

theorem reach_guards (hc : accounts.Reachable { State.init with address := address } c) :
    Counted c.shared ∧ ∀ t, c.thread t = none → Between t c.shared := by
  have hinit : Counted { State.init with address := address } :=
    ⟨Nat.zero_lt_succ 2, fun _ => rfl, fun _ _ h => by cases h⟩
  have hstart : ∀ t, Between t { State.init with address := address } := fun t =>
    .inl ⟨0, rfl, rfl, fun e => by simp [State.init, Nowhere]⟩
  obtain ⟨s, hs, hb⟩ := Discipline.reach_idle covers_guards hinit hstart hc
  obtain rfl : s = c.shared := hs.erase
  exact ⟨hs.inv, hb⟩

/-- When no thread is inside a guard or a call, nobody is counted. -/
theorem nobody_active (hc : accounts.Reachable { State.init with address := address } c)
    (hidle : ∀ t, c.thread t = none) (hout : ∀ t, c.shared.phase t = .outside) (e : Nat) :
    c.shared.active e = 0 := by
  obtain ⟨hcounted, hbetween⟩ := reach_guards hc
  rw [hcounted.active_eq e, Finset.card_eq_zero, Finset.eq_empty_iff_forall_notMem]
  intro t ht
  rcases hbetween t (hidle t) with ⟨l, h⟩ | ⟨l, h⟩
  · exact (h.members e).mp ht
  · have hphase := h.phase
    rw [hout t] at hphase
    cases hphase

/-- When nobody is counted and no thread is inside a call, none is inside a guard. -/
theorem outside_of_inactive (hc : accounts.Reachable { State.init with address := address } c)
    (hidle : ∀ t, c.thread t = none) (hactive : ∀ e < EPOCHS, c.shared.active e = 0) (t : Nat) :
    c.shared.phase t = .outside := by
  obtain ⟨hcounted, hbetween⟩ := reach_guards hc
  rcases hbetween t (hidle t) with ⟨l, h⟩ | ⟨l, h⟩
  · exact h.phase
  · have hzero := hactive (l % EPOCHS) (Nat.mod_lt _ (by decide))
    rw [hcounted.active_eq, Finset.card_eq_zero] at hzero
    have hmem : t ∈ c.shared.members (l % EPOCHS) := (h.members _).mpr rfl
    rw [hzero] at hmem
    simp at hmem

end MpmcMap.Reclaim.Epoch.Account
