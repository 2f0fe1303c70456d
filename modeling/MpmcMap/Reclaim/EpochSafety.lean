import MpmcMap.Conc.RelyGuarantee
import MpmcMap.Reclaim.Epoch

/-!
# When the epoch reclaimer is safe

An object is *blocked* while some thread is still inside the guard in which it was when the object
was retired; no action of a blocked object may run. The source's argument is that the epoch cannot
advance while one of its guards is open. It has two gaps: `enter` loads the counter and joins the
epoch in two steps, so that a thread may join an epoch that is no longer current, and `exit`
advances the counter some steps after it saw the active count drop to zero, so that the epoch may
have been joined again. `stale_join` shows that the first gap is enough to free a blocked object;
`safe_of_timely` shows that there is no third one.
-/

namespace MpmcMap.Reclaim.Epoch

open Conc

/-! ## Blocked objects -/

/-- Thread `t` is inside a guard after the history `tr`. -/
def Inside (tr : List Event) (t : Nat) : Prop :=
  ∃ pre post, tr = pre ++ .entered t :: post ∧ .exit t ∉ post

/-- Some thread was inside a guard when `x` was retired and has not left that guard since. -/
def Blocked (tr : List Event) (x : Ptr) : Prop :=
  ∃ pre post u t, tr = pre ++ .retire u x :: post ∧ Inside pre t ∧ .exit t ∉ post

/-- No action of a blocked object has run. -/
def SafeTrace (tr : List Event) : Prop :=
  ∀ pre post u x, tr = pre ++ .ran u x :: post → ¬ Blocked pre x

/-- An element of a list with one more entry is the new entry or was there before. -/
theorem append_singleton_split {tr pre post : List Event} {e a : Event}
    (h : tr ++ [e] = pre ++ a :: post) :
    (post = [] ∧ a = e ∧ pre = tr) ∨ ∃ post', post = post' ++ [e] ∧ tr = pre ++ a :: post' := by
  rcases List.eq_nil_or_concat post with rfl | ⟨post', z, rfl⟩
  · left
    obtain ⟨h1, h2⟩ := List.append_inj' h rfl
    exact ⟨rfl, by simpa using h2.symm, h1.symm⟩
  · right
    have h' : tr ++ [e] = (pre ++ a :: post') ++ [z] := by simpa using h
    obtain ⟨h1, h2⟩ := List.append_inj' h' rfl
    exact ⟨post', by simpa using h2.symm, h1⟩

theorem Inside.of_append {tr : List Event} {e : Event} {t : Nat} (h : Inside (tr ++ [e]) t) :
    e = .entered t ∨ (Inside tr t ∧ e ≠ .exit t) := by
  obtain ⟨pre, post, heq, hpost⟩ := h
  rcases append_singleton_split heq with ⟨-, he, -⟩ | ⟨post', rfl, htr⟩
  · exact .inl he.symm
  · refine .inr ⟨⟨pre, post', htr, fun hm => hpost (by simp [hm])⟩, fun he => hpost ?_⟩
    simp [he]

theorem Blocked.of_append {tr : List Event} {e : Event} {x : Ptr} (h : Blocked (tr ++ [e]) x) :
    Blocked tr x ∨ ∃ u, e = .retire u x := by
  obtain ⟨pre, post, u, t, heq, hin, hpost⟩ := h
  rcases append_singleton_split heq with ⟨-, he, -⟩ | ⟨post', rfl, htr⟩
  · exact .inr ⟨u, he.symm⟩
  · exact .inl ⟨pre, post', u, t, htr, hin, fun hm => hpost (by simp [hm])⟩

/-- A blocked object is blocked by a thread that is inside a guard now. -/
theorem Blocked.inside {tr : List Event} {x : Ptr} (h : Blocked tr x) : ∃ t, Inside tr t := by
  obtain ⟨pre, post, u, t, rfl, ⟨pre', post', rfl, hpost'⟩, hpost⟩ := h
  refine ⟨t, pre', post' ++ .retire u x :: post, by simp, ?_⟩
  simp [hpost, hpost']

theorem SafeTrace.append {tr : List Event} {e : Event} (h : SafeTrace tr)
    (he : ∀ u x, e = .ran u x → ¬ Blocked tr x) : SafeTrace (tr ++ [e]) := by
  intro pre post u x heq
  rcases append_singleton_split heq with ⟨-, hae, rfl⟩ | ⟨post', rfl, htr⟩
  · exact he u x hae.symm
  · exact h pre post' u x htr

/-! ## The stale join -/

/-- `n` steps of thread `t`. -/
def steps (t n : Nat) : List (Label Call) := List.replicate n (.step t false)

/-- Thread 0 loads epoch 0 and stops; thread 1 moves the counter to 2 and enters; thread 0 joins
epoch 0, retires an object with tag 0 and reclaims. -/
def staleJoin : List (Label Call) :=
  [.call 0 .enter] ++ steps 0 1 ++
  [.call 1 .enter] ++ steps 1 4 ++ [.ret 1, .call 1 .exit] ++ steps 1 4 ++ [.ret 1] ++
  [.call 1 .enter] ++ steps 1 4 ++ [.ret 1, .call 1 .exit] ++ steps 1 4 ++ [.ret 1] ++
  [.call 1 .enter] ++ steps 1 4 ++ [.ret 1] ++
  steps 0 3 ++ [.ret 0] ++
  [.call 0 (.retire 7 ⟨1⟩)] ++ steps 0 6 ++ [.ret 0] ++
  [.call 0 .reclaim] ++ steps 0 5

/-- The reclaimer can run the action of an object although a thread is still inside a guard that it
had entered before the object was retired. -/
theorem stale_join :
    ¬ ∀ c, reclaimer.Reachable State.init c → SafeTrace c.shared.trace := by
  intro h
  have hrun : (reclaimer.exec (SharedObject.start State.init) staleJoin).map (·.shared.trace) =
      some [.entered 1, .exit 1, .entered 1, .exit 1, .entered 1, .entered 0, .retire 0 7,
        .ran 0 7] := by rfl
  obtain ⟨c, hc, htr⟩ := Option.map_eq_some_iff.mp hrun
  have hsafe := h c (reclaimer.reachable_exec staleJoin hc)
  rw [htr] at hsafe
  refine hsafe [.entered 1, .exit 1, .entered 1, .exit 1, .entered 1, .entered 0, .retire 0 7] []
    0 7 rfl ?_
  refine ⟨[.entered 1, .exit 1, .entered 1, .exit 1, .entered 1, .entered 0], [], 0, 1, rfl, ?_,
    by simp⟩
  exact ⟨[.entered 1, .exit 1, .entered 1, .exit 1], [.entered 0], rfl, by simp⟩

/-! ## Timely runs -/

/-- A thread joins the epoch that is current at that moment, and the counter is moved on only from
an epoch that no thread is active in. -/
def Timely {β : Type} (_ : Nat) (o : Op β) (s : State) : Prop :=
  match o with
  | .incActive e => s.global = e
  | .casGlobal expected _ => s.global = expected → s.active expected = 0
  | _ => True

/-- The invariant of timely runs: only the current epoch has members, and an object listed under
another tag is not blocked. -/
structure Inv (s : State) : Prop where
  global_lt : s.global < EPOCHS
  late_none : s.late = none
  active_eq : ∀ e, s.active e = (s.members e).card
  members_global : ∀ e t, t ∈ s.members e → e = s.global
  outside : ∀ t e, s.phase t = .outside → t ∉ s.members e
  inside : ∀ t, s.phase t = .inside →
    (s.tls t).localEpoch = s.global ∧ t ∈ s.members s.global
  inside_phase : ∀ t, Inside s.trace t → s.phase t = .inside
  listed : ∀ t e x, x ∈ (s.tls t).retired e →
    (∃ u, .retire u x ∈ s.trace) ∧ (e = s.global ∨ ¬ Blocked s.trace x)
  safe : SafeTrace s.trace

/-- What a step of thread `u` may change. -/
structure Guar (u : Nat) (s s' : State) : Prop where
  phase : ∀ v, v ≠ u → s'.phase v = s.phase v
  tls : ∀ v, v ≠ u → s'.tls v = s.tls v
  members : ∀ v, v ≠ u → ∀ e, v ∈ s'.members e ↔ v ∈ s.members e
  trace : s'.trace = s.trace ∨ ∃ e, s'.trace = s.trace ++ [e] ∧
    ∀ w x, e = .retire w x → ∀ w', .retire w' x ∉ s.trace

theorem Guar.refl (u : Nat) (s : State) : Guar u s s :=
  ⟨fun _ _ => rfl, fun _ _ => rfl, fun _ _ _ => Iff.rfl, .inl rfl⟩

/-- The proof obligations of the reclaimer's threads. -/
def timely : Discipline reclaimer State where
  erase := id
  inv := Inv
  guar := Guar
  ok := Timely

@[simp] theorem timely_erase (s : State) : timely.erase s = s := rfl

/-- A retired object that is not blocked. -/
def Free (x : Ptr) (s : State) : Prop :=
  (∃ u, .retire u x ∈ s.trace) ∧ ¬ Blocked s.trace x

theorem Guar.mem_trace {u : Nat} {s s' : State} (h : Guar u s s') {e : Event}
    (he : e ∈ s.trace) : e ∈ s'.trace := by
  rcases h.trace with heq | ⟨e', heq, -⟩ <;> simp [heq, he]

/-- Objects are retired once, so an object does not become blocked after its retirement. -/
theorem Guar.free {u : Nat} {s s' : State} (h : Guar u s s') {x : Ptr} (hx : Free x s) :
    Free x s' := by
  obtain ⟨⟨w, hw⟩, hb⟩ := hx
  refine ⟨⟨w, h.mem_trace hw⟩, fun hb' => ?_⟩
  rcases h.trace with heq | ⟨e, heq, hfresh⟩
  · exact hb (heq ▸ hb')
  · rw [heq] at hb'
    rcases hb'.of_append with hb' | ⟨w', rfl⟩
    · exact hb hb'
    · exact hfresh w' x rfl w hw

variable {t : Nat}

theorem stable_tls (P : ThreadState → Prop) : timely.Stable t fun s => P (s.tls t) := by
  intro u hu s s' _ _ hg h
  rwa [hg.tls t hu.symm]

theorem stable_phase (P : Phase → Prop) : timely.Stable t fun s => P (s.phase t) := by
  intro u hu s s' _ _ hg h
  rwa [hg.phase t hu.symm]

theorem stable_member (e : Nat) : timely.Stable t fun s => t ∈ s.members e :=
  fun _ hu _ _ _ _ hg h => (hg.members t hu.symm e).mpr h

theorem stable_not_member : timely.Stable t fun s => ∀ e, t ∉ s.members e :=
  fun _ hu _ _ _ _ hg h e hm => h e ((hg.members t hu.symm e).mp hm)

theorem stable_retired (u : Nat) (x : Ptr) : timely.Stable t fun s => .retire u x ∈ s.trace :=
  fun _ _ _ _ _ _ hg h => hg.mem_trace h

theorem stable_free (xs : List Ptr) : timely.Stable t fun s => ∀ x ∈ xs, Free x s :=
  fun _ _ _ _ _ _ hg h x hx => hg.free (h x hx)

/-! ### Steps that keep the invariant -/

section Steps

variable {s : State}

/-- An object may be freed as soon as its tag is not the current epoch. -/
theorem Inv.free_of_tag (hi : Inv s) {e : Nat} (he : e ≠ s.global) {x : Ptr}
    (hx : x ∈ (s.tls t).retired e) : Free x s :=
  have h := hi.listed t e x hx
  ⟨h.1, h.2.resolve_left he⟩

/-- Replacing the caller's thread state keeps the invariant when the epoch stays and every list
only loses entries or gains retired objects under the current tag. -/
theorem Inv.setTls (hi : Inv s) {v : ThreadState}
    (hepoch : v.localEpoch = (s.tls t).localEpoch)
    (hsub : ∀ e x, x ∈ v.retired e → x ∈ (s.tls t).retired e ∨
      ((∃ u, .retire u x ∈ s.trace) ∧ e = s.global)) :
    Inv { s with tls := upd s.tls t v } where
  global_lt := hi.global_lt
  late_none := hi.late_none
  active_eq := hi.active_eq
  members_global := hi.members_global
  outside := hi.outside
  inside u hu := by
    by_cases hut : u = t
    · subst hut
      simpa [hepoch] using hi.inside u hu
    · simpa [upd_other _ _ hut] using hi.inside u hu
  inside_phase := hi.inside_phase
  listed u e x hx := by
    by_cases hut : u = t
    · subst hut
      rcases hsub e x (by simpa using hx) with h | ⟨h, rfl⟩
      · exact hi.listed u e x h
      · exact ⟨h, .inl rfl⟩
    · exact hi.listed u e x (by simpa [upd_other _ _ hut] using hx)
  safe := hi.safe

theorem guar_setTls (ts : ThreadState) : Guar t s { s with tls := upd s.tls t ts } :=
  ⟨fun _ _ => rfl, fun _ hv => upd_other _ _ hv, fun _ _ _ => Iff.rfl, .inl rfl⟩

/-- Running the action of a free object. -/
theorem Inv.run (hi : Inv s) {u : Nat} {x : Ptr} (a : RetireAction) (hx : Free x s) :
    Inv { s with trace := s.trace ++ [.ran u x], ran := s.ran ++ [(x, a)] } where
  global_lt := hi.global_lt
  late_none := hi.late_none
  active_eq := hi.active_eq
  members_global := hi.members_global
  outside := hi.outside
  inside := hi.inside
  inside_phase v hv := by
    rcases hv.of_append with h | h
    · cases h
    · exact hi.inside_phase v h.1
  listed v e y hy := by
    obtain ⟨⟨w, hw⟩, h⟩ := hi.listed v e y hy
    refine ⟨⟨w, by simp [hw]⟩, h.imp_right fun hb hb' => ?_⟩
    rcases hb'.of_append with h | ⟨_, h⟩
    · exact hb h
    · cases h
  safe := hi.safe.append fun v y h => by
    cases h
    exact hx.2

theorem guar_run (x : Ptr) (a : RetireAction) :
    Guar t s { s with trace := s.trace ++ [.ran t x], ran := s.ran ++ [(x, a)] } :=
  ⟨fun _ _ => rfl, fun _ _ => rfl, fun _ _ _ => Iff.rfl,
    .inr ⟨_, rfl, fun _ _ h => by cases h⟩⟩

theorem Inv.outstanding (hi : Inv s) (n : Nat) : Inv { s with outstanding := n } := { hi with }

theorem guar_outstanding (n : Nat) : Guar t s { s with outstanding := n } :=
  ⟨fun _ _ => rfl, fun _ _ => rfl, fun _ _ _ => Iff.rfl, .inl rfl⟩

/-- Joining the current epoch. -/
theorem Inv.incActive (hi : Inv s) (hph : s.phase t = .entering)
    (hnot : ∀ e, t ∉ s.members e) :
    Inv { s with
      active := upd s.active (s.global % EPOCHS) (s.active (s.global % EPOCHS) + 1)
      members := upd s.members (s.global % EPOCHS)
        (insert t (s.members (s.global % EPOCHS))) } where
  global_lt := hi.global_lt
  late_none := hi.late_none
  active_eq e := by
    by_cases he : e = s.global % EPOCHS
    · subst he
      simp [Finset.card_insert_of_notMem (hnot _), hi.active_eq]
    · simpa [upd_other _ _ he] using hi.active_eq e
  members_global e u hu := by
    by_cases he : e = s.global % EPOCHS
    · rw [he, Nat.mod_eq_of_lt hi.global_lt]
    · exact hi.members_global e u (by simpa [upd_other _ _ he] using hu)
  outside u e hu := by
    have hut : u ≠ t := by
      rintro rfl
      rw [hph] at hu
      cases hu
    by_cases he : e = s.global % EPOCHS
    · subst he
      simpa [hut] using hi.outside u _ hu
    · simpa [upd_other _ _ he] using hi.outside u e hu
  inside u hu := by
    obtain ⟨h1, h2⟩ := hi.inside u hu
    refine ⟨h1, ?_⟩
    rw [Nat.mod_eq_of_lt hi.global_lt]
    simp [h2]
  inside_phase := hi.inside_phase
  listed := hi.listed
  safe := hi.safe

/-- Leaving the epoch joined by `enter`. -/
theorem Inv.decActive (hi : Inv s) (hph : s.phase t = .exiting) (e : Nat)
    (hmem : t ∈ s.members e) :
    Inv { s with
      active := upd s.active e (s.active e - 1)
      members := upd s.members e ((s.members e).erase t) } where
  global_lt := hi.global_lt
  late_none := hi.late_none
  active_eq d := by
    by_cases hd : d = e
    · subst hd
      simp [Finset.card_erase_of_mem hmem, hi.active_eq]
    · simpa [upd_other _ _ hd] using hi.active_eq d
  members_global d u hu := by
    by_cases hd : d = e
    · subst hd
      exact hi.members_global d u (Finset.mem_of_mem_erase (by simpa using hu))
    · exact hi.members_global d u (by simpa [upd_other _ _ hd] using hu)
  outside u d hu := by
    by_cases hd : d = e
    · subst hd
      simpa using fun _ => hi.outside u d hu
    · simpa [upd_other _ _ hd] using hi.outside u d hu
  inside u hu := by
    obtain ⟨h1, h2⟩ := hi.inside u hu
    have hut : u ≠ t := by
      rintro rfl
      rw [hph] at hu
      cases hu
    refine ⟨h1, ?_⟩
    by_cases hd : s.global = e
    · subst hd
      simp [hut, h2]
    · simpa [upd_other _ _ hd] using h2
  inside_phase := hi.inside_phase
  listed := hi.listed
  safe := hi.safe

/-- Moving the counter on from an epoch without members: nobody is inside a guard. -/
theorem Inv.advance (hi : Inv s) (hzero : s.active s.global = 0) {g : Nat} (hg : g < EPOCHS) :
    Inv { s with global := g } := by
  have hempty : ∀ e u, u ∉ s.members e := by
    intro e u hu
    have he := hi.members_global e u hu
    subst he
    have hcard := hi.active_eq s.global
    rw [hzero] at hcard
    rw [Finset.card_eq_zero.mp hcard.symm] at hu
    exact absurd hu (Finset.notMem_empty u)
  have hfree : ∀ x, ¬ Blocked s.trace x := by
    intro x hx
    obtain ⟨u, hu⟩ := hx.inside
    exact hempty _ u (hi.inside u (hi.inside_phase u hu)).2
  exact {
    global_lt := hg
    late_none := hi.late_none
    active_eq := hi.active_eq
    members_global := fun e u hu => absurd hu (hempty e u)
    outside := hi.outside
    inside := fun u hu => absurd (hi.inside u hu).2 (hempty _ u)
    inside_phase := hi.inside_phase
    listed := fun u e x hx => ⟨(hi.listed u e x hx).1, .inr (hfree x)⟩
    safe := hi.safe }

end Steps

/-! ### The code keeps the invariant -/

section Code

variable {α β : Type} {s : State} {Q : α → State → Prop}

/-- One action, without history variables beyond those of the state. -/
theorem wp_act {o : Op β} {k : β → Prog Op α} {P : State → Prop} (hP : timely.Stable t P)
    (hi : Inv s) (h : P s)
    (hstep : ∀ s b r s', Inv s → P s → Timely t o s → action t b o s = some (r, s') →
      Inv s' ∧ Guar t s s' ∧ timely.WP t (k r) Q s') :
    timely.WP t (.act o k) Q s :=
  Discipline.WP.act hP hi h fun s b r s' hi h hok hact =>
    ⟨s', rfl, hstep s b r s' hi h hok hact⟩

/-- An action that only reads. -/
theorem wp_read {o : Op β} {k : β → Prog Op α} {P : State → Prop} (hP : timely.Stable t P)
    (hi : Inv s) (h : P s)
    (hstep : ∀ s b r s', Inv s → P s → action t b o s = some (r, s') →
      s' = s ∧ timely.WP t (k r) Q s) :
    timely.WP t (.act o k) Q s :=
  Discipline.WP.read (Guar.refl t) hP hi h hstep

/-- Reading the caller's own thread state, which nobody else changes. -/
theorem wp_getTls {k : ThreadState → Prog Op α} {A : State → Prop} (hA : timely.Stable t A)
    (hi : Inv s) (h : A s)
    (hk : ∀ s, Inv s → A s → timely.WP t (k (s.tls t)) Q s) :
    timely.WP t (.act .getTls k) Q s := by
  refine wp_read hA hi h fun s b r s' hi h hact => ?_
  simp only [action, Option.some.injEq, Prod.mk.injEq] at hact
  obtain ⟨rfl, rfl⟩ := hact
  exact ⟨rfl, hk s hi h⟩

/-- Writing back the caller's thread state: the epoch is kept and the lists do not grow. -/
theorem wp_setTls {v w : ThreadState} {k : Unit → Prog Op α} {A B : State → Prop}
    (hA : timely.Stable t A) (hi : Inv s) (h : A s) (hts : s.tls t = v)
    (hepoch : w.localEpoch = v.localEpoch)
    (hsub : ∀ e x, x ∈ w.retired e → x ∈ v.retired e)
    (hB : ∀ s, A s → B { s with tls := upd s.tls t w })
    (hk : ∀ s, Inv s → B s → s.tls t = w → timely.WP t (k ()) Q s) :
    timely.WP t (.act (.setTls w) k) Q s := by
  refine wp_act (P := fun s => A s ∧ s.tls t = v)
    (hA.and (stable_tls fun x => x = v)) hi ⟨h, hts⟩ fun s b r s' hi h _ hact => ?_
  obtain ⟨h, hts⟩ := h
  simp only [action, Option.some.injEq, Prod.mk.injEq] at hact
  obtain ⟨-, rfl⟩ := hact
  have hi' : Inv { s with tls := upd s.tls t w } := by
    refine hi.setTls (by rw [hepoch, hts]) fun e x hx => .inl ?_
    rw [hts]
    exact hsub e x hx
  exact ⟨hi', guar_setTls w, hk _ hi' (hB s h) (by simp)⟩

theorem wp_decOutstanding {k : Unit → Prog Op α} {A : State → Prop} (hA : timely.Stable t A)
    (hi : Inv s) (h : A s) (hout : ∀ s n, A s → A { s with outstanding := n })
    (hk : ∀ s, Inv s → A s → timely.WP t (k ()) Q s) :
    timely.WP t (.act .decOutstanding k) Q s := by
  refine wp_act hA hi h fun s b r s' hi h _ hact => ?_
  simp only [action, Option.some.injEq, Prod.mk.injEq] at hact
  obtain ⟨-, rfl⟩ := hact
  exact ⟨hi.outstanding _, guar_outstanding _, hk _ (hi.outstanding _) (hout s _ h)⟩

/-- `freeTagged` frees the objects it lists, which must be free already. -/
theorem wp_freeTagged {tag : Nat} {A : State → Prop} (hA : timely.Stable t A)
    (hi : Inv s) (h : A s) (hfree : ∀ x ∈ (s.tls t).retired tag, Free x s)
    (htls : ∀ s ts, A s → A { s with tls := upd s.tls t ts })
    (hrun : ∀ s x a, A s → A { s with trace := s.trace ++ [.ran t x], ran := s.ran ++ [(x, a)] })
    (hout : ∀ s n, A s → A { s with outstanding := n }) :
    timely.WP t (freeTagged tag) (fun _ s => A s) s := by
  unfold freeTagged
  simp only [Prog.bind_eq, Prog.perform_bind, Prog.iterate_bind, Prog.pure_eq]
  -- the list is the caller's own, so its objects stay free until the first read
  have hst : timely.Stable t fun s => A s ∧ ∀ x ∈ (s.tls t).retired tag, Free x s := by
    refine hA.and fun u hu s s' _ _ hg hf x hx => ?_
    rw [hg.tls t hu.symm] at hx
    exact hg.free (hf x hx)
  refine wp_getTls hst hi ⟨h, hfree⟩ fun s hi ⟨h, hfree⟩ => ?_
  set ts := s.tls t with hts
  set ptrs := ts.retired tag
  have hst : timely.Stable t fun s => A s ∧ ∀ x ∈ ptrs, Free x s := hA.and (stable_free ptrs)
  refine wp_setTls (v := ts) (B := fun s => A s ∧ ∀ x ∈ ptrs, Free x s) hst hi ⟨h, hfree⟩ rfl rfl
    (fun _ _ hx => hx) (fun s h => ⟨htls s _ h.1, h.2⟩) fun s hi h _ => ?_
  refine Discipline.WP.loop (I := fun _ s => A s ∧ ∀ x ∈ ptrs, Free x s) (fun _ => hst) hi h ?_
  intro i s hi h
  by_cases hlt : i < ptrs.length
  · rw [if_pos hlt]
    have hmem : ptrs.getD i 0 ∈ ptrs := by
      simp [List.getD, List.getElem?_eq_getElem hlt]
    refine wp_act hst hi h fun s b r s' hi h _ hact => ?_
    simp only [action, Option.some.injEq, Prod.mk.injEq] at hact
    obtain ⟨-, rfl⟩ := hact
    have hg := guar_run (t := t) (s := s) (ptrs.getD i 0) ((ts.retiredActions tag).getD i ⟨0⟩)
    refine ⟨hi.run _ (h.2 _ hmem), hg, ?_⟩
    refine wp_decOutstanding hst (hi.run _ (h.2 _ hmem))
      ⟨hrun s _ _ h.1, fun x hx => hg.free (h.2 x hx)⟩ (fun s n h => ⟨hout s n h.1, h.2⟩)
      fun s hi h => ?_
    exact Discipline.WP.ret hst hi h
  · rw [if_neg hlt]
    refine Discipline.WP.ret ((Discipline.WP.stable _ _)) hi ?_
    refine wp_getTls hA hi h.1 fun s hi h => ?_
    refine wp_setTls (v := s.tls t) (B := A) hA hi h rfl rfl (fun e x hx => ?_)
      (fun s h => htls s _ h) fun s hi h _ => Discipline.WP.ret hA hi h
    by_cases he : e = tag
    · subst he
      simp at hx
    · simpa [upd_other _ _ he] using hx

/-- `reclaim` frees the objects of a tag that is not the current epoch. The late chain is empty, as
no thread exits in these runs. -/
theorem wp_reclaim (hi : Inv s) : timely.WP t reclaim (fun _ _ => True) s := by
  have htrue : timely.Stable t fun _ => True := Discipline.Stable.const
  unfold reclaim
  simp only [Prog.bind_eq, Prog.perform_bind]
  refine wp_read htrue hi trivial fun s b g s' hi _ hact => ?_
  simp only [action, Option.some.injEq, Prod.mk.injEq] at hact
  obtain ⟨rfl, rfl⟩ := hact
  have htag : (s.global + 1) % EPOCHS ≠ s.global := by
    have := hi.global_lt
    unfold EPOCHS at *
    omega
  refine ⟨rfl, Discipline.WP.bind ?_⟩
  refine Discipline.WP.mono ?_ (wp_freeTagged (A := fun _ => True) htrue hi trivial
    (fun x hx => hi.free_of_tag htag hx) (fun _ _ _ => trivial) (fun _ _ _ _ => trivial)
    fun _ _ _ => trivial)
  intro _ s hi _
  have hend : ∀ s, Inv s → timely.WP t (.act .getTls fun ts => .act (.setTls { ts with
      retiredTotal := (ts.retired 0).length + (ts.retired 1).length + (ts.retired 2).length })
      .ret) (fun _ _ => True) s := by
    intro s hi
    refine wp_getTls htrue hi trivial fun s hi _ => ?_
    exact wp_setTls (B := fun _ => True) htrue hi trivial rfl rfl (fun _ _ hx => hx)
      (fun _ _ => trivial) fun s hi _ _ => Discipline.WP.ret htrue hi trivial
  refine wp_getTls htrue hi trivial fun s hi _ => ?_
  split
  · refine wp_read htrue hi trivial fun s b head s' hi _ hact => ?_
    simp only [action, Option.some.injEq, Prod.mk.injEq] at hact
    obtain ⟨rfl, rfl⟩ := hact
    refine ⟨rfl, ?_⟩
    rw [hi.late_none]
    exact hend _ hi
  · exact hend _ hi

/-- `retire` lists the object under the epoch of the caller's guard, the current one. -/
theorem wp_retire {x : Ptr} {a : RetireAction} (hi : Inv s) (hph : s.phase t = .inside)
    (hx : .retire t x ∈ s.trace) :
    timely.WP t (retire x a) (fun _ _ => True) s := by
  have htrue : timely.Stable t fun _ => True := Discipline.Stable.const
  have hin : timely.Stable t fun s => s.phase t = .inside ∧ .retire t x ∈ s.trace :=
    (stable_phase fun p => p = .inside).and (stable_retired t x)
  unfold retire
  simp only [Prog.bind_eq, Prog.perform_bind]
  refine wp_act hin hi ⟨hph, hx⟩ fun s b r s' hi h _ hact => ?_
  simp only [action, Option.some.injEq, Prod.mk.injEq] at hact
  obtain ⟨-, rfl⟩ := hact
  refine ⟨hi.outstanding _, guar_outstanding _, ?_⟩
  refine wp_getTls hin (hi.outstanding _) h fun s hi h => ?_
  -- inside the guard the caller's epoch stays the current one
  set loc := (s.tls t).localEpoch with hloc
  have hin' : timely.Stable t fun s =>
      (s.phase t = .inside ∧ .retire t x ∈ s.trace) ∧ (s.tls t).localEpoch = loc :=
    hin.and (stable_tls fun ts => ts.localEpoch = loc)
  have hdone : ∀ s, Inv s → timely.WP t (.act .getTls fun ts => .act (.setTls { ts with
      retiredTotal := ts.retiredTotal + 1 }) fun _ =>
      (if RECLAIM_THRESHOLD < ts.retiredTotal + 1 then
        reclaim.bind fun _ => .ret true else .ret true)) (fun _ _ => True) s := by
    intro s hi
    refine wp_getTls htrue hi trivial fun s hi _ => ?_
    refine wp_setTls (B := fun _ => True) htrue hi trivial rfl rfl (fun _ _ hx => hx)
      (fun _ _ => trivial) fun s hi _ _ => ?_
    split
    · refine Discipline.WP.bind (Discipline.WP.mono ?_ (wp_reclaim hi))
      exact fun _ _ hi _ => Discipline.WP.ret htrue hi trivial
    · exact Discipline.WP.ret htrue hi trivial
  have hundo : ∀ e s, Inv s → timely.WP t (.act .getTls fun ts =>
      (if (ts.retiredActions e).length < (ts.retired e).length then
        .act (.setTls { ts with retired := upd ts.retired e (ts.retired e).dropLast }) fun _ =>
          .act .decOutstanding fun _ => .ret false
      else .act .decOutstanding fun _ => .ret false)) (fun _ _ => True) s := by
    intro e s hi
    refine wp_getTls htrue hi trivial fun s hi _ => ?_
    have hlast : ∀ s, Inv s → timely.WP t (.act .decOutstanding fun _ => .ret false)
        (fun _ _ => True) s := fun s hi =>
      wp_decOutstanding htrue hi trivial (fun _ _ _ => trivial) fun s hi _ =>
        Discipline.WP.ret htrue hi trivial
    split
    · refine wp_setTls (B := fun _ => True) htrue hi trivial rfl rfl (fun d y hy => ?_)
        (fun _ _ => trivial) fun s hi _ _ => hlast s hi
      by_cases hd : d = e
      · subst hd
        exact List.dropLast_subset _ (by simpa using hy)
      · simpa [upd_other _ _ hd] using hy
    · exact hlast s hi
  refine wp_act hin' hi ⟨h, hloc.symm⟩ fun s b r s' hi h _ hact => ?_
  obtain ⟨⟨hph, hx⟩, hloc⟩ := h
  have hglob := (hi.inside t hph).1
  have htagged : loc % EPOCHS = s.global := by
    rw [← hloc, hglob]
    exact Nat.mod_eq_of_lt hi.global_lt
  cases b with
  | true =>
    simp only [action, if_true, Option.some.injEq, Prod.mk.injEq] at hact
    obtain ⟨rfl, rfl⟩ := hact
    exact ⟨hi, Guar.refl t _, hundo _ _ hi⟩
  | false =>
    simp only [action, Bool.false_eq_true, if_false, Option.some.injEq,
      Prod.mk.injEq] at hact
    obtain ⟨rfl, rfl⟩ := hact
    have hi' : Inv { s with tls := upd s.tls t ((s.tls t).pushRetired (loc % EPOCHS) x) } := by
      refine hi.setTls rfl fun e y hy => ?_
      by_cases he : e = loc % EPOCHS
      · subst he
        have hy : y ∈ (s.tls t).retired (loc % EPOCHS) ∨ y = x := by
          simpa [ThreadState.pushRetired] using hy
        rcases hy with hy | rfl
        · exact .inl hy
        · exact .inr ⟨⟨t, hx⟩, htagged⟩
      · exact .inl (by simpa [ThreadState.pushRetired, upd_other _ _ he] using hy)
    refine ⟨hi', guar_setTls _, ?_⟩
    refine wp_act htrue hi' trivial fun s b r s' hi _ _ hact => ?_
    cases b with
    | true =>
      simp only [action, if_true, Option.some.injEq, Prod.mk.injEq] at hact
      obtain ⟨rfl, rfl⟩ := hact
      exact ⟨hi, Guar.refl t _, hundo _ _ hi⟩
    | false =>
      simp only [action, Bool.false_eq_true, if_false, Option.some.injEq,
        Prod.mk.injEq] at hact
      obtain ⟨rfl, rfl⟩ := hact
      have hi'' := hi.setTls (t := t) (v := (s.tls t).pushAction (loc % EPOCHS) a) rfl
        fun _ _ hy => .inl hy
      refine ⟨{ hi'' with }, ?_, hdone _ { hi'' with }⟩
      exact ⟨fun _ _ => rfl, fun _ hv => upd_other _ _ hv, fun _ _ _ => Iff.rfl, .inl rfl⟩

/-- After `enter` the caller is a member of the current epoch and remembers it. -/
def Entered (t : Nat) (s : State) : Prop :=
  s.phase t = .entering ∧ ∃ e, t ∈ s.members e ∧ (s.tls t).localEpoch = e

theorem stable_entered : timely.Stable t (Entered t) :=
  (stable_phase fun p => p = .entering).and
    (.exist fun e => (stable_member e).and (stable_tls fun ts => ts.localEpoch = e))

theorem wp_enter (hi : Inv s) (hph : s.phase t = .entering) (hnot : ∀ e, t ∉ s.members e) :
    timely.WP t enter (fun _ s => Entered t s) s := by
  have hpre : timely.Stable t fun s => s.phase t = .entering ∧ ∀ e, t ∉ s.members e :=
    (stable_phase fun p => p = .entering).and stable_not_member
  unfold enter
  simp only [Prog.bind_eq, Prog.perform_bind]
  refine wp_read hpre hi ⟨hph, hnot⟩ fun s b g s' hi h hact => ?_
  simp only [action, Option.some.injEq, Prod.mk.injEq] at hact
  obtain ⟨rfl, rfl⟩ := hact
  refine ⟨rfl, ?_⟩
  generalize s.global = g
  refine wp_act hpre hi h fun s b r s' hi h hok hact => ?_
  -- the epoch joined is the current one
  obtain rfl : s.global = g := hok
  simp only [action, Option.some.injEq, Prod.mk.injEq] at hact
  obtain ⟨-, rfl⟩ := hact
  have hi' := hi.incActive h.1 h.2
  refine ⟨hi', ⟨fun _ _ => rfl, fun _ _ => rfl, fun v hv e => ?_, .inl rfl⟩, ?_⟩
  · by_cases he : e = s.global % EPOCHS
    · subst he
      simp [hv]
    · simp [upd_other _ _ he]
  · have hmod := Nat.mod_eq_of_lt hi.global_lt
    have hst : timely.Stable t fun u => u.phase t = .entering ∧ t ∈ u.members s.global :=
      (stable_phase fun p => p = .entering).and (stable_member _)
    refine wp_getTls hst hi' ⟨h.1, by simp [hmod]⟩ fun u hi h => ?_
    generalize hts : u.tls t = ts
    refine wp_act (P := fun u => (u.phase t = .entering ∧ t ∈ u.members s.global) ∧
      u.tls t = ts) (hst.and (stable_tls fun x => x = ts)) hi ⟨h, hts⟩
      fun u b r u' hi h _ hact => ?_
    obtain ⟨⟨hph, hmem⟩, hts⟩ := h
    simp only [action, Option.some.injEq, Prod.mk.injEq] at hact
    obtain ⟨-, rfl⟩ := hact
    -- only the epoch field changes, and the caller is not yet inside
    have hi' : Inv { u with tls := upd u.tls t { ts with localEpoch := s.global } } := {
      global_lt := hi.global_lt
      late_none := hi.late_none
      active_eq := hi.active_eq
      members_global := hi.members_global
      outside := hi.outside
      inside := fun v hv => by
        have hvt : v ≠ t := by
          rintro rfl
          rw [hph] at hv
          cases hv
        simpa [upd_other _ _ hvt] using hi.inside v hv
      inside_phase := hi.inside_phase
      listed := fun v e x hx => by
        by_cases hvt : v = t
        · subst hvt
          exact hi.listed v e x (by simpa [hts] using hx)
        · exact hi.listed v e x (by simpa [upd_other _ _ hvt] using hx)
      safe := hi.safe }
    exact ⟨hi', guar_setTls _, Discipline.WP.ret stable_entered hi'
      ⟨hph, _, hmem, by simp⟩⟩

theorem wp_exit (hi : Inv s) (hph : s.phase t = .exiting)
    (hmem : t ∈ s.members (s.tls t).localEpoch) :
    timely.WP t exit (fun _ s => s.phase t = .exiting ∧ ∀ e, t ∉ s.members e) s := by
  have hpost : timely.Stable t fun s => s.phase t = .exiting ∧ ∀ e, t ∉ s.members e :=
    (stable_phase fun p => p = .exiting).and stable_not_member
  have hpre : timely.Stable t fun s => s.phase t = .exiting ∧ t ∈ s.members (s.tls t).localEpoch :=
    (stable_phase fun p => p = .exiting).and fun u hu s s' _ _ hg h => by
      rw [hg.tls t hu.symm]
      exact (hg.members t hu.symm _).mpr h
  unfold exit
  simp only [Prog.bind_eq, Prog.perform_bind, Prog.pure_eq]
  refine wp_getTls hpre hi ⟨hph, hmem⟩ fun s hi h => ?_
  generalize (s.tls t).localEpoch = loc at h
  refine wp_act (P := fun s => s.phase t = .exiting ∧ t ∈ s.members loc)
    ((stable_phase fun p => p = .exiting).and (stable_member loc)) hi h
    fun s b old s' hi h _ hact => ?_
  simp only [action, Option.some.injEq, Prod.mk.injEq] at hact
  obtain ⟨rfl, rfl⟩ := hact
  have hmod : loc % EPOCHS = loc := by
    rw [hi.members_global loc t h.2]
    exact Nat.mod_eq_of_lt hi.global_lt
  rw [hmod]
  have hi' := hi.decActive h.1 loc h.2
  have hgone : ∀ e, t ∉ upd s.members loc ((s.members loc).erase t) e := by
    intro e hm
    by_cases he : e = loc
    · subst he
      simp at hm
    · rw [upd_other _ _ he] at hm
      exact he ((hi.members_global e t hm).trans (hi.members_global loc t h.2).symm)
  refine ⟨hi', ⟨fun _ _ => rfl, fun _ _ => rfl, fun v hv e => ?_, .inl rfl⟩, ?_⟩
  · by_cases he : e = loc
    · subst he
      simp [hv]
    · simp [upd_other _ _ he]
  · split
    · refine wp_read hpost hi' ⟨h.1, hgone⟩ fun s b g s' hi h hact => ?_
      simp only [action, Option.some.injEq, Prod.mk.injEq] at hact
      obtain ⟨rfl, rfl⟩ := hact
      refine ⟨rfl, ?_⟩
      generalize hgl : s.global = g
      have hlt : g < EPOCHS := hgl ▸ hi.global_lt
      split
      · refine wp_act hpost hi h fun s b r s' hi h hok hact => ?_
        simp only [action] at hact
        split at hact
        · -- the counter moves, from an epoch nobody is active in
          next heq =>
            simp only [Option.some.injEq, Prod.mk.injEq] at hact
            obtain ⟨-, rfl⟩ := hact
            have hzero : s.active s.global = 0 := by
              rw [heq]
              exact hok heq
            have hi' := hi.advance hzero (Nat.mod_lt (g + 1) (by decide : 0 < EPOCHS))
            exact ⟨hi', ⟨fun _ _ => rfl, fun _ _ => rfl, fun _ _ _ => Iff.rfl, .inl rfl⟩,
              Discipline.WP.ret hpost hi' h⟩
        · simp only [Option.some.injEq, Prod.mk.injEq] at hact
          obtain ⟨-, rfl⟩ := hact
          exact ⟨hi, Guar.refl t _, Discipline.WP.ret hpost hi h⟩
      · exact Discipline.WP.ret hpost hi h
    · exact Discipline.WP.ret hpost hi' ⟨h.1, hgone⟩

end Code

/-! ### Every run -/

/-- What a call of thread `t` leaves for the bookkeeping of its return. -/
def post (t : Nat) (c : Call) (_ : Bool) (s : State) : Prop :=
  match c with
  | .enter => Entered t s
  | .exit => s.phase t = .exiting ∧ ∀ e, t ∉ s.members e
  | _ => True

/-- A change of phase that does not enter or leave a guard, with nothing added to the history. -/
theorem Inv.setPhase {s : State} (hi : Inv s) {p : Phase} (hp : p ≠ .inside)
    (hold : s.phase t ≠ .inside) (hout : p = .outside → ∀ e, t ∉ s.members e) :
    Inv { s with phase := upd s.phase t p } where
  global_lt := hi.global_lt
  late_none := hi.late_none
  active_eq := hi.active_eq
  members_global := hi.members_global
  outside u e hu := by
    by_cases hut : u = t
    · subst hut
      exact hout (by simpa using hu) e
    · exact hi.outside u e (by simpa [upd_other _ _ hut] using hu)
  inside u hu := by
    by_cases hut : u = t
    · subst hut
      exact absurd (by simpa using hu) hp
    · exact hi.inside u (by simpa [upd_other _ _ hut] using hu)
  inside_phase u hu := by
    have h := hi.inside_phase u hu
    by_cases hut : u = t
    · subst hut
      exact absurd h hold
    · simpa [upd_other _ _ hut] using h
  listed := hi.listed
  safe := hi.safe

theorem guar_setPhase {s : State} (p : Phase) :
    Guar t s { s with phase := upd s.phase t p } :=
  ⟨fun _ hv => upd_other _ _ hv, fun _ _ => rfl, fun _ _ _ => Iff.rfl, .inl rfl⟩

/-- A thread that is inside leaves: its `exit` is recorded before the code of `exit` runs. -/
theorem Inv.leave {s : State} (hi : Inv s) :
    Inv { s with phase := upd s.phase t .exiting, trace := s.trace ++ [.exit t] } where
  global_lt := hi.global_lt
  late_none := hi.late_none
  active_eq := hi.active_eq
  members_global := hi.members_global
  outside u e hu := by
    by_cases hut : u = t
    · subst hut
      simp at hu
    · exact hi.outside u e (by simpa [upd_other _ _ hut] using hu)
  inside u hu := by
    by_cases hut : u = t
    · subst hut
      simp at hu
    · exact hi.inside u (by simpa [upd_other _ _ hut] using hu)
  inside_phase u hu := by
    rcases hu.of_append with h | ⟨hu, hne⟩
    · cases h
    · have hut : u ≠ t := fun h => hne (by rw [h])
      simpa [upd_other _ _ hut] using hi.inside_phase u hu
  listed u e x hx := by
    obtain ⟨⟨w, hw⟩, h⟩ := hi.listed u e x hx
    refine ⟨⟨w, by simp [hw]⟩, h.imp_right fun hb hb' => ?_⟩
    rcases hb'.of_append with h | ⟨_, h⟩
    · exact hb h
    · cases h
  safe := hi.safe.append fun _ _ h => by cases h

/-- An object that is retired for the first time is in nobody's list yet. -/
theorem Inv.submit {s : State} {x : Ptr} (hi : Inv s) (hfresh : ∀ w, Event.retire w x ∉ s.trace) :
    Inv { s with trace := s.trace ++ [.retire t x] } :=
  { hi with
    inside_phase := fun u hu => by
      rcases hu.of_append with h | ⟨hu, -⟩
      · cases h
      · exact hi.inside_phase u hu
    listed := fun u e y hy => by
      obtain ⟨⟨w, hw⟩, h⟩ := hi.listed u e y hy
      refine ⟨⟨w, by simp [hw]⟩, h.imp_right fun hb hb' => ?_⟩
      rcases hb'.of_append with h | ⟨_, h⟩
      · exact hb h
      · cases h
        exact hfresh w hw
    safe := hi.safe.append fun _ _ h => by cases h }

/-- A thread that has joined the current epoch is inside from the return of `enter` on. -/
theorem Inv.arrive {s : State} (hi : Inv s) (hmem : t ∈ s.members s.global)
    (hloc : (s.tls t).localEpoch = s.global) :
    Inv { s with phase := upd s.phase t .inside, trace := s.trace ++ [.entered t] } where
  global_lt := hi.global_lt
  late_none := hi.late_none
  active_eq := hi.active_eq
  members_global := hi.members_global
  outside u e hu := by
    by_cases hut : u = t
    · subst hut
      simp at hu
    · exact hi.outside u e (by simpa [upd_other _ _ hut] using hu)
  inside u hu := by
    by_cases hut : u = t
    · subst hut
      exact ⟨hloc, hmem⟩
    · exact hi.inside u (by simpa [upd_other _ _ hut] using hu)
  inside_phase u hu := by
    by_cases hut : u = t
    · subst hut
      simp
    · rcases Inside.of_append hu with h | ⟨hu, -⟩
      · cases h
        exact absurd rfl hut
      · simpa [upd_other _ _ hut] using hi.inside_phase u hu
  listed u e x hx := by
    obtain ⟨⟨w, hw⟩, h⟩ := hi.listed u e x hx
    refine ⟨⟨w, by simp [hw]⟩, h.imp_right fun hb hb' => ?_⟩
    rcases Blocked.of_append hb' with h | ⟨_, h⟩
    · exact hb h
    · cases h
  safe := hi.safe.append fun _ _ h => by cases h

/-- A change of phase that is recorded concerns its own thread alone, unless it retires. -/
theorem guar_record {s : State} (p : Phase) (ev : Event) (hev : ∀ w x, ev ≠ .retire w x) :
    Guar t s { s with phase := upd s.phase t p, trace := s.trace ++ [ev] } :=
  ⟨fun _ hv => upd_other _ _ hv, fun _ _ => rfl, fun _ _ _ => Iff.rfl,
    .inr ⟨ev, rfl, fun w x h => absurd h (hev w x)⟩⟩

/-- A call without an answer of its own answers `true`. -/
theorem wp_answer {p : Code Unit} {A : State → Prop} {Q : Bool → State → Prop} {s : State}
    (hA : timely.Stable t A) (hQ : ∀ s, A s → Q true s) (h : timely.WP t p (fun _ s => A s) s) :
    timely.WP t (p.bind fun _ => .ret true) Q s := by
  refine Discipline.WP.bind (h.mono fun _ s hi h => ?_)
  have hret : timely.WP t (.ret true) (fun r s => r = true ∧ A s) s :=
    Discipline.WP.ret (Discipline.Stable.const.and hA) hi ⟨rfl, h⟩
  refine hret.mono fun r s _ hr => ?_
  obtain ⟨rfl, ha⟩ := hr
  exact hQ s ha

theorem covers_timely : timely.Covers post where
  invoke t c s s' hi h := by
    rw [timely_erase] at h
    cases c with
    | enter =>
      simp only [reclaimer, invoke] at h
      split at h
      · next hph =>
          cases h
          have hi' := hi.setPhase (t := t) (p := .entering) (by simp) (by simp [hph]) (by simp)
          exact ⟨_, rfl, guar_setPhase _, wp_answer stable_entered (fun _ h => h)
            (wp_enter hi' (by simp) (hi.outside t · hph))⟩
      · cases h
    | exit =>
      simp only [reclaimer, invoke] at h
      split at h
      · next hph =>
          cases h
          obtain ⟨hloc, hmem⟩ := hi.inside t hph
          refine ⟨_, rfl, guar_record _ _ (by simp), ?_⟩
          exact wp_answer ((stable_phase fun p => p = .exiting).and stable_not_member)
            (fun _ h => h) (wp_exit hi.leave (by simp) (by simpa [hloc] using hmem))
      · cases h
    | retire x a =>
      simp only [reclaimer, invoke] at h
      split at h
      · next hpre =>
          cases h
          obtain ⟨hph, hall⟩ := hpre
          have hfresh : ∀ w, Event.retire w x ∉ s.trace := by
            intro w hw
            simpa using List.all_eq_true.mp hall _ hw
          refine ⟨_, rfl, ⟨fun _ _ => rfl, fun _ _ => rfl, fun _ _ _ => Iff.rfl,
            .inr ⟨_, rfl, fun w y h => ?_⟩⟩, wp_retire (hi.submit hfresh) hph (by simp)⟩
          cases h
          exact hfresh
      · cases h
    | reclaim =>
      cases h
      exact ⟨_, rfl, Guar.refl t _,
        wp_answer (A := fun _ => True) Discipline.Stable.const (fun _ _ => trivial) (wp_reclaim hi)⟩
  respond t c r s hi hpost := by
    rw [timely_erase]
    cases c with
    | enter =>
      obtain ⟨hph, e, hmem, hloc⟩ := hpost
      obtain rfl := hi.members_global e t hmem
      exact ⟨_, rfl, hi.arrive hmem hloc, guar_record _ _ (by simp)⟩
    | exit =>
      obtain ⟨hph, hnot⟩ := hpost
      exact ⟨_, rfl, hi.setPhase (by simp) (by simp [hph]) fun _ => hnot, guar_setPhase _⟩
    | retire x a => exact ⟨s, rfl, hi, Guar.refl t s⟩
    | reclaim => exact ⟨s, rfl, hi, Guar.refl t s⟩

theorem inv_init : Inv State.init where
  global_lt := by decide
  late_none := rfl
  active_eq _ := rfl
  members_global _ _ h := absurd h (Finset.notMem_empty _)
  outside _ _ _ := Finset.notMem_empty _
  inside _ h := by cases h
  inside_phase t h := by
    obtain ⟨pre, post, h, -⟩ := h
    simp [State.init] at h
  listed _ _ _ h := absurd h List.not_mem_nil
  safe pre post u x h := by simp [State.init] at h

/-- In every run in which each thread joins the epoch that is current when it joins it, and the
counter moves on only from an epoch that no thread is active in, no action of an object runs while
a thread is inside a guard that it entered before the object was retired. -/
theorem safe_of_timely (c : Config Op State Call Bool)
    (h : reclaimer.Reach Timely State.init c) : SafeTrace c.shared.trace := by
  obtain ⟨s, hs, hi⟩ := Discipline.reach_inv covers_timely inv_init h
  rw [← hs]
  exact hi.safe

/-- `Timely` as a test. -/
def timelyTest {β : Type} (_ : Nat) (o : Op β) (s : State) : Bool :=
  match o with
  | .incActive e => s.global = e
  | .casGlobal expected _ => s.global ≠ expected ∨ s.active expected = 0
  | _ => true

theorem timelyTest_sound {β : Type} (t : Nat) (o : Op β) (s : State)
    (h : timelyTest t o s = true) : Timely t o s := by
  cases o <;> simp_all [timelyTest, Timely, imp_iff_not_or]

/-- A timely run in which an object is retired while another thread is inside its guard, both
leave, and the object is freed two epochs later. -/
def timelyRun : List (Label Call) :=
  [.call 1 .enter] ++ steps 1 4 ++ [.ret 1, .call 0 .enter] ++ steps 0 4 ++ [.ret 0] ++
  [.call 0 (.retire 7 ⟨1⟩)] ++ steps 0 6 ++ [.ret 0, .call 0 .exit] ++ steps 0 2 ++ [.ret 0] ++
  [.call 1 .exit] ++ steps 1 4 ++ [.ret 1] ++
  [.call 0 .enter] ++ steps 0 4 ++ [.ret 0, .call 0 .exit] ++ steps 0 4 ++ [.ret 0] ++
  [.call 0 .reclaim] ++ steps 0 5

/-- The action of the object runs in that run. -/
theorem safe_of_timely_run :
    ∃ c, reclaimer.Reach Timely State.init c ∧ .ran 0 7 ∈ c.shared.trace ∧
      SafeTrace c.shared.trace := by
  have hrun : (reclaimer.execIf timelyTest (SharedObject.start State.init) timelyRun).map
      (·.shared.trace) = some [.entered 1, .entered 0, .retire 0 7, .exit 0, .exit 1,
        .entered 0, .exit 0, .ran 0 7] := by rfl
  obtain ⟨c, hc, htr⟩ := Option.map_eq_some_iff.mp hrun
  have hreach := reclaimer.reach_execIf timelyTest_sound timelyRun .start hc
  exact ⟨c, hreach, by simp [htr], safe_of_timely c hreach⟩

end MpmcMap.Reclaim.Epoch
