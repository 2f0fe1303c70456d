import MpmcMap.Reclaim.HazardComplete

/-!
# A scan and a hazard that is held

`is_protected(p)` reads the count and walks the prefix of the registry. A removal moves the last
entry to an earlier position: a walk that has passed this position and comes to the last one after
it was cleared misses the slot (`missed_hazard`). `isProtected_of_held` shows that in orderly runs
this is the only way to miss a pointer that a registered thread publishes during the whole call.
-/

namespace MpmcMap.Reclaim.Hazard

open Conc
open Function (update)

/-- Thread `u` is registered and publishes `p` in hazard `h` of its slot `i`. -/
def Holds (u i h : Nat) (p : Ptr) (s : State) : Prop :=
  s.phase u = .registered ∧ (s.tls u).slot = some i ∧ s.hp i h = some p

instance (u i h : Nat) (p : Ptr) (s : State) : Decidable (Holds u i h p s) :=
  inferInstanceAs (Decidable (_ ∧ _ ∧ _))

/-! ## The walk -/

section Walk

variable {t u i h k n : Nat} {p : Ptr} {a : Aug}

/-- The walk of thread `t` for `p` is about to read entry `k` and has not missed slot `i`. -/
def Walking (t i : Nat) (p : Ptr) (n k : Nat) (a : Aug) : Prop :=
  t ∈ a.st.scanners ∧ a.st.scanned t = p ∧ a.st.limit t = n ∧ a.st.cursor t = k ∧ a.Sees t i

theorem Holds.slotOf (hi : Inv a) (hh : Holds u i h p a.st) : a.slotOf u = i := by
  have := hi.tls_slot u (by simp [hh.1, Phase.listed])
  rw [hh.2.1] at this
  exact (Option.some.inj this).symm

theorem stable_walking (hlt : h < HAZARD_POINTERS) :
    ((orderly True).assuming (Holds u i h p)).Stable t (Walking t i p n k) := by
  intro v hv a b hi _ hg hw
  obtain ⟨hmem, hsc, hlim, hcur, hsees⟩ := hw
  have hslot := hi.2.slotOf hi.1
  refine ⟨(hg.scanners t hv.symm).mpr hmem, ?_, ?_, ?_, ?_⟩
  · rw [hg.scanned t hv.symm, hsc]
  · rw [hg.limit t hv.symm, hlim]
  · rw [hg.cursor t hv.symm, hcur]
  · rw [← hslot] at hsees ⊢
    refine hg.sees trivial t hv.symm hmem u h hi.2.1 hlt ?_ hsees
    rw [hslot, hsc]
    exact hi.2.2.2

/-- At the end of the prefix nothing can have been missed. -/
theorem Walking.lt (hi : Inv a) (hh : Holds u i h p a.st) (hw : Walking t i p n k a) : k < n := by
  obtain ⟨-, -, rfl, rfl, hlim, hsees⟩ := hw
  have hslot := hh.slotOf hi
  obtain ⟨j, hj⟩ := hi.exists_entry hh.1
  rw [hslot] at hj
  by_contra hle
  have hjlt := hlim j hj
  obtain ⟨hs, -, hcur⟩ := hsees j (by omega) hj
  -- the original of the copy lies ahead of the cursor and before the end
  have hlast := hlim _ (hi.copied_last hs hj)
  omega

/-- Reading an entry that does not name the slot. -/
theorem Walking.next (hi : Inv a) (hw : Walking t i p n k a) (hne : a.st.entries k ≠ some i) :
    Walking t i p n (k + 1) (a.look t k) := by
  obtain ⟨hmem, hsc, hlim, hcur, hsees⟩ := hw
  refine ⟨hmem, hsc, hlim, by simp [Aug.look], hsees.1, fun j hj he => ?_⟩
  have hj' : j < k + 1 := by simpa [Aug.look] using hj
  have he' : a.st.entries j = some i := he
  have hjk : j ≠ k := fun h => hne (h ▸ he')
  obtain ⟨hs, hp, hc⟩ := hsees.2 j (by omega) he'
  refine ⟨hs, hp, ?_⟩
  have hlast := hi.copied_last hs he'
  have hkc : a.st.count - 1 ≠ k := fun h => hne (h ▸ hlast)
  show (a.look t k).st.cursor t ≤ a.st.count - 1
  simp only [Aug.look, Function.update_self]
  omega

variable {α β : Type} {Q : α → Aug → Prop}

/-- The reads of a slot. -/
def Op.readsSlot {β : Type} : Op β → Bool
  | .loadOwner _ | .loadHp .. => true
  | _ => false

/-- Steps of thread `t` that only read slots keep the assertion, and so do other threads. -/
structure Kept (t : Nat) (P : State → Prop) (I : Aug → Prop) : Prop where
  stable : ((orderly True).assuming P).Stable t I
  quiet : ∀ a s', Inv a → I a → Quiet t a.st s' → s'.scanned = a.st.scanned →
    s'.scanners = a.st.scanners → I { a with st := s' }

theorem kept_true (P : State → Prop) : Kept t P fun _ => True :=
  ⟨Discipline.Stable.const, fun _ _ _ _ _ _ _ => trivial⟩

theorem kept_walking (hlt : h < HAZARD_POINTERS) : Kept t (Holds u i h p) (Walking t i p n k) where
  stable := stable_walking hlt
  quiet a s' hi hw hq hsc hmem := by
    obtain ⟨h1, h2, h3, h4, h5⟩ := hw
    refine ⟨?_, ?_, ?_, ?_, ?_⟩
    · simpa only [hmem] using h1
    · simpa only [hsc] using h2
    · simpa only [hq.limit] using h3
    · simpa only [hq.cursor] using h4
    · exact h5.keep hi hq.entries rfl hq.count.ge (fun _ _ => rfl)
        (fun _ hp => by simpa only [hq.passed] using hp) (by simp only [hq.limit])
        (by simp only [hq.cursor])

/-- Reading a slot. -/
theorem wp_readSlot {I : Aug → Prop} {o : Op β} {f : β → Code α} {R : β → Prop}
    (hI : Kept t (Holds u i h p) I) (ho : o.readsSlot = true) (hi : Inv a ∧ Holds u i h p a.st)
    (hw : I a)
    (hR : ∀ a b r s', Inv a → Holds u i h p a.st → action t b o a.st = some (r, s') → R r)
    (hf : ∀ a r, Inv a ∧ Holds u i h p a.st → I a → R r →
      ((orderly True).assuming (Holds u i h p)).WP t (f r) Q a) :
    ((orderly True).assuming (Holds u i h p)).WP t (.act o f) Q a := by
  refine Discipline.WP.act hI.stable hi hw fun a b r s' hi hw _ hact => ?_
  have hr := hR a b r s' hi.1 hi.2 hact
  have hquiet : o.quiet = true := by
    cases o <;> simp_all [Op.readsSlot, Op.quiet]
  have hq : Quiet t a.st s' := action_quiet hquiet hact
  have hsame : s'.hp = a.st.hp ∧ s'.scanned = a.st.scanned ∧ s'.scanners = a.st.scanners := by
    cases o <;> simp only [Op.readsSlot, Bool.false_eq_true] at ho <;> cases hact <;>
      exact ⟨rfl, rfl, rfl⟩
  have hh : Holds u i h p s' := by
    refine ⟨?_, ?_, ?_⟩
    · rw [hq.phase]
      exact hi.2.1
    · rw [hq.slot]
      exact hi.2.2.1
    · rw [hsame.1]
      exact hi.2.2.2
  have hi' : Inv { a with st := s' } ∧ Holds u i h p s' := ⟨hi.1.quiet hq, hh⟩
  exact ⟨{ a with st := s' }, rfl, hi', Guar.quiet hi.1 hq,
    hf _ r hi' (hI.quiet a s' hi.1 hw hq hsame.2.1 hsame.2.2) hr⟩

/-- Walking over the pointers of a slot; those of slot `i` contain the one that is held. -/
theorem wp_publishes {I : Aug → Prop} (hI : Kept t (Holds u i h p) I) (j : Nat)
    (hlt : h < HAZARD_POINTERS) (hi : Inv a ∧ Holds u i h p a.st) (hw : I a) :
    ((orderly True).assuming (Holds u i h p)).WP t (publishes j p)
      (fun r a => I a ∧ (j = i → r = true)) a := by
  have hstable : ∀ C : Prop, ((orderly True).assuming (Holds u i h p)).Stable t fun a =>
      I a ∧ C := fun C => hI.stable.and Discipline.Stable.const
  refine Discipline.WP.loop (I := fun l a => I a ∧ (j = i → l ≤ h))
    (fun l => hstable _) hi ⟨hw, fun _ => Nat.zero_le h⟩ fun l a hi hw => ?_
  simp only [Prog.bind_eq, Prog.perform_bind, Prog.pure_eq]
  split
  · refine wp_readSlot (R := fun r => j = i → l = h → r = some p) hI rfl hi hw.1 ?_ ?_
    · intro a b r s' _ hh hact hji hlh
      cases hact
      rw [hji, hlh]
      exact hh.2.2
    · intro a r hi hw' hr
      split
      · exact Discipline.WP.ret (Discipline.WP.stable _ _) hi
          (Discipline.WP.ret (hstable _) hi ⟨hw', fun _ => rfl⟩)
      · next hne =>
        refine Discipline.WP.ret (hstable _) hi ⟨hw', fun hji => ?_⟩
        have hle := hw.2 hji
        have hlh : l ≠ h := fun he => hne (hr hji he)
        omega
  · next hnl =>
    refine Discipline.WP.ret (Discipline.WP.stable _ _) hi
      (Discipline.WP.ret (hstable _) hi ⟨hw.1, fun hji => ?_⟩)
    have := hw.2 hji
    omega

/-- While a registered thread publishes `p`, a call of `is_protected(p)` answers true. -/
theorem wp_isProtected (hlt : h < HAZARD_POINTERS) (hi : Inv a ∧ Holds u i h p a.st)
    (hidle : Idle t a) (hmem : t ∈ a.st.scanners) (hsc : a.st.scanned t = p) :
    ((orderly True).assuming (Holds u i h p)).WP t (isProtected p) (fun r _ => r = true) a := by
  have hstart : ((orderly True).assuming (Holds u i h p)).Stable t fun a =>
      Idle t a ∧ t ∈ a.st.scanners ∧ a.st.scanned t = p := by
    intro v hv a b hi hi' hg hw
    refine ⟨stable_idle v hv a b hi.1 hi'.1 hg hw.1, ?_, ?_⟩
    · exact (hg.scanners t hv.symm).mpr hw.2.1
    · rw [hg.scanned t hv.symm]
      exact hw.2.2
  have hwalking : ∀ n k, ((orderly True).assuming (Holds u i h p)).Stable t
      (Walking t i p n k) := fun n k => stable_walking hlt
  have htrue : ∀ a, Inv a ∧ Holds u i h p a.st →
      ((orderly True).assuming (Holds u i h p)).WP t (.ret true) (fun r _ => r = true) a :=
    fun a hi => Discipline.WP.ret (Q := fun (r : Bool) _ => r = true) Discipline.Stable.const hi rfl
  refine Discipline.WP.act hstart hi ⟨hidle, hmem, hsc⟩ fun a b r s' hi hw _ hact => ?_
  obtain ⟨hidle, hmem, hsc⟩ := hw
  have hph : a.st.phase t ≠ .released := by
    rcases hidle with h | h <;> simp [h]
  simp only [registry, action, orderly, Discipline.assuming, if_neg hph, Option.some.injEq,
    Prod.mk.injEq] at hact
  obtain ⟨rfl, rfl⟩ := hact
  have hi' : Inv (a.walk t) ∧ Holds u i h p (a.walk t).st := ⟨hi.1.walk, hi.2⟩
  refine ⟨a.walk t, rfl, hi', Guar.walk hi.1, ?_⟩
  have hwalk : Walking t i p a.st.count 0 (a.walk t) := by
    refine ⟨hmem, hsc, by simp [Aug.walk], by simp [Aug.walk], ?_, ?_⟩
    · intro j hj
      simp only [Aug.walk, Function.update_self]
      exact hi.1.lt_count hj
    · intro j hj
      simp [Aug.walk] at hj
  have hn := hi.1.count_le
  rw [Prog.ret_bind]
  generalize a.st.count = n at hwalk hn ⊢
  refine Discipline.WP.loop (I := fun k a => Walking t i p n k a) (hwalking n) hi'
    hwalk fun k a hi hw => ?_
  have hkn := hw.lt hi.1 hi.2
  simp only [Prog.bind_eq, Prog.perform_bind, Prog.pure_eq, if_pos hkn]
  refine Discipline.WP.act (hwalking n k) hi hw fun a b r s' hi hw _ hact => ?_
  simp only [registry, action, orderly, Discipline.assuming, Option.some.injEq,
    Prod.mk.injEq] at hact
  obtain ⟨hr, rfl⟩ := hact
  have hi' : Inv (a.look t k) ∧ Holds u i h p (a.look t k).st :=
    ⟨hi.1.look (lt_of_lt_of_le hkn hn), hi.2⟩
  refine ⟨a.look t k, rfl, hi', Guar.look hi.1, ?_⟩
  by_cases hri : r = some i
  · -- the slot of the holder: its owner is there and its pointers contain `p`
    subst hri
    refine wp_readSlot (R := fun w => w ≠ 0) (kept_true _) rfl hi' trivial ?_
      fun a w hi _ hwn => ?_
    · intro a b w s' hi hh hact
      cases hact
      exact (hi.owner i).mpr ⟨u, by simp [hh.1, Phase.owns], hh.slotOf hi⟩
    · rw [if_neg hwn]
      refine Discipline.WP.bind (Discipline.WP.mono (fun r a hi hr => ?_)
        (wp_publishes (kept_true _) i hlt hi trivial))
      rw [hr.2 rfl, if_pos rfl]
      exact Discipline.WP.ret (Discipline.WP.stable _ _) hi (htrue _ hi)
  · have hw' := hw.next hi.1 fun he => hri (hr.symm.trans he)
    have hnext : ∀ a, Inv a ∧ Holds u i h p a.st → Walking t i p n (k + 1) a →
        ((orderly True).assuming (Holds u i h p)).WP t (.ret (.inl (k + 1)) : Code (Nat ⊕ Bool))
          (fun r s => Sum.elim (fun k => Walking t i p n k s) (fun b =>
            ((orderly True).assuming (Holds u i h p)).WP t (.ret b) (fun r _ => r = true) s) r)
          a :=
      fun a hi hw => Discipline.WP.ret (hwalking n (k + 1)) hi hw
    cases r with
    | none => exact hnext _ hi' hw'
    | some j =>
      refine wp_readSlot (R := fun _ => True) (kept_walking hlt) rfl hi' hw'
        (fun _ _ _ _ _ _ _ => trivial) fun a w hi hw _ => ?_
      split
      · exact hnext _ hi hw
      · refine Discipline.WP.bind (Discipline.WP.mono (fun r a hi hr => ?_)
          (wp_publishes (kept_walking hlt) j hlt hi hw))
        split
        · exact Discipline.WP.ret (Discipline.WP.stable _ _) hi (htrue _ hi)
        · exact hnext _ hi hr.1

end Walk

/-! ## Every run -/

/-- In orderly runs in which no removal clears the last entry while a walk that has passed its copy
and not yet come to it looks for a pointer it publishes, a call of `is_protected(p)` during which a
registered thread publishes `p` in one of its hazards answers true. -/
theorem isProtected_of_held (t u i h : Nat) (p : Ptr) (r : Bool) (hlt : h < HAZARD_POINTERS)
    (c : Config Op State Call Bool)
    (hc : registry.During (fun t o s => Orderly t o s ∧ Unmissed t o s) State.init (Holds u i h p)
      t (.isProtected p) c)
    (hr : c.thread t = some (.isProtected p, .ret r)) : r = true := by
  have hc' : registry.During (orderly True).ok State.init (Holds u i h p) t (.isProtected p) c :=
    hc.mono fun t o s ho => ⟨ho.1, fun _ => ho.2⟩
  have hop : ∀ a s', (orderly True).inv a → Idle t a →
      registry.invoke t (.isProtected p) ((orderly True).erase a) = some s' →
      Holds u i h p s' → ∃ b, (orderly True).erase b = s' ∧ (orderly True).guar t a b ∧
        ((orderly True).assuming (Holds u i h p)).WP t (registry.code (.isProtected p))
          (fun r _ => r = true) b := by
    intro a s' hi hidle hinv hP
    have hq := invoke_quiet (t := t) (c := .isProtected p) (s := a.st) hinv
    cases hinv
    exact ⟨{ a with st := _ }, rfl, Guar.quiet hi hq, wp_isProtected hlt ⟨hi.quiet hq, hP⟩
      (hidle.quiet hq) (by simp) (by simp)⟩
  obtain ⟨a, -, -, -, hQ⟩ := Discipline.during_ret (covers_orderly True) hop inv_init
    (fun _ => .inl ⟨rfl, rfl⟩) hc' hr
  exact hQ

/-! ## A run that misses a hazard -/

/-- Threads 0 and 1 register, thread 1 publishing 6. -/
def registerTwo : List (Label Call) :=
  [.call 0 (.protect 0 (some 5))] ++ steps 0 8 ++ [.ret 0] ++
  [.call 1 (.protect 0 (some 6))] ++ steps 1 10 ++ [.ret 1]

/-- Thread 0 exits, up to the read of the last entry. -/
def leaveOne : List (Label Call) := registerTwo ++ [.call 0 .exit] ++ steps 0 13

/-- Thread 2 walks over position 0, thread 0 moves the last entry there and clears it, thread 2
walks on. -/
def overtaken : List (Label Call) := steps 2 4 ++ steps 0 3 ++ steps 2 3

/-- A walk can miss a pointer that a registered thread publishes during the whole call. -/
theorem missed_hazard :
    ¬ ∀ (t u i h : Nat) (p : Ptr) (r : Bool) (c : Config Op State Call Bool), h < HAZARD_POINTERS →
      registry.During SharedObject.anyAction State.init (Holds u i h p) t (.isProtected p) c →
      c.thread t = some (.isProtected p, .ret r) → r = true := by
  intro hall
  have hrun : ((registry.exec (SharedObject.start State.init) leaveOne).bind fun c =>
      (registry.next c (.call 2 (.isProtected 6))).bind fun d =>
        (registry.execDuring (fun _ _ _ => true) (fun s => decide (Holds 1 1 0 6 s)) 2 d
          overtaken).map fun e => (decide (Holds 1 1 0 6 c.shared), decide (Holds 1 1 0 6 d.shared),
            e.answered 2)) = some (true, true, some (.isProtected 6, false)) := by rfl
  obtain ⟨c, hc, hrun⟩ := Option.bind_eq_some_iff.mp hrun
  obtain ⟨d, hd, hrun⟩ := Option.bind_eq_some_iff.mp hrun
  obtain ⟨e, he, hval⟩ := Option.map_eq_some_iff.mp hrun
  simp only [Prod.mk.injEq, decide_eq_true_eq] at hval
  obtain ⟨hPc, hPd, hret⟩ := hval
  have hduring := registry.during_execDuring (fun _ _ _ _ => trivial)
    (fun _ _ _ hs => of_decide_eq_true hs) overtaken
    (.call (registry.reachable_exec leaveOne hc) hPc hd hPd) he
  have hthread := Config.thread_of_answered hret
  cases hall 2 1 1 0 6 false e (by decide) hduring hthread

/-- `Unmissed` as a test. -/
def unmissedTest {β : Type} (t : Nat) (o : Op β) (s : State) : Bool :=
  match o with
  | .storeEntry k none => s.phase t ≠ .moving ∨ ∀ u ∈ s.passed t, s.cursor u > k ∨ s.limit u ≤ k ∨
      ∀ h < HAZARD_POINTERS, s.hp ((s.entries k).getD 0) h ≠ some (s.scanned u)
  | _ => true

theorem unmissedTest_sound {β : Type} (t : Nat) (o : Op β) (s : State)
    (h : unmissedTest t o s = true) : Unmissed t o s := by
  cases o
  case storeEntry k v =>
    cases v with
    | some i => trivial
    | none =>
      simp only [unmissedTest, decide_eq_true_eq] at h
      intro hph u hu hcur hlim i hi l hl
      have := (h.resolve_left (not_not.mpr hph)) u hu
      simp only [hi, Option.getD_some] at this
      exact (this.resolve_left (by omega)).resolve_left (by omega) l hl
  all_goals trivial

/-- Thread 0 moves the last entry while thread 2 is still before position 0. -/
def inTime : List (Label Call) := steps 2 2 ++ steps 0 4 ++ steps 2 4

/-- The scan finds the entry at the place that it has been moved to. -/
theorem isProtected_of_held_run :
    ∃ c r, registry.During (fun t o s => Orderly t o s ∧ Unmissed t o s) State.init
      (Holds 1 1 0 6) 2 (.isProtected 6) c ∧
      c.thread 2 = some (.isProtected 6, .ret r) ∧ r = true := by
  have hrun : ((registry.execIf (fun t o s => orderlyTest t o s && unmissedTest t o s)
      (SharedObject.start State.init) leaveOne).bind fun c =>
      (registry.next c (.call 2 (.isProtected 6))).bind fun d =>
        (registry.execDuring (fun t o s => orderlyTest t o s && unmissedTest t o s)
          (fun s => decide (Holds 1 1 0 6 s)) 2 d inTime).map fun e =>
            (decide (Holds 1 1 0 6 c.shared), decide (Holds 1 1 0 6 d.shared),
              e.answered 2)) = some (true, true, some (.isProtected 6, true)) := by rfl
  obtain ⟨c, hc, hrun⟩ := Option.bind_eq_some_iff.mp hrun
  obtain ⟨d, hd, hrun⟩ := Option.bind_eq_some_iff.mp hrun
  obtain ⟨e, he, hval⟩ := Option.map_eq_some_iff.mp hrun
  simp only [Prod.mk.injEq, decide_eq_true_eq] at hval
  obtain ⟨hPc, hPd, hret⟩ := hval
  have hsound : ∀ {β : Type} (t : Nat) (o : Op β) (s : State),
      (orderlyTest t o s && unmissedTest t o s) = true → Orderly t o s ∧ Unmissed t o s := by
    intro β t o s h
    obtain ⟨h1, h2⟩ := Bool.and_eq_true_iff.mp h
    exact ⟨orderlyTest_sound t o s h1, unmissedTest_sound t o s h2⟩
  have hduring := registry.during_execDuring hsound (fun _ _ _ hs => of_decide_eq_true hs) inTime
    (.call (registry.reach_execIf hsound leaveOne .start hc) hPc hd hPd) he
  have hthread := Config.thread_of_answered hret
  exact ⟨e, true, hduring, hthread,
    isProtected_of_held 2 1 1 0 6 true (by decide) e hduring hthread⟩

end MpmcMap.Reclaim.Hazard
