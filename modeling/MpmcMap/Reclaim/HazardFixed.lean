import MpmcMap.Reclaim.HazardComplete

/-!
# Scans of a registry that does not change

While no thread registers or leaves, `is_protected` reads the entries of a fixed prefix. What it
must not miss is described by the slots that are *due*: `Scanner.wp_isProtected` shows that a call
which answers false leaves no slot due, for any notion of due slots that other threads cannot
enlarge and that the walk over the pointers of a slot settles.
-/

namespace MpmcMap.Reclaim.Hazard

open Conc
open Function (update)

/-- Every thread of `ts` owns a slot of its own, and the slot is listed. -/
structure Members (ts : Finset Nat) (s : State) : Prop where
  slot : ∀ t ∈ ts, ∃ i, (s.tls t).slot = some i ∧ s.owner i ≠ 0 ∧
    ∃ k < s.count, s.entries k = some i
  phase : ∀ t ∈ ts, s.phase t = .registered
  inj : ∀ t ∈ ts, ∀ u ∈ ts, (s.tls t).slot = (s.tls u).slot → t = u

/-- Threads `0`, ..., `n - 1` are registered, each with the slot of its number. -/
def State.registered (n : Nat) : State :=
  { State.init with
    owner := fun i => if i < n then i + 1 else 0
    count := n
    entries := fun k => if k < n then some k else none
    tls := fun t => if t < n then { ThreadState.init with slot := some t } else .init
    phase := fun t => if t < n then .registered else .away
    members := Finset.range n }

theorem members_registered (n : Nat) : Members (Finset.range n) (.registered n) where
  slot t ht := by
    have ht := Finset.mem_range.mp ht
    exact ⟨t, by simp [State.registered, ht], by simp [State.registered, ht], t, ht,
      by simp [State.registered, ht]⟩
  phase t ht := by simp [State.registered, Finset.mem_range.mp ht]
  inj t ht u hu h := by
    simpa [State.registered, Finset.mem_range.mp ht, Finset.mem_range.mp hu] using h

/-- The registry and the slots of the threads are those of `s₀`. -/
structure Frozen (s₀ s : State) : Prop where
  owner : s.owner = s₀.owner
  count : s.count = s₀.count
  entries : s.entries = s₀.entries
  phase : s.phase = s₀.phase
  slot : ∀ t, (s.tls t).slot = (s₀.tls t).slot

/-- A step of a walk of thread `t` over the registry. -/
structure WalkStep (t : Nat) (s s' : State) : Prop where
  same : s' = { s with
    touched := s'.touched, cursor := s'.cursor, limit := s'.limit, passed := s'.passed
    reading := s'.reading }
  reading : ∀ u, u ≠ t → s'.reading u = s.reading u

theorem WalkStep.frozen {t : Nat} {s₀ s s' : State} (h : WalkStep t s s') (hf : Frozen s₀ s) :
    Frozen s₀ s' := by
  rw [h.same]
  exact ⟨hf.owner, hf.count, hf.entries, hf.phase, hf.slot⟩

/-- A registered thread finds its slot. -/
theorem wp_atSlot {Call Ret A α : Type} {Y : SharedObject Op State Call Ret} {D : Discipline Y A}
    {t i : Nat} {f : Nat → Code α} {P : A → Prop} {Q : α → A → Prop} {a : A}
    (hact : ∀ {β : Type} (b : Bool) (o : Op β) (s : State), Y.action t b o s = action t b o s)
    (hrefl : ∀ a, D.guar t a a) (hslot : ∀ a, D.inv a → ((D.erase a).tls t).slot = some i)
    (hP : D.Stable t P) (hi : D.inv a) (h : P a) (hf : ∀ a, D.inv a → P a → D.WP t (f i) Q a) :
    D.WP t (slot.bind f) Q a := by
  refine Discipline.WP.act hP hi h fun a b r s' hi h _ hgo => ?_
  rw [hact] at hgo
  simp only [action, Option.some.injEq, Prod.mk.injEq] at hgo
  obtain ⟨rfl, rfl⟩ := hgo
  refine ⟨a, rfl, hi, hrefl a, ?_⟩
  simp only [Prog.ret_bind, hslot a hi]
  exact hf a hi h

/-- A thread that looks for `cur` under an assertion `I`; `due` are the slots that it must not
miss, and `ahead a i h` says that what makes slot `i` due is seen at hazard `h` or later. -/
structure Scanner {Call Ret A : Type} {Y : SharedObject Op State Call Ret} (D : Discipline Y A)
    (s₀ : State) (t : Nat) (cur : Ptr) (I : A → Prop) (due : A → Nat → Prop)
    (ahead : A → Nat → Nat → Prop) (lift : A → State → A) : Prop where
  action : ∀ {β : Type} (b : Bool) (o : Op β) (s : State),
    Y.action t b o s = Hazard.action t b o s
  phase : s₀.phase t ≠ .released
  frozen : ∀ a, D.inv a → Frozen s₀ (D.erase a)
  erase_lift : ∀ a s, D.erase (lift a s) = s
  lift_erase : ∀ a, lift a (D.erase a) = a
  walk : ∀ a s', D.inv a → I a → WalkStep t (D.erase a) s' →
    D.inv (lift a s') ∧ D.guar t a (lift a s') ∧ I (lift a s') ∧
      ∀ i, due (lift a s') i → due a i
  stable : D.Stable t I
  due_stable : ∀ u, u ≠ t → ∀ a b, D.inv a → D.inv b → D.guar u a b → I a → ∀ i,
    due b i → due a i
  ahead_stable : ∀ u, u ≠ t → ∀ a b, D.inv a → D.inv b → D.guar u a b → I a → ∀ i h,
    due b i → ahead a i h → ahead b i h
  owned : ∀ a i, D.inv a → due a i → s₀.owner i ≠ 0
  listed : ∀ a i, D.inv a → due a i → ∃ k < s₀.count, s₀.entries k = some i
  ahead_zero : ∀ a i, D.inv a → I a → due a i → ahead a i 0
  ahead_next : ∀ a i h, D.inv a → I a → due a i → ahead a i h → h < HAZARD_POINTERS →
    (D.erase a).hp i h ≠ some cur →
    ahead (lift a { D.erase a with reading := update (D.erase a).reading t (some (i, h)) }) i (h + 1)
  ahead_end : ∀ a i, D.inv a → I a → due a i → ¬ ahead a i HAZARD_POINTERS

namespace Scanner

variable {Call Ret A : Type} {Y : SharedObject Op State Call Ret} {D : Discipline Y A}
  {s₀ : State} {t : Nat} {cur : Ptr} {I : A → Prop} {due : A → Nat → Prop}
  {ahead : A → Nat → Nat → Prop} {lift : A → State → A} {a : A}

/-- Whatever is due stands at entry `k` or later. -/
def AtEntry (s₀ : State) (I : A → Prop) (due : A → Nat → Prop) (k : Nat) (a : A) : Prop :=
  I a ∧ ∀ i, due a i → ∃ j, k ≤ j ∧ j < s₀.count ∧ s₀.entries j = some i

/-- Whatever is due stands after entry `k`, or is slot `i` and ahead of hazard `h`. -/
def AtHazard (s₀ : State) (I : A → Prop) (due : A → Nat → Prop) (ahead : A → Nat → Nat → Prop)
    (k i h : Nat) (a : A) : Prop :=
  I a ∧ ∀ j, due a j → (∃ l, k + 1 ≤ l ∧ l < s₀.count ∧ s₀.entries l = some j) ∨
    (j = i ∧ ahead a i h)

theorem stable_atEntry (S : Scanner D s₀ t cur I due ahead lift) (k : Nat) :
    D.Stable t (AtEntry s₀ I due k) := fun u hu a b hi hi' hg h =>
  ⟨S.stable u hu a b hi hi' hg h.1, fun i hd => h.2 i (S.due_stable u hu a b hi hi' hg h.1 i hd)⟩

theorem stable_atHazard (S : Scanner D s₀ t cur I due ahead lift) (k i h : Nat) :
    D.Stable t (AtHazard s₀ I due ahead k i h) := by
  intro u hu a b hi hi' hg hw
  refine ⟨S.stable u hu a b hi hi' hg hw.1, fun j hd => ?_⟩
  refine (hw.2 j (S.due_stable u hu a b hi hi' hg hw.1 j hd)).imp_right fun ⟨hj, ha⟩ => ⟨hj, ?_⟩
  subst hj
  exact S.ahead_stable u hu a b hi hi' hg hw.1 j h hd ha

theorem stable_none (S : Scanner D s₀ t cur I due ahead lift) (C : Prop) :
    D.Stable t fun a => I a ∧ (C → ∀ i, ¬ due a i) := fun u hu a b hi hi' hg h =>
  ⟨S.stable u hu a b hi hi' hg h.1,
    fun hc i hd => h.2 hc i (S.due_stable u hu a b hi hi' hg h.1 i hd)⟩

/-- The walk over the pointers of slot `i`. -/
theorem wp_publishes (S : Scanner D s₀ t cur I due ahead lift) {k i : Nat} (hi : D.inv a)
    (hw : AtHazard s₀ I due ahead k i 0 a) :
    D.WP t (publishes i cur)
      (fun r a => I a ∧ (r = false → AtEntry s₀ I due (k + 1) a)) a := by
  have hpost : ∀ r : Bool, D.Stable t fun a =>
      I a ∧ (r = false → AtEntry s₀ I due (k + 1) a) := fun r =>
    S.stable.and (Discipline.Stable.imp fun _ => S.stable_atEntry (k + 1))
  refine Discipline.WP.loop
    (I := fun h a => h ≤ HAZARD_POINTERS ∧ AtHazard s₀ I due ahead k i h a)
    (fun h => Discipline.Stable.const.and (S.stable_atHazard k i h)) hi ⟨Nat.zero_le _, hw⟩
    fun h a hi hw => ?_
  simp only [Prog.bind_eq, Prog.perform_bind, Prog.pure_eq]
  split
  · next hlt =>
    refine Discipline.WP.act (S.stable_atHazard k i h) hi hw.2 fun a b r s' hi hw _ hact => ?_
    rw [S.action] at hact
    simp only [Hazard.action, Option.some.injEq, Prod.mk.injEq] at hact
    obtain ⟨rfl, rfl⟩ := hact
    -- a read concerns the scanner alone
    have hstep : WalkStep t (D.erase a)
        { D.erase a with reading := update (D.erase a).reading t (some (i, h)) } :=
      ⟨rfl, fun u hu => Function.update_of_ne hu _ _⟩
    obtain ⟨hi', hg, hI, hdue⟩ := S.walk a _ hi hw.1 hstep
    refine ⟨_, S.erase_lift _ _, hi', hg, ?_⟩
    split
    · exact Discipline.WP.ret (Discipline.WP.stable _ _) hi'
        (Discipline.WP.ret (hpost _) hi' ⟨hI, fun he => by cases he⟩)
    · next hne =>
      refine Discipline.WP.ret (Discipline.Stable.const.and (S.stable_atHazard k i _)) hi'
        ⟨hlt, hI, fun j hd => ?_⟩
      apply (hw.2 j (hdue j hd)).imp_right
      rintro ⟨rfl, ha⟩
      exact ⟨rfl, S.ahead_next a j h hi hw.1 (hdue j hd) ha hlt hne⟩
  · next hge =>
    obtain rfl : h = HAZARD_POINTERS := Nat.le_antisymm hw.1 (Nat.not_lt.mp hge)
    refine Discipline.WP.ret (Discipline.WP.stable _ _) hi
      (Discipline.WP.ret (hpost _) hi ⟨hw.2.1, fun _ => ⟨hw.2.1, fun j hd => ?_⟩⟩)
    rcases hw.2.2 j hd with hl | ⟨rfl, ha⟩
    · exact hl
    · exact absurd ha (S.ahead_end a j hi hw.2.1 hd)

/-- A call of `is_protected` that answers false leaves nothing due. -/
theorem wp_isProtected (S : Scanner D s₀ t cur I due ahead lift) (hi : D.inv a) (hI : I a) :
    D.WP t (isProtected cur) (fun r a => I a ∧ (r = false → ∀ i, ¬ due a i)) a := by
  refine Discipline.WP.act S.stable hi hI fun a b n s' hi hI _ hact => ?_
  have hf := S.frozen a hi
  have hph : (D.erase a).phase t ≠ .released := by
    rw [hf.phase]
    exact S.phase
  rw [S.action] at hact
  simp only [Hazard.action, if_neg hph, Option.some.injEq, Prod.mk.injEq] at hact
  obtain ⟨rfl, rfl⟩ := hact
  obtain ⟨hi', hg, hI', -⟩ := S.walk a { D.erase a with
    cursor := update (D.erase a).cursor t 0
    limit := update (D.erase a).limit t (D.erase a).count
    passed := fun u => ((D.erase a).passed u).erase t } hi hI ⟨rfl, fun _ _ => rfl⟩
  refine ⟨_, S.erase_lift _ _, hi', hg, ?_⟩
  generalize lift a _ = b at hi' hI' ⊢
  rw [Prog.ret_bind, hf.count]
  refine Discipline.WP.loop (I := AtEntry s₀ I due) S.stable_atEntry hi' ⟨hI', fun i hd => ?_⟩
    fun k a hi hw => ?_
  · obtain ⟨k, hk, he⟩ := S.listed _ i hi' hd
    exact ⟨k, Nat.zero_le k, hk, he⟩
  have hdone : ∀ r a, D.inv a → I a ∧ (r = false → ∀ i, ¬ due a i) →
      D.WP t (.ret (.inr r)) (fun r s => Sum.elim (fun k => AtEntry s₀ I due k s)
        (fun b => D.WP t (.ret b) (fun r a => I a ∧ (r = false → ∀ i, ¬ due a i)) s) r) a :=
    fun r a hi h => Discipline.WP.ret (Discipline.WP.stable _ _) hi
      (Discipline.WP.ret (S.stable_none _) hi h)
  have hnext : ∀ a, D.inv a → AtEntry s₀ I due (k + 1) a →
      D.WP t (.ret (.inl (k + 1)) : Code (Nat ⊕ Bool)) (fun r s =>
        Sum.elim (fun k => AtEntry s₀ I due k s) (fun b => D.WP t (.ret b)
          (fun r a => I a ∧ (r = false → ∀ i, ¬ due a i)) s) r) a :=
    fun a hi h => Discipline.WP.ret (S.stable_atEntry (k + 1)) hi h
  simp only [Prog.bind_eq, Prog.perform_bind, Prog.pure_eq]
  split
  · refine Discipline.WP.act (S.stable_atEntry k) hi hw fun a b r s' hi hw _ hact => ?_
    rw [S.action] at hact
    simp only [Hazard.action, Option.some.injEq, Prod.mk.injEq] at hact
    obtain ⟨rfl, rfl⟩ := hact
    have hentries := (S.frozen a hi).entries
    obtain ⟨hi', hg, hI', hdue⟩ := S.walk a { D.erase a with
      touched := (D.erase a).touched ++ [k]
      cursor := update (D.erase a).cursor t (k + 1)
      reading := update (D.erase a).reading t none } hi hw.1
        ⟨rfl, fun u hu => Function.update_of_ne hu _ _⟩
    refine ⟨_, S.erase_lift _ _, hi', hg, ?_⟩
    generalize lift a _ = b at hi' hI' hdue ⊢
    rw [hentries]
    -- what is due and not named by this entry stands after it
    have hafter : ∀ j, s₀.entries k ≠ some j → due a j →
        ∃ l, k + 1 ≤ l ∧ l < s₀.count ∧ s₀.entries l = some j := by
      intro j hne hd
      obtain ⟨l, hl, hlt, he⟩ := hw.2 j hd
      refine ⟨l, Nat.lt_of_le_of_ne hl ?_, hlt, he⟩
      rintro rfl
      exact hne he
    cases hent : s₀.entries k with
    | none =>
      exact hnext _ hi' ⟨hI', fun j hd => hafter j (by simp [hent]) (hdue j hd)⟩
    | some i =>
      refine Discipline.WP.act (S.stable_atHazard k i 0) hi' ⟨hI', fun j hd => ?_⟩
        fun a b r s' hi hw _ hact => ?_
      · by_cases hji : j = i
        · subst hji
          exact .inr ⟨rfl, S.ahead_zero _ j hi' hI' hd⟩
        · exact .inl (hafter j (by rw [hent]; exact fun he => hji (Option.some.inj he).symm)
            (hdue j hd))
      · rw [S.action] at hact
        simp only [Hazard.action, Option.some.injEq, Prod.mk.injEq] at hact
        obtain ⟨rfl, rfl⟩ := hact
        have hown := (S.frozen a hi).owner
        obtain ⟨-, hg, -, -⟩ := S.walk a (D.erase a) hi hw.1 ⟨rfl, fun _ _ => rfl⟩
        rw [S.lift_erase] at hg
        refine ⟨a, rfl, hi, hg, ?_⟩
        rw [hown]
        split
        · next hzero =>
          -- the slot is not owned, so it is not due
          refine hnext a hi ⟨hw.1, fun j hd => (hw.2 j hd).resolve_right ?_⟩
          rintro ⟨rfl, -⟩
          exact S.owned a j hi hd hzero
        · refine Discipline.WP.bind (Discipline.WP.mono (fun r a hi hr => ?_)
            (S.wp_publishes hi hw))
          cases r with
          | true => exact hdone true a hi ⟨hr.1, fun he => by cases he⟩
          | false => exact hnext a hi (hr.2 rfl)
  · next hge =>
    refine hdone false a hi ⟨hw.1, fun _ i hd => ?_⟩
    obtain ⟨j, hj, hlt, -⟩ := hw.2 i hd
    omega

end Scanner

end MpmcMap.Reclaim.Hazard
