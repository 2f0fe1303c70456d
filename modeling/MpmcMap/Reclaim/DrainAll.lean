import MpmcMap.Reclaim.Accounting
import MpmcMap.Reclaim.HazardHandover
import MpmcMap.Reclaim.LateAlone

/-!
# What the destructor's drain leaves

`drain_all` of both reclaimers, called by the only thread that has not exited. The epoch reclaimer
frees everything. The hazard-pointer reclaimer keeps what the slots in its registry publish, the
caller's own included, whose pointers nobody has cleared.
-/

namespace MpmcMap.Reclaim

open Conc SharedObject

/-- Nothing is outstanding, the accepted objects are those of the calls of `retire` that have
returned, and the action of each has run exactly once. -/
structure Books.Drained (b : Books) : Prop where
  outstanding : b.outstanding = 0
  late : b.late = none
  returned : b.returned.Perm b.accepted
  once : ∀ x ∈ b.accepted, b.ran.count x = 1

theorem Books.Balanced.drained {b : Books} {lists : Nat → List Entry} (hb : b.Balanced lists)
    (hr : b.RunOnce) (hret : b.returned.Perm b.accepted) (hlists : ∀ t, lists t = [])
    (hlate : b.late = none) : b.Drained := by
  obtain ⟨late, hchain, -, -, hplaces, -⟩ := hb.places
  have hnil : late = [] := by
    cases late with
    | nil => rfl
    | cons c L =>
      rw [hlate] at hchain
      cases hchain.1
  have hall : ∀ x ∈ b.accepted, x ∈ b.ran := by
    intro x hx
    by_contra hran
    obtain ⟨h, hh⟩ := (hplaces x).mp ⟨hx, hran⟩
    cases h with
    | none => simp [holding, hnil] at hh
    | some t => simp [holding, hlists t] at hh
  refine ⟨?_, hlate, hret, fun x hx => ?_⟩
  · rw [hb.outstanding, List.length_eq_zero_iff, List.filter_eq_nil_iff]
    intro x hx
    simpa using hall x hx
  · exact List.count_eq_one_of_mem (List.Nodup.of_map _ hr.nodup) (hall x hx)

/-- `p` is on the late chain. -/
def Books.OnLate (b : Books) (p : Ptr) : Prop :=
  ∃ L, Chain b.orphan b.late L none ∧ p ∈ L.map fun c => c.2.1

/-! ## The epoch reclaimer -/

namespace Epoch

open Account

variable {t n : Nat} {s : State}

/-- The chain is the one of `s₀`. -/
def SameLate (s₀ s : State) : Prop := s.late = s₀.late ∧ s.orphans = s₀.orphans

/-- The epochs, the guards and the other threads are those of `s₀`, and nothing has been retired. -/
structure Aside (t : Nat) (s₀ s : State) : Prop where
  global : s.global = s₀.global
  active : s.active = s₀.active
  phase : s.phase = s₀.phase
  others : ∀ u, u ≠ t → s.tls u = s₀.tls u
  accepted : s.accepted = s₀.accepted

theorem Aside.refl (t : Nat) (s : State) : Aside t s s := ⟨rfl, rfl, rfl, fun _ _ => rfl, rfl⟩

theorem Aside.trans {s₀ s₁ s₂ : State} (h : Aside t s₀ s₁) (h' : Aside t s₁ s₂) :
    Aside t s₀ s₂ :=
  ⟨h'.global.trans h.global, h'.active.trans h.active, h'.phase.trans h.phase,
    fun u hu => (h'.others u hu).trans (h.others u hu), h'.accepted.trans h.accepted⟩

/-- The lists of one tag of the thread have been emptied. -/
structure Cleared (t tag : Nat) (s₀ s : State) : Prop where
  aside : Aside t s₀ s
  late : SameLate s₀ s
  own : s.tls t = { s₀.tls t with
    retiredTotal := (s.tls t).retiredTotal
    retired := upd (s₀.tls t).retired tag []
    retiredActions := upd (s₀.tls t).retiredActions tag [] }

theorem ends_freeTagged (tag : Nat) :
    Ends (accounts.alone t) (fun _ s' => Cleared t tag s s'.1) (freeTagged tag) (s, n) := by
  unfold freeTagged
  simp only [Prog.bind_eq, Prog.perform_bind, Prog.pure_eq]
  refine alone_act ⟨_, rfl⟩ fun _ ts s₁ m hact _ => ?_
  cases hact
  refine alone_act ⟨_, rfl⟩ fun _ _ s₁ m hact _ => ?_
  cases hact
  -- the loop only runs the actions
  let I : Nat → Nat → State × Nat → Prop := fun v i s' =>
    v = ((s.tls t).retired tag).length - i ∧ Aside t s s'.1 ∧ SameLate s s'.1 ∧
      s'.1.tls t = { s.tls t with retiredTotal := (s'.1.tls t).retiredTotal }
  have hothers : ∀ (ts : ThreadState) (u : Nat), u ≠ t → upd s.tls t ts u = s.tls u :=
    fun ts u hu => upd_other _ _ hu
  refine Ends.bind (Q := fun _ s' => ∃ v i, I v i s') (Ends.iterate wellFounded_lt (I := I)
    ⟨rfl, ⟨rfl, rfl, rfl, hothers _, rfl⟩, ⟨rfl, rfl⟩, by simp only [upd_same]⟩
    fun v i s' hI => ?_) fun _ s' hs => ?_
  · obtain ⟨rfl, haside, hlate, hown⟩ := hI
    obtain ⟨s', n'⟩ := s'
    split
    · next hlt =>
      refine alone_act ⟨_, rfl⟩ fun _ _ s₁ m hact _ => ?_
      cases hact
      refine alone_act ⟨_, rfl⟩ fun _ _ s₁ m hact _ => ?_
      cases hact
      exact Ends.ret ⟨_, by omega, rfl, haside.trans ⟨rfl, rfl, rfl, fun _ _ => rfl, rfl⟩, hlate,
        hown⟩
    · exact Ends.ret ⟨_, i, rfl, haside, hlate, hown⟩
  · obtain ⟨v, i, -, haside, hlate, hown⟩ := hs
    obtain ⟨s', n'⟩ := s'
    refine alone_act ⟨_, rfl⟩ fun _ _ s₁ m hact _ => ?_
    cases hact
    refine alone_act ⟨_, rfl⟩ fun _ _ s₁ m hact _ => ?_
    cases hact
    refine Ends.ret ⟨haside.trans ⟨rfl, rfl, rfl, fun u hu => upd_other _ _ hu, rfl⟩, hlate, ?_⟩
    simp only [upd_same]
    rw [hown]

/-- A detached chain. -/
def Detached (head : Option Nat) (L : List (Nat × Entry)) (s : State) : Prop :=
  s.late = none ∧ Chain (books s).orphan head L none

theorem ends_drainLateAll {L : List (Nat × Entry)} (hL : Chain (books s).orphan s.late L none) :
    Ends (accounts.alone t) (fun _ s' => s'.1.late = none) drainLateAll (s, n) := by
  let I : Nat → Unit → State × Nat → Prop :=
    fun v _ s' => ∃ L, Chain (books s'.1).orphan s'.1.late L none ∧ v = L.length
  refine Ends.iterate wellFounded_lt (I := I) ⟨L, hL, rfl⟩ fun v _ s' hI => ?_
  obtain ⟨L, hL, rfl⟩ := hI
  obtain ⟨s', n'⟩ := s'
  refine alone_act ⟨_, rfl⟩ fun _ head s₁ m hact _ => ?_
  cases hact
  rw [Prog.ret_bind]
  split
  · exact Ends.ret rfl
  · next hne =>
    -- the orphans of the detached chain are freed one by one
    let J : Nat → Option Nat → State × Nat → Prop :=
      fun v head s' => ∃ L, Detached head L s'.1 ∧ v = L.length
    have hstart : J L.length s'.late ({ s' with late := none }, m) := ⟨L, ⟨rfl, hL⟩, rfl⟩
    refine Ends.bind (Q := fun _ s' => ∃ L, Detached none L s'.1)
      (Ends.iterate wellFounded_lt (I := J) hstart fun v head s' hJ => ?_) fun _ s₁ hs => ?_
    · obtain ⟨K, ⟨hlate, hK⟩, rfl⟩ := hJ
      obtain ⟨s', n'⟩ := s'
      cases K with
      | nil =>
        obtain rfl := hK
        exact Ends.ret ⟨[], hlate, rfl⟩
      | cons c K =>
        have hnot : c.1 ∉ K.map Prod.fst := (List.nodup_cons.mp hK.nodup).1
        obtain ⟨rfl, next, hnext, hrest⟩ := hK
        simp only [books, Option.map_eq_some_iff] at hnext
        obtain ⟨o, ho, heq⟩ := hnext
        simp only [Prod.mk.injEq] at heq
        simp only [Prog.bind_eq, Prog.perform_bind, Prog.pure_eq]
        refine alone_act ⟨_, rfl⟩ fun _ _ s₁ m hact _ => ?_
        cases hact
        refine alone_act ⟨_, rfl⟩ fun _ _ s₁ m hact _ => ?_
        cases hact
        refine alone_act ⟨_, rfl⟩ fun _ _ s₁ m hact _ => ?_
        cases hact
        refine alone_act ⟨_, rfl⟩ fun _ _ s₁ m hact _ => ?_
        cases hact
        rw [ho, Option.getD_some, heq.1]
        refine Ends.ret ⟨K.length, by simp, K, ⟨hlate, ?_⟩, rfl⟩
        refine hrest.congr fun d hd => ?_
        have hne : d.1 ≠ c.1 := fun h => hnot (h ▸ List.mem_map_of_mem hd)
        simp only [books, upd_other _ _ hne]
    · obtain ⟨K, hlate, hK⟩ := hs
      refine Ends.ret ⟨0, ?_, [], hlate, rfl⟩
      cases L with
      | nil => exact absurd hL hne
      | cons c L => simp

theorem ends_drainAll {L : List (Nat × Entry)} (hL : Chain (books s).orphan s.late L none) :
    Ends (accounts.alone t) (fun _ s' => s'.1.late = none) drainAll (s, n) := by
  unfold drainAll
  simp only [Prog.bind_eq, Prog.perform_bind]
  refine Ends.bind (ends_freeTagged 0) fun _ s₁ h₁ => ?_
  refine Ends.bind (ends_freeTagged 1) fun _ s₂ h₂ => ?_
  refine Ends.bind (ends_freeTagged 2) fun _ s₃ h₃ => ?_
  refine alone_act ⟨_, rfl⟩ fun _ ts s₄ m hact _ => ?_
  cases hact
  refine alone_act ⟨_, rfl⟩ fun _ ts s₄ m hact _ => ?_
  cases hact
  have hlate : s₃.1.late = s.late := by rw [h₃.late.1, h₂.late.1, h₁.late.1]
  have horphans : s₃.1.orphans = s.orphans := by rw [h₃.late.2, h₂.late.2, h₁.late.2]
  refine ends_drainLateAll (L := L) ?_
  simpa only [books, hlate, horphans] using hL

variable {address : Nat → Nat} {ls : List (Label Account.Call)}
  {c : Config Op State Account.Call Bool}

/-- Everything that was retired has been freed, once. -/
def NothingLeft (s : State) : Prop :=
  (books s).Drained ∧ ∀ u, ∀ e < EPOCHS, (s.tls u).retired e = [] ∧ (s.tls u).retiredActions e = []

theorem lists_of_listed {ts : ThreadState} (hal : Aligned ts) (h : listed ts = []) :
    ∀ e < EPOCHS, ts.retired e = [] ∧ ts.retiredActions e = [] := by
  have htag : ∀ e, tagged ts e = [] → ts.retired e = [] ∧ ts.retiredActions e = [] := by
    intro e he
    have hlen := congrArg List.length he
    rw [tagged, List.length_zip, ← hal e, Nat.min_self, List.length_nil] at hlen
    exact ⟨List.length_eq_zero_iff.mp hlen, List.length_eq_zero_iff.mp (hal e ▸ hlen)⟩
  obtain ⟨h01, h2⟩ := List.append_eq_nil_iff.mp h
  obtain ⟨h0, h1⟩ := List.append_eq_nil_iff.mp h01
  intro e he
  obtain rfl | rfl | rfl : e = 0 ∨ e = 1 ∨ e = 2 := by
    unfold EPOCHS at he
    omega
  · exact htag 0 h0
  · exact htag 1 h1
  · exact htag 2 h2

/-- The drain by the last thread: whatever the scheduler chooses it leaves nothing, and it
returns. -/
theorem drainAll_last
    (hc : accounts.exec (start { State.init with address := address }) ls = some c)
    (hlast : LastOne .finalizeThread t ls c) :
    (∀ bs c', accounts.exec c (Label.run t .drainAll bs) = some c' → NothingLeft c'.shared) ∧
    ∃ k c', accounts.exec c (Label.run t .drainAll (List.replicate k false)) = some c' := by
  obtain ⟨hidle, hleft⟩ := hlast
  have hreach := accounts.reachable_exec ls hc
  obtain ⟨-, -, hquiet⟩ := reach_accounts address c hreach
  obtain ⟨L, hL, -⟩ := (hquiet hidle).2.2.places
  have hinv : accounts.invoke t .drainAll c.shared = some c.shared := rfl
  have hends : ∀ n, Ends (accounts.alone t) (fun _ s' => s'.1.late = none)
      (accounts.code .drainAll) (c.shared, n) :=
    fun n => Ends.bind (ends_drainAll hL) fun _ _ hs => Ends.ret hs
  obtain ⟨hall, hreturns⟩ := exec_run (Q := fun _ s' => s'.late = none) (hidle t) hinv hends
  refine ⟨fun bs c' hrun => ?_, hreturns⟩
  obtain ⟨r, s', hlate, rfl⟩ := hall bs c' hrun
  have hexec := exec_append accounts (start { State.init with address := address }) ls
    (Label.run t .drainAll bs)
  rw [hc, Option.bind_some, hrun] at hexec
  have hempty : ∀ u, listed (s'.tls u) = [] := by
    intro u
    refine empty_of_left hexec (hidle u) fun op hop => ?_
    rw [Label.lastCall_run] at hop
    split at hop
    · cases hop
      exact .inr rfl
    · next htu => exact .inl (hleft u (Ne.symm htu) op hop)
  obtain ⟨honce, -, hquiet⟩ := reach_accounts address _ (accounts.reachable_exec _ hexec)
  obtain ⟨hal, hret, hbal⟩ := hquiet hidle
  exact ⟨hbal.drained honce hret hempty hlate, fun u => lists_of_listed (hal u) (hempty u)⟩

end Epoch

/-! ## The hazard-pointer reclaimer -/

namespace Hazard

open Account
open Function (update)
open Handover (Publishes)

variable {t n : Nat} {s s₀ : State} {p : Ptr}

/-- Entry `k` of the registry leads to a slot in use that publishes `p`. -/
def GuardedBy (s : State) (p : Ptr) (k : Nat) : Prop :=
  ∃ i, s.entries k = some i ∧ s.owner i ≠ 0 ∧ Publishes i p s

/-- A slot in the registry publishes `p`. -/
def Guarded (s : State) (p : Ptr) : Prop := ∃ k < s.count, GuardedBy s p k

instance (s : State) (p : Ptr) (k : Nat) : Decidable (GuardedBy s p k) :=
  match h : s.entries k with
  | none => .isFalse fun ⟨_, hi, _⟩ => nomatch h.symm.trans hi
  | some i => decidable_of_iff (s.owner i ≠ 0 ∧ Publishes i p s)
      ⟨fun hp => ⟨i, h, hp⟩, fun ⟨_, hj, hp⟩ => Option.some.inj (hj.symm.trans h) ▸ hp⟩

instance (s : State) (p : Ptr) : Decidable (Guarded s p) :=
  inferInstanceAs (Decidable (∃ k < s.count, GuardedBy s p k))

/-- The registry and the hazards are those of `s₀`. -/
structure SameSlots (s₀ s : State) : Prop where
  owner : s.owner = s₀.owner
  hp : s.hp = s₀.hp
  count : s.count = s₀.count
  entries : s.entries = s₀.entries

theorem SameSlots.refl (s : State) : SameSlots s s := ⟨rfl, rfl, rfl, rfl⟩

theorem SameSlots.trans {s₁ s₂ : State} (h : SameSlots s₀ s₁) (h' : SameSlots s₁ s₂) :
    SameSlots s₀ s₂ :=
  ⟨h'.owner.trans h.owner, h'.hp.trans h.hp, h'.count.trans h.count, h'.entries.trans h.entries⟩

theorem SameSlots.guarded (h : SameSlots s₀ s) : Guarded s p ↔ Guarded s₀ p := by
  unfold Guarded GuardedBy Publishes
  rw [h.owner, h.hp, h.count, h.entries]

/-- Only the history of walks differs. -/
structure Walked (s₀ s : State) : Prop where
  slots : SameSlots s₀ s
  books : books s = books s₀
  tls : s.tls = s₀.tls

/-- The walk over the pointers of a slot. -/
theorem ends_publishes (i : Nat) (hw : Walked s₀ s) : Ends (accounts.alone t)
    (fun r s' => (r = true ↔ Publishes i p s₀) ∧ Walked s₀ s'.1) (publishes i p) (s, n) := by
  let I : Nat → Nat → State × Nat → Prop := fun v h s' =>
    v = HAZARD_POINTERS - h ∧ (∀ j < h, s₀.hp i j ≠ some p) ∧ Walked s₀ s'.1
  refine Ends.iterate wellFounded_lt (I := I) ⟨rfl, by simp, hw⟩ fun v h s' hI => ?_
  obtain ⟨rfl, hnot, hw⟩ := hI
  obtain ⟨s', n'⟩ := s'
  simp only [Prog.bind_eq, Prog.perform_bind, Prog.pure_eq]
  split
  · next hlt =>
    refine alone_act ⟨_, rfl⟩ fun _ v s₁ m hact _ => ?_
    cases hact
    have hw' : Walked s₀ { s' with reading := Function.update s'.reading t (some (i, h)) } :=
      ⟨⟨hw.slots.owner, hw.slots.hp, hw.slots.count, hw.slots.entries⟩, hw.books, hw.tls⟩
    have hhp : s'.hp i h = s₀.hp i h := congrFun (congrFun hw.slots.hp i) h
    split
    · next heq =>
      rw [hhp] at heq
      exact Ends.ret ⟨⟨fun _ => ⟨h, hlt, heq⟩, fun _ => rfl⟩, hw'⟩
    · next hne =>
      rw [hhp] at hne
      refine Ends.ret ⟨_, by omega, rfl, fun j hj => ?_, hw'⟩
      rcases Nat.lt_succ_iff_lt_or_eq.mp hj with hj | rfl
      · exact hnot j hj
      · exact hne
  · next hge =>
    refine Ends.ret ⟨⟨fun h => Bool.noConfusion h, fun ⟨j, hj, hpub⟩ => ?_⟩, hw⟩
    have hjh : j < h := by omega
    exact absurd hpub (hnot j hjh)

/-- A walk over a registry that nobody changes finds `p` exactly if a slot in it publishes `p`. -/
theorem ends_isProtected (hw : Walked s₀ s) : Ends (accounts.alone t)
    (fun r s' => (r = true ↔ Guarded s₀ p) ∧ Walked s₀ s'.1) (isProtected p) (s, n) := by
  unfold isProtected
  simp only [Prog.bind_eq, Prog.perform_bind, Prog.pure_eq]
  refine alone_act ⟨_, rfl⟩ fun _ c s₁ m hact _ => ?_
  cases hact
  have hcount : s.count = s₀.count := hw.slots.count
  let I : Nat → Nat → State × Nat → Prop := fun v k s' =>
    v = s.count - k ∧ (∀ j < k, ¬GuardedBy s₀ p j) ∧ Walked s₀ s'.1
  refine Ends.iterate wellFounded_lt (I := I) ⟨rfl, by simp, ⟨⟨hw.slots.owner, hw.slots.hp,
    hw.slots.count, hw.slots.entries⟩, hw.books, hw.tls⟩⟩ fun v k s' hI => ?_
  obtain ⟨rfl, hnot, hw⟩ := hI
  obtain ⟨s', n'⟩ := s'
  -- an entry that does not lead to `p`
  have hnext : ¬GuardedBy s₀ p k → ∀ j < k + 1, ¬GuardedBy s₀ p j := by
    intro hk j hj
    rcases Nat.lt_succ_iff_lt_or_eq.mp hj with hj | rfl
    · exact hnot j hj
    · exact hk
  split
  · next hlt =>
    refine alone_act ⟨_, rfl⟩ fun _ e s₁ m hact _ => ?_
    cases hact
    have hentry : s'.entries k = s₀.entries k := congrFun hw.slots.entries k
    have hw' : Walked s₀ { s' with
        touched := s'.touched ++ [k]
        cursor := Function.update s'.cursor t (k + 1)
        reading := Function.update s'.reading t none } :=
      ⟨⟨hw.slots.owner, hw.slots.hp, hw.slots.count, hw.slots.entries⟩, hw.books, hw.tls⟩
    split
    · next he =>
      refine Ends.ret ⟨_, by omega, rfl, hnext fun ⟨i, hi, _⟩ => ?_, hw'⟩
      rw [← hentry, he] at hi
      cases hi
    · next i he =>
      rw [hentry] at he
      refine alone_act ⟨_, rfl⟩ fun _ owner s₁ m hact _ => ?_
      cases hact
      have howner : s'.owner i = s₀.owner i := congrFun hw.slots.owner i
      -- the slot of the entry is the one that was read
      have hslot : GuardedBy s₀ p k → s₀.owner i ≠ 0 ∧ Publishes i p s₀ := by
        rintro ⟨j, hj, hne, hpub⟩
        obtain rfl : i = j := Option.some.inj (he.symm.trans hj)
        exact ⟨hne, hpub⟩
      split
      · next h0 =>
        exact Ends.ret ⟨_, by omega, rfl, hnext fun hg => (hslot hg).1 (howner ▸ h0), hw'⟩
      · next h0 =>
        refine Ends.bind (ends_publishes i hw') fun r s₂ hr => ?_
        obtain ⟨hr, hw'⟩ := hr
        split
        · next hyes =>
          have hg : GuardedBy s₀ p k := ⟨i, he, howner ▸ h0, hr.mp hyes⟩
          exact Ends.ret ⟨⟨fun _ => ⟨k, hcount ▸ hlt, hg⟩, fun _ => rfl⟩, hw'⟩
        · next hno =>
          exact Ends.ret ⟨_, by omega, rfl, hnext fun hg => hno (hr.mpr (hslot hg).2), hw'⟩
  · next hge =>
    refine Ends.ret ⟨⟨fun h => Bool.noConfusion h, fun ⟨j, hj, hg⟩ => ?_⟩, hw⟩
    have hjk : j < k := by omega
    exact absurd hg (hnot j hjk)

/-- The code of the chain leaves the registry, the hazards and the lists alone. -/
theorem prompt_slots (s₀ : State) :
    scheme.Prompt t fun s => SameSlots s₀ s ∧ s.tls = s₀.tls where
  enabled he s := by
    cases he with
    | casLate e d =>
      simp only [scheme, accounts, action]
      split
      · exact ⟨_, rfl⟩
      · exact ⟨_, rfl⟩
    | _ => exact ⟨_, rfl⟩
  frame := by
    intro β e he b s r s' h hact
    cases he with
    | casLate e d =>
      simp only [scheme, accounts, action] at hact
      split at hact <;> cases hact <;> exact ⟨h.1.trans ⟨rfl, rfl, rfl, rfl⟩, h.2⟩
    | _ =>
      cases hact
      exact ⟨h.1.trans ⟨rfl, rfl, rfl, rfl⟩, h.2⟩
  loads hact := by
    cases hact
    rfl
  fails := by
    intro e d b s seen s' hact
    simp only [scheme, accounts, action] at hact
    split at hact
    · cases hact
    · next hne =>
      cases hact
      exact ⟨rfl, fun hlate => by simpa using fun hb => hne ⟨hlate, hb⟩⟩

/-- The chain `L` has been drained: what is guarded is on it again, and the rest has been freed. -/
structure Sifted (s₀ : State) (L : List (Nat × Entry)) (s : State) : Prop where
  slots : SameSlots s₀ s
  tls : s.tls = s₀.tls
  books : Scheme.Sifted (fun x => Guarded s₀ x.2.1) (books s₀) L (books s)

theorem Sifted.late_eq_none {L : List (Nat × Entry)} (h : Sifted s₀ L s) :
    s.late = none ↔ ∀ x ∈ L, ¬Guarded s₀ x.2.1 := by
  have hchain := h.books.chain
  constructor
  · intro hnone x hx hg
    rw [show (Account.books s).late = none from hnone] at hchain
    have hmem : x ∈ (L.filter fun x => Guarded s₀ x.2.1).reverse := by simpa using ⟨hx, hg⟩
    rw [hchain.eq_nil] at hmem
    cases hmem
  · intro hall
    have hnil : L.filter (fun x => Guarded s₀ x.2.1) = [] := by
      rw [List.filter_eq_nil_iff]
      intro x hx
      simpa using hall x hx
    rw [hnil] at hchain
    exact hchain

theorem ends_drainLateRetire {L : List (Nat × Entry)}
    (hL : Chain (books s).orphan s.late L none) :
    Ends (accounts.alone t) (fun _ s' => Sifted s L s'.1) drainLateRetire (s, n) := by
  rw [drainLateRetire_eq]
  refine (Scheme.ends_drain (P := fun x => Guarded s x.2.1) lawful (prompt_slots s) ?_
    ⟨.refl s, rfl⟩ hL).mono fun _ s' h => ⟨h.1.1, h.1.2, h.2⟩
  intro i o b s₁ n hF _ _
  refine (ends_isProtected ⟨.refl s₁, rfl, rfl⟩).mono fun r s₂ hr => ?_
  obtain ⟨hr, hw⟩ := hr
  rw [hF.1.guarded] at hr
  exact ⟨hr, ⟨hF.1.trans hw.slots, hw.tls.trans hF.2⟩, hw.books⟩

theorem ends_drainAll {L : List (Nat × Entry)} (hL : Chain (books s).orphan s.late L none) :
    Ends (accounts.alone t) (fun _ s' => s'.1.late = none ↔ ∀ x ∈ L, ¬Guarded s x.2.1)
      drainAll (s, n) := by
  unfold drainAll
  simp only [Prog.bind_eq, Prog.perform_bind, Prog.pure_eq]
  refine Ends.bind (ends_drainLateRetire hL) fun _ s₁ h₁ => ?_
  replace h₁ := h₁.late_eq_none
  let I : Nat → Nat → State × Nat → Prop := fun v i s' =>
    v = (s₁.1.tls t).retired.length - i ∧ s'.1.late = s₁.1.late ∧ s'.1.tls = s₁.1.tls
  refine Ends.bind (Q := fun _ s' => s'.1.late = s₁.1.late) (Ends.iterate wellFounded_lt (I := I)
    ⟨rfl, rfl, rfl⟩ fun v i s' hI => ?_) fun _ s' hs => ?_
  · obtain ⟨rfl, hlate, htls⟩ := hI
    obtain ⟨s', n'⟩ := s'
    refine alone_act ⟨_, rfl⟩ fun _ ts s₂ m hact _ => ?_
    cases hact
    rw [htls]
    split
    · next hlt =>
      refine alone_act ⟨_, rfl⟩ fun _ _ s₂ m hact _ => ?_
      cases hact
      refine alone_act ⟨_, rfl⟩ fun _ _ s₂ m hact _ => ?_
      cases hact
      exact Ends.ret ⟨_, by omega, rfl, hlate, htls⟩
    · exact Ends.ret hlate
  · refine alone_act ⟨_, rfl⟩ fun _ _ s₂ m hact _ => ?_
    cases hact
    refine Ends.ret ?_
    simp only [hs]
    exact h₁

variable {address : Nat → Nat} {ls : List (Label Account.Call)}
  {c : Config Op State Account.Call Bool}

/-- Everything that was retired has been freed, once. -/
def NothingLeft (s : State) : Prop :=
  (books s).Drained ∧ ∀ u, (s.tls u).retired = [] ∧ (s.tls u).retiredActions = []

/-- The drain by the last thread: whatever the scheduler chooses, it leaves nothing exactly if no
object on the late chain is published by a slot in the registry; and it returns. -/
theorem drainAll_last
    (hc : accounts.exec (start { State.init with address := address }) ls = some c)
    (hlast : LastOne .finalizeThread t ls c) :
    (∀ bs c', accounts.exec c (Label.run t .drainAll bs) = some c' →
      (NothingLeft c'.shared ↔ ∀ p, (books c.shared).OnLate p → ¬Guarded c.shared p)) ∧
    ∃ k c', accounts.exec c (Label.run t .drainAll (List.replicate k false)) = some c' := by
  obtain ⟨hidle, hleft⟩ := hlast
  have hreach := accounts.reachable_exec ls hc
  obtain ⟨-, -, hquiet⟩ := reach_accounts address c hreach
  obtain ⟨L, hL, -⟩ := (hquiet hidle).2.2.places
  have hinv : accounts.invoke t .drainAll c.shared = some c.shared := rfl
  have hends : ∀ n, Ends (accounts.alone t)
      (fun _ s' => s'.1.late = none ↔ ∀ x ∈ L, ¬Guarded c.shared x.2.1)
      (accounts.code .drainAll) (c.shared, n) :=
    fun n => Ends.bind (ends_drainAll hL) fun _ _ hs => Ends.ret hs
  obtain ⟨hall, hreturns⟩ := exec_run
    (Q := fun _ s' => s'.late = none ↔ ∀ x ∈ L, ¬Guarded c.shared x.2.1) (hidle t) hinv hends
  refine ⟨fun bs c' hrun => ?_, hreturns⟩
  obtain ⟨r, s', hlate, rfl⟩ := hall bs c' hrun
  have hexec := exec_append accounts (start { State.init with address := address }) ls
    (Label.run t .drainAll bs)
  rw [hc, Option.bind_some, hrun] at hexec
  have hempty : ∀ u, (s'.tls u).retired = [] ∧ (s'.tls u).retiredActions = [] := by
    intro u
    refine empty_of_left hexec (hidle u) fun op hop => ?_
    rw [Label.lastCall_run] at hop
    split at hop
    · cases hop
      exact .inr rfl
    · next htu => exact .inl (hleft u (Ne.symm htu) op hop)
  obtain ⟨honce, -, hquiet⟩ := reach_accounts address _ (accounts.reachable_exec _ hexec)
  obtain ⟨-, hret, hbal⟩ := hquiet hidle
  have hnil : ∀ u, (s'.tls u).retired.zip (s'.tls u).retiredActions = [] := by
    intro u
    rw [(hempty u).1, List.zip_nil_left]
  -- the objects on the chain are those of `L`
  have honlate : (∀ x ∈ L, ¬Guarded c.shared x.2.1) ↔
      ∀ p, (books c.shared).OnLate p → ¬Guarded c.shared p := by
    constructor
    · rintro hall p ⟨K, hK, hp⟩
      obtain rfl := hK.unique hL
      obtain ⟨x, hx, rfl⟩ := List.mem_map.mp hp
      exact hall x hx
    · intro hall x hx
      exact hall x.2.1 ⟨L, hL, List.mem_map.mpr ⟨x, hx, rfl⟩⟩
  rw [← honlate, ← hlate]
  constructor
  · intro h
    exact h.1.late
  · intro hnone
    exact ⟨hbal.drained honce hret hnil hnone, hempty⟩

end Hazard

/-! ## Both -/

/-- After `drain_all` by the only thread that has not exited, the epoch reclaimer has freed
everything; the hazard-pointer reclaimer has freed everything exactly if no object on the late
chain was published by a slot in the registry. Both calls return. -/
theorem drain_all_leaves (address : Nat → Nat) (t : Nat) :
    (∀ ls c, Epoch.Account.accounts.exec
        (start { Epoch.State.init with address := address }) ls = some c →
      LastOne .finalizeThread t ls c →
      (∀ bs c', Epoch.Account.accounts.exec c (Label.run t .drainAll bs) = some c' →
        Epoch.NothingLeft c'.shared) ∧
      ∃ k c', Epoch.Account.accounts.exec c (Label.run t .drainAll (List.replicate k false)) =
        some c') ∧
    (∀ ls c, Hazard.Account.accounts.exec
        (start { Hazard.State.init with address := address }) ls = some c →
      LastOne .finalizeThread t ls c →
      (∀ bs c', Hazard.Account.accounts.exec c (Label.run t .drainAll bs) = some c' →
        (Hazard.NothingLeft c'.shared ↔
          ∀ p, (Hazard.Account.books c.shared).OnLate p → ¬Hazard.Guarded c.shared p)) ∧
      ∃ k c', Hazard.Account.accounts.exec c (Label.run t .drainAll (List.replicate k false)) =
        some c') :=
  ⟨fun _ _ hc hlast => Epoch.drainAll_last hc hlast,
    fun _ _ hc hlast => Hazard.drainAll_last hc hlast⟩

/-- Thread 1 publishes 7, which thread 0 retires and leaves on the late chain. -/
def leftBehind : List (Label Hazard.Account.Call) :=
  Label.whole 1 (.protect 0 (some 7)) 8 ++ Label.whole 0 (.retire 7 ⟨1⟩) 4 ++
    Label.whole 0 .finalizeThread 28

/-- The last thread's own hazard, which no container clears, keeps the object: it is never freed. -/
theorem stale_hazard_keeps : ∃ c c', Hazard.Account.accounts.exec (start Hazard.State.init)
      leftBehind = some c ∧ LastOne .finalizeThread 1 leftBehind c ∧
    Hazard.Account.accounts.exec c (Label.run 1 .drainAll (List.replicate 21 false)) = some c' ∧
    (c'.shared.outstanding, c'.shared.accepted, c'.shared.ran) = (1, [(7, ⟨1⟩)], []) ∧
    ¬Hazard.NothingLeft c'.shared := by
  have hrun : ((Hazard.Account.accounts.exec (start Hazard.State.init) leftBehind).bind fun c =>
      (Hazard.Account.accounts.exec c (Label.run 1 .drainAll (List.replicate 21 false))).map fun c' =>
        (((c.thread 0).isNone, (c.thread 1).isNone),
          (c'.shared.outstanding, c'.shared.accepted, c'.shared.ran))) =
      some ((true, true), (1, [(7, ⟨1⟩)], [])) := by rfl
  obtain ⟨c, hc, hrest⟩ := Option.bind_eq_some_iff.mp hrun
  obtain ⟨c', hc', hval⟩ := Option.map_eq_some_iff.mp hrest
  obtain ⟨hidle, hval⟩ := Prod.mk.inj hval
  simp only [Prod.mk.injEq, Option.isNone_iff_eq_none] at hidle
  refine ⟨c, c', hc, LastOne.of_lt hc 2 rfl (fun u hu => ?_) (fun u hu hne => ?_), hc', hval, ?_⟩
  · obtain rfl | rfl : u = 0 ∨ u = 1 := by omega
    · exact hidle.1
    · exact hidle.2
  · obtain rfl : u = 0 := by omega
    exact .inr rfl
  · intro h
    have hout := h.1.outstanding
    rw [show (Hazard.Account.books c'.shared).outstanding = 1 from (Prod.mk.inj hval).1] at hout
    cases hout

/-- The same run, in which the last thread first clears its hazard. -/
theorem drain_all_leaves_run : ∃ c c', Hazard.Account.accounts.exec (start Hazard.State.init)
      (leftBehind ++ Label.whole 1 (.clear 0) 2) = some c ∧
    Hazard.Account.accounts.exec c (Label.run 1 .drainAll (List.replicate 24 false)) = some c' ∧
    c.shared.outstanding = 1 ∧ Hazard.NothingLeft c'.shared := by
  have hrun : ((Hazard.Account.accounts.exec (start Hazard.State.init)
      (leftBehind ++ Label.whole 1 (.clear 0) 2)).bind fun c =>
      (Hazard.Account.accounts.exec c (Label.run 1 .drainAll (List.replicate 24 false))).map fun _ =>
        (((c.thread 0).isNone, (c.thread 1).isNone),
          (c.shared.outstanding, c.shared.count, c.shared.entries 0, c.shared.hp 0 0,
            c.shared.hp 0 1, c.shared.hp 0 2, c.shared.hp 0 3))) =
      some ((true, true), (1, 1, some 0, none, none, none, none)) := by rfl
  obtain ⟨c, hc, hrest⟩ := Option.bind_eq_some_iff.mp hrun
  obtain ⟨c', hc', hval⟩ := Option.map_eq_some_iff.mp hrest
  obtain ⟨hidle, hval⟩ := Prod.mk.inj hval
  simp only [Prod.mk.injEq, Option.isNone_iff_eq_none] at hidle hval
  obtain ⟨hout, hcount, hentry, h0, h1, h2, h3⟩ := hval
  have hlast : LastOne .finalizeThread 1 (leftBehind ++ Label.whole 1 (.clear 0) 2) c := by
    refine LastOne.of_lt hc 2 rfl (fun u hu => ?_) (fun u hu hne => ?_)
    · obtain rfl | rfl : u = 0 ∨ u = 1 := by omega
      · exact hidle.1
      · exact hidle.2
    · obtain rfl : u = 0 := by omega
      exact .inr rfl
  refine ⟨c, c', hc, hc', hout, ((drain_all_leaves id 1).2 _ c hc hlast |>.1 _ c' hc').mpr ?_⟩
  -- the only slot in the registry publishes nothing
  rintro p - ⟨k, hk, i, hi, -, j, hj, hp⟩
  obtain rfl : k = 0 := by omega
  obtain rfl : 0 = i := Option.some.inj (hentry.symm.trans hi)
  have hj : j < 4 := hj
  obtain rfl | rfl | rfl | rfl : j = 0 ∨ j = 1 ∨ j = 2 ∨ j = 3 := by omega
  · exact absurd hp (by simp [h0])
  · exact absurd hp (by simp [h1])
  · exact absurd hp (by simp [h2])
  · exact absurd hp (by simp [h3])

end MpmcMap.Reclaim
