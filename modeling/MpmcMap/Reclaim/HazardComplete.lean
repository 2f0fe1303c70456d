import MpmcMap.Reclaim.HazardRegistry

/-!
# The registry is complete in orderly runs

The code of the reclaimer keeps the invariant of the registry: `slot` acquires, reserves and
enlists; `release_slot` gives the slot back and removes the entry; everything else leaves the
registry alone or walks it. `registry_complete` is the result for every run, and `lost_entry` is a
run of two overlapping unregistrations after which a live thread is no longer listed.
-/

namespace MpmcMap.Reclaim.Hazard

open Conc
open Function (update)

/-! ## Assertions of a thread about itself -/

section Assertions

variable {strict : Prop} {t : Nat}

/-- Between two calls a thread either has no slot or is registered. -/
def Idle (t : Nat) (a : Aug) : Prop :=
  (a.st.phase t = .away ∧ (a.st.tls t).slot = none) ∨ a.st.phase t = .registered

theorem stable_own (P : Phase → Option Nat → Nat → Nat → Prop) : (orderly strict).Stable t fun a =>
    P (a.st.phase t) (a.st.tls t).slot (a.slotOf t) (a.st.reservedAt t) := by
  intro u hu a b _ _ hg h
  rwa [hg.phase t hu.symm, hg.slot t hu.symm, hg.slotOf t (.inl hu.symm),
    hg.reservedAt t hu.symm]

theorem stable_idle : (orderly strict).Stable t (Idle t) :=
  stable_own fun p s _ _ => (p = .away ∧ s = none) ∨ p = .registered

/-- The line, the count and the stage stay as they are while the thread removes its entry. -/
theorem stable_removing (P : Nat → (Nat → Nat) → Nat → Stage → Prop) :
    (orderly strict).Stable t fun a =>
      a.st.phase t = .moving ∧ P (a.slotOf t) a.line a.st.count a.stage := by
  intro u hu a b _ _ hg h
  obtain ⟨hline, hcount, hstage, -⟩ := hg.removing t hu.symm h.1
  rw [hg.phase t hu.symm, hg.slotOf t (.inl hu.symm), hline, hcount, hstage]
  exact h

theorem stable_found (k p n last : Nat) : (orderly strict).Stable t fun a =>
    a.Found t k p ∧ a.stage = .settled ∧ a.st.count = n ∧ a.base (n - 1) = some last := by
  intro u hu a b hi _ hg h
  obtain ⟨h, hs, hn, hlast⟩ := h
  obtain ⟨hline, hcount, hstage, hres⟩ := hg.removing t hu.symm h.phase
  refine ⟨⟨?_, hcount ▸ h.place_lt, hline ▸ h.place, ?_, ?_⟩, hstage ▸ hs, hcount ▸ hn, ?_⟩
  · rw [hg.phase t hu.symm, h.phase]
  · rw [hg.slotOf t (.inl hu.symm)]
    exact hg.base hu h.phase hi h.entry
  · rw [hline, hcount]
    by_cases he : a.line (a.st.count - 1) = u
    · rw [he]
      exact hres (he ▸ h.last)
    · rw [hg.phase _ he]
      exact h.last
  · exact hg.base hu h.phase hi hlast

end Assertions

/-! ## Code that leaves the registry alone -/

section Quiet

variable {strict : Prop} {t : Nat} {α β : Type}

theorem Idle.quiet {a : Aug} {s' : State} (h : Idle t a) (hq : Quiet t a.st s') :
    Idle t { a with st := s' } := by
  unfold Idle
  simp only [hq.phase, hq.slot]
  exact h

/-- An action that leaves the registry alone. -/
theorem keeps_quiet {o : Op β} {k : β → Code α} (ho : o.quiet = true)
    (hk : ∀ r, (orderly strict).Keeps t (Idle t) (k r)) :
    (orderly strict).Keeps t (Idle t) (.act o k) := by
  refine Discipline.Keeps.act (R := fun _ => True) stable_idle ?_ fun r _ => hk r
  intro a b r s' hi h _ hact
  have hq := action_quiet ho hact
  exact ⟨{ a with st := s' }, rfl, hi.quiet hq, Guar.quiet hi hq, h.quiet hq, trivial⟩

theorem keeps_ret (r : α) : (orderly strict).Keeps t (Idle t) (.ret r) :=
  Discipline.Keeps.ret stable_idle r

/-- A walk reads the count. -/
theorem keeps_loadCount {k : Nat → Code α}
    (hk : ∀ n ≤ MAX_THREADS, (orderly strict).Keeps t (Idle t) (k n)) :
    (orderly strict).Keeps t (Idle t) (.act .loadCount k) := by
  refine Discipline.Keeps.act stable_idle ?_ hk
  intro a b r s' hi h _ hact
  have hph : a.st.phase t ≠ .released := by
    rcases h with h | h <;> simp [h]
  simp only [registry, action, orderly, if_neg hph, Option.some.injEq, Prod.mk.injEq] at hact
  obtain ⟨rfl, rfl⟩ := hact
  exact ⟨a.walk t, rfl, hi.walk, Guar.walk hi, h, hi.count_le⟩

/-- A walk reads an entry. -/
theorem keeps_loadEntry {j : Nat} {k : Option Nat → Code α} (hj : j < MAX_THREADS)
    (hk : ∀ r, (orderly strict).Keeps t (Idle t) (k r)) :
    (orderly strict).Keeps t (Idle t) (.act (.loadEntry j) k) := by
  refine Discipline.Keeps.act (R := fun _ => True) stable_idle ?_ fun r _ => hk r
  intro a b r s' hi h _ hact
  simp only [registry, action, orderly, Option.some.injEq, Prod.mk.injEq] at hact
  obtain ⟨-, rfl⟩ := hact
  exact ⟨a.look t j, rfl, hi.look hj, Guar.look hi, h, trivial⟩

theorem keeps_loop {σ : Type} {body : σ → Code (σ ⊕ β)} {k : β → Code α}
    (hbody : ∀ st, (orderly strict).Keeps t (Idle t) (body st))
    (hk : ∀ r, (orderly strict).Keeps t (Idle t) (k r)) (st : σ) :
    (orderly strict).Keeps t (Idle t) (.loop body st k) :=
  Discipline.Keeps.loop stable_idle hbody hk st

theorem keeps_publishes (i : Nat) (cur : Ptr) :
    (orderly strict).Keeps t (Idle t) (publishes i cur) := by
  refine keeps_loop (fun h => ?_) keeps_ret 0
  simp only [Prog.bind_eq, Prog.perform_bind, Prog.pure_eq]
  split
  · refine keeps_quiet rfl fun r => ?_
    split
    · exact keeps_ret _
    · exact keeps_ret _
  · exact keeps_ret _

theorem keeps_isProtected (cur : Ptr) : (orderly strict).Keeps t (Idle t) (isProtected cur) := by
  refine keeps_loadCount fun n hn => ?_
  refine keeps_loop (fun k => ?_) keeps_ret 0
  simp only [Prog.bind_eq, Prog.perform_bind, Prog.pure_eq]
  split
  · next hk =>
    refine keeps_loadEntry (lt_of_lt_of_le hk hn) fun r => ?_
    split
    · exact keeps_ret _
    · refine keeps_quiet rfl fun w => ?_
      split
      · exact keeps_ret _
      · refine (keeps_publishes _ cur).bind fun found => ?_
        split
        · exact keeps_ret _
        · exact keeps_ret _
  · exact keeps_ret _

theorem keeps_pushLate (cur : Nat) : (orderly strict).Keeps t (Idle t) (pushLate cur) := by
  refine keeps_quiet rfl fun head => ?_
  refine keeps_loop (fun expected => ?_) keeps_ret head
  refine keeps_quiet rfl fun _ => keeps_quiet rfl fun r => ?_
  obtain ⟨ok, seen⟩ := r
  cases ok <;> exact keeps_ret _

theorem keeps_pushAll (head : Option Nat) : (orderly strict).Keeps t (Idle t) (pushAll head) := by
  refine keeps_loop (fun cur => ?_) keeps_ret head
  cases cur with
  | none => exact keeps_ret _
  | some c => exact keeps_quiet rfl fun o => (keeps_pushLate c).bind fun _ => keeps_ret _

theorem keeps_drainLateRetire : (orderly strict).Keeps t (Idle t) drainLateRetire := by
  refine keeps_quiet rfl fun head => ?_
  refine keeps_loop (fun l => ?_) (fun r => ?_) _
  · obtain ⟨head, keptHead, keptTail⟩ := l
    cases head with
    | none => exact keeps_ret _
    | some h =>
      refine keeps_quiet rfl fun o => (keeps_isProtected _).bind fun found => ?_
      split
      · cases keptTail with
        | none => exact keeps_ret _
        | some k => exact keeps_quiet rfl fun _ => keeps_ret _
      · exact keeps_quiet rfl fun _ => keeps_quiet rfl fun _ => keeps_quiet rfl fun _ => keeps_ret _
  · obtain ⟨keptHead, keptTail⟩ := r
    cases keptTail with
    | none => exact keeps_ret _
    | some k => exact keeps_quiet rfl fun _ => keeps_pushAll _

theorem keeps_scanStep (n : Nat) (l : Nat × Nat) :
    (orderly strict).Keeps t (Idle t) (scanStep n l) := by
  unfold scanStep
  simp only [Prog.bind_eq, Prog.perform_bind, Prog.pure_eq]
  split
  · refine keeps_quiet rfl fun ts => (keeps_isProtected _).bind fun found => ?_
    split
    · exact keeps_quiet rfl fun _ => keeps_ret _
    · exact keeps_quiet rfl fun _ => keeps_quiet rfl fun _ => keeps_ret _
  · exact keeps_ret _

theorem keeps_scan : (orderly strict).Keeps t (Idle t) scan := by
  refine keeps_drainLateRetire.bind fun _ => keeps_quiet rfl fun ts => ?_
  refine keeps_loop (keeps_scanStep _) (fun kept => ?_) _
  exact keeps_quiet rfl fun _ => keeps_quiet rfl fun _ => keeps_ret _

theorem keeps_retire (p : Ptr) (act : RetireAction) :
    (orderly strict).Keeps t (Idle t) (retire p act) := by
  unfold retire
  simp only [Prog.bind_eq, Prog.perform_bind, Prog.pure_eq, Prog.ret_bind]
  refine keeps_quiet rfl fun _ => keeps_quiet rfl fun pushed => ?_
  have hundo : ∀ ts : ThreadState, (orderly strict).Keeps t (Idle t)
      (if ts.retiredActions.length < ts.retired.length then
        .act (.setRetired ts.retired.dropLast ts.retiredActions) fun _ =>
          .act .decOutstanding fun _ => .ret false
      else .act .decOutstanding fun _ => .ret false) := by
    intro ts
    split
    · exact keeps_quiet rfl fun _ => keeps_quiet rfl fun _ => keeps_ret _
    · exact keeps_quiet rfl fun _ => keeps_ret _
  split
  · refine keeps_quiet rfl fun both => ?_
    split
    · refine keeps_quiet rfl fun ts => ?_
      split
      · exact keeps_scan.bind fun _ => keeps_ret _
      · exact keeps_ret _
    · exact keeps_quiet rfl hundo
  · exact keeps_quiet rfl hundo

theorem keeps_makeOrphans (ts : ThreadState) :
    (orderly strict).Keeps t (Idle t) (makeOrphans ts) := by
  refine keeps_loop (fun l => ?_) (fun _ => keeps_ret _) _
  obtain ⟨i, head⟩ := l
  simp only [Prog.bind_eq, Prog.perform_bind, Prog.pure_eq]
  split
  · exact keeps_quiet rfl fun _ => keeps_ret _
  · exact keeps_ret _

theorem keeps_drainAll : (orderly strict).Keeps t (Idle t) drainAll := by
  refine keeps_drainLateRetire.bind fun _ => keeps_loop (fun i => ?_) (fun _ => ?_) _
  · refine keeps_quiet rfl fun ts => ?_
    simp only [Prog.bind_eq, Prog.perform_bind, Prog.pure_eq, Prog.ret_bind]
    split
    · exact keeps_quiet rfl fun _ => keeps_quiet rfl fun _ => keeps_ret _
    · exact keeps_ret _
  · exact keeps_quiet rfl keeps_ret

end Quiet

/-! ## Acquiring a slot -/

section Slot

variable {strict : Prop} {t : Nat} {α β : Type} {Q : α → Aug → Prop} {a : Aug}

/-- An action that leaves the registry alone, before code that needs more than `Idle`. -/
theorem wp_quiet {o : Op β} {k : β → Code α} {P : Aug → Prop} (ho : o.quiet = true)
    (hP : (orderly strict).Stable t P) (hi : Inv a) (h : P a)
    (hkeep : ∀ a s', P a → Quiet t a.st s' → P { a with st := s' })
    (hk : ∀ a r, Inv a → P a → (orderly strict).WP t (k r) Q a) :
    (orderly strict).WP t (.act o k) Q a := by
  refine Discipline.WP.act hP hi h fun a b r s' hi h _ hact => ?_
  have hq := action_quiet ho hact
  exact ⟨{ a with st := s' }, rfl, hi.quiet hq, Guar.quiet hi hq,
    hk _ r (hi.quiet hq) (hkeep a s' h hq)⟩

theorem wp_registerActive {n : Nat} (hi : Inv a) (hph : a.st.phase t = .acquired)
    (hslot : (a.st.tls t).slot = some n) (hn : a.slotOf t = n) :
    (orderly strict).WP t (registerActive n) (fun _ a => a.st.phase t = .registered) a := by
  refine Discipline.WP.act (stable_own fun p s o _ => p = .acquired ∧ s = some n ∧ o = n) hi
    ⟨hph, hslot, hn⟩ fun a b k s' hi h hok hact => ?_
  obtain ⟨hph, hslot, hn⟩ := h
  obtain ⟨hroom, hmov⟩ := hok.1
  have hlt : a.st.count < MAX_THREADS := hi.card_listing ▸ hroom
  simp only [registry, action, orderly, Option.some.injEq, Prod.mk.injEq] at hact
  obtain ⟨rfl, rfl⟩ := hact
  refine ⟨a.reserve t, rfl, hi.reserve hph (hn ▸ hslot) hlt hmov, Guar.reserve hi hmov, ?_⟩
  generalize hk : a.st.count = k
  refine Discipline.WP.act (stable_own fun p _ o r => p = .reserved ∧ o = n ∧ r = k)
    (hi.reserve hph (hn ▸ hslot) hlt hmov) (by simp [Aug.reserve, hn, hk])
    fun a b r s' hi h _ hact => ?_
  obtain ⟨hph, hn, hk⟩ := h
  simp only [registry, action, orderly, if_pos hph, Option.some.injEq, Prod.mk.injEq] at hact
  obtain ⟨-, rfl⟩ := hact
  refine ⟨a.enlist t, by simp [Aug.enlist, hn, hk, orderly], hi.enlist hph, Guar.enlist hi hph, ?_⟩
  exact Discipline.WP.ret (stable_own fun p _ _ _ => p = .registered) (hi.enlist hph)
    (by simp [Aug.enlist])

/-- The search for a free slot. -/
theorem wp_slot (hi : Inv a) (h : Idle t a) :
    (orderly strict).WP t slot (fun _ a => a.st.phase t = .registered) a := by
  have hreg : (orderly strict).Stable t fun a => a.st.phase t = .registered :=
    stable_own fun p _ _ _ => p = .registered
  have haway : (orderly strict).Stable t fun a => a.st.phase t = .away :=
    stable_own fun p _ _ _ => p = .away
  refine Discipline.WP.act stable_idle hi h fun a b ts s' hi h _ hact => ?_
  simp only [registry, action, orderly, Option.some.injEq, Prod.mk.injEq] at hact
  obtain ⟨rfl, rfl⟩ := hact
  refine ⟨a, rfl, hi, Guar.refl _ _ _, ?_⟩
  rw [Prog.ret_bind]
  rcases h with ⟨hph, hslot⟩ | hph
  · rw [hslot]
    refine wp_quiet rfl haway hi hph (fun a s' h hq => by simpa only [hq.phase] using h)
      fun a self hi h => ?_
    refine Discipline.WP.loop (I := fun i a => i < MAX_THREADS ∧ a.st.phase t = .away)
      (fun i => Discipline.Stable.const.and haway) hi ⟨by decide, h⟩ fun i a hi h => ?_
    simp only [Prog.bind_eq, Prog.perform_bind, Prog.pure_eq]
    refine Discipline.WP.act (Discipline.Stable.const.and haway) hi h
      fun a b r s' hi h hok hact => ?_
    obtain ⟨hlt, hph⟩ := h
    simp only [registry, action, orderly] at hact
    split at hact
    · next h0 =>
      simp only [Option.some.injEq, Prod.mk.injEq] at hact
      obtain ⟨rfl, rfl⟩ := hact
      -- the slot was free, and is the thread's now
      have hi' := hi.acquire hph h0 (hok.1 h0) hlt
      refine ⟨a.acquire t i self, rfl, hi', Guar.acquire hi hph, ?_⟩
      rw [if_pos rfl]
      refine Discipline.WP.act (stable_own fun p _ o _ => p = .acquired ∧ o = i) hi'
        (by simp [Aug.acquire]) fun a b r s' hi h _ hact => ?_
      obtain ⟨hph, hn⟩ := h
      simp only [registry, action, orderly, Option.some.injEq, Prod.mk.injEq, reduceCtorEq,
        if_false] at hact
      obtain ⟨-, rfl⟩ := hact
      have hi' := hi.setTls (t := t) (by simp [hph, Phase.listed])
        { a.st.tls t with slot := some i }
      refine ⟨_, rfl, hi', Guar.setTls hi _, ?_⟩
      refine Discipline.WP.bind (Discipline.WP.mono (fun _ a hi h => ?_)
        (wp_registerActive hi' hph (by simp) hn))
      exact Discipline.WP.ret (Discipline.WP.stable _ _) hi (Discipline.WP.ret hreg hi h)
    · simp only [Option.some.injEq, Prod.mk.injEq] at hact
      obtain ⟨rfl, rfl⟩ := hact
      refine ⟨a, rfl, hi, Guar.refl _ _ _, ?_⟩
      rw [if_neg (by simp)]
      exact Discipline.WP.ret (Discipline.Stable.const.and haway) hi
        ⟨Nat.mod_lt _ (by decide), hph⟩
  · rw [hi.tls_slot t (by simp [hph, Phase.listed])]
    exact Discipline.WP.ret hreg hi hph

end Slot

/-! ## Giving the slot back -/

section Unregister

variable {strict : Prop} {t i n k p last : Nat} {a : Aug}

/-- The thread removes its entry and stands at position `p`, at or after `j`. -/
def Searching (t i n p : Nat) (a : Aug) : Prop :=
  a.st.phase t = .moving ∧ (a.slotOf t = i ∧ a.line p = t ∧ p < n ∧ a.st.count = n ∧
    a.stage = .settled)

theorem stable_searching : (orderly strict).Stable t (Searching t i n p) :=
  stable_removing fun o l c g => o = i ∧ l p = t ∧ p < n ∧ c = n ∧ g = .settled

theorem Searching.entry (hi : Inv a) (h : Searching t i n p a) : a.st.entries p = some i := by
  obtain ⟨hph, rfl, hline, hp, rfl, hs⟩ := h
  rw [hi.entries, Aug.shown_settled hs, Aug.base_eq_some]
  exact ⟨hp, by simp [hline, hph], by rw [hline]⟩

/-- The search finds an entry that names the slot. -/
theorem wp_findEntry (hi : Inv a) (h : Searching t i n p a) :
    (orderly strict).WP t (findEntry i n)
      (fun r a => Searching t i n p a ∧ ∃ k, r = some k ∧ a.base k = some i) a := by
  have hfound : ∀ r : Option Nat, (orderly strict).Stable t fun a =>
      Searching t i n p a ∧ ∃ k, r = some k ∧ a.base k = some i := by
    intro r u hu a b hi hi' hg h
    obtain ⟨h, k, rfl, hk⟩ := h
    exact ⟨stable_searching u hu a b hi hi' hg h, k, rfl, hg.base hu h.1 hi hk⟩
  have hinv : ∀ j : Nat, (orderly strict).Stable t fun a => Searching t i n p a ∧ j ≤ p :=
    fun j => stable_searching.and Discipline.Stable.const
  refine Discipline.WP.loop (I := fun j a => Searching t i n p a ∧ j ≤ p) hinv hi
    ⟨h, Nat.zero_le p⟩ fun j a hi h => ?_
  have hjn : j < n := lt_of_le_of_lt h.2 h.1.2.2.2.1
  simp only [Prog.bind_eq, Prog.perform_bind, Prog.pure_eq, if_pos hjn]
  refine Discipline.WP.act (hinv j) hi h fun a b r s' hi h _ hact => ?_
  simp only [registry, action, orderly, Option.some.injEq, Prod.mk.injEq] at hact
  obtain ⟨rfl, rfl⟩ := hact
  have hj : j < MAX_THREADS :=
    lt_of_lt_of_le (lt_of_lt_of_le hjn h.1.2.2.2.2.1.ge) hi.count_le
  refine ⟨a.look t j, rfl, hi.look hj, Guar.look hi, ?_⟩
  split
  · next hent =>
    have hbase : (a.look t j).base j = some i := by
      have he := hi.entries
      rw [Aug.shown_settled h.1.2.2.2.2.2] at he
      exact (congrFun he j).symm.trans hent
    exact Discipline.WP.ret (Discipline.WP.stable _ _) (hi.look hj)
      (Discipline.WP.ret (hfound _) (hi.look hj) ⟨h.1, j, rfl, hbase⟩)
  · next hent =>
    have hne : j ≠ p := fun he => hent (he ▸ h.1.entry hi)
    exact Discipline.WP.ret (hinv _) (hi.look hj) ⟨h.1, by have := h.2; omega⟩

/-- From the read of the last entry to the decrement of the count. -/
theorem wp_moveLast (hi : Inv a) (h : Searching t i n p a) (hk : a.base k = some i) :
    (orderly strict).WP t (do
      let last ← Prog.perform (.loadEntry (n - 1))
      Prog.perform (.storeEntry k last)
      Prog.perform (.storeEntry (n - 1) none)
      Prog.perform .subCount) (fun _ a => a.st.phase t = .away) a := by
  have haway : (orderly strict).Stable t fun a => a.st.phase t = .away :=
    stable_own fun p _ _ _ => p = .away
  have hentry : (orderly strict).Stable t fun a => Searching t i n p a ∧ a.base k = some i := by
    intro u hu a b hi hi' hg h
    exact ⟨stable_searching u hu a b hi hi' hg h.1, hg.base hu h.1.1 hi h.2⟩
  simp only [Prog.bind_eq, Prog.perform_bind]
  refine Discipline.WP.act hentry hi ⟨h, hk⟩ fun a b r s' hi h hok hact => ?_
  obtain ⟨⟨hph, ho, hline, hp, hn, hs⟩, hk⟩ := h
  simp only [registry, action, orderly, Option.some.injEq, Prod.mk.injEq] at hact
  obtain ⟨rfl, rfl⟩ := hact
  -- the last entry has been written
  have hlast : a.st.phase (a.line (n - 1)) ≠ .reserved := by
    intro hr
    obtain ⟨hlt, hat⟩ := hi.reserved _ hr
    have heq : a.st.reservedAt (a.line (n - 1)) = n - 1 :=
      hi.line_inj _ _ hlt (by omega) hat
    have hlim := hi.limit t hph
    exact hok.1 hph (show n - 1 + 1 = a.st.limit t by omega) _
      ((hi.members _).mpr (by simp [hr])) hr heq
  have hbase : a.base (n - 1) = some (a.slotOf (a.line (n - 1))) := by
    rw [Aug.base_eq_some]
    exact ⟨by omega, hlast, rfl⟩
  have hread : a.st.entries (n - 1) = some (a.slotOf (a.line (n - 1))) := by
    rw [hi.entries, Aug.shown_settled hs, hbase]
  rw [hread]
  generalize a.slotOf (a.line (n - 1)) = last at hbase
  have hlt : n - 1 < MAX_THREADS := by
    have := hi.count_le
    omega
  refine ⟨a.look t (n - 1), rfl, hi.look hlt, Guar.look hi, ?_⟩
  -- the copy
  refine Discipline.WP.act (stable_found k p n last) (hi.look hlt)
    ⟨⟨hph, hn ▸ hp, hline, ho ▸ hk, hn ▸ hlast⟩, hs, hn, hbase⟩ fun a b r s' hi h _ hact => ?_
  obtain ⟨h, hs, hn, hbase⟩ := h
  simp only [registry, action, orderly, h.phase, reduceCtorEq, if_false, Option.some.injEq,
    Prod.mk.injEq] at hact
  obtain ⟨-, rfl⟩ := hact
  refine ⟨a.copy t k p, by simp [Aug.copy, orderly, hn, hbase], hi.copy hs h, Guar.copy hi hs h, ?_⟩
  -- the last entry is cleared
  refine Discipline.WP.act (stable_removing fun _ l c g => g = .copied k ∧ l k = t ∧ c = n)
    (hi.copy hs h) ⟨h.phase, rfl, by simp [Aug.copy, Aug.trade, h.place], hn⟩
    fun a b r s' hi h hok hact => ?_
  obtain ⟨hph, hs, hline, rfl⟩ := h
  simp only [registry, action, orderly, hph, reduceCtorEq, if_false, Option.some.injEq,
    Prod.mk.injEq] at hact
  obtain ⟨-, rfl⟩ := hact
  refine ⟨a.clearLast t k, rfl, hi.clearLast hs, Guar.clearLast hi hs hph hline hok.2, ?_⟩
  -- the count is decreased
  refine Discipline.WP.act (stable_removing fun _ l _ g => g = .cleared k ∧ l k = t)
    (hi.clearLast hs) ⟨hph, rfl, hline⟩ fun a b r s' hi h _ hact => ?_
  obtain ⟨hph, hs, hline⟩ := h
  simp only [registry, action, orderly, Option.some.injEq, Prod.mk.injEq] at hact
  obtain ⟨-, rfl⟩ := hact
  exact ⟨a.drop t k, rfl, hi.drop hs hline, Guar.drop hi hs hph,
    Discipline.WP.ret haway (hi.drop hs hline) (by simp [Aug.drop])⟩

theorem wp_unregisterActive (hi : Inv a) (hph : a.st.phase t = .released) (ho : a.slotOf t = i) :
    (orderly strict).WP t (unregisterActive i) (fun _ a => a.st.phase t = .away) a := by
  refine Discipline.WP.act (stable_own fun p _ o _ => p = .released ∧ o = i) hi ⟨hph, ho⟩
    fun a b n s' hi h hok hact => ?_
  obtain ⟨hph, ho⟩ := h
  have hmov := hok.1 hph
  simp only [registry, action, orderly, if_pos hph, Option.some.injEq, Prod.mk.injEq] at hact
  obtain ⟨rfl, rfl⟩ := hact
  have hi' := hi.begin hph hmov
  refine ⟨a.begin t, rfl, hi', Guar.begin hi hmov, ?_⟩
  obtain ⟨p, hp, hline⟩ := (hi.listed t).mp (by simp [hph, Phase.listed])
  have hsearch : Searching t i a.st.count p (a.begin t) :=
    ⟨by simp [Aug.begin], ho, hline, hp, rfl, hi.settled hmov⟩
  rw [Prog.ret_bind]
  refine Discipline.WP.bind (Discipline.WP.mono (fun r a hi h => ?_) (wp_findEntry hi' hsearch))
  obtain ⟨h, k, rfl, hk⟩ := h
  exact wp_moveLast hi h hk

theorem wp_releaseSlot (hi : Inv a) (h : Idle t a) :
    (orderly strict).WP t releaseSlot (fun _ a => Idle t a) a := by
  refine Discipline.WP.act stable_idle hi h fun a b ts s' hi h _ hact => ?_
  simp only [registry, action, orderly, Option.some.injEq, Prod.mk.injEq] at hact
  obtain ⟨rfl, rfl⟩ := hact
  refine ⟨a, rfl, hi, Guar.refl _ _ _, ?_⟩
  rw [Prog.ret_bind]
  rcases h with ⟨hph, hslot⟩ | hph
  · rw [hslot]
    exact Discipline.WP.ret stable_idle hi (.inl ⟨hph, hslot⟩)
  · have hslot := hi.tls_slot t (by simp [hph, Phase.listed])
    rw [hslot]
    generalize ho : a.slotOf t = i
    simp only [Prog.bind_eq, Prog.perform_bind]
    refine Discipline.WP.act (stable_own fun p _ o _ => p = .registered ∧ o = i) hi ⟨hph, ho⟩
      fun a b r s' hi h _ hact => ?_
    obtain ⟨hph, rfl⟩ := h
    simp only [registry, action, orderly, Option.some.injEq, Prod.mk.injEq] at hact
    obtain ⟨-, rfl⟩ := hact
    refine ⟨a.release t, rfl, hi.release hph, Guar.release hi, ?_⟩
    refine Discipline.WP.bind (Discipline.WP.mono (fun _ a hi h => ?_)
      (wp_unregisterActive (hi.release hph) (by simp [Aug.release]) rfl))
    refine Discipline.WP.act (stable_own fun p _ _ _ => p = .away) hi h
      fun a b r s' hi hph _ hact => ?_
    simp only [registry, action, orderly, if_true, Option.some.injEq, Prod.mk.injEq] at hact
    obtain ⟨-, rfl⟩ := hact
    have hmem : a.st.members.erase t = a.st.members :=
      Finset.erase_eq_of_notMem fun hm => (hi.members t).mp hm hph
    have hphase : update a.st.phase t .away = a.st.phase := by
      rw [← hph, Function.update_eq_self]
    rw [hmem, hphase]
    have hi' := hi.setTls (t := t) (by simp [hph, Phase.listed]) { a.st.tls t with slot := none }
    exact ⟨_, rfl, hi', Guar.setTls hi _,
      Discipline.WP.ret stable_idle hi' (.inl ⟨hph, by simp⟩)⟩

end Unregister

/-! ## Every run -/

section Runs

variable {strict : Prop} {t : Nat} {a : Aug}

theorem wp_storeOwn (hi : Inv a) (h : Idle t a) (idx : Nat) (v : Option Ptr) :
    (orderly strict).WP t (do
      let i ← slot
      Prog.perform (.storeHp i idx v)) (fun _ a => Idle t a) a := by
  refine Discipline.WP.bind (Discipline.WP.mono (fun i a hi h => ?_) (wp_slot hi h))
  exact keeps_quiet rfl keeps_ret a hi (.inr h)

theorem wp_finalizeThread (hi : Inv a) (h : Idle t a) :
    (orderly strict).WP t finalizeThread (fun _ a => Idle t a) a := by
  have hrelease : (orderly strict).Keeps t (Idle t) releaseSlot := fun a hi h => wp_releaseSlot hi h
  unfold finalizeThread
  refine (keeps_scan.bind fun _ => keeps_quiet rfl fun ts => ?_) a hi h
  simp only [Prog.bind_eq, Prog.perform_bind, Prog.ret_bind]
  split
  · exact (keeps_makeOrphans ts).bind fun _ => keeps_quiet rfl fun _ =>
      (keeps_pushAll _).bind fun _ => hrelease
  · exact hrelease

/-- Every call of the reclaimer keeps the registry, and leaves its thread idle. -/
theorem wp_code (hi : Inv a) (h : Idle t a) (c : Call) :
    (orderly strict).WP t (code c) (fun _ a => Idle t a) a := by
  have hdone : ∀ p : Code Unit, (orderly strict).WP t p (fun _ a => Idle t a) a →
      (orderly strict).WP t (p.bind fun _ => .ret true) (fun _ a => Idle t a) a := by
    intro p hp
    exact Discipline.WP.bind (Discipline.WP.mono (fun _ a hi h => keeps_ret _ a hi h) hp)
  cases c with
  | protect idx p => exact hdone _ (wp_storeOwn hi h idx p)
  | clear idx => exact hdone _ (wp_storeOwn hi h idx none)
  | retire p act => exact keeps_retire p act a hi h
  | reclaim => exact hdone _ (keeps_scan a hi h)
  | isProtected p => exact keeps_isProtected p a hi h
  | drainAll => exact hdone _ (keeps_drainAll a hi h)
  | exit => exact hdone _ (wp_finalizeThread hi h)

theorem invoke_quiet {c : Call} {s s' : State} (h : invoke t c s = some s') : Quiet t s s' := by
  have hrefl : Quiet t s s := by
    constructor <;> intros <;> rfl
  cases c <;> cases h
  case isProtected p =>
    exact { hrefl with
      scanned := fun u hu => Function.update_of_ne hu _ _
      scanners := fun u hu => by simp [hu] }
  all_goals exact hrefl

theorem respond_quiet (c : Call) (r : Bool) (s : State) : Quiet t s (respond t c r s) := by
  have hrefl : Quiet t s s := by
    constructor <;> intros <;> rfl
  cases c
  case isProtected p => exact { hrefl with scanners := fun u hu => by simp [respond, hu] }
  all_goals exact hrefl

theorem covers_orderly (strict : Prop) :
    (orderly strict).CoversIdle Idle fun t _ _ a => Idle t a where
  stable _ := stable_idle
  invoke t c a s' hi hidle h := by
    have hq := invoke_quiet (t := t) h
    exact ⟨{ a with st := s' }, rfl, Guar.quiet hi hq, wp_code (hi.quiet hq) (hidle.quiet hq) c⟩
  respond t c r a hi h := by
    have hq := respond_quiet (t := t) c r a.st
    exact ⟨{ a with st := respond t c r a.st }, rfl, hi.quiet hq, Guar.quiet hi hq, h.quiet hq⟩

/-- The initial state with its ghosts. -/
def Aug.init : Aug where
  st := .init
  slotOf := fun _ => 0
  line := fun _ => 0
  stage := .settled

theorem inv_init : Inv Aug.init where
  members u := by simp [Aug.init, State.init]
  owner i := by simp [Aug.init, State.init, Phase.owns]
  slot_inj u v h := by simp [Aug.init, State.init, Phase.owns] at h
  slot_lt u h := by simp [Aug.init, State.init, Phase.owns] at h
  tls_slot u h := by simp [Aug.init, State.init, Phase.listed] at h
  line_inj j k h := by simp [Aug.init, State.init] at h
  listed u := by simp [Aug.init, State.init, Phase.listed]
  reserved u h := by simp [Aug.init, State.init] at h
  count_le := by simp [Aug.init, State.init]
  one_moving u v h := by simp [Aug.init, State.init] at h
  limit u h := by simp [Aug.init, State.init] at h
  entries := by
    funext j
    simp [Aug.shown, Aug.base, Aug.init, State.init]
  copied k h := by simp [Aug.init] at h
  cleared k h := by simp [Aug.init] at h
  touched k h := by simp [Aug.init, State.init] at h

/-- When nobody is acquiring, registering or leaving, the line is that of the owners. -/
theorem Inv.complete (hi : Inv a) (h : Settled a.st) : Complete a.st := by
  have hreg : ∀ u, a.st.phase u ≠ .away → a.st.phase u = .registered := fun u hu =>
    h u ((hi.members u).mpr hu)
  -- no removal is half done, so the entries are those of the line
  have hset : a.st.entries = a.base := by
    rw [hi.entries, Aug.shown_settled]
    exact hi.settled fun u hu => by simp [h u hu]
  have hline : ∀ j < a.st.count, a.st.phase (a.line j) = .registered := fun j hj => by
    refine hreg _ fun he => ?_
    have := (hi.listed _).mpr ⟨j, hj, rfl⟩
    simp [he, Phase.listed] at this
  have hentry : ∀ j i, a.st.entries j = some i ↔ j < a.st.count ∧ a.slotOf (a.line j) = i := by
    intro j i
    rw [hset, Aug.base_eq_some]
    constructor
    · rintro ⟨h1, -, h3⟩
      exact ⟨h1, h3⟩
    · rintro ⟨h1, h3⟩
      exact ⟨h1, by simp [hline j h1], h3⟩
  have hinj : ∀ j < a.st.count, ∀ k < a.st.count,
      a.slotOf (a.line j) = a.slotOf (a.line k) → j = k := by
    intro j hj k hk he
    exact hi.line_inj j k hj hk (hi.slot_inj _ _ (by simp [hline j hj, Phase.owns])
      (by simp [hline k hk, Phase.owns]) he)
  have howner : ∀ i, a.st.owner i ≠ 0 ↔ ∃ j < a.st.count, a.slotOf (a.line j) = i := by
    intro i
    rw [hi.owner]
    constructor
    · rintro ⟨u, hu, rfl⟩
      have hph : a.st.phase u = .registered := hreg u fun he => by simp [he, Phase.owns] at hu
      obtain ⟨j, hj, rfl⟩ := (hi.listed u).mp (by simp [hph, Phase.listed])
      exact ⟨j, hj, rfl⟩
    · rintro ⟨j, hj, rfl⟩
      exact ⟨a.line j, by simp [hline j hj, Phase.owns], rfl⟩
  have hlt : ∀ i, a.st.owner i ≠ 0 → i < MAX_THREADS := by
    intro i hi'
    obtain ⟨u, hu, rfl⟩ := (hi.owner i).mp hi'
    exact hi.slot_lt u hu
  refine ⟨?_, fun i hi' => ⟨hlt i hi', ?_⟩⟩
  · have himage : (Finset.range MAX_THREADS).filter (fun i => a.st.owner i ≠ 0) =
        (Finset.range a.st.count).image fun j => a.slotOf (a.line j) := by
      ext i
      simp only [Finset.mem_filter, Finset.mem_range, Finset.mem_image]
      rw [howner]
      exact ⟨fun h => h.2, fun h => ⟨hlt i ((howner i).mpr h), h⟩⟩
    rw [himage, Finset.card_image_of_injOn, Finset.card_range]
    intro j hj k hk he
    exact hinj j (by simpa using hj) k (by simpa using hk) he
  · obtain ⟨j, hj, rfl⟩ := (howner i).mp hi'
    refine ⟨j, ⟨hj, (hentry j _).mpr ⟨hj, rfl⟩⟩, fun k hk => ?_⟩
    obtain ⟨hk, he⟩ := (hentry k _).mp hk.2
    exact hinj k hk j hj he

/-- In every run in which no removal overlaps a reservation or another removal, no removal reads
the last entry before it is written, and at most `MAX_THREADS` threads register, are registered or
leave at a time, the registry is only accessed inside its array, and whenever no thread is
acquiring, registering or leaving, the owned slots are listed exactly once. -/
theorem registry_complete (c : Config Op State Call Bool)
    (h : registry.Reach Orderly State.init c) :
    (∀ k ∈ c.shared.touched, k < MAX_THREADS) ∧ (Settled c.shared → Complete c.shared) := by
  have hreach : registry.Reach (orderly False).ok State.init c := by
    refine h.mono fun t o s ho => ⟨ho, False.elim⟩
  obtain ⟨a, ha, -⟩ := Discipline.reach_idle (covers_orderly False) inv_init
    (fun _ => .inl ⟨rfl, rfl⟩) hreach
  rw [← ha.erase]
  exact ⟨ha.inv.touched, ha.inv.complete⟩

end Runs

/-! ## A run that loses an entry -/

/-- `n` steps of thread `t`. -/
def steps (t n : Nat) : List (Label Call) := List.replicate n (.step t false)

/-- The first calls of threads 0, 1 and 2 register them in this order. -/
def registerThree : List (Label Call) :=
  [.call 0 (.protect 0 (some 5))] ++ steps 0 8 ++ [.ret 0] ++
  [.call 1 (.protect 0 (some 6))] ++ steps 1 10 ++ [.ret 1] ++
  [.call 2 (.protect 0 (some 7))] ++ steps 2 12 ++ [.ret 2]

/-- Thread 0 exits and finds its entry at position 0; before it reads the last entry, thread 1
exits, moves the last entry to position 1 and clears it. -/
def lostEntry : List (Label Call) :=
  registerThree ++ [.call 0 .exit] ++ steps 0 12 ++
  [.call 1 .exit] ++ steps 1 19 ++ [.ret 1] ++ steps 0 5 ++ [.ret 0]

/-- Two overlapping unregistrations can leave the slot of a live thread unlisted: thread 2 still
owns slot 2, and the one entry of the prefix is empty. -/
theorem lost_entry :
    ¬ ∀ c, registry.Reachable State.init c →
      (∀ k ∈ c.shared.touched, k < MAX_THREADS) ∧ (Settled c.shared → Complete c.shared) := by
  intro h
  have hrun : (registry.exec (SharedObject.start State.init) lostEntry).map (fun c =>
      (decide (Settled c.shared), c.shared.count, c.shared.entries 0, c.shared.owner 2)) =
        some (true, 1, none, 3) := by rfl
  obtain ⟨c, hc, he⟩ := Option.map_eq_some_iff.mp hrun
  simp only [Prod.mk.injEq, decide_eq_true_eq] at he
  obtain ⟨hset, hcount, hentry, howner⟩ := he
  obtain ⟨-, hcomplete⟩ := (h c (registry.reachable_exec lostEntry hc)).2 hset
  obtain ⟨-, k, ⟨hk, hent⟩, -⟩ := hcomplete 2 (by simp [howner])
  obtain rfl : k = 0 := by omega
  simp [hentry] at hent

/-- `Orderly` as a test. -/
def orderlyTest {β : Type} (t : Nat) (o : Op β) (s : State) : Bool :=
  match o with
  | .casOwner i self => s.owner i ≠ 0 ∨ self ≠ 0
  | .addCount => s.listing.card < MAX_THREADS ∧ ∀ u ∈ s.members, s.phase u ≠ .moving
  | .loadCount => s.phase t ≠ .released ∨ ∀ u ∈ s.members, s.phase u ≠ .moving
  | .loadEntry k => s.phase t ≠ .moving ∨ k + 1 ≠ s.limit t ∨
      ∀ u ∈ s.members, s.phase u ≠ .reserved ∨ s.reservedAt u ≠ k
  | _ => true

theorem orderlyTest_sound {β : Type} (t : Nat) (o : Op β) (s : State)
    (h : orderlyTest t o s = true) : Orderly t o s := by
  cases o <;> simp_all [orderlyTest, Orderly, imp_iff_not_or]

/-- Three threads register, one leaves, and another one registers. -/
def orderlyRun : List (Label Call) :=
  registerThree ++ [.call 0 .exit] ++ steps 0 17 ++ [.ret 0] ++
  [.call 3 (.protect 0 (some 8))] ++ steps 3 8 ++ [.ret 3]

/-- In the end three threads are registered. -/
theorem registry_complete_run :
    ∃ c, registry.Reach Orderly State.init c ∧ c.shared.count = 3 ∧
      (∀ k ∈ c.shared.touched, k < MAX_THREADS) ∧ (Settled c.shared → Complete c.shared) := by
  have hrun : (registry.execIf orderlyTest (SharedObject.start State.init) orderlyRun).map
      (·.shared.count) = some 3 := by rfl
  obtain ⟨c, hc, hcount⟩ := Option.map_eq_some_iff.mp hrun
  have hreach := registry.reach_execIf orderlyTest_sound orderlyRun .start hc
  exact ⟨c, hreach, hcount, registry_complete c hreach⟩

end MpmcMap.Reclaim.Hazard
