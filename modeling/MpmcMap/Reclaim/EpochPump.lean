import MpmcMap.Reclaim.DrainAll
import MpmcMap.Reclaim.EpochGuards

/-!
# Pumping the epoch reclaimer

Rounds of `enter`, `reclaim` and `exit` by one thread, while no thread is inside a guard or a call.
Every round advances the epoch. The tags of the thread's own lists come up in the first three. On
the chain the first one may do nothing, since `last_drain_epoch` may be the current epoch after all,
but from then on it is the epoch of the round before, and the three tags come up in the next three.
-/

namespace MpmcMap.Reclaim.Epoch

open Conc SharedObject Account

variable {t n i k : Nat} {s₀ s s' : State} {L : List (Nat × Entry)}

/-! ## One call of `reclaim` -/

/-- The tag of an orphan of `s₀`. -/
def tagOf (s₀ : State) (o : Nat) : Nat := (s₀.orphans o).elim 0 Orphan.tag

/-- The orphans have the tags that they have in `s₀`. -/
def SameTags (s₀ s : State) : Prop := ∀ o r, s.orphans o = some r → r.tag = tagOf s₀ o

theorem SameTags.refl (s : State) : SameTags s s := by
  intro o r hr
  rw [tagOf, hr]
  rfl

theorem SameTags.of_upd (h : SameTags s₀ s) (o : Nat) {v : Option Orphan}
    (hv : ∀ r, v = some r → r.tag = tagOf s₀ o) (a : Nat) (r : Orphan)
    (hr : upd s.orphans o v a = some r) : r.tag = tagOf s₀ a := by
  by_cases hao : a = o
  · subst hao
    rw [upd_same] at hr
    exact hv r hr
  · rw [upd_other _ _ hao] at hr
    exact h a r hr

/-- The code of the chain leaves everything else alone, and the tags of the orphans. -/
theorem prompt_tags (t : Nat) (s₀ s : State) :
    scheme.Prompt t fun s' => Aside t s s' ∧ s'.tls t = s.tls t ∧ SameTags s₀ s' where
  enabled he s := by
    cases he with
    | casLate e d =>
      simp only [scheme, accounts, action]
      split
      · exact ⟨_, rfl⟩
      · exact ⟨_, rfl⟩
    | _ => exact ⟨_, rfl⟩
  frame := by
    intro β e he b s₁ r s₂ h hact
    obtain ⟨haside, hown, htags⟩ := h
    have hsame : ∀ s₂ : State, Aside t s₁ s₂ → s₂.tls = s₁.tls → SameTags s₀ s₂ →
        Aside t s s₂ ∧ s₂.tls t = s.tls t ∧ SameTags s₀ s₂ := by
      intro s₂ haside' htls htags'
      exact ⟨haside.trans haside', by rw [htls, hown], htags'⟩
    cases he with
    | casLate e d =>
      simp only [scheme, accounts, action] at hact
      split at hact
      · cases hact
        exact hsame _ ⟨rfl, rfl, rfl, fun _ _ => rfl, rfl⟩ rfl htags
      · cases hact
        exact hsame _ (.refl t _) rfl htags
    | setOrphanNext o v =>
      cases hact
      refine hsame _ ⟨rfl, rfl, rfl, fun _ _ => rfl, rfl⟩ rfl (htags.of_upd o fun r hr => ?_)
      obtain ⟨r', hr', rfl⟩ := Option.map_eq_some_iff.mp hr
      exact htags o r' hr'
    | deleteOrphan o =>
      cases hact
      refine hsame _ ⟨rfl, rfl, rfl, fun _ _ => rfl, rfl⟩ rfl (htags.of_upd o fun r hr => ?_)
      cases hr
    | _ =>
      cases hact
      exact hsame _ ⟨rfl, rfl, rfl, fun _ _ => rfl, rfl⟩ rfl htags
  loads hact := by
    cases hact
    rfl
  fails := by
    intro e d b s seen s' hact
    simp only [scheme, accounts, action] at hact
    split at hact
    · cases hact
    · next hne =>
      cases hact
      exact ⟨rfl, fun hlate => by simpa using fun hb => hne ⟨hlate, hb⟩⟩

/-- A drain leaves the orphans of the other tags. -/
theorem ends_drainLate (tag : Nat) (htags : SameTags s₀ s)
    (hL : Chain (books s).orphan s.late L none) :
    Ends (accounts.alone t) (fun _ s' => Aside t s s'.1 ∧ s'.1.tls t = s.tls t ∧
      SameTags s₀ s'.1 ∧ Chain (books s'.1).orphan s'.1.late
        (L.filter fun x => tagOf s₀ x.1 ≠ tag).reverse none) (drainLate tag) (s, n) := by
  rw [drainLate_eq]
  refine (Scheme.ends_drain (P := fun x => tagOf s₀ x.1 ≠ tag) lawful (prompt_tags t s₀ s) ?_
    ⟨.refl t s, rfl, htags⟩ hL).mono fun _ s' h => ⟨h.1.1, h.1.2.1, h.1.2.2, h.2.chain⟩
  intro o r b s₁ n hF hne hact
  cases hact
  obtain ⟨r, hr⟩ : ∃ r, s₁.orphans o = some r := by
    rw [← Option.ne_none_iff_exists']
    intro hnone
    apply hne
    simp only [scheme, books, hnone, Option.map_none]
  refine Ends.ret ⟨?_, hF, rfl⟩
  rw [hr, Option.getD_some, decide_eq_true_eq, hF.2.2 o r hr]

/-- What `reclaim` does to the lists of its thread and to the chain `L`. -/
structure Reclaimed (t : Nat) (s₀ : State) (L : List (Nat × Entry)) (s s' : State) : Prop where
  aside : Aside t s s'
  localEpoch : (s'.tls t).localEpoch = (s.tls t).localEpoch
  retired : (s'.tls t).retired = upd (s.tls t).retired ((s.global + 1) % EPOCHS) []
  retiredActions :
    (s'.tls t).retiredActions = upd (s.tls t).retiredActions ((s.global + 1) % EPOCHS) []
  tags : SameTags s₀ s'
  chain : ∃ L', Chain (books s').orphan s'.late L' none ∧ (∀ x ∈ L', x ∈ L) ∧
    (L' = [] ∨ (s'.tls t).lastDrainEpoch = s.global) ∧
    ((s.tls t).lastDrainEpoch ≠ s.global → ∀ x ∈ L', tagOf s₀ x.1 ≠ (s.global + 1) % EPOCHS)

theorem ends_reclaim (htags : SameTags s₀ s) (hL : Chain (books s).orphan s.late L none) :
    Ends (accounts.alone t) (fun _ s' => Reclaimed t s₀ L s s'.1) reclaim (s, n) := by
  -- counting what is left changes none of this
  have hend : ∀ s' n, Reclaimed t s₀ L s s' →
      Ends (accounts.alone t) (fun _ s' => Reclaimed t s₀ L s s'.1)
        (.act .getTls fun ts => .act (.setTls { ts with retiredTotal :=
          (ts.retired 0).length + (ts.retired 1).length + (ts.retired 2).length }) .ret)
        (s', n) := by
    intro s' n h
    refine alone_act ⟨_, rfl⟩ fun _ ts s₁ m hact _ => ?_
    cases hact
    refine alone_act ⟨_, rfl⟩ fun _ _ s₂ m hact _ => ?_
    cases hact
    apply Ends.ret
    constructor
    case aside =>
      exact h.aside.trans ⟨rfl, rfl, rfl, fun u hu => upd_other _ _ hu, rfl⟩
    case tags => exact h.tags
    all_goals simp only [upd_same]
    case localEpoch => exact h.localEpoch
    case retired => exact h.retired
    case retiredActions => exact h.retiredActions
    case chain => exact h.chain
  unfold reclaim
  simp only [Prog.bind_eq, Prog.perform_bind]
  refine alone_act ⟨_, rfl⟩ fun _ g s₁ m hact _ => ?_
  cases hact
  refine Ends.bind (ends_freeTagged _) fun _ s₁ h₁ => ?_
  obtain ⟨s₁, n₁⟩ := s₁
  obtain ⟨haside, hlate, hown⟩ := h₁
  have htags₁ : SameTags s₀ s₁ := fun o r hr => htags o r (hlate.2 ▸ hr)
  have hL₁ : Chain (books s₁).orphan s₁.late L none := by
    rw [show s₁.late = s.late from hlate.1]
    simp only [books, show s₁.orphans = s.orphans from hlate.2]
    exact hL
  have hlast : (s₁.tls t).lastDrainEpoch = (s.tls t).lastDrainEpoch := by rw [hown]
  have hkeep : ∀ L', Chain (books s₁).orphan s₁.late L' none → (∀ x ∈ L', x ∈ L) →
      (L' = [] ∨ (s.tls t).lastDrainEpoch = s.global) → Reclaimed t s₀ L s s₁ := by
    intro L' hL' hsub hwhen
    constructor
    case aside => exact haside
    case localEpoch => rw [hown]
    case retired => rw [hown]
    case retiredActions => rw [hown]
    case tags => exact htags₁
    case chain =>
      refine ⟨L', hL', hsub, hlast.symm ▸ hwhen, fun hne => ?_⟩
      rcases hwhen with rfl | heq
      · simp
      · exact absurd heq hne
  refine alone_act ⟨_, rfl⟩ fun _ ts s₂ m hact _ => ?_
  cases hact
  rw [hlast]
  split
  · next hne =>
    refine alone_act ⟨_, rfl⟩ fun _ head s₂ m hact _ => ?_
    cases hact
    split
    · -- the drain frees the orphans of the tag
      refine Ends.bind (ends_drainLate _ htags₁ hL₁) fun _ s₂ h₂ => ?_
      obtain ⟨s₂, n₂⟩ := s₂
      obtain ⟨haside₂, hown₂, htags₂, hL₂⟩ := h₂
      refine alone_act ⟨_, rfl⟩ fun _ ts s₃ m hact _ => ?_
      cases hact
      refine alone_act ⟨_, rfl⟩ fun _ _ s₃ m hact _ => ?_
      cases hact
      apply hend
      constructor
      case aside =>
        exact (haside.trans haside₂).trans ⟨rfl, rfl, rfl, fun u hu => upd_other _ _ hu, rfl⟩
      case tags => exact htags₂
      all_goals simp only [upd_same]
      case localEpoch => rw [hown₂, hown]
      case retired => rw [hown₂, hown]
      case retiredActions => rw [hown₂, hown]
      case chain =>
        refine ⟨_, hL₂, fun x hx => ?_, .inr trivial, fun _ x hx => ?_⟩
        · rw [List.mem_reverse] at hx
          exact List.mem_of_mem_filter hx
        · rw [List.mem_reverse] at hx
          exact of_decide_eq_true (List.mem_filter.mp hx).2
    · next hnil =>
      apply hend
      have hnone : s₁.late = none := by simpa using hnil
      exact hkeep [] hnone (by simp) (.inl rfl)
  · next heq =>
    apply hend
    exact hkeep L hL₁ (fun _ hx => hx) (.inr (not_not.mp heq).symm)

/-! ## The rounds -/

/-- What is left after `k` calls of `reclaim` in consecutive epochs, from the one of `s₀` on. -/
structure Progress (t k : Nat) (s₀ s : State) : Prop where
  others : ∀ u, u ≠ t → s.tls u = s₀.tls u
  accepted : s.accepted = s₀.accepted
  tags : SameTags s₀ s
  lists : ∀ j, 0 < j → j ≤ k → (s.tls t).retired ((s₀.global + j) % EPOCHS) = [] ∧
    (s.tls t).retiredActions ((s₀.global + j) % EPOCHS) = []
  chain : ∃ L, Chain (books s).orphan s.late L none ∧
    (0 < k → L = [] ∨ (s.tls t).lastDrainEpoch = (s₀.global + k - 1) % EPOCHS) ∧
    ∀ j, 1 < j → j ≤ k → ∀ x ∈ L, tagOf s₀ x.1 ≠ (s₀.global + j) % EPOCHS

theorem Progress.reclaimed (h : Progress t k s₀ s) (hg : s.global = (s₀.global + k) % EPOCHS)
    (hL : Chain (books s).orphan s.late L none) (hs : Reclaimed t s₀ L s s') :
    Progress t (k + 1) s₀ s' := by
  have htag : (s.global + 1) % EPOCHS = (s₀.global + (k + 1)) % EPOCHS := by
    unfold EPOCHS at hg ⊢
    omega
  constructor
  case others =>
    intro u hu
    rw [hs.aside.others u hu, h.others u hu]
  case accepted => rw [hs.aside.accepted, h.accepted]
  case tags => exact hs.tags
  case lists =>
    intro j hpos hj
    rw [hs.retired, hs.retiredActions, htag]
    by_cases hjk : (s₀.global + j) % EPOCHS = (s₀.global + (k + 1)) % EPOCHS
    · rw [hjk, upd_same, upd_same]
      exact ⟨rfl, rfl⟩
    · rw [upd_other _ _ hjk, upd_other _ _ hjk]
      have hle : j ≤ k := by
        by_contra hlt
        obtain rfl : j = k + 1 := by omega
        exact hjk rfl
      exact h.lists j hpos hle
  case chain =>
    obtain ⟨L', hL', hsub, hlast, hfree⟩ := hs.chain
    obtain ⟨K, hK, hgate, hdone⟩ := h.chain
    obtain rfl := hK.unique hL
    refine ⟨L', hL', fun _ => ?_, fun j hj hjk x hx => ?_⟩
    · rw [Nat.add_succ_sub_one, ← hg]
      exact hlast
    · by_cases hle : j ≤ k
      · exact hdone j hj hle x (hsub x hx)
      · -- the round before has left its epoch, which is not this one
        obtain rfl : j = k + 1 := by omega
        rw [← htag]
        apply hfree _ x hx
        rcases hgate (by omega) with rfl | hlast
        · cases hsub x hx
        · rw [hlast, hg]
          unfold EPOCHS
          omega

/-- The guard does not matter to what is left. -/
theorem Progress.congr (h : Progress t k s₀ s) (hlate : SameLate s s')
    (haccepted : s'.accepted = s.accepted) (hothers : ∀ u, u ≠ t → s'.tls u = s.tls u)
    (hretired : (s'.tls t).retired = (s.tls t).retired)
    (hactions : (s'.tls t).retiredActions = (s.tls t).retiredActions)
    (hlast : (s'.tls t).lastDrainEpoch = (s.tls t).lastDrainEpoch) : Progress t k s₀ s' := by
  constructor
  case others =>
    intro u hu
    rw [hothers u hu, h.others u hu]
  case accepted => rw [haccepted, h.accepted]
  case tags => exact fun o r hr => h.tags o r (hlate.2 ▸ hr)
  case lists =>
    rw [hretired, hactions]
    exact h.lists
  case chain =>
    simp only [books, hlate.1, hlate.2, hlast]
    exact h.chain

/-- After `i` rounds and `k` calls of `reclaim`, with nobody inside a guard but perhaps `t`. -/
structure Pumping (t i k : Nat) (p : Phase) (s₀ s : State) : Prop where
  progress : Progress t k s₀ s
  global : s.global = (s₀.global + i) % EPOCHS
  active : ∀ e, s.active e = if p = .inside ∧ e = s.global then 1 else 0
  phase : s.phase t = p
  localEpoch : p = .inside → (s.tls t).localEpoch = s.global

theorem Pumping.mod_eq {p : Phase} (h : Pumping t i k p s₀ s) : s.global % EPOCHS = s.global := by
  rw [h.global, Nat.mod_mod]

theorem ends_enter (hmod : s.global % EPOCHS = s.global) :
    Ends (accounts.alone t) (fun _ s' => ∃ m, s'.1 = { s with
      active := upd s.active s.global (s.active s.global + 1)
      members := m
      tls := upd s.tls t { s.tls t with localEpoch := s.global } }) enter (s, n) := by
  unfold enter
  simp only [Prog.bind_eq, Prog.perform_bind]
  refine alone_act ⟨_, rfl⟩ fun _ g s₁ m hact _ => ?_
  cases hact
  refine alone_act ⟨_, rfl⟩ fun _ _ s₁ m hact _ => ?_
  cases hact
  refine alone_act ⟨_, rfl⟩ fun _ ts s₁ m hact _ => ?_
  cases hact
  refine alone_act ⟨_, rfl⟩ fun _ _ s₁ m hact _ => ?_
  cases hact
  rw [hmod]
  exact Ends.ret ⟨_, rfl⟩

/-- The last thread to leave an epoch that is the global one advances it. -/
theorem ends_exit (hmod : s.global % EPOCHS = s.global) (hloc : (s.tls t).localEpoch = s.global)
    (hone : s.active s.global = 1) :
    Ends (accounts.alone t) (fun _ s' => ∃ m, s'.1 = { s with
      active := upd s.active s.global 0
      members := m
      global := (s.global + 1) % EPOCHS }) exit (s, n) := by
  unfold exit
  simp only [Prog.bind_eq, Prog.perform_bind, Prog.pure_eq]
  refine alone_act ⟨_, rfl⟩ fun _ ts s₁ m hact _ => ?_
  cases hact
  rw [hloc]
  refine alone_act ⟨_, rfl⟩ fun _ old s₁ m hact _ => ?_
  cases hact
  rw [hmod, hone, if_pos rfl]
  refine alone_act ⟨_, rfl⟩ fun _ g s₁ m hact _ => ?_
  cases hact
  rw [if_pos rfl]
  refine alone_act ⟨_, if_pos rfl⟩ fun _ ok s₁ m hact _ => ?_
  cases (if_pos rfl).symm.trans hact
  exact Ends.ret ⟨_, rfl⟩

theorem performs_enter :
    accounts.Performs t [.enter] (Pumping t i k .outside s₀) (Pumping t i k .inside s₀) := by
  apply Performs.call
  intro s h
  refine ⟨_, if_pos h.phase, fun n => Ends.bind (ends_enter h.mod_eq) fun _ s' hs => Ends.ret ?_⟩
  obtain ⟨s', n'⟩ := s'
  obtain ⟨m, rfl⟩ := hs
  constructor
  case progress =>
    refine h.progress.congr ⟨rfl, rfl⟩ rfl (fun u hu => upd_other _ _ hu) ?_ ?_ ?_
    all_goals simp [accounts, Account.respond]
  case global => exact h.global
  case active =>
    intro e
    have hzero : ∀ e, s.active e = 0 := fun e => by simpa using h.active e
    by_cases he : e = s.global
    · subst he
      simp [accounts, Account.respond, hzero]
    · simp [accounts, Account.respond, upd_other _ _ he, hzero, he]
  case phase => exact upd_same _ _ _
  case localEpoch => simp [accounts, Account.respond]

theorem performs_reclaim :
    accounts.Performs t [.reclaim] (Pumping t k k .inside s₀) (Pumping t k (k + 1) .inside s₀) := by
  apply Performs.call
  intro s h
  refine ⟨s, rfl, fun n => ?_⟩
  obtain ⟨L, hL, -⟩ := h.progress.chain
  refine Ends.bind (ends_reclaim h.progress.tags hL) fun _ s' hs => Ends.ret ?_
  show Pumping t k (k + 1) .inside s₀ s'.1
  constructor
  case progress => exact h.progress.reclaimed h.global hL hs
  case global => rw [hs.aside.global, h.global]
  case active =>
    rw [hs.aside.active, hs.aside.global]
    exact h.active
  case phase => rw [hs.aside.phase, h.phase]
  case localEpoch =>
    rw [hs.localEpoch, hs.aside.global]
    exact h.localEpoch

theorem performs_exit :
    accounts.Performs t [.exit] (Pumping t i k .inside s₀) (Pumping t (i + 1) k .outside s₀) := by
  apply Performs.call
  intro s h
  have hone : s.active s.global = 1 := by simpa using h.active s.global
  refine ⟨_, if_pos h.phase, fun n =>
    Ends.bind (ends_exit h.mod_eq (h.localEpoch rfl) hone) fun _ s' hs => Ends.ret ?_⟩
  obtain ⟨s', n'⟩ := s'
  obtain ⟨m, rfl⟩ := hs
  constructor
  case progress => exact h.progress.congr ⟨rfl, rfl⟩ rfl (fun _ _ => rfl) rfl rfl rfl
  case global =>
    show (s.global + 1) % EPOCHS = _
    rw [h.global, Nat.mod_add_mod, Nat.add_assoc]
  case active =>
    intro e
    have hactive := h.active e
    by_cases he : e = s.global
    · subst he
      simp [accounts, Account.respond]
    · simpa [accounts, Account.respond, upd_other _ _ he, he] using hactive
  case phase => exact upd_same _ _ _
  case localEpoch =>
    intro hp
    cases hp

/-- `k` rounds. -/
def pump (k : Nat) : List Account.Call := (List.replicate k [.enter, .reclaim, .exit]).flatten

theorem performs_pump (k : Nat) :
    accounts.Performs t (pump k) (Pumping t 0 0 .outside s₀) (Pumping t k k .outside s₀) := by
  induction k with
  | zero => exact .nil fun _ h => h
  | succ k ih =>
    rw [pump, List.replicate_succ', List.flatten_append, List.flatten_singleton]
    exact ih.append (performs_enter.append (performs_reclaim.append performs_exit))

/-! ## Four rounds -/

/-- Thread `t` or the chain answers for the object. -/
def Pending (t : Nat) (s : State) (x : Entry) : Prop :=
  x ∈ listed (s.tls t) ∨ ∃ L, Chain (books s).orphan s.late L none ∧ x ∈ L.map Prod.snd

/-- The epoch is the one of `s` advanced by four, and all that was pending has been freed, once. -/
structure Pumped (t : Nat) (s s' : State) : Prop where
  global : s'.global = (s.global + 4) % EPOCHS
  lists : ∀ e < EPOCHS, (s'.tls t).retired e = [] ∧ (s'.tls t).retiredActions e = []
  late : s'.late = none
  once : ∀ x, Pending t s x → x ∈ s'.ran ∧ (s'.ran.map Prod.fst).count x.1 = 1

theorem Pumping.lists_nil (h : Pumping t 4 4 .outside s₀ s) :
    ∀ e < EPOCHS, (s.tls t).retired e = [] ∧ (s.tls t).retiredActions e = [] := by
  intro e he
  obtain ⟨j, hpos, hj, rfl⟩ : ∃ j, 0 < j ∧ j ≤ 4 ∧ (s₀.global + j) % EPOCHS = e := by
    refine ⟨(e + 2 - s₀.global % EPOCHS) % EPOCHS + 1, ?_⟩
    unfold EPOCHS at he ⊢
    omega
  exact h.progress.lists j hpos hj

theorem Pumping.late_nil (h : Pumping t 4 4 .outside s₀ s)
    (htags : ∀ o r, s₀.orphans o = some r → r.tag < EPOCHS) : s.late = none := by
  obtain ⟨L, hL, -, hdone⟩ := h.progress.chain
  cases L with
  | nil => exact hL
  | cons x L =>
    exfalso
    have hlt : tagOf s₀ x.1 < EPOCHS := by
      unfold tagOf
      cases hr : s₀.orphans x.1 with
      | none => decide
      | some r => exact htags _ r hr
    -- the tag came up in one of the last three rounds
    obtain ⟨j, hj, hjk, htag⟩ : ∃ j, 1 < j ∧ j ≤ 4 ∧ tagOf s₀ x.1 = (s₀.global + j) % EPOCHS := by
      refine ⟨(tagOf s₀ x.1 + 1 + s₀.global * 2) % EPOCHS + 2, ?_⟩
      unfold EPOCHS at hlt ⊢
      omega
    exact hdone j hj hjk x List.mem_cons_self htag

variable {address : Nat → Nat} {c : Config Op State Account.Call Bool}

/-- What was pending before the rounds has been freed by the end of them. -/
theorem Pumping.once {c' : Config Op State Account.Call Bool}
    (hc : accounts.Reachable { State.init with address := address } c)
    (hc' : accounts.Reachable { State.init with address := address } c')
    (hidle : ∀ u, c.thread u = none) (hidle' : ∀ u, c'.thread u = none)
    (h : Pumping t 4 4 .outside c.shared c'.shared) (hlate : c'.shared.late = none) (x : Entry)
    (hx : Pending t c.shared x) :
    x ∈ c'.shared.ran ∧ (c'.shared.ran.map Prod.fst).count x.1 = 1 := by
  obtain ⟨-, -, hquiet⟩ := reach_accounts address c hc
  obtain ⟨late, hchain, -, -, hplaces, hunique⟩ := (hquiet hidle).2.2.places
  obtain ⟨honce, -, hquiet'⟩ := reach_accounts address c' hc'
  obtain ⟨late', hchain', -, -, hplaces', -⟩ := (hquiet' hidle').2.2.places
  obtain rfl : late' = [] := by
    rw [show (books c'.shared).late = none from hlate] at hchain'
    exact hchain'.eq_nil
  -- who answers for the object before the rounds is thread `t` or the chain
  obtain ⟨k, hk, hheld⟩ : ∃ k, (k = none ∨ k = some t) ∧
      x ∈ holding (fun u => listed (c.shared.tls u)) late k := by
    rcases hx with hx | ⟨L, hL, hx⟩
    · exact ⟨some t, .inr rfl, hx⟩
    · obtain rfl := hL.unique hchain
      exact ⟨none, .inl rfl, hx⟩
  have hmem : x ∈ c'.shared.ran := by
    by_contra hnot
    have hacc : x ∈ (books c'.shared).accepted := by
      rw [show (books c'.shared).accepted = c.shared.accepted from h.progress.accepted]
      exact ((hplaces x).mpr ⟨k, hheld⟩).1
    obtain ⟨k', hk'⟩ := (hplaces' x).mp ⟨hacc, hnot⟩
    cases k' with
    | none => cases hk'
    | some u =>
      have hmem : x ∈ listed (c'.shared.tls u) := hk'
      by_cases hu : u = t
      · subst hu
        have hnil := h.lists_nil
        simp [listed, tagged, hnil 0 (by decide), hnil 1 (by decide), hnil 2 (by decide)] at hmem
      · rw [h.progress.others u hu] at hmem
        obtain rfl := hunique x k (some u) hheld hmem
        rcases hk with hk | hk
        · cases hk
        · exact hu (Option.some.inj hk)
  exact ⟨hmem, List.count_eq_one_of_mem honce.nodup (List.mem_map_of_mem hmem)⟩

/-- From every state in which no thread is inside a guard or a call, four rounds by one thread free
all that it has retired and the whole chain, whatever the scheduler chooses. -/
theorem pump_frees (t : Nat) (hc : accounts.Reachable { State.init with address := address } c)
    (hidle : ∀ u, c.thread u = none) (hout : ∀ u, c.shared.phase u = .outside) :
    (∀ cls c', cls.map Prod.fst = pump 4 → accounts.exec c (Label.runs t cls) = some c' →
      Pumped t c.shared c'.shared) ∧
    ∃ cls c', cls.map Prod.fst = pump 4 ∧ accounts.exec c (Label.runs t cls) = some c' := by
  obtain ⟨hcounted, -⟩ := reach_guards hc
  obtain ⟨-, -, hquiet⟩ := reach_accounts address c hc
  obtain ⟨L, hL, -⟩ := (hquiet hidle).2.2.places
  have hstart : Pumping t 0 0 .outside c.shared c.shared := by
    constructor
    case progress =>
      refine ⟨fun _ _ => rfl, rfl, .refl _, fun j hpos hj => ?_, L, hL, fun h => ?_,
        fun j hj hk => ?_⟩
      · omega
      · cases h
      · omega
    case global => exact (Nat.mod_eq_of_lt hcounted.global_lt).symm
    case active =>
      intro e
      rw [nobody_active hc hidle hout e]
      rfl
    case phase => exact hout t
    case localEpoch =>
    intro hp
    cases hp
  obtain ⟨hall, hreturns⟩ := performs_pump 4 c (hidle t) hstart
  refine ⟨fun cls c' hcls hrun => ?_, hreturns⟩
  obtain ⟨hthread, hpump⟩ := hall cls c' hcls hrun
  -- after four rounds the epoch has gone once around, past the tag of every orphan
  have hlate : c'.shared.late = none := hpump.late_nil hcounted.tag_lt
  have hc' : accounts.Reachable { State.init with address := address } c' :=
    accounts.reach_execIf (fun _ _ _ _ => trivial) _ hc hrun
  have hidle' : ∀ u, c'.thread u = none := by
    rw [hthread]
    exact hidle
  exact ⟨hpump.global, hpump.lists_nil, hlate, Pumping.once hc hc' hidle hidle' hpump hlate⟩

/-- Thread 1 retires 7 and exits, thread 0 frees it. Thread 1 retires 8 and exits, thread 0 retires
9, and then the epoch is again the one in which thread 0 has drained the chain. -/
def wrapped : List (Label Account.Call) :=
  Label.whole 1 .enter 4 ++ Label.whole 1 (.retire 7 ⟨1⟩) 6 ++ Label.whole 1 .exit 4 ++
  Label.whole 1 .finalizeThread 32 ++
  Label.whole 0 .enter 4 ++ Label.whole 0 .reclaim 24 ++ Label.whole 0 .exit 4 ++
  Label.whole 0 .enter 4 ++ Label.whole 0 .reclaim 19 ++ Label.whole 0 .exit 4 ++
  Label.whole 1 .enter 4 ++ Label.whole 1 (.retire 8 ⟨2⟩) 6 ++ Label.whole 1 .exit 4 ++
  Label.whole 1 .finalizeThread 32 ++
  Label.whole 0 .enter 4 ++ Label.whole 0 (.retire 9 ⟨3⟩) 6 ++ Label.whole 0 .exit 4

/-- Four rounds of thread 0. -/
def fourRounds : List (Account.Call × List Bool) :=
  let round (n : Nat) : List (Account.Call × List Bool) := [(.enter, List.replicate 4 false),
    (.reclaim, List.replicate n false), (.exit, List.replicate 4 false)]
  round 9 ++ round 27 ++ round 24 ++ round 19

set_option maxRecDepth 4000 in
/-- The first round does not drain the chain; the fourth frees 8. -/
theorem pump_frees_run : ∃ c c', accounts.exec (start State.init) wrapped = some c ∧
    accounts.exec c (Label.runs 0 fourRounds) = some c' ∧
    (c.shared.global, (c.shared.tls 0).lastDrainEpoch, c.shared.ran) = (2, 2, [(7, ⟨1⟩)]) ∧
    c'.shared.ran = [(7, ⟨1⟩), (9, ⟨3⟩), (8, ⟨2⟩)] ∧ Pumped 0 c.shared c'.shared := by
  have hrun : ((accounts.exec (start State.init) wrapped).bind fun c =>
      (accounts.exec c (Label.runs 0 fourRounds)).map fun c' =>
        (((c.thread 0).isNone, (c.thread 1).isNone),
          (c.shared.active 0, c.shared.active 1, c.shared.active 2),
          (c.shared.global, (c.shared.tls 0).lastDrainEpoch, c.shared.ran), c'.shared.ran)) =
      some ((true, true), (0, 0, 0), (2, 2, [(7, ⟨1⟩)]), [(7, ⟨1⟩), (9, ⟨3⟩), (8, ⟨2⟩)]) := by rfl
  obtain ⟨c, hc, hrest⟩ := Option.bind_eq_some_iff.mp hrun
  obtain ⟨c', hc', hval⟩ := Option.map_eq_some_iff.mp hrest
  obtain ⟨hidle, hval⟩ := Prod.mk.inj hval
  obtain ⟨hactive, hval⟩ := Prod.mk.inj hval
  obtain ⟨hstate, hran⟩ := Prod.mk.inj hval
  simp only [Prod.mk.injEq, Option.isNone_iff_eq_none] at hidle hactive
  have hreach : accounts.Reachable { State.init with address := id } c :=
    accounts.reachable_exec wrapped hc
  have hnone : ∀ u, c.thread u = none := by
    intro u
    by_cases hu : u ∈ wrapped.map Label.thread
    · have hlt : (wrapped.map Label.thread).all (· < 2) = true := by rfl
      have hu : u < 2 := by simpa using List.all_eq_true.mp hlt u hu
      obtain rfl | rfl : u = 0 ∨ u = 1 := by omega
      · exact hidle.1
      · exact hidle.2
    · rw [accounts.execIf_other wrapped hc hu]
      rfl
  have hout : ∀ u, c.shared.phase u = .outside := by
    apply outside_of_inactive hreach hnone
    intro e he
    have he : e < 3 := he
    obtain rfl | rfl | rfl : e = 0 ∨ e = 1 ∨ e = 2 := by omega
    · exact hactive.1
    · exact hactive.2.1
    · exact hactive.2.2
  have hpumped := (pump_frees 0 hreach hnone hout).1 fourRounds c' rfl hc'
  exact ⟨c, c', hc, hc', hstate, hran, hpumped⟩

end MpmcMap.Reclaim.Epoch
