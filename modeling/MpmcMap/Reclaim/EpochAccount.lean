import MpmcMap.Reclaim.Late
import Mathlib.Algebra.Order.Group.Multiset

/-!
# The accounts of the epoch reclaimer

Every call of the reclaimer, the end of a thread and the destructor's `drain_all` included, keeps
the accounts: a thread that is not inside a call answers for exactly the objects in its three
lists, whose two vectors are aligned.
-/

namespace MpmcMap.Reclaim.Epoch

open Conc
open Function (update)

namespace Account

/-! ## Callers -/

/-- The calls of the reclaimer and the end of a thread. -/
inductive Call where
  | enter
  | exit
  | retire (x : Ptr) (a : RetireAction)
  | reclaim
  | finalizeThread
  | drainAll

def code : Call → Code Bool
  | .enter => do enter; return true
  | .exit => do exit; return true
  | .retire x a => retire x a
  | .reclaim => do reclaim; return true
  | .finalizeThread => do finalizeThread; return true
  | .drainAll => do drainAll; return true

/-- An object is retired once, unless a call that retires it throws. -/
def invoke (t : Nat) (c : Call) (s : State) : Option State :=
  match c with
  | .enter => if s.phase t = .outside then some { s with phase := upd s.phase t .entering } else none
  | .exit => if s.phase t = .inside then some { s with phase := upd s.phase t .exiting } else none
  | .retire x _ => if x ∈ s.submitted then none else some { s with submitted := insert x s.submitted }
  | _ => some s

def respond (t : Nat) (c : Call) (r : Bool) (s : State) : State :=
  match c with
  | .enter => { s with phase := upd s.phase t .inside }
  | .exit => { s with phase := upd s.phase t .outside }
  | .retire x f =>
    if r then { s with returned := s.returned ++ [(x, f)] }
    else { s with submitted := s.submitted.erase x }
  | _ => s

/-- The reclaimer under callers that retire each object once. -/
def accounts : SharedObject Op State Call Bool where
  action := action
  code := code
  invoke := invoke
  respond := respond

def books (s : State) : Books where
  outstanding := s.outstanding
  late := s.late
  orphan o := (s.orphans o).map fun r => (r.next, (r.ptr, r.action))
  submitted := s.submitted
  accepted := s.accepted
  returned := s.returned
  ran := s.ran

/-- The late chain of the epoch reclaimer. -/
def scheme : Scheme accounts Orphan ThreadState where
  books := books
  tls := State.tls
  link := Orphan.next
  entry o := (o.ptr, o.action)
  incOutstanding := .incOutstanding
  decOutstanding := .decOutstanding
  run := .run
  loadLate := .loadLate
  exchangeLate := .exchangeLate
  casLate := .casLate
  newOrphan := .newOrphan
  readOrphan := .readOrphan
  setOrphanNext := .setOrphanNext
  deleteOrphan := .deleteOrphan

theorem upd_eq {α : Type} (f : Nat → α) (i : Nat) (v : α) : upd f i v = update f i v := by
  funext j
  simp [upd, Function.update_apply]

theorem lawful : scheme.Lawful where
  incOutstanding h := by
    cases h
    exact ⟨rfl, rfl⟩
  decOutstanding h := by
    cases h
    exact ⟨rfl, rfl⟩
  run h := by
    cases h
    exact ⟨rfl, rfl⟩
  loadLate h := by
    cases h
    rfl
  exchangeLate h := by
    cases h
    exact ⟨rfl, rfl, rfl⟩
  casLate h := by
    simp only [scheme, accounts, action] at h
    split at h
    · next hc =>
      cases h
      exact .inl ⟨rfl, hc.1, rfl, rfl⟩
    · cases h
      exact .inr ⟨rfl, rfl⟩
  newOrphan {o t b s r s'} h := by
    simp only [scheme, accounts, action] at h
    split at h
    · next hc =>
      cases h
      refine ⟨?_, ?_, rfl⟩
      · simpa [scheme, books] using hc
      · simp only [scheme, books, upd_eq, Scheme.map_update, Option.map_some]
    · cases h
  readOrphan {i t b s r s'} h := by
    cases h
    refine ⟨rfl, fun x hx => ?_⟩
    simp only [scheme, books] at hx ⊢
    obtain ⟨r, hr, rfl⟩ := Option.map_eq_some_iff.mp hx
    rw [hr]
    rfl
  setOrphanNext {i v t b s r s'} h := by
    cases h
    refine ⟨?_, rfl⟩
    simp only [scheme, books, upd_eq, Scheme.map_update, Option.map_map]
    rfl
  deleteOrphan h := by
    cases h
    refine ⟨?_, rfl⟩
    simp only [scheme, books, upd_eq, Scheme.map_update, Option.map_none]

theorem pushAll_eq (head : Option Nat) : pushAll head = scheme.pushAll head := rfl

/-- `drain_late` keeps the orphans of the other tags. -/
theorem drainLate_eq (tag : Nat) :
    drainLate tag = scheme.drain fun o => .ret (decide (o.tag ≠ tag)) := by
  unfold drainLate Scheme.drain
  refine congrArg (Prog.bind _) (funext fun head => ?_)
  -- the two loops have the same step
  refine congrArg (fun step => Prog.bind (Prog.iterate step (head, none, none)) _) (funext fun l => ?_)
  obtain ⟨head, kh, kt⟩ := l
  cases head with
  | none => rfl
  | some h =>
    simp only [Scheme.drainStep, Prog.bind_eq, Prog.perform_bind, Prog.ret_bind]
    congr 1
    funext o
    by_cases ho : o.tag = tag
    · simp only [ho, ne_eq, not_true_eq_false, decide_false, Bool.false_eq_true, if_false, if_true]
      rfl
    · simp only [ho, ne_eq, not_false_eq_true, decide_true, if_true, if_false]
      cases kt <;> rfl

/-! ## The lists of a thread -/

/-- The objects of one tag, with their actions. -/
def tagged (ts : ThreadState) (e : Nat) : List Entry := (ts.retired e).zip (ts.retiredActions e)

def listed (ts : ThreadState) : List Entry := tagged ts 0 ++ tagged ts 1 ++ tagged ts 2

/-- The two vectors of every tag have the same length. -/
def Aligned (ts : ThreadState) : Prop :=
  ∀ e, (ts.retired e).length = (ts.retiredActions e).length

/-- The lists apart from those of one tag. -/
theorem listed_split (ts : ThreadState) {tag : Nat} (htag : tag < EPOCHS) :
    ∃ rest : Multiset Entry, ∀ ts', (∀ e, e ≠ tag → tagged ts' e = tagged ts e) →
      (listed ts' : Multiset Entry) = (tagged ts' tag : Multiset Entry) + rest := by
  have hlisted : ∀ ts : ThreadState, (listed ts : Multiset Entry) =
      (tagged ts 0 : Multiset Entry) + (tagged ts 1 : Multiset Entry) + (tagged ts 2 : List Entry) :=
    fun _ => rfl
  unfold EPOCHS at htag
  obtain rfl | rfl | rfl : tag = 0 ∨ tag = 1 ∨ tag = 2 := by omega
  · refine ⟨(tagged ts 1 : Multiset Entry) + (tagged ts 2 : List Entry), fun ts' h => ?_⟩
    rw [hlisted, h 1 (by decide), h 2 (by decide), add_assoc]
  · refine ⟨(tagged ts 0 : Multiset Entry) + (tagged ts 2 : List Entry), fun ts' h => ?_⟩
    rw [hlisted, h 0 (by decide), h 2 (by decide), add_comm (tagged ts 0 : Multiset Entry),
      add_assoc]
  · refine ⟨(tagged ts 0 : Multiset Entry) + (tagged ts 1 : List Entry), fun ts' h => ?_⟩
    rw [hlisted, h 0 (by decide), h 1 (by decide), add_comm]

/-- What a thread has between two calls; while it retires `claim` it also has that object. -/
def share (ts : ThreadState) (claim : Option Ptr) (due : Option Entry) : Ledger.Share where
  held := listed ts
  token := false
  cells := fun _ => none
  claim := claim
  due := due

/-- The thread answers for its lists and nothing else. -/
def Ready (t : Nat) (claim : Option Ptr) (due : Option Entry) (a : Scheme.Aug State) : Prop :=
  ∃ ts, Aligned ts ∧ scheme.Owns t ts (share ts claim due) a

variable {t : Nat} {ts : ThreadState} {σ : Ledger.Share} {a : Scheme.Aug State} {claim : Option Ptr} {due : Option Entry}
  {α : Type} {Q : α → Scheme.Aug State → Prop}

theorem stable_ready : scheme.discipline.Stable t (Ready t claim due) :=
  .exist fun _ => Discipline.Stable.const.and Scheme.stable_owns

/-! ## The code -/

theorem wp_getTls {k : ThreadState → Code α} (hi : (scheme.ledger a).Ok)
    (h : scheme.Owns t ts σ a)
    (hk : ∀ a, (scheme.ledger a).Ok → scheme.Owns t ts σ a → scheme.discipline.WP t (k ts) Q a) :
    scheme.discipline.WP t (.act .getTls k) Q a := by
  refine Scheme.wp_local (R := fun r ts' => r = ts ∧ ts' = ts) (fun hact hts => ?_) hi h
    fun b r ts' hr hi h => ?_
  · cases hact
    refine ⟨ts, rfl, ?_, hts, rfl⟩
    rw [← hts, Function.update_eq_self]
  · rw [hr.2] at h
    rw [hr.1]
    exact hk b hi h

theorem wp_setTls (ts' : ThreadState) {k : Unit → Code α} (hi : (scheme.ledger a).Ok)
    (h : scheme.Owns t ts σ a)
    (hk : ∀ a, (scheme.ledger a).Ok → scheme.Owns t ts' σ a →
      scheme.discipline.WP t (k ()) Q a) :
    scheme.discipline.WP t (.act (.setTls ts') k) Q a := by
  refine Scheme.wp_local (R := fun _ ts'' => ts'' = ts') (fun hact _ => ?_) hi h
    fun b r ts'' hr hi h => ?_
  · cases hact
    exact ⟨ts', rfl, upd_eq _ _ _, rfl⟩
  · rw [hr] at h
    exact hk b hi h

theorem wp_freeTagged (tag : Nat) (htag : tag < EPOCHS) (hal : Aligned ts)
    (hi : (scheme.ledger a).Ok) (h : scheme.Owns t ts (share ts claim due) a) :
    scheme.discipline.WP t (freeTagged tag) (fun _ a => ∃ ts', Aligned ts' ∧
      (∀ e, e ≠ tag → ts'.retired e = ts.retired e) ∧ ts'.retired tag = [] ∧
      scheme.Owns t ts' (share ts' claim due) a) a := by
  obtain ⟨rest, hrest⟩ := listed_split ts htag
  have hlen : ((ts.retired tag).zip (ts.retiredActions tag)).length = (ts.retired tag).length := by
    simp [List.length_zip, hal tag]
  unfold freeTagged
  simp only [Prog.bind_eq, Prog.perform_bind, Prog.iterate_bind, Prog.pure_eq]
  refine wp_getTls hi h fun a hi h => ?_
  refine wp_setTls _ hi h fun a hi h => ?_
  set ts₁ : ThreadState := { ts with retiredTotal := ts.retiredTotal - (ts.retired tag).length }
  -- what is left of the tag, and the other tags
  let left : Nat → Ledger.Share := fun i => { share ts claim due with
    held := ((tagged ts tag).drop i : List Entry) + rest }
  have hleft : share ts claim due = left 0 := by
    simp only [share, left, List.drop_zero, hrest ts fun _ _ => rfl]
  have hst : ∀ i, scheme.discipline.Stable t (scheme.Owns t ts₁ (left i)) :=
    fun i => Scheme.stable_owns
  refine Discipline.WP.loop hst hi (hleft ▸ h) fun i a hi h => ?_
  split
  · next hlt =>
    have hheld : (left i).held = ((ts.retired tag).getD i 0, (ts.retiredActions tag).getD i ⟨0⟩) ::ₘ
        (left (i + 1)).held := by
      simp only [left, tagged, drop_zip (hal tag) hlt, ← Multiset.cons_coe, Multiset.cons_add]
    exact Scheme.wp_free lawful hi h rfl hheld fun a hi h => Discipline.WP.ret (hst (i + 1)) hi h
  · next hge =>
    have hdrop : (tagged ts tag).drop i = [] := by
      rw [List.drop_eq_nil_iff, tagged, hlen]
      omega
    refine Discipline.WP.ret (Discipline.WP.stable _ _) hi ?_
    let ts₂ : ThreadState := { ts₁ with
      retired := upd ts₁.retired tag [], retiredActions := upd ts₁.retiredActions tag [] }
    have hheld : (listed ts₂ : Multiset Entry) = (left i).held := by
      rw [hrest ts₂ fun e he => by simp [tagged, ts₂, ts₁, upd_other _ _ he]]
      have hnil : tagged ts₂ tag = [] := by simp [tagged, ts₂]
      simp only [left, hdrop, hnil]
    refine wp_getTls hi h fun a hi h => ?_
    refine wp_setTls ts₂ hi h fun a hi h => ?_
    refine Discipline.WP.ret (.exist fun _ => Discipline.Stable.const.and
      (Discipline.Stable.const.and (Discipline.Stable.const.and Scheme.stable_owns))) hi
      ⟨ts₂, fun e => ?_, fun e he => upd_other _ _ he, upd_same _ _ _, ?_⟩
    · by_cases he : e = tag
      · subst he
        simp [ts₂]
      · simpa [ts₂, ts₁, upd_other _ _ he] using hal e
    · simpa only [share, left, hheld] using h

/-- Fields of the thread state that the lists do not depend on. -/
theorem ready_setTls {ts' : ThreadState} {k : Unit → Code α} {ts : ThreadState} (hal : Aligned ts)
    (hret : ts'.retired = ts.retired) (hact : ts'.retiredActions = ts.retiredActions)
    (hi : (scheme.ledger a).Ok) (h : scheme.Owns t ts (share ts claim due) a)
    (hk : ∀ a, (scheme.ledger a).Ok → Aligned ts' → scheme.Owns t ts' (share ts' claim due) a →
      scheme.discipline.WP t (k ()) Q a) :
    scheme.discipline.WP t (.act (.setTls ts') k) Q a := by
  have hshare : share ts' claim due = share ts claim due := by
    simp only [share, listed, tagged, hret, hact]
  refine wp_setTls _ hi h fun a hi h => hk a hi (fun e => ?_) (hshare ▸ h)
  rw [hret, hact]
  exact hal e

theorem wp_reclaim (hi : (scheme.ledger a).Ok) (h : Ready t claim due a) :
    scheme.discipline.WP t reclaim (fun _ a => Ready t claim due a) a := by
  obtain ⟨ts, hal, h⟩ := h
  have hend : ∀ ts a, Aligned ts → (scheme.ledger a).Ok →
      scheme.Owns t ts (share ts claim due) a → scheme.discipline.WP t
        (.act .getTls fun ts => .act (.setTls { ts with retiredTotal :=
          (ts.retired 0).length + (ts.retired 1).length + (ts.retired 2).length }) .ret)
        (fun _ a => Ready t claim due a) a := by
    intro ts a hal hi h
    refine wp_getTls hi h fun a hi h => ?_
    exact ready_setTls hal rfl rfl hi h fun a hi hal h =>
      Discipline.WP.ret stable_ready hi ⟨_, hal, h⟩
  unfold reclaim
  simp only [Prog.bind_eq, Prog.perform_bind]
  refine Scheme.wp_silent (fun hact => by cases hact; exact ⟨rfl, rfl⟩) hi h fun a g hi h => ?_
  have htag : (g + 1) % EPOCHS < EPOCHS := Nat.mod_lt _ (by decide)
  refine Discipline.WP.bind ((wp_freeTagged _ htag hal hi h).mono fun _ a hi h => ?_)
  obtain ⟨ts, hal, -, -, h⟩ := h
  refine wp_getTls hi h fun a hi h => ?_
  split
  · refine Scheme.wp_silent (fun hact => by cases hact; exact ⟨rfl, rfl⟩) hi h
      fun a head hi h => ?_
    split
    · rw [drainLate_eq]
      refine Discipline.WP.bind ((Scheme.wp_drain lawful (fun o σ =>
        Discipline.Keeps.ret Scheme.stable_owns _) rfl hi h).mono fun _ a hi h => ?_)
      refine wp_getTls hi h fun a hi h => ?_
      exact ready_setTls hal rfl rfl hi h fun a hi hal h => hend _ a hal hi h
    · exact hend ts a hal hi h
  · exact hend ts a hal hi h

/-- After a call of `retire`: if it has thrown the object is the caller's again, else it has been
accepted with the action of this call. -/
def Retired (t : Nat) (x : Ptr) (f : RetireAction) (r : Bool) (a : Scheme.Aug State) : Prop :=
  Ready t (if r then none else some x) (if r then some (x, f) else none) a

theorem wp_retire (x : Ptr) (f : RetireAction) (hi : (scheme.ledger a).Ok)
    (h : Ready t (some x) none a) :
    scheme.discipline.WP t (retire x f) (fun r a => Retired t x f r a) a := by
  obtain ⟨ts, hal, h⟩ := h
  let counted : Ledger.Share := { share ts (some x) none with token := true }
  -- the counter is taken back and the call throws
  have hlast : ∀ {ts' a}, Aligned ts' → (listed ts' : Multiset Entry) = listed ts →
      (scheme.ledger a).Ok → scheme.Owns t ts' counted a → scheme.discipline.WP t
        (.act .decOutstanding fun _ => .ret false : Code Bool) (fun r a => Retired t x f r a) a := by
    intro ts' a hal heq hi h
    refine Scheme.wp_discount lawful hi h rfl fun a hi h => ?_
    refine Discipline.WP.ret stable_ready hi ⟨ts', hal, ?_⟩
    show scheme.Owns t ts' (share ts' (some x) none) a
    simpa only [share, heq, counted] using h
  -- both pushes have succeeded
  have hdone : ∀ {a}, (scheme.ledger a).Ok → Ready t none (some (x, f)) a → scheme.discipline.WP t
      (.act .getTls fun ts => .act (.setTls { ts with retiredTotal := ts.retiredTotal + 1 })
        fun _ => if RECLAIM_THRESHOLD < ts.retiredTotal + 1 then reclaim.bind fun _ => .ret true
          else .ret true) (fun r a => Retired t x f r a) a := by
    intro a hi h
    obtain ⟨ts, hal, h⟩ := h
    refine wp_getTls hi h fun a hi h => ?_
    refine ready_setTls hal rfl rfl hi h fun a hi hal h => ?_
    split
    · refine Discipline.WP.bind ((wp_reclaim hi ⟨_, hal, h⟩).mono fun _ a hi h => ?_)
      exact Discipline.WP.ret stable_ready hi h
    · exact Discipline.WP.ret stable_ready hi ⟨_, hal, h⟩
  unfold retire
  simp only [Prog.bind_eq, Prog.perform_bind]
  refine Scheme.wp_count lawful hi h rfl fun a hi h => ?_
  refine wp_getTls hi h fun a hi h => ?_
  have he : ts.localEpoch % EPOCHS < EPOCHS := Nat.mod_lt _ (by decide)
  generalize ts.localEpoch % EPOCHS = e at he ⊢
  let pushed := ts.pushRetired e x
  let both := pushed.pushAction e f
  have hret : pushed.retired e = ts.retired e ++ [x] := by simp [pushed, ThreadState.pushRetired]
  refine Scheme.wp_local (σ := counted) (R := fun r ts' => (r = true ∧ ts' = pushed) ∨
    (r = false ∧ ts' = ts)) (fun hact hts => ?_) hi h fun a r ts' hr hi h => ?_
  · simp only [accounts, action] at hact
    split at hact
    · cases hact
      refine ⟨ts, rfl, ?_, .inr ⟨rfl, rfl⟩⟩
      rw [← hts, Function.update_eq_self]
    · cases hact
      refine ⟨pushed, rfl, ?_, .inl ⟨rfl, rfl⟩⟩
      simp only [pushed, ← hts]
      exact upd_eq _ _ _
  rcases hr with ⟨rfl, rfl⟩ | ⟨rfl, rfl⟩
  · refine Scheme.wp_accept (x := (x, f)) both (fun {b s r s'} hact hts => ?_) hi h rfl rfl
      rfl (fun a hi h => ?_) fun a hi h => ?_
    · have hts : s.tls t = pushed := hts
      simp only [accounts, action, hts, hret, List.getLast?_concat] at hact
      split at hact
      · cases hact
        exact .inr ⟨rfl, rfl⟩
      · cases hact
        exact .inl ⟨rfl, rfl, upd_eq _ _ _⟩
    · refine hdone hi ⟨both, fun d => ?_, ?_⟩
      · by_cases hd : d = e
        · subst hd
          simp [both, pushed, ThreadState.pushAction, ThreadState.pushRetired, hal d]
        · simpa [both, pushed, ThreadState.pushAction, ThreadState.pushRetired, upd_other _ _ hd]
            using hal d
      · obtain ⟨rest, hrest⟩ := listed_split ts he
        have hothers : ∀ d, d ≠ e → tagged both d = tagged ts d := fun d hd => by
          simp [tagged, both, pushed, ThreadState.pushAction, ThreadState.pushRetired,
            upd_other _ _ hd]
        have htag : tagged both e = tagged ts e ++ [(x, f)] := by
          simp only [tagged, both, pushed, ThreadState.pushAction, ThreadState.pushRetired,
            upd_same]
          rw [List.zip_append (hal e)]
          rfl
        have hheld : (listed both : Multiset Entry) = (x, f) ::ₘ (listed ts : Multiset Entry) := by
          rw [hrest both hothers, hrest ts fun _ _ => rfl, htag, ← Multiset.coe_add,
            ← Multiset.cons_add]
          congr 1
          exact Multiset.coe_eq_coe.mpr (List.perm_append_singleton _ _)
        simpa only [share, hheld, counted] using h
    · refine wp_getTls hi h fun a hi h => ?_
      have hlen : (pushed.retiredActions e).length < (pushed.retired e).length := by
        have := hal e
        rw [hret, List.length_append, List.length_singleton, this]
        exact Nat.lt_succ_self _
      rw [if_pos hlen]
      refine wp_setTls _ hi h fun a hi h => ?_
      have hlists : upd pushed.retired e (pushed.retired e).dropLast = ts.retired := by
        funext d
        by_cases hd : d = e
        · subst hd
          simp [hret]
        · simp [pushed, ThreadState.pushRetired, upd_other _ _ hd]
      refine hlast ?_ ?_ hi h
      · intro d
        simp only [hlists]
        exact hal d
      · simp only [listed, tagged, hlists]
        rfl
  · refine wp_getTls hi h fun a hi h => ?_
    rw [if_neg (by have := hal e; omega)]
    exact hlast hal rfl hi h

/-! ### The end of a thread -/

/-- The objects of the tags from `e` on. -/
def listedFrom (ts : ThreadState) (e : Nat) : List Entry :=
  (List.range' e (EPOCHS - e)).flatMap (tagged ts)

theorem listedFrom_zero (ts : ThreadState) : listedFrom ts 0 = listed ts := by
  simp [listedFrom, listed, EPOCHS, List.range'_succ]

theorem listedFrom_cons (ts : ThreadState) {e : Nat} (he : e < EPOCHS) :
    listedFrom ts e = tagged ts e ++ listedFrom ts (e + 1) := by
  have hsub : EPOCHS - e = EPOCHS - (e + 1) + 1 := by omega
  rw [listedFrom, hsub, List.range'_succ, List.flatMap_cons]
  rfl

theorem listedFrom_congr {ts ts' : ThreadState} {e : Nat}
    (h : ∀ d, e ≤ d → tagged ts' d = tagged ts d) : listedFrom ts' e = listedFrom ts e := by
  refine List.flatMap_congr fun d hd => h d ?_
  have := List.mem_range'.mp hd
  omega

/-- The objects of the lists from position `i` of tag `e` on have no orphan yet. -/
structure Moving (H : Multiset Entry) (l : Nat × Nat × Option Nat) (ts : ThreadState)
    (L : List (Nat × Entry)) (cells : Nat → Option (Option Nat × Entry)) : Prop where
  aligned : Aligned ts
  cleared : ∀ d, d < l.1 → ts.retired d = []
  le : l.2.1 ≤ (ts.retired l.1).length
  held : H = (L.map Prod.snd : List Entry) + ((listedFrom ts l.1).drop l.2.1 : Multiset Entry)
  chain : Chain cells l.2.2 L none
  ext : Scheme.Extends (fun _ => none) cells L

theorem wp_makeOrphans (hal : Aligned ts) (hi : (scheme.ledger a).Ok)
    (h : scheme.Owns t ts (share ts none none) a) :
    scheme.discipline.WP t makeOrphans (fun head a => ∃ ts L cells, (Aligned ts ∧
      listed ts = [] ∧ Chain cells head L none ∧ Scheme.Extends (fun _ => none) cells L) ∧
      scheme.Owns t ts { share ts none none with
        held := (L.map Prod.snd : List Entry), cells := cells } a) a := by
  let H : Multiset Entry := (listed ts : List Entry)
  let I : Nat × Nat × Option Nat → Scheme.Aug State → Prop := fun l a => ∃ ts L cells,
    Moving H l ts L cells ∧
      scheme.Owns t ts { share ts none none with held := H, cells := cells } a
  have hI : ∀ l, scheme.discipline.Stable t (I l) := fun _ =>
    .exist fun _ => .exist fun _ => .exist fun _ =>
      Discipline.Stable.const.and Scheme.stable_owns
  have hstart : Moving H (0, 0, none) ts [] fun _ => none := {
    aligned := hal
    cleared := fun d hd => absurd hd (Nat.not_lt_zero d)
    le := Nat.zero_le _
    held := by simp [H, listedFrom_zero]
    chain := rfl
    ext := ⟨fun _ h => absurd h List.not_mem_nil, fun _ _ => rfl⟩ }
  refine Discipline.WP.loop hI hi ⟨ts, [], _, hstart, h⟩ fun l a hi h => ?_
  obtain ⟨ts, L, cells, hm, h⟩ := h
  obtain ⟨e, i, head⟩ := l
  simp only [Prog.bind_eq, Prog.perform_bind, Prog.pure_eq]
  split
  · next he =>
    refine wp_getTls hi h fun a hi h => ?_
    split
    · next hlt =>
      -- an orphan for the next object of the tag
      refine Scheme.wp_newOrphan lawful hi h fun a o ho hi h => ?_
      have hx : (listedFrom ts e).drop i = ((ts.retired e).getD i 0,
          (ts.retiredActions e).getD i ⟨0⟩) :: (listedFrom ts e).drop (i + 1) := by
        have hlen : i + 1 ≤ (tagged ts e).length := by
          rw [tagged, List.length_zip, ← hm.aligned e]
          omega
        rw [listedFrom_cons ts he, List.drop_append_of_le_length (by omega),
          List.drop_append_of_le_length hlen, tagged, drop_zip (hm.aligned e) hlt]
        rfl
      refine Discipline.WP.ret (hI _) hi ⟨ts, (o, _) :: L, _, ⟨hm.aligned, hm.cleared, hlt, ?_,
        hm.chain.push ?_, hm.ext.push ho rfl _⟩, h⟩
      · rw [hm.held, hx, List.map_cons, ← Multiset.cons_coe, ← Multiset.cons_coe,
          Multiset.cons_add, Multiset.add_cons]
        rfl
      · intro hmem
        obtain ⟨c, hc, rfl⟩ := List.mem_map.mp hmem
        obtain ⟨n, hn⟩ := hm.chain.cell hc
        have ho : cells c.1 = none := ho
        rw [ho] at hn
        cases hn
    · next hge =>
      -- the two vectors of the tag are cleared
      let ts' : ThreadState := { ts with
        retired := upd ts.retired e [], retiredActions := upd ts.retiredActions e [] }
      have hother : ∀ d, d ≠ e → ts'.retired d = ts.retired d ∧
          ts'.retiredActions d = ts.retiredActions d := fun d hd =>
        ⟨upd_other _ _ hd, upd_other _ _ hd⟩
      have hi_len : i = (tagged ts e).length := by
        have := hm.le
        simp only at this
        rw [tagged, List.length_zip, ← hm.aligned e, Nat.min_self]
        omega
      refine wp_setTls ts' hi h fun a hi h => ?_
      refine Discipline.WP.ret (hI _) hi ⟨ts', L, cells, ⟨fun d => ?_, fun d hd => ?_,
        Nat.zero_le _, ?_, hm.chain, hm.ext⟩, h⟩
      · by_cases hd : d = e
        · subst hd
          simp [ts']
        · rw [(hother d hd).1, (hother d hd).2]
          exact hm.aligned d
      · by_cases hde : d = e
        · subst hde
          exact upd_same _ _ _
        · rw [(hother d hde).1]
          have hd : d < e + 1 := hd
          have hlt : d < e := by omega
          exact hm.cleared d hlt
      · have hrest : listedFrom ts' (e + 1) = listedFrom ts (e + 1) := by
          refine listedFrom_congr fun d hd => ?_
          have hde : d ≠ e := by omega
          rw [tagged, (hother d hde).1, (hother d hde).2]
          rfl
        rw [hm.held]
        simp only [List.drop_zero, hrest]
        rw [listedFrom_cons ts he, hi_len, List.drop_left]
  · next he =>
    refine Discipline.WP.ret (Discipline.WP.stable _ _) hi ?_
    have hclear : ∀ d, d < EPOCHS → tagged ts d = [] := fun d hd => by
      have hlt : d < e := by omega
      simp [tagged, hm.cleared d hlt]
    have hnil : listedFrom ts e = [] := by
      have hsub : EPOCHS - e = 0 := by omega
      simp [listedFrom, hsub]
    have hheld : H = (L.map Prod.snd : List Entry) := by
      have := hm.held
      simp only [hnil, List.drop_nil, Multiset.coe_nil, add_zero] at this
      exact this
    have hlisted : listed ts = [] := by
      simp [listed, hclear 0 (by decide), hclear 1 (by decide), hclear 2 (by decide)]
    rw [hheld] at h
    exact Discipline.WP.ret (.exist fun _ => .exist fun _ => .exist fun _ =>
      Discipline.Stable.const.and Scheme.stable_owns) hi
      ⟨ts, L, cells, ⟨hm.aligned, hlisted, hm.chain, hm.ext⟩, h⟩

/-- The thread answers for nothing. -/
def Emptied (t : Nat) (a : Scheme.Aug State) : Prop :=
  ∃ ts, Aligned ts ∧ listed ts = [] ∧ scheme.Owns t ts (share ts none none) a

theorem Emptied.ready (h : Emptied t a) : Ready t none none a := by
  obtain ⟨ts, hal, -, h⟩ := h
  exact ⟨ts, hal, h⟩

theorem wp_finalizeThread_empties (hi : (scheme.ledger a).Ok) (h : Ready t none none a) :
    scheme.discipline.WP t finalizeThread (fun _ a => Emptied t a) a := by
  unfold finalizeThread
  simp only [Prog.bind_eq, Prog.perform_bind]
  refine Discipline.WP.bind ((wp_reclaim hi h).mono fun _ a hi h => ?_)
  obtain ⟨ts, hal, h⟩ := h
  refine Discipline.WP.bind ((wp_makeOrphans hal hi h).mono fun head a hi h => ?_)
  obtain ⟨ts, L, cells, ⟨hal, hlisted, hchain, hext⟩, h⟩ := h
  refine wp_getTls hi h fun a hi h => ?_
  let ts' : ThreadState := { ts with retiredTotal := 0 }
  refine wp_setTls ts' hi h fun a hi h => ?_
  rw [pushAll_eq]
  have hlisted' : listed ts' = [] := hlisted
  have hshare : { share ts none none with held := 0 } = share ts' none none := by
    simp [share, hlisted']
  refine (Scheme.wp_pushAll lawful (σ := { share ts none none with held := 0 }) hi hchain hext
    (by simpa using h)).mono fun _ a hi h => ?_
  exact ⟨ts', fun e => hal e, hlisted', hshare ▸ h⟩

theorem wp_finalizeThread (hi : (scheme.ledger a).Ok) (h : Ready t none none a) :
    scheme.discipline.WP t finalizeThread (fun _ a => Ready t none none a) a :=
  (wp_finalizeThread_empties hi h).mono fun _ _ _ h => h.ready

/-! ### The destructor's drain -/

theorem wp_drainLateAll (hi : (scheme.ledger a).Ok) (h : scheme.Owns t ts σ a)
    (htok : σ.token = false) :
    scheme.discipline.WP t drainLateAll (fun _ a => scheme.Owns t ts σ a) a := by
  have hst : scheme.discipline.Stable t (scheme.Owns t ts σ) := Scheme.stable_owns
  refine Discipline.WP.loop (I := fun _ a => scheme.Owns t ts σ a) (fun _ => hst) hi h
    fun _ a hi h => ?_
  simp only [Prog.bind_eq, Prog.perform_bind, Prog.iterate_bind, Prog.pure_eq]
  refine Scheme.wp_detach lawful hi h fun a head L cells hchain hext hi h => ?_
  -- an empty chain leaves nothing to answer for
  have hnil : ∀ {L : List (Nat × Entry)} {cells : Nat → Option (Option Nat × Entry)},
      Chain cells none L none → Scheme.Extends σ.cells cells L → ∀ {a}, scheme.Owns t ts { σ with
        held := σ.held + (L.map Prod.snd : List Entry), cells := cells } a →
      scheme.Owns t ts σ a := by
    intro L cells hchain hext a h
    cases L with
    | nil =>
      have hcells : cells = σ.cells := funext fun o => hext.rest o List.not_mem_nil
      simpa [hcells] using h
    | cons c L => exact absurd hchain.1 (by simp)
  split
  · next hnone =>
    subst hnone
    exact Discipline.WP.ret (Discipline.WP.stable _ _) hi
      (Discipline.WP.ret hst hi (hnil hchain hext h))
  · let I : Option Nat → Scheme.Aug State → Prop := fun head a => ∃ L cells,
      (Chain cells head L none ∧ Scheme.Extends σ.cells cells L) ∧
        scheme.Owns t ts { σ with
          held := σ.held + (L.map Prod.snd : List Entry), cells := cells } a
    have hI : ∀ e, scheme.discipline.Stable t (I e) :=
      fun _ => .exist fun _ => .exist fun _ => Discipline.Stable.const.and Scheme.stable_owns
    refine Discipline.WP.loop hI hi ⟨L, cells, ⟨hchain, hext⟩, h⟩ fun cur a hi h => ?_
    obtain ⟨L, cells, ⟨hchain, hext⟩, h⟩ := h
    cases L with
    | nil =>
      obtain rfl := hchain
      exact Discipline.WP.ret (Discipline.WP.stable _ _) hi
        (Discipline.WP.ret hst hi (hnil (L := []) rfl hext h))
    | cons c L =>
      obtain ⟨o, x⟩ := c
      have hnot : o ∉ L.map Prod.fst := (List.nodup_cons.mp hchain.nodup).1
      obtain ⟨rfl, n, hn, hrest⟩ := hchain
      refine Scheme.wp_readOrphan lawful hi h hn fun a r hlink hentry hi h => ?_
      -- the first orphan is one of those that the thread answers for
      have hheld : σ.held + ((((o, x) :: L).map Prod.snd : List Entry) : Multiset Entry) =
          (r.ptr, r.action) ::ₘ (σ.held + (L.map Prod.snd : List Entry)) := by
        rw [List.map_cons, ← Multiset.cons_coe, Multiset.add_cons]
        exact congrArg (· ::ₘ _) hentry.symm
      refine Scheme.wp_free lawful hi h htok hheld fun a hi h => ?_
      refine Scheme.wp_deleteOrphan lawful hi h hn fun a hi h => ?_
      refine Discipline.WP.ret (hI _) hi ⟨L, _, ⟨?_, hext.tail⟩, h⟩
      obtain rfl : r.next = n := hlink
      exact hrest.update_of_notMem hnot none

theorem wp_drainAll_empties (hi : (scheme.ledger a).Ok) (h : Ready t none none a) :
    scheme.discipline.WP t drainAll (fun _ a => Emptied t a) a := by
  obtain ⟨ts, hal, h⟩ := h
  unfold drainAll
  simp only [Prog.bind_eq, Prog.perform_bind]
  refine Discipline.WP.bind ((wp_freeTagged 0 (by decide) hal hi h).mono
    fun _ a hi h => ?_)
  obtain ⟨ts₀, hal, -, h0, h⟩ := h
  refine Discipline.WP.bind ((wp_freeTagged 1 (by decide) hal hi h).mono
    fun _ a hi h => ?_)
  obtain ⟨ts₁, hal, hkeep₁, h1, h⟩ := h
  refine Discipline.WP.bind ((wp_freeTagged 2 (by decide) hal hi h).mono
    fun _ a hi h => ?_)
  obtain ⟨ts₂, hal, hkeep₂, h2, h⟩ := h
  have hlisted : listed ts₂ = [] := by
    have h0' : ts₂.retired 0 = [] := by rw [hkeep₂ 0 (by decide), hkeep₁ 0 (by decide), h0]
    have h1' : ts₂.retired 1 = [] := by rw [hkeep₂ 1 (by decide), h1]
    simp [listed, tagged, h0', h1', h2]
  refine wp_getTls hi h fun a hi h => ?_
  refine ready_setTls hal rfl rfl hi h fun a hi hal h => ?_
  exact (wp_drainLateAll hi h rfl).mono fun _ a hi h => ⟨_, hal, hlisted, h⟩

theorem wp_drainAll (hi : (scheme.ledger a).Ok) (h : Ready t none none a) :
    scheme.discipline.WP t drainAll (fun _ a => Ready t none none a) a :=
  (wp_drainAll_empties hi h).mono fun _ _ _ h => h.ready

/-! ### The guard -/

theorem wp_enter (hi : (scheme.ledger a).Ok) (h : Ready t none none a) :
    scheme.discipline.WP t enter (fun _ a => Ready t none none a) a := by
  obtain ⟨ts, hal, h⟩ := h
  unfold enter
  simp only [Prog.bind_eq, Prog.perform_bind]
  refine Scheme.wp_silent (fun hact => by cases hact; exact ⟨rfl, rfl⟩) hi h fun a g hi h => ?_
  refine Scheme.wp_silent (fun hact => by cases hact; exact ⟨rfl, rfl⟩) hi h fun a _ hi h => ?_
  refine wp_getTls hi h fun a hi h => ?_
  exact ready_setTls hal rfl rfl hi h fun a hi hal h =>
    Discipline.WP.ret stable_ready hi ⟨_, hal, h⟩

theorem wp_exit (hi : (scheme.ledger a).Ok) (h : Ready t none none a) :
    scheme.discipline.WP t exit (fun _ a => Ready t none none a) a := by
  obtain ⟨ts, hal, h⟩ := h
  have hret : ∀ {a}, (scheme.ledger a).Ok → scheme.Owns t ts (share ts none none) a →
      scheme.discipline.WP t (.ret () : Code Unit) (fun _ a => Ready t none none a) a :=
    fun hi h => Discipline.WP.ret stable_ready hi ⟨ts, hal, h⟩
  unfold exit
  simp only [Prog.bind_eq, Prog.perform_bind, Prog.pure_eq]
  refine wp_getTls hi h fun a hi h => ?_
  refine Scheme.wp_silent (fun hact => by cases hact; exact ⟨rfl, rfl⟩) hi h fun a old hi h => ?_
  split
  · refine Scheme.wp_silent (fun hact => by cases hact; exact ⟨rfl, rfl⟩) hi h fun a g hi h => ?_
    split
    · refine Scheme.wp_silent (fun {b s r s'} hact => ?_) hi h fun a _ hi h => hret hi h
      simp only [accounts, action] at hact
      split at hact <;> cases hact <;> exact ⟨rfl, rfl⟩
    · exact hret hi h
  · exact hret hi h

/-! ## Every run -/

/-- What a call of thread `t` leaves. -/
def post (t : Nat) (c : Call) (r : Bool) (a : Scheme.Aug State) : Prop :=
  match c with
  | .retire x f => Retired t x f r a
  | _ => Ready t none none a

/-- A step of the bookkeeping that leaves the books alone. -/
theorem ready_step (s' : State) (hi : (scheme.ledger a).Ok) (h : Ready t none none a)
    (hbooks : books s' = books a.st) (htls : s'.tls = a.st.tls) :
    ∃ a', scheme.discipline.erase a' = s' ∧ (scheme.ledger a').Ok ∧
      scheme.discipline.guar t a a' ∧ Ready t none none a' := by
  obtain ⟨ts, hal, h⟩ := h
  obtain ⟨a', h1, h2, h3, h4⟩ := Scheme.exists_step s' (scheme.ledger a) h hbooks htls hi
    (Ledger.Guar.refl t _) h.2
  exact ⟨a', h1, h2, h3, ts, hal, h4⟩

theorem covers : scheme.discipline.CoversIdle (fun t => Ready t none none) post where
  stable _ := stable_ready
  invoke t c a s' hi h hinv := by
    have hret : ∀ {p : Code Unit} {a}, scheme.discipline.WP t p (fun _ a => Ready t none none a) a →
        scheme.discipline.WP t (p.bind fun _ => .ret true) (fun _ a => Ready t none none a) a :=
      fun hw => Discipline.WP.bind (hw.mono fun _ _ hi h => Discipline.WP.ret stable_ready hi h)
    cases c with
    | enter =>
      simp only [accounts, invoke] at hinv
      split at hinv
      · cases hinv
        obtain ⟨a', h1, h2, h3, h4⟩ :=
          ready_step { a.st with phase := upd a.st.phase t .entering } hi h rfl rfl
        exact ⟨a', h1, h3, hret (wp_enter h2 h4)⟩
      · cases hinv
    | exit =>
      simp only [accounts, invoke] at hinv
      split at hinv
      · cases hinv
        obtain ⟨a', h1, h2, h3, h4⟩ :=
          ready_step { a.st with phase := upd a.st.phase t .exiting } hi h rfl rfl
        exact ⟨a', h1, h3, hret (wp_exit h2 h4)⟩
      · cases hinv
    | retire x f =>
      simp only [accounts, invoke] at hinv
      split at hinv
      · cases hinv
      · next hx =>
        cases hinv
        obtain ⟨ts, hal, h⟩ := h
        obtain ⟨a', h1, h2, h3, h4⟩ := Scheme.exists_step
          { a.st with submitted := insert x a.st.submitted } ((scheme.ledger a).claim t x) h rfl rfl
          (hi.claim hx) (Ledger.Guar.claim hi hx) (h.2.toClaim hi hx)
        exact ⟨a', h1, h3, wp_retire x f h2 ⟨ts, hal, h4⟩⟩
    | reclaim =>
      cases hinv
      exact ⟨a, rfl, Scheme.guar_refl t a, hret (wp_reclaim hi h)⟩
    | finalizeThread =>
      cases hinv
      exact ⟨a, rfl, Scheme.guar_refl t a, hret (wp_finalizeThread hi h)⟩
    | drainAll =>
      cases hinv
      exact ⟨a, rfl, Scheme.guar_refl t a, hret (wp_drainAll hi h)⟩
  respond t c r a hi h := by
    cases c with
    | retire x f =>
      cases r with
      | true =>
        obtain ⟨ts, hal, h⟩ := h
        have hdue : (scheme.ledger a).ghost.due t = some (x, f) := h.2.due
        obtain ⟨a', h1, h2, h3, h4⟩ := Scheme.exists_step
          { a.st with returned := a.st.returned ++ [(x, f)] } ((scheme.ledger a).answer t (x, f)) h
          rfl rfl (hi.answer hdue) Ledger.Guar.answer h.2.toAnswer
        exact ⟨a', h1, h2, h3, ts, hal, h4⟩
      | false =>
        obtain ⟨ts, hal, h⟩ := h
        have hx : (share ts (some x) none).claim = some x := rfl
        have hplace := h.2.claim x hx
        obtain ⟨a', h1, h2, h3, h4⟩ := Scheme.exists_step
          { a.st with submitted := a.st.submitted.erase x } ((scheme.ledger a).disclaim x) h rfl rfl
          (hi.disclaim hplace) (Ledger.Guar.disclaim hplace) (h.2.toDisclaim hx)
        exact ⟨a', h1, h2, h3, ts, hal, h4⟩
    | _ => exact ready_step _ hi h rfl rfl

/-- In every run the accounts are kept, the calls of `retire` that have returned are among them, and
a thread outside a call answers for its lists. -/
theorem reach_accounts (address : Nat → Nat) (c : Config Op State Call Bool)
    (h : accounts.Reachable { State.init with address := address } c) :
    (books c.shared).RunOnce ∧ (∀ x ∈ c.shared.returned, x ∈ c.shared.accepted) ∧
      ((∀ t, c.thread t = none) → (∀ t, Aligned (c.shared.tls t)) ∧
        c.shared.returned.Perm c.shared.accepted ∧
          (books c.shared).Balanced fun t => listed (c.shared.tls t)) := by
  let start : Scheme.Aug State := ⟨{ State.init with address := address }, .init⟩
  have hidle : ∀ t, Ready t none none start := fun t =>
    ⟨.init, fun _ => rfl, rfl, Ledger.owned_init _ _ rfl⟩
  obtain ⟨a, ha, hready⟩ := Discipline.reach_idle covers
    (Ledger.ok_init (books start.st) rfl rfl rfl rfl (fun _ => rfl) rfl rfl) hidle h
  have hst : a.st = c.shared := ha.erase
  rw [← hst]
  refine ⟨ha.inv.runOnce, ha.inv.returned_subset, fun hnone => ⟨fun t => ?_, ?_, ?_⟩⟩
  · obtain ⟨ts, hal, htls, -⟩ := hready t (hnone t)
    rw [show a.st.tls t = ts from htls]
    exact hal
  · refine Ledger.Ok.returned_perm ha.inv fun t => ?_
    obtain ⟨ts, -, -, hown⟩ := hready t (hnone t)
    exact hown.due
  · refine Ledger.Ok.balanced ha.inv fun t => ?_
    obtain ⟨ts, -, htls, hown⟩ := hready t (hnone t)
    rw [show a.st.tls t = ts from htls]
    refine ⟨hown.held, fun hm => ?_⟩
    cases hown.token.mp hm

/-! ## Threads that have left -/

/-- What is known of thread `t` after its last call. -/
def last (t : Nat) (o : Option Call) (a : Scheme.Aug State) : Prop :=
  match o with
  | none | some .finalizeThread | some .drainAll => Emptied t a
  | _ => Ready t none none a

theorem last_ready {o : Option Call} {a : Scheme.Aug State} (h : last t o a) :
    Ready t none none a := by
  unfold last at h
  split at h
  · exact h.ready
  · exact h.ready
  · exact h.ready
  · exact h

/-- What a call of thread `t` leaves. -/
def leaves (t : Nat) (c : Call) (r : Bool) (a : Scheme.Aug State) : Prop :=
  match c with
  | .finalizeThread | .drainAll => Emptied t a
  | c => post t c r a

theorem stable_emptied : scheme.discipline.Stable t (Emptied t) :=
  .exist fun _ => Discipline.Stable.const.and (Discipline.Stable.const.and Scheme.stable_owns)

theorem coversLast : scheme.discipline.CoversLast last leaves where
  stable t o := by
    unfold last
    split
    · exact stable_emptied
    · exact stable_emptied
    · exact stable_emptied
    · exact stable_ready
  invoke t o c a s' hi h hinv := by
    have hret : ∀ {p : Code Unit}, scheme.discipline.WP t p (fun _ a => Emptied t a) a →
        scheme.discipline.WP t (p.bind fun _ => .ret true) (fun _ a => Emptied t a) a :=
      fun hw => Discipline.WP.bind (hw.mono fun _ _ hi h => Discipline.WP.ret stable_emptied hi h)
    cases c with
    | finalizeThread =>
      cases hinv
      exact ⟨a, rfl, Scheme.guar_refl t a, hret (wp_finalizeThread_empties hi (last_ready h))⟩
    | drainAll =>
      cases hinv
      exact ⟨a, rfl, Scheme.guar_refl t a, hret (wp_drainAll_empties hi (last_ready h))⟩
    | enter => exact covers.invoke t .enter a s' hi (last_ready h) hinv
    | exit => exact covers.invoke t .exit a s' hi (last_ready h) hinv
    | retire x f => exact covers.invoke t (.retire x f) a s' hi (last_ready h) hinv
    | reclaim => exact covers.invoke t .reclaim a s' hi (last_ready h) hinv
  respond t c r a hi h := by
    cases c with
    | finalizeThread => exact ⟨a, rfl, hi, Scheme.guar_refl t a, h⟩
    | drainAll => exact ⟨a, rfl, hi, Scheme.guar_refl t a, h⟩
    | enter => exact covers.respond t .enter r a hi h
    | exit => exact covers.respond t .exit r a hi h
    | retire x f => exact covers.respond t (.retire x f) r a hi h
    | reclaim => exact covers.respond t .reclaim r a hi h

/-- A thread that has retired nothing since it left, or nothing at all, has empty lists. -/
theorem empty_of_left {address : Nat → Nat} {ls : List (Label Call)}
    {c : Config Op State Call Bool} {u : Nat}
    (h : accounts.exec (SharedObject.start { State.init with address := address }) ls = some c)
    (hu : c.thread u = none)
    (hleft : ∀ op, Label.lastCall u ls = some op → op = .finalizeThread ∨ op = .drainAll) :
    listed (c.shared.tls u) = [] := by
  let start : Scheme.Aug State := ⟨{ State.init with address := address }, .init⟩
  have hempty : ∀ t, last t none start := fun t => ⟨.init, fun _ => rfl, rfl, rfl, Ledger.owned_init _ _ rfl⟩
  obtain ⟨a, ha, hlast⟩ := Discipline.exec_last coversLast (fun _ _ _ => trivial)
    (Ledger.ok_init (books start.st) rfl rfl rfl rfl (fun _ => rfl) rfl rfl) hempty ls h
  have hemp : Emptied u a := by
    have := hlast u hu
    cases ho : Label.lastCall u ls with
    | none => rwa [ho] at this
    | some op =>
      rw [ho] at this
      rcases hleft op ho with rfl | rfl <;> exact this
  obtain ⟨ts, -, hnil, htls, -⟩ := hemp
  have hst : a.st = c.shared := ha.erase
  rw [← hst, show a.st.tls u = ts from htls, hnil]

end Account

end MpmcMap.Reclaim.Epoch
