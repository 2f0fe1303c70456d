import MpmcMap.Reclaim.Late
import MpmcMap.Reclaim.Hazard
import Mathlib.Algebra.Order.Group.Multiset

/-!
# The accounts of the hazard-pointer reclaimer

Every call of the reclaimer, the end of a thread and the destructor's `drain_all` included, keeps
the accounts, whatever the registry and the hazards hold: a thread that is not inside a call
answers for exactly the objects in its list, whose two vectors are aligned. What the walk over the
hazards answers decides only which objects are freed.
-/

namespace MpmcMap.Reclaim.Hazard

open Conc
open Prog (perform iterate)
open Function (update)

namespace Account

/-! ## Callers -/

/-- The calls of the reclaimer and the end of a thread. -/
inductive Call where
  | protect (idx : Nat) (p : Option Ptr)
  | clear (idx : Nat)
  | retire (x : Ptr) (a : RetireAction)
  | reclaim
  | finalizeThread
  | drainAll

def code : Call → Code Bool
  | .protect idx p => do protect idx p; return true
  | .clear idx => do clear idx; return true
  | .retire x a => retire x a
  | .reclaim => do scan; return true
  | .finalizeThread => do finalizeThread; return true
  | .drainAll => do drainAll; return true

/-- An object is retired once, unless a call that retires it throws. -/
def invoke (_ : Nat) (c : Call) (s : State) : Option State :=
  match c with
  | .retire x _ => if x ∈ s.submitted then none else some { s with submitted := insert x s.submitted }
  | _ => some s

def respond (_ : Nat) (c : Call) (r : Bool) (s : State) : State :=
  match c with
  | .retire x f =>
    if r then { s with returned := s.returned ++ [(x, f)] }
    else { s with submitted := s.submitted.erase x }
  | _ => s

/-- The reclaimer under callers that retire each object once. -/
def accounts : SharedObject Op State Call Bool where
  action := action
  code := code
  invoke := invoke
  respond := respond

def books (s : State) : Books where
  outstanding := s.outstanding
  late := s.late
  orphan o := (s.orphans o).map fun r => (r.next, (r.ptr, r.action))
  submitted := s.submitted
  accepted := s.accepted
  returned := s.returned
  ran := s.ran

/-- The two vectors of a thread. -/
abbrev Lists := List Ptr × List RetireAction

/-- The late chain of the hazard-pointer reclaimer. -/
def scheme : Scheme accounts Orphan Lists where
  books := books
  tls s t := ((s.tls t).retired, (s.tls t).retiredActions)
  link := Orphan.next
  entry o := (o.ptr, o.action)
  incOutstanding := .incOutstanding
  decOutstanding := .decOutstanding
  run := .run
  loadLate := .loadLate
  exchangeLate := .exchangeLate
  casLate := .casLate
  newOrphan := .newOrphan
  readOrphan := .readOrphan
  setOrphanNext := .setOrphanNext
  deleteOrphan := .deleteOrphan

theorem lawful : scheme.Lawful where
  incOutstanding h := by
    cases h
    exact ⟨rfl, rfl⟩
  decOutstanding h := by
    cases h
    exact ⟨rfl, rfl⟩
  run h := by
    cases h
    exact ⟨rfl, rfl⟩
  loadLate h := by
    cases h
    rfl
  exchangeLate h := by
    cases h
    exact ⟨rfl, rfl, rfl⟩
  casLate h := by
    simp only [scheme, accounts, action] at h
    split at h
    · next hc =>
      cases h
      exact .inl ⟨rfl, hc.1, rfl, rfl⟩
    · cases h
      exact .inr ⟨rfl, rfl⟩
  newOrphan {o t b s r s'} h := by
    simp only [scheme, accounts, action] at h
    split at h
    · next hc =>
      cases h
      refine ⟨?_, ?_, rfl⟩
      · simpa [scheme, books] using hc
      · simp only [scheme, books, Scheme.map_update, Option.map_some]
    · cases h
  readOrphan {i t b s r s'} h := by
    cases h
    refine ⟨rfl, fun x hx => ?_⟩
    simp only [scheme, books] at hx ⊢
    obtain ⟨r, hr, rfl⟩ := Option.map_eq_some_iff.mp hx
    rw [hr]
    rfl
  setOrphanNext {i v t b s r s'} h := by
    cases h
    refine ⟨?_, rfl⟩
    simp only [scheme, books, Scheme.map_update, Option.map_map]
    rfl
  deleteOrphan h := by
    cases h
    refine ⟨?_, rfl⟩
    simp only [scheme, books, Scheme.map_update, Option.map_none]

theorem pushAll_eq (head : Option Nat) : pushAll head = scheme.pushAll head := rfl

theorem drainLateRetire_eq : drainLateRetire = scheme.drain fun o => isProtected o.ptr := rfl

/-! ## The registry -/

/-- The reads of a scan: the registry, the owners and the hazards. -/
def Looks {β : Type} : Op β → Prop
  | .loadCount | .loadEntry _ | .loadOwner _ | .loadHp .. => True
  | _ => False

theorem looks_isProtected (p : Ptr) : (isProtected p).Uses Looks := by
  unfold isProtected publishes
  simp only [Prog.bind_eq, Prog.perform_bind, Prog.iterate_bind, Prog.pure_eq]
  refine .act trivial fun n => .loop (fun k => ?_) fun _ => .ret _
  split
  · refine .act trivial fun e => ?_
    split
    · exact .ret _
    · refine .act trivial fun owner => ?_
      split
      · exact .ret _
      · refine .loop (fun h => ?_) fun found => ?_
        · split
          · refine .act trivial fun v => ?_
            split <;> exact .ret _
          · exact .ret _
        · split <;> exact .ret _
  · exact .ret _

/-- The actions that have nothing to do with the accounts. -/
def Silent {β : Type} : Op β → Prop
  | .newOwnerId | .casOwner .. | .loadOwner _ | .releaseOwner _ | .loadHp .. | .storeHp ..
  | .addCount | .loadCount | .subCount | .loadEntry _ | .storeEntry .. | .getTls | .setSlot _ => True
  | _ => False

theorem action_silent {β : Type} {o : Op β} {t : Nat} {b : Bool} {r : β} {s s' : State}
    (ho : Silent o) (h : action t b o s = some (r, s')) :
    scheme.books s' = scheme.books s ∧ scheme.tls s' = scheme.tls s := by
  cases o <;> simp only [Silent] at ho <;> simp only [action] at h
  case casOwner =>
    split at h <;> cases h <;> exact ⟨rfl, rfl⟩
  case setSlot =>
    cases h
    refine ⟨rfl, funext fun u => ?_⟩
    simp only [scheme, Function.update_apply]
    split
    · next hu => rw [hu]
    · rfl
  all_goals
    cases h
    exact ⟨rfl, rfl⟩

theorem uses_slot : slot.Uses Silent := by
  unfold slot registerActive
  simp only [Prog.bind_eq, Prog.perform_bind, Prog.pure_eq]
  refine .act trivial fun ts => ?_
  split
  · exact .ret _
  · refine .act trivial fun self => .loop (fun i => .act trivial fun ok => ?_) fun _ => .ret _
    split
    · exact .act trivial fun _ => .act trivial fun _ => .act trivial fun _ => .ret _
    · exact .ret _

theorem uses_protect (idx : Nat) (p : Option Ptr) : (protect idx p).Uses Silent :=
  uses_slot.bind fun _ => .act trivial fun _ => .ret _

theorem uses_isProtected (p : Ptr) : (isProtected p).Uses Silent :=
  (looks_isProtected p).mono fun o ho => by cases o <;> first | exact ho.elim | trivial

theorem uses_releaseSlot : releaseSlot.Uses Silent := by
  unfold releaseSlot unregisterActive findEntry
  simp only [Prog.bind_eq, Prog.perform_bind, Prog.iterate_bind, Prog.pure_eq, Prog.act_bind,
    Prog.loop_bind]
  refine .act trivial fun ts => ?_
  split
  · exact .ret _
  · refine .act trivial fun _ => .act trivial fun n => .loop (fun j => ?_) fun e => ?_
    · split
      · refine .act trivial fun v => ?_
        split <;> exact .ret _
      · exact .ret _
    · refine Prog.Uses.bind ?_ fun _ => .act trivial fun _ => .ret _
      split
      · exact .ret _
      · exact .act trivial fun _ => .act trivial fun _ => .act trivial fun _ =>
          .act trivial fun _ => .ret _

variable {t : Nat} {ts : Lists} {σ : Ledger.Share} {a : Scheme.Aug State} {claim : Option Ptr} {due : Option Entry}
  {α : Type} {Q : α → Scheme.Aug State → Prop}

/-- A program without accounting keeps what the thread owns. -/
theorem keeps_silent {p : Code α} (hp : p.Uses Silent) :
    scheme.discipline.Keeps t (scheme.Owns t ts σ) p := by
  refine Discipline.Keeps.of_uses Scheme.stable_owns (fun ho a b r s' hi h _ hact => ?_) hp
  obtain ⟨hbooks, htls⟩ := action_silent ho hact
  exact Scheme.exists_step s' (scheme.ledger a) h hbooks htls hi (Ledger.Guar.refl t _) h.2

/-! ## The code -/

/-- The objects of a thread, with their actions. -/
def listed (ts : Lists) : List Entry := ts.1.zip ts.2

/-- What a thread has between two calls; while it retires `claim` it also has that object. -/
def share (ts : Lists) (claim : Option Ptr) (due : Option Entry) : Ledger.Share where
  held := listed ts
  token := false
  cells := fun _ => none
  claim := claim
  due := due

/-- The thread answers for its list and nothing else. -/
def Ready (t : Nat) (claim : Option Ptr) (due : Option Entry) (a : Scheme.Aug State) : Prop :=
  ∃ ts : Lists, ts.1.length = ts.2.length ∧ scheme.Owns t ts (share ts claim due) a

theorem stable_ready : scheme.discipline.Stable t (Ready t claim due) :=
  .exist fun _ => Discipline.Stable.const.and Scheme.stable_owns

theorem wp_getTls {k : ThreadState → Code α} (hi : (scheme.ledger a).Ok)
    (h : scheme.Owns t ts σ a)
    (hk : ∀ a slot, (scheme.ledger a).Ok → scheme.Owns t ts σ a →
      scheme.discipline.WP t (k ⟨slot, ts.1, ts.2⟩) Q a) :
    scheme.discipline.WP t (.act .getTls k) Q a := by
  refine Scheme.wp_local (R := fun r ts' => ts' = ts ∧ ts = (r.retired, r.retiredActions))
    (fun hact hts => ?_) hi h fun b r ts' hr hi h => ?_
  · cases hact
    refine ⟨ts, rfl, ?_, rfl, hts.symm⟩
    rw [← hts, Function.update_eq_self]
  · obtain ⟨h1, h2⟩ := hr
    rw [h1] at h
    have hr : r = ⟨r.slot, ts.1, ts.2⟩ := by
      rw [h2]
    rw [hr]
    exact hk b r.slot hi h

theorem wp_setRetired (ps : List Ptr) (fs : List RetireAction) {k : Unit → Code α}
    (hi : (scheme.ledger a).Ok) (h : scheme.Owns t ts σ a)
    (hk : ∀ a, (scheme.ledger a).Ok → scheme.Owns t (ps, fs) σ a →
      scheme.discipline.WP t (k ()) Q a) :
    scheme.discipline.WP t (.act (.setRetired ps fs) k) Q a := by
  refine Scheme.wp_local (R := fun _ ts' => ts' = (ps, fs)) (fun hact _ => ?_) hi h
    fun b r ts' hr hi h => ?_
  · cases hact
    refine ⟨(ps, fs), rfl, funext fun u => ?_, rfl⟩
    simp only [scheme, Function.update_apply]
    split <;> rfl
  · rw [hr] at h
    exact hk b hi h

theorem wp_isProtected {p : Ptr} (hi : (scheme.ledger a).Ok) (h : scheme.Owns t ts σ a) :
    scheme.discipline.WP t (isProtected p) (fun _ a => scheme.Owns t ts σ a) a :=
  keeps_silent (uses_isProtected p) a hi h

theorem wp_drainLateRetire (htok : σ.token = false) (hi : (scheme.ledger a).Ok)
    (h : scheme.Owns t ts σ a) :
    scheme.discipline.WP t drainLateRetire (fun _ a => scheme.Owns t ts σ a) a := by
  rw [drainLateRetire_eq]
  exact Scheme.wp_drain lawful (fun o σ => keeps_silent (uses_isProtected o.ptr)) htok hi h

/-! ### The scan -/

/-- During the compaction the thread answers for the kept prefix and for what is still to come. -/
structure Scanning (n : Nat) (l : Nat × Nat) (ts : Lists) : Prop where
  left : ts.1.length = n
  right : ts.2.length = n
  kept_le : l.2 ≤ l.1
  le : l.1 ≤ n

/-- What the thread answers for at a point of the compaction. -/
def scanned (l : Nat × Nat) (ts : Lists) : Multiset Entry :=
  ((listed ts).take l.2 : List Entry) + ((listed ts).drop l.1 : List Entry)

theorem scanned_step {n i kept : Nat} (h : Scanning n (i, kept) ts) (hlt : i < n) :
    scanned (i, kept) ts = (ts.1.getD i 0, ts.2.getD i ⟨0⟩) ::ₘ scanned (i + 1, kept) ts := by
  have hlen : ts.1.length = ts.2.length := h.left.trans h.right.symm
  simp only [scanned, listed, drop_zip hlen (h.left ▸ hlt), ← Multiset.cons_coe, Multiset.add_cons]

/-- The entry at `i` moves to the end of the kept prefix. -/
theorem scanned_keep {n i kept : Nat} (h : Scanning n (i, kept) ts) (hlt : i < n) :
    scanned (i + 1, kept + 1) (ts.1.set kept (ts.1.getD i 0), ts.2.set kept (ts.2.getD i ⟨0⟩)) =
      scanned (i, kept) ts := by
  obtain ⟨ps, fs⟩ := ts
  obtain ⟨hl, hr, hk, hle⟩ := h
  simp only at hl hr hk hle
  have hkl : kept < (ps.zip fs).length := by
    simp only [List.length_zip, hl, hr]
    omega
  have hzip : (ps.set kept (ps.getD i 0)).zip (fs.set kept (fs.getD i ⟨0⟩)) =
      (ps.zip fs).set kept (ps.getD i 0, fs.getD i ⟨0⟩) := set_zip _ _ _ _ _
  rw [scanned_step ⟨hl, hr, hk, hle⟩ hlt]
  simp only [scanned, listed, hzip]
  have htake : ((ps.zip fs).set kept (ps.getD i 0, fs.getD i ⟨0⟩)).take (kept + 1) =
      (ps.zip fs).take kept ++ [(ps.getD i 0, fs.getD i ⟨0⟩)] := by
    rw [List.take_succ_eq_append_getElem (by simpa using hkl), List.take_set_of_le (Nat.le_refl _)]
    simp
  rw [htake, List.drop_set_of_lt (by omega), ← Multiset.coe_add, add_right_comm, add_comm]
  rfl

theorem wp_scan (hi : (scheme.ledger a).Ok) (h : Ready t claim due a) :
    scheme.discipline.WP t scan (fun _ a => Ready t claim due a) a := by
  obtain ⟨ts, hlen, h⟩ := h
  unfold scan
  simp only [Prog.bind_eq, Prog.perform_bind, Prog.iterate_bind]
  refine Discipline.WP.bind ((wp_drainLateRetire rfl hi h).mono fun _ a hi h => ?_)
  refine wp_getTls hi h fun a slot hi h => ?_
  generalize hn : ts.1.length = n at hlen
  -- the thread answers for the entries that are kept and for those not yet tested
  let I : Nat × Nat → Scheme.Aug State → Prop := fun l a => ∃ ts, Scanning n l ts ∧
    scheme.Owns t ts { share ts claim due with held := scanned l ts } a
  have hI : ∀ l, scheme.discipline.Stable t (I l) := fun _ =>
    .exist fun _ => Discipline.Stable.const.and Scheme.stable_owns
  have hstart : scanned (0, 0) ts = listed ts := by simp [scanned]
  refine Discipline.WP.loop hI hi ⟨ts, ⟨hn, hlen.symm, Nat.le_refl _, Nat.zero_le _⟩, ?_⟩
    fun l a hi h => ?_
  · rw [hstart]
    exact h
  · obtain ⟨ts, hs, h⟩ := h
    obtain ⟨i, kept⟩ := l
    unfold scanStep
    simp only [Prog.bind_eq, Prog.perform_bind, Prog.pure_eq]
    split
    · next hlt =>
      refine wp_getTls hi h fun a slot hi h => ?_
      refine Discipline.WP.bind ((wp_isProtected hi h).mono fun b a hi h => ?_)
      have hkept : kept ≤ i := hs.kept_le
      split
      · refine wp_setRetired _ _ hi h fun a hi h => ?_
        refine Discipline.WP.ret (hI _) hi
          ⟨(ts.1.set kept (ts.1.getD i 0), ts.2.set kept (ts.2.getD i ⟨0⟩)),
            ⟨?_, ?_, Nat.succ_le_succ hkept, hlt⟩, ?_⟩
        · simpa using hs.left
        · simpa using hs.right
        · rw [scanned_keep hs hlt]
          exact h
      · refine Scheme.wp_free lawful hi h rfl (scanned_step hs hlt) fun a hi h => ?_
        exact Discipline.WP.ret (hI _) hi
          ⟨ts, ⟨hs.left, hs.right, Nat.le_succ_of_le hkept, hlt⟩, h⟩
    · next hge =>
      refine Discipline.WP.ret (Discipline.WP.stable _ _) hi ?_
      refine wp_getTls hi h fun a slot hi h => ?_
      refine wp_setRetired _ _ hi h fun a hi h => ?_
      refine Discipline.WP.ret stable_ready hi ⟨(ts.1.take kept, ts.2.take kept), ?_, ?_⟩
      · simp [hs.left, hs.right]
      -- nothing is left to test, so the shortened list is all that the thread answers for
      · have hend : (listed ts).drop i = [] := by
          rw [List.drop_eq_nil_iff, listed, List.length_zip, hs.left, hs.right]
          omega
        have hheld : scanned (i, kept) ts = listed (ts.1.take kept, ts.2.take kept) := by
          simp only [scanned, hend, Multiset.coe_nil, add_zero]
          exact congrArg _ List.take_zipWith
        rw [hheld] at h
        exact h

/-- After a call of `retire`: if it has thrown the object is the caller's again, else it has been
accepted with the action of this call. -/
def Retired (t : Nat) (x : Ptr) (f : RetireAction) (r : Bool) (a : Scheme.Aug State) : Prop :=
  Ready t (if r then none else some x) (if r then some (x, f) else none) a

theorem wp_retire (x : Ptr) (f : RetireAction) (hi : (scheme.ledger a).Ok)
    (h : Ready t (some x) none a) :
    scheme.discipline.WP t (retire x f) (fun r a => Retired t x f r a) a := by
  obtain ⟨ts, hlen, h⟩ := h
  obtain ⟨ps, fs⟩ := ts
  simp only at hlen
  let counted : Ledger.Share := { share (ps, fs) (some x) none with token := true }
  -- the counter is taken back and the call throws
  have hlast : ∀ {a}, (scheme.ledger a).Ok → scheme.Owns t (ps, fs) counted a →
      scheme.discipline.WP t (.act .decOutstanding fun _ => .ret false : Code Bool)
        (fun r a => Retired t x f r a) a := by
    intro a hi h
    refine Scheme.wp_discount lawful hi h rfl fun a hi h => ?_
    exact Discipline.WP.ret stable_ready hi ⟨(ps, fs), hlen, h⟩
  unfold retire
  simp only [Prog.bind_eq, Prog.perform_bind, Prog.pure_eq]
  refine Scheme.wp_count lawful hi h rfl fun a hi h => ?_
  refine Scheme.wp_local (σ := counted) (R := fun r ts' => (r = true ∧ ts' = (ps ++ [x], fs)) ∨
    (r = false ∧ ts' = (ps, fs))) (fun {b s r s'} hact hts => ?_) hi h fun a r ts' hr hi h => ?_
  · have hret : (s.tls t).retired = ps ∧ (s.tls t).retiredActions = fs := Prod.mk.inj hts
    simp only [accounts, action] at hact
    split at hact
    · cases hact
      refine ⟨(ps, fs), rfl, ?_, .inr ⟨rfl, rfl⟩⟩
      rw [← hts, Function.update_eq_self]
    · cases hact
      refine ⟨(ps ++ [x], fs), rfl, funext fun u => ?_, .inl ⟨rfl, rfl⟩⟩
      simp only [scheme, Function.update_apply]
      split
      · rw [hret.1, hret.2]
      · rfl
  rcases hr with ⟨rfl, rfl⟩ | ⟨rfl, rfl⟩
  · refine Scheme.wp_accept (x := (x, f)) (ps ++ [x], fs ++ [f]) (fun {b s r s'} hact hts => ?_) hi h
      rfl rfl rfl (fun a hi h => ?_) fun a hi h => ?_
    · have hret : (s.tls t).retired = ps ++ [x] ∧ (s.tls t).retiredActions = fs := Prod.mk.inj hts
      simp only [accounts, action, hret.1, List.getLast?_concat] at hact
      split at hact
      · cases hact
        exact .inr ⟨rfl, rfl⟩
      · cases hact
        refine .inl ⟨rfl, rfl, funext fun u => ?_⟩
        simp only [scheme, Function.update_apply]
        split
        · rw [hret.2]
        · rfl
    · -- both pushes have succeeded
      have hheld : (listed (ps ++ [x], fs ++ [f]) : Multiset Entry) =
          (x, f) ::ₘ (listed (ps, fs) : Multiset Entry) := by
        simp only [listed, List.zip_append hlen]
        exact Multiset.coe_eq_coe.mpr (List.perm_append_singleton _ _)
      have hready : scheme.Owns t (ps ++ [x], fs ++ [f])
          (share (ps ++ [x], fs ++ [f]) none (some (x, f))) a := by
        simpa only [share, hheld, counted] using h
      have hlen' : (ps ++ [x]).length = (fs ++ [f]).length := by simp [hlen]
      rw [if_pos rfl]
      refine wp_getTls hi hready fun a slot hi h => ?_
      split
      · refine Discipline.WP.bind ((wp_scan hi ⟨_, hlen', h⟩).mono fun _ a hi h => ?_)
        exact Discipline.WP.ret stable_ready hi h
      · exact Discipline.WP.ret stable_ready hi ⟨_, hlen', h⟩
    · rw [if_neg Bool.false_ne_true]
      refine wp_getTls hi h fun a slot hi h => ?_
      rw [if_pos (by simp [hlen])]
      refine wp_setRetired _ _ hi h fun a hi h => ?_
      rw [List.dropLast_concat] at h
      exact hlast hi h
  · rw [if_neg Bool.false_ne_true]
    refine wp_getTls hi h fun a slot hi h => ?_
    rw [if_neg (by simp [hlen])]
    exact hlast hi h

/-! ### The end of a thread -/

/-- The orphans made so far for the first objects of the list. -/
structure Moving (ts : Lists) (l : Nat × Option Nat) (L : List (Nat × Entry))
    (cells : Nat → Option (Option Nat × Entry)) : Prop where
  held : (listed ts : Multiset Entry) =
    (L.map Prod.snd : List Entry) + ((listed ts).drop l.1 : List Entry)
  chain : Chain cells l.2 L none
  ext : Scheme.Extends (fun _ => none) cells L

theorem wp_makeOrphans {slot : Option Nat} (hlen : ts.1.length = ts.2.length)
    (hi : (scheme.ledger a).Ok) (h : scheme.Owns t ts (share ts none none) a) :
    scheme.discipline.WP t (makeOrphans ⟨slot, ts.1, ts.2⟩) (fun head a => ∃ L cells,
      ((listed ts : Multiset Entry) = (L.map Prod.snd : List Entry) ∧ Chain cells head L none ∧
        Scheme.Extends (fun _ => none) cells L) ∧
      scheme.Owns t ts { share ts none none with cells := cells } a) a := by
  let I : Nat × Option Nat → Scheme.Aug State → Prop := fun l a => ∃ L cells,
    Moving ts l L cells ∧ scheme.Owns t ts { share ts none none with cells := cells } a
  have hI : ∀ l, scheme.discipline.Stable t (I l) := fun _ =>
    .exist fun _ => .exist fun _ => Discipline.Stable.const.and Scheme.stable_owns
  unfold makeOrphans
  simp only [Prog.bind_eq, Prog.perform_bind, Prog.iterate_bind, Prog.pure_eq]
  refine Discipline.WP.loop hI hi ⟨[], _, ⟨by simp, rfl,
    fun _ h => absurd h List.not_mem_nil, fun _ _ => rfl⟩, h⟩ fun l a hi h => ?_
  obtain ⟨L, cells, hm, h⟩ := h
  obtain ⟨i, head⟩ := l
  simp only
  split
  · next hlt =>
    refine Scheme.wp_newOrphan lawful hi h fun a o ho hi h => ?_
    have hx : (listed ts).drop i = (ts.1.getD i 0, ts.2.getD i ⟨0⟩) :: (listed ts).drop (i + 1) :=
      drop_zip hlen hlt
    refine Discipline.WP.ret (hI _) hi ⟨(o, _) :: L, _, ⟨?_, hm.chain.push ?_,
      hm.ext.push ho rfl _⟩, h⟩
    · have hheld := hm.held
      simp only [hx] at hheld
      rw [hheld, List.map_cons, ← Multiset.cons_coe, ← Multiset.cons_coe, Multiset.cons_add,
        Multiset.add_cons]
      rfl
    -- a new orphan is not yet on the chain
    · intro hmem
      obtain ⟨c, hc, rfl⟩ := List.mem_map.mp hmem
      obtain ⟨n, hn⟩ := hm.chain.cell hc
      have ho : cells c.1 = none := ho
      rw [ho] at hn
      cases hn
  · next hge =>
    have hend : (listed ts).drop i = [] := by
      rw [List.drop_eq_nil_iff, listed, List.length_zip, ← hlen, Nat.min_self]
      exact Nat.le_of_not_lt hge
    have hheld := hm.held
    simp only [hend, Multiset.coe_nil, add_zero] at hheld
    refine Discipline.WP.ret (Discipline.WP.stable _ _) hi ?_
    exact Discipline.WP.ret (.exist fun _ => .exist fun _ =>
      Discipline.Stable.const.and Scheme.stable_owns) hi ⟨L, cells, ⟨hheld, hm.chain, hm.ext⟩, h⟩

/-- The thread answers for nothing. -/
def Emptied (t : Nat) (a : Scheme.Aug State) : Prop :=
  scheme.Owns t ([], []) (share ([], []) none none) a

theorem Emptied.ready (h : Emptied t a) : Ready t none none a := ⟨([], []), rfl, h⟩

theorem wp_finalizeThread_empties (hi : (scheme.ledger a).Ok) (h : Ready t none none a) :
    scheme.discipline.WP t finalizeThread (fun _ a => Emptied t a) a := by
  unfold finalizeThread
  simp only [Prog.bind_eq, Prog.perform_bind]
  refine Discipline.WP.bind ((wp_scan hi h).mono fun _ a hi h => ?_)
  obtain ⟨ts, hlen, h⟩ := h
  refine wp_getTls hi h fun a slot hi h => ?_
  split
  · refine Discipline.WP.bind ((wp_makeOrphans hlen hi h).mono fun head a hi h => ?_)
    obtain ⟨L, cells, ⟨hheld, hchain, hext⟩, h⟩ := h
    refine wp_setRetired [] [] hi h fun a hi h => ?_
    rw [pushAll_eq]
    have hempty : Multiset.ofList (listed ([], [])) = 0 := rfl
    refine Discipline.WP.bind ((Scheme.wp_pushAll lawful (σ := share ([], []) none none) hi hchain hext
      ?_).mono fun _ a hi h => keeps_silent uses_releaseSlot a hi h)
    simpa only [share, hheld, hempty, zero_add] using h
  · next hnil =>
    -- nothing was retired, or everything has been freed
    have hts : ts = ([], []) := by
      obtain ⟨ps, fs⟩ := ts
      obtain rfl : ps = [] := by simpa using hnil
      obtain rfl : fs = [] := by simpa using hlen.symm
      rfl
    subst hts
    exact keeps_silent uses_releaseSlot a hi h

theorem wp_finalizeThread (hi : (scheme.ledger a).Ok) (h : Ready t none none a) :
    scheme.discipline.WP t finalizeThread (fun _ a => Ready t none none a) a :=
  (wp_finalizeThread_empties hi h).mono fun _ _ _ h => h.ready

/-! ### The destructor's drain -/

theorem wp_drainAll_empties (hi : (scheme.ledger a).Ok) (h : Ready t none none a) :
    scheme.discipline.WP t drainAll (fun _ a => Emptied t a) a := by
  obtain ⟨ts, hlen, h⟩ := h
  unfold drainAll
  simp only [Prog.bind_eq, Prog.perform_bind, Prog.iterate_bind, Prog.pure_eq]
  refine Discipline.WP.bind ((wp_drainLateRetire rfl hi h).mono fun _ a hi h => ?_)
  let left : Nat → Ledger.Share := fun i =>
    { share ts none none with held := ((listed ts).drop i : List Entry) }
  have hst : ∀ i, scheme.discipline.Stable t (scheme.Owns t ts (left i)) :=
    fun _ => Scheme.stable_owns
  refine Discipline.WP.loop hst hi h fun i a hi h => ?_
  refine wp_getTls hi h fun a slot hi h => ?_
  split
  · next hlt =>
    have hheld : (left i).held = (ts.1.getD i 0, ts.2.getD i ⟨0⟩) ::ₘ (left (i + 1)).held := by
      simp only [left, listed, drop_zip hlen hlt, ← Multiset.cons_coe]
    exact Scheme.wp_free lawful hi h rfl hheld fun a hi h => Discipline.WP.ret (hst (i + 1)) hi h
  · next hge =>
    have hend : (listed ts).drop i = [] := by
      rw [List.drop_eq_nil_iff, listed, List.length_zip, ← hlen, Nat.min_self]
      exact Nat.le_of_not_lt hge
    refine Discipline.WP.ret (Discipline.WP.stable _ _) hi ?_
    refine wp_setRetired [] [] hi h fun a hi h => ?_
    refine Discipline.WP.ret Scheme.stable_owns hi ?_
    have hempty : (left i).held = listed ([], []) := by simp only [left, hend]; rfl
    have h' : scheme.Owns t ([], []) { share ts none none with held := (left i).held } a := h
    rw [hempty] at h'
    exact h'

theorem wp_drainAll (hi : (scheme.ledger a).Ok) (h : Ready t none none a) :
    scheme.discipline.WP t drainAll (fun _ a => Ready t none none a) a :=
  (wp_drainAll_empties hi h).mono fun _ _ _ h => h.ready

/-! ## Every run -/

/-- What a call of thread `t` leaves. -/
def post (t : Nat) (c : Call) (r : Bool) (a : Scheme.Aug State) : Prop :=
  match c with
  | .retire x f => Retired t x f r a
  | _ => Ready t none none a

theorem covers : scheme.discipline.CoversIdle (fun t => Ready t none none) post where
  stable _ := stable_ready
  invoke t c a s' hi h hinv := by
    have hret : ∀ {p : Code Unit} {a}, scheme.discipline.WP t p (fun _ a => Ready t none none a) a →
        scheme.discipline.WP t (p.bind fun _ => .ret true) (fun _ a => Ready t none none a) a :=
      fun hw => Discipline.WP.bind (hw.mono fun _ _ hi h => Discipline.WP.ret stable_ready hi h)
    have hprotect : ∀ idx p, scheme.discipline.WP t (protect idx p)
        (fun _ a => Ready t none none a) a := by
      intro idx p
      obtain ⟨ts, hlen, h⟩ := h
      exact (keeps_silent (uses_protect idx p) a hi h).mono fun _ a _ h => ⟨ts, hlen, h⟩
    cases c with
    | retire x f =>
      simp only [accounts, invoke] at hinv
      split at hinv
      · cases hinv
      · next hx =>
        cases hinv
        obtain ⟨ts, hlen, h⟩ := h
        obtain ⟨a', h1, h2, h3, h4⟩ := Scheme.exists_step
          { a.st with submitted := insert x a.st.submitted } ((scheme.ledger a).claim t x) h rfl rfl
          (hi.claim hx) (Ledger.Guar.claim hi hx) (h.2.toClaim hi hx)
        exact ⟨a', h1, h3, wp_retire x f h2 ⟨ts, hlen, h4⟩⟩
    | protect idx p =>
      cases hinv
      exact ⟨a, rfl, Scheme.guar_refl t a, hret (hprotect idx p)⟩
    | clear idx =>
      cases hinv
      exact ⟨a, rfl, Scheme.guar_refl t a, hret (hprotect idx none)⟩
    | reclaim =>
      cases hinv
      exact ⟨a, rfl, Scheme.guar_refl t a, hret (wp_scan hi h)⟩
    | finalizeThread =>
      cases hinv
      exact ⟨a, rfl, Scheme.guar_refl t a, hret (wp_finalizeThread hi h)⟩
    | drainAll =>
      cases hinv
      exact ⟨a, rfl, Scheme.guar_refl t a, hret (wp_drainAll hi h)⟩
  respond t c r a hi h := by
    cases c with
    | retire x f =>
      cases r with
      | true =>
        obtain ⟨ts, hlen, h⟩ := h
        -- the answer true: the object that the call has had accepted is due no longer
        have hdue : (scheme.ledger a).ghost.due t = some (x, f) := h.2.due
        obtain ⟨a', h1, h2, h3, h4⟩ := Scheme.exists_step
          { a.st with returned := a.st.returned ++ [(x, f)] } ((scheme.ledger a).answer t (x, f)) h
          rfl rfl (hi.answer hdue) Ledger.Guar.answer h.2.toAnswer
        exact ⟨a', h1, h2, h3, ts, hlen, h4⟩
      | false =>
        obtain ⟨ts, hlen, h⟩ := h
        have hx : (share ts (some x) none).claim = some x := rfl
        -- the answer false: the object is the caller's again and may be retired once more
        have hplace := h.2.claim x hx
        obtain ⟨a', h1, h2, h3, h4⟩ := Scheme.exists_step
          { a.st with submitted := a.st.submitted.erase x } ((scheme.ledger a).disclaim x) h rfl rfl
          (hi.disclaim hplace) (Ledger.Guar.disclaim hplace) (h.2.toDisclaim hx)
        exact ⟨a', h1, h2, h3, ts, hlen, h4⟩
    | _ => exact ⟨a, rfl, hi, Scheme.guar_refl t a, h⟩

/-- In every run the accounts are kept, the calls of `retire` that have returned are among them, and
a thread outside a call answers for its list. -/
theorem reach_accounts (address : Nat → Nat) (c : Config Op State Call Bool)
    (h : accounts.Reachable { State.init with address := address } c) :
    (books c.shared).RunOnce ∧ (∀ x ∈ c.shared.returned, x ∈ c.shared.accepted) ∧
      ((∀ t, c.thread t = none) →
        (∀ t, (c.shared.tls t).retired.length = (c.shared.tls t).retiredActions.length) ∧
          c.shared.returned.Perm c.shared.accepted ∧
            (books c.shared).Balanced fun t =>
              (c.shared.tls t).retired.zip (c.shared.tls t).retiredActions) := by
  let start : Scheme.Aug State := ⟨{ State.init with address := address }, .init⟩
  have hidle : ∀ t, Ready t none none start := fun t =>
    ⟨([], []), rfl, rfl, Ledger.owned_init _ _ rfl⟩
  obtain ⟨a, ha, hready⟩ := Discipline.reach_idle covers
    (Ledger.ok_init (books start.st) rfl rfl rfl rfl (fun _ => rfl) rfl rfl) hidle h
  have hst : a.st = c.shared := ha.erase
  rw [← hst]
  refine ⟨ha.inv.runOnce, ha.inv.returned_subset, fun hnone => ⟨fun t => ?_, ?_, ?_⟩⟩
  · obtain ⟨ts, hlen, htls, -⟩ := hready t (hnone t)
    obtain ⟨h1, h2⟩ : (a.st.tls t).retired = ts.1 ∧ (a.st.tls t).retiredActions = ts.2 :=
      Prod.mk.inj htls
    rw [h1, h2, hlen]
  · refine Ledger.Ok.returned_perm ha.inv fun t => ?_
    obtain ⟨ts, -, -, hown⟩ := hready t (hnone t)
    exact hown.due
  · refine Ledger.Ok.balanced ha.inv fun t => ?_
    obtain ⟨ts, -, htls, hown⟩ := hready t (hnone t)
    have hlists : ts = ((a.st.tls t).retired, (a.st.tls t).retiredActions) := htls.symm
    subst hlists
    exact ⟨hown.held, fun hm => by cases hown.token.mp hm⟩

/-! ## Threads that have left -/

/-- What is known of thread `t` after its last call. -/
def last (t : Nat) (o : Option Call) (a : Scheme.Aug State) : Prop :=
  match o with
  | none | some .finalizeThread | some .drainAll => Emptied t a
  | _ => Ready t none none a

theorem last_ready {o : Option Call} {a : Scheme.Aug State} (h : last t o a) :
    Ready t none none a := by
  unfold last at h
  split at h
  · exact h.ready
  · exact h.ready
  · exact h.ready
  · exact h

/-- What a call of thread `t` leaves. -/
def leaves (t : Nat) (c : Call) (r : Bool) (a : Scheme.Aug State) : Prop :=
  match c with
  | .finalizeThread | .drainAll => Emptied t a
  | c => post t c r a

theorem coversLast : scheme.discipline.CoversLast last leaves where
  stable t o := by
    unfold last
    split
    · exact Scheme.stable_owns
    · exact Scheme.stable_owns
    · exact Scheme.stable_owns
    · exact stable_ready
  invoke t o c a s' hi h hinv := by
    have hret : ∀ {p : Code Unit}, scheme.discipline.WP t p (fun _ a => Emptied t a) a →
        scheme.discipline.WP t (p.bind fun _ => .ret true) (fun _ a => Emptied t a) a :=
      fun hw => Discipline.WP.bind (hw.mono fun _ _ hi h => Discipline.WP.ret Scheme.stable_owns hi h)
    cases c with
    | finalizeThread =>
      cases hinv
      exact ⟨a, rfl, Scheme.guar_refl t a, hret (wp_finalizeThread_empties hi (last_ready h))⟩
    | drainAll =>
      cases hinv
      exact ⟨a, rfl, Scheme.guar_refl t a, hret (wp_drainAll_empties hi (last_ready h))⟩
    | protect idx p => exact covers.invoke t (.protect idx p) a s' hi (last_ready h) hinv
    | clear idx => exact covers.invoke t (.clear idx) a s' hi (last_ready h) hinv
    | retire x f => exact covers.invoke t (.retire x f) a s' hi (last_ready h) hinv
    | reclaim => exact covers.invoke t .reclaim a s' hi (last_ready h) hinv
  respond t c r a hi h := by
    cases c with
    | finalizeThread => exact ⟨a, rfl, hi, Scheme.guar_refl t a, h⟩
    | drainAll => exact ⟨a, rfl, hi, Scheme.guar_refl t a, h⟩
    | protect idx p => exact covers.respond t (.protect idx p) r a hi h
    | clear idx => exact covers.respond t (.clear idx) r a hi h
    | retire x f => exact covers.respond t (.retire x f) r a hi h
    | reclaim => exact covers.respond t .reclaim r a hi h

/-- A thread that has retired nothing since it left, or nothing at all, has empty lists. -/
theorem empty_of_left {address : Nat → Nat} {ls : List (Label Call)}
    {c : Config Op State Call Bool} {u : Nat}
    (h : accounts.exec (SharedObject.start { State.init with address := address }) ls = some c)
    (hu : c.thread u = none)
    (hleft : ∀ op, Label.lastCall u ls = some op → op = .finalizeThread ∨ op = .drainAll) :
    (c.shared.tls u).retired = [] ∧ (c.shared.tls u).retiredActions = [] := by
  let start : Scheme.Aug State := ⟨{ State.init with address := address }, .init⟩
  have hempty : ∀ t, last t none start := fun t => ⟨rfl, Ledger.owned_init _ _ rfl⟩
  obtain ⟨a, ha, hlast⟩ := Discipline.exec_last coversLast (fun _ _ _ => trivial)
    (Ledger.ok_init (books start.st) rfl rfl rfl rfl (fun _ => rfl) rfl rfl) hempty ls h
  have hemp : Emptied u a := by
    have := hlast u hu
    cases ho : Label.lastCall u ls with
    | none => rwa [ho] at this
    | some op =>
      rw [ho] at this
      rcases hleft op ho with rfl | rfl <;> exact this
  have hst : a.st = c.shared := ha.erase
  rw [← hst]
  exact Prod.mk.inj hemp.1

end Account

end MpmcMap.Reclaim.Hazard
