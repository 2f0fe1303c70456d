import MpmcMap.Reclaim.Shields
import MpmcMap.Ordered.Sequential

/-!
# Hazard-pointer searches of the tree

`search` under the hazard-pointer scheme, beside insertions, erasures and scans, with an exact
`is_protected`. The root is published and then re-read; a child is published after the second test
of its parent's lock and dereferenced at once. `search_safe` needs that a node which the search
goes on with is not retired yet.
-/

namespace MpmcMap.Ordered

open Conc
open Prog (perform iterate)
open Label (whole)
open Reclaim.Hazard (HAZARD_POINTERS)

variable {Addr Key : Type} [DecidableEq Addr]

namespace Shielded

abbrev Code (Addr Key : Type) := Reclaim.Shields.Code (Op Addr Key) Addr

/-- `HP_ROOT` and `HP_CUR` of the ordered engine. -/
def HP_ROOT : Fin HAZARD_POINTERS := 0
def HP_CUR : Fin HAZARD_POINTERS := 1

omit [DecidableEq Addr] in
/-- One node of a descent of `search`, from `(cur, parent)`; `none` is `retry`. -/
def searchStep (cmp : Key → Key → Bool) (k : Key) :
    Option Addr × Option Addr →
      Code Addr Key (Option Addr × Option Addr ⊕ Option (SearchResult Addr))
  | (none, parent) => return .inr (some (.absent parent))
  | (some cur, _) => do
    if ← perform (.read cur (.loadLocked cur)) then
      return .inr none
    let c := compare cmp k (← perform (.read cur (.loadKey cur)))
    if c = .eq then
      return .inr (some (.found cur))
    let child ← perform (.read cur (.loadChild cur (sideOf c)))
    if ← perform (.read cur (.loadLocked cur)) then
      return .inr none
    perform (.own (.protectTrusted HP_CUR child))
    return .inl (child, some cur)

omit [DecidableEq Addr] in
/-- One descent of `search` from the root. -/
def searchTry (cmp : Key → Key → Bool) (k : Key) :
    Unit → Code Addr Key (Unit ⊕ SearchResult Addr)
  | () => do
    let cur ← perform (.access .loadRoot)
    perform (.own (.protect HP_ROOT cur))
    if ← perform (.own (.validate HP_ROOT none (.reloadRoot cur))) then
      match cur with
      | none => return .inr (.absent none)
      | some root =>
        match ← iterate (searchStep cmp k) (some root, none) with
        | none => return .inl ()
        | some r => return .inr r
    else
      return .inl ()

omit [DecidableEq Addr] in
/-- `search`. -/
def search (cmp : Key → Key → Bool) (k : Key) : Code Addr Key (SearchResult Addr) :=
  iterate (searchTry cmp k) ()

omit [DecidableEq Addr] in
/-- The accesses of the writers; `threshold` is `MPMC_HAZARD_RETIRE_THRESHOLD`. -/
def shielded (threshold : Nat) {β : Type} (o : Op Addr Key β) : Code Addr Key β :=
  match o with
  | .retire a => do
    perform (.access (.retire a))
    Reclaim.Shields.retire threshold a
  | o => perform (.access o)

end Shielded

/-- The calls of the threads: `search`, `insert_node`, `erase_node` and `reclaim`. -/
inductive Searcher (Addr Key : Type) where
  | search (k : Key)
  | insert (n : Addr) (k : Key)
  | erase (k : Key)
  | reclaim

namespace Searcher

omit [DecidableEq Addr] in
/-- The code of a call. -/
def code (cmp : Key → Key → Bool) (threshold : Nat) :
    Searcher Addr Key → Shielded.Code Addr Key Bool
  | .search k => do
    match ← Shielded.search cmp k with
    | .found _ => return true
    | .absent _ => return false
  | .insert n k => (insertNode cmp n k).expand (Shielded.shielded threshold)
  | .erase k => (eraseNode cmp k).expand (Shielded.shielded threshold)
  | .reclaim => do
    Reclaim.Shields.scan
    return true

end Searcher

/-- The container, and the nodes made so far: memory is not reused. -/
structure Store (Addr Key : Type) where
  heap : Heap Addr Key
  made : Finset Addr

/-- The meaning of the engine's accesses. -/
def Store.access {β : Type} (t : Nat) (_ : Bool) (o : Op Addr Key β) (s : Store Addr Key) :
    Option (β × Store Addr Key) :=
  (o.apply t s.heap).map fun r => (r.1, { s with heap := r.2 })

/-- The client's side of a call: a node that is inserted is new. -/
def Searcher.invoke (s : Store Addr Key) : Searcher Addr Key → Option (Store Addr Key)
  | .insert n k =>
    if n ∈ s.made then none else some ⟨s.heap.create n k, {n} ∪ s.made⟩
  | _ => some s

/-- The registered threads `ts` over one tree. -/
def searching (cmp : Key → Key → Bool) (threshold : Nat) (ts : Finset Nat) :
    SharedObject (Reclaim.Shields.Op (Op Addr Key) Addr)
      (Store Addr Key × Reclaim.Shields.State Addr) (Searcher Addr Key) Bool :=
  Reclaim.Shields.system ts Store.access (Searcher.code cmp threshold)
    fun c s => Searcher.invoke s c

section Safety

variable {ts : Finset Nat} {t : Nat}
  {code : Searcher Addr Key → Shielded.Code Addr Key Bool}
  {invoke : Searcher Addr Key → Store Addr Key → Option (Store Addr Key)}
  {cmp : Key → Key → Bool} {k : Key} {α β : Type}

namespace Shielded

variable (ts code invoke) in
/-- The proof obligations of the threads; of the tree nothing is known. -/
abbrev guarding :=
  Reclaim.Shields.discipline ts Store.access code invoke
    (Reclaim.Shields.Client.unknown (Store Addr Key) Addr)
    (Reclaim.Shields.Timely Store.access)

/-- A state of the system, in which the protocol is kept. -/
abbrev Sound (ts : Finset Nat) (a : Store Addr Key × Reclaim.Shields.State Addr) : Prop :=
  Reclaim.Shields.Sound ts (Reclaim.Shields.Client.unknown (Store Addr Key) Addr) a

theorem keeps_access (e : Op Addr Key β) :
    (guarding ts code invoke).Keeps t (fun _ => True) (perform (.access e)) := by
  intro a hi h
  refine Reclaim.Shields.wp_access .const hi h fun b s r hi _ _ => ?_
  exact ⟨r.2, rfl, trivial, trivial, Discipline.WP.ret .const ⟨hi.slots, trivial⟩ trivial⟩

/-- Every access of a writer keeps the protocol. -/
theorem keeps_shielded (threshold : Nat) (o : Op Addr Key β) :
    (guarding ts code invoke).Keeps t (fun _ => True) (shielded threshold o) := by
  cases o with
  | retire a =>
    exact .bind (keeps_access _) fun _ =>
      Reclaim.Shields.wp_retire threshold .const fun _ _ _ => trivial
  | _ => exact keeps_access _

/-- The node that the search stands on is trusted. -/
def Standing (t : Nat) (cur : Option Addr)
    (s : Store Addr Key × Reclaim.Shields.State Addr) : Prop :=
  ∀ a, cur = some a → ∃ h, s.2.trusted t h = some a

theorem stable_standing (cur : Option Addr) :
    (guarding ts code invoke).Stable t (Standing t cur) := by
  intro u hu a b hi hi' hg h p hp
  exact Reclaim.Shields.stable_trusted (fun f => ∃ h, f h = some p) u hu a b hi hi' hg (h p hp)

/-- A dereference of the node that the search stands on. -/
theorem wp_read {e : Op Addr Key β} {f : β → Code Addr Key α}
    {Q : α → Store Addr Key × Reclaim.Shields.State Addr → Prop} {p : Addr}
    {a : Store Addr Key × Reclaim.Shields.State Addr} (hi : Sound ts a)
    (h : Standing t (some p) a)
    (hk : ∀ r a, Sound ts a → Standing t (some p) a →
      (guarding ts code invoke).WP t (f r) Q a) :
    (guarding ts code invoke).WP t (.act (.read p e) f) Q a := by
  refine Reclaim.Shields.wp_read (stable_standing (some p)) hi h
    (fun s _ h => .inl (h p rfl)) fun b s r hi h _ => ?_
  exact ⟨r.2, rfl, trivial, trivial, hk r.1 (r.2, s.2) ⟨hi.slots, trivial⟩ h⟩

/-- One node of the descent. -/
theorem wp_searchStep (ht : t ∈ ts) (cur parent : Option Addr)
    {a : Store Addr Key × Reclaim.Shields.State Addr} (hi : Sound ts a) (h : Standing t cur a) :
    (guarding ts code invoke).WP t (searchStep cmp k (cur, parent))
      (fun r a => Sum.elim (fun l => Standing t l.1 a) (fun _ => True) r) a := by
  have hstable : ∀ r : Option Addr × Option Addr ⊕ Option (SearchResult Addr),
      (guarding ts code invoke).Stable t
        fun a => Sum.elim (fun l => Standing t l.1 a) (fun _ => True) r := by
    rintro (l | r)
    · exact stable_standing l.1
    · exact .const
  cases cur with
  | none => exact Discipline.WP.ret (hstable _) hi trivial
  | some p =>
    simp only [searchStep, Prog.bind_eq, Prog.perform_bind, Prog.pure_eq]
    refine wp_read hi h fun locked a hi h => ?_
    split
    · exact Discipline.WP.ret (hstable _) hi trivial
    refine wp_read hi h fun key a hi h => ?_
    split
    · exact Discipline.WP.ret (hstable _) hi trivial
    refine wp_read hi h fun child a hi h => ?_
    refine wp_read hi h fun locked a hi h => ?_
    split
    · exact Discipline.WP.ret (hstable _) hi trivial
    refine Reclaim.Shields.wp_protectTrusted ht hi (fun _ _ hok => hok) fun a hi htrust => ?_
    exact Discipline.WP.ret (hstable _) hi fun p hp => ⟨HP_CUR, htrust.trans hp⟩

theorem wp_search (ht : t ∈ ts) :
    (guarding ts code invoke).Keeps t (fun _ => True) (search cmp k) := by
  refine .loop .const (fun _ a hi _ => ?_) (fun _ => .ret .const _) ()
  simp only [searchTry, Prog.bind_eq, Prog.perform_bind, Prog.pure_eq]
  refine Reclaim.Shields.wp_access .const hi trivial fun b s r hi _ _ => ?_
  refine ⟨r.2, rfl, trivial, trivial, ?_⟩
  generalize r.1 = cur
  -- the root is published, and its slot holds it until the re-read
  refine Reclaim.Shields.wp_protect .const ⟨hi.slots, trivial⟩ trivial fun a _ hi => ?_
  refine Reclaim.Shields.wp_validate (P := fun a => a.2.hp t HP_ROOT = cur) ht
    (fun b y r hr => ?_) (Reclaim.Shields.stable_hp cur) hi
    (by simp [Reclaim.Shields.State.protect]) (fun p hp => by cases hp)
    (fun b s r _ _ hok hr => hok b r hr) fun b s r hhp _ hi' => ?_
  · obtain ⟨r', hr', rfl⟩ := Option.map_eq_some_iff.mp hr
    cases hr'
    rfl
  cases hr : r.1 with
  | false =>
    simp only [hr, Bool.false_eq_true, if_false] at hi' ⊢
    exact Discipline.WP.ret .const hi' trivial
  | true =>
    simp only [hr, if_true] at hi' ⊢
    cases cur with
    | none => exact Discipline.WP.ret .const hi' trivial
    | some root =>
      -- the descent begins at the root, which is published and was re-read
      have htrust : (s.2.trust t HP_ROOT).trusted t HP_ROOT = some root := by
        simp only [Reclaim.Shields.State.trust, Function.update_self]
        exact hhp
      refine Discipline.WP.loop (I := fun l => Standing t l.1)
        (fun l => stable_standing l.1) hi' (fun p hp => ⟨HP_ROOT, ?_⟩)
        fun l a hi h => ?_
      · rw [htrust, ← hp]
      · refine (wp_searchStep ht l.1 l.2 hi h).mono fun r a hi h => ?_
        rcases r with l | r
        · exact h
        · cases r with
          | none => exact Discipline.WP.ret .const hi trivial
          | some r => exact Discipline.WP.ret .const hi trivial

end Shielded

/-- If a node is never retired before the search goes on with it, the search dereferences no freed
node. -/
theorem search_safe (cmp : Key → Key → Bool) (threshold : Nat) (ts : Finset Nat)
    (s : Store Addr Key)
    (c : Config (Reclaim.Shields.Op (Op Addr Key) Addr)
      (Store Addr Key × Reclaim.Shields.State Addr) (Searcher Addr Key) Bool)
    (hc : (searching cmp threshold ts).Reach (Reclaim.Shields.Timely Store.access) (s, .init) c) :
    c.shared.2.stale = [] := by
  have hcode : ∀ t ∈ ts, ∀ cl : Searcher Addr Key,
      (Shielded.guarding ts (Searcher.code cmp threshold) fun c s => Searcher.invoke s c).Keeps t
        (fun _ => True) (Searcher.code cmp threshold cl) := by
    intro t ht cl
    cases cl with
    | search k =>
      refine .bind (Shielded.wp_search ht) fun r => ?_
      cases r with
      | found a => exact .ret .const _
      | absent l => exact .ret .const _
    | insert n k => exact .expand .const (Shielded.keeps_shielded threshold) _
    | erase k => exact .expand .const (Shielded.keeps_shielded threshold) _
    | reclaim => exact .bind Reclaim.Shields.wp_scan fun _ => .ret .const _
  refine (Reclaim.Shields.safe (K := .unknown _ _) trivial
    (fun t ht cl a y hi _ => ?_) hc).stale
  exact ⟨y, rfl, trivial, hcode t ht cl (y, a.2) ⟨hi.slots, trivial⟩ trivial⟩

end Safety

/-! ## A search that publishes a freed node -/

/-- An empty tree, and no node made. -/
def Store.empty : Store Nat Nat := ⟨Heap.new fun _ => 0, ∅⟩

/-- Two threads under the scheme as it is configured. -/
abbrev twoSearchers := @searching Nat Nat _ natLess Reclaim.Hazard.RETIRE_THRESHOLD {0, 1}

/-- Node 2 is the root and node 1 its left child; thread 0 looks for key 1 and takes `n` steps. -/
def searchingOne (n : Nat) : List (Label (Searcher Nat Nat)) :=
  whole 1 (.insert 2 2) 6 ++ whole 1 (.insert 1 1) 19 ++ .call 0 (.search 1) ::
    List.replicate n (.step 0 false)

/-- Node 1 is erased and the eraser scans; then thread 0 takes three steps. -/
def erasedMeanwhile : List (Label (Searcher Nat Nat)) :=
  whole 1 (.erase 1) 27 ++ whole 1 .reclaim 11 ++ List.replicate 3 (.step 0 false)

/-- A child is erased, scanned for and freed after the second test of its parent's lock and before
its publication: the search dereferences the freed node. -/
theorem unvalidated_child :
    ¬ ∀ (cmp : Nat → Nat → Bool) (threshold : Nat) (ts : Finset Nat) (s : Store Nat Nat)
      (c : Config (Reclaim.Shields.Op (Op Nat Nat) Nat)
        (Store Nat Nat × Reclaim.Shields.State Nat) (Searcher Nat Nat) Bool),
      (searching cmp threshold ts).Reachable (s, .init) c → c.shared.2.stale = [] := by
  intro hall
  have hrun : (twoSearchers.exec (SharedObject.start (Store.empty, .init))
      (searchingOne 9 ++ erasedMeanwhile)).map (fun c => c.shared.2.stale) = some [1] := by
    decide +kernel
  obtain ⟨c, hc, hval⟩ := Option.map_eq_some_iff.mp hrun
  have hnone := hall natLess _ {0, 1} Store.empty c (twoSearchers.reachable_exec _ hc)
  rw [hnone] at hval
  cases hval

/-- With the child published one step earlier, the scan keeps it. -/
theorem search_safe_run :
    ∃ c : Config (Reclaim.Shields.Op (Op Nat Nat) Nat)
        (Store Nat Nat × Reclaim.Shields.State Nat) (Searcher Nat Nat) Bool,
      twoSearchers.Reach (Reclaim.Shields.Timely Store.access) (Store.empty, .init) c ∧
      c.shared.2.retired 1 = [1] ∧ c.shared.2.stale = [] := by
  have hrun : (twoSearchers.execIf (Reclaim.Shields.timelyTest Store.access)
      (SharedObject.start (Store.empty, .init)) (searchingOne 10 ++ erasedMeanwhile)).map (fun c =>
        c.shared.2.retired 1) = some [1] := by decide +kernel
  obtain ⟨c, hc, hret⟩ := Option.map_eq_some_iff.mp hrun
  have hreach := twoSearchers.reach_execIf
    (fun t o s => Reclaim.Shields.timelyTest_sound t o s) _ .start hc
  exact ⟨c, hreach, hret, search_safe natLess _ {0, 1} Store.empty c hreach⟩

end MpmcMap.Ordered
