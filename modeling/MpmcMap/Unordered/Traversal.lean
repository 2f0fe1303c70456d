import MpmcMap.Conc.Shadow
import MpmcMap.Unordered.Linearizable
import MpmcMap.Unordered.Walkers

/-!
# Hazard-pointer traversals of the list

The re-read of `protect_from` shows that the source has not changed, but not that the source is
still in the list. Where it is, or where the node that is published has not been retired yet, no
freed node is dereferenced.

That a node behind a source in the list is not retired is a fact about the list alone. Each run of
the walks is accompanied by a run of the list in which the same accesses take place, and there what
is retired is out of the list.
-/

namespace MpmcMap.Unordered

open Conc
open Prog (perform iterate)
open Label (whole)
open Reclaim.Hazard (HAZARD_POINTERS)

variable {Addr Key : Type} [DecidableEq Addr]

/-! ## Sources in the list -/

/-- A re-read that finds its source unchanged finds it in the list. -/
def SourceListed (head : Addr) {β : Type} (t : Nat)
    (o : Reclaim.Shields.Own (Op Addr Key) (Obj Addr) β)
    (s : Heap Addr Key × Reclaim.Shields.State (Obj Addr)) : Prop :=
  match o with
  | .validate _ src e => ∀ b r, access t b e s.1 = some r → r.1 = true →
      ∀ a, src = some (.node a) → s.1.Reaches head a
  | _ => True

/-- Re-reads succeed from the list only, what is dereferenced after its slot may have been given away
is held or in the list, and no helper brings back an erased node. -/
def WalksList (head : Addr) {β : Type} (t : Nat) (o : Reclaim.Shields.Op (Op Addr Key) (Obj Addr) β)
    (s : Heap Addr Key × Reclaim.Shields.State (Obj Addr)) : Prop :=
  match o with
  | .access e | .read _ e => HelpsListed t e s.1
  | .again p e => HelpsListed t e s.1 ∧ (s.2.Holds t p ∨ ∃ a, p = .node a ∧ s.1.Reaches head a)
  | .own o => SourceListed head t o s

/-- What is retired is out of the list. -/
def Apart (head : Addr) (h : Heap Addr Key) : Prop := ∀ a ∈ h.retired, ¬ h.Reaches head a

namespace Shielding

variable {ts : Finset Nat} {head : Addr}

theorem vouches_timely :
    Vouches ts (Reclaim.Shields.Timely (@access Addr Key _)) where
  confirm t src a r s _ hok hnext _ hhp := by
    refine hok false (true, s.1.heap) ?_ rfl _ hhp
    show some (decide (s.1.heap.next src = r), s.1.heap) = _
    rw [decide_eq_true hnext]
  given t p o s _ hok := hok

/-- In a list whose retired nodes are out of it, the successor of a source in the list is not
retired. -/
theorem vouches_walksList :
    Vouches ts fun {β} t (o : Reclaim.Shields.Op (Op Addr Key) (Obj Addr) β) s =>
      WalksList head t o s ∧ Apart head s.1 where
  confirm t src a r s hi hok hnext hptr _ hsub := by
    have hsrc : s.1.heap.Reaches head src := by
      refine hok.1 false (true, s.1.heap) ?_ rfl src rfl
      show some (decide (s.1.heap.next src = r), s.1.heap) = _
      rw [decide_eq_true hnext]
    obtain ⟨c, hc, -, -, hret⟩ := hi.client.submitted _ hsub
    cases hc
    refine hok.2 a hret (hsrc.tail ?_)
    rw [Heap.succ, hnext]
    exact hptr
  given t p o s hi hok := by
    rcases hok.1.2 with hheld | ⟨a, rfl, ha⟩
    · exact hheld
    · refine .inr fun hsub => ?_
      obtain ⟨c, hc, -, -, hret⟩ := hi.client.submitted _ hsub
      cases hc
      exact hok.2 a hret ha

end Shielding

/-! ## The run of the list -/

section Background

variable {C : Config Key} {threshold : Nat} {ts : Finset Nat} {t : Nat} {head : Addr}
  {x₀ : Heap Addr Key}

/-- Thread `t` runs `p`, while the thread that follows it on the list alone runs `q`. -/
abbrev Accompanied (C : Config Key) (threshold : Nat) (ts : Finset Nat) (head : Addr)
    (x₀ : Heap Addr Key) (t : Nat) {α : Type}
    (p : Reclaim.Shields.Code (Op Addr Key) (Obj Addr) α)
    (q : (α → Code Addr Key (Answer Addr Key)) → Code Addr Key (Answer Addr Key)) : Prop :=
  Shadow.Follows (traversal C threshold ts) (list C) Prod.fst (WalksList head) HelpsListed x₀ t p q

theorem accompanied_access {β : Type} {o : Op Addr Key β}
    {e : Reclaim.Shields.Op (Op Addr Key) (Obj Addr) β}
    (he : e = .access o ∨ ∃ p, e = .read p o ∨ e = .again p o) :
    Accompanied C threshold ts head x₀ t (perform e) (.act o) := by
  refine Shadow.follows_act fun w s r s' hok hact v => ?_
  rcases he with rfl | ⟨p, rfl | rfl⟩
  · obtain ⟨x, hx, heq⟩ := Option.map_eq_some_iff.mp hact
    cases heq
    exact ⟨hok, hx⟩
  · obtain ⟨x, hx, heq⟩ := Option.map_eq_some_iff.mp hact
    cases heq
    exact ⟨hok, hx⟩
  · obtain ⟨x, hx, heq⟩ := Option.map_eq_some_iff.mp hact
    cases heq
    exact ⟨hok.1, hx⟩

theorem accompanied_own {β : Type} {o : Reclaim.Shields.Own (Op Addr Key) (Obj Addr) β}
    {e : Op Addr Key β} (he : ∀ v h, HelpsListed v e h)
    (ho : ∀ w s r s', o.action ts access t w s = some (r, s') → e.apply w s.1 = some (r, s'.1)) :
    Accompanied C threshold ts head x₀ t (perform (.own o)) (.act e) :=
  Shadow.follows_act fun w s r s' _ hact v => ⟨he v s.1, ho w s r s' hact⟩

theorem accompanied_retire (n : Nat) (p : Obj Addr) :
    Accompanied C threshold ts head x₀ t (Reclaim.Shields.retire n p) fun k => k () :=
  Shadow.follows_own (Reclaim.Shields.blind_retire n p) fun ho _ _ _ _ hact =>
    Reclaim.Shields.action_blind ho hact

/-- Each access of the engine takes place on the list, and its part in the reclaimer does not. -/
theorem accompanied_shielded (n : Nat) {β : Type} (o : Op Addr Key β) :
    Accompanied C threshold ts head x₀ t (shielded n o) (perform o).bind := by
  cases o with
  | protect slot p =>
    refine accompanied_own (fun _ _ => ⟨trivial, trivial⟩) fun w s r s' hact => ?_
    cases hact
    rfl
  | reloadNext a l =>
    refine accompanied_own (fun _ _ => ⟨trivial, trivial⟩) fun w s r s' hact => ?_
    cases hact
    rfl
  | reloadTable u =>
    refine accompanied_own (fun _ _ => ⟨trivial, trivial⟩) fun w s r s' hact => ?_
    cases hact
    rfl
  | retireNode a => exact (accompanied_access (.inl rfl)).bind fun _ => accompanied_retire n _
  | retireTable u => exact (accompanied_access (.inl rfl)).bind fun _ => accompanied_retire n _
  | loadTable | casTable | newTable | destroyTable | allocNode | freeNode | addCount | subCount =>
    exact accompanied_access (.inl rfl)
  | _ => first | exact accompanied_access (.inl rfl) | exact accompanied_access (.inr ⟨_, .inl rfl⟩)

theorem accompanied_touch (n : Nat) {β : Type} (o : Touch (Op Addr Key) β) :
    Accompanied C threshold ts head x₀ t (o.shielded n) (perform o.access).bind := by
  cases o with
  | kept o => exact accompanied_shielded n o
  | given o =>
    show Accompanied C threshold ts head x₀ t
      (perform (o.target.elim (.access o) fun p => .again p o)) (.act o)
    cases o.target with
    | none => exact accompanied_access (.inl rfl)
    | some p => exact accompanied_access (.inr ⟨p, .inr rfl⟩)

/-- The call that accompanies a call: `locate` is the beginning of `next_node`, and a reclaim does
nothing to the list. -/
def Walker.request (k₀ : Key) : Walker Addr Key → Request Addr Key
  | .locate mixed cmpKey => .next mixed cmpKey k₀
  | .insert n k => .insert n k
  | .erase k => .erase k
  | .find k => .find k
  | .reclaim => .find k₀

/-- A call is accompanied. -/
theorem accompanied_code (k₀ : Key) (c : Walker Addr Key)
    (a : Shadow (Op Addr Key) (Heap Addr Key × Reclaim.Shields.State (Obj Addr))
      (Heap Addr Key) (Request Addr Key) (Answer Addr Key))
    (hi : Shadow.Inv (list C) Prod.fst HelpsListed x₀ a)
    (h : Shadow.At t ((c.request k₀).code C) a) :
    (Shadow.shadowing (traversal C threshold ts) (list C) Prod.fst (WalksList head) HelpsListed
      x₀).WP t (c.code C threshold) (fun _ _ => True) a := by
  have hshielded : ∀ {α : Type} (p : Code Addr Key α),
      Accompanied C threshold ts head x₀ t (p.expand (shielded threshold)) p.bind := by
    intro α p
    have hp : Accompanied C threshold ts head x₀ t (p.expand (shielded threshold))
        (p.expand fun o => perform o).bind :=
      Shadow.follows_expand (accompanied_shielded threshold) p
    rwa [Prog.expand_perform] at hp
  cases c with
  | locate mixed cmpKey =>
    refine Discipline.WP.bind ((hshielded (locate C mixed cmpKey) _ a hi h).mono fun r a hi _ => ?_)
    exact Discipline.WP.ret .const hi trivial
  | insert n k =>
    let p := insertTouching C n (C.mixedHash k) (soKeyOf (C.mixedHash k)) k
    have htouch : Accompanied C threshold ts head x₀ t (p.expand (Touch.shielded threshold))
        (p.expand fun o => perform o.access).bind :=
      Shadow.follows_expand (accompanied_touch threshold) p
    rw [insertTouching_access] at htouch
    refine Discipline.WP.bind ((htouch _ a hi h).mono fun r a hi _ => ?_)
    exact Discipline.WP.ret .const hi trivial
  | erase k =>
    have hret : Shadow.At t (((Request.erase k).code C).bind .ret) a := by rwa [Prog.bind_ret]
    exact (hshielded ((Request.erase k).code C) _ a hi hret).mono fun _ _ _ _ => trivial
  | find k =>
    have hret : Shadow.At t (((Request.find k).code C).bind .ret) a := by rwa [Prog.bind_ret]
    exact (hshielded ((Request.find k).code C) _ a hi hret).mono fun _ _ _ _ => trivial
  | reclaim =>
    have hscan : Accompanied C threshold ts head x₀ t Reclaim.Shields.scan fun k => k () :=
      Shadow.follows_own Reclaim.Shields.blind_scan fun ho _ _ _ _ hact =>
        Reclaim.Shields.action_blind ho hact
    refine Discipline.WP.bind ((hscan (fun _ => (Request.find k₀).code C) a hi h).mono
      fun r a hi _ => ?_)
    exact Discipline.WP.ret .const hi trivial

/-- A run of the walks is accompanied by a run of the list alone. -/
theorem accompanied (k₀ : Key)
    {c : Conc.Config (Reclaim.Shields.Op (Op Addr Key) (Obj Addr))
      (Heap Addr Key × Reclaim.Shields.State (Obj Addr)) (Walker Addr Key) (Answer Addr Key)}
    {u₀ : Reclaim.Shields.State (Obj Addr)}
    (hc : (traversal C threshold ts).Reach (WalksList head) (x₀, u₀) c) :
    ∃ d, (list C).Reach HelpsListed x₀ d ∧ d.shared = c.shared.1 := by
  refine Shadow.reach (list C) Prod.fst HelpsListed (fun t cl s s' hinv => ?_)
    (fun _ _ _ _ => rfl) hc
  refine ⟨cl.request k₀, fun v => ?_, fun a hi h => accompanied_code k₀ cl a hi h⟩
  simp only [traversal, Reclaim.Shields.system] at hinv
  split at hinv
  · obtain ⟨y, hy, rfl⟩ := Option.map_eq_some_iff.mp hinv
    cases cl with
    | insert n k => exact hy
    | _ => exact hy
  · cases hinv

end Background

/-! ## Runs -/

/-- In every run that meets such a condition, no freed node is dereferenced. -/
theorem safe_of_vouches {C : Config Key} (hC : C.reval = true) {threshold : Nat} {ts : Finset Nat}
    {key : Addr → Key} {head : Addr} {pick : Nat → Finset Addr → Addr} {limit : Nat → Nat}
    (hpick : ∀ n F, pick n F ∉ F)
    {ok : {β : Type} → Nat → Reclaim.Shields.Op (Op Addr Key) (Obj Addr) β →
      Heap Addr Key × Reclaim.Shields.State (Obj Addr) → Prop}
    (hok : Shielding.Vouches ts ok)
    {c : Conc.Config (Reclaim.Shields.Op (Op Addr Key) (Obj Addr))
      (Heap Addr Key × Reclaim.Shields.State (Obj Addr)) (Walker Addr Key) (Answer Addr Key)}
    (hc : (traversal C threshold ts).Reach ok (Heap.new key head pick limit, .init) c) :
    c.shared.2.stale = [] ∧ ∀ t slot p, c.shared.2.trusted t slot = some p →
      c.shared.2.hp t slot = some p ∧ p ∉ c.shared.2.freed := by
  have hinv := Reclaim.Shields.safe (K := Shielding.linking Addr Key)
    (Shielding.Tidy.new key head limit hpick) (fun t ht cl s y hi hy => ?_) hc
  · exact ⟨hinv.stale, fun t slot p hp => (hinv.trusted t slot p hp).2⟩
  · obtain ⟨x, hx, hi', hg, hh⟩ := Shielding.has_brings (t := t) hi hy
    refine ⟨x, hx, hg, ?_⟩
    exact (Shielding.spec_code hC ht hok cl (x, s.2) hi' hh).mono fun _ _ _ _ => trivial

/-- Keys are numbers that hash to themselves. -/
def hashed : Config Nat := ⟨true, BitVec.ofNat 64, fun a b => a = b⟩

/-- The container before the first insertion. -/
def fresh : Heap Nat Nat := .new id 0 nextBlock id

/-- Two threads under the scheme as it is configured. -/
abbrev twoWalkers (C : Config Nat) := @traversal Nat Nat _ C Reclaim.Hazard.RETIRE_THRESHOLD {0, 1}

/-- Nodes 1 and 2 are inserted; thread 0 looks for the key of node 2 and comes to node 1. -/
def atNodeOne : List (Label (Walker Nat Nat)) :=
  whole 1 (.insert 1 0) 19 ++ whole 1 (.insert 2 1) 27 ++ .call 0 (.find 1) ::
    List.replicate 16 (.step 0 false)

/-- Then both nodes are erased and node 2, which nobody publishes, is freed. -/
def freedBehind : List (Label (Walker Nat Nat)) :=
  atNodeOne ++ whole 1 (.erase 0) 25 ++ whole 1 (.erase 1) 25 ++ whole 1 (.find 0) 13 ++
    whole 1 .reclaim 15 ++ List.replicate 6 (.step 0 false)

/-- Node 1 is erased while thread 0 publishes it, and thread 1 scans. -/
def erasedBehind : List (Label (Walker Nat Nat)) :=
  atNodeOne ++ whole 1 (.erase 0) 25 ++ whole 1 (.find 0) 15 ++ whole 1 .reclaim 11

/-- The nodes that at most `n` successors lead to from `a`. -/
def Heap.listed (h : Heap Nat Nat) : Nat → Nat → List Nat
  | 0, a => [a]
  | n + 1, a => a :: (h.succ a).elim [] (h.listed n)

theorem Heap.reaches_of_listed {h : Heap Nat Nat} {n a b : Nat} (hb : b ∈ h.listed n a) :
    h.Reaches a b := by
  induction n generalizing a with
  | zero =>
    cases List.mem_singleton.mp hb
    exact .refl
  | succ n ih =>
    rcases List.mem_cons.mp hb with rfl | hb
    · exact .refl
    · cases hs : h.succ a with
      | none => simp [hs] at hb
      | some c => exact .head hs (ih (by simpa [hs] using hb))

/-- `SourceListed` as a test. -/
def sourceListedTest {β : Type} (t : Nat) (o : Reclaim.Shields.Own (Op Nat Nat) (Obj Nat) β)
    (s : Heap Nat Nat × Reclaim.Shields.State (Obj Nat)) : Bool :=
  match o with
  | .validate _ (some (.node a)) e => [false, true].all fun b =>
      ((access t b e s.1).all fun r => !r.1) || a ∈ s.1.listed 4 0
  | _ => true

/-- `WalksList` as a test. -/
def walksListTest {β : Type} (t : Nat) (o : Reclaim.Shields.Op (Op Nat Nat) (Obj Nat) β)
    (s : Heap Nat Nat × Reclaim.Shields.State (Obj Nat)) : Bool :=
  match o with
  | .access e | .read _ e => helpsListedTest t e s.1
  | .again p e => helpsListedTest t e s.1 && decide (s.2.Holds t p)
  | .own o => sourceListedTest t o s

theorem sourceListedTest_sound {β : Type} (t : Nat)
    (o : Reclaim.Shields.Own (Op Nat Nat) (Obj Nat) β)
    (s : Heap Nat Nat × Reclaim.Shields.State (Obj Nat)) (ho : sourceListedTest t o s = true) :
    SourceListed 0 t o s := by
  cases o with
  | validate slot src e =>
    rintro b r hr htrue a rfl
    simp only [sourceListedTest, List.all_eq_true] at ho
    have hb := ho b (by cases b <;> simp)
    rw [show access t b e s.1 = some r from hr] at hb
    refine Heap.reaches_of_listed (n := 4) ?_
    simpa [htrue] using hb
  | _ => trivial

theorem walksListTest_sound {β : Type} (t : Nat)
    (o : Reclaim.Shields.Op (Op Nat Nat) (Obj Nat) β)
    (s : Heap Nat Nat × Reclaim.Shields.State (Obj Nat)) (ho : walksListTest t o s = true) :
    WalksList 0 t o s := by
  cases o with
  | access e => exact helpsListedTest_sound t e s.1 ho
  | read p e => exact helpsListedTest_sound t e s.1 ho
  | again p e =>
    obtain ⟨he, hheld⟩ := Bool.and_eq_true_iff.mp ho
    exact ⟨helpsListedTest_sound t e s.1 he, .inl (of_decide_eq_true hheld)⟩
  | own o => exact sourceListedTest_sound t o s ho

/-- Keys 2 and 3 have one hash. -/
def paired : Config Nat := ⟨true, fun k => BitVec.ofNat 64 (k / 2), fun a b => a = b⟩

/-- Thread 0 inserts key 3 behind node 1 and scans the run of key 2, whose node it publishes in
`HP_PREV`; then node 1 is erased and freed, and thread 0 takes `n` steps. -/
def givenAway (n : Nat) : List (Label (Walker Nat Nat)) :=
  whole 1 (.insert 1 0) 19 ++ whole 1 (.insert 2 2) 27 ++ .call 0 (.insert 3 3) ::
    List.replicate 35 (.step 0 false) ++ whole 1 (.erase 0) 25 ++ whole 1 (.find 2) 17 ++
    whole 1 .reclaim 11 ++ List.replicate n (.step 0 false)

-- every re-read was in time, and `insert_node` reads the freed node
example :
    ((twoWalkers paired).execIf (Reclaim.Shields.timelyTest access)
      (SharedObject.start (fresh, .init)) (givenAway 3)).map (fun c => c.shared.2.freed) =
        some [.node 1] ∧
    ((twoWalkers paired).exec (SharedObject.start (fresh, .init)) (givenAway 4)).map
      (fun c => c.shared.2.stale) = some [.node 1] := by decide +kernel

end MpmcMap.Unordered
