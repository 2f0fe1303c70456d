import MpmcMap.Conc.Lifetime
import MpmcMap.Maps.Rollback

/-!
# The lives of payloads

A payload lives in the block of its node. `node()` default-constructs it, and an insertion
constructs the element's payload in the same place, so that each element is constructed twice and
destroyed once. The events alternate in a run without elements only: where every insertion throws
before the second construction is over, and somebody destroys what the first one has left.
-/

namespace MpmcMap

open Conc

/-! ## The list -/

namespace Unordered

open Prog (perform iterate)

variable {Addr Key : Type} [DecidableEq Addr]

section Code

/-- One iteration of the loop of `~split_ordered_table`. -/
def destroyStep : Option Addr → Code Addr Key (Option Addr ⊕ Unit)
  | none => return .inr ()
  | some cur => do
    let nx ← perform (.loadNext cur)
    if !nx.marked then
      perform (.freeNode cur)
    return .inl nx.ptr

/-- `~split_ordered_table` up to `drain_all`. -/
def destroyList : Code Addr Key Unit := do
  let t ← perform .loadTable
  let cur ← perform (.loadBucket t 0)
  iterate destroyStep cur

/-- `drain_all` by the only thread: the actions of all retired nodes are run. -/
def World.drained (w : World Addr Key) : World Addr Key :=
  { w with
    heap := { w.heap with
      retired := [], freed := w.heap.freed ++ w.heap.retired
      inUse := w.heap.inUse \ w.heap.retired.toFinset }
    log := w.log ++ w.heap.retired.map .destroy }

/-- `reclaim` runs the action of the retired node `a`. -/
def World.reclaimed (w : World Addr Key) (a : Addr) : World Addr Key :=
  { w with
    heap := { w.heap.release a with retired := w.heap.retired.erase a }
    log := w.log ++ [.destroy a] }

/-- The payloads are constructed and destroyed in turn, also when the container is destroyed now,
and then none is left. -/
def World.Fair (w : World Addr Key) : Prop :=
  Alternate w.log ∧
    Returns (fun fuel => (destroyList.attempt throwing).run (fun o w => o.alone w) fuel w) fun r =>
      Alternate r.2.drained.log ∧ Balanced r.2.drained.log

/-- The job constructs no payload of an element, and leaves no payload that nobody destroys. -/
def Job.Spares (C : Config Key) (w : World Addr Key) : Job Key → Prop
  | .call (.emplace _) => w.choices.head .node = true ∨ w.choices.head .blank = true ∨
      w.choices.head .value = true
  | .call (.subscript k) => (∃ a, w.heap.Finds C k a) ∨
      w.choices.Starved (w.heap.lack (C.mixedHash k) + 1)
  | _ => True

/-- The states of the runs in which every job spares. -/
inductive Spared (C : Config Key) : Loaded Addr Key → Prop where
  | new {key : Addr → Key} {head : Addr} {pick : Nat → Finset Addr → Addr} {choices : Decisions}
      {f : LoadFactor} (hpick : ∀ n U, pick n U ∉ U) : Spared C (.new key head pick choices f)
  | job {s s' : Loaded Addr Key} {j : Job Key} {fuel : Nat} {r : Option (Reply Key)} :
      Spared C s → j.Spares C s.world → j.run C fuel s = some (r, s') → Spared C s'
  | reclaim {s : Loaded Addr Key} {a : Addr} : Spared C s → a ∈ s.world.heap.retired →
      Spared C { s with world := s.world.reclaimed a }

end Code

section List

variable {C : Config Key} {w w' u v : World Addr Key} {B N N' new : List Addr} {n : Addr}
  {k : Key} {m : Nat}

/-! ### Destruction -/

theorem destroyLoop_finishes (hB : Linked w.heap.next B) :
    Finishes (fun x v => x = some () ∧ v.log = w.log ++ B.map .destroy ∧
      v.heap.retired = w.heap.retired) (iterate destroyStep B.head?) w := by
  induction B generalizing w with
  | nil => exact Reads.last (Reads.ret _ w) ⟨rfl, (List.append_nil _).symm, rfl⟩
  | cons c B ih =>
    have hnext : w.heap.next c = .plain B.head? := hB.1
    refine Exits.unroll (Finishes.access rfl rfl ?_)
    show Finishes _ (if (!(w.heap.next c).marked) = true then _ else _) _
    rw [hnext]
    refine Finishes.access (v := w.destroyed c) rfl rfl (Exits.ret ?_)
    refine Exits.mono (ih (w := w.destroyed c) hB.2) ?_
    rintro x v ⟨rfl, hlog, hret⟩
    refine ⟨rfl, ?_, hret⟩
    rw [hlog]
    show (w.log ++ [_]) ++ _ = _
    rw [List.append_assoc]
    rfl

/-- The destructor destroys the payload of every node of the list. -/
theorem destroyList_finishes (hs : Stores C w.heap N) :
    Finishes (fun x v => x = some () ∧ v.log = w.log ++ N.map .destroy ∧
      v.heap.retired = w.heap.retired) destroyList w := by
  obtain ⟨d, hd, hbucket⟩ := hs.head
  refine Finishes.access rfl rfl (Finishes.access rfl (loadBucket_bounded hs.size_pos) ?_)
  rw [hbucket, ← hd]
  exact destroyLoop_finishes hs.linked

theorem destroyed_returns (hs : Stores C w.heap N) (hr : w.heap.retired = []) :
    Returns (fun fuel => (destroyList.attempt throwing).run (fun o w => o.alone w) fuel w) fun r =>
      r.2.drained.log = w.log ++ N.map .destroy := by
  apply Returns.mono (Ends.returns Solo.of_executes (ends_unbounded (destroyList_finishes hs)))
  rintro ⟨x, v⟩ ⟨-, hlog, hret⟩
  show v.log ++ v.heap.retired.map .destroy = _
  rw [hret, hr, hlog]
  exact List.append_nil _

/-! ### Lists without elements -/

/-- The list has no elements, and payloads live in its nodes and nowhere else. -/
structure Vacant (C : Config Key) (w : World Addr Key) (N : List Addr) : Prop
    extends Between C w N where
  regular : w.heap.regular N = []
  retired : w.heap.retired = []
  living : Living w.log N.toFinset

theorem Vacant.fair (h : Vacant C w N) : w.Fair := by
  refine ⟨h.living.alternate, ?_⟩
  apply (destroyed_returns h.stores h.retired).mono
  intro r hr
  have hend := h.living.destroys h.stores.nodup fun a ha => List.mem_toFinset.mpr ha
  rw [hr]
  refine ⟨hend.alternate, hend.balanced.mpr ?_⟩
  exact Finset.sdiff_self _

/-- A payload lives in a block that is not in the list. -/
theorem not_fair_of_lost (hs : Stores C w.heap N) (hr : w.heap.retired = []) (hn : n ∉ N)
    (hl : Living w.log (insert n N.toFinset)) : ¬ w.Fair := by
  rintro ⟨-, hreturns⟩
  obtain ⟨r, hlog, ⟨F, hF⟩, -⟩ := destroyed_returns hs hr
  have hbal := (hreturns.of_eq (hF F le_rfl)).2
  have hend := hl.destroys hs.nodup fun a ha =>
    Finset.mem_insert_of_mem (List.mem_toFinset.mpr ha)
  rw [hlog, hend.balanced] at hbal
  have hmem : n ∈ insert n N.toFinset \ N.toFinset := by simp [hn]
  rw [hbal] at hmem
  cases hmem

/-- The list and the table are the same. -/
theorem Vacant.same (h : Vacant C w N) (hs : Stores C w'.heap N) (hw : SameTable w w')
    (hso : ∀ a ∈ N, w'.heap.soKey a = w.heap.soKey a) (hr : w'.heap.retired = w.heap.retired)
    (hl : Living w'.log N.toFinset) : Vacant C w' N where
  toBetween := h.toBetween.sameTable hs hw (Heap.keepsOrigin_eq hso)
  regular := by
    rw [← h.regular]
    apply List.filter_congr
    intro a ha
    rw [hso a ha]
  retired := hr.trans h.retired
  living := hl

theorem Vacant.lookup (h : Vacant C w N) (k : Key) : w.heap.lookup C N k = none := by
  rw [Heap.lookup, h.regular]
  rfl

theorem Vacant.grows (h : Vacant C w N) (hg : Grows C w w' N N' new) : Vacant C w' N' where
  toBetween := h.toBetween.grows hg
  regular := (hg.regular h.stores).trans h.regular
  retired := hg.agrees.retired.trans h.retired
  living := by
    have hn := (hg.perm.nodup_iff.mp hg.stores.nodup)
    have hlive := h.living.constructs (List.nodup_append.mp hn).1 (by
      intro a ha hmem
      exact hg.fresh a ha (h.stores.alive a (List.mem_toFinset.mp hmem)))
    rw [hg.log, List.toFinset_eq_of_perm _ _ hg.perm, List.toFinset_append]
    exact hlive

theorem Vacant.exhausts (h : Vacant C w N) (he : Exhausts w w') : Vacant C w' N := by
  cases he with
  | node _ => exact h.same h.stores ⟨rfl, rfl, rfl, rfl, rfl, rfl⟩ (fun _ _ => rfl) rfl h.living
  | blank _ _ =>
    have hs : Stores C w.heap.acquire.2 N :=
      h.stores.congr (fun _ _ => rfl) (fun _ _ => rfl) (fun _ _ _ => rfl)
        (fun a ha => Finset.mem_insert_of_mem (h.stores.alive a ha)) ⟨rfl, rfl, rfl, rfl, rfl⟩
    exact h.same hs ⟨rfl, rfl, rfl, rfl, rfl, rfl⟩ (fun _ _ => rfl) rfl h.living

theorem Vacant.starves (h : Vacant C w N) (hst : Starves C w w' N m) : ∃ N', Vacant C w' N' := by
  obtain ⟨u, N', new, hg, -, he⟩ := hst.grown
  exact ⟨N', (h.grows hg).exhausts he⟩

theorem Vacant.resizes {force : Bool} (h : Vacant C w N) (hr : Resizes w w' force)
    (hs : Stores C w'.heap N) : Vacant C w' N where
  toBetween := h.toBetween.resizes hr hs
  regular := by
    unfold Heap.regular
    rw [hr.soKey]
    exact h.regular
  retired := hr.retired.trans h.retired
  living := by
    rw [hr.log]
    exact h.living

theorem Vacant.clears (h : Vacant C w N) (hc : Clears C w w' N) : Vacant C w' N := by
  have hd : w.heap.dummies N = N := by
    apply List.filter_eq_self.mpr
    intro a ha
    have hno := List.filter_eq_nil_iff.mp h.regular a ha
    simpa using hno
  have hs := hc.stores
  rw [hd] at hs
  have hsame : SameTable w w' := by
    constructor
    all_goals
      rw [hc.heap]
  refine h.same hs hsame (fun a _ => ?_) ?_ ?_
  · rw [hc.heap]
  · rw [hc.heap]
  · rw [hc.log, h.regular]
    simpa using h.living

/-! ### Insertions -/

/-- The payload of a new node is default-constructed. -/
theorem Vacant.blanked (h : Vacant C w N) : w.heap.acquire.1 ∉ N ∧
    Living (w.log ++ [.construct w.heap.acquire.1]) (insert w.heap.acquire.1 N.toFinset) := by
  have hn := h.toBetween.blanked.1
  exact ⟨hn, h.living.construct fun hmem => hn (List.mem_toFinset.mp hmem)⟩

/-- The handler of `emplace` destroys what `node()` has constructed. -/
theorem Vacant.destroyed (h : Vacant C w N) :
    Vacant C ({ w.blanked with choices := w.blanked.choices.next .value }.destroyed
      w.heap.acquire.1) N := by
  obtain ⟨hn, hs⟩ := h.toBetween.blanked
  have hs' := Stores.destroyed (w := { w.blanked with
    choices := w.blanked.choices.next .value }) hs hn
  refine h.same hs' ⟨rfl, rfl, rfl, rfl, rfl, rfl⟩ (fun a ha => ?_) rfl ?_
  · exact Function.update_of_ne (ne_of_mem_of_not_mem ha hn) _ _
  · have hend := h.blanked.2.destroy (Finset.mem_insert_self _ _)
    rw [Finset.erase_insert fun hmem => hn (List.mem_toFinset.mp hmem)] at hend
    exact hend

/-- The linking of a node only adds to the log. -/
theorem Linkage.log {x : Option Bool} (hl : Linkage C w N n k x w') : ∃ l, w'.log = w.log ++ l := by
  cases hl with
  | starved hst =>
    obtain ⟨u, N', new, hg, -, he⟩ := hst.grown
    refine ⟨new.map .construct, ?_⟩
    cases he with
    | node _ => exact hg.log
    | blank _ _ => exact hg.log
  | @duplicate u N' new hp _ =>
    refine ⟨new.map .construct ++ [.destroy n], ?_⟩
    show u.log ++ _ = _
    rw [hp.log, ← List.append_assoc]
    rfl
  | @inserted x u v w' A B N' new p hp _ hi _ ha =>
    refine ⟨new.map .construct, ?_⟩
    obtain ⟨y, hl, rfl⟩ := hi.links
    rw [ha.log]
    exact hl.log.trans hp.log

/-- Both payloads of an element are constructed. -/
theorem Linkage.not_fair {x : Option Bool} (hl : Linkage C (w.created k) N n k x w') :
    ¬ w'.Fair := by
  obtain ⟨l, hlog⟩ := hl.log
  rintro ⟨halt, -⟩
  rw [hlog] at halt
  exact not_alternate_twice _ _ _ halt

/-- A job either spares and leaves a list without elements, or does neither. -/
def Job.Decides (C : Config Key) (j : Job Key) (w w' : World Addr Key) : Prop :=
  (∃ N, Vacant C w' N) ∧ j.Spares C w ∨ ¬ w'.Fair ∧ ¬ j.Spares C w

theorem Vacant.emplaces {x : Option Bool} (h : Vacant C w N) (he : Emplaces C w N k x w') :
    (Job.call (.emplace k)).Decides C w w' := by
  cases he with
  | exhausted he =>
    refine .inl ⟨⟨N, h.exhausts he⟩, ?_⟩
    cases he with
    | node hnode => exact .inl hnode
    | blank _ hblank => exact .inr (.inl hblank)
  | value _ _ hvalue => exact .inl ⟨⟨N, h.destroyed⟩, .inr (.inr hvalue)⟩
  | linkage hnode hblank hvalue hl =>
    refine .inr ⟨hl.not_fair, ?_⟩
    simp [Job.Spares, hnode, hblank, hvalue]

theorem Vacant.absent (hC : C.Lawful) (h : Vacant C w N) (k : Key) : ¬ ∃ a, w.heap.Finds C k a :=
  (h.stores.absent_iff hC h.allocates).mpr (h.lookup k)

theorem Vacant.subscripts {x : Option (Option Key)} (hC : C.Lawful) (h : Vacant C w N)
    (hs : Subscripts C w N k x w') :
    (Job.call (.subscript k)).Decides C w w' := by
  have habsent := h.absent hC k
  cases hs with
  | starved hst => exact .inl ⟨h.starves hst, .inr (hst.starved.mono (by omega))⟩
  | found hp hl =>
    rw [h.lookup] at hl
    cases hl
  | exhausted hp _ he =>
    exact .inl ⟨⟨_, (h.grows hp.toGrows).exhausts he⟩, .inr (hp.spent.2.mpr he.starved)⟩
  | @value u N' new hp _ hnode hblank _ =>
    have hu := h.grows hp.toGrows
    obtain ⟨hn, hs⟩ := hu.toBetween.blanked
    refine .inr ⟨not_fair_of_lost hs hu.retired hn hu.blanked.2, ?_⟩
    simp [Job.Spares, habsent, (hp.spent_node hnode hblank).1]
  | linkage hp _ hnode hblank _ _ hlink =>
    refine .inr ⟨hlink.not_fair, ?_⟩
    simp [Job.Spares, habsent, (hp.spent_node hnode hblank).1]

/-! ### Jobs -/

theorem Vacant.erases {x : Option Bool} (h : Vacant C w N) (he : Erases C w N k x w') :
    ∃ N', Vacant C w' N' := by
  cases he with
  | starved hst => exact h.starves hst
  | absent hp _ => exact ⟨_, h.grows hp.toGrows⟩
  | present _ hl _ _ =>
    rw [h.lookup] at hl
    cases hl

theorem call_decides (hC : C.Lawful) (h : Vacant C w N) (q : Call Key) :
    Ends (Solo.of Act.bounded) (fun _ w' => (Job.call q).Decides C w w') (q.code C) w := by
  cases q with
  | emplace k =>
    refine Ends.andThen (emplace_ends hC h.allocates h.stores k) ?_ (fun _ he => h.emplaces he)
    intro b w' he
    exact Ends.ret (h.emplaces he)
  | subscript k =>
    refine Ends.andThen (subscript_ends hC h.allocates h.stores k) ?_
      (fun _ hs => h.subscripts hC hs)
    intro v w' hs
    exact Ends.ret (h.subscripts hC hs)
  | erase k =>
    refine Ends.andThen (eraseNode_finishes hC h.allocates h.stores k) ?_
      (fun _ he => .inl ⟨h.erases he, trivial⟩)
    intro b w' he
    exact Ends.ret (.inl ⟨h.erases he, trivial⟩)
  | find k =>
    refine Ends.andThen (findValuePtr_ends hC h.allocates h.stores k) ?_
      (fun _ hst => .inl ⟨h.starves hst, trivial⟩)
    rintro v w' ⟨N', new, hp, -⟩
    exact Ends.ret (.inl ⟨⟨N', h.grows hp.toGrows⟩, trivial⟩)
  | size => exact Until.perform rfl (Ends.ret (.inl ⟨⟨N, h⟩, trivial⟩))
  | clear =>
    refine Ends.andThen (clearImpl_finishes h.stores) ?_ (fun _ hx => by cases hx.1)
    rintro _ w' ⟨-, hc⟩
    exact Ends.ret (.inl ⟨⟨N, h.clears hc⟩, trivial⟩)
  | grow force =>
    refine Ends.andThen (growOnce_ends force h.stores) ?_
      (fun _ hr => .inl ⟨⟨N, h.resizes hr.toResizes hr.stores⟩, trivial⟩)
    intro _ w' hr
    exact Ends.ret (.inl ⟨⟨N, h.resizes hr.toResizes hr.stores⟩, trivial⟩)

theorem code_decides (hC : C.Lawful) {f : LoadFactor} {j : Job Key} {fuel : Nat}
    {r : Option (Reply Key)} (h : Vacant C w N)
    (hrun : (j.code C f).run (fun o w => o.alone w) fuel w = some (r, w')) :
    j.Decides C w w' := by
  cases j with
  | call q =>
    exact Ends.of_run (Q := fun _ w' => (Job.call q).Decides C w w') Solo.of_executes
      (ends_unbounded (call_decides hC h q)) hrun
  | bucket mixed =>
    refine .inl ⟨?_, trivial⟩
    refine Ends.of_run (Q := fun _ w' => ∃ N, Vacant C w' N) Solo.of_executes (ends_unbounded
      (Ends.andThen (createBucket_finishes hC h.toBetween mixed) ?_
        fun v hst => h.starves hst)) hrun
    rintro _ v ⟨N', new, hg, -⟩
    exact Ends.ret ⟨N', h.grows hg⟩
  | reserve n =>
    obtain ⟨m, x, v, k, hres, -, hrest⟩ := Prog.run_bind hrun
    have hend := reserve_run (I := fun v => Vacant C v N)
      (fun v v' r hv _ hr => hv.resizes hr.toResizes hr.stores) h h.stores hres
    have hw : w' = v := by
      cases x with
      | none => exact (Prod.mk.inj (Prog.run_ret hrest)).2
      | some x => exact (Prod.mk.inj (Prog.run_ret hrest)).2
    rw [hw]
    exact .inl ⟨⟨N, hend.1⟩, trivial⟩
  | setMaxLoadFactor f =>
    obtain ⟨-, rfl⟩ := Prod.mk.inj (Prog.run_ret hrun)
    exact .inl ⟨⟨N, h⟩, trivial⟩

/-- Another load factor. -/
theorem Vacant.withThreshold (h : Vacant C w N) (threshold : Nat → Nat) :
    Vacant C { w with heap := { w.heap with threshold := threshold } } N where
  stores := h.stores.congr (fun _ _ => rfl) (fun _ _ => rfl) (fun _ _ _ => rfl) h.stores.alive
    ⟨rfl, rfl, rfl, rfl, rfl⟩
  rooted := h.rooted
  origin := h.origin
  allocates := h.allocates
  regular := h.regular
  retired := h.retired
  living := h.living

theorem Vacant.run (hC : C.Lawful) {s s' : Loaded Addr Key} {j : Job Key} {fuel : Nat}
    {r : Option (Reply Key)} (h : Vacant C s.world N) (hrun : j.run C fuel s = some (r, s')) :
    j.Decides C s.world s'.world := by
  obtain ⟨⟨r', w⟩, hcode, heq⟩ := Option.map_eq_some_iff.mp hrun
  obtain ⟨rfl, rfl⟩ := Prod.mk.inj heq
  have hd := code_decides hC h hcode
  cases j with
  | setMaxLoadFactor f =>
    rcases hd with ⟨⟨N', hN'⟩, -⟩ | ⟨-, hno⟩
    · exact .inl ⟨⟨N', hN'.withThreshold _⟩, trivial⟩
    · exact absurd trivial hno
  | call q => exact hd
  | bucket mixed => exact hd
  | reserve n => exact hd

theorem vacant_new (C : Config Key) (key : Addr → Key) (head : Addr)
    {pick : Nat → Finset Addr → Addr} (hpick : ∀ n U, pick n U ∉ U) (choices : Decisions) (f : LoadFactor) :
    ∃ N, Vacant C (Loaded.new key head pick choices f).world N := by
  obtain ⟨N, hb⟩ := (stored_new C key head hpick choices f).between
  obtain ⟨d, hd, hd'⟩ := hb.stores.head
  obtain rfl : N = [head] := by
    apply hb.stores.linked.unique (stores_new C key head pick _).linked
    rw [hd, ← hd']
    rfl
  have hl := living_nil.construct (Finset.notMem_empty head)
  exact ⟨[head], hb, regular_new key head pick _, rfl, hl⟩

theorem Spared.vacant (hC : C.Lawful) {s : Loaded Addr Key} (h : Spared C s) :
    ∃ N, Vacant C s.world N := by
  induction h with
  | new hpick => exact vacant_new C _ _ hpick _ _
  | @job s s' j _ _ _ hspares hrun ih =>
    obtain ⟨N, hN⟩ := ih
    rcases hN.run hC hrun with ⟨hend, -⟩ | ⟨-, hno⟩
    · exact hend
    · exact absurd hspares hno
  | reclaim _ ha ih =>
    obtain ⟨N, hN⟩ := ih
    rw [hN.retired] at ha
    cases ha

end List

end Unordered

/-! ## The tree -/

namespace Ordered

open RedBlack Maps
open Prog (perform)

variable {Key α : Type}

/-- The tree, the blocks in use and the events of the payloads. -/
structure Logged (Key : Type) where
  heap : Heap Ptr Key
  inUse : Finset Ptr
  log : List (Event Ptr)

/-- A call of a container. An insertion comes with the block that the pool would give it, and with
what goes wrong. -/
inductive Job (Key : Type) where
  | emplace (n : Ptr) (d : Decisions) (blank k : Key)
  | subscript (n : Ptr) (d : Decisions) (blank k : Key)
  | call (q : Request Ptr Key)

/-- What is constructed in the block `n`: by `node()`, and by the placement new of an insertion. -/
def built (d : Decisions) (n : Ptr) : List (Event Ptr) :=
  if d.head .blank then []
  else if d.head .value then [.construct n]
  else [.construct n, .construct n]

namespace Logged

variable (s : Logged Key)

/-- After a call that leaves the heap `h`: `free_node` destroys a payload. -/
def called (h : Heap Ptr Key) : Logged Key where
  heap := h
  inUse := s.inUse \ (h.freed.drop s.heap.freed.length).toFinset
  log := s.log ++ (h.freed.drop s.heap.freed.length).map .destroy

/-- After an insertion. -/
def inserted (d : Decisions) (o : Outcome Key α) : Logged Key :=
  called { s with
    inUse := s.inUse ∪ o.acquired.toFinset
    log := s.log ++ o.acquired.flatMap (built d) } o.heap

/-- `drain_all` by the only thread. -/
def drained : Logged Key where
  heap := { s.heap with retired := [], freed := s.heap.freed ++ s.heap.retired }
  inUse := s.inUse \ s.heap.retired.toFinset
  log := s.log ++ s.heap.retired.map .destroy

/-- `reclaim` runs the action of the retired node `a`. -/
def reclaimed (a : Ptr) : Logged Key where
  heap := { s.heap with retired := s.heap.retired.erase a, freed := s.heap.freed ++ [a] }
  inUse := s.inUse.erase a
  log := s.log ++ [.destroy a]

end Logged

/-- `~rb_tree` up to `drain_all`. -/
def destroyTree : Code Ptr Key Unit := do
  let cur ← perform .loadRoot
  freeSubtree cur

/-- The payloads are constructed and destroyed in turn, also when the container is destroyed now,
and then none is left. -/
def Logged.Fair (s : Logged Key) : Prop :=
  Alternate s.log ∧
    Returns (fun fuel => destroyTree.run (fun o h => o.perform h) fuel s.heap) fun r =>
      Alternate (s.called r.2).drained.log ∧ Balanced (s.called r.2).drained.log

namespace Job

variable (cmp : Key → Key → Bool)

/-- Run a call for at most `fuel` steps. -/
def run (fuel : Nat) (s : Logged Key) : Job Key → Option (Logged Key)
  | .emplace n d blank k => (emplaceThrowing cmp d n blank k s.heap fuel).map (s.inserted d)
  | .subscript n d blank k => (subscriptThrowing cmp d n blank k s.heap fuel).map (s.inserted d)
  | .call q => ((q.code cmp).run (fun o h => o.perform h) fuel (q.prepare s.heap)).map fun r =>
      s.called r.2

/-- The pool gives out no block that is in use, and insertions are made by `emplace` and
`operator[]`. -/
def Enabled (s : Logged Key) : Job Key → Prop
  | .emplace n _ _ _ | .subscript n _ _ _ => n ∉ s.inUse
  | .call q => ∀ n k, q ≠ .insert n k

/-- The call constructs no payload of an element, and leaves no payload that nobody destroys. -/
def Spares (s : Logged Key) : Job Key → Prop
  | .emplace _ d _ _ => d.head .node = true ∨ d.head .blank = true ∨ d.head .value = true
  | .subscript _ d _ k => (∃ a, s.heap.Finds cmp k a) ∨ d.head .node = true ∨ d.head .blank = true
  | .call _ => True

end Job

/-- The states of the runs in which every call spares. -/
inductive Spared (cmp : Key → Key → Bool) : Logged Key → Prop where
  | new (key : Ptr → Key) : Spared cmp ⟨.new key, ∅, []⟩
  | job {s s' : Logged Key} {j : Job Key} {fuel : Nat} : Spared cmp s → j.Enabled s →
      j.Spares cmp s → j.run cmp fuel s = some s' → Spared cmp s'
  | reclaim {s : Logged Key} {a : Ptr} : Spared cmp s → a ∈ s.heap.retired →
      Spared cmp (s.reclaimed a)

section Tree

variable {cmp : Key → Key → Bool} {s s' : Logged Key} {h h' : Heap Ptr Key} {n : Ptr} {k : Key}

/-- The heap of a tree without nodes. -/
structure Heap.Bare (cmp : Key → Key → Bool) (h : Heap Ptr Key) : Prop where
  quiet : Quiet (SortedMap.empty : SortedMap cmp Ptr) h .nil
  retired : h.retired = []

/-- The tree has no nodes, and no payload lives. -/
structure Vacant (cmp : Key → Key → Bool) (s : Logged Key) : Prop where
  bare : s.heap.Bare cmp
  living : Living s.log ∅

/-- The destructor of a tree without nodes destroys nothing. -/
theorem Heap.Bare.destroys (hb : h.Bare cmp) :
    Ends sequential (fun (_ : Unit) h' => h' = h) destroyTree h := by
  refine steady_sequential (seq_act rfl ?_)
  rw [hb.quiet.rest.root]
  exact .loop (Ends.ret rfl)

theorem Heap.Bare.returns (hb : s.heap.Bare cmp) :
    Returns (fun fuel => destroyTree.run (fun o h => o.perform h) fuel s.heap) fun r =>
      (s.called r.2).drained.log = s.log := by
  apply Returns.mono (Ends.returns sequential_executes hb.destroys)
  rintro ⟨⟨⟩, h'⟩ rfl
  show (s.log ++ (s.heap.freed.drop s.heap.freed.length).map .destroy) ++
    s.heap.retired.map .destroy = s.log
  rw [List.drop_length, hb.retired]
  simp

theorem Vacant.fair (hv : Vacant cmp s) : s.Fair := by
  refine ⟨hv.living.alternate, ?_⟩
  apply hv.bare.returns.mono
  intro r hr
  rw [hr]
  exact ⟨hv.living.alternate, hv.living.balanced.mpr rfl⟩

/-- A payload is left that nobody destroys. -/
theorem not_fair_of_lost (hb : s.heap.Bare cmp) (hl : Living s.log {n}) : ¬ s.Fair := by
  rintro ⟨-, hreturns⟩
  obtain ⟨r, hlog, ⟨F, hF⟩, -⟩ := hb.returns
  have hbal := (hreturns.of_eq (hF F le_rfl)).2
  rw [hlog, hl.balanced] at hbal
  exact Finset.singleton_ne_empty n hbal

/-- The log of an insertion. -/
theorem Logged.inserted_log (s : Logged Key) (d : Decisions) (o : Outcome Key α) :
    (s.inserted d o).log = s.log ++ o.acquired.flatMap (built d) ++
      (o.heap.freed.drop s.heap.freed.length).map .destroy := rfl

/-- Both payloads of an element are constructed. -/
theorem not_fair_of_built {d : Decisions} {o : Outcome Key α} (ho : o.acquired = [n])
    (hblank : d.head .blank = false) (hvalue : d.head .value = false) :
    ¬ (s.inserted d o).Fair := by
  rintro ⟨halt, -⟩
  rw [s.inserted_log, ho] at halt
  have hbuilt : [n].flatMap (built d) = [Event.construct n] ++ [Event.construct n] := by
    simp [built, hblank, hvalue]
  rw [hbuilt, ← List.append_assoc] at halt
  exact not_alternate_twice _ _ _ halt

/-- A new block outside of the tree. -/
theorem Heap.Bare.create (hb : h.Bare cmp) (n : Ptr) (p : Key) : (h.create n p).Bare cmp :=
  ⟨hb.quiet.create (by simp [PtrTree.addrs]), hb.retired⟩

/-- A call either spares and leaves a tree without nodes, or does neither. -/
def Job.Decides (cmp : Key → Key → Bool) (j : Job Key) (s s' : Logged Key) : Prop :=
  Vacant cmp s' ∧ j.Spares cmp s ∨ ¬ s'.Fair ∧ ¬ j.Spares cmp s

/-- An insertion that constructs nothing. -/
theorem Vacant.inserted (hv : Vacant cmp s) {d : Decisions} {o : Outcome Key α}
    (hb : o.heap.Bare cmp) (hf : o.heap.freed = s.heap.freed)
    (hbuilt : o.acquired.flatMap (built d) = []) : Vacant cmp (s.inserted d o) where
  bare := hb
  living := by
    rw [s.inserted_log, hbuilt, hf, List.drop_length]
    simpa using hv.living

theorem Vacant.emplaces (hv : Vacant cmp s) {d : Decisions} {blank : Key} {fuel : Nat}
    (hrun : (Job.emplace n d blank k).run cmp fuel s = some s') :
    (Job.emplace n d blank k).Decides cmp s s' := by
  obtain ⟨o, ho, rfl⟩ := Option.map_eq_some_iff.mp hrun
  unfold emplaceThrowing allocNode at ho
  cases hnode : d.head .node with
  | true =>
    rw [if_pos hnode] at ho
    obtain rfl := Option.some.inj ho
    exact .inl ⟨hv.inserted hv.bare rfl rfl, .inl hnode⟩
  | false =>
    rw [if_neg (by simp [hnode])] at ho
    cases hblank : d.head .blank with
    | true =>
      rw [if_pos hblank] at ho
      obtain rfl := Option.some.inj ho
      refine .inl ⟨hv.inserted (hv.bare.create n _) rfl ?_, .inr (.inl hblank)⟩
      simp [built, hblank]
    | false =>
      rw [if_neg (by simp [hblank])] at ho
      cases hvalue : d.head .value with
      | true =>
        replace ho := (if_pos hvalue).symm.trans ho
        obtain rfl := Option.some.inj ho
        refine .inl ⟨⟨?_, ?_⟩, .inr (.inr hvalue)⟩
        · have hc := (hv.bare.create n blank).quiet
          have hR := hc.rest
          exact ⟨⟨⟨hR.root, hR.fits, hR.nodup, hR.unlocked, hR.sound⟩, hc.dark, hc.entries,
            hc.count⟩, hv.bare.retired⟩
        -- the payload throws after `node()` has constructed it: the handler destroys the node
        · have hend := (hv.living.construct (Finset.notMem_empty n)).destroy
            (Finset.mem_insert_self n ∅)
          rw [Finset.erase_insert (Finset.notMem_empty n)] at hend
          rw [s.inserted_log]
          have hbuilt : [n].flatMap (built d) = [Event.construct n] := by
            simp [built, hblank, hvalue]
          show Living (s.log ++ [n].flatMap (built d) ++
            ((s.heap.freed ++ [n]).drop s.heap.freed.length).map .destroy) ∅
          rw [hbuilt, List.drop_left]
          exact hend
      | false =>
        replace ho := (if_neg (by simp [hvalue])).symm.trans ho
        obtain ⟨r, -, rfl⟩ := Option.map_eq_some_iff.mp ho
        -- nothing throws, and the payload is constructed twice
        refine .inr ⟨not_fair_of_built rfl hblank hvalue, ?_⟩
        simp [Job.Spares, hnode, hblank, hvalue]

variable [StrictWeakOrder cmp]

omit [StrictWeakOrder cmp] in
theorem Heap.Bare.sorted (hb : h.Bare cmp) : Sorted cmp (entriesOf h.key .nil) :=
  hb.quiet.entries ▸ SortedMap.empty.sorted

/-- A search in a tree without nodes. -/
theorem Heap.Bare.finds (hb : h.Bare cmp) (k : Key) :
    Ends sequential (fun r h' => r = none ∧ h' = h) (findNode cmp k) h :=
  steady_sequential (findNode_spec hb.quiet.rest.unlocked hb.quiet.rest.root hb.quiet.rest.fits
    hb.sorted)

theorem Heap.Bare.absent (hb : h.Bare cmp) (k : Key) : ¬ ∃ a, h.Finds cmp k a := by
  rintro ⟨a, ha⟩
  rw [hb.quiet.rest.finds_iff hb.sorted] at ha
  cases ha

theorem Vacant.subscripts (hv : Vacant cmp s) {d : Decisions} {blank : Key} {fuel : Nat}
    (hrun : (Job.subscript n d blank k).run cmp fuel s = some s') :
    (Job.subscript n d blank k).Decides cmp s s' := by
  have habsent := hv.bare.absent k
  obtain ⟨o, ho, rfl⟩ := Option.map_eq_some_iff.mp hrun
  obtain ⟨⟨p, h₁⟩, hfind, ho⟩ := Option.bind_eq_some_iff.mp ho
  obtain ⟨rfl, rfl⟩ := Ends.of_run sequential_executes (hv.bare.finds k) hfind
  unfold allocNode at ho
  cases hnode : d.head .node with
  | true =>
    simp only [hnode, if_true] at ho
    obtain rfl := Option.some.inj ho
    exact .inl ⟨hv.inserted hv.bare rfl rfl, .inr (.inl hnode)⟩
  | false =>
    cases hblank : d.head .blank with
    | true =>
      simp only [hnode, hblank, if_true, Bool.false_eq_true, if_false] at ho
      obtain rfl := Option.some.inj ho
      refine .inl ⟨hv.inserted (hv.bare.create n _) rfl ?_, .inr (.inr hblank)⟩
      simp [built, hblank]
    | false =>
      have hno : ¬ (Job.subscript n d blank k).Spares cmp s := by
        simp [Job.Spares, habsent, hnode, hblank]
      cases hvalue : d.head .value with
      | true =>
        simp only [hnode, hblank, hvalue, if_true, Bool.false_eq_true, if_false] at ho
        obtain rfl := Option.some.inj ho
        -- the payload throws, and no handler destroys what `node()` has constructed
        refine .inr ⟨not_fair_of_lost (n := n) (hv.bare.create n blank) ?_, hno⟩
        rw [s.inserted_log]
        have hbuilt : [n].flatMap (built d) = [Event.construct n] := by
          simp [built, hblank, hvalue]
        show Living (s.log ++ [n].flatMap (built d) ++
          (s.heap.freed.drop s.heap.freed.length).map .destroy) {n}
        rw [hbuilt, List.drop_length, List.map_nil, List.append_nil]
        exact hv.living.construct (Finset.notMem_empty n)
      | false =>
        simp only [hnode, hblank, hvalue, Bool.false_eq_true, if_false] at ho
        refine .inr ⟨not_fair_of_built (n := n) ?_ hblank hvalue, hno⟩
        obtain ⟨⟨b, h₂⟩, -, ho⟩ := Option.bind_eq_some_iff.mp ho
        cases b with
        | true =>
          obtain rfl := Option.some.inj ho
          rfl
        | false =>
          obtain ⟨⟨p, h₃⟩, -, ho⟩ := Option.bind_eq_some_iff.mp ho
          obtain rfl := Option.some.inj ho
          rfl

/-- The calls on a tree without nodes give no node back. -/
theorem Heap.Bare.calls (hb : h.Bare cmp) {q : Request Ptr Key} (hq : ∀ n k, q ≠ .insert n k) :
    Ends sequential (fun _ h' => h'.Bare cmp ∧ h'.freed = h.freed) (q.code cmp) (q.prepare h) := by
  have hR := hb.quiet.rest
  cases q with
  | insert n k => exact absurd rfl (hq n k)
  | erase k =>
    refine Ends.bind (Q := fun _ h' => h'.Bare cmp ∧ h'.freed = h.freed) ?_ fun _ _ h => Ends.ret h
    refine (steady_sequential (eraseNode_until small_ptr hb.quiet)).trans ?_
    intro p h' hexit
    cases hexit with
    | absent _ hkeep hq' => exact Ends.ret ⟨⟨hq', hkeep.retired.trans hb.retired⟩, hkeep.freed⟩
    | present _ _ _ ht _ _ => simp [PtrTree.addrs] at ht
  | find k =>
    refine Ends.bind (hb.finds k) ?_
    rintro r h' ⟨-, rfl⟩
    exact Ends.ret ⟨hb, rfl⟩
  | bound k strict =>
    refine Ends.bind (steady_sequential (boundNode_spec hR.unlocked hR.root hR.fits hb.sorted)) ?_
    rintro r h' ⟨-, rfl⟩
    exact Ends.ret ⟨hb, rfl⟩
  | first =>
    refine Ends.bind (steady_sequential (firstNode_spec hR.unlocked hR.root hR.fits)) ?_
    rintro r h' ⟨-, rfl⟩
    exact Ends.ret ⟨hb, rfl⟩
  | next k =>
    refine Ends.bind (steady_sequential (boundNode_spec hR.unlocked hR.root hR.fits hb.sorted)) ?_
    rintro r h' ⟨-, rfl⟩
    exact Ends.ret ⟨hb, rfl⟩
  | size =>
    refine Ends.bind (steady_sequential (size_seq small_ptr hb.quiet)) ?_
    rintro r h' ⟨-, rfl⟩
    exact Ends.ret ⟨hb, rfl⟩
  | clear =>
    refine Ends.bind (steady_sequential (clearImpl_spec hR.root hR.fits)) ?_
    rintro r h' rfl
    refine Ends.ret ⟨⟨⟨⟨rfl, trivial, List.nodup_nil, hR.unlocked, trivial⟩, dark_nil, rfl, rfl⟩,
      hb.retired⟩, List.append_nil _⟩

theorem Vacant.run (hv : Vacant cmp s) {j : Job Key} {fuel : Nat} (hj : j.Enabled s)
    (hrun : j.run cmp fuel s = some s') : j.Decides cmp s s' := by
  cases j with
  | emplace n d blank k => exact hv.emplaces hrun
  | subscript n d blank k => exact hv.subscripts hrun
  | call q =>
    obtain ⟨⟨r, h'⟩, hcall, rfl⟩ := Option.map_eq_some_iff.mp hrun
    obtain ⟨hb, hf⟩ := Ends.of_run (Q := fun _ h' => h'.Bare cmp ∧ h'.freed = s.heap.freed)
      sequential_executes (hv.bare.calls hj) hcall
    refine .inl ⟨⟨hb, ?_⟩, trivial⟩
    show Living (s.log ++ (h'.freed.drop s.heap.freed.length).map .destroy) ∅
    rw [hf, List.drop_length]
    simpa using hv.living

theorem Spared.vacant (hs : Spared cmp s) : Vacant cmp s := by
  induction hs with
  | new key => exact ⟨⟨quiet_new cmp key, rfl⟩, living_nil⟩
  | job _ hj hspares hrun ih =>
    rcases ih.run hj hrun with ⟨hend, -⟩ | ⟨-, hno⟩
    · exact hend
    · exact absurd hspares hno
  | reclaim _ ha ih =>
    rw [ih.bare.retired] at ha
    cases ha

end Tree

end Ordered

/-! ## The containers -/

/-- In a run in which every call spares, payloads are constructed and destroyed in turn and none is
left at the end; after any other call that is no longer so. -/
theorem payloads_alternate {Addr Key : Type} [DecidableEq Addr] {C : Unordered.Config Key}
    (hC : C.Lawful) (cmp : Key → Key → Bool) [Maps.StrictWeakOrder cmp] :
    (∀ s : Unordered.Loaded Addr Key, Unordered.Spared C s → s.world.Fair ∧
      ∀ (j : Unordered.Job Key) (fuel : Nat) (r : Option (Unordered.Reply Key))
        (s' : Unordered.Loaded Addr Key), j.run C fuel s = some (r, s') →
        (s'.world.Fair ↔ j.Spares C s.world)) ∧
    ∀ s : Ordered.Logged Key, Ordered.Spared cmp s → s.Fair ∧
      ∀ (j : Ordered.Job Key) (fuel : Nat) (s' : Ordered.Logged Key), j.Enabled s →
        j.run cmp fuel s = some s' → (s'.Fair ↔ j.Spares cmp s) := by
  constructor
  · intro s hs
    obtain ⟨N, hN⟩ := hs.vacant hC
    refine ⟨hN.fair, fun j fuel r s' hrun => ?_⟩
    rcases hN.run hC hrun with ⟨⟨N', hN'⟩, hspares⟩ | ⟨hunfair, hno⟩
    · exact iff_of_true hN'.fair hspares
    · exact iff_of_false hunfair hno
  · intro s hs
    refine ⟨hs.vacant.fair, fun j fuel s' hj hrun => ?_⟩
    rcases hs.vacant.run hj hrun with ⟨hv, hspares⟩ | ⟨hunfair, hno⟩
    · exact iff_of_true hv.fair hspares
    · exact iff_of_false hunfair hno

section Elements

open Unordered Ordered

/-- An element whose payload throws: what `node()` has constructed is destroyed. -/
theorem payloads_alternate_thrown :
    (∃ s : Loaded Nat Nat, s.world.log = [.construct 0, .construct 1, .destroy 1] ∧
      s.world.Fair) ∧
    ∃ s : Logged Nat, s.log = [.construct (ptr 1), .destroy (ptr 1)] ∧ s.Fair := by
  have hlaw := @payloads_alternate Nat Nat _ colliding colliding_lawful natLess _
  constructor
  · let s₀ : Loaded Nat Nat :=
      .new (fun _ => 0) 0 pickAbove (fun c => if c = .value then [true] else []) (floatFactor 1)
    obtain ⟨⟨r, s⟩, hrun, hlog⟩ : ∃ x ∈ (Unordered.Job.call (.emplace 1)).run colliding 80 s₀,
        x.2.world.log = [.construct 0, .construct 1, .destroy 1] := by decide +kernel
    have hs₀ : Unordered.Spared colliding s₀ := .new pickAbove_fresh
    exact ⟨s, hlog, ((hlaw.1 s₀ hs₀).2 _ _ _ _ hrun).mpr (.inr (.inr rfl))⟩
  · let d : Decisions := fun c => if c = .value then [true] else []
    let s₀ : Logged Nat := ⟨.new fun _ => 0, ∅, []⟩
    obtain ⟨s, hrun, hlog⟩ : ∃ s ∈ (Ordered.Job.emplace (ptr 1) d 0 5).run natLess 80 s₀,
        s.log = [.construct (ptr 1), .destroy (ptr 1)] := ⟨_, rfl, rfl⟩
    have hs₀ : Ordered.Spared natLess s₀ := .new _
    have hj : (Ordered.Job.emplace (ptr 1) d 0 5).Enabled s₀ := Finset.notMem_empty _
    exact ⟨s, hlog, ((hlaw.2 s₀ hs₀).2 _ _ _ hj hrun).mpr (.inr (.inr rfl))⟩

/-- The payload of an element is constructed over the one that `node()` has constructed. -/
theorem emplace_constructs_twice :
    (∃ fuel r, (Unordered.Job.call (.emplace 1)).run colliding fuel
      (newNumbers (floatFactor 1)) = some r ∧
        ¬ Alternate r.2.world.log) ∧
    ∃ fuel s, (Ordered.Job.emplace (ptr 1) (fun _ => []) 0 5).run natLess fuel
      ⟨.new fun _ => 0, ∅, []⟩ = some s ∧ ¬ Alternate s.log := by
  constructor
  · obtain ⟨x, hrun, hlife⟩ : ∃ x ∈ (Unordered.Job.call (.emplace 1)).run colliding 80
        (newNumbers (floatFactor 1)),
        lifeAt 1 false x.2.world.log = none := by decide +kernel
    refine ⟨80, x, hrun, fun halt => ?_⟩
    have h1 := halt 1
    rw [hlife] at h1
    cases h1
  · obtain ⟨s, hrun, hlife⟩ : ∃ s ∈ (Ordered.Job.emplace (ptr 1) (fun _ => []) 0 5).run natLess 80
        ⟨.new fun _ => 0, ∅, []⟩, lifeAt (ptr 1) false s.log = none := by decide +kernel
    refine ⟨80, s, hrun, fun halt => ?_⟩
    have h1 := halt (ptr 1)
    rw [hlife] at h1
    cases h1

end Elements

end MpmcMap
