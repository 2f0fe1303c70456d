import MpmcMap.Maps.Counts

/-!
# Insertions that throw

`emplace` and `operator[]` where allocations and constructors may throw. Only the construction of
the payload in `emplace` has a handler; the block of a node is lost where `node()` or the linking of
the node throws, and the growth of the table comes after the element is linked.
-/

namespace MpmcMap

open Conc

/-! ## The tree -/

namespace Ordered

open RedBlack Maps

variable {Key α : Type}

/-- How a call leaves: the answer `none` is an exception. -/
structure Outcome (Key α : Type) where
  answer : Option α
  /-- The blocks that the call got from `pool_.acquire`. -/
  acquired : List Ptr
  heap : Heap Ptr Key

/-- A call that throws has no effect. -/
structure Heap.Unchanged (cmp : Key → Key → Bool) (h : Heap Ptr Key) (o : Outcome Key α) :
    Prop where
  finds : ∀ k a, o.heap.Finds cmp k a ↔ h.Finds cmp k a
  payload : ∀ k a, h.Finds cmp k a → o.heap.key a = h.key a
  count : o.heap.count = h.count
  freed : o.heap.freed = h.freed ++ o.acquired

section Code

variable (cmp : Key → Key → Bool) (d : Decisions) (n : Ptr) (blank k : Key)

/-- `alloc_node()`, where the allocator gives out the node `n`; the default payload is `blank`. -/
def allocNode (h : Heap Ptr Key) : Outcome Key Ptr :=
  if d.head .node then ⟨none, [], h⟩
  else if d.head .blank then ⟨none, [n], h.create n (h.key n)⟩
  else ⟨some n, [n], h.create n blank⟩

/-- `emplace(args...)`, where the arguments make a payload of key `k`. -/
def emplaceThrowing (h : Heap Ptr Key) (fuel : Nat) : Option (Outcome Key Bool) :=
  match allocNode d n blank h with
  | ⟨none, l, h⟩ => some ⟨none, l, h⟩
  | ⟨some n, l, h⟩ =>
    if d.head .value then
      -- the handler: `destroy_node(n)`
      some ⟨none, l, { h with freed := h.freed ++ [n] }⟩
    else
      ((emplace cmp n k).run (fun o h => o.perform h) fuel (h.assign n k)).map fun r =>
        ⟨some r.1, l, r.2⟩

/-- `operator[](k)`, which answers the payload; a null result is a null dereference. -/
def subscriptThrowing (h : Heap Ptr Key) (fuel : Nat) : Option (Outcome Key (Option Key)) := do
  let (p, h) ← (findNode cmp k).run (fun o h => o.perform h) fuel h
  match p with
  | some a => return ⟨some (some (h.key a)), [], h⟩
  | none =>
    match allocNode d n blank h with
    | ⟨none, l, h⟩ => return ⟨none, l, h⟩
    | ⟨some n, l, h⟩ =>
      if d.head .value then
        -- no handler here
        return ⟨none, l, h⟩
      else
        let (inserted, h) ← (emplace cmp n k).run (fun o h => o.perform h) fuel (h.assign n k)
        if inserted then
          return ⟨some (some k), l, h⟩
        else
          let (p, h) ← (findNode cmp k).run (fun o h => o.perform h) fuel h
          return ⟨some (p.map h.key), l, h⟩

end Code

section Tree

variable {cmp : Key → Key → Bool} [StrictWeakOrder cmp] {h : Heap Ptr Key} {n : Ptr}

omit [StrictWeakOrder cmp] in
/-- A payload in a new node. -/
theorem create_assign (h : Heap Ptr Key) (n : Ptr) (blank k : Key) :
    (h.create n blank).assign n k = h.create n k := by
  unfold Heap.assign Heap.create
  rw [Function.update_idem]

omit [StrictWeakOrder cmp] in
/-- The call does nothing before it throws. -/
theorem unchanged_refl (h : Heap Ptr Key) : h.Unchanged cmp (⟨none, [], h⟩ : Outcome Key α) where
  finds _ _ := Iff.rfl
  payload _ _ _ := rfl
  count := rfl
  freed := (List.append_nil _).symm

omit [StrictWeakOrder cmp] in
/-- A block that is not given back. -/
theorem not_unchanged_create {x : Option α} (p : Key) :
    ¬ h.Unchanged cmp ⟨x, [n], h.create n p⟩ := by
  intro hu
  have hlost : h.freed = h.freed ++ [n] := hu.freed
  simpa using congrArg List.length hlost

/-- A node that is given back without having been linked. -/
theorem unchanged_destroyed (hr : Reached cmp h) (hn : h.Unlinked n) (blank : Key) :
    h.Unchanged cmp (⟨none, [n], { h.create n blank with freed := h.freed ++ [n] }⟩ :
      Outcome Key α) := by
  obtain ⟨m, t, hq⟩ := hr.quiet
  have hnt := hn t hq.stores
  have hc := hq.create (k := blank) hnt
  have hR := hc.rest
  have hR' : Rest { h.create n blank with freed := h.freed ++ [n] } t :=
    ⟨hR.root, hR.fits, hR.nodup, hR.unlocked, hR.sound⟩
  constructor
  · intro k a
    rw [hR'.finds_iff hc.sorted_entries, hq.rest.finds_iff hq.sorted_entries, hq.entries]
    show (lookup cmp k (entriesOf (h.create n blank).key t)).map Prod.snd = some a ↔ _
    rw [hc.entries]
  · intro k a hf
    obtain ⟨e, he, rfl⟩ := Option.map_eq_some_iff.mp ((hq.rest.finds_iff hq.sorted_entries).mp hf)
    obtain ⟨b, hb, rfl⟩ := List.mem_map.mp (List.mem_of_find?_eq_some he)
    exact Function.update_of_ne (ne_of_mem_of_not_mem hb hnt) _ _
  · rfl
  · rfl

/-- `emplace` loses a block exactly where `node()` throws. -/
theorem emplaceThrowing_returns (hr : Reached cmp h) (hn : h.Unlinked n) (d : Decisions)
    (blank k : Key) :
    Returns (emplaceThrowing cmp d n blank k h) fun o => (o.answer = none → h.Unchanged cmp o) ↔
      ¬ (d.head .node = false ∧ d.head .blank = true) := by
  unfold emplaceThrowing allocNode
  cases hnode : d.head .node with
  | true => exact Returns.pure (iff_of_true (fun _ => unchanged_refl h) (by simp))
  | false =>
    cases hblank : d.head .blank with
    | true =>
      refine Returns.pure (iff_of_false ?_ (by simp))
      intro hu
      exact not_unchanged_create _ (hu rfl)
    | false =>
      cases d.head .value with
      | true =>
        exact Returns.pure (iff_of_true (fun _ => unchanged_destroyed hr hn blank) (by simp))
      | false =>
        obtain ⟨m, t, hq⟩ := hr.quiet
        have hlink := Ends.returns sequential_executes (emplace_seq (k := k) hq hn)
        rw [← create_assign h n blank k] at hlink
        apply hlink.map
        intro r _
        exact iff_of_true nofun (by simp)

/-- `operator[]` loses a block where the key is absent and `node()` or the payload throws. -/
theorem subscriptThrowing_returns (hr : Reached cmp h) (hn : h.Unlinked n) (d : Decisions)
    (blank k : Key) :
    Returns (subscriptThrowing cmp d n blank k h) fun o =>
      (o.answer = none → h.Unchanged cmp o) ↔ ¬ ((¬ ∃ a, h.Finds cmp k a) ∧
        d.head .node = false ∧ (d.head .blank = true ∨ d.head .value = true)) := by
  obtain ⟨m, t, hq⟩ := hr.quiet
  have hfind := Ends.returns sequential_executes (steady_sequential
    (findNode_spec (k := k) hq.rest.unlocked hq.rest.root hq.rest.fits hq.sorted_entries))
  apply hfind.bind
  rintro ⟨p, h₁⟩ ⟨hp, hsame⟩
  obtain rfl : h₁ = h := hsame
  replace hp : p = (lookup cmp k (entriesOf h₁.key t)).map Prod.snd := hp
  have hfinds : ∀ a, h₁.Finds cmp k a ↔ p = some a := by
    intro a
    rw [hq.rest.finds_iff hq.sorted_entries, hp]
  simp only [hfinds]
  cases p with
  | some a => exact Returns.pure (iff_of_true nofun (by simp))
  | none =>
    unfold allocNode
    cases d.head .node with
    | true => exact Returns.pure (iff_of_true (fun _ => unchanged_refl h₁) (by simp))
    | false =>
      cases d.head .blank with
      | true =>
        refine Returns.pure (iff_of_false ?_ (by simp))
        intro hu
        exact not_unchanged_create _ (hu rfl)
      | false =>
        cases d.head .value with
        | true =>
          refine Returns.pure (iff_of_false ?_ (by simp))
          intro hu
          exact not_unchanged_create _ (hu rfl)
        | false =>
          -- nothing throws: the key was absent, so the node is linked and its value returned
          have hlink := Ends.returns sequential_executes (emplace_seq (k := k) hq hn)
          rw [← create_assign h₁ n blank k] at hlink
          apply hlink.bind
          rintro ⟨b, h₂⟩ ⟨hb, -⟩
          have hins : b = true := by
            have habsent := Option.map_eq_none_iff.mp hp.symm
            rw [hq.entries] at habsent
            rw [show b = _ from hb, (m.lookup_insert k n).1, habsent]
            rfl
          obtain rfl := hins
          exact Returns.pure (iff_of_true nofun (by simp))

end Tree

end Ordered

/-! ## The list -/

namespace Unordered

variable {Addr Key : Type} [DecidableEq Addr]

/-- A call that throws has no effect. -/
structure World.Unchanged (C : Config Key) (w w' : World Addr Key) : Prop where
  finds : ∀ k a, w'.heap.Finds C k a ↔ w.heap.Finds C k a
  payload : ∀ k a, w.heap.Finds C k a → w'.heap.key a = w.heap.key a
  count : w'.heap.count = w.heap.count
  inUse : w'.heap.inUse = w.heap.inUse

/-- One element more is counted. -/
def World.counting (w : World Addr Key) : World Addr Key :=
  { w with heap := { w.heap with count := w.heap.count + 1 } }

/-- With one element more the table has to grow, and a doubling throws. -/
def World.Overgrows (w : World Addr Key) : Prop :=
  w.counting.heap.crowded = true ∧ w.counting.GrowthFails false

section List

variable {C : Config Key} {w w' u v : World Addr Key} {N N' new : List Addr} {n : Addr} {k : Key}

/-- What decides on the growth of the table is the same. -/
structure SameGrowth (w v : World Addr Key) : Prop where
  table : v.heap.table = w.heap.table
  size : v.heap.size = w.heap.size
  count : v.heap.count = w.heap.count
  threshold : v.heap.threshold = w.heap.threshold
  cached : v.heap.cachedThreshold = w.heap.cachedThreshold
  tables : v.choices .table = w.choices .table
  retires : v.choices .retire = w.choices .retire

omit [DecidableEq Addr] in
theorem SameGrowth.overgrows (h : SameGrowth w v) : v.Overgrows ↔ w.Overgrows := by
  unfold World.Overgrows World.GrowthFails Heap.crowded Heap.Wants Heap.counted World.counting
  simp only [h.table, h.size, h.count, h.threshold, h.cached, h.tables, h.retires]

omit [DecidableEq Addr] in
theorem Heap.Agrees.sameGrowth (h : w.heap.Agrees v.heap)
    (htable : v.choices .table = w.choices .table)
    (hretire : v.choices .retire = w.choices .retire) : SameGrowth w v :=
  ⟨h.table, h.size, h.count, h.threshold, h.cached, htable, hretire⟩

omit [DecidableEq Addr] in
theorem Prepares.overgrows {mixed : Word} (hp : Prepares C w u N N' new mixed) :
    u.Overgrows ↔ w.Overgrows :=
  (hp.agrees.sameGrowth (hp.choices.other _ (by decide) (by decide) (by decide))
    (hp.choices.other _ (by decide) (by decide) (by decide))).overgrows

omit [DecidableEq Addr] in
theorem Inserts.overgrows {A B : List Addr} {p : Addr} {x : Option Bool}
    (hi : Inserts C u v N n A p B) (ha : Adapts C v w' (A ++ p :: n :: B) (x.map fun _ => ())) :
    x = none ↔ u.Overgrows := by
  obtain ⟨y, hl, rfl⟩ := hi.links
  have hagrees : u.heap.Agrees y.heap := by
    rw [hl.heap]
    constructor <;> rfl
  have hsame := hagrees.sameGrowth (hl.choices _ (by decide)) (hl.choices _ (by decide))
  rw [← hsame.overgrows, ← Option.map_eq_none_iff (f := fun _ => ())]
  exact ha.fails

omit [DecidableEq Addr] in
/-- The dummies of the bucket have used up their share. -/
theorem Prepares.spent {mixed : Word} (hp : Prepares C w u N N' new mixed) :
    ¬ w.choices.Starved (w.heap.lack mixed) ∧
      (w.choices.Starved (w.heap.lack mixed + 1) ↔ u.choices.Starved 1) := by
  rw [← hp.length]
  exact ⟨hp.choices.not_starved, hp.choices.starved⟩

/-- The linking of a node throws before, or after the element is there. -/
theorem Linkage.throws_iff {x : Option Bool} (hl : Linkage C w N n k x w') :
    x = none ↔ w.choices.Starved (w.heap.lack (C.mixedHash k)) ∨
      w.heap.lookup C N k = none ∧ w.Overgrows := by
  cases hl with
  | starved hst => exact iff_of_true rfl (.inl hst.starved)
  | duplicate hp hsome =>
    refine iff_of_false nofun ?_
    intro hbad
    rcases hbad with hst | ⟨hnone, -⟩
    · exact hp.spent.1 hst
    · rw [hnone] at hsome
      cases hsome
  | inserted hp hnone hi _ ha =>
    have hsame : (w.withSoKey n (C.soKey k)).Overgrows ↔ w.Overgrows :=
      SameGrowth.overgrows ⟨rfl, rfl, rfl, rfl, rfl, rfl, rfl⟩
    rw [hi.overgrows ha, hp.overgrows, hsame]
    constructor
    · exact fun hover => .inr ⟨hnone, hover⟩
    · intro hbad
      rcases hbad with hst | ⟨-, hover⟩
      · exact absurd hst hp.spent.1
      · exact hover

/-- Where the linking of a node throws, nobody gives back its block. -/
theorem Linkage.alive {x : Option Bool} (hl : Linkage C w N n k x w') (hn : n ∈ w.heap.inUse)
    (hx : x = none) : n ∈ w'.heap.inUse := by
  cases hl with
  | starved hst =>
    obtain ⟨v, N', new, hg, -, he⟩ := hst.grown
    have hv : n ∈ v.heap.inUse := (hg.inUse n).mpr (.inr hn)
    cases he with
    | node _ => exact hv
    | blank _ _ => exact Finset.mem_insert_of_mem hv
  | duplicate _ _ => cases hx
  | inserted hp _ hi _ ha =>
    obtain ⟨y, hl, rfl⟩ := hi.links
    have hy : y.heap.inUse = _ := congrArg Heap.inUse hl.heap
    rw [ha.inUse]
    show n ∈ y.heap.inUse
    rw [hy]
    exact (hp.inUse n).mpr (.inr hn)

/-- A block that the call acquired is still in use. -/
theorem not_unchanged_of_mem {a : Addr} (hw : a ∉ w.heap.inUse) (hw' : a ∈ w'.heap.inUse) :
    ¬ w.Unchanged C w' := by
  intro hu
  rw [hu.inUse] at hw'
  exact hw hw'

/-- A node allocation that throws leaves what was there if nothing has been allocated before and
`pool_.acquire` is what throws. -/
theorem Grows.unchanged_iff (hC : C.Lawful) (hb : Between C w N) (hg : Grows C w u N N' new)
    (he : Exhausts u w') : w.Unchanged C w' ↔ w.choices.head .node = true := by
  cases hnew : new with
  | cons a l =>
    -- a dummy was linked before, which the failure leaves in the table
    have hmem : a ∈ new := hnew ▸ List.mem_cons_self
    have halive : a ∈ w'.heap.inUse := by
      have hu : a ∈ u.heap.inUse := (hg.inUse a).mpr (.inl hmem)
      cases he with
      | node _ => exact hu
      | blank _ _ => exact Finset.mem_insert_of_mem hu
    refine iff_of_false (not_unchanged_of_mem (hg.fresh a hmem) halive) ?_
    intro hnode
    have hspent := hg.choices.not_starved
    rw [hnew] at hspent
    exact hspent (((Decisions.starved_one _).mpr (.inl hnode)).mono (by simp))
  | nil =>
    subst hnew
    have hinUse : u.heap.inUse = w.heap.inUse := by
      ext a
      rw [hg.inUse]
      simp
    have hnode : u.choices.head .node = w.choices.head .node := by
      unfold Decisions.head
      rw [hg.choices.node]
      rfl
    rw [← hnode]
    cases he with
    | node htrue =>
      refine iff_of_true ?_ htrue
      have hpick : u.heap.Allocates := by
        unfold Heap.Allocates
        rw [hg.agrees.pick]
        exact hb.allocates
      constructor
      · intro k a
        show u.heap.Finds C k a ↔ _
        rw [hg.stores.finds_iff hC hpick, hb.stores.finds_iff hC hb.allocates, hg.lookup hb.stores]
      · intro k a _
        exact congrFun hg.agrees.key a
      · exact hg.agrees.count
      · exact hinUse
    | blank hfalse _ =>
      refine iff_of_false ?_ (by simp [hfalse])
      -- `pool_.acquire` has succeeded, and `alloc_node` has no handler for its block
      have hfresh : u.heap.acquire.1 ∉ w.heap.inUse := by
        rw [← hinUse]
        show u.heap.pick _ _ ∉ _
        rw [hg.agrees.pick]
        exact hb.allocates _ _
      exact not_unchanged_of_mem hfresh (Finset.mem_insert_self _ _)

/-- The handler of `emplace` gives back the node. -/
theorem Between.unchanged_destroyed (hC : C.Lawful) (hb : Between C w N) {d : Decisions} :
    w.Unchanged C ({ w.blanked with choices := d }.destroyed w.heap.acquire.1) := by
  have hfresh : w.heap.acquire.1 ∉ w.heap.inUse := hb.allocates _ _
  have hn : w.heap.acquire.1 ∉ N := fun hmem => hfresh (hb.stores.alive _ hmem)
  have hinUse : (insert w.heap.acquire.1 w.heap.inUse).erase w.heap.acquire.1 = w.heap.inUse :=
    Finset.erase_insert hfresh
  have hs : Stores C ({ w.blanked with choices := d }.destroyed w.heap.acquire.1).heap N := by
    apply hb.stores.congr
    · intro a ha
      exact Function.update_of_ne (ne_of_mem_of_not_mem ha hn) _ _
    · intro a ha
      exact Function.update_of_ne (ne_of_mem_of_not_mem ha hn) _ _
    · exact fun _ _ _ => rfl
    · intro a ha
      show a ∈ (insert w.heap.acquire.1 w.heap.inUse).erase w.heap.acquire.1
      rw [hinUse]
      exact hb.stores.alive a ha
    · exact ⟨rfl, rfl, rfl, rfl, rfl⟩
  have hreg : Heap.regular ({ w.blanked with choices := d }.destroyed w.heap.acquire.1).heap N =
      w.heap.regular N := by
    apply List.filter_congr
    intro a ha
    show isRegular (Function.update w.heap.soKey w.heap.acquire.1 0 a) = _
    rw [Function.update_of_ne (ne_of_mem_of_not_mem ha hn)]
  constructor
  · intro k a
    rw [hs.finds_iff hC hb.allocates, hb.stores.finds_iff hC hb.allocates, Heap.lookup, hreg]
    rfl
  · exact fun _ _ _ => rfl
  · rfl
  · exact hinUse

theorem Stores.absent_iff (hC : C.Lawful) (hs : Stores C w.heap N) (hpick : w.heap.Allocates) :
    (¬ ∃ a, w.heap.Finds C k a) ↔ w.heap.lookup C N k = none := by
  simp only [hs.finds_iff hC hpick, Option.eq_none_iff_forall_ne_some, not_exists, ne_eq]

/-- The linking of a new node throws. -/
theorem Linkage.created_throws_iff {x : Option Bool} (hC : C.Lawful) (hb : Between C w N)
    (hnode : w.choices.head .node = false) (hblank : w.choices.head .blank = false)
    (hl : Linkage C (w.created k) N w.heap.acquire.1 k x w') :
    x = none ↔ w.choices.Starved (w.heap.lack (C.mixedHash k) + 1) ∨
      (¬ ∃ a, w.heap.Finds C k a) ∧ w.Overgrows := by
  obtain ⟨hn, -⟩ := hb.stores.created hb.allocates k
  have hstarved : (w.created k).choices.Starved (w.heap.lack (C.mixedHash k)) ↔
      w.choices.Starved (w.heap.lack (C.mixedHash k) + 1) := by
    rw [Nat.add_comm]
    exact (Decisions.spends_one hnode hblank).starved.symm
  have hsame : (w.created k).Overgrows ↔ w.Overgrows :=
    SameGrowth.overgrows ⟨rfl, rfl, rfl, rfl, rfl, rfl, rfl⟩
  rw [hl.throws_iff, lookup_created hn, hsame, hb.stores.absent_iff hC hb.allocates, ← hstarved]
  exact Iff.rfl

/-- `emplace` throws with an effect where `node()` throws, where the node cannot be linked and where
the table cannot grow. -/
theorem emplace_returns (hC : C.Lawful) (hb : Between C w N) (k : Key) :
    Returns (fun fuel => (Container.emplace C k).run (fun o w => o.alone w) fuel w) fun r =>
      (r.1 = none → w.Unchanged C r.2) ↔ ¬ (w.choices.head .node = false ∧
        (w.choices.head .blank = true ∨ w.choices.head .value = false ∧
          (w.choices.Starved (w.heap.lack (C.mixedHash k) + 1) ∨
            (¬ ∃ a, w.heap.Finds C k a) ∧ w.Overgrows))) := by
  have hends := ends_unbounded (emplace_ends hC hb.allocates hb.stores k)
  apply Returns.mono (Ends.returns Solo.of_executes hends)
  intro r he
  obtain ⟨x, w'⟩ := r
  have hfresh : w.heap.acquire.1 ∉ w.heap.inUse := hb.allocates _ _
  cases he with
  | exhausted he =>
    have hiff := hb.stores.grows_refl.unchanged_iff hC hb he
    cases he with
    | node hnode => exact iff_of_true (fun _ => hiff.mpr hnode) (by simp [hnode])
    | blank hnode hblank =>
      refine iff_of_false ?_ (by simp [hnode, hblank])
      intro hu
      rw [hiff.mp (hu rfl)] at hnode
      cases hnode
  | value hnode hblank hvalue =>
    refine iff_of_true (fun _ => ?_) (by simp [hblank, hvalue])
    exact hb.unchanged_destroyed hC
  | linkage hnode hblank hvalue hl =>
    have hthrows := hl.created_throws_iff hC hb hnode hblank
    simp only [hnode, hblank, hvalue, true_and, Bool.false_eq_true, false_or, ← hthrows]
    constructor
    · intro hu hx
      apply not_unchanged_of_mem hfresh _ (hu hx)
      exact hl.alive (Finset.mem_insert_self _ _) hx
    · intro hx hx'
      exact absurd hx' hx

omit [DecidableEq Addr] in
/-- The node after the dummies can be allocated. -/
theorem Prepares.spent_node {mixed : Word} (hp : Prepares C w u N N' new mixed)
    (hnode : u.choices.head .node = false) (hblank : u.choices.head .blank = false) :
    ¬ w.choices.Starved (w.heap.lack mixed + 1) ∧ w.choices.head .node = false := by
  have hnot : ¬ w.choices.Starved (w.heap.lack mixed + 1) := by
    rw [hp.spent.2, Decisions.starved_one, hnode, hblank]
    simp
  refine ⟨hnot, Bool.eq_false_iff.mpr ?_⟩
  intro htrue
  exact hnot (((Decisions.starved_one _).mpr (.inl htrue)).mono (by omega))

omit [DecidableEq Addr] in
theorem Prepares.head_value {mixed : Word} (hp : Prepares C w u N N' new mixed) :
    u.choices.head .value = w.choices.head .value := by
  unfold Decisions.head
  rw [hp.choices.other .value (by decide) (by decide) (by decide)]

theorem Prepares.acquire_fresh {mixed : Word} (hp : Prepares C w u N N' new mixed)
    (hpick : u.heap.Allocates) : u.heap.acquire.1 ∉ w.heap.inUse := by
  intro hmem
  exact hpick _ _ ((hp.inUse _).mpr (.inr hmem))

/-- `operator[]` throws with an effect where anything is acquired before. -/
theorem subscript_returns (hC : C.Lawful) (hb : Between C w N) (k : Key) :
    Returns (fun fuel => (Container.subscript C k).run (fun o w => o.alone w) fuel w) fun r =>
      (r.1 = none → w.Unchanged C r.2) ↔ ¬ (w.choices.head .node = false ∧
        (w.choices.Starved (w.heap.lack (C.mixedHash k)) ∨ (¬ ∃ a, w.heap.Finds C k a) ∧
          (w.choices.Starved (w.heap.lack (C.mixedHash k) + 1) ∨ w.choices.head .value = true ∨
            w.Overgrows))) := by
  have hends := ends_unbounded (subscript_ends hC hb.allocates hb.stores k)
  apply Returns.mono (Ends.returns Solo.of_executes hends)
  intro r he
  obtain ⟨x, w'⟩ := r
  rw [hb.stores.absent_iff hC hb.allocates]
  cases he with
  | starved hst =>
    have hstarved := hst.starved
    obtain ⟨u, N', new, hg, -, hex⟩ := hst.grown
    simp only [hstarved, true_or, and_true, Bool.not_eq_false, forall_const]
    exact hg.unchanged_iff hC hb hex
  | found hp hl =>
    refine iff_of_true nofun ?_
    rw [hl]
    simp [hp.spent.1]
  | exhausted hp hl hex =>
    have hstarved := hp.spent.2.mpr hex.starved
    simp only [hstarved, hl, true_or, and_true, or_true, Bool.not_eq_false, forall_const]
    exact hp.unchanged_iff hC hb hex
  | @value u N' new hp hl hnode hblank hvalue =>
    -- the payload throws, and the node is not given back
    have hfresh := hp.acquire_fresh (hb.grows hp.toGrows).allocates
    have hhead := hp.head_value.symm.trans hvalue
    refine iff_of_false ?_ (by simp [hl, hhead, (hp.spent_node hnode hblank).2])
    intro hu
    exact not_unchanged_of_mem hfresh (Finset.mem_insert_self _ _) (hu rfl)
  | @linkage x u w' N' new hp hl hnode hblank hvalue hne hlink =>
    -- the node is constructed: it throws only where the table is to grow and cannot
    have hbu := hb.grows hp.toGrows
    obtain ⟨hnot, hw⟩ := hp.spent_node hnode hblank
    have hhead := hp.head_value.symm.trans hvalue
    have hfresh := hp.acquire_fresh hbu.allocates
    have hthrows := hlink.created_throws_iff hC hbu hnode hblank
    rw [hp.lack, Decisions.starved_one, hnode, hblank, hbu.stores.absent_iff hC hbu.allocates,
      hp.lookup hb.stores, hl, hp.overgrows] at hthrows
    have hbad : (x.map fun _ => some k) = none ↔ w.Overgrows := by
      rw [Option.map_eq_none_iff, hthrows]
      simp
    simp only [hw, hl, hp.spent.1, hnot, hhead, Bool.false_eq_true, false_or, true_and, ← hbad]
    constructor
    · intro hu hx
      apply not_unchanged_of_mem hfresh _ (hu hx)
      exact hlink.alive (Finset.mem_insert_self _ _) (Option.map_eq_none_iff.mp hx)
    · intro hx hx'
      exact absurd hx' hx

end List

end Unordered

/-! ## The containers -/

/-- Where an insertion throws, it has no effect unless one of these goes wrong: `node()`, an
allocation behind that of the node, the growth of the table, a payload in `operator[]`. -/
theorem insertion_unchanged_iff {Addr Key : Type} [DecidableEq Addr] {C : Unordered.Config Key}
    (hC : C.Lawful) (cmp : Key → Key → Bool) [Maps.StrictWeakOrder cmp] (k : Key) :
    (∀ s : Unordered.Loaded Addr Key, Unordered.Reached C s →
      (Returns
        (fun fuel => (Unordered.Container.emplace C k).run (fun o w => o.alone w) fuel s.world)
        fun r => (r.1 = none → s.world.Unchanged C r.2) ↔ ¬ (s.world.choices.head .node = false ∧
          (s.world.choices.head .blank = true ∨ s.world.choices.head .value = false ∧
            (s.world.choices.Starved (s.world.heap.lack (C.mixedHash k) + 1) ∨
              (¬ ∃ a, s.world.heap.Finds C k a) ∧ s.world.Overgrows)))) ∧
      Returns
        (fun fuel => (Unordered.Container.subscript C k).run (fun o w => o.alone w) fuel s.world)
        fun r => (r.1 = none → s.world.Unchanged C r.2) ↔ ¬ (s.world.choices.head .node = false ∧
          (s.world.choices.Starved (s.world.heap.lack (C.mixedHash k)) ∨
            (¬ ∃ a, s.world.heap.Finds C k a) ∧
              (s.world.choices.Starved (s.world.heap.lack (C.mixedHash k) + 1) ∨
                s.world.choices.head .value = true ∨ s.world.Overgrows)))) ∧
    ∀ (h : Ordered.Heap Ordered.Ptr Key) (n : Ordered.Ptr) (d : Decisions) (blank : Key),
      Ordered.Reached cmp h → h.Unlinked n →
      (Returns (Ordered.emplaceThrowing cmp d n blank k h) fun o =>
        (o.answer = none → h.Unchanged cmp o) ↔ ¬ (d.head .node = false ∧ d.head .blank = true)) ∧
      Returns (Ordered.subscriptThrowing cmp d n blank k h) fun o =>
        (o.answer = none → h.Unchanged cmp o) ↔ ¬ ((¬ ∃ a, h.Finds cmp k a) ∧
          d.head .node = false ∧ (d.head .blank = true ∨ d.head .value = true)) := by
  constructor
  · intro s hs
    obtain ⟨N, hN⟩ := (hs.stored hC).between
    exact ⟨Unordered.emplace_returns hC hN k, Unordered.subscript_returns hC hN k⟩
  · intro h n d blank hr hn
    exact ⟨Ordered.emplaceThrowing_returns hr hn d blank k,
      Ordered.subscriptThrowing_returns hr hn d blank k⟩

section Elements

open Unordered

/-- The third element is inserted, and then the bigger table cannot be allocated. -/
theorem emplace_keeps_element : ∃ s : Loaded Nat Nat, Unordered.Reached colliding s ∧
    ∃ fuel r, (Container.emplace colliding 3).run (fun o w => o.alone w) fuel s.world = some r ∧
      r.1 = none ∧ s.world.heap.count = 2 ∧ r.2.heap.count = 3 ∧
      ¬ s.world.Unchanged colliding r.2 := by
  let s₀ : Loaded Nat Nat :=
    .new (fun _ => 0) 0 pickAbove (fun c => if c = .table then [true] else []) (floatFactor 1)
  obtain ⟨⟨rs, s⟩, hrun, hs, hthrow⟩ :
      ∃ x ∈ runJobs colliding 80 [.call (.emplace 1), .call (.emplace 2)] s₀,
        x.2.world.heap.count = 2 ∧
        ∃ r ∈ (Container.emplace colliding 3).run (fun o w => o.alone w) 80 x.2.world,
          r.1 = none ∧ r.2.heap.count = 3 := by decide +kernel
  obtain ⟨r, hr, hnone, hcount⟩ := hthrow
  refine ⟨s, ?_, 80, r, hr, hnone, hs, hcount, ?_⟩
  · have hnew : Unordered.Reached colliding s₀ := .new pickAbove_fresh
    exact runJobs_induction colliding (fun _ _ _ _ _ h hstep => h.job hstep) hnew hrun
  · intro hu
    have hsame : r.2.heap.count = s.world.heap.count := hu.count
    rw [hcount, hs] at hsame
    cases hsame

/-- The payload of the second element throws when its node is there already: the node is destroyed and
the first element stays. -/
theorem insertion_unchanged_new : ∃ s : Loaded Nat Nat, Unordered.Reached colliding s ∧
    s.world.heap.count = 1 ∧
    ∃ fuel r, (Container.emplace colliding 2).run (fun o w => o.alone w) fuel s.world = some r ∧
      r.1 = none ∧ r.2.heap.freed ≠ [] ∧ s.world.Unchanged colliding r.2 := by
  let s₀ : Loaded Nat Nat := .new (fun _ => 0) 0 pickAbove
    (fun c => if c = .value then [false, true] else []) (floatFactor 1)
  obtain ⟨⟨x, s⟩, hrun, hcount, hblank, hvalue, r, hr, hnone, hfreed⟩ :
      ∃ x ∈ (Job.call (.emplace 1)).run colliding 80 s₀, x.2.world.heap.count = 1 ∧
        x.2.world.choices.head .blank = false ∧ x.2.world.choices.head .value = true ∧
        ∃ r ∈ (Container.emplace colliding 2).run (fun o w => o.alone w) 80 x.2.world,
          r.1 = none ∧ r.2.heap.freed ≠ [] := by decide +kernel
  have hs : Unordered.Reached colliding s := .job (.new pickAbove_fresh) hrun
  have hlaw := @insertion_unchanged_iff Nat Nat _ colliding colliding_lawful Ordered.natLess _ 2
  refine ⟨s, hs, hcount, 80, r, hr, hnone, hfreed, ?_⟩
  refine ((hlaw.1 s hs).1.of_eq hr).mpr ?_ hnone
  rintro ⟨-, hbad | ⟨hgood, -⟩⟩
  · rw [hblank] at hbad
    cases hbad
  · rw [hvalue] at hgood
    cases hgood

end Elements

end MpmcMap
