import MpmcMap.Unordered.Runs

/-!
# The bucket shortcut

In every state of a sequential run the walk from a bucket ends where a walk through the whole list
ends, and the creation of a bucket changes nothing but the index: dummies and cells.
-/

namespace MpmcMap.Unordered

open Conc
open Prog (perform iterate)

variable {Addr Key : Type}

/-- `N` are the nodes from the dummy of the first bucket to the end. -/
structure Heap.Lists (h : Heap Addr Key) (N : List Addr) : Prop where
  head : h.bucket h.table 0 = N.head?
  nonempty : N ≠ []
  linked : Linked h.next N

/-- The bucket `b` and those that come of it by clearing the highest bit again and again. -/
inductive Ancestor (b : Nat) : Nat → Prop where
  | self : Ancestor b b
  | parent {a : Nat} : Ancestor b a → a ≠ 0 → Ancestor b (parentBucket a)

section

variable {C : Config Key} {w w' : World Addr Key} {N : List Addr} {A B : List Addr} {p : Addr}
  {sk : Word} {b a : Nat}

theorem Stores.lists (hs : Stores C w.heap N) : w.heap.Lists N := by
  obtain ⟨d, hd, hbucket⟩ := hs.head
  refine ⟨hbucket.trans hd.symm, ?_, hs.linked⟩
  rintro rfl
  cases hd

/-- The cut at a key is where a walk through the whole list stops. -/
theorem CutAt.find (hcut : CutAt w.heap N sk A p B) :
    B.head? = N.find? fun a => sk ≤ w.heap.soKey a := by
  have hbelow : (A ++ [p]).find? (fun a => sk ≤ w.heap.soKey a) = none := by
    apply List.find?_eq_none.mpr
    intro a ha
    have hlt := hcut.below a ha
    simpa using BitVec.not_le.mpr hlt
  rw [hcut.eq, List.append_cons, List.find?_append, hbelow, Option.none_or]
  cases B with
  | nil => rfl
  | cons c B => rw [List.find?_cons_of_pos (by simpa using hcut.above c (by simp)), List.head?_cons]

theorem Ancestor.le (h : Ancestor b a) (hb : b < 2 ^ 64) : a ≤ b := by
  induction h with
  | self => exact le_refl b
  | parent _ ha ih => exact (parentBucket_lt ha (by omega)).le.trans ih

/-- The ancestors of a filled bucket are filled. -/
theorem Between.ancestors (h : Between C w N) (hb : b < w.heap.size w.heap.table)
    (hfilled : (w.heap.bucket w.heap.table b).isSome = true) (ha : Ancestor b a) :
    ∃ d, w.heap.bucket w.heap.table a = some d ∧ d ∈ N ∧
      w.heap.soKey d = dummySplitOrderKey a := by
  have hsize := h.stores.size_le
  have hle := ha.le (by omega)
  have hsome : (w.heap.bucket w.heap.table a).isSome = true := by
    induction ha with
    | self => exact hfilled
    | parent hc hne ih =>
      have hlt := hc.le (by omega)
      exact h.rooted _ (by omega) hne (ih hlt)
  obtain ⟨d, hd⟩ := Option.isSome_iff_exists.mp hsome
  exact ⟨d, hd, h.stores.filled a d (by omega) hd⟩

end

section

variable [DecidableEq Addr]

/-- `locate` returns and answers as a walk through the whole list does: the first node with a key of
at least the one looked for, and its predecessor. Only an allocation that throws keeps it from
answering. -/
def LocatesAsWalk (C : Config Key) (w : World Addr Key) (m : Word) : Prop :=
  ∃ n x w', ((locate C m (soKeyOf m)).attempt throwing).run (fun o w => o.alone w) n w =
      some (x, w') ∧
    (x = none → w.choices.Starved (w.heap.lack m)) ∧
    ∀ prev cur, x = some (prev, cur) → ∃ N A B, w'.heap.Lists N ∧ N = A ++ prev :: B ∧
      cur = B.head? ∧ cur = N.find? fun a => soKeyOf m ≤ w'.heap.soKey a

/-- The bucket `b` and its ancestors are filled, and nothing else has changed. -/
structure Indexes (b : Nat) (w w' : World Addr Key) (N N' : List Addr) : Prop where
  before : w.heap.Lists N
  lists : w'.heap.Lists N'
  sorted : N'.Pairwise fun a c => w'.heap.soKey a ≤ w'.heap.soKey c
  ancestors : ∀ a, Ancestor b a → ∃ d, w'.heap.bucket w.heap.table a = some d ∧ d ∈ N' ∧
    w'.heap.soKey d = dummySplitOrderKey a
  regular : w'.heap.regular N' = w.heap.regular N
  filled : ∀ a d, w.heap.bucket w.heap.table a = some d →
    w'.heap.bucket w.heap.table a = some d
  count : w'.heap.count = w.heap.count

/-- `initialize_bucket` of the bucket `b` returns and changes the index only. Every cell that it
reads or writes lies inside the table, which the wrap-around of `parent_bucket(0)` does not. -/
def CreatesBucket (C : Config Key) (w : World Addr Key) (b : Nat) : Prop :=
  w.heap.size w.heap.table ≤ parentBucket 0 ∧
    Ends (Solo.of Act.bounded) (fun x w' =>
        (x = none → w.choices.Starved (lackAt (w.heap.bucket w.heap.table) (b + 1) b)) ∧
        (x = some () → ∃ N N', Indexes b w w' N N'))
      ((initializeBucket C w.heap.table b).attempt throwing) w

section

variable {C : Config Key} {w : World Addr Key} {N : List Addr}

theorem Between.locates (hC : C.Lawful) (h : Between C w N) (m : Word) : LocatesAsWalk C w m := by
  obtain ⟨n, x, w', hend, hx⟩ := Ends.runs Solo.of_executes
    (ends_unbounded (locate_finishes hC h.allocates h.stores (suits_soKeyOf m)))
  refine ⟨n, x, w', hend, ?_, ?_⟩
  · rintro rfl
    exact Starves.starved hx
  · rintro prev cur rfl
    obtain ⟨N', new, A, p, B, hg, -, -, hcut, hr⟩ := hx
    obtain ⟨rfl, rfl⟩ := Prod.mk.inj hr
    exact ⟨N', A, B, hg.stores.lists, hcut.eq, rfl, hcut.find⟩

theorem Between.createsBucket (hC : C.Lawful) (h : Between C w N) {b : Nat}
    (hb : b < w.heap.size w.heap.table) : CreatesBucket C w b := by
  refine ⟨h.stores.size_le.trans (by decide), ?_⟩
  apply Ends.mono (initializeBucketAt_finishes hC h.allocates h.stores (Nat.lt_succ_self b) hb)
  rintro (_ | _) w' hx
  · exact ⟨fun _ => Starves.starved hx, nofun⟩
  · obtain ⟨N', new, hg, -, hsome⟩ := hx
    have htable := hg.agrees.table
    refine ⟨nofun, fun _ => ⟨N, N', ?_⟩⟩
    constructor
    · exact h.stores.lists
    · exact hg.stores.lists
    · exact hg.stores.sorted
    · intro a ha
      rw [← htable] at hsome ⊢
      apply (h.grows hg).ancestors _ hsome ha
      rw [hg.agrees.size, htable]
      exact hb
    · exact hg.regular h.stores
    · exact hg.bucket
    · exact hg.agrees.count

end

/-- The bucket shortcut is right after every sequential run. -/
theorem runJobs_locatesAsWalk (C : Config Key) (hC : C.Lawful) (key : Addr → Key) (head : Addr)
    (pick : Nat → Finset Addr → Addr) (hpick : ∀ n U, pick n U ∉ U) (choices : Decisions)
    (f : LoadFactor) (js : List (Job Key)) (fuel : Nat) (rs : List (Option (Reply Key)))
    (s : Loaded Addr Key)
    (hrun : runJobs C fuel js (Loaded.new key head pick choices f) = some (rs, s)) (m : Word) :
    LocatesAsWalk C s.world m := by
  obtain ⟨N, hN⟩ := (runJobs_stored hC hpick hrun).between
  exact hN.locates hC m

/-- The creation of a bucket changes the index only, after every sequential run. -/
theorem runJobs_createsBucket (C : Config Key) (hC : C.Lawful) (key : Addr → Key) (head : Addr)
    (pick : Nat → Finset Addr → Addr) (hpick : ∀ n U, pick n U ∉ U) (choices : Decisions)
    (f : LoadFactor) (js : List (Job Key)) (fuel : Nat) (rs : List (Option (Reply Key)))
    (s : Loaded Addr Key)
    (hrun : runJobs C fuel js (Loaded.new key head pick choices f) = some (rs, s)) (b : Nat)
    (hb : b < s.world.heap.size s.world.heap.table) : CreatesBucket C s.world b := by
  obtain ⟨N, hN⟩ := (runJobs_stored hC hpick hrun).between
  exact hN.createsBucket hC hb

/-- Three elements in a container with four buckets. -/
abbrev threeNumbers (C : Config Nat) : Option (List (Option (Reply Nat)) × Loaded Nat Nat) :=
  runJobs C 400 [.call (.emplace 1), .call (.emplace 2), .call (.emplace 3)]
    (newNumbers (.exact 1))

/-- The walk for the second element begins in a bucket that is still missing. -/
theorem runJobs_locatesAsWalk_one :
    ∃ rs s, threeNumbers spread = some (rs, s) ∧
      (s.world.buckets, s.world.heap.counted) = (4, 3) ∧
      bucketOf (spread.mixedHash 2) 4 = 3 ∧ s.world.heap.bucket s.world.heap.table 3 = none ∧
      LocatesAsWalk spread s.world (spread.mixedHash 2) := by
  obtain ⟨⟨rs, s⟩, hrun⟩ : ∃ r, threeNumbers spread = some r :=
    Option.isSome_iff_exists.mp (by decide +kernel)
  have hvalues : ((threeNumbers spread).map fun r => decide (
      (r.2.world.buckets, r.2.world.heap.counted) = (4, 3) ∧
        r.2.world.heap.bucket r.2.world.heap.table 3 = none)) = some true := by decide +kernel
  rw [hrun] at hvalues
  obtain ⟨hcounts, hmissing⟩ := of_decide_eq_true (Option.some.inj hvalues)
  exact ⟨rs, s, hrun, hcounts, by decide +kernel, hmissing,
    runJobs_locatesAsWalk spread spread_lawful _ _ _ pickAbove_fresh _ _ _ _ rs s hrun _⟩

/-- Elements with the hash 0 fill the first bucket only: bucket 3 is created with its parent 1. -/
theorem runJobs_createsBucket_one :
    ∃ rs s, threeNumbers colliding = some (rs, s) ∧
      s.world.heap.bucket s.world.heap.table 3 = none ∧
      s.world.heap.bucket s.world.heap.table (parentBucket 3) = none ∧
      CreatesBucket colliding s.world 3 := by
  obtain ⟨⟨rs, s⟩, hrun⟩ : ∃ r, threeNumbers colliding = some r :=
    Option.isSome_iff_exists.mp (by decide +kernel)
  have hvalues : ((threeNumbers colliding).map fun r => decide (
      3 < r.2.world.heap.size r.2.world.heap.table ∧
        r.2.world.heap.bucket r.2.world.heap.table 3 = none ∧
        r.2.world.heap.bucket r.2.world.heap.table (parentBucket 3) = none)) = some true := by
    decide +kernel
  rw [hrun] at hvalues
  obtain ⟨hlt, hmissing, hparent⟩ := of_decide_eq_true (Option.some.inj hvalues)
  exact ⟨rs, s, hrun, hmissing, hparent, runJobs_createsBucket colliding colliding_lawful _ _ _
    pickAbove_fresh _ _ _ _ rs s hrun 3 hlt⟩

end

end MpmcMap.Unordered
