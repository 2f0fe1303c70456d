import MpmcMap.Unordered.Doubling
import MpmcMap.Unordered.Lone

/-!
# Every call comes to its end

The engine under any number of threads, without reuse of memory. Wherever the other threads have
stopped, a thread that goes on alone comes to the end of its call. There is one exception. An eraser
whose node is not where it has found it scans for the predecessor by pointer, past marked nodes, and
expects an unmarked pointer there. Behind a marked node of the same run it finds the mark of that
node instead, for as long as nobody else unlinks the node.
-/

namespace MpmcMap.Unordered

open Conc
open Prog (perform iterate Closed)
open Function (update)

variable {Addr Key : Type} [DecidableEq Addr]

/-- The access is an attempt to unlink a node of the run `sk` behind a marked node of the run that
is still in the list. -/
def Obstructed {β : Type} (sk : Word) (o : Op Addr Key β) (h : Heap Addr Key) : Prop :=
  match o with
  | .casNextWeak prev expected _ => ∃ b, expected = .plain (some b) ∧ h.next prev = ⟨some b, true⟩ ∧
      h.soKey prev = sk ∧ h.soKey b = sk ∧ h.Listed prev
  | _ => False

/-- Where a thread that goes on alone may be held up: an eraser behind a marked node, and the
iterator at a null pointer. -/
def Request.HeldUp {β : Type} (C : Config Key) (c : Request Addr Key) (o : Op Addr Key β)
    (h : Heap Addr Key) : Prop :=
  match c with
  | .erase k => Obstructed (soKeyOf (C.mixedHash k)) o h
  | .next .. => o.performs = false
  | _ => False

/-- The calls that are never held up. -/
def Request.unhindered : Request Addr Key → Bool
  | .erase _ | .next .. => false
  | _ => true

omit [DecidableEq Addr] in
/-- Only erasers and the iterator may be held up. -/
theorem Request.not_heldUp {β : Type} {C : Config Key} {c : Request Addr Key} {o : Op Addr Key β}
    {h : Heap Addr Key} (hc : c.unhindered = true) : ¬ c.HeldUp C o h := by
  cases c <;> first | exact id | cases hc

namespace Ranks

section Operations

variable {C : Config Key} {free : {β : Type} → Nat → Op Addr Key β → Heap Addr Key → Prop}
  {t : Nat} {M : List (Own Addr)} {l : List (Fact Addr)} {α β : Type}
  {s : Dated Addr Key} {b : Bool} {so sk : Word} {prev cur d n : Addr} {tagged rawNext : Link Addr}

/-- The program comes to know the facts `g r`; it links none of the thread's own nodes. -/
abbrev Finds (C : Config Key) (free : {β : Type} → Nat → Op Addr Key β → Heap Addr Key → Prop)
    (t : Nat) (M : List (Own Addr)) (l : List (Fact Addr))
    (p : Code Addr Key α) (g : α → List (Fact Addr)) : Prop :=
  Spec C free t M l p (fun _ => M) g

/-- The program may run. -/
abbrev Runs (C : Config Key) (free : {β : Type} → Nat → Op Addr Key β → Heap Addr Key → Prop)
    (t : Nat) (M : List (Own Addr)) (l : List (Fact Addr))
    (p : Code Addr Key α) : Prop :=
  Finds C free t M l p fun _ => []

/-- An iteration that finds nothing out. -/
theorem Runs.either {σ : Type} {p : Code Addr Key (σ ⊕ β)} (hp : Runs C free t M l p) :
    Spec C free t M l p (Sum.elim (fun _ => M) fun _ => M)
      (Sum.elim (fun _ => []) fun _ => []) := by
  have hM : (Sum.elim (fun _ => M) fun _ => M : σ ⊕ β → List (Own Addr)) = fun _ => M := by
    funext x
    cases x <;> rfl
  have hl : (Sum.elim (fun _ => []) fun _ => [] : σ ⊕ β → List (Fact Addr)) = fun _ => [] := by
    funext x
    cases x <;> rfl
  rw [hM, hl]
  exact hp

/-! ## Walks -/

/-- The node is below the key, if that is of interest. -/
def lower (b : Bool) (so : Word) (a : Addr) : List (Fact Addr) := if b then [.below a so] else []

/-- The node, if it is one, is not below the key. -/
def upper (so : Word) (p : Option Addr) : List (Fact Addr) := p.toList.map (.above · so)

/-- What is known of a walk's place. -/
def on (b : Bool) (so : Word) (place : Place Addr) : List (Fact Addr) :=
  .linked place.1 :: (lower b so place.1 ++ after place.1 place.2.1)

omit [DecidableEq Addr] in
theorem linked_mem_on {place : Place Addr} : .linked place.1 ∈ on b so place := List.mem_cons_self

omit [DecidableEq Addr] in
theorem before_mem_on : .before prev cur ∈ on b so (prev, some cur, tagged) := by simp [on]

omit [DecidableEq Addr] in
theorem next_mem_on : .linked cur ∈ on b so (prev, some cur, tagged) := by simp [on]

omit [DecidableEq Addr] in
theorem lower_subset_on {place : Place Addr} : lower b so place.1 ⊆ on b so place := by simp [on]

/-- A loop that goes through the list ends. -/
theorem lone_on {body : Place Addr → Code Addr Key (Place Addr ⊕ β)}
    {T : Place Addr → Heap Addr Key → β → Prop} {place : Place Addr}
    (hbody : Strolls C free t body T) (hi : Ranked s) (h : ∀ f ∈ on b so place, f.holds s) :
    Alone C free t (fun b h' => ∃ place', T place' h' b) (iterate body place) s.heap := by
  have hprev : s.Linked place.1 := h _ linked_mem_on
  refine stroll_anywhere hbody hi.falls (Dated.mem_nodes.mpr hprev) fun c hc => ?_
  obtain ⟨prev, cur, tagged⟩ := place
  cases hc
  have hbefore : s.Before prev c := h _ before_mem_on
  exact ⟨Dated.mem_nodes.mpr hbefore.right, Dated.rank_lt hbefore⟩

/-- What only reads may run. -/
theorem closed_runs :
    Closed (fun {β} (o : Op Addr Key β) => o.Reads) fun _ p => Runs C free t M l p where
  ret _ := .ret (.refl M) (List.nil_subset l)
  act ho hk := .skip (quiet_of_reads ho) hk
  bind hp hf := hp.bind hf

theorem runs_publish (slot : Nat) (a : Addr) : Runs C free t M l (publish C slot a) :=
  Reading.publish closed_runs slot a

/-- Left alone, a thread finds the pointer as it has read it. -/
theorem finds_protectFrom {src : Addr} (hsrc : .linked src ∈ l) (slot : Nat) :
    Finds C free t M l (protectFrom C src slot) fun r => after src r.1 := by
  have hends : ∀ h, Alone C free t (fun _ _ => True) (protectFrom C src slot) h :=
    fun h => (lone_protectFrom src slot).halts
  unfold protectFrom at hends ⊢
  split
  · next hreval =>
    simp only [hreval, if_true] at hends
    refine .loop (fun _ => M) (fun _ => []) rfl (by simp) (fun _ => ?_) fun _ s _ _ => hends s.heap
    refine .loadNext hsrc fun r => .skip rfl fun _ => .skip rfl fun ok => ?_
    rw [Prog.ret_bind]
    split
    · exact .ret (.refl M) (by simp)
    · exact .ret (.refl M) (by simp)
  · exact .loadNext hsrc fun r => .ret (.refl M) (by simp)

/-- What is published in `HP_TABLE` is a table. -/
theorem finds_loadTable : Finds C free t M l (loadTable C) fun u => [.table u] := by
  refine .loop (fun _ => M) (fun _ => []) rfl (by simp) (fun _ => ?_) fun _ s _ _ =>
    (lone_loadTable (C := C)).halts
  refine .loadTable fun u => ?_
  rw [Prog.ret_bind]
  split
  · refine .skip rfl fun _ => .skip rfl fun ok => ?_
    rw [Prog.ret_bind]
    split
    · exact .ret (.refl M) (by simp)
    · exact .ret (.refl M) (by simp)
  · exact .ret (.refl M) (by simp)

theorem finds_follow (b : Bool) (so : Word) (hprev : .linked prev ∈ l)
    (hlow : lower b so prev ⊆ l) :
    Finds C free t M l (follow C prev) (on b so) := by
  refine (finds_protectFrom hprev HP_CUR).bind fun r => .ret (.refl M) ?_
  simp [on, hprev, List.Subset.trans hlow]

theorem finds_help (b : Bool) (so : Word) (cur : Addr)
    (hplace : on b so (prev, some cur, tagged) ⊆ l) (hcur : after cur rawNext.ptr ⊆ l) :
    Finds C free t M l (help C prev tagged rawNext) (on b so) :=
  .casNextWeak (hplace before_mem_on) hcur fun _ =>
    finds_follow b so (hplace linked_mem_on) fun _ hf => hplace (lower_subset_on hf)

theorem finds_advance (b : Bool) (so : Word) (hcur : .linked cur ∈ l) (hlow : lower b so cur ⊆ l) :
    Finds C free t M l (advance C cur) (on b so) :=
  (runs_publish HP_PREV cur).bind fun _ =>
    finds_follow b so (by simpa using hcur) (by simpa using hlow)

/-- A step over `cur`: it is helped away if it is marked, and else becomes the predecessor. -/
theorem finds_pass (b : Bool) (so : Word) (hplace : on b so (prev, some cur, tagged) ⊆ l)
    (hlow : lower b so cur ⊆ l) :
    Finds C free t M l (pass C prev cur tagged) (on b so) := by
  refine .loadNext (hplace next_mem_on) fun rawNext => ?_
  rw [Prog.ret_bind]
  split
  · exact finds_help b so cur (List.subset_append_of_subset_right _ hplace)
      (List.subset_append_left _ _)
  · exact finds_advance b so (List.mem_append_right _ (hplace next_mem_on))
      (List.subset_append_of_subset_right _ hlow)

omit [DecidableEq Addr] in
/-- The key of a node that the walk has passed. -/
theorem lower_of_lt {r : Word} (hkey : .keyed cur r ∈ l) (hlt : r < so) (s : Dated Addr Key)
    (hl : ∀ f ∈ l, f.holds s) : ∀ f ∈ lower b so cur, f.holds s := by
  intro f hf
  unfold lower at hf
  split at hf
  · obtain rfl := List.mem_singleton.mp hf
    obtain ⟨hlinked, hr⟩ : s.Linked cur ∧ s.heap.soKey cur = r := hl _ hkey
    exact ⟨hlinked, hr ▸ hlt⟩
  · cases hf

/-- A walk from a linked node below the key comes to where the key belongs. -/
theorem finds_walk (b : Bool) (so : Word) (hd : .linked d ∈ l) (hlow : lower b so d ⊆ l) :
    Finds C free t M l (walk C d so) fun place => on b so place ++ upper so place.2.1 := by
  refine (runs_publish HP_PREV d).bind fun _ => ?_
  refine (finds_follow b so (by simpa using hd) (by simpa using hlow)).bind
    fun place => ?_
  refine .loop (fun _ => M) (on b so) rfl (by simp) (fun place => ?_) fun place s hi h =>
    (lone_on (strolls_walk so) hi fun f hf => h.knows f (List.mem_append_left _ hf)).halts
  obtain ⟨prev, cur, tagged⟩ := place
  cases cur with
  | none => exact .ret (.refl M) (by simp [upper])
  | some cur =>
    refine .loadSoKey (List.mem_append_left _ next_mem_on) fun r => ?_
    rw [Prog.ret_bind]
    split
    · next hle =>
      refine .infer [.above cur so] (fun s hi hl f hf => ?_) (.ret (.refl M) ?_)
      · obtain rfl := List.mem_singleton.mp hf
        obtain ⟨hlinked, hr⟩ : s.Linked cur ∧ s.heap.soKey cur = r := hl _ List.mem_cons_self
        exact ⟨hlinked, hr ▸ hle⟩
      · grind [upper]
    · next hgt =>
      refine .infer (lower b so cur) (fun s hi hl =>
        lower_of_lt List.mem_cons_self (BitVec.not_le.mp hgt) s hl) ?_
      refine (finds_pass b so (by grind)
        (by grind)).bind fun place => .ret (.refl M) (by simp)

/-! ## Buckets -/

/-- A node of the thread is linked behind a dummy. -/
theorem links_insertFrom {start : Addr} {i : Nat} {w : Option (Option Addr)} (hi : i < 2 ^ 63)
    (hstart : .keyed start (dummySplitOrderKey i) ∈ l) (hlt : dummySplitOrderKey i < so) :
    Spec C free t (.node n (some so) w :: M) l (insertFrom C start n) (fun _ => M)
      fun _ => [.keyed n so] := by
  refine .blank (.loadOwnKey ?_)
  rw [Prog.ret_bind]
  refine .infer [.linked start, .below start so] (fun s _ hl f hf => ?_) ?_
  · obtain ⟨hlinked, hkey⟩ : s.Linked start ∧ s.heap.soKey start = _ := hl _ hstart
    rcases List.mem_cons.mp hf with rfl | hf
    · exact hlinked
    · obtain rfl := List.mem_singleton.mp hf
      exact ⟨hlinked, hkey ▸ hlt⟩
  refine .loop (fun _ => .node n (some so) none :: M) (fun _ => []) rfl (by simp) (fun _ => ?_)
    fun _ s his h => ?_
  · refine (finds_walk true so (by simp) (by simp [lower])).bind fun place => ?_
    obtain ⟨prev, cur, tagged⟩ := place
    refine .storeNext (fun c hc => by subst hc; simp [on]) ?_
    rw [Prog.ret_bind]
    split
    · exact .blank (.ret (.refl _) (by simp))
    · next hm =>
      refine .link (by simpa using hm) (by simp [on, lower]) (fun c hc => ?_) ?_ ?_
      · subst hc
        simp [upper]
      · exact .ret (.refl _) (by simp)
      · exact .blank (.ret (.refl _) (by simp))
  · -- alone, the walk finds a predecessor that is not marked, and nothing changes before the
    -- compare-exchange
    obtain ⟨hlinked, hkey⟩ : s.Linked start ∧ s.heap.soKey start = dummySplitOrderKey i :=
      h.knows (.keyed start _) (by simp [hstart])
    have hn : n ∉ s.nodes := fun hmem =>
      Aged.not_linked (h.own _ List.mem_cons_self).1 (Dated.mem_nodes.mp hmem)
    refine .last ((lone_walk so his.falls (Dated.mem_nodes.mpr hlinked)
      (his.unmarked_dummy hi hkey)).bind ?_)
    rintro ⟨prev, cur, tagged⟩ h' ⟨hw, -, -⟩
    have htagged : tagged = h'.next prev := congrArg (fun p => p.2.2) hw.fresh
    have hm : tagged.marked = false := htagged ▸ (hw.known trivial).1
    have hne : prev ≠ n := by
      rintro rfl
      exact hn hw.prev
    refine .act rfl ?_
    rw [Prog.ret_bind, hm, if_neg (by simp)]
    refine .act (r := true) (x := (h'.setNext n (.plain cur)).setNext prev (.plain (some n))) ?_
      (.ret ⟨(), rfl, trivial⟩)
    show some (Heap.compareExchange _ _ _ _ _) = _
    rw [Heap.compareExchange, if_pos ⟨(Function.update_of_ne hne _ _).trans htagged.symm, rfl⟩]

/-- A bucket is filled, after its parent. -/
theorem finds_initializeBucketAt {u depth i : Nat} (hu : .table u ∈ l) (hi : i < 2 ^ (u + 1))
    (hlt : i < 2 ^ 63) (hdepth : i < depth) :
    Finds C free t M l (initializeBucketAt C u depth i) fun _ => [.filled u i] := by
  induction depth generalizing i l with
  | zero => exact absurd hdepth (Nat.not_lt_zero i)
  | succ depth ih =>
    refine .loadBucket hu fun r h0 => ?_
    rw [Prog.ret_bind]
    split
    · next hsome =>
      obtain ⟨d, rfl⟩ := Option.isSome_iff_exists.mp hsome
      exact .ret (.refl M) (by simp)
    · next hnone =>
      have hi0 : i ≠ 0 := fun hi0 => hnone (h0 hi0)
      have hparent := parentBucket_lt hi0 (hlt.trans (by decide))
      rw [if_pos hi0]
      refine (ih (by simp [hu]) (hparent.trans hi) (hparent.trans hlt) (by omega)).bind fun _ => ?_
      refine .allocNode fun d => .storeSoKey (.loadFilled (by simp) fun start => ?_)
      refine (links_insertFrom (hparent.trans hlt) List.mem_cons_self
        (dummy_parent_lt hi0 (hlt.trans (by decide)))).bind fun _ => ?_
      exact .casBucket (by simp [hu]) (by simp) hi fun _ => .ret (.refl M) (by simp)

/-- What is known of the two nodes that `locate` finds. -/
abbrev spot (b : Bool) (so : Word) (x : Addr × Option Addr) : List (Fact Addr) :=
  on b so (x.1, x.2, .null) ++ upper so x.2

/-- A thread that has been left alone has found the place of the key `so`. -/
def Arrives (t : Nat) (M : List (Own Addr)) (l : List (Fact Addr)) (mixed so : Word)
    (x : Addr × Option Addr) (h : Heap Addr Key) : Prop :=
  ∃ s : Dated Addr Key, s.heap = h ∧ Ranked s ∧ Has t M (spot false so x ++ l) s ∧
    Located s.nodes s.rank so h x ∧ Rooted s.nodes mixed h

variable {mixed : Word}

/-- From a filled bucket, the walk of a thread that is left alone finds the place of the key. -/
theorem lone_locate_filled (hi : Ranked s) (h : Has t M l s)
    (hd : s.heap.bucket s.heap.table (bucketOf mixed (s.heap.size s.heap.table)) = some d) :
    Alone C free t (Arrives t M l mixed so) (locate C mixed so) s.heap := by
  have hlinked := hi.bucket _ _ _ hd
  have hunmarked : ∀ y : Dated Addr Key, Ranked y → y.heap.soKey d = s.heap.soKey d →
      (y.heap.next d).marked = false := by
    intro y hy hkey
    obtain ⟨hdummy, hlt⟩ := hi.dummy _ _ _ hd
    exact hy.unmarked_dummy hlt (hkey.trans hdummy)
  refine .last (lone_loadTable.bind ?_)
  rintro _ h ⟨rfl, rfl⟩
  refine .act rfl (.act rfl ?_)
  simp only [hd]
  have hknow : Has t M (.linked d :: l) s := h.learn fun f hf => by
    rcases List.mem_cons.mp hf with rfl | hf
    · exact hlinked
    · exact h.knows f hf
  refine ((finds_walk false so List.mem_cons_self (by simp [lower])).alone hi hknow
    (lone_walk so hi.falls (Dated.mem_nodes.mpr hlinked) (hunmarked s hi rfl))).bind ?_
  rintro ⟨prev, cur, tagged⟩ _ ⟨⟨hw, htidied, habove⟩, y, rfl, hy, hhas⟩
  obtain ⟨hm, hreached⟩ := hw.known trivial
  have hcur : cur = (y.heap.next prev).ptr := congrArg (fun p => p.2.1) hw.fresh
  have hprev : y.Linked prev := hhas.knows (.linked prev) (by simp [on])
  have hbucket : y.heap.bucket y.heap.table (bucketOf mixed (y.heap.size y.heap.table)) =
      some d := by
    rw [htidied.rest]
    exact hd
  have hkey : y.heap.soKey d = s.heap.soKey d := by rw [htidied.rest]
  refine .ret ⟨_, rfl, y, rfl, hy, hhas.mono (by grind [on]),
    ⟨hy.falls, Dated.mem_nodes.mpr hprev, ?_, htidied.listed hd hreached, habove⟩, d,
    Dated.mem_nodes.mpr (hy.bucket _ _ _ hbucket), hbucket,
    hunmarked y hy hkey⟩
  rw [hcur, Link.plain, ← hm]

/-- Where the bucket has to be made first, the table may turn out to be a later one; there is an end
to that. -/
theorem lone_locate_ranked (hi : Ranked s) (h : Has t M l s) :
    Alone C free t (Arrives t M l mixed so) (locate C mixed so) s.heap := by
  induction hn : 30 - s.heap.table using Nat.strongRecOn generalizing s with
  | _ n ih =>
    cases hd : s.heap.bucket s.heap.table (bucketOf mixed (s.heap.size s.heap.table)) with
    | some d => exact lone_locate_filled hi h hd
    | none =>
      have hlt := hi.grown.lt_tables (Nat.le_refl s.heap.table)
      have hsize := hi.grown.size _ hlt
      have hsmall := hi.grown.small
      refine .unroll (lone_loadTable.bind ?_)
      rintro _ h₁ ⟨rfl, rfl⟩
      refine .act rfl (.act rfl ?_)
      simp only [hd]
      rw [hsize]
      have hb : bucketOf mixed (2 ^ (s.heap.table + 1)) < 2 ^ (s.heap.table + 1) :=
        bucketOf_lt (by omega)
      have hknow : Has t M (.table s.heap.table :: l) s := h.learn fun f hf => by
        rcases List.mem_cons.mp hf with rfl | hf
        · exact Nat.le_refl _
        · exact h.knows f hf
      have hinit : Finds C free t M (.table s.heap.table :: l) (initializeBucket C s.heap.table
          (bucketOf mixed (2 ^ (s.heap.table + 1)))) _ :=
        finds_initializeBucketAt List.mem_cons_self hb
          (hb.trans_le (Nat.pow_le_pow_right (by decide) (by omega))) (Nat.lt_succ_self _)
      refine (hinit.alone hi hknow (hinit s hi hknow).halts).bind ?_
      rintro _ _ ⟨-, y, rfl, hy, hhas⟩
      obtain ⟨hle, hfilled⟩ : s.heap.table ≤ y.heap.table ∧
          (y.heap.bucket s.heap.table _).isSome = true :=
        hhas.knows (.filled s.heap.table (bucketOf mixed (2 ^ (s.heap.table + 1)))) (by simp)
      have hown : Has t M l y := hhas.mono (by grind)
      refine .ret ?_
      rcases Nat.eq_or_lt_of_le hle with heq | hlt'
      · obtain ⟨d, hd⟩ := Option.isSome_iff_exists.mp hfilled
        refine lone_locate_filled hy hown (d := d) ?_
        rw [hy.grown.size _ (hy.grown.lt_tables (Nat.le_refl _)), ← heq]
        exact hd
      · have hsmall' := hy.grown.small
        have hlt'' := hy.grown.lt_tables (Nat.le_refl y.heap.table)
        exact ih _ (by omega) hy hown rfl

/-- What `locate` answers with is where the key belongs. -/
theorem finds_locate (b : Bool) (so : Word) (hb : b = true → Suits mixed so) :
    Finds C free t M l (locate C mixed so) (spot b so) := by
  refine .loop (fun _ => M) (fun _ => []) rfl (by simp) (fun _ => ?_) fun _ s hi h =>
    (lone_locate_ranked hi h).halts
  refine finds_loadTable.bind fun u => .loadSize (by simp) fun hu => ?_
  have hlt : bucketOf mixed (2 ^ (u + 1)) < 2 ^ (u + 1) := bucketOf_lt (by omega)
  refine .loadBucket (by simp) fun r _ => ?_
  cases r with
  | none =>
    exact (finds_initializeBucketAt (by simp) hlt
      (hlt.trans_le (Nat.pow_le_pow_right (by decide) (by omega))) (Nat.lt_succ_self _)).bind
        fun _ => .ret (.refl M) (by simp)
  | some d =>
    refine .infer (.linked d :: lower b so d) (fun s _ hl f hf => ?_) ?_
    · obtain ⟨hlinked, hkey⟩ : s.Linked d ∧
          s.heap.soKey d = dummySplitOrderKey (bucketOf mixed (2 ^ (u + 1))) :=
        hl (.keyed d (dummySplitOrderKey (bucketOf mixed (2 ^ (u + 1))))) (by simp)
      rcases List.mem_cons.mp hf with rfl | hf
      · exact hlinked
      · unfold lower at hf
        split at hf
        · next hbt =>
          obtain rfl := List.mem_singleton.mp hf
          exact ⟨hlinked, hkey ▸ (hb hbt).dummy_lt (by omega)⟩
        · cases hf
    · refine (finds_walk b so (by simp) (by simp)).bind fun place => ?_
      exact .ret (.refl M) (by grind [on])

/-! ## Runs of equal split-order keys -/

theorem runs_headMatches (k : Key) (cur : Addr) (fnx : Link Addr) :
    Runs C free t M l (headMatches C k cur fnx) :=
  Reading.headMatches closed_runs k cur fnx

/-- A scan answers with two linked nodes, the second one of the run. -/
theorem finds_scanRun (so sk : Word) (k : Key)
    (hplace : on false so (prev, some cur, .null) ⊆ l) :
    Finds C free t M l (scanRun C sk k prev cur) fun r =>
      r.toList.flatMap fun p => [.linked p.1, .keyed p.2 sk] := by
  refine .loop (fun _ => M) (on false so) rfl hplace (fun place => ?_) fun place s hi h =>
    (lone_on (strolls_scan sk k) hi fun f hf => h.knows f (List.mem_append_left _ hf)).halts
  obtain ⟨rprev, rcur, tagged⟩ := place
  cases rcur with
  | none => exact .ret (.refl M) (by simp)
  | some rcur =>
    refine .loadSoKey (List.mem_append_left _ next_mem_on) fun r => ?_
    rw [Prog.ret_bind]
    split
    · exact .ret (.refl M) (by simp)
    · next hsk =>
      obtain rfl : r = sk := not_not.mp hsk
      refine .loadNext (by grind [next_mem_on]) fun rnx => ?_
      rw [Prog.ret_bind]
      split
      · exact (finds_help false so rcur (by grind) (by grind)).bind
          fun place => .ret (.refl M) (by simp)
      · refine .skip rfl fun k' => ?_
        rw [Prog.ret_bind]
        split
        · exact .ret (.refl M) (by grind [linked_mem_on])
        · exact (finds_advance false so (by grind [next_mem_on]) (by simp [lower])).bind
            fun place => .ret (.refl M) (by simp)

theorem runs_inRun (k : Key) {x : Addr × Option Addr} (hx : spot b so x ⊆ l) :
    Runs C free t M l (inRun C sk k x.1 x.2) := by
  obtain ⟨prev, cur⟩ := x
  cases cur with
  | none => exact .ret (.refl M) (by simp)
  | some cur =>
    refine .loadSoKey (by grind [next_mem_on]) fun r => ?_
    rw [Prog.ret_bind]
    split
    · refine .loadNext (by grind [next_mem_on]) fun fnx => (runs_headMatches k cur fnx).bind
        fun ok => ?_
      split
      · exact .ret (.refl M) (by simp)
      · exact (finds_scanRun so sk k (by grind [on, lower])).bind fun r =>
          .ret (.refl M) (by simp)
    · exact .ret (.refl M) (by simp)

/-- Whether a key is in the run is found out without changing the order. -/
theorem lone_inRun {L : Finset Addr} {r : Addr → Nat} {h : Heap Addr Key} {x : Addr × Option Addr}
    (k : Key) (hl : Located L r so h x) :
    Alone C free t (fun _ h' => Falls L r h' ∧ Tidied L r h h') (inRun C sk k x.1 x.2) h := by
  obtain ⟨prev, cur⟩ := x
  cases cur with
  | none => exact .ret ⟨hl.falls, .rfl⟩
  | some cur =>
    refine .act rfl ?_
    rw [Prog.ret_bind]
    split
    · refine .act rfl ((lone_headMatches k cur _).bind ?_)
      rintro ok _ ⟨rfl, -⟩
      split
      · exact .ret ⟨hl.falls, .rfl⟩
      · refine (lone_scanRun hl).bind ?_
        rintro _ h' ⟨hf, htidied, -⟩
        exact .ret ⟨hf, htidied⟩
    · exact .ret ⟨hl.falls, .rfl⟩

/-! ## Insertion -/

/-- One attempt of `insert_node`, behind the node that `locate` has found. -/
def insertAttempt (C : Config Key) (n : Addr) (sk : Word) (k : Key) (x : Addr × Option Addr) :
    Code Addr Key (Unit ⊕ InsertResult) := do
  if ← inRun C sk k x.1 x.2 then
    return .inr .INSERT_DUPLICATE
  else
    perform (.storeNext n (.plain x.2))
    let expected ← perform (.loadNext x.1)
    if expected.marked then
      return .inl ()
    else if expected.ptr = x.2 then
      if ← perform (.casNextWeak x.1 expected (.plain (some n))) then
        perform .addCount
        return .inr .INSERT_OK
      else
        return .inl ()
    else
      return .inl ()

theorem insertNode_eq (k : Key) : insertNode C n mixed sk k = (perform (.storeSoKey n sk)).bind
    fun _ => iterate (fun (_ : Unit) => (locate C mixed sk).bind (insertAttempt C n sk k)) () :=
  rfl

/-- One round of an insertion, from the place that `locate` has found. -/
theorem spec_insertAttempt (k : Key) {w : Option (Option Addr)} {x : Addr × Option Addr}
    (hx : spot true sk x ⊆ l) :
    Spec C free t (.node n (some sk) w :: M) l (insertAttempt C n sk k x)
      (Sum.elim (fun _ => .node n (some sk) none :: M) fun _ => M) fun _ => [] := by
  refine (runs_inRun k hx).bind fun dup => ?_
  split
  · exact .ret (List.sublist_cons_self _ _) (by simp)
  · refine .storeNext (fun c hc => ?_) (.loadNext (by grind [on]) fun e => ?_)
    · simp only [spot, on, hc] at hx
      grind [after]
    · rw [Prog.ret_bind]
      split
      · exact .blank (.ret (.refl _) (by simp))
      · next hm =>
        split
        · refine .link (by simpa using hm) (by grind [on, lower]) (fun c hc => ?_) ?_ ?_
          · simp only [spot, on, hc] at hx
            grind [upper]
          · exact .skip rfl fun _ => .ret (.refl _) (by simp)
          · exact .blank (.ret (.refl _) (by simp))
        · exact .blank (.ret (.refl _) (by simp))

section Lone

variable {L : Finset Addr} {r : Addr → Nat} {h : Heap Addr Key} {v : Link Addr}

theorem Falls.write (hf : Falls L r h) (hn : n ∉ L) : Falls L r (h.setNext n v) := by
  intro a ha c hc
  rw [Unlinked.succ_setNext, Function.update_of_ne (ne_of_mem_of_not_mem ha hn)] at hc
  exact hf a ha c hc

theorem weight_write (hn : n ∉ L) : weight L r (h.setNext n v) = weight L r h := by
  refine Finset.sum_congr rfl fun a ha => ?_
  rw [Unlinked.succ_setNext, Function.update_of_ne (ne_of_mem_of_not_mem ha hn)]

theorem Rooted.write (hr : Rooted L mixed h) (hn : n ∉ L) : Rooted L mixed (h.setNext n v) := by
  obtain ⟨d, hd, hbucket, hm⟩ := hr
  refine ⟨d, hd, hbucket, ?_⟩
  rw [← hm]
  exact congrArg Link.marked (Function.update_of_ne (ne_of_mem_of_not_mem hd hn) _ _)

/-- Alone, an attempt fails only if the scan of the run has unlinked nodes. -/
theorem lone_insertAttempt (mixed : Word) (k : Key) {x : Addr × Option Addr}
    (hl : Located L r so h x) (hn : n ∉ L) :
    Alone C free t (fun y h' => y = .inl () → Falls L r h' ∧
      (Rooted L mixed h → Rooted L mixed h') ∧ weight L r h' < weight L r h)
      (insertAttempt C n sk k x) h := by
  have hne : x.1 ≠ n := fun hxn => hn (hxn ▸ hl.prev)
  refine (lone_inRun k hl).bind ?_
  rintro dup h₁ ⟨hf, htidied⟩
  have hother : (h₁.setNext n (.plain x.2)).next x.1 = h₁.next x.1 := Function.update_of_ne hne _ _
  split
  · exact .ret fun hy => by cases hy
  · refine .act rfl (.act (r := h₁.next x.1) (congrArg some (Prod.ext hother rfl)) ?_)
    have hm : (h₁.next x.1).marked = false := by
      apply htidied.unmarked
      rw [hl.next]
      rfl
    rw [Prog.ret_bind, hm, if_neg (by simp)]
    split
    · refine .act (r := true) (x := (h₁.setNext n (.plain x.2)).setNext x.1 (.plain (some n))) ?_
        (.act rfl (.ret fun hy => by cases hy))
      show some (Heap.compareExchange _ _ _ _ _) = _
      rw [Heap.compareExchange, if_pos ⟨hother, rfl⟩]
    · next hptr =>
      refine .ret fun _ => ⟨hf.write hn, fun hr => (htidied.rooted hr).write hn, ?_⟩
      rw [weight_write hn]
      rcases htidied.weight with rfl | hlt
      · rw [hl.next] at hptr
        exact absurd rfl hptr
      · exact hlt

/-- Alone, the attempts end: after the first one no node is linked, and each unlinks some. -/
theorem lone_inserting (k : Key) (hf : Falls L r h) (hr : Rooted L mixed h) (hn : n ∉ L) :
    Alone C free t (fun _ _ => True) (iterate (fun (_ : Unit) =>
      (locate C mixed sk).bind (insertAttempt C n sk k)) ()) h := by
  induction hw : weight L r h using Nat.strongRecOn generalizing h with
  | _ w ih =>
    refine .unroll ((lone_locate hf hr).bind ?_)
    rintro x h₁ ⟨hl, htidied⟩
    refine (lone_insertAttempt mixed k hl hn).mono fun y h₂ hy => ?_
    cases y with
    | inr res => trivial
    | inl u =>
      obtain ⟨hf', hr', hlt⟩ := hy rfl
      refine ih _ ?_ hf' (hr' (htidied.rooted hr)) rfl
      rcases htidied.weight with rfl | hlt'
      · exact hw ▸ hlt
      · exact hw ▸ hlt.trans hlt'

end Lone

/-- The node is linked, or the thread forgets it. -/
theorem runs_insertNode (k : Key) {w : Option Word} {w' : Option (Option Addr)}
    (hs : Suits mixed sk) :
    Spec C free t (.node n w w' :: M) l (insertNode C n mixed sk k) (fun _ => M) fun _ => [] := by
  rw [insertNode_eq]
  refine .blank (.storeSoKey ?_)
  rw [Prog.ret_bind]
  refine .loop (fun _ => .node n (some sk) none :: M) (fun _ => []) rfl (by simp) (fun _ => ?_)
    fun _ s hi h => ?_
  · refine (finds_locate true sk fun _ => hs).bind fun x => ?_
    exact (spec_insertAttempt k (by simp)).post fun r _ _ _ _ f hf => by
      cases r <;> cases hf
  · refine .unroll ((lone_locate_ranked hi h).bind ?_)
    rintro x _ ⟨y, rfl, hy, hhas, hl, hr⟩
    have hn : n ∉ y.nodes := fun hmem =>
      Aged.not_linked (hhas.own _ List.mem_cons_self).1 (Dated.mem_nodes.mp hmem)
    refine (lone_insertAttempt mixed k hl hn).mono fun z h' hz => ?_
    cases z with
    | inr res => trivial
    | inl u =>
      obtain ⟨hf, hr', -⟩ := hz rfl
      exact lone_inserting k hf (hr' hr) hn

theorem runs_findNode (k : Key) : Runs C free t M l (findNode C k mixed sk) := by
  refine (finds_locate false sk (fun hb => by cases hb)).bind fun x => ?_
  obtain ⟨prev, cur⟩ := x
  cases cur with
  | none => exact .ret (.refl M) (by simp)
  | some cur =>
    refine .loadSoKey (by simp [on]) fun r => ?_
    rw [Prog.ret_bind]
    split
    · exact .ret (.refl M) (by simp)
    · refine .loadNext (by simp [on]) fun rnx => (runs_headMatches k cur rnx).bind fun ok => ?_
      split
      · exact .ret (.refl M) (by simp)
      · exact (finds_scanRun sk sk k (by grind [on])).bind fun r => .ret (.refl M) (by simp)

/-! ## Erasure -/

section Erasure

variable {target : Addr}
  (hfree : ∀ (o : Op Addr Key Bool) (h : Heap Addr Key), Obstructed sk o h → ¬ free t o h)

/-- What is known of the two nodes of a scan by pointer. -/
def pair (st : Addr × Option Addr) : List (Fact Addr) := .linked st.1 :: st.2.toList.map .linked

theorem finds_pointerScan {st : Addr × Option Addr} (hst : pair st ⊆ l) :
    Finds C free t M l (iterate (pointerStep C target sk) st) fun r => r.toList.map .linked := by
  refine .loop (fun _ => M) pair rfl hst (fun st => ?_) fun st s hi h => ?_
  · obtain ⟨rp, rc⟩ := st
    cases rc with
    | none => exact .ret (.refl M) (by simp)
    | some rc =>
      refine .loadSoKey (by simp [pair]) fun r => ?_
      rw [Prog.ret_bind]
      split
      · exact .ret (.refl M) (by simp)
      · split
        · exact .ret (.refl M) (by simp [pair])
        · refine (finds_advance false sk (by simp [pair]) (by simp [lower])).bind
            fun place => .ret (.refl M) ?_
          obtain ⟨prev, cur, tagged⟩ := place
          cases cur <;> simp [pair, on]
  · obtain ⟨rp, rc⟩ := st
    refine (lone_pointerScan hi.falls fun c hc => Dated.mem_nodes.mpr ?_).halts
    exact h.knows (.linked c) (by simp [pair, hc])

include hfree in
/-- Alone, the eraser finds its node unlinked, or its pointer in an unmarked predecessor, or it is
behind a marked one. -/
theorem runs_relocate (htarget : .keyed target sk ∈ l) :
    Runs C free t M l (relocate C target mixed sk) := by
  refine .infer [.linked target] (fun s _ hl f hf => ?_) ?_
  · obtain rfl := List.mem_singleton.mp hf
    exact (hl _ htarget).1
  refine .loop (fun _ => M) (fun _ => []) rfl (by simp) (fun _ => ?_) fun _ s hi h => ?_
  · refine (finds_locate false sk (fun hb => by cases hb)).bind fun x => ?_
    obtain ⟨p, c⟩ := x
    refine (finds_pointerScan (by cases c <;> simp [pair, on])).bind fun r => ?_
    cases r with
    | none => exact .ret (.refl M) (by simp)
    | some rp =>
      refine .loadNext (by simp) fun repl => .unlink (fun _ _ => .inr rfl) (by simp) (by simp)
        fun ok => ?_
      rw [Prog.ret_bind]
      split
      · exact .ret (.refl M) (by simp)
      · exact .ret (.refl M) (by simp)
  · refine .last ((lone_locate_ranked hi h).bind ?_)
    rintro ⟨p, c⟩ _ ⟨y, rfl, -, -, hl, -⟩
    have hnext : y.heap.succ p = c := congrArg Link.ptr hl.next
    refine (lone_pointerScan hl.falls fun d hd => (hl.falls p hl.prev d (hnext.trans hd)).1).bind ?_
    rintro r _ ⟨rfl, hscan⟩
    cases r with
    | none => exact .ret ⟨(), rfl, trivial⟩
    | some rp =>
      obtain ⟨⟨hsucc, hlisted, hm⟩, hkey⟩ :=
        hscan ⟨hnext, hl.listed, .inl (congrArg Link.marked hl.next)⟩ rp rfl
      refine .act rfl ?_
      cases hmarked : (y.heap.next rp).marked with
      | false =>
        have hplain : y.heap.next rp = .plain (some target) := by
          rw [Link.plain, ← hsucc, ← hmarked]
          rfl
        refine .act (r := true) (x := y.heap.setNext rp (y.heap.next target).clearMark) ?_
          (.ret ⟨(), rfl, trivial⟩)
        show some (Heap.compareExchange _ _ _ _ _) = _
        rw [Heap.compareExchange, if_pos ⟨hplain, rfl⟩]
      | true =>
        -- the predecessor is marked: this is where the eraser is held up
        refine .barred (hfree _ _
          ⟨target, rfl, ?_, hm.resolve_left (by simp [hmarked]), hkey, hlisted⟩)
        rw [← hsucc, ← hmarked]
        rfl

include hfree in
/-- An erased node is unlinked at once or on the second path. -/
theorem runs_finishErase (hprev : .linked prev ∈ l) (hcur : .keyed cur sk ∈ l) :
    Runs C free t M l (finishErase C prev cur mixed sk) := by
  have hunlink : Runs C free t M (.linked cur :: l) (unlinkMarked C prev cur mixed sk) := by
    refine .loadNext List.mem_cons_self fun tnext => .unlink (fun _ _ => .inl rfl) (by simp [hprev])
      (by simp) fun ok => ?_
    rw [Prog.ret_bind]
    split
    · exact .ret (.refl M) (by simp)
    · exact runs_relocate hfree (by simp [hcur])
  refine .infer [.linked cur] (fun s _ hl f hf => ?_) ?_
  · obtain rfl := List.mem_singleton.mp hf
    exact (hl _ hcur).1
  · exact hunlink.bind fun _ => .skip rfl fun _ => .skip rfl fun _ => .ret (.refl M) (by simp)

theorem runs_markHead (k : Key) (hs : isRegular sk = true) (hcur : .keyed cur sk ∈ l)
    (hlinked : .linked cur ∈ l) : Runs C free t M l (markHead C k cur) := by
  refine .loadNext hlinked fun fnx => (runs_headMatches k cur fnx).bind fun ok => ?_
  split
  · exact .mark sk (by simp [hcur]) hs fun _ => .ret (.refl M) (by simp)
  · exact .ret (.refl M) (by simp)

include hfree in
/-- Behind a head that is not the one, the eraser scans the run. -/
theorem runs_eraseScan (so : Word) (k : Key) (hs : isRegular sk = true)
    (hplace : on false so (prev, some cur, .null) ⊆ l) :
    Runs C free t M l (eraseScan C k mixed sk prev cur) := by
  refine (finds_scanRun so sk k hplace).bind fun r => ?_
  cases r with
  | none => exact .ret (.refl M) (by simp)
  | some p =>
    obtain ⟨rprev, rcur⟩ := p
    refine .infer [.linked rcur] (fun s _ hl f hf => ?_) ?_
    · obtain rfl := List.mem_singleton.mp hf
      have hkeyed : s.Linked rcur ∧ _ := hl (.keyed rcur sk) (by simp)
      exact hkeyed.1
    refine .loadNext (by simp) fun tnext => ?_
    rw [Prog.ret_bind]
    split
    · exact .ret (.refl M) (by simp)
    · refine .mark sk (by simp) hs fun ok => ?_
      rw [Prog.ret_bind]
      split
      · exact (runs_finishErase hfree (by simp) (by simp)).bind fun _ => .ret (.refl M) (by simp)
      · exact .ret (.refl M) (by simp)

omit [DecidableEq Addr] in
/-- What a thread has after it has written a pointer of a linked node. -/
theorem Has.setNext [DecidableEq Addr] {a : Addr} {v : Link Addr} (h : Has t M l s)
    (ha : s.Linked a) : Has t M l (s.withHeap (s.heap.setNext a v)) :=
  ⟨h.nodup, fun x hx => Own.holds_all (fun _ => keeps_setNext ha) (h.own x hx),
    fun f hf => Fact.holds_keep (keeps_setNext (t := t) ha) (h.knows f hf)⟩

include hfree in
/-- Alone, the slow path marks the node that it finds. -/
theorem lone_eraseScan (so : Word) (k : Key) (hs : isRegular sk = true) (hi : Ranked s)
    (h : Has t M l s) (hplace : on false so (prev, some cur, .null) ⊆ l) :
    Alone C free t (fun x _ => ∃ b, x = .inr b) (eraseScan C k mixed sk prev cur) s.heap := by
  have hfind : Finds C free t M l (scanRun C sk k prev cur) _ := finds_scanRun so sk k hplace
  have hscan := hfind.alone hi h
    (lone_on (strolls_scan sk k) hi fun f hf => h.knows f (hplace hf))
  refine hscan.bind ?_
  rintro r _ ⟨⟨-, hunmarked⟩, y, rfl, hy, hhas⟩
  cases r with
  | none => exact .ret ⟨false, rfl⟩
  | some p =>
    obtain ⟨rprev, rcur⟩ := p
    have hm : (y.heap.next rcur).marked = false := hunmarked _ rfl
    obtain ⟨hlinked, hkey⟩ : y.Linked rcur ∧ y.heap.soKey rcur = sk :=
      hhas.knows (.keyed rcur sk) (by simp)
    refine .act rfl ?_
    rw [Prog.ret_bind, hm, if_neg (by simp)]
    refine .act (r := true) (x := y.heap.setNext rcur (y.heap.next rcur).setMarked) ?_ ?_
    · show some (Heap.compareExchange _ _ _ _ _) = _
      rw [Heap.compareExchange, if_pos ⟨rfl, rfl⟩]
    · rw [Prog.ret_bind, if_pos rfl]
      have hy' := hy.setNext hlinked (v := (y.heap.next rcur).setMarked)
        (fun b hb => hy.before rcur b hlinked hb) fun _ => hkey ▸ hs
      refine SharedObject.Alone.bind ((runs_finishErase hfree (C := C)
        (l := [.linked rprev, .keyed rcur sk]) (by simp) (by simp)).halts hy'
        ((hhas.mono (by simp)).setNext hlinked)) ?_
      rintro _ _ -
      exact .ret ⟨true, rfl⟩

/-- One attempt of `erase_node`, from the nodes that `locate` has found. -/
def eraseAttempt (C : Config Key) (k : Key) (mixed sk : Word) :
    Addr × Option Addr → Code Addr Key (Unit ⊕ Bool)
  | (_, none) => return .inr false
  | (prev, some cur) => do
    if (← perform (.loadSoKey cur)) ≠ sk then
      return .inr false
    else if ← markHead C k cur then
      finishErase C prev cur mixed sk
      return .inr true
    else
      eraseScan C k mixed sk prev cur

theorem eraseNode_eq (k : Key) : (eraseNode C k mixed sk : Code Addr Key Bool) =
    iterate (fun (_ : Unit) => (locate C mixed sk).bind (eraseAttempt C k mixed sk)) () := by
  unfold eraseNode
  congr 1
  funext _
  simp only [Prog.bind_eq]
  congr 1
  funext x
  obtain ⟨prev, cur⟩ := x
  cases cur <;> rfl

include hfree in
theorem runs_eraseAttempt (k : Key) (hs : isRegular sk = true) {x : Addr × Option Addr}
    (hx : spot false sk x ⊆ l) : Runs C free t M l (eraseAttempt C k mixed sk x) := by
  obtain ⟨prev, cur⟩ := x
  cases cur with
  | none => exact .ret (.refl M) (by simp)
  | some cur =>
    have hprev : .linked prev ∈ l := hx (List.mem_append_left _ linked_mem_on)
    have hcur : .linked cur ∈ l := hx (List.mem_append_left _ next_mem_on)
    refine .loadSoKey hcur fun r => ?_
    rw [Prog.ret_bind]
    split
    · exact .ret (.refl M) (by simp)
    · next hsk =>
      obtain rfl : r = sk := not_not.mp hsk
      refine (runs_markHead k hs (by simp) (by simp [hcur])).bind fun ok => ?_
      split
      · exact (runs_finishErase hfree (by simp [hprev]) (by simp)).bind fun _ =>
          .ret (.refl M) (by simp)
      · exact runs_eraseScan hfree r k hs (by grind)

include hfree in
/-- Left alone, an eraser is done after one round. -/
theorem lone_eraseAttempt (k : Key) (hs : isRegular sk = true) {x : Addr × Option Addr}
    (hi : Ranked s) (h : Has t M l s) (hx : spot false sk x ⊆ l) :
    Alone C free t (fun z _ => ∃ b, z = .inr b) (eraseAttempt C k mixed sk x) s.heap := by
  obtain ⟨prev, cur⟩ := x
  cases cur with
  | none => exact .ret ⟨false, rfl⟩
  | some cur =>
    have hprev : .linked prev ∈ l := hx (List.mem_append_left _ linked_mem_on)
    have hcur : .linked cur ∈ l := hx (List.mem_append_left _ next_mem_on)
    refine .act rfl ?_
    rw [Prog.ret_bind]
    split
    · exact .ret ⟨false, rfl⟩
    · next hsk =>
      have hkey : s.heap.soKey cur = sk := not_not.mp hsk
      have hlinked : s.Linked cur := h.knows (.linked cur) hcur
      have hknow : Has t M (.keyed cur sk :: l) s := h.learn fun f hf => by
        rcases List.mem_cons.mp hf with rfl | hf
        · exact ⟨hlinked, hkey⟩
        · exact h.knows f hf
      have hmark : Runs C free t M (.keyed cur sk :: l) (markHead C k cur) :=
        runs_markHead k hs (by simp) (by simp [hcur])
      refine (hmark.alone hi hknow (hmark.halts hi hknow)).bind ?_
      rintro ok _ ⟨-, y, rfl, hy, hhas⟩
      split
      · refine SharedObject.Alone.bind ((runs_finishErase hfree (l := .keyed cur sk :: l)
          (by simp [hprev]) (by simp)).halts hy hhas) ?_
        rintro _ _ -
        exact .ret ⟨true, rfl⟩
      · exact lone_eraseScan hfree sk k hs hy hhas (by grind)

include hfree in
/-- The rounds of an erasure end. -/
theorem runs_eraseNode (k : Key) (hs : isRegular sk = true) :
    Runs C free t M l (eraseNode C k mixed sk) := by
  rw [eraseNode_eq]
  refine .loop (fun _ => M) (fun _ => []) rfl (by simp) (fun _ => ?_) fun _ s hi h => ?_
  · refine (finds_locate false sk (fun hb => by cases hb)).bind fun x => ?_
    exact (runs_eraseAttempt hfree k hs (by simp)).either
  · refine .last ((lone_locate_ranked hi h).bind ?_)
    rintro x _ ⟨y, rfl, hy, hhas, -, -⟩
    refine (lone_eraseAttempt hfree k hs hy hhas (by simp)).mono ?_
    rintro _ _ ⟨b, rfl⟩
    exact ⟨b, rfl, trivial⟩

end Erasure

/-! ## Growth -/

section Growth

variable {u : Nat} {st : Stage}

/-- What the thread knows of the tables does not matter any more. -/
theorem Spec.forgetTable {e : Option Nat} {begun : Bool} {p : Code Addr Key α}
    {m : α → List (Own Addr)} {g : α → List (Fact Addr)}
    (hp : Spec C free t (.lock st none false :: M) l p m g) :
    Spec C free t (.lock st e begun :: M) l p m g := by
  refine fun s hi h => hp s hi ⟨h.nodup, fun x hx => ?_, h.knows⟩
  rcases List.mem_cons.mp hx with rfl | hx
  · exact ⟨(h.own _ List.mem_cons_self).1, fun v hv => (by cases hv), fun hb => (by cases hb)⟩
  · exact h.own x (List.mem_cons_of_mem _ hx)

/-- The thread that grows knows which table is published. -/
theorem locked_loadTable : Spec C free t (.lock st none false :: M) l (loadTable C)
    (fun u => .lock st (some u) false :: M) fun u => [.table u] := by
  refine .loop (fun _ => .lock st none false :: M) (fun _ => []) rfl (by simp) (fun _ => ?_)
    fun _ s _ _ => (lone_loadTable (C := C)).halts
  refine .loadLocked fun u => ?_
  rw [Prog.ret_bind]
  split
  · refine .skip rfl fun _ => .skip rfl fun ok => ?_
    rw [Prog.ret_bind]
    split
    · exact .ret (.refl _) (by simp)
    · exact .forgetTable (.ret (.refl _) (by simp))
  · exact .ret (.refl _) (by simp)

/-- Copying cells ends, and the published table stays. -/
theorem lone_copyCells (v nt sz i : Nat) (h : Heap Addr Key) :
    Alone C free t (fun _ h' => h'.table = h.table) (iterate (fun i => do
      if i < sz then
        perform (.storeBucket nt i (← perform (.loadBucket v i)))
        return .inl (i + 1)
      else return .inr ()) i) h := by
  refine SharedObject.Alone.iterate Nat.lt_wfRel.wf
    (I := fun m i h' => sz - i = m ∧ h'.table = h.table) ⟨rfl, rfl⟩ ?_
  rintro _ i h₁ ⟨rfl, htable⟩
  simp only [Prog.bind_eq, Prog.pure_eq]
  split
  · next hi => exact .act rfl (.act rfl (.ret ⟨_, Nat.sub_succ_lt_self sz i hi, rfl, htable⟩))
  · exact .ret htable

/-- The first cell is copied first. -/
theorem spec_copyCells (hu : .table u ∈ l) :
    Spec C free t (.lock .making (some u) false :: M) l (copyCells u (u + 1) (2 ^ (u + 1)))
      (fun _ => .lock .making (some u) true :: M) fun _ => [] := by
  refine .loop (fun i => .lock .making (some u) (decide (0 < i)) :: M) (fun _ => []) rfl (by simp)
    (fun i => ?_) fun i s _ _ => ?_
  · simp only [Prog.bind_eq, Prog.pure_eq]
    split
    · next hi =>
      refine .loadBucket (by simp [hu]) fun r h0 => ?_
      refine .storeBucket (fun d hd => ?_) (hi.trans (Nat.pow_lt_pow_right (by decide) (by omega)))
        h0 ?_ (.ret (by simp) (by simp))
      · simp [hd]
      · simp only [decide_eq_true_eq]
        omega
    · next hi =>
      have hpos : 0 < i := Nat.lt_of_lt_of_le (Nat.two_pow_pos _) (Nat.le_of_not_lt hi)
      exact .ret (by simp [hpos]) (by simp)
  · exact (lone_copyCells u (u + 1) (2 ^ (u + 1)) i s.heap).halts

theorem runs_roomyUnless (force : Bool) (u : Nat) :
    Runs C free t M l (if force then return false else isRoomy u) :=
  Reading.roomyUnless closed_runs force u

/-- One round of `grow_once`. -/
def growAttempt (C : Config Key) (force : Bool) : Code Addr Key (Unit ⊕ Unit) := do
  let t ← loadTable C
  let sz ← perform (.loadSize t)
  if ← (if force then return false else isRoomy t : Code Addr Key Bool) then
    return .inr ()
  else if MAX_BUCKETS ≤ sz then
    return .inr ()
  else
    let nt ← perform (.newTable (sz * 2))
    copyCells t nt sz
    if ← perform (.casTable t nt) then
      perform (.retireTable t)
      return .inl ()
    else
      perform (.destroyTable nt)
      return .inl ()

omit [DecidableEq Addr] in
theorem growOnce_eq (force : Bool) : (growOnce C force : Code Addr Key Unit) =
    (perform .casGrowing).bind fun ok => if ok then
      (iterate (fun (_ : Unit) => growAttempt C force) ()).bind fun _ =>
        perform (.storeGrowing false)
    else .ret () :=
  rfl

/-- One round of `grow_once`, from the acquisition of `growing_`. -/
theorem runs_growAttempt (force : Bool) :
    Runs C free t (.lock .idle none false :: M) l (growAttempt C force) := by
  refine locked_loadTable.bind fun u => .loadSize (by simp) fun hu => ?_
  refine (runs_roomyUnless force u).bind fun roomy => ?_
  split
  · exact .forgetTable (.ret (.refl _) (by simp))
  · split
    · exact .forgetTable (.ret (.refl _) (by simp))
    · next hmax =>
      have hlt : u + 1 < 30 :=
        (Nat.pow_lt_pow_iff_right (by decide : 1 < 2)).mp (Nat.lt_of_not_le hmax)
      refine .newTable hlt ((spec_copyCells (by simp)).bind fun _ => .casTable ?_)
      exact .retireTable (.forgetTable (.ret (.refl _) (by simp)))

/-- Alone, a round that is not the last one publishes a table. -/
theorem lone_growAttempt (force : Bool) {h : Heap Addr Key} (hlt : h.table < h.tables) :
    Alone C free t (fun x h' => x = .inl () → h.table < h'.table) (growAttempt C force) h := by
  refine lone_loadTable.bind ?_
  rintro _ h ⟨rfl, rfl⟩
  refine .act rfl ?_
  have hroomy : Alone C free t (fun _ h' => h' = h)
      (if force then return false else isRoomy h.table : Code Addr Key Bool) h := by
    split
    · exact .ret rfl
    · exact .act rfl (.act rfl (.act rfl (.ret rfl)))
  refine hroomy.bind ?_
  rintro roomy h rfl
  split
  · exact .ret fun hx => by cases hx
  · split
    · exact .ret fun hx => by cases hx
    · refine .act rfl ((lone_copyCells _ _ _ _ _).bind ?_)
      intro _ h' htable
      refine .act (r := true) (x := { h' with table := h.tables }) ?_
        (.act rfl (.ret fun _ => hlt))
      show (if h'.table = h.table then _ else _) = _
      rw [if_pos (show h'.table = h.table from htable)]

/-- The rounds end, since each of them publishes a greater table or is the last one. -/
theorem runs_growOnce (force : Bool) : Runs C free t M l (growOnce C force) := by
  rw [growOnce_eq]
  refine .casGrowing ?_ (.ret (.refl M) (by simp))
  rw [Prog.ret_bind, if_pos rfl]
  refine Spec.bind (m := fun _ => .lock .idle none false :: M) (g := fun _ => []) ?_
    fun _ => .storeGrowing (.ret (.refl M) (by simp))
  refine .loop (fun _ => .lock .idle none false :: M) (fun _ => []) rfl (by simp)
    (fun _ => (runs_growAttempt force).either) fun _ s hi h => ?_
  induction hn : 30 - s.heap.table using Nat.strongRecOn generalizing s with
  | _ n ih =>
    refine .unroll (((runs_growAttempt force).alone hi h
      (lone_growAttempt force (hi.grown.lt_tables (Nat.le_refl _)))).mono ?_)
    rintro x _ ⟨hx, y, rfl, hy, hhas⟩
    cases x with
    | inr u => trivial
    | inl u =>
      have hlt := hx rfl
      have hsmall := hy.grown.small
      have hlt' := hy.grown.lt_tables (Nat.le_refl y.heap.table)
      exact ih _ (by omega) y hy (hhas.mono (by simp)) rfl

theorem runs_maybeGrow : Runs C free t M l (maybeGrow C) :=
  Reading.maybeGrow closed_runs (runs_growOnce false)

end Growth

/-! ## Iteration -/

theorem runs_describe (a : Addr) : Runs C free t M l (describe a : Code Addr Key (NodeInfo Key)) :=
  Reading.describe closed_runs a

theorem runs_firstNode : Runs C free t M l (firstNode C) := by
  refine finds_loadTable.bind fun u => .loadBucket (by simp) fun r _ => ?_
  cases r with
  | none => exact .ret (.refl M) (by simp)
  | some d =>
    refine .infer [.linked d] (fun s _ hl f hf => ?_) ?_
    · obtain rfl := List.mem_singleton.mp hf
      have hkeyed : s.Linked d ∧ _ := hl (.keyed d (dummySplitOrderKey 0)) (by simp)
      exact hkeyed.1
    refine (runs_publish HP_PREV d).bind fun _ => ?_
    refine (finds_follow false 0 (by simp) (by simp [lower])).bind fun place => ?_
    refine .loop (fun _ => M) (on false 0) rfl (by simp) (fun place => ?_) fun place s hi h =>
      (lone_on strolls_first hi fun f hf => h.knows f (List.mem_append_left _ hf)).halts
    obtain ⟨prev, cur, tagged⟩ := place
    cases cur with
    | none => exact .ret (.refl M) (by simp)
    | some cur =>
      refine .loadNext (List.mem_append_left _ next_mem_on) fun rawNext => ?_
      rw [Prog.ret_bind]
      split
      · exact (finds_help false 0 cur (by grind) (by grind)).bind
          fun place => .ret (.refl M) (by simp)
      · refine .skip rfl fun so => ?_
        rw [Prog.ret_bind]
        split
        · exact (runs_describe cur).bind fun _ => .ret (.refl M) (by simp)
        · exact (finds_advance false 0 (by grind [next_mem_on]) (by simp [lower])).bind
            fun place => .ret (.refl M) (by simp)

theorem finds_skip (k : Key) {place : Place Addr} (hplace : on false sk place ⊆ l) :
    Finds C free t M l (iterate (skipStep C sk k) place) fun r =>
      r.toList.flatMap (on false sk) := by
  refine .loop (fun _ => M) (on false sk) rfl hplace (fun place => ?_) fun place s hi h =>
    (lone_on (strolls_skip sk k) hi fun f hf => h.knows f (List.mem_append_left _ hf)).halts
  obtain ⟨prev, cur, tagged⟩ := place
  cases cur with
  | none => exact .ret (.refl M) (by simp)
  | some cur =>
    refine .skip rfl fun so => ?_
    rw [Prog.ret_bind]
    split
    · exact .ret (.refl M) (by simp)
    · refine .loadNext (List.mem_append_left _ next_mem_on) fun rawNext =>
        (runs_headMatches k cur rawNext).bind fun ok => ?_
      split
      · exact .ret (.refl M) (by simp)
      · split
        · exact (finds_help false sk cur (by grind) (by grind)).bind
            fun place => .ret (.refl M) (by simp)
        · exact (finds_advance false sk (by grind [next_mem_on])
            (by simp [lower])).bind fun place => .ret (.refl M) (by simp)

/-- The iterator passes the run of its key and comes to the next element. -/
theorem runs_nextNode (hfree : ∀ h : Heap Addr Key, ¬ free t .fault h) (k : Key) :
    Runs C free t M l (nextNode C mixed sk k) := by
  refine (finds_locate false sk (fun hb => by cases hb)).bind fun x => ?_
  refine (finds_skip k (by simp)).bind fun r => ?_
  cases r with
  | none => exact .ret (.refl M) (by simp)
  | some place =>
    refine .loop (fun _ => M) (on false sk) rfl (by simp) (fun place => ?_) fun place s hi h =>
      (lone_on (strolls_next hfree sk) hi fun f hf => h.knows f (List.mem_append_left _ hf)).halts
    obtain ⟨prev, cur, tagged⟩ := place
    cases cur with
    | none => exact .fault hfree
    | some cur =>
      refine .loadNext (List.mem_append_left _ next_mem_on) fun rawNext => ?_
      rw [Prog.ret_bind]
      split
      · exact (finds_help false sk cur (by grind) (by grind)).bind
          fun place => .ret (.refl M) (by simp)
      · refine (finds_advance false sk (by grind [next_mem_on])
          (by simp [lower])).bind fun place => ?_
        obtain ⟨prev, nxt, tagged⟩ := place
        cases nxt with
        | none => exact .ret (.refl M) (by simp)
        | some a =>
          refine .skip rfl fun so => ?_
          rw [Prog.ret_bind]
          split
          · exact (runs_describe a).bind fun _ => .ret (.refl M) (by simp)
          · exact .ret (.refl M) (by simp)

/-! ## The calls -/

/-- Every call but `clear` comes to its end where it is not held up. -/
theorem runs_code {c : Request Addr Key} (hc : c ≠ .clear) :
    Spec C (fun _ o h => ¬ c.HeldUp C o h) t (c.brings.map fun n => .node n none none) [] (c.code C)
      (fun _ => []) fun _ => [] := by
  cases c with
  | emplace n k =>
    refine (runs_insertNode k (suits_soKeyOf _)).bind fun r => ?_
    split
    · exact runs_maybeGrow.bind fun _ => .ret (.refl _) (by simp)
    · exact .ret (.refl _) (by simp)
  | insert n k => exact (runs_insertNode k (suits_soKeyOf _)).bind fun r => .ret (.refl _) (by simp)
  | erase k =>
    refine (runs_eraseNode (fun o h ho hfree => ?_) k (isRegular_soKeyOf _)).bind fun r =>
      .ret (.refl _) (by simp)
    exact hfree ho
  | find k => exact (runs_findNode k).bind fun r => .ret (.refl _) (by simp)
  | size => exact .skip rfl fun _ => .ret (.refl _) (by simp)
  | clear => exact absurd rfl hc
  | grow force => exact (runs_growOnce force).bind fun r => .ret (.refl _) (by simp)
  | first => exact runs_firstNode.bind fun r => .ret (.refl _) (by simp)
  | next mixed sk k =>
    refine (runs_nextNode (fun h hfree => ?_) k).bind fun r => .ret (.refl _) (by simp)
    exact hfree rfl

end Operations

section Coverage

variable {C : Config Key}

/-- The calls keep the order of the nodes, and each comes to its end when left alone. -/
theorem ranking_covers :
    (@ranking Addr Key _ C).CoversLive (fun c _ _ o h => ¬ c.HeldUp C o h) fun _ _ _ _ => True where
  respond t c r s hi _ := ⟨s, rfl, hi, Keeps.rfl⟩
  invoke t c s h hi hinvoke := by
    have hrun : ∀ a, c ≠ .clear → Ranked a →
        Has t (c.brings.map fun n => .node n none none) [] a →
        (ranking C).Lives (fun _ o h => ¬ c.HeldUp C o h) t (c.code C) (fun _ _ => True) a :=
      fun a hc hi h => (runs_code hc a hi h).mono fun _ _ _ _ => trivial
    -- a call that brings a node: the list does not have it yet, so the ranks stay
    have hcreate : ∀ n k, c.brings = [n] → c ≠ .clear → n ∉ s.heap.inUse →
        h = s.heap.create n k → ∃ a : Dated Addr Key, a.heap = h ∧ Keeps t s a ∧
          (ranking C).Lives (fun _ o h => ¬ c.HeldUp C o h) t (c.code C) (fun _ _ => True) a := by
      rintro n k hb hc hn rfl
      obtain ⟨hinv, -⟩ := hi.toInv.give (t := t) (g := s.heap.create n k) hn rfl rfl rfl rfl
      obtain ⟨hi', hg⟩ := give_step (t := t) hi hn hinv rfl rfl rfl
        (fun a ha => Function.update_of_ne ha _ _) rfl
        (hi.grown.congr ⟨rfl, rfl, rfl⟩ ⟨rfl, rfl⟩ fun _ _ h => h)
      refine ⟨_, rfl, hg, hrun _ hc hi' ?_⟩
      rw [hb]
      refine ⟨by simp, fun x hx => ?_, fun f hf => by cases hf⟩
      obtain rfl := List.mem_singleton.mp hx
      exact ⟨Function.update_self _ _ _, fun w hw => (by cases hw), fun p hp => (by cases hp)⟩
    -- the other calls start on the heap as it is
    have hsame : c.brings = [] → c ≠ .clear → h = s.heap → ∃ a : Dated Addr Key, a.heap = h ∧
        Keeps t s a ∧
          (ranking C).Lives (fun _ o h => ¬ c.HeldUp C o h) t (c.code C) (fun _ _ => True) a := by
      rintro hb hc rfl
      refine ⟨s, rfl, Keeps.rfl, hrun s hc hi ?_⟩
      rw [hb]
      exact ⟨by simp, by simp, by simp⟩
    cases c with
    | emplace n k =>
      simp only [list, ranking] at hinvoke
      split at hinvoke <;> cases hinvoke
      next hn => exact hcreate n k rfl (by simp) hn rfl
    | insert n k =>
      simp only [list, ranking] at hinvoke
      split at hinvoke <;> cases hinvoke
      next hn => exact hcreate n k rfl (by simp) hn rfl
    | clear => cases hinvoke
    | _ =>
      cases hinvoke
      exact hsame rfl (by simp) rfl

omit [DecidableEq Addr] in
/-- The container is empty at first. -/
theorem Ranked.new (key : Addr → Key) (head : Addr) {pick : Nat → Finset Addr → Addr}
    (threshold : Nat → Nat) (hpick : ∀ n F, pick n F ∉ F) :
    Ranked (Dated.mk ⟨⟨Heap.new key head pick threshold, fun _ => none⟩, fun _ => 0⟩ none) := by
  constructor
  case toInOrder => exact InOrder.new key head threshold hpick
  case grown =>
    refine ⟨⟨rfl, rfl, rfl⟩, fun u hu => ?_, (by decide : 1 ≤ 30), fun u hu => ?_⟩
    · obtain rfl : u = 0 := Nat.lt_one_iff.mp hu
      rfl
    · obtain rfl : u = 0 := Nat.le_zero.mp hu
      rfl
  case bound =>
    intro u i d hd
    have hd : (if u = 0 ∧ i = 0 then some head else none) = some d := hd
    split at hd
    · next h =>
      rw [h.2]
      exact Nat.two_pow_pos _
    · cases hd

end Coverage

end Ranks

/-- In every reachable configuration a thread that goes on alone comes to the end of its call after
finitely many steps, unless it is an eraser that comes to a marked node before its own in the same
run, or an iterator that comes to a null pointer. -/
theorem lone_thread_ends (C : Config Key) (key : Addr → Key) (head : Addr)
    (pick : Nat → Finset Addr → Addr) (threshold : Nat → Nat) (hpick : ∀ n F, pick n F ∉ F)
    (c : Conc.Config (Op Addr Key) (Heap Addr Key) (Request Addr Key) (Answer Addr Key))
    (hc : (list C).Reachable (Heap.new key head pick threshold) c) (t : Nat)
    (op : Request Addr Key) (p : Code Addr Key (Answer Addr Key))
    (hp : c.thread t = some (op, p)) :
    ∃ n c', (list C).exec c (List.replicate n (.step t false)) = some c' ∧
      ((c'.answered t).isSome = true ∨ ∃ (β : Type) (o : Op Addr Key β)
        (k : β → Code Addr Key (Answer Addr Key)),
        c'.thread t = some (op, .act o k) ∧ op.HeldUp C o c'.shared) := by
  obtain ⟨n, c', hn, hend⟩ := Discipline.reach_halts Ranks.ranking_covers
    (Ranks.Ranked.new key head threshold hpick) hc hp
  refine ⟨n, c', hn, hend.imp_right ?_⟩
  rintro ⟨β, o, k, hp', hheld⟩
  exact ⟨β, o, k, hp', not_not.mp hheld⟩

/-- Two erasers have stopped behind their marks; the thread that looks for a key goes on alone. -/
theorem lone_thread_ends_run :
    ∃ c : Conc.Config (Op Nat Nat) (Heap Nat Nat) (Request Nat Nat) (Answer Nat Nat),
      (list epochal).Reachable (Heap.new id 0 nextBlock id) c ∧
      (c.shared.next 1).marked = true ∧ (c.shared.next 2).marked = true ∧
      ∃ n c', (list epochal).exec c (List.replicate n (.step 0 false)) = some c' ∧
        (c'.answered 0).isSome = true := by
  have hrun : ((list epochal).exec (SharedObject.start (Heap.new id 0 nextBlock id))
      bothMarked).map (fun c => ((c.shared.next 1).marked, (c.shared.next 2).marked,
        (c.thread 0).map fun x => x.1.unhindered)) = some (true, true, some true) := by
    decide +kernel
  obtain ⟨c, hc, hval⟩ := Option.map_eq_some_iff.mp hrun
  simp only [Prod.mk.injEq] at hval
  obtain ⟨h1, h2, hthread⟩ := hval
  obtain ⟨⟨op, p⟩, hp, hop⟩ := Option.map_eq_some_iff.mp hthread
  have hreach := (list epochal).reachable_exec _ hc
  obtain ⟨n, c', hn, hend⟩ := lone_thread_ends epochal id 0 nextBlock id nextBlock_notMem c hreach 0
    op p hp
  refine ⟨c, hreach, h1, h2, n, c', hn, hend.resolve_right ?_⟩
  rintro ⟨β, o, k, -, hheld⟩
  exact Request.not_heldUp hop hheld

end MpmcMap.Unordered
