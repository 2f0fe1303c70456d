import MpmcMap.Unordered.Progress

/-!
# What stands in every run

The engine under any number of threads, without reuse of memory. Whatever the interleaving, and also
where a helper has cleared a mark and an unlinked node has come back, the list behind every bucket
is finite and in the order of the split-order keys, and two nodes never change places. The tables
double, one at a time, and a cell that has its dummy keeps it.
-/

namespace MpmcMap.Unordered

open Conc

variable {Addr Key : Type} [DecidableEq Addr]

namespace Ranks

variable {C : Config Key} {s s' : Dated Addr Key} {a b d : Addr}

/-! ## Reachable configurations -/

section Reachable

variable {key : Addr → Key} {head : Addr} {pick : Nat → Finset Addr → Addr} {threshold : Nat → Nat}
  {c c' : Conc.Config (Op Addr Key) (Heap Addr Key) (Request Addr Key) (Answer Addr Key)}

theorem reachable_ranked (hpick : ∀ n F, pick n F ∉ F)
    (hc : (list C).Reachable (Heap.new key head pick threshold) c) :
    ∃ s : Dated Addr Key, s.heap = c.shared ∧ Ranked s := by
  obtain ⟨s, hs, hi, -⟩ := Discipline.reach_lives ranking_covers
    (Ranked.new key head threshold hpick) hc
  exact ⟨s, hs, hi⟩

/-- What no step changes. -/
structure Stays (s s' : Dated Addr Key) : Prop where
  linked : ∀ a, s.Linked a → s'.Linked a
  soKey : ∀ a, s.Linked a → s'.heap.soKey a = s.heap.soKey a
  date : ∀ a, s.Linked a → s'.date a = s.date a
  table : s.heap.table ≤ s'.heap.table
  bucket : ∀ t i d, t ≤ s.heap.table → s.heap.bucket t i = some d → s'.heap.bucket t i = some d

omit [DecidableEq Addr] in
theorem Stays.trans {s'' : Dated Addr Key} (h : Stays s s') (h' : Stays s' s'') : Stays s s'' where
  linked a ha := h'.linked a (h.linked a ha)
  soKey a ha := (h'.soKey a (h.linked a ha)).trans (h.soKey a ha)
  date a ha := (h'.date a (h.linked a ha)).trans (h.date a ha)
  table := Nat.le_trans h.table h'.table
  bucket t i d ht hd := h'.bucket t i d (Nat.le_trans ht h.table) (h.bucket t i d ht hd)

theorem later_ranked (hpick : ∀ n F, pick n F ∉ F)
    (hc : (list C).Reachable (Heap.new key head pick threshold) c)
    (hlater : (list C).Later SharedObject.anyAction c c') :
    ∃ s s' : Dated Addr Key, s.heap = c.shared ∧ s'.heap = c'.shared ∧ Ranked s ∧ Ranked s' ∧
      Stays s s' :=
  Discipline.reach_later_inv (ranking_covers (C := C)).covers (Ranked.new key head threshold hpick)
    (fun _ => ⟨fun _ h => h, fun _ _ => rfl, fun _ _ => rfl, Nat.le_refl _, fun _ _ _ _ h => h⟩)
    (fun _ _ _ => Stays.trans)
    (fun _ _ _ _ _ hg => ⟨hg.linked, hg.soKey, hg.date, hg.table, hg.bucket⟩) hc hlater

end Reachable

/-! ## The list -/

omit [DecidableEq Addr] in
/-- The nodes behind a linked node, in their order, up to the end of the list. -/
theorem Ranked.nodes_from (hi : Ranked s) (ha : s.Linked a) :
    ∃ N : List Addr, (a :: N).IsChain (fun b c => s.heap.succ b = some c) ∧
      s.heap.succ ((a :: N).getLast (List.cons_ne_nil a N)) = none ∧
      (a :: N).Pairwise s.Before := by
  induction hn : s.rank a using Nat.strongRecOn generalizing a with
  | _ n ih =>
    cases hb : s.heap.succ a with
    | none => exact ⟨[], .singleton a, hb, List.pairwise_singleton _ _⟩
    | some b =>
      have hbefore := hi.before a b ha hb
      obtain ⟨N, hchain, hlast, hsorted⟩ := ih _ (hn ▸ Dated.rank_lt hbefore) hbefore.right rfl
      refine ⟨b :: N, .cons_cons hb hchain, hlast, List.pairwise_cons.mpr ⟨fun c hc => ?_, hsorted⟩⟩
      rcases List.mem_cons.mp hc with rfl | hc
      · exact hbefore
      · exact hbefore.trans (List.rel_of_pairwise_cons hsorted hc)

/-! ## The tables -/

omit [DecidableEq Addr] in
theorem Stands.tables {h : Heap Addr Key} {stage : Option Stage} (hs : Stands h stage) :
    h.tables ≤ h.table + 2 ∧ ∃ j, h.retiredTables = List.range j ∧ j ≤ h.table ∧ h.table ≤ j + 1 ∧
      (h.growing = false → h.tables = h.table + 1 ∧ j = h.table) := by
  cases stage with
  | none =>
    obtain ⟨-, htables, hretired⟩ := hs
    exact ⟨by omega, _, hretired, Nat.le_refl _, by omega, fun _ => ⟨htables, rfl⟩⟩
  | some stage =>
    cases stage with
    | idle | making =>
      obtain ⟨hgrowing, htables, hretired⟩ := hs
      refine ⟨by omega, _, hretired, Nat.le_refl _, by omega, fun h => ?_⟩
      rw [hgrowing] at h
      cases h
    | pending =>
      obtain ⟨hgrowing, htables, hpos, hretired⟩ := hs
      refine ⟨by omega, _, hretired, by omega, by omega, fun h => ?_⟩
      rw [hgrowing] at h
      cases h

end Ranks

/-- In every reachable configuration the list behind every bucket cell is finite, holds no node
twice and no free block, and is in the order of the split-order keys. -/
theorem list_sorted (C : Config Key) (key : Addr → Key) (head : Addr)
    (pick : Nat → Finset Addr → Addr) (threshold : Nat → Nat) (hpick : ∀ n F, pick n F ∉ F)
    (c : Conc.Config (Op Addr Key) (Heap Addr Key) (Request Addr Key) (Answer Addr Key))
    (hc : (list C).Reachable (Heap.new key head pick threshold) c) (t b : Nat) (d : Addr)
    (hd : c.shared.bucket t b = some d) :
    ∃ N : List Addr, (d :: N).IsChain (fun x y => c.shared.succ x = some y) ∧
      c.shared.succ ((d :: N).getLast (List.cons_ne_nil d N)) = none ∧ (d :: N).Nodup ∧
      (∀ x ∈ d :: N, x ∈ c.shared.inUse) ∧
      (d :: N).Pairwise fun x y => c.shared.soKey x ≤ c.shared.soKey y := by
  obtain ⟨s, hs, hi⟩ := Ranks.reachable_ranked hpick hc
  rw [← hs] at hd ⊢
  have hlinked := hi.bucket t b d hd
  obtain ⟨N, hchain, hlast, hsorted⟩ := hi.nodes_from hlinked
  refine ⟨N, hchain, hlast, hsorted.imp fun hxy => ?_, fun x hx => ?_,
    hsorted.imp fun hxy => hxy.key_le⟩
  · rintro rfl
    exact hxy.irrefl
  · rcases List.mem_cons.mp hx with rfl | hx
    · exact hlinked.1
    · exact (List.rel_of_pairwise_cons hsorted hx).right.1

/-- A helper has cleared the mark of node 1. -/
theorem list_sorted_run :
    ∃ c : Conc.Config (Op Nat Nat) (Heap Nat Nat) (Request Nat Nat) (Answer Nat Nat),
      (list epochal).Reachable (Heap.new id 0 nextBlock id) c ∧ (c.shared.next 1).marked = false ∧
      ∃ N : List Nat, (0 :: N).IsChain (fun x y => c.shared.succ x = some y) ∧
        c.shared.succ ((0 :: N).getLast (List.cons_ne_nil 0 N)) = none ∧ (0 :: N).Nodup := by
  have hrun : ((list epochal).exec (SharedObject.start (Heap.new id 0 nextBlock id))
      (bothMarked ++ helped)).map (fun c => ((c.shared.next 1).marked, c.shared.bucket 0 0)) =
        some (false, some 0) := by
    decide +kernel
  obtain ⟨c, hc, hval⟩ := Option.map_eq_some_iff.mp hrun
  simp only [Prod.mk.injEq] at hval
  have hreach := (list epochal).reachable_exec _ hc
  obtain ⟨N, hchain, hlast, hnodup, -, -⟩ :=
    list_sorted epochal id 0 nextBlock id nextBlock_notMem c hreach 0 0 0 hval.2
  exact ⟨c, hreach, hval.1, N, hchain, hlast, hnodup⟩

/-- Two nodes of the list never change places: where one has come after the other, it never comes
before it later. -/
theorem order_permanent (C : Config Key) (key : Addr → Key) (head : Addr)
    (pick : Nat → Finset Addr → Addr) (threshold : Nat → Nat) (hpick : ∀ n F, pick n F ∉ F)
    (c c' : Conc.Config (Op Addr Key) (Heap Addr Key) (Request Addr Key) (Answer Addr Key))
    (hc : (list C).Reachable (Heap.new key head pick threshold) c)
    (hlater : (list C).Later SharedObject.anyAction c c') (t b : Nat) (d x y : Addr)
    (hd : c.shared.bucket t b = some d) (hx : c.shared.Reaches d x) (hxy : c.shared.Reaches x y)
    (hne : x ≠ y) : ¬ c'.shared.Reaches y x := by
  obtain ⟨s, s', hs, hs', hi, hi', hstays⟩ := Ranks.later_ranked hpick hc hlater
  rw [← hs] at hd hx hxy
  rw [← hs']
  intro hyx
  have hlinked : s.Linked x := by
    rcases hi.after (hi.bucket t b d hd) hx with rfl | h
    · exact hi.bucket t b d hd
    · exact h.right
  have hbefore := (hi.after hlinked hxy).resolve_left hne
  have hstill : s'.Before x y := by
    refine ⟨hstays.linked x hbefore.left, hstays.linked y hbefore.right, ?_⟩
    rw [hstays.soKey x hbefore.left, hstays.soKey y hbefore.right, hstays.date x hbefore.left,
      hstays.date y hbefore.right]
    exact hbefore.lt
  rcases hi'.after hstill.right hyx with heq | h
  · exact hne heq.symm
  · exact (hstill.trans h).irrefl

/-- Nodes 1 and 3, before and after the helper's step. -/
theorem order_permanent_run :
    ∃ c c' : Conc.Config (Op Nat Nat) (Heap Nat Nat) (Request Nat Nat) (Answer Nat Nat),
      (list epochal).Later SharedObject.anyAction c c' ∧ c.shared.succ 1 = some 2 ∧
      c'.shared.succ 1 = some 3 ∧ ¬ c'.shared.Reaches 3 1 := by
  have hrun : (((list epochal).exec (SharedObject.start (Heap.new id 0 nextBlock id))
      bothMarked).bind fun c => ((list epochal).exec c helped).map fun c' =>
        (c.shared.bucket 0 0, c.shared.succ 0, c.shared.succ 1, c.shared.succ 2,
          c'.shared.succ 1)) =
      some (some 0, some 1, some 2, some 3, some 3) := by
    decide +kernel
  obtain ⟨c, hc, hrest⟩ := Option.bind_eq_some_iff.mp hrun
  obtain ⟨c', hc', hval⟩ := Option.map_eq_some_iff.mp hrest
  simp only [Prod.mk.injEq] at hval
  obtain ⟨hbucket, h0, h1, h2, h1'⟩ := hval
  have hlater := (list epochal).later_execIf (fun _ _ _ _ => trivial) helped hc'
  exact ⟨c, c', hlater, h1, h1', order_permanent epochal id 0 nextBlock id nextBlock_notMem c c'
    ((list epochal).reachable_exec _ hc) hlater 0 0 0 1 3 hbucket (.single h0)
    (.tail (.single h1) h2) (by decide)⟩

/-! ## The tables -/

/-- In every reachable configuration table `t` has `2 ^ (t + 1)` cells, the growth has made no more
than one table after the current one, and the tables before the current one are retired, each once;
but for the last of them while `growing_` is set. -/
theorem tables_double (C : Config Key) (key : Addr → Key) (head : Addr)
    (pick : Nat → Finset Addr → Addr) (threshold : Nat → Nat) (hpick : ∀ n F, pick n F ∉ F)
    (c : Conc.Config (Op Addr Key) (Heap Addr Key) (Request Addr Key) (Answer Addr Key))
    (hc : (list C).Reachable (Heap.new key head pick threshold) c) :
    (∀ t, t < c.shared.tables → c.shared.size t = 2 ^ (t + 1) ∧ c.shared.size t ≤ MAX_BUCKETS) ∧
      c.shared.table < c.shared.tables ∧ c.shared.tables ≤ c.shared.table + 2 ∧
      ∃ j, c.shared.retiredTables = List.range j ∧ j ≤ c.shared.table ∧ c.shared.table ≤ j + 1 ∧
        (c.shared.growing = false → c.shared.tables = c.shared.table + 1 ∧ j = c.shared.table) := by
  obtain ⟨s, hs, hi⟩ := Ranks.reachable_ranked hpick hc
  rw [← hs]
  have hgrown := hi.grown
  refine ⟨fun t ht => ?_, hgrown.lt_tables (Nat.le_refl _), ?_⟩
  · have hsmall := hgrown.small
    rw [hgrown.size t ht]
    exact ⟨rfl, Nat.pow_le_pow_right (by decide) (by omega)⟩
  · exact hgrown.stands.tables

/-- The growth has published table 1 and has not retired table 0 yet. -/
def published : List (Label (Request Nat Nat)) :=
  .call 0 (.grow true) :: List.replicate 14 (.step 0 false)

/-- The first table has been doubled once. -/
theorem tables_double_run :
    ∃ c : Conc.Config (Op Nat Nat) (Heap Nat Nat) (Request Nat Nat) (Answer Nat Nat),
      (list epochal).Reachable (Heap.new id 0 nextBlock id) c ∧ c.shared.table = 1 ∧
      c.shared.retiredTables = [] ∧ c.shared.size 1 = 4 := by
  have hrun : ((list epochal).exec (SharedObject.start (Heap.new id 0 nextBlock id)) published).map
      (fun c => (c.shared.table, c.shared.retiredTables)) = some (1, []) := by
    decide +kernel
  obtain ⟨c, hc, hval⟩ := Option.map_eq_some_iff.mp hrun
  simp only [Prod.mk.injEq] at hval
  have hreach := (list epochal).reachable_exec _ hc
  obtain ⟨hsize, hlt, -⟩ := tables_double epochal id 0 nextBlock id nextBlock_notMem c hreach
  rw [hval.1] at hlt
  exact ⟨c, hreach, hval.1, hval.2, (hsize 1 hlt).1⟩

/-- A cell of a table that has been published keeps its dummy, which is not marked. -/
theorem cell_permanent (C : Config Key) (key : Addr → Key) (head : Addr)
    (pick : Nat → Finset Addr → Addr) (threshold : Nat → Nat) (hpick : ∀ n F, pick n F ∉ F)
    (c c' : Conc.Config (Op Addr Key) (Heap Addr Key) (Request Addr Key) (Answer Addr Key))
    (hc : (list C).Reachable (Heap.new key head pick threshold) c)
    (hlater : (list C).Later SharedObject.anyAction c c') (t b : Nat) (d : Addr)
    (ht : t ≤ c.shared.table) (hd : c.shared.bucket t b = some d) :
    c'.shared.bucket t b = some d ∧ b < c.shared.size t ∧
      c'.shared.soKey d = dummySplitOrderKey b ∧ (c'.shared.next d).marked = false := by
  obtain ⟨s, s', hs, hs', hi, hi', hstays⟩ := Ranks.later_ranked hpick hc hlater
  rw [← hs] at hd ht ⊢
  rw [← hs']
  have hd' := hstays.bucket t b d ht hd
  obtain ⟨hkey, hlt⟩ := hi'.dummy t b d hd'
  have hmade := hi.grown.lt_tables ht
  exact ⟨hd', hi.grown.size t hmade ▸ hi'.bound t b d hd', hkey, hi'.unmarked_dummy hlt hkey⟩

/-- The first cell of the first table, before and after the growth. -/
theorem cell_permanent_run :
    ∃ c : Conc.Config (Op Nat Nat) (Heap Nat Nat) (Request Nat Nat) (Answer Nat Nat),
      (list epochal).Later SharedObject.anyAction
        (SharedObject.start (Heap.new id 0 nextBlock id)) c ∧
      c.shared.table = 1 ∧ c.shared.bucket 0 0 = some 0 := by
  have hrun : ((list epochal).exec (SharedObject.start (Heap.new id 0 nextBlock id)) published).map
      (fun c => c.shared.table) = some 1 := by
    decide +kernel
  obtain ⟨c, hc, hval⟩ := Option.map_eq_some_iff.mp hrun
  have hlater := (list epochal).later_execIf (fun _ _ _ _ => trivial) published hc
  exact ⟨c, hlater, hval, (cell_permanent epochal id 0 nextBlock id nextBlock_notMem _ c .start
    hlater 0 0 0 (Nat.le_refl 0) rfl).1⟩

end MpmcMap.Unordered
