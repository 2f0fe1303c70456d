import MpmcMap.Unordered.Chain
import MpmcMap.Unordered.Container

/-!
# Walks in one thread

What the reading parts of the engine answer when no other operation runs: no node is marked, so no
walk helps, and every walk ends at the cut of the list that it looks for.
-/

namespace MpmcMap.Unordered

open Conc
open Prog (perform iterate)

variable {Addr Key : Type} [DecidableEq Addr] {α β γ σ : Type}

/-! ## Rules -/

/-- A program of the engine, run alone, returns or throws, and `Q` holds of the way it does. -/
abbrev Finishes (Q : Option α → World Addr Key → Prop) (p : Code Addr Key α)
    (w : World Addr Key) : Prop :=
  Exits (Solo.of Act.bounded) throwing Q p w

/-- The program answers `r` and changes nothing. -/
abbrev Reads (p : Code Addr Key α) (r : α) (w : World Addr Key) : Prop :=
  Finishes (fun x w' => x = some r ∧ w' = w) p w

section Rules

variable {Q : Option α → World Addr Key → Prop} {w w' : World Addr Key}

/-- An access that does not throw. -/
theorem Finishes.access {o : Op Addr Key β} {k : β → Code Addr Key α} {r : β}
    {v : World Addr Key} (ho : throwing o = (perform (.access o)).bind fun r => .ret (some r))
    (hr : o.bounded w = some (r, v)) (hk : Finishes Q (k r) v) : Finishes Q (.act o k) w := by
  refine Exits.act (T := fun x u => x = some r ∧ u = v) ?_ ?_ ?_
  · rw [ho]
    exact Until.perform hr (Ends.ret ⟨rfl, rfl⟩)
  · rintro b u ⟨hb, rfl⟩
    obtain rfl := Option.some.inj hb
    exact hk
  · rintro u ⟨hu, -⟩
    cases hu

theorem Reads.ret (r : α) (w : World Addr Key) : Reads (.ret r) r w := Exits.ret ⟨rfl, rfl⟩

theorem Reads.bind {q : Code Addr Key γ} {g : γ → Code Addr Key α} {a : γ} (hq : Reads q a w)
    (hg : Finishes Q (g a) w) : Finishes Q (q.bind g) w := by
  refine Exits.bind hq ?_ ?_
  · rintro b u ⟨hb, rfl⟩
    obtain rfl := Option.some.inj hb
    exact hg
  · rintro u ⟨hu, -⟩
    cases hu

theorem Reads.perform {o : Op Addr Key α} {r : α}
    (ho : throwing o = (perform (.access o)).bind fun r => .ret (some r))
    (hr : o.bounded w = some (r, w)) : Reads (perform o) r w :=
  Finishes.access ho hr (Reads.ret r w)

/-- One iteration that only reads. -/
theorem Reads.next {body : σ → Code Addr Key (σ ⊕ α)} {st z : σ}
    (h : Reads (body st) (.inl z) w) (hrest : Finishes Q (iterate body z) w) :
    Finishes Q (iterate body st) w := by
  refine Exits.unroll (Exits.mono h ?_)
  rintro x u ⟨rfl, rfl⟩
  exact hrest

/-- The last iteration. -/
theorem Reads.last {body : σ → Code Addr Key (σ ⊕ α)} {st : σ} {a : α}
    (h : Reads (body st) (.inr a) w) (ha : Q (some a) w) : Finishes Q (iterate body st) w := by
  refine Exits.unroll (Exits.mono h ?_)
  rintro x u ⟨rfl, rfl⟩
  exact ha

end Rules

/-! ## Steps of a walk -/

section Steps

variable (C : Config Key) (w : World Addr Key)

theorem publish_reads (slot : Nat) (a : Addr) : Reads (publish C slot a) () w := by
  unfold publish
  split
  · exact .perform rfl rfl
  · exact Reads.ret () w

theorem protectFrom_reads (src : Addr) (slot : Nat) :
    Reads (protectFrom C src slot) ((w.heap.next src).ptr, w.heap.next src) w := by
  unfold protectFrom
  split
  · refine Reads.last ?_ ⟨rfl, rfl⟩
    refine .access rfl rfl (.access rfl rfl (.access rfl rfl ?_))
    show Reads (if decide (w.heap.next src = w.heap.next src) = true then _ else _) _ w
    rw [if_pos (decide_eq_true rfl)]
    exact Reads.ret _ w
  · exact .access rfl rfl (Reads.ret _ w)

theorem loadTable_reads : Reads (loadTable C) w.heap.table w := by
  refine Reads.last ?_ ⟨rfl, rfl⟩
  refine .access rfl rfl ?_
  show Reads (if C.reval = true then _ else _) _ w
  split
  · refine .access rfl rfl (.access rfl rfl ?_)
    show Reads (if decide (w.heap.table = w.heap.table) = true then _ else _) _ w
    rw [if_pos (decide_eq_true rfl)]
    exact Reads.ret _ w
  · exact Reads.ret _ w

theorem follow_reads (prev : Addr) :
    Reads (follow C prev) (prev, (w.heap.next prev).ptr, w.heap.next prev) w :=
  (protectFrom_reads C w prev HP_CUR).bind (Reads.ret _ w)

theorem advance_reads (cur : Addr) :
    Reads (advance C cur) (cur, (w.heap.next cur).ptr, w.heap.next cur) w :=
  (publish_reads C w HP_PREV cur).bind (follow_reads C w cur)

/-- Past a node that is not marked. -/
theorem pass_reads (prev cur : Addr) (tagged : Link Addr)
    (hcur : (w.heap.next cur).marked = false) : Reads (pass C prev cur tagged) (cur, (w.heap.next cur).ptr, w.heap.next cur) w := by
  refine .access rfl rfl ?_
  show Reads (if (w.heap.next cur).marked = true then _ else _) _ w
  rw [if_neg (by simp [hcur])]
  exact advance_reads C w cur

theorem headMatches_reads (k : Key) (cur : Addr) {fnx : Link Addr} (hf : fnx.marked = false) :
    Reads (headMatches C k cur fnx) (C.eq (w.heap.key cur) k) w := by
  unfold headMatches
  rw [if_neg (by simp [hf])]
  exact .access rfl rfl (Reads.ret _ w)

end Steps

/-! ## The walk to a key -/

section Walk

variable {C : Config Key} {w : World Addr Key} {A B N : List Addr} {cmp : Word} {d p : Addr}

/-- The place behind `p`, where the nodes `B` come. -/
def placeOf (p : Addr) (B : List Addr) : Place Addr := (p, B.head?, .plain B.head?)

theorem walkLoop_reads {Q : Option (Place Addr) → World Addr Key → Prop}
    (hs : Stores C w.heap N) (hN : N = A ++ p :: B) (hp : w.heap.soKey p < cmp)
    (hQ : ∀ A p B, CutAt w.heap N cmp A p B → Q (some (placeOf p B)) w) :
    Finishes Q (iterate (walkStep C cmp) (placeOf p B)) w := by
  induction B generalizing A p with
  | nil =>
    refine Reads.last (Reads.ret _ w) (hQ A p [] (.of_split hs hN hp ?_))
    intro b hb
    cases hb
  | cons c B ih =>
    by_cases hc : cmp ≤ w.heap.soKey c
    · refine Reads.last (a := placeOf p (c :: B)) ?_ (hQ A p (c :: B) (.of_split hs hN hp ?_))
      · refine .access rfl rfl ?_
        show Reads (if cmp ≤ w.heap.soKey c then _ else _) _ w
        rw [if_pos hc]
        exact Reads.ret _ w
      · intro b hb
        obtain rfl := Option.some.inj hb
        exact hc
    · have hN' : N = (A ++ [p]) ++ c :: B := by
        rw [hN]
        simp
      have hnext : w.heap.next c = .plain B.head? := (hN' ▸ hs.linked).next_eq
      refine Reads.next (z := placeOf c B) ?_ (ih hN' (BitVec.not_le.mp hc))
      refine .access rfl rfl ?_
      show Reads (if cmp ≤ w.heap.soKey c then _ else _) _ w
      rw [if_neg hc]
      refine (pass_reads C w p c _ (by rw [hnext]; rfl)).bind ?_
      rw [hnext]
      exact Reads.ret _ w

/-- A walk from the node `d` ends at the cut of the list. -/
theorem walk_reads {Q : Option (Place Addr) → World Addr Key → Prop} (hs : Stores C w.heap N)
    {x : Word} (hd : d ∈ N) (hlt : w.heap.soKey d < x)
    (hQ : ∀ A p B, CutAt w.heap N x A p B → Q (some (placeOf p B)) w) :
    Finishes Q (walk C d x) w := by
  obtain ⟨A, B, hN⟩ := List.append_of_mem hd
  have hnext : w.heap.next d = .plain B.head? := (hN ▸ hs.linked).next_eq
  refine (publish_reads C w HP_PREV d).bind ((follow_reads C w d).bind ?_)
  rw [hnext]
  exact walkLoop_reads hs hN hlt hQ

end Walk

/-! ## Runs of equal split-order keys -/

/-- The node of the key `k` in the run that begins with `B`, and its predecessor. -/
def findRun (C : Config Key) (h : Heap Addr Key) (sk : Word) (k : Key) :
    Addr → List Addr → Option (Addr × Addr)
  | _, [] => none
  | p, c :: B =>
    if h.soKey c ≠ sk then none
    else if C.eq (h.key c) k then some (p, c)
    else findRun C h sk k c B

/-- The node of the key `k`. -/
def Heap.lookup (C : Config Key) (h : Heap Addr Key) (N : List Addr) (k : Key) : Option Addr :=
  (h.regular N).find? fun a => C.eq (h.key a) k

section Scan

variable {C : Config Key} {w : World Addr Key} {h : Heap Addr Key} {A B N : List Addr} {sk : Word}
  {k : Key} {p c x : Addr}

theorem scan_reads (hB : Linked w.heap.next B) (tagged : Link Addr) :
    Reads (iterate (scanStep C sk k) (p, B.head?, tagged)) (findRun C w.heap sk k p B) w := by
  induction B generalizing p tagged with
  | nil => exact Reads.last (Reads.ret _ w) ⟨rfl, rfl⟩
  | cons c B ih =>
    unfold findRun
    by_cases hc : w.heap.soKey c = sk
    · rw [if_neg (by simp [hc])]
      have hmark : (w.heap.next c).marked = false := by
        rw [hB.1]
        rfl
      by_cases hk : C.eq (w.heap.key c) k = true
      · rw [if_pos hk]
        refine Reads.last (a := some (p, c)) ?_ ⟨rfl, rfl⟩
        refine .access rfl rfl ?_
        show Reads (if w.heap.soKey c ≠ sk then _ else _) _ w
        rw [if_neg (by simp [hc])]
        refine .access rfl rfl ?_
        show Reads (if (w.heap.next c).marked = true then _ else _) _ w
        rw [if_neg (by simp [hmark])]
        refine .access rfl rfl ?_
        show Reads (if C.eq (w.heap.key c) k = true then _ else _) _ w
        rw [if_pos hk]
        exact Reads.ret _ w
      · rw [if_neg hk]
        refine Reads.next (z := (c, B.head?, .plain B.head?)) ?_ (ih hB.2 _)
        refine .access rfl rfl ?_
        show Reads (if w.heap.soKey c ≠ sk then _ else _) _ w
        rw [if_neg (by simp [hc])]
        refine .access rfl rfl ?_
        show Reads (if (w.heap.next c).marked = true then _ else _) _ w
        rw [if_neg (by simp [hmark])]
        refine .access rfl rfl ?_
        show Reads (if C.eq (w.heap.key c) k = true then _ else _) _ w
        rw [if_neg hk]
        refine (advance_reads C w c).bind ?_
        rw [hB.1]
        exact Reads.ret _ w
    · rw [if_pos hc]
      refine Reads.last (a := none) ?_ ⟨rfl, rfl⟩
      refine .access rfl rfl ?_
      show Reads (if w.heap.soKey c ≠ sk then _ else _) _ w
      rw [if_pos hc]
      exact Reads.ret _ w

theorem inRun_reads (hB : Linked w.heap.next B) :
    Reads (inRun C sk k p B.head?) (findRun C w.heap sk k p B).isSome w := by
  cases B with
  | nil => exact Reads.ret _ w
  | cons c B =>
    have hscan : Reads (iterate (scanStep C sk k) (p, some c, .null))
        (findRun C w.heap sk k p (c :: B)) w := scan_reads hB .null
    refine .access rfl rfl ?_
    show Reads (if w.heap.soKey c = sk then _ else _) _ w
    by_cases hc : w.heap.soKey c = sk
    · rw [if_pos hc]
      have hmark : (w.heap.next c).marked = false := by
        rw [hB.1]
        rfl
      refine .access rfl rfl ((headMatches_reads C w k c hmark).bind ?_)
      cases hk : C.eq (w.heap.key c) k with
      | true =>
        unfold findRun
        rw [if_neg (by simp [hc]), if_pos hk]
        exact Reads.ret _ w
      | false => exact hscan.bind (Reads.ret _ w)
    · unfold findRun
      rw [if_neg hc, if_pos hc]
      exact Reads.ret _ w

omit [DecidableEq Addr] in
theorem findRun_some {r : Addr × Addr} (hr : findRun C h sk k p B = some r) :
    ∃ A' B', p :: B = A' ++ r.1 :: r.2 :: B' ∧ h.soKey r.2 = sk ∧ C.eq (h.key r.2) k = true := by
  induction B generalizing p with
  | nil => cases hr
  | cons c B ih =>
    unfold findRun at hr
    split at hr
    · cases hr
    · next hc =>
      split at hr
      · next hk =>
        obtain rfl := Option.some.inj hr
        exact ⟨[], B, rfl, not_not.mp hc, hk⟩
      · obtain ⟨A', B', heq, hrest⟩ := ih hr
        exact ⟨p :: A', B', by rw [heq]; rfl, hrest⟩

omit [DecidableEq Addr] in
theorem findRun_none (hsorted : B.Pairwise fun a b => h.soKey a ≤ h.soKey b)
    (hB : ∀ b ∈ B, sk ≤ h.soKey b) (hr : findRun C h sk k p B = none) :
    ∀ b ∈ B, h.soKey b = sk → C.eq (h.key b) k = false := by
  induction B generalizing p with
  | nil =>
    intro b hb
    cases hb
  | cons c B ih =>
    obtain ⟨hc, hsorted⟩ := List.pairwise_cons.mp hsorted
    unfold findRun at hr
    intro b hb hbk
    split at hr
    · next hne =>
      exfalso
      have hle := hB c (by simp)
      rcases List.mem_cons.mp hb with rfl | hb
      · exact hne hbk
      · have := hc b hb
        apply hne
        bv_omega
    · split at hr
      · cases hr
      · next hk =>
        rcases List.mem_cons.mp hb with rfl | hb
        · simpa using hk
        · exact ih hsorted (fun b hb => hB b (List.mem_cons_of_mem _ hb)) hr b hb hbk

omit [DecidableEq Addr] in
theorem lookup_some (hl : h.lookup C N k = some x) :
    x ∈ N ∧ isRegular (h.soKey x) = true ∧ C.eq (h.key x) k = true := by
  have hmem := List.mem_filter.mp (List.mem_of_find?_eq_some hl)
  have hk := List.find?_some (p := fun a => C.eq (h.key a) k) hl
  exact ⟨hmem.1, hmem.2, hk⟩

omit [DecidableEq Addr] in
theorem lookup_none (hl : h.lookup C N k = none) :
    ∀ a ∈ N, isRegular (h.soKey a) = true → C.eq (h.key a) k = false := by
  intro a ha hr
  have := List.find?_eq_none.mp hl a (List.mem_filter.mpr ⟨ha, hr⟩)
  simpa using this

omit [DecidableEq Addr] in
/-- There is one node for each key. -/
theorem Stores.lookup_eq (hC : C.Lawful) (hs : Stores C h N) (hx : x ∈ N)
    (hr : isRegular (h.soKey x) = true) (hk : C.eq (h.key x) k = true) :
    h.lookup C N k = some x := by
  cases hl : h.lookup C N k with
  | none =>
    have := lookup_none hl x hx hr
    rw [hk] at this
    cases this
  | some y =>
    obtain ⟨hy, hry, hky⟩ := lookup_some hl
    by_contra hne
    have hxy : x ≠ y := fun h => hne (h ▸ rfl)
    have : Std.Symm fun a b : Addr => C.eq (h.key a) (h.key b) = false :=
      ⟨fun _ _ => hC.toKeyEquiv.ne_symm⟩
    have hdist := hs.distinct.forall (List.mem_filter.mpr ⟨hx, hr⟩)
      (List.mem_filter.mpr ⟨hy, hry⟩) hxy
    rw [hC.trans _ _ _ hk (hC.symm _ _ hky)] at hdist
    cases hdist

omit [DecidableEq Addr] in
/-- The run behind the cut at the key of `k` holds the node of `k`. -/
theorem Stores.findRun_eq (hC : C.Lawful) (hs : Stores C h N)
    (hcut : CutAt h N (soKeyOf (C.mixedHash k)) A p B) :
    (findRun C h (soKeyOf (C.mixedHash k)) k p B).map Prod.snd = h.lookup C N k := by
  cases hr : findRun C h (soKeyOf (C.mixedHash k)) k p B with
  | some r =>
    obtain ⟨A', B', heq, hso, hk⟩ := findRun_some hr
    have hmem : r.2 ∈ N := by
      rw [hcut.eq, heq]
      simp
    refine (hs.lookup_eq hC hmem ?_ hk).symm
    rw [hso]
    exact isRegular_soKeyOf _
  | none =>
    have hsorted := hs.sorted
    rw [hcut.eq, List.pairwise_append, List.pairwise_cons] at hsorted
    have hB := findRun_none hsorted.2.1.2 hcut.above hr
    refine (List.find?_eq_none.mpr fun a ha => ?_).symm
    obtain ⟨ha, hra⟩ := List.mem_filter.mp ha
    rw [Bool.not_eq_true, Bool.eq_false_iff]
    intro hk
    -- its split-order key is the one that the run has
    have hso : h.soKey a = soKeyOf (C.mixedHash k) := by
      rw [hs.keyed a ha hra, Config.mixedHash, Config.mixedHash, hC.hash _ _ hk]
    rw [hcut.eq, List.append_cons] at ha
    rcases List.mem_append.mp ha with ha | ha
    · have hlt := hcut.below a ha
      rw [hso] at hlt
      exact BitVec.lt_irrefl _ hlt
    · have := hB a ha hso
      rw [hk] at this
      cases this

end Scan

end MpmcMap.Unordered
