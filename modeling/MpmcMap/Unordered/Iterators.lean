import MpmcMap.Unordered.Updates
import Mathlib.Data.List.TakeWhile

/-!
# Clear and iteration in one thread

`clear_impl` leaves the dummies. `first_node` and `next_node` go through the regular nodes of the
list in order; `next_node` finds the node that it starts from by its key.
-/

namespace MpmcMap.Unordered

open Conc
open Prog (perform iterate)

variable {Addr Key : Type} [DecidableEq Addr] {C : Config Key}

section

variable {w w' u v : World Addr Key} {h : Heap Addr Key} {A B N : List Addr} {p t : Addr} {k : Key}
  {mixed sk : Word}

/-! ## Clear -/

/-- The nodes of `N` that hold no element. -/
def Heap.dummies (h : Heap Addr Key) (N : List Addr) : List Addr :=
  N.filter fun a => !isRegular (h.soKey a)

/-- The regular nodes of `B`, which comes behind `p`, are destroyed. -/
structure Sweeps (C : Config Key) (w w' : World Addr Key) (A : List Addr) (p : Addr)
    (B : List Addr) : Prop where
  stores : Stores C w'.heap (A ++ p :: w.heap.dummies B)
  heap : w'.heap = { w.heap with
    next := w'.heap.next, inUse := w'.heap.inUse, freed := w'.heap.freed }
  inUse : ∀ a, a ∈ w'.heap.inUse ↔ a ∈ w.heap.inUse ∧ a ∉ w.heap.regular B
  choices : w'.choices = w.choices
  log : w'.log = w.log ++ (w.heap.regular B).map .destroy

/-- A regular node is unlinked and destroyed. -/
def World.without (w : World Addr Key) (p c : Addr) (B : List Addr) : World Addr Key :=
  { w with
    heap := (w.heap.setNext p (.plain B.head?)).release c
    log := w.log ++ [.destroy c] }

theorem Stores.without {c : Addr} (hs : Stores C w.heap (A ++ p :: c :: B))
    (hc : isRegular (w.heap.soKey c) = true) : Stores C (w.without p c B).heap (A ++ p :: B) := by
  have hrem : Stores C { w.heap with next := Function.update w.heap.next p (.plain B.head?) }
      (A ++ p :: B) :=
    hs.remove hc (Function.update_self _ _ _) fun a _ hap _ => Function.update_of_ne hap _ _
  refine hrem.congr (fun _ _ => rfl) (fun _ _ => rfl) (fun _ _ _ => rfl) (fun a ha => ?_)
    ⟨rfl, rfl, rfl, rfl, rfl⟩
  have hn := (perm_insert A B p c).nodup_iff.mp hs.nodup
  refine Finset.mem_erase.mpr ⟨?_, hrem.alive a ha⟩
  rintro rfl
  exact (List.nodup_cons.mp hn).1 ha

theorem Sweeps.without {c : Addr} (hc : isRegular (w.heap.soKey c) = true)
    (h : Sweeps C (w.without p c B) v A p B) : Sweeps C w v A p (c :: B) where
  stores := by
    have hd : w.heap.dummies (c :: B) = w.heap.dummies B := List.filter_cons_of_neg (by simp [hc])
    rw [hd]
    exact h.stores
  heap := by
    rw [h.heap]
    rfl
  inUse := by
    have hr : w.heap.regular (c :: B) = c :: w.heap.regular B := Heap.regular_cons_pos hc
    intro a
    rw [h.inUse, hr, List.mem_cons]
    show a ∈ w.heap.inUse.erase c ∧ a ∉ w.heap.regular B ↔ _
    rw [Finset.mem_erase]
    tauto
  choices := h.choices
  log := by
    have hr : w.heap.regular (c :: B) = c :: w.heap.regular B := Heap.regular_cons_pos hc
    rw [h.log, hr]
    show (w.log ++ [_]) ++ _ = _
    rw [List.append_assoc]
    rfl

omit [DecidableEq Addr] in
theorem Sweeps.past {c : Addr} (hc : isRegular (w.heap.soKey c) = false)
    (h : Sweeps C w v (A ++ [p]) c B) : Sweeps C w v A p (c :: B) := by
  have hd : w.heap.dummies (c :: B) = c :: w.heap.dummies B := List.filter_cons_of_pos (by simp [hc])
  have hr : w.heap.regular (c :: B) = w.heap.regular B := Heap.regular_cons_neg hc
  refine ⟨?_, h.heap, ?_, h.choices, ?_⟩
  · rw [hd, List.append_cons]
    exact h.stores
  · rw [hr]
    exact h.inUse
  · rw [hr]
    exact h.log

theorem clearLoop_finishes (hs : Stores C w.heap (A ++ p :: B)) :
    Finishes (fun x v => x = some () ∧ Sweeps C w v A p B) (iterate clearStep (p, B.head?)) w := by
  induction B generalizing A p w with
  | nil =>
    refine Reads.last (Reads.ret _ w) ⟨rfl, hs, rfl, fun a => ?_, rfl, ?_⟩
    · simp [Heap.regular]
    · simp [Heap.regular]
  | cons c B ih =>
    have hs' := hs
    rw [List.append_cons] at hs'
    have hnext : w.heap.next c = .plain B.head? := hs'.linked.next_eq
    have hremoved : Reads (if (w.heap.next c).marked then return false
        else do return isRegular (← perform (.loadSoKey c)) : Code Addr Key Bool)
        (isRegular (w.heap.soKey c)) w := by
      rw [if_neg (by rw [hnext]; simp [Link.plain])]
      exact Finishes.access rfl rfl (Reads.ret _ w)
    refine Exits.unroll (Finishes.access rfl rfl (hremoved.bind ?_))
    show Finishes _ (if isRegular (w.heap.soKey c) = true then _ else
      Prog.ret (Sum.inl (c, (w.heap.next c).ptr))) _
    rw [hnext]
    split
    · next hc =>
      refine Finishes.access rfl rfl (Finishes.access (v := w.without p c B) rfl rfl
        (Exits.ret ?_))
      refine Exits.mono (ih (hs.without hc)) ?_
      rintro x v ⟨rfl, hv⟩
      exact ⟨rfl, hv.without hc⟩
    · next hc =>
      rw [Bool.not_eq_true] at hc
      refine Exits.ret (Exits.mono (ih hs') ?_)
      rintro x v ⟨rfl, hv⟩
      exact ⟨rfl, hv.past hc⟩

/-- `clear_impl` destroys the regular nodes and counts none. -/
structure Clears (C : Config Key) (w w' : World Addr Key) (N : List Addr) : Prop where
  stores : Stores C w'.heap (w.heap.dummies N)
  heap : w'.heap = { w.heap with
    next := w'.heap.next, inUse := w'.heap.inUse, freed := w'.heap.freed, count := 0 }
  inUse : ∀ a, a ∈ w'.heap.inUse ↔ a ∈ w.heap.inUse ∧ a ∉ w.heap.regular N
  choices : w'.choices = w.choices
  log : w'.log = w.log ++ (w.heap.regular N).map .destroy

theorem clearImpl_finishes (hs : Stores C w.heap N) :
    Finishes (fun x v => x = some () ∧ Clears C w v N) clearImpl w := by
  obtain ⟨d, hd, hbucket⟩ := hs.head
  obtain ⟨B, rfl⟩ : ∃ B, N = d :: B := by
    cases N with
    | nil => cases hd
    | cons a B => exact ⟨B, by rw [Option.some.inj hd]⟩
  have hdummy := hs.not_regular hs.size_pos hbucket
  refine Finishes.access rfl rfl (Finishes.access rfl (loadBucket_bounded hs.size_pos) ?_)
  rw [hbucket]
  have hnext : w.heap.next d = .plain B.head? := hs.linked.1
  refine Finishes.access rfl rfl ?_
  show Finishes _ (Prog.bind (iterate clearStep (d, (w.heap.next d).ptr)) _) _
  rw [hnext]
  refine Exits.bind (clearLoop_finishes (A := []) hs) ?_ (fun _ h => by cases h.1)
  rintro _ v ⟨-, hv⟩
  have hr : w.heap.regular (d :: B) = w.heap.regular B := Heap.regular_cons_neg hdummy
  refine Finishes.access rfl rfl (Exits.ret ⟨rfl, ?_⟩)
  constructor
  · have hds : w.heap.dummies (d :: B) = d :: w.heap.dummies B :=
      List.filter_cons_of_pos (by simp [hdummy])
    rw [hds]
    exact hv.stores.congr (fun _ _ => rfl) (fun _ _ => rfl) (fun _ _ _ => rfl) hv.stores.alive
      ⟨rfl, rfl, rfl, rfl, rfl⟩
  · show { v.heap with count := 0 } = _
    rw [hv.heap]
  · rw [hr]
    exact hv.inUse
  · exact hv.choices
  · rw [hr]
    exact hv.log

/-! ## Iteration -/

/-- What an iterator keeps of the node `a`. -/
def Heap.info (h : Heap Addr Key) (a : Addr) : NodeInfo Key :=
  ⟨rebuiltHash (h.soKey a), h.soKey a, h.key a⟩

theorem describe_reads (a : Addr) : Reads (describe a) (w.heap.info a) w :=
  Finishes.access rfl rfl (Finishes.access rfl rfl (Reads.ret _ w))

theorem firstLoop_reads (hB : Linked w.heap.next B) (tagged : Link Addr) :
    Reads (iterate (firstStep C) (p, B.head?, tagged))
      ((w.heap.regular B).head?.map w.heap.info) w := by
  induction B generalizing p tagged with
  | nil => exact Reads.last (Reads.ret _ w) ⟨rfl, rfl⟩
  | cons c B ih =>
    have hmark : (w.heap.next c).marked = false := by
      rw [hB.1]
      rfl
    cases hc : isRegular (w.heap.soKey c) with
    | true =>
      rw [Heap.regular_cons_pos hc]
      refine Reads.last (a := some (w.heap.info c)) ?_ ⟨rfl, rfl⟩
      refine Finishes.access rfl rfl ?_
      show Reads (if (w.heap.next c).marked = true then _ else _) _ w
      rw [if_neg (by simp [hmark])]
      refine Finishes.access rfl rfl ?_
      show Reads (if isRegular (w.heap.soKey c) = true then _ else _) _ w
      rw [if_pos hc]
      exact (describe_reads c).bind (Reads.ret _ w)
    | false =>
      rw [Heap.regular_cons_neg hc]
      refine Reads.next (z := placeOf c B) ?_ (ih hB.2 _)
      refine Finishes.access rfl rfl ?_
      show Reads (if (w.heap.next c).marked = true then _ else _) _ w
      rw [if_neg (by simp [hmark])]
      refine Finishes.access rfl rfl ?_
      show Reads (if isRegular (w.heap.soKey c) = true then _ else _) _ w
      rw [if_neg (by simp [hc])]
      refine (advance_reads C w c).bind ?_
      rw [hB.1]
      exact Reads.ret _ w

/-- `first_node` answers the first regular node. -/
theorem firstNode_reads (hs : Stores C w.heap N) :
    Reads (firstNode C) ((w.heap.regular N).head?.map w.heap.info) w := by
  obtain ⟨d, hd, hbucket⟩ := hs.head
  obtain ⟨B, rfl⟩ : ∃ B, N = d :: B := by
    cases N with
    | nil => cases hd
    | cons a B => exact ⟨B, by rw [Option.some.inj hd]⟩
  have hdummy := hs.not_regular hs.size_pos hbucket
  have hr : w.heap.regular (d :: B) = w.heap.regular B := Heap.regular_cons_neg hdummy
  refine (loadTable_reads C w).bind (Finishes.access rfl (loadBucket_bounded hs.size_pos) ?_)
  rw [hbucket, hr]
  refine (publish_reads C w HP_PREV d).bind ((follow_reads C w d).bind ?_)
  rw [hs.linked.1]
  exact firstLoop_reads hs.linked.2 _

/-- The first phase of `next_node` finds the node of the key. -/
theorem skip_reads (hB : Linked w.heap.next B) (tagged : Link Addr) :
    Finishes (fun x u => u = w ∧ ∃ tag, x = some ((findRun C w.heap sk k p B).map
        fun r => (r.1, some r.2, tag)))
      (iterate (skipStep C sk k) (p, B.head?, tagged)) w := by
  induction B generalizing p tagged with
  | nil => exact Reads.last (Reads.ret _ w) ⟨rfl, .null, rfl⟩
  | cons c B ih =>
    unfold findRun
    by_cases hc : w.heap.soKey c = sk
    · have hmark : (w.heap.next c).marked = false := by
        rw [hB.1]
        rfl
      rw [if_neg (by simp [hc])]
      cases hk : C.eq (w.heap.key c) k with
      | true =>
        refine Reads.last (a := some (p, some c, tagged)) ?_ ⟨rfl, tagged, rfl⟩
        refine Finishes.access rfl rfl ?_
        show Reads (if w.heap.soKey c ≠ sk then _ else _) _ w
        rw [if_neg (by simp [hc])]
        refine Finishes.access rfl rfl ((headMatches_reads C w k c hmark).bind ?_)
        rw [hk]
        exact Reads.ret _ w
      | false =>
        refine Reads.next (z := placeOf c B) ?_ (ih hB.2 _)
        refine Finishes.access rfl rfl ?_
        show Reads (if w.heap.soKey c ≠ sk then _ else _) _ w
        rw [if_neg (by simp [hc])]
        refine Finishes.access rfl rfl ((headMatches_reads C w k c hmark).bind ?_)
        rw [hk]
        show Reads (if (w.heap.next c).marked = true then _ else _) _ w
        rw [if_neg (by simp [hmark])]
        refine (advance_reads C w c).bind ?_
        rw [hB.1]
        exact Reads.ret _ w
    · rw [if_pos hc]
      refine Reads.last (a := none) ?_ ⟨rfl, .null, rfl⟩
      refine Finishes.access rfl rfl ?_
      show Reads (if w.heap.soKey c ≠ sk then _ else _) _ w
      rw [if_pos hc]
      exact Reads.ret _ w

/-- The second phase of `next_node` answers the next regular node, marked or not. -/
theorem nextLoop_reads {c : Addr} (hsk : isRegular sk = true)
    (hB : Linked (fun a => (w.heap.next a).clearMark) (c :: B))
    (hc : (w.heap.next c).marked = false)
    (hd : ∀ b ∈ B, isRegular (w.heap.soKey b) = false → (w.heap.next b).marked = false)
    (tagged : Link Addr) :
    Reads (iterate (nextStep C sk) (p, some c, tagged))
      ((w.heap.regular B).head?.map w.heap.info) w := by
  have hnext : (w.heap.next c).ptr = B.head? := congrArg Link.ptr hB.1
  induction B generalizing p c tagged with
  | nil =>
    refine Reads.last (a := none) ?_ ⟨rfl, rfl⟩
    refine Finishes.access rfl rfl ?_
    show Reads (if (w.heap.next c).marked = true then _ else _) _ w
    rw [if_neg (by simp [hc])]
    refine (advance_reads C w c).bind ?_
    rw [hnext]
    exact Reads.ret _ w
  | cons b B ih =>
    -- one turn moves past an unmarked node and looks at the next
    have hgo : ∀ {r : Place Addr ⊕ Option (NodeInfo Key)},
        Reads (if w.heap.soKey b = sk ∨ isRegular (w.heap.soKey b) = true then do
            return .inr (some (← describe b))
          else return .inl (c, some b, w.heap.next c) : Code Addr Key _) r w →
        Reads (nextStep C sk (p, some c, tagged)) r w := by
      intro r hr
      refine Finishes.access rfl rfl ?_
      show Reads (if (w.heap.next c).marked = true then _ else _) _ w
      rw [if_neg (by simp [hc])]
      refine (advance_reads C w c).bind ?_
      rw [hnext]
      exact Finishes.access rfl rfl hr
    cases hb : isRegular (w.heap.soKey b) with
    | true =>
      rw [Heap.regular_cons_pos hb]
      refine Reads.last (a := some (w.heap.info b)) (hgo ?_) ⟨rfl, rfl⟩
      rw [if_pos (.inr hb)]
      exact (describe_reads b).bind (Reads.ret _ w)
    | false =>
      rw [Heap.regular_cons_neg hb]
      refine Reads.next (z := (c, some b, w.heap.next c)) (hgo ?_)
        (ih hB.2 (hd b (by simp) hb) (fun b hb => hd b (List.mem_cons_of_mem _ hb)) _
          (congrArg Link.ptr hB.2.1))
      -- a dummy is no entry, so its key is not the one started from
      have hne : w.heap.soKey b ≠ sk := by
        rintro rfl
        rw [hb] at hsk
        cases hsk
      rw [if_neg (by simp [hne, hb])]
      exact Reads.ret _ w

/-- The element behind the one of the key `k`, or none if the key is absent. -/
def Heap.successor (C : Config Key) (h : Heap Addr Key) (N : List Addr) (k : Key) : Option Addr :=
  ((h.regular N).dropWhile fun a => !C.eq (h.key a) k).tail.head?

omit [DecidableEq Addr] in
theorem Stores.successor_eq {R R' : List Addr} (hC : C.Lawful) (hs : Stores C h N)
    (hreg : h.regular N = R ++ t :: R') (hk : C.eq (h.key t) k = true) :
    h.successor C N k = R'.head? := by
  have hdist := hs.distinct
  rw [hreg, List.pairwise_append] at hdist
  have hbefore : ∀ a ∈ R, (!C.eq (h.key a) k) = true := by
    intro a ha
    have hat := hdist.2.2 a ha t (by simp)
    rw [Bool.not_eq_true', Bool.eq_false_iff]
    intro hak
    rw [hC.trans _ _ _ hak (hC.symm _ _ hk)] at hat
    cases hat
  rw [Heap.successor, hreg, List.dropWhile_append_of_pos hbefore,
    List.dropWhile_cons_of_neg (by simp [hk])]
  rfl

omit [DecidableEq Addr] in
theorem successor_of_absent (hl : h.lookup C N k = none) : h.successor C N k = none := by
  have hall : (h.regular N).dropWhile (fun a => !C.eq (h.key a) k) = [] := by
    rw [List.dropWhile_eq_nil_iff]
    intro a ha
    have hmem := List.mem_filter.mp ha
    rw [lookup_none hl a hmem.1 hmem.2]
    rfl
  rw [Heap.successor, hall]
  rfl

/-- `next_node` answers the element behind the one of its key, and nothing if the key is absent. -/
theorem nextNode_finishes (hC : C.Lawful) (hpick : w.heap.Allocates) (hs : Stores C w.heap N)
    (hk : Suits mixed (soKeyOf (C.mixedHash k))) :
    Finishes (fun x w' => x.elim (Starves C w w' N (w.heap.lack mixed)) fun r =>
        ∃ N' new, Prepares C w w' N N' new mixed ∧ r = (w.heap.successor C N k).map w.heap.info)
      (nextNode C mixed (soKeyOf (C.mixedHash k)) k) w := by
  refine Exits.bind (locate_finishes hC hpick hs hk) ?_ fun u hu => hu
  rintro _ u ⟨N', new, A, p, B, hg, hlen, hlack, hcut, rfl⟩
  have hprep : Prepares C w u N N' new mixed := ⟨hg, hlen, hlack⟩
  have hB : Linked u.heap.next B := (hcut.eq ▸ hg.stores.linked).suffix.2
  have hfind := hg.stores.findRun_eq hC hcut
  have hsucc : u.heap.successor C N' k = w.heap.successor C N k := by
    rw [Heap.successor, Heap.successor, hg.regular hs, hg.agrees.key]
  have hinfo : (w.heap.successor C N k).map u.heap.info =
      (w.heap.successor C N k).map w.heap.info := by
    refine Option.map_congr fun a ha => ?_
    have hmem : a ∈ w.heap.regular N := by
      have h1 := List.mem_of_mem_tail (List.mem_of_mem_head? ha)
      exact (List.dropWhile_sublist _).subset h1
    rw [Heap.info, Heap.info, hg.soKey a (hs.alive a (List.mem_filter.mp hmem).1), hg.agrees.key]
  have hskip : Finishes (fun x v => v = u ∧ ∃ tag, x = some
      ((findRun C u.heap (soKeyOf (C.mixedHash k)) k p B).map fun r => (r.1, some r.2, tag)))
      (iterate (skipStep C (soKeyOf (C.mixedHash k)) k) (p, B.head?, .null)) u :=
    skip_reads hB .null
  refine Exits.bind hskip ?_ ?_
  · rintro x u' ⟨rfl, tag, hx⟩
    obtain rfl := Option.some.inj hx
    cases hr : findRun C u'.heap (soKeyOf (C.mixedHash k)) k p B with
    -- the element is no longer in its run: the iteration ends
    | none =>
      rw [hr] at hfind
      refine Exits.ret ⟨N', new, hprep, ?_⟩
      rw [← hsucc, successor_of_absent hfind.symm]
      rfl
    | some r =>
      -- from the element that was found on to the next regular node
      obtain ⟨A', B', heq, hso, hkr⟩ := findRun_some hr
      have hN : N' = (A ++ A' ++ [r.1]) ++ r.2 :: B' := by
        rw [hcut.eq, heq]
        simp
      have hreg : isRegular (u'.heap.soKey r.2) = true := by
        rw [hso]
        exact isRegular_soKeyOf _
      obtain ⟨hlinked, hmark⟩ := (hN ▸ hg.stores.linked).suffix.unmarked
      refine Exits.mono (nextLoop_reads (p := r.1) (isRegular_soKeyOf _) hlinked
        (hmark _ (by simp)) (fun b hb _ => hmark b (List.mem_cons_of_mem _ hb)) tag) ?_
      rintro x v ⟨rfl, rfl⟩
      refine ⟨N', new, hprep, ?_⟩
      have hsplit : v.heap.regular N' = v.heap.regular (A ++ A' ++ [r.1]) ++ r.2 :: v.heap.regular B' := by
        rw [hN, Heap.regular_append, Heap.regular_cons_pos hreg]
      rw [← hinfo, ← hsucc, hg.stores.successor_eq hC hsplit hkr]
  · rintro u' ⟨-, _, h⟩
    cases h

end

end MpmcMap.Unordered
