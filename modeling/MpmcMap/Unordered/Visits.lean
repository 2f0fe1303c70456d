import MpmcMap.Unordered.Halted
import MpmcMap.Unordered.Marks
import MpmcMap.Unordered.Values

/-!
# Iteration over marked nodes

What `first_node` and `next_node` answer in a list in which stopped erasers have marked nodes.
`first_node` goes past them. The second phase of `next_node` tests the mark of the node that it
leaves, which is not marked, and not of the one that it comes to: it answers the next regular node,
marked or not.
-/

namespace MpmcMap.Unordered

open Conc
open Prog (perform iterate)

variable {Addr Key : Type} [DecidableEq Addr] {C : Config Key}

section Loops

variable {P : Word → Key → Prop} {T R A B : List Addr} {w u v : World Addr Key} {p t : Addr}
  {sk : Word} {k : Key}

/-- One node of a loop, and what comes after it. -/
theorem pass_bind {α : Type} {c : Addr} {Q : Option α → World Addr Key → Prop}
    {f : Place Addr → Code Addr Key α} (hl : Leads C P T w u (A ++ p :: c :: B))
    (hp : (u.heap.next p).marked = false) (tag : Link Addr)
    (hf : ∀ v A' q B', Leads C P T w v (A' ++ q :: B') → Passes u v A p c B A' q B' →
      B'.length + (v.choices .weak).length < cost (c :: B) T tag u →
      Finishes Q (f (placeOf q (B' ++ T))) v) :
    Finishes Q (if (u.heap.next c).marked then (help C p tag (u.heap.next c)).bind f
      else (advance C c).bind f) u := by
  have hpass := pass_finishes hl hp tag
  split at hpass
  · next hc =>
    rw [if_pos hc]
    refine Exits.bind hpass ?_ (fun _ h => ?_)
    · rintro _ v ⟨A', q, B', hx, hlv, hv, hcost⟩
      obtain rfl := Option.some.inj hx
      exact hf v A' q B' hlv hv hcost
    · obtain ⟨_, _, _, h, _⟩ := h
      cases h
  · next hc =>
    rw [if_neg hc]
    refine Exits.bind hpass ?_ (fun _ h => ?_)
    · rintro _ v ⟨A', q, B', hx, hlv, hv, hcost⟩
      obtain rfl := Option.some.inj hx
      exact hf v A' q B' hlv hv hcost
    · obtain ⟨_, _, _, h, _⟩ := h
      cases h

/-- The first phase of `next_node` goes to `t`. -/
theorem skip_leads (hP : ∀ so key, P so key → isRegular so = true → C.eq key k = false)
    (hl : Leads C P (t :: R) w u (A ++ p :: B)) (hp : (u.heap.next p).marked = false)
    (hB : ∀ b ∈ B, u.heap.soKey b = sk) (hsk : isRegular sk = true)
    (ht : (w.heap.next t).marked = false) (hso : w.heap.soKey t = sk)
    (hk : C.eq (w.heap.key t) k = true) (tag : Link Addr) :
    Finishes (fun x v => ∃ A' q tag', x = some (some (q, some t, tag')) ∧
        Leads C P (t :: R) w v A')
      (iterate (skipStep C sk k) (p, (B ++ t :: R).head?, tag)) u := by
  refine Exits.iterate (I := fun i place v => ∃ A' q B' tag',
      place = (q, (B' ++ t :: R).head?, tag') ∧ Leads C P (t :: R) w v (A' ++ q :: B') ∧
      (v.heap.next q).marked = false ∧ (∀ b ∈ B', v.heap.soKey b = sk) ∧
      cost B' (t :: R) tag' v = i)
    wellFounded_lt ⟨A, p, B, tag, rfl, hl, hp, hB, rfl⟩ ?_
  rintro i place v ⟨A', q, B', tag', rfl, hlv, hq, hB', rfl⟩
  cases B' with
  | nil =>
    -- the scan has come to `t` itself, which matches
    have hsame : v.heap.soKey t = sk := (hlv.soKey t (by simp)).trans hso
    have hmark : (v.heap.next t).marked = false := by
      rw [hlv.next t (by simp)]
      exact ht
    refine Finishes.access rfl rfl ?_
    show Finishes _ (if v.heap.soKey t ≠ sk then _ else _) v
    rw [if_neg (by simp [hsame])]
    refine Finishes.access rfl rfl ((headMatches_reads C v k t hmark).bind ?_)
    rw [hlv.agrees.key, hk]
    exact Exits.ret ⟨_, q, tag', rfl, hlv⟩
  | cons c B' =>
    have hsame : v.heap.soKey c = sk := hB' c (by simp)
    -- before `t` a node is marked or has another key
    have hno : Reads (headMatches C k c (v.heap.next c)) false v := by
      cases hm : (v.heap.next c).marked with
      | true =>
        unfold headMatches
        rw [if_pos hm]
        exact Reads.ret _ v
      | false =>
        have hne : C.eq (v.heap.key c) k = false := by
          apply hP _ _ (hlv.passed c (by simp) hm)
          rw [hsame]
          exact hsk
        rw [← hne]
        exact headMatches_reads C v k c hm
    refine Finishes.access rfl rfl ?_
    show Finishes _ (if v.heap.soKey c ≠ sk then _ else _) v
    rw [if_neg (by simp [hsame])]
    refine Finishes.access rfl rfl (hno.bind ?_)
    refine pass_bind hlv hq tag' fun v' A₁ q₁ B₁ hlv' hpass hcost => Exits.ret ⟨_, ?_, A₁, q₁, B₁,
      _, rfl, hlv', hpass.unmarked, fun b hb => ?_, rfl⟩
    · rw [cost_plain]
      exact hcost
    · rw [hpass.heap]
      exact hB' b (hpass.rest hb)

/-- `first_node` goes to the first regular node that is not marked. -/
theorem firstLoop_leads (hP : ∀ so key, P so key → isRegular so = false)
    (hl : Leads C P T w u (A ++ p :: B)) (hp : (u.heap.next p).marked = false)
    (hT : ∀ t ∈ T.head?, (w.heap.next t).marked = false ∧ isRegular (w.heap.soKey t) = true) :
    Finishes (fun x _ => x = some (T.head?.map w.heap.info))
      (iterate (firstStep C) (placeOf p (B ++ T))) u := by
  refine Exits.iterate (I := fun i place v => ∃ A' q B', place = placeOf q (B' ++ T) ∧
      Leads C P T w v (A' ++ q :: B') ∧ (v.heap.next q).marked = false ∧
      B'.length + (v.choices .weak).length = i)
    wellFounded_lt ⟨A, p, B, rfl, hl, hp, rfl⟩ ?_
  rintro i place v ⟨A', q, B', rfl, hlv, hq, rfl⟩
  cases B' with
  | nil =>
    cases T with
    | nil => exact Exits.ret rfl
    | cons t T =>
      obtain ⟨hmark, hreg⟩ := hT t rfl
      have hinfo : v.heap.info t = w.heap.info t := by
        rw [Heap.info, Heap.info, hlv.soKey t (by simp), hlv.agrees.key]
      refine Finishes.access rfl rfl ?_
      show Finishes _ (if (v.heap.next t).marked = true then _ else _) v
      rw [hlv.next t (by simp), if_neg (by simp [hmark])]
      refine Finishes.access rfl rfl ?_
      show Finishes _ (if isRegular (v.heap.soKey t) = true then _ else _) v
      rw [hlv.soKey t (by simp), if_pos hreg]
      refine (describe_reads t).bind (Exits.ret ?_)
      rw [hinfo]
      rfl
  | cons c B' =>
    have hnext : Finishes (fun x v' => x.elim (none = some (T.head?.map w.heap.info)) (Sum.elim (fun place' => ∃ i',
          i' < (c :: B').length + (v.choices .weak).length ∧ ∃ A₁ q₁ B₁,
            place' = placeOf q₁ (B₁ ++ T) ∧ Leads C P T w v' (A₁ ++ q₁ :: B₁) ∧
            (v'.heap.next q₁).marked = false ∧ B₁.length + (v'.choices .weak).length = i')
          fun r => some r = some (T.head?.map w.heap.info)))
        (if (v.heap.next c).marked then
          (help C q (.plain (some c)) (v.heap.next c)).bind fun place => .ret (.inl place)
        else (advance C c).bind fun place => .ret (.inl place)) v := by
      refine pass_bind hlv hq (.plain (some c)) fun v' A₁ q₁ B₁ hlv' hpass hcost =>
        Exits.ret ⟨_, ?_, A₁, q₁, B₁, rfl, hlv', hpass.unmarked, rfl⟩
      have hqB : (Link.plain (some c) : Link Addr) = .plain ((c :: B') ++ T).head? := rfl
      rw [hqB, cost_plain] at hcost
      exact hcost
    refine Finishes.access rfl rfl ?_
    cases hm : (v.heap.next c).marked with
    | true =>
      rw [if_pos hm] at hnext
      show Finishes _ (if (v.heap.next c).marked = true then _ else _) v
      rw [if_pos hm]
      exact hnext
    | false =>
      have hreg := hP _ _ (hlv.passed c (by simp) hm)
      rw [if_neg (by simp [hm])] at hnext
      show Finishes _ (if (v.heap.next c).marked = true then _ else _) v
      rw [if_neg (by simp [hm])]
      refine Finishes.access rfl rfl ?_
      show Finishes _ (if isRegular (v.heap.soKey c) = true then _ else _) v
      rw [if_neg (by simp [hreg])]
      exact hnext

end Loops

/-! ## The calls -/

section Calls

variable {w u v : World Addr Key} {h : Heap Addr Key} {A N R : List Addr} {a t : Addr} {k : Key}
  {mixed : Word}

/-- The elements: the regular nodes of `N` that are not marked. -/
def Heap.live (h : Heap Addr Key) (N : List Addr) : List Addr :=
  (h.regular N).filter fun a => !(h.next a).marked

/-- The node `t` is present and not marked, and the first of these with the key `k`; behind it
comes `R`. -/
structure Heap.Current (C : Config Key) (h : Heap Addr Key) (N : List Addr) (k : Key) (t : Addr)
    (R : List Addr) : Prop where
  split : ∃ A, N = A ++ t :: R ∧ ∀ a ∈ A, (h.next a).marked = false →
    isRegular (h.soKey a) = true → C.eq (h.key a) k = false
  regular : isRegular (h.soKey t) = true
  unmarked : (h.next t).marked = false
  key : C.eq (h.key t) k = true

omit [DecidableEq Addr] in
theorem Heap.live_eq (h : Heap Addr Key) (N : List Addr) :
    h.live N = N.filter fun a => !(h.next a).marked && isRegular (h.soKey a) :=
  List.filter_filter ..

/-- `first_node` answers the first element. -/
theorem firstNode_finishes (hs : Halted C w.heap N) :
    Finishes (fun x _ => x = some ((w.heap.live N).head?.map w.heap.info)) (firstNode C) w := by
  obtain ⟨d, hd, hbucket⟩ := hs.stores.head
  replace hbucket : w.heap.bucket w.heap.table 0 = some d := hbucket
  obtain ⟨M, rfl⟩ : ∃ M, N = d :: M := by
    cases N with
    | nil => cases hd
    | cons a M => exact ⟨M, by rw [Option.some.inj hd]⟩
  have hdummy : isRegular (w.heap.soKey d) = false :=
    hs.stores.not_regular hs.stores.size_pos hbucket
  have hmark := hs.dummies d (by simp) hdummy
  let isLive : Addr → Bool := fun a => !(w.heap.next a).marked && isRegular (w.heap.soKey a)
  -- the walk goes past `A` to the first element
  obtain ⟨A, T, hM, hA, hT, hhead⟩ : ∃ A T, M = A ++ T ∧ (∀ a ∈ A, isLive a = false) ∧
      (∀ t ∈ T.head?, isLive t = true) ∧ (w.heap.live (d :: M)).head? = T.head? := by
    refine ⟨M.takeWhile fun a => !isLive a, M.dropWhile fun a => !isLive a,
      List.takeWhile_append_dropWhile.symm, fun a ha => ?_, fun t ht => ?_, ?_⟩
    · simpa using List.mem_takeWhile_imp ha
    · have hfirst := List.head?_dropWhile_not (fun a => !isLive a) M
      rw [Option.mem_def.mp ht] at hfirst
      simpa using hfirst
    · rw [Heap.live_eq, List.filter_cons_of_neg (by simp [hdummy]), List.head?_filter]
      exact List.find?_eq_head?_dropWhile_not _ _
  rw [hhead]
  rw [hM] at hs
  have hpassed : ∀ a ∈ d :: A, (w.heap.next a).marked = false →
      isRegular (w.heap.soKey a) = false := by
    intro a ha hm
    rcases List.mem_cons.mp ha with rfl | ha
    · exact hdummy
    · have hno := hA a ha
      simpa [isLive, hm] using hno
  have hl : Leads C (fun so _ => isRegular so = false) T w w ([] ++ d :: A) := .refl hs hpassed
  refine (loadTable_reads C w).bind (Finishes.access rfl (loadBucket_bounded hs.stores.size_pos) ?_)
  rw [hbucket]
  refine (publish_reads C w HP_PREV d).bind ((follow_reads C w d).bind ?_)
  rw [hl.next_eq hmark]
  refine firstLoop_leads (fun _ _ h => h) hl hmark fun t ht => ?_
  have hlive := hT t ht
  simpa [isLive] using hlive

omit [DecidableEq Addr] in
/-- The nodes behind the goal are described as before. -/
theorem Leads.first_info {P : Word → Key → Prop} {T : List Addr} (hl : Leads C P T w u A)
    (hR : R ⊆ T) :
    (u.heap.regular R).head?.map u.heap.info = (w.heap.regular R).head?.map w.heap.info := by
  have hsame : u.heap.regular R = w.heap.regular R := by
    apply List.filter_congr
    intro b hb
    rw [hl.soKey b (hR hb)]
  rw [hsame]
  apply Option.map_congr
  intro b hhead
  have hb := hR (Heap.mem_regular.mp (List.mem_of_mem_head? hhead)).1
  rw [Heap.info, Heap.info, hl.soKey b hb, hl.agrees.key]

/-- `next_node` answers the first regular node behind the current one, marked or not. -/
theorem nextNode_visits (hC : C.Lawful) (hpick : w.heap.Allocates) (hs : Halted C w.heap N)
    (ht : w.heap.Current C N k t R) (hk : Suits mixed (soKeyOf (C.mixedHash k))) :
    Finishes (fun x _ => x.elim (¬ w.choices.Calm) fun r =>
        r = (w.heap.regular R).head?.map w.heap.info)
      (nextNode C mixed (soKeyOf (C.mixedHash k)) k) w := by
  obtain ⟨A, rfl, hA⟩ := ht.split
  have hso : w.heap.soKey t = soKeyOf (C.mixedHash k) := by
    have hkeyed : w.heap.soKey t = soKeyOf (C.mixedHash (w.heap.key t)) :=
      hs.stores.keyed t (by simp) ht.regular
    rw [hkeyed, Config.mixedHash, Config.mixedHash, hC.hash _ _ ht.key]
  have hreg := isRegular_soKeyOf (C.mixedHash k)
  have hl : Leads C (fun so key => isRegular so = true → C.eq key k = false) (t :: R) w w A :=
    .refl hs hA
  refine Exits.bind (locate_leads hl hpick hk ?_ ?_) ?_ fun _ h => h
  · intro b hb
    obtain rfl := Option.some.inj hb
    rw [hso]
    exact BitVec.le_refl _
  · intro so key hdummy hregular
    rw [hdummy] at hregular
    cases hregular
  · rintro _ v ⟨u, M, A', q, B', rfl, hat⟩
    -- between the place found and `t` there is only the run of the key
    have hB' : ∀ b ∈ B', v.heap.soKey b = soKeyOf (C.mixedHash k) := by
      intro b hb
      have hge : soKeyOf (C.mixedHash k) ≤ v.heap.soKey b :=
        hat.cut.above b (List.mem_append_left _ hb)
      have hsorted := (List.pairwise_append.mp hat.leads.halted.stores.sorted).2.2 b (by simp [hb]) t
        (by simp)
      replace hsorted : v.heap.soKey b ≤ v.heap.soKey t := hsorted
      rw [hat.leads.soKey t (by simp), hso] at hsorted
      bv_omega
    refine Exits.bind (skip_leads (fun _ _ h => h) hat.leads hat.unmarked hB' hreg ht.unmarked hso
      ht.key .null) ?_ (fun _ h => ?_)
    · rintro _ v' ⟨A₁, q₁, tag, hx, hlv⟩
      obtain rfl := Option.some.inj hx
      have hlinked := hlv.halted.stores.linked.suffix
      have hmark : (v'.heap.next t).marked = false := by
        rw [hlv.next t (by simp)]
        exact ht.unmarked
      refine Exits.mono (nextLoop_reads hreg hlinked hmark (fun b hb hb' => ?_) tag) ?_
      · exact hlv.halted.dummies b (by simp [hb]) hb'
      · rintro x v'' ⟨rfl, rfl⟩
        exact hlv.first_info (List.subset_cons_self t R)
    · obtain ⟨_, _, _, h, _⟩ := h
      cases h

/-! ## Marked nodes as elements -/

/-- A call that runs alone, with a number of steps. -/
def World.call {α : Type} (w : World Addr Key) (p : Code Addr Key α) (fuel : Nat) :
    Option (Option α × World Addr Key) :=
  (p.attempt throwing).run (fun o w => Act.alone o w) fuel w

/-- The call returns, and not by an exception. -/
def World.Completes {α : Type} (w : World Addr Key) (p : Code Addr Key α) : Prop :=
  Returns (w.call p) fun r => r.1.isSome = true

/-- Where the call returns, it describes the first element among the nodes `N`. -/
def World.Visits (w : World Addr Key) (p : Code Addr Key (Option (NodeInfo Key))) (N : List Addr) :
    Prop :=
  ∀ fuel r u, w.call p fuel = some (some r, u) → r = (w.heap.live N).head?.map w.heap.info

/-- The first regular node of `R` is not marked, or it looks like the first element of `R`. -/
def Heap.Unmarked (h : Heap Addr Key) (R : List Addr) : Prop :=
  ∀ b ∈ (h.regular R).head?,
    (h.next b).marked = false ∨ ∃ c ∈ (h.live R).head?, h.info c = h.info b

omit [DecidableEq Addr] in
theorem Heap.first_iff (h : Heap Addr Key) (R : List Addr) :
    (h.regular R).head?.map h.info = (h.live R).head?.map h.info ↔ h.Unmarked R := by
  unfold Heap.Unmarked Heap.live
  cases hr : h.regular R with
  | nil => simp
  | cons b R' =>
    cases hm : (h.next b).marked with
    | false =>
      rw [List.filter_cons_of_pos (by simp [hm])]
      simp [hm]
    | true =>
      rw [List.filter_cons_of_neg (by simp [hm])]
      cases hl : (R'.filter fun a => !(h.next a).marked).head? with
      | none => simp [hm]
      | some c =>
        simp only [List.head?_cons, Option.map_some, Option.some.injEq, Option.mem_some_iff,
          forall_eq', exists_eq_left', hm, Bool.true_eq_false, false_or]
        exact eq_comm

/-- `first_node` describes the first element. Where nothing throws `next_node` returns, and then it
describes the first element behind the current node exactly if the first regular node there is not a
marked one, or cannot be told from that element. -/
theorem visits_iff (hC : C.Lawful) (hpick : w.heap.Allocates) (hs : Halted C w.heap N)
    (ht : w.heap.Current C N k t R) (hk : Suits mixed (soKeyOf (C.mixedHash k))) :
    (w.Completes (firstNode C) ∧ w.Visits (firstNode C) N) ∧
    (w.choices.Calm → w.Completes (nextNode C mixed (soKeyOf (C.mixedHash k)) k)) ∧
    (w.Completes (nextNode C mixed (soKeyOf (C.mixedHash k)) k) →
      (w.Visits (nextNode C mixed (soKeyOf (C.mixedHash k)) k) R ↔ w.heap.Unmarked R)) := by
  have hfirst := Ends.returns Solo.of_executes (ends_unbounded (firstNode_finishes hs))
  have hnext := Ends.returns Solo.of_executes (ends_unbounded (nextNode_visits hC hpick hs ht hk))
  refine ⟨⟨hfirst.mono fun r hr => ?_, fun fuel r u hrun => ?_⟩, fun hcalm => ?_, fun hdone => ?_⟩
  · rw [show r.1 = _ from hr]
    rfl
  · exact Option.some.inj (hfirst.of_eq hrun)
  · refine hnext.mono fun r hr => ?_
    cases hx : r.1 with
    | none =>
      rw [hx] at hr
      exact absurd hcalm hr
    | some x => rfl
  · rw [← Heap.first_iff]
    constructor
    · intro hvisits
      obtain ⟨⟨x, u⟩, hx, ⟨F, hF⟩, -⟩ := hdone
      obtain ⟨r, rfl⟩ := Option.isSome_iff_exists.mp hx
      have hrun := hF F (Nat.le_refl F)
      have hr : r = _ := hnext.of_eq hrun
      rw [← hr]
      exact hvisits F r u hrun
    · intro hsame fuel r u hrun
      have hr : r = _ := hnext.of_eq hrun
      rw [hr, hsame]

end Calls

/-! ## Stopped erasers -/

section Stopped

open Label (whole)

/-- Nodes 1 and 2 are inserted, and thread 1 stops when it has marked node 2. -/
def stoppedEraser : List (Label (Request Nat Nat)) :=
  whole 0 (.insert 1 0) 13 ++ whole 0 (.insert 2 11) 17 ++
    .call 1 (.erase 11) :: List.replicate 17 (.step 1 false)

/-- The call of `next_node` at the key 0. -/
abbrev nextOfZero : Code Nat Nat (Option (NodeInfo Nat)) :=
  nextNode epochal (epochal.mixedHash 0) (soKeyOf (epochal.mixedHash 0)) 0

/-- The node behind the one of the key 0 is marked, and it is what `next_node` answers. -/
theorem next_marked :
    ¬ ∀ (C : Config Nat) (key : Nat → Nat) (head : Nat) (pick : Nat → Finset Nat → Nat)
      (threshold : Nat → Nat), (∀ n F, pick n F ∉ F) →
      ∀ c : Conc.Config (Op Nat Nat) (Heap Nat Nat) (Request Nat Nat) (Answer Nat Nat),
        (list C).Reachable (Heap.new key head pick threshold) c →
        ∀ N, N.head? = some head → Linked (fun a => (c.shared.next a).clearMark) N →
        (N.Pairwise fun a b => c.shared.soKey a ≤ c.shared.soKey b) →
        ∀ k t R, c.shared.Current C N k t R →
          (⟨c.shared, fun _ => [], []⟩ : World Nat Nat).Visits
            (nextNode C (C.mixedHash k) (soKeyOf (C.mixedHash k)) k) R := by
  intro hall
  have hrun : ((list epochal).exec (SharedObject.start (Heap.new id 0 nextBlock id))
      stoppedEraser).map (fun c => decide (c.shared.next 0 = .plain (some 1) ∧
        c.shared.next 1 = .plain (some 2) ∧ c.shared.next 2 = ⟨none, true⟩ ∧
        c.shared.soKey 0 ≤ c.shared.soKey 1 ∧ c.shared.soKey 1 ≤ c.shared.soKey 2 ∧
        isRegular (c.shared.soKey 0) = false ∧ isRegular (c.shared.soKey 1) = true ∧
        c.shared.key 1 = 0 ∧ ((⟨c.shared, fun _ => [], []⟩ : World Nat Nat).call nextOfZero 60).map
          (fun r => r.1.map fun i => i.map NodeInfo.key) = some (some (some 11)))) = some true := by
    decide +kernel
  obtain ⟨c, hc, hval⟩ := Option.map_eq_some_iff.mp hrun
  obtain ⟨h0, h1, h2, hle, hle', hreg0, hreg1, hkey, hcall⟩ := of_decide_eq_true hval
  obtain ⟨⟨r, u⟩, hr, hinfo⟩ := Option.map_eq_some_iff.mp hcall
  obtain ⟨i, rfl, hi⟩ := Option.map_eq_some_iff.mp hinfo
  have hlinked : Linked (fun a => (c.shared.next a).clearMark) [0, 1, 2] := by
    refine ⟨?_, ?_, ?_, trivial⟩
    · show (c.shared.next 0).clearMark = _
      rw [h0]
      rfl
    · show (c.shared.next 1).clearMark = _
      rw [h1]
      rfl
    · show (c.shared.next 2).clearMark = _
      rw [h2]
      rfl
  have hcurrent : c.shared.Current epochal [0, 1, 2] 0 1 [2] := by
    refine ⟨⟨[0], rfl, fun a ha _ hr => ?_⟩, hreg1, ?_, ?_⟩
    · rw [List.mem_singleton.mp ha, hreg0] at hr
      cases hr
    · rw [h1]
      rfl
    · rw [hkey]
      rfl
  have hends : c.shared.soKey 0 ≤ c.shared.soKey 2 := by bv_omega
  have hvisits := hall epochal id 0 nextBlock id nextBlock_notMem c
    ((list epochal).reachable_exec _ hc) [0, 1, 2] rfl hlinked
    (by simp [hle, hle', hends]) 0 1 [2] hcurrent 60 i u hr
  have hlive : c.shared.live [2] = [] := by simp [Heap.live, Heap.regular, h2]
  rw [hvisits] at hi
  replace hi : ((c.shared.live [2]).head?.map c.shared.info).map NodeInfo.key = some 11 := hi
  rw [hlive] at hi
  cases hi

/-- Three elements of one run, of which a stopped eraser has marked the first; the current node is the
second. -/
theorem visits_iff_marked :
    ∃ (w : World Nat Nat) (N : List Nat), Halted colliding w.heap N ∧ (w.heap.next 3).marked = true ∧
      w.heap.regular N = [3, 2, 1] ∧ w.Visits (firstNode colliding) N ∧
      w.Visits (nextNode colliding (colliding.mixedHash 2) (soKeyOf (colliding.mixedHash 2)) 2)
        [1] := by
  have hrun : (runJobs colliding 300 [.call (.emplace 1), .call (.emplace 2), .call (.emplace 3)]
      (newNumbers (floatFactor 1))).map (fun r => decide (
        r.2.world.heap.next 0 = .plain (some 3) ∧ r.2.world.heap.next 3 = .plain (some 2) ∧
        r.2.world.heap.next 2 = .plain (some 1) ∧ r.2.world.heap.next 1 = .plain none ∧
        r.2.world.heap.key 2 = 2 ∧ r.2.world.heap.regular [0, 3, 2, 1] = [3, 2, 1] ∧
        r.2.world.heap.bucket r.2.world.heap.table 0 = some 0)) = some true := by
    decide +kernel
  obtain ⟨⟨rs, s⟩, hs, hval⟩ := Option.map_eq_some_iff.mp hrun
  obtain ⟨h0, h3, h2, h1, hkey, hregular, hbucket⟩ := of_decide_eq_true hval
  obtain ⟨N, hN⟩ := (runJobs_stored colliding_lawful pickAbove_fresh hs).between
  obtain ⟨d, hd, hb⟩ := hN.stores.head
  obtain rfl : d = 0 := Option.some.inj (hb.symm.trans hbucket)
  obtain rfl : N = [0, 3, 2, 1] := hN.stores.linked.unique ⟨h0, h3, h2, h1, trivial⟩ hd
  have hreg : ∀ a ∈ [3, 2, 1], isRegular (s.world.heap.soKey a) = true := by
    intro a ha
    rw [← hregular] at ha
    exact (Heap.mem_regular.mp ha).2
  have hreg0 : isRegular (s.world.heap.soKey 0) = false := by
    rw [← Bool.not_eq_true]
    intro htrue
    have hmem : 0 ∈ s.world.heap.regular [0, 3, 2, 1] := Heap.mem_regular.mpr ⟨by simp, htrue⟩
    rw [hregular] at hmem
    exact absurd hmem (by decide)
  let h := s.world.heap.setNext 3 (s.world.heap.next 3).setMarked
  have hhalted : Halted colliding h [0, 3, 2, 1] := hN.stores.halted.mark (hreg 3 (by simp))
  have hmark : (h.next 3).marked = true := by
    show ((s.world.heap.setNext 3 _).next 3).marked = true
    rw [Heap.setNext_self]
    rfl
  have hplain : ∀ a, a ≠ 3 → h.next a = s.world.heap.next a :=
    fun a ha => Heap.setNext_of_ne _ _ ha
  have hcurrent : h.Current colliding [0, 3, 2, 1] 2 2 [1] := by
    refine ⟨⟨[0, 3], rfl, fun a ha hm hr => ?_⟩, hreg 2 (by simp), ?_, ?_⟩
    · replace hr : isRegular (s.world.heap.soKey a) = true := hr
      rcases List.mem_pair.mp ha with rfl | rfl
      · rw [hreg0] at hr
        cases hr
      · rw [hmark] at hm
        cases hm
    · rw [hplain 2 (by decide), h2]
      rfl
    · show colliding.eq (s.world.heap.key 2) 2 = true
      rw [hkey]
      rfl
  let w : World Nat Nat := ⟨h, fun _ => [], []⟩
  have hpick : w.heap.Allocates := hN.allocates
  have hcalm : w.choices.Calm := fun _ _ => List.not_mem_nil
  obtain ⟨⟨-, hfirst⟩, hdone, hnext⟩ := visits_iff (w := w) colliding_lawful hpick hhalted hcurrent
    (suits_soKeyOf (colliding.mixedHash 2))
  refine ⟨w, [0, 3, 2, 1], hhalted, hmark, hregular, hfirst, (hnext (hdone hcalm)).mpr ?_⟩
  intro b hb
  obtain ⟨hmem, -⟩ := Heap.mem_regular.mp (List.mem_of_mem_head? hb)
  obtain rfl := List.mem_singleton.mp hmem
  refine .inl ?_
  show (h.next 1).marked = false
  rw [hplain 1 (by decide), h1]
  rfl

end Stopped

end MpmcMap.Unordered
