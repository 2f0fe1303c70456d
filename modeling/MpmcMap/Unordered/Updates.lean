import MpmcMap.Unordered.Buckets

/-!
# Searches and updates in one thread

`find_node`, `insert_node` and `erase_node`, run alone: the node that they find is the one of their
key, and the list that they leave has one node more or one node less. An allocation that throws
while the bucket is located leaves the elements as they were.
-/

namespace MpmcMap.Unordered

open Conc
open Prog (perform iterate)

variable {Addr Key : Type} [DecidableEq Addr] {C : Config Key}

/-- The bucket of `mixed` has been located: the dummies `new` were missing. -/
structure Prepares (C : Config Key) (w w' : World Addr Key) (N N' new : List Addr) (mixed : Word) :
    Prop extends Grows C w w' N N' new where
  length : new.length = w.heap.lack mixed
  lack : w'.heap.lack mixed = 0

section

variable {w u v : World Addr Key} {A B N N' : List Addr} {n p : Addr} {k : Key} {sk mixed : Word}

/-! ## Search -/

/-- The search in the run behind the cut. -/
theorem findTail_reads (hB : Linked w.heap.next B) :
    Reads (match B.head? with
      | none => return none
      | some cur => do
        if (← perform (.loadSoKey cur)) ≠ sk then
          return none
        else
          let rnx ← perform (.loadNext cur)
          if ← headMatches C k cur rnx then
            return some cur
          else
            return (← scanRun C sk k p cur).map Prod.snd)
      ((findRun C w.heap sk k p B).map Prod.snd) w := by
  cases B with
  | nil => exact Reads.ret _ w
  | cons c B =>
    have hscan : Reads (iterate (scanStep C sk k) (p, some c, .null))
        (findRun C w.heap sk k p (c :: B)) w := scan_reads hB .null
    refine Finishes.access rfl rfl ?_
    show Reads (if w.heap.soKey c ≠ sk then _ else _) _ w
    by_cases hc : w.heap.soKey c = sk
    · rw [if_neg (by simp [hc])]
      have hmark : (w.heap.next c).marked = false := by
        rw [hB.1]
        rfl
      refine Finishes.access rfl rfl ((headMatches_reads C w k c hmark).bind ?_)
      cases hk : C.eq (w.heap.key c) k with
      | true =>
        unfold findRun
        rw [if_neg (by simp [hc]), if_pos hk]
        exact Reads.ret _ w
      | false => exact hscan.bind (Reads.ret _ w)
    · unfold findRun
      rw [if_pos hc, if_pos hc]
      exact Reads.ret _ w

/-- `find_node` finds the node of its key. -/
theorem findNode_finishes (hC : C.Lawful) (hpick : w.heap.Allocates) (hs : Stores C w.heap N)
    (k : Key) :
    Finishes (fun x w' => x.elim (Starves C w w' N (w.heap.lack (C.mixedHash k))) fun r =>
        ∃ N' new, Prepares C w w' N N' new (C.mixedHash k) ∧ r = w.heap.lookup C N k)
      (findNode C k (C.mixedHash k) (soKeyOf (C.mixedHash k))) w := by
  refine Exits.bind (locate_finishes hC hpick hs (suits_soKeyOf _)) ?_ fun u hu => hu
  rintro _ u ⟨N', new, A, p, B, hg, hlen, hlack, hcut, rfl⟩
  have hB : Linked u.heap.next B := (hcut.eq ▸ hg.stores.linked).suffix.2
  refine Exits.mono (findTail_reads hB) ?_
  rintro x u' ⟨rfl, rfl⟩
  refine ⟨N', new, ⟨hg, hlen, hlack⟩, ?_⟩
  rw [hg.stores.findRun_eq hC hcut, hg.lookup hs]

/-! ## Insertion -/

/-- The key that `insert_node` stores in its node. -/
def World.withSoKey (w : World Addr Key) (n : Addr) (sk : Word) : World Addr Key :=
  { w with heap := { w.heap with soKey := Function.update w.heap.soKey n sk } }

/-- The node `n` is linked and counted. -/
structure Inserts (C : Config Key) (w w' : World Addr Key) (N : List Addr) (n : Addr)
    (A : List Addr) (p : Addr) (B : List Addr) : Prop where
  links : ∃ v, Links C w v N n A p B ∧
    w' = { v with heap := { v.heap with count := v.heap.count + 1 } }

/-- One attempt of `insert_node`, once the key is located. -/
theorem insertTail_finishes (ha : Attempts w u n) (hs : Stores C w.heap N) (hn : n ∉ N)
    (hso : w.heap.soKey n = sk) (hcut : CutAt u.heap N sk A p B) :
    Finishes (fun x v => x.elim False (Sum.elim
        (fun _ => (findRun C u.heap sk k p B).isSome = false ∧ Attempts w v n ∧
          (v.choices .weak).length < (u.choices .weak).length)
        fun r : InsertResult => ((findRun C u.heap sk k p B).isSome = true ∧ r = .INSERT_DUPLICATE ∧ v = u) ∨
          ((findRun C u.heap sk k p B).isSome = false ∧ r = .INSERT_OK ∧
            Inserts C w v N n A p B)))
      (do
        if ← inRun C sk k p B.head? then
          return .inr .INSERT_DUPLICATE
        else
          perform (.storeNext n (.plain B.head?))
          let expected ← perform (.loadNext p)
          if expected.marked then
            return .inl ()
          else if expected.ptr = B.head? then
            if ← perform (.casNextWeak p expected (.plain (some n))) then
              perform .addCount
              return .inr .INSERT_OK
            else
              return .inl ()
          else
            return .inl ()) u := by
  have hsu := ha.stores hs hn
  have hB : Linked u.heap.next B := (hcut.eq ▸ hsu.linked).suffix.2
  refine (inRun_reads hB).bind ?_
  cases hr : (findRun C u.heap sk k p B).isSome with
  | true => exact Exits.ret (.inl ⟨rfl, rfl, rfl⟩)
  | false =>
    have hcut' : CutAt w.heap N (w.heap.soKey n) A p B := by
      rw [hso]
      exact hcut.congr fun a _ => by rw [ha.heap]
    -- pointing `n` at its successor leaves the link of the predecessor alone
    have hp : (u.heap.setNext n (.plain B.head?)).next p = .plain B.head? := by
      have hne : p ≠ n := by
        rintro rfl
        exact hn (by simp [hcut.eq])
      show Function.update _ _ _ _ = _
      rw [Function.update_of_ne hne]
      exact (hcut.eq ▸ hsu.linked).next_eq
    refine Finishes.access rfl rfl (Finishes.access rfl rfl ?_)
    show Finishes _ (if ((u.heap.setNext n (.plain B.head?)).next p).marked = true then
      Prog.ret (Sum.inl ()) else if ((u.heap.setNext n (.plain B.head?)).next p).ptr = B.head?
        then _ else Prog.ret (Sum.inl ())) _
    rw [hp, if_neg (by simp [Link.plain]), if_pos (show (Link.plain B.head?).ptr = B.head? from rfl)]
    refine casNextWeak_finishes hp ?_ fun hw => ?_
    · refine Finishes.access rfl rfl (Exits.ret (.inr ⟨rfl, rfl, ⟨_, ha.link hn hcut', rfl⟩⟩))
    -- a spurious failure, of which one fewer is left
    · exact Exits.ret ⟨rfl, ha.again _, weak_lt hw⟩

omit [DecidableEq Addr] in
theorem Attempts.findRun_isSome (hC : C.Lawful) (ha : Attempts w u n) (hs : Stores C w.heap N)
    (hn : n ∉ N) (hcut : CutAt u.heap N (soKeyOf (C.mixedHash k)) A p B) :
    (findRun C u.heap (soKeyOf (C.mixedHash k)) k p B).isSome = (w.heap.lookup C N k).isSome := by
  rw [← Option.isSome_map (f := Prod.snd), (ha.stores hs hn).findRun_eq hC hcut, ha.heap]
  rfl

omit [DecidableEq Addr] in
theorem isSome_of_lack (h : w.heap.lack mixed = 0) :
    (w.heap.bucket w.heap.table (bucketOf mixed (w.heap.size w.heap.table))).isSome = true := by
  unfold Heap.lack lackAt at h
  by_contra hne
  rw [if_neg hne] at h
  omega

/-- The loop of `insert_node`. -/
theorem insertLoop_finishes (hC : C.Lawful) (hpick : w.heap.Allocates) (hs : Stores C w.heap N)
    (hn : n ∉ N) (halive : n ∈ w.heap.inUse) (hso : w.heap.soKey n = soKeyOf (C.mixedHash k)) :
    Finishes (fun x w' => x.elim (Starves C w w' N (w.heap.lack (C.mixedHash k))) fun r : InsertResult =>
        ∃ N' new u, Prepares C w u N N' new (C.mixedHash k) ∧
          (((w.heap.lookup C N k).isSome = true ∧ r = .INSERT_DUPLICATE ∧ w' = u) ∨
            ((w.heap.lookup C N k).isSome = false ∧ r = .INSERT_OK ∧
              ∃ A p B, Inserts C u w' N' n A p B)))
      (iterate (fun (_ : Unit) => do
        let (prev, cur) ← locate C (C.mixedHash k) (soKeyOf (C.mixedHash k))
        if ← inRun C (soKeyOf (C.mixedHash k)) k prev cur then
          return .inr .INSERT_DUPLICATE
        else
          perform (.storeNext n (.plain cur))
          let expected ← perform (.loadNext prev)
          if expected.marked then
            return .inl ()
          else if expected.ptr = cur then
            if ← perform (.casNextWeak prev expected (.plain (some n))) then
              perform .addCount
              return .inr .INSERT_OK
            else
              return .inl ()
          else
            return .inl ()) ()) w := by
  refine Exits.unroll (Exits.bind (locate_finishes hC hpick hs (suits_soKeyOf _)) ?_ fun u hu => hu)
  rintro _ u ⟨N', new, A, p, B, hg, hlen, hlack, hcut, rfl⟩
  have hprep : Prepares C w u N N' new (C.mixedHash k) := ⟨hg, hlen, hlack⟩
  have hn' : n ∉ N' := by
    intro hmem
    rcases List.mem_append.mp (hg.perm.mem_iff.mp hmem) with hnew | hold
    · exact hg.fresh n hnew halive
    · exact hn hold
  have hso' : u.heap.soKey n = soKeyOf (C.mixedHash k) := (hg.soKey n halive).trans hso
  have hlook : u.heap.lookup C N' k = w.heap.lookup C N k := hg.lookup hs k
  refine Exits.mono (insertTail_finishes (attempts_refl u n) hg.stores hn' hso' hcut) ?_
  have hfind := (attempts_refl u n).findRun_isSome hC hg.stores hn' hcut
  rw [hlook] at hfind
  rintro (_ | _ | r) v hx
  · exact hx.elim
  · -- a spurious failure: from here on the dummies are there
    obtain ⟨hnone, ha, hlt⟩ := hx
    refine Exits.iterate (I := fun i _ v => Attempts u v n ∧ (v.choices .weak).length = i)
      wellFounded_lt ⟨ha, rfl⟩ ?_
    rintro i ⟨⟩ v ⟨ha, rfl⟩
    have hbucket : (v.heap.bucket v.heap.table
        (bucketOf (C.mixedHash k) (v.heap.size v.heap.table))).isSome = true := by
      rw [ha.heap]
      exact isSome_of_lack hlack
    refine Exits.bind (locate_reads (ha.stores hg.stores hn') (suits_soKeyOf _) hbucket
      (Q := fun x v' => v' = v ∧ ∃ A p B, CutAt v.heap N' (soKeyOf (C.mixedHash k)) A p B ∧
        x = some (p, B.head?)) fun A p B hcut => ⟨rfl, A, p, B, hcut, rfl⟩) ?_ ?_
    · rintro _ v' ⟨rfl, A, p, B, hcut, hx⟩
      obtain rfl := Option.some.inj hx
      refine Exits.mono (insertTail_finishes ha hg.stores hn' hso' hcut) ?_
      have hfind' := ha.findRun_isSome hC hg.stores hn' hcut
      rw [hlook, ← hfind, hnone] at hfind'
      rintro (_ | _ | r) v'' hx
      · exact hx.elim
      · exact ⟨_, hx.2.2, hx.2.1, rfl⟩
      · rcases hx with ⟨hsome, -, -⟩ | ⟨-, hr, hi⟩
        · rw [hfind'] at hsome
          cases hsome
        · exact ⟨N', new, u, hprep, .inr ⟨hfind.symm.trans hnone, hr, A, p, B, hi⟩⟩
    · rintro u' ⟨-, _, _, _, -, h⟩
      cases h
  · rcases hx with ⟨hsome, hr, hv⟩ | ⟨hnone, hr, hi⟩
    · exact ⟨N', new, u, hprep, .inl ⟨hfind.symm.trans hsome, hr, hv⟩⟩
    · exact ⟨N', new, u, hprep, .inr ⟨hfind.symm.trans hnone, hr, A, p, B, hi⟩⟩

/-- The key of a node outside the list does not matter. -/
theorem Stores.withSoKey (hs : Stores C w.heap N) (hn : n ∉ N) (sk : Word) :
    Stores C (w.withSoKey n sk).heap N :=
  hs.congr (fun _ _ => rfl) (fun _ ha => Function.update_of_ne (ne_of_mem_of_not_mem ha hn) _ _)
    (fun _ _ _ => rfl) hs.alive ⟨rfl, rfl, rfl, rfl, rfl⟩

theorem lookup_withSoKey (hn : n ∉ N) (sk : Word) (k : Key) :
    (w.withSoKey n sk).heap.lookup C N k = w.heap.lookup C N k := by
  have hreg : (w.withSoKey n sk).heap.regular N = w.heap.regular N := by
    apply List.filter_congr
    intro a ha
    show isRegular (Function.update w.heap.soKey n sk a) = _
    rw [Function.update_of_ne (ne_of_mem_of_not_mem ha hn)]
  rw [Heap.lookup, hreg]
  rfl

/-- `insert_node` links its node if the key is absent. -/
theorem insertNode_finishes (hC : C.Lawful) (hpick : w.heap.Allocates) (hs : Stores C w.heap N)
    (hn : n ∉ N) (halive : n ∈ w.heap.inUse) (k : Key) :
    Finishes (fun x w' => x.elim
        (Starves C (w.withSoKey n (soKeyOf (C.mixedHash k))) w' N (w.heap.lack (C.mixedHash k)))
        fun r : InsertResult => ∃ N' new u,
          Prepares C (w.withSoKey n (soKeyOf (C.mixedHash k))) u N N' new (C.mixedHash k) ∧
          (((w.heap.lookup C N k).isSome = true ∧ r = .INSERT_DUPLICATE ∧ w' = u) ∨
            ((w.heap.lookup C N k).isSome = false ∧ r = .INSERT_OK ∧
              ∃ A p B, Inserts C u w' N' n A p B)))
      (insertNode C n (C.mixedHash k) (soKeyOf (C.mixedHash k)) k) w := by
  have hloop := insertLoop_finishes hC (w := w.withSoKey n (soKeyOf (C.mixedHash k))) (k := k) hpick
    (hs.withSoKey hn _) hn halive (Function.update_self _ _ _)
  rw [lookup_withSoKey hn] at hloop
  exact Finishes.access rfl rfl hloop

/-! ## Erase -/

/-- The node `t` is marked and unlinked from behind `p`. -/
def World.unlinked (w : World Addr Key) (p t : Addr) (B : List Addr) : World Addr Key :=
  { w with
    heap := (w.heap.setNext t (Link.plain B.head?).setMarked).setNext p (.plain B.head?) }

/-- `reclaimer::retire` does not throw, and the node is counted out. -/
def World.retiring (w : World Addr Key) (t : Addr) : World Addr Key :=
  { w with
    heap := { w.heap with retired := w.heap.retired ++ [t], count := w.heap.count - 1 }
    choices := w.choices.next .retire }

/-- How an erase that has found the node `t` leaves: `retire` comes before the count. -/
def Erased (w : World Addr Key) (p t : Addr) (B : List Addr) (returned : Bool)
    (w' : World Addr Key) : Prop :=
  if returned then w.choices.head .retire = false ∧ w' = (w.unlinked p t B).retiring t
  else w.choices.head .retire = true ∧
    w' = { w.unlinked p t B with choices := w.choices.next .retire }

variable {t : Addr}

theorem Stores.unlinked (hs : Stores C w.heap (A ++ p :: t :: B))
    (ht : isRegular (w.heap.soKey t) = true) : Stores C (w.unlinked p t B).heap (A ++ p :: B) := by
  refine hs.remove ht (Function.update_self _ _ _) fun a _ hap hat => ?_
  rw [Function.update_of_ne hap]
  exact Function.update_of_ne hat _ _

/-- The end of an erase, once the node is marked. -/
theorem finishErase_finishes (hs : Stores C w.heap (A ++ p :: t :: B)) :
    Finishes (fun x v => Erased w p t B x.isSome v) (finishErase C p t mixed sk)
      { w with heap := w.heap.setNext t (Link.plain B.head?).setMarked } := by
  have hpt : p ≠ t := by
    have hn := hs.nodup
    rw [List.nodup_append, List.nodup_cons] at hn
    rintro rfl
    exact hn.2.1.1 (by simp)
  have hnext : w.heap.next p = .plain (some t) := hs.linked.next_eq
  have hself : (w.heap.setNext t (Link.plain B.head?).setMarked).next t
      = (Link.plain B.head?).setMarked := Function.update_self _ _ _
  have hp : (w.heap.setNext t (Link.plain B.head?).setMarked).next p = .plain (some t) :=
    (Function.update_of_ne hpt _ _).trans hnext
  refine Exits.bind (T := fun x v => x = some () ∧ v = w.unlinked p t B) ?_ ?_ (fun _ h => by cases h.1)
  · refine Finishes.access rfl rfl ?_
    refine Finishes.access (r := true) (v := w.unlinked p t B) rfl ?_ (Exits.ret ⟨rfl, rfl⟩)
    simp only [Op.bounded, Op.alone, Op.apply, Heap.compareExchange, hp, hself]
    rfl
  · rintro _ v ⟨-, rfl⟩
    refine Exits.act (T := fun x v => (x, v) = (Own.retireNode t).alone (w.unlinked p t B))
      (Until.perform rfl (Ends.ret rfl)) ?_ ?_
    · intro _ v hv
      unfold Own.alone at hv
      dsimp only at hv
      split at hv
      · cases hv
      · next hretire =>
        obtain ⟨-, rfl⟩ := Prod.mk.inj hv
        exact Finishes.access rfl rfl (Exits.ret ⟨Bool.eq_false_iff.mpr hretire, rfl⟩)
    · intro v hv
      unfold Own.alone at hv
      dsimp only at hv
      split at hv
      · next hretire =>
        obtain ⟨-, rfl⟩ := Prod.mk.inj hv
        exact ⟨hretire, rfl⟩
      · cases hv

/-- How an attempt of `erase_node` leaves once the key is located. -/
def EraseTail (C : Config Key) (w : World Addr Key) (k : Key) (p : Addr) (B : List Addr)
    (x : Option Bool) (v : World Addr Key) : Prop :=
  match findRun C w.heap (soKeyOf (C.mixedHash k)) k p B with
  | none => x = some false ∧ v = w
  | some r => ∃ A' B', p :: B = A' ++ r.1 :: r.2 :: B' ∧ x ≠ some false ∧
      Erased w r.1 r.2 B' x.isSome v

/-- The two ways to leave an attempt; none of them asks for another one. -/
abbrev EraseAttempt (C : Config Key) (w : World Addr Key) (k : Key) (p : Addr) (B : List Addr)
    (x : Option (Unit ⊕ Bool)) (v : World Addr Key) : Prop :=
  x.elim (EraseTail C w k p B none v)
    (Sum.elim (fun _ => False) fun b => EraseTail C w k p B (some b) v)

/-- The node is there: it is marked and unlinked. -/
theorem eraseFound_finishes {r : Addr × Addr} {L B' : List Addr} (hs : Stores C w.heap N)
    (hcut : CutAt w.heap N (soKeyOf (C.mixedHash k)) A p B)
    (hr : findRun C w.heap (soKeyOf (C.mixedHash k)) k p B = some r)
    (heq : p :: B = L ++ r.1 :: r.2 :: B') :
    Finishes (EraseAttempt C w k p B)
      ((finishErase C r.1 r.2 mixed (soKeyOf (C.mixedHash k))).bind fun _ =>
        .ret (.inr true))
      { w with heap := w.heap.setNext r.2 (Link.plain B'.head?).setMarked } := by
  have hN : N = (A ++ L) ++ r.1 :: r.2 :: B' := by
    rw [hcut.eq, heq, List.append_assoc]
  refine Exits.bind (finishErase_finishes (hN ▸ hs)) ?_ ?_
  · intro _ v hv
    refine Exits.ret ?_
    show EraseTail C w k p B (some true) v
    unfold EraseTail
    rw [hr]
    exact ⟨L, B', heq, by simp, hv⟩
  · intro v hv
    show EraseTail C w k p B none v
    unfold EraseTail
    rw [hr]
    exact ⟨L, B', heq, by simp, hv⟩

/-- A node of the list can be marked. -/
theorem casMark_alone (hs : Stores C w.heap N) {A' B' : List Addr} (hN : N = A' ++ t :: B') :
    (Op.casNext t (w.heap.next t) (w.heap.next t).setMarked : Op Addr Key Bool).bounded w =
      some (true, { w with heap := w.heap.setNext t (Link.plain B'.head?).setMarked }) := by
  have hnext : w.heap.next t = .plain B'.head? := (hN ▸ hs.linked).next_eq
  simp [Op.bounded, Op.alone, Op.apply, Heap.compareExchange, hnext]

/-- The slow path of `erase_node`. -/
theorem eraseScan_finishes {c : Addr} (hs : Stores C w.heap N)
    (hcut : CutAt w.heap N (soKeyOf (C.mixedHash k)) A p (c :: B)) :
    Finishes (EraseAttempt C w k p (c :: B))
      (eraseScan C k mixed (soKeyOf (C.mixedHash k)) p c) w := by
  have hB : Linked w.heap.next (c :: B) := (hcut.eq ▸ hs.linked).suffix.2
  have hscan : Reads (iterate (scanStep C (soKeyOf (C.mixedHash k)) k) (p, some c, .null))
      (findRun C w.heap (soKeyOf (C.mixedHash k)) k p (c :: B)) w := scan_reads hB .null
  refine hscan.bind ?_
  cases hr : findRun C w.heap (soKeyOf (C.mixedHash k)) k p (c :: B) with
  | none =>
    refine Exits.ret ?_
    show EraseTail C w k p (c :: B) (some false) w
    unfold EraseTail
    rw [hr]
    exact ⟨rfl, rfl⟩
  | some r =>
    obtain ⟨A', B', heq, -, -⟩ := findRun_some hr
    have hN : N = (A ++ A' ++ [r.1]) ++ r.2 :: B' := by
      rw [hcut.eq, heq]
      simp
    have hmark : (w.heap.next r.2).marked = false := by
      rw [(hN ▸ hs.linked : Linked w.heap.next ((A ++ A' ++ [r.1]) ++ r.2 :: B')).next_eq]
      rfl
    refine Finishes.access rfl rfl ?_
    show Finishes _ (if (w.heap.next r.2).marked = true then Prog.ret (Sum.inl ()) else _) _
    rw [if_neg (by simp [hmark])]
    exact Finishes.access rfl (casMark_alone hs hN) (eraseFound_finishes hs hcut hr heq)

/-- The first attempt of `erase_node` is the last one. -/
theorem eraseTail_finishes (hs : Stores C w.heap N)
    (hcut : CutAt w.heap N (soKeyOf (C.mixedHash k)) A p B) :
    Finishes (EraseAttempt C w k p B)
      (match B.head? with
      | none => return .inr false
      | some cur => do
        if (← perform (.loadSoKey cur)) ≠ soKeyOf (C.mixedHash k) then
          return .inr false
        else if ← markHead C k cur then
          finishErase C p cur mixed (soKeyOf (C.mixedHash k))
          return .inr true
        else
          eraseScan C k mixed (soKeyOf (C.mixedHash k)) p cur :
            Code Addr Key (Unit ⊕ Bool)) w := by
  cases B with
  | nil => exact Exits.ret ⟨rfl, rfl⟩
  | cons c B =>
    have hB : Linked w.heap.next (c :: B) := (hcut.eq ▸ hs.linked).suffix.2
    have hN : N = (A ++ [p]) ++ c :: B := by
      rw [hcut.eq]
      simp
    have hmark : (w.heap.next c).marked = false := by
      rw [hB.1]
      rfl
    refine Finishes.access rfl rfl ?_
    show Finishes _ (if w.heap.soKey c ≠ soKeyOf (C.mixedHash k) then Prog.ret (Sum.inr false)
      else _) _
    -- only a node with the key's hash can be the head of its run
    by_cases hc : w.heap.soKey c = soKeyOf (C.mixedHash k)
    · rw [if_neg (by simp [hc])]
      cases hk : C.eq (w.heap.key c) k with
      | true =>
        have hr : findRun C w.heap (soKeyOf (C.mixedHash k)) k p (c :: B) = some (p, c) := by
          unfold findRun
          rw [if_neg (by simp [hc]), if_pos hk]
        refine Exits.bind (T := fun x v => x = some true ∧
          v = { w with heap := w.heap.setNext c (Link.plain B.head?).setMarked }) ?_ ?_
          (fun _ h => by cases h.1)
        · refine Finishes.access rfl rfl ((headMatches_reads C w k c hmark).bind ?_)
          rw [hk]
          exact Finishes.access rfl (casMark_alone hs hN) (Exits.ret ⟨rfl, rfl⟩)
        · rintro _ v ⟨hx, rfl⟩
          obtain rfl := Option.some.inj hx
          exact eraseFound_finishes (L := []) hs hcut hr rfl
      | false =>
        refine Exits.bind (T := fun x v => x = some false ∧ v = w) ?_ ?_ (fun _ h => by cases h.1)
        · refine Finishes.access rfl rfl ((headMatches_reads C w k c hmark).bind ?_)
          rw [hk]
          exact Exits.ret ⟨rfl, rfl⟩
        · rintro _ v ⟨hx, rfl⟩
          obtain rfl := Option.some.inj hx
          exact eraseScan_finishes hs hcut
    · rw [if_pos hc]
      refine Exits.ret ?_
      show EraseTail C w k p (c :: B) (some false) w
      unfold EraseTail findRun
      rw [if_pos hc]
      exact ⟨rfl, rfl⟩

/-- How `erase_node` leaves: an allocation throws first, the key is absent, or its node is unlinked
and handed to the reclaimer. -/
inductive Erases (C : Config Key) (w : World Addr Key) (N : List Addr) (k : Key) :
    Option Bool → World Addr Key → Prop where
  | starved {w' : World Addr Key} :
      Starves C w w' N (w.heap.lack (C.mixedHash k)) → Erases C w N k none w'
  | absent {w' : World Addr Key} {N' new : List Addr} :
      Prepares C w w' N N' new (C.mixedHash k) → w.heap.lookup C N k = none →
      Erases C w N k (some false) w'
  | present {x : Option Bool} {u w' : World Addr Key} {A B new : List Addr} {p t : Addr} :
      Prepares C w u N (A ++ p :: t :: B) new (C.mixedHash k) → w.heap.lookup C N k = some t →
      x ≠ some false → Erased u p t B x.isSome w' → Erases C w N k x w'

/-- `erase_node` with a hash from which its key can be located. -/
theorem eraseAt_finishes (hC : C.Lawful) (hpick : w.heap.Allocates) (hs : Stores C w.heap N)
    (hk : Suits mixed (soKeyOf (C.mixedHash k))) :
    Finishes (fun x v => (x = none ∧ Starves C w v N (w.heap.lack mixed)) ∨
        ∃ N' new u A p B, Prepares C w u N N' new mixed ∧
          CutAt u.heap N' (soKeyOf (C.mixedHash k)) A p B ∧ EraseTail C u k p B x v)
      (eraseNode C k mixed (soKeyOf (C.mixedHash k))) w := by
  refine Exits.unroll (Exits.bind (locate_finishes hC hpick hs hk) ?_ fun u hu => .inl ⟨rfl, hu⟩)
  rintro _ u ⟨N', new, A, p, B, hg, hlen, hlack, hcut, rfl⟩
  have hdone : ∀ (x : Option Bool) v, EraseTail C u k p B x v →
      (x = none ∧ Starves C w v N (w.heap.lack mixed)) ∨ ∃ N' new u A p B,
        Prepares C w u N N' new mixed ∧ CutAt u.heap N' (soKeyOf (C.mixedHash k)) A p B ∧
          EraseTail C u k p B x v :=
    fun x v hx => .inr ⟨N', new, u, A, p, B, ⟨hg, hlen, hlack⟩, hcut, hx⟩
  refine Exits.mono (eraseTail_finishes hg.stores hcut) ?_
  rintro (_ | _ | b) v hx
  · exact hdone none v hx
  · exact hx.elim
  · exact hdone (some b) v hx

/-- The end of an erase, in terms of the node of the key. -/
theorem EraseTail.cases {x : Option Bool} {v : World Addr Key} (hC : C.Lawful)
    (hs : Stores C w.heap N) (hcut : CutAt w.heap N (soKeyOf (C.mixedHash k)) A p B)
    (hx : EraseTail C w k p B x v) :
    (x = some false ∧ v = w ∧ w.heap.lookup C N k = none) ∨
      ∃ A' p' t B', N = A' ++ p' :: t :: B' ∧ w.heap.lookup C N k = some t ∧ x ≠ some false ∧
        Erased w p' t B' x.isSome v := by
  have hfind := hs.findRun_eq hC hcut
  unfold EraseTail at hx
  cases hr : findRun C w.heap (soKeyOf (C.mixedHash k)) k p B with
  | none =>
    rw [hr] at hx hfind
    obtain ⟨rfl, rfl⟩ := hx
    exact .inl ⟨rfl, rfl, hfind.symm⟩
  | some r =>
    rw [hr] at hx hfind
    obtain ⟨A', B', heq, hne, he⟩ := hx
    have hN : N = (A ++ A') ++ r.1 :: r.2 :: B' := by
      rw [hcut.eq, heq, List.append_assoc]
    exact .inr ⟨_, _, _, _, hN, hfind.symm, hne, he⟩

theorem eraseNode_finishes (hC : C.Lawful) (hpick : w.heap.Allocates) (hs : Stores C w.heap N)
    (k : Key) :
    Finishes (Erases C w N k) (eraseNode C k (C.mixedHash k) (soKeyOf (C.mixedHash k))) w := by
  refine Exits.mono (eraseAt_finishes hC hpick hs (suits_soKeyOf _)) ?_
  rintro x v (⟨rfl, hstarved⟩ | ⟨N', new, u, A, p, B, hp, hcut, hx⟩)
  · exact .starved hstarved
  · have hlook := hp.lookup hs k
    rcases hx.cases hC hp.stores hcut with ⟨rfl, rfl, hnone⟩ | ⟨A', p', t, B', rfl, ht, hne, he⟩
    · exact .absent hp (hlook ▸ hnone)
    · exact .present hp (hlook ▸ ht) hne he

end

end MpmcMap.Unordered
