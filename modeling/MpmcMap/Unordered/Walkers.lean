import MpmcMap.Unordered.Shielding

/-!
# Walks of the list under the scheme

`locate`, `insert_node`, `find_node` and `erase_node` keep the protocol of the slots: what a walk
stands on is held by its slots, and stays held when the walk hands it from `HP_CUR` to `HP_PREV`.
-/

namespace MpmcMap.Unordered

open Conc
open Prog (perform iterate)
open Reclaim.Hazard (HAZARD_POINTERS)

variable {Addr Key : Type} [DecidableEq Addr]

/-- The calls of the threads: `locate`, `insert_node`, `erase_node`, `find_node` and `reclaim`. -/
inductive Walker (Addr Key : Type) where
  | locate (mixed cmpKey : Word)
  | insert (n : Addr) (k : Key)
  | erase (k : Key)
  | find (k : Key)
  | reclaim

namespace Walker

/-- The code of a call. -/
def code (C : Config Key) (threshold : Nat) :
    Walker Addr Key → Reclaim.Shields.Code (Op Addr Key) (Obj Addr) (Answer Addr Key)
  | .locate mixed cmpKey => do
    let (_, cur) ← (Unordered.locate C mixed cmpKey).expand (shielded threshold)
    return .node cur
  | .insert n k => do
    return .inserted (← (insertTouching C n (C.mixedHash k) (soKeyOf (C.mixedHash k)) k).expand
      (Touch.shielded threshold))
  | .erase k => ((Request.erase k).code C).expand (shielded threshold)
  | .find k => ((Request.find k).code C).expand (shielded threshold)
  | .reclaim => do
    Reclaim.Shields.scan
    return .done

/-- The nodes that the caller hands to a call. -/
def brings : Walker Addr Key → List Addr
  | .insert n _ => [n]
  | _ => []

/-- An inserted node is new: memory is not reused. -/
def invoke (h : Heap Addr Key) : Walker Addr Key → Option (Heap Addr Key)
  | .insert n k => if n ∈ h.inUse then none else some (h.create n k)
  | _ => some h

end Walker

/-- The registered threads `ts` over one list. -/
def traversal (C : Config Key) (threshold : Nat) (ts : Finset Nat) :
    SharedObject (Reclaim.Shields.Op (Op Addr Key) (Obj Addr))
      (Heap Addr Key × Reclaim.Shields.State (Obj Addr)) (Walker Addr Key) (Answer Addr Key) :=
  Reclaim.Shields.system ts access (Walker.code C threshold) fun c h => Walker.invoke h c

/-! ## The walks -/

namespace Shielding

variable {Call Ret : Type} {ts : Finset Nat}
  {code : Call → Reclaim.Shields.Code (Op Addr Key) (Obj Addr) Ret}
  {invoke : Call → Heap Addr Key → Option (Heap Addr Key)}
  {ok : {β : Type} → Nat → Reclaim.Shields.Op (Op Addr Key) (Obj Addr) β →
    Heap Addr Key × Reclaim.Shields.State (Obj Addr) → Prop}
  {threshold t : Nat} {C : Config Key}
  {M : List (Addr × Bool)} {l : List (Fact Addr)} {x : Option (Addr × Option Addr)}
  {prev cur : Addr} {p : Option Addr} {tagged rawNext : Link Addr}

/-- What is known of the nodes of a place. -/
def known (prev : Addr) (cur : Option Addr) : List (Fact Addr) :=
  .linked prev :: cur.toList.map .linked

section Protected

variable (hC : C.reval = true) (ht : t ∈ ts) (hok : Vouches ts ok)

include hC ht hok

theorem goes_protectFrom {src : Addr} :
    Goes ts code invoke ok (shielded threshold) t ⟨M, some (src, p)⟩ l (protectFrom C src HP_CUR)
      (fun r => ⟨M, some (src, r.1)⟩) fun r => r.1.toList.map .linked := by
  unfold protectFrom
  rw [if_pos hC]
  refine Goes.loop (fun _ => ⟨M, some (src, none)⟩) (fun _ => []) ⟨.refl _, by simp⟩ (by simp)
    fun _ => ?_
  refine Goes.act rfl (fun q hq => Option.some.inj hq ▸ covers_prev rfl) (steps_loadNext src)
    fun r => ?_
  refine Spec.confirm hok ht rfl (by simp) ?_ ?_
  · exact .ret (.refl _) (by simp)
  · exact .ret (.refl _) (by simp)

omit hok in
theorem goes_loadTable :
    Goes ts code invoke ok (shielded threshold) t ⟨M, x⟩ l (loadTable C) (fun _ => ⟨M, none⟩) fun _ => [] := by
  refine Goes.loop (fun _ => ⟨M, none⟩) (fun _ => []) ⟨.refl _, by simp⟩ (by simp) fun _ => ?_
  refine Goes.act rfl (fun q hq => by cases hq) (steps_look (fun _ => [])
    (fun b m r hr => by cases hr; rfl) (by simp)) fun u => ?_
  simp only [hC, if_true]
  refine Spec.confirmTable ht fun v => ?_
  cases v with
  | false => exact .ret (.refl _) (by simp)
  | true => exact .ret (.refl _) (by simp)

theorem goes_follow (hprev : .linked prev ∈ l) :
    Goes ts code invoke ok (shielded threshold) t ⟨M, some (prev, p)⟩ l (follow C prev)
      (fun r => ⟨M, some (r.1, r.2.1)⟩) fun r => known r.1 r.2.1 := by
  refine (goes_protectFrom hC ht hok).bind fun r => .ret (.refl _) ?_
  simp [known, hprev]

theorem goes_help (hprev : .linked prev ∈ l) (hnext : rawNext.ptr.toList.map .linked ⊆ l) :
    Goes ts code invoke ok (shielded threshold) t ⟨M, some (prev, p)⟩ l (help C prev tagged rawNext)
      (fun r => ⟨M, some (r.1, r.2.1)⟩) fun r => known r.1 r.2.1 := by
  exact Goes.act rfl (fun q hq => Option.some.inj hq ▸ covers_prev rfl)
    (steps_casNextWeak hprev hnext) fun _ => goes_follow hC ht hok hprev

theorem goes_advance (hcur : .linked cur ∈ l) :
    Goes ts code invoke ok (shielded threshold) t ⟨M, some (prev, some cur)⟩ l (advance C cur)
      (fun r => ⟨M, some (r.1, r.2.1)⟩) fun r => known r.1 r.2.1 := by
  unfold advance publish
  rw [if_pos hC]
  exact Spec.handOver rfl (goes_follow hC ht hok hcur)

theorem goes_pass (hprev : .linked prev ∈ l) (hcur : .linked cur ∈ l) :
    Goes ts code invoke ok (shielded threshold) t ⟨M, some (prev, some cur)⟩ l (pass C prev cur tagged)
      (fun r => ⟨M, some (r.1, r.2.1)⟩) fun r => known r.1 r.2.1 := by
  refine Goes.act rfl (fun q hq => Option.some.inj hq ▸ covers_cur rfl) (steps_loadNext cur)
    fun rawNext => ?_
  rw [Prog.ret_bind]
  split
  · exact goes_help hC ht hok (by simp [hprev]) (by simp)
  · exact goes_advance hC ht hok (by simp [hcur])

theorem goes_walk {d : Addr} (hd : .sort d false ∈ l) (cmpKey : Word) :
    Goes ts code invoke ok (shielded threshold) t ⟨M, x⟩ l (walk C d cmpKey)
      (fun r => ⟨M, some (r.1, r.2.1)⟩) fun r => known r.1 r.2.1 := by
  unfold walk publish
  rw [if_pos hC]
  refine Spec.atDummy hd (Spec.infer [.linked d] (fun s hh f hf => ?_) ?_)
  · rw [List.mem_singleton.mp hf]
    exact (hh.knows _ hd).1
  refine (goes_follow hC ht hok (by simp)).bind fun place => ?_
  refine Goes.loop (fun place => ⟨M, some (place.1, place.2.1)⟩)
    (fun place => known place.1 place.2.1) (.refl _) (by simp) fun place => ?_
  obtain ⟨prev, cur, tagged⟩ := place
  cases cur with
  | none => exact .ret (.refl _) (by simp)
  | some cur =>
    refine Goes.act rfl (fun q hq => Option.some.inj hq ▸ covers_cur rfl)
      (steps_loadSoKey (by simp [known])) fun so => ?_
    rw [Prog.ret_bind]
    split
    · exact .ret (.refl _) (by simp)
    · refine (goes_pass hC ht hok (by simp [known]) (by simp [known])).bind fun place => ?_
      exact .ret (.refl _) (by simp)

/-- A node of the thread is linked. -/
theorem goes_insertFrom {start n : Addr} {r : Bool} (hstart : .sort start false ∈ l) :
    Goes ts code invoke ok (shielded threshold) t ⟨(n, r) :: M, x⟩ l (insertFrom C start n)
      (fun _ => ⟨M, none⟩) fun _ => [.sort n r] := by
  have hown : ∀ {l : List (Fact Addr)} {x : Option (Addr × Option Addr)} (q : Obj Addr),
      some (.node n) = some q → Covers Key ts t ⟨(n, r) :: M, x⟩ l q :=
    fun q hq => Option.some.inj hq ▸ covers_own List.mem_cons_self
  refine Goes.act rfl hown (steps_look (fun _ => []) (fun b m r hr => by cases hr; rfl) (by simp))
    fun so => ?_
  rw [Prog.ret_bind]
  refine Goes.loop (fun _ => ⟨(n, r) :: M, none⟩) (fun _ => []) (.left (.refl _)) (by simp)
    fun _ => ?_
  refine (goes_walk hC ht hok (by simp [hstart]) so).bind fun place => ?_
  obtain ⟨prev, cur, tagged⟩ := place
  refine Goes.act rfl hown (steps_storeNext (by simp [known])) fun _ => ?_
  rw [Prog.ret_bind]
  split
  · exact .ret (.left (.refl _)) (by simp)
  · next hm =>
    refine Goes.act rfl (fun q hq => Option.some.inj hq ▸ covers_prev rfl)
      (steps_link (by simpa using hm) (by simp [known])) fun linked => ?_
    cases linked with
    | true => exact .ret (.left (.refl _)) (by simp)
    | false => exact .ret (.left (.refl _)) (by simp)

theorem goes_initializeBucketAt {u depth i : Nat} (hlt : i < 2 ^ 63) :
    Goes ts code invoke ok (shielded threshold) t ⟨M, x⟩ l (initializeBucketAt C u depth i)
      (fun _ => ⟨M, none⟩) fun _ => [] := by
  induction depth generalizing i l x with
  | zero => exact .ret (.left (.refl _)) (by simp)
  | succ depth ih =>
    have htable : ∀ {H : Hand Addr} {l : List (Fact Addr)} (q : Obj Addr),
        some (.table u) = some q → Covers Key ts t H l q :=
      fun q hq => Option.some.inj hq ▸ covers_table u
    refine Goes.act rfl htable (steps_loadBucket u i) fun r => ?_
    rw [Prog.ret_bind]
    split
    · exact .ret (.left (.refl _)) (by simp)
    · split
      -- first the bucket of the parent where `i` has one, then that of `i`
      case' isTrue hi0 =>
        refine (ih ((parentBucket_lt hi0 (hlt.trans (by decide))).trans hlt)).bind fun _ => ?_
      all_goals
        refine Goes.act rfl (fun q hq => by cases hq) steps_allocNode fun d => ?_
        refine Goes.act rfl (fun q hq => Option.some.inj hq ▸ covers_own List.mem_cons_self)
          steps_storeSoKey fun _ => ?_
        refine Goes.act rfl htable (steps_loadBucket u (parentBucket i)) fun r => ?_
        cases r with
        | none =>
          refine Goes.act rfl (fun q hq => by cases hq) (steps_look (fun _ => [])
            (fun b m r hr => by cases hr) (by simp)) fun _ => ?_
          exact .ret (.left (List.sublist_cons_self _ _)) (by simp)
        | some start =>
          refine (goes_insertFrom hC ht hok (by simp)).bind fun _ => ?_
          refine Goes.act rfl htable (steps_casBucket ?_) fun _ => .ret (.refl _) (by simp)
          simp [isRegular_dummy hlt]

theorem goes_locate (mixed cmpKey : Word) :
    Goes ts code invoke ok (shielded threshold) t ⟨M, x⟩ l (locate C mixed cmpKey) (fun r => ⟨M, some r⟩)
      fun r => known r.1 r.2 := by
  refine Goes.loop (fun _ => ⟨M, none⟩) (fun _ => []) (.left (.refl _)) (by simp) fun _ => ?_
  refine (goes_loadTable hC ht).bind fun u => ?_
  refine Goes.act rfl (fun q hq => Option.some.inj hq ▸ covers_table u) (steps_loadSize u)
    fun sz => ?_
  rw [Prog.ret_bind]
  refine Spec.assume (φ := ∃ j < 63, sz = 2 ^ j) (by simp) fun hsz => ?_
  obtain ⟨j, hj, rfl⟩ := hsz
  refine Goes.act rfl (fun q hq => Option.some.inj hq ▸ covers_table u)
    (steps_loadBucket u (bucketOf mixed (2 ^ j))) fun r => ?_
  cases r with
  | none =>
    have hlt : bucketOf mixed (2 ^ j) < 2 ^ 63 :=
      (bucketOf_lt (by omega)).trans (Nat.pow_lt_pow_right (by decide) hj)
    refine (goes_initializeBucketAt hC ht hok hlt).bind fun _ => ?_
    exact .ret (.left (.refl _)) (by simp)
  | some d =>
    refine (goes_walk hC ht hok (by simp) cmpKey).bind fun place => ?_
    exact .ret (.refl _) (by simp)

/-! ### Runs of equal split-order keys -/

omit hC ht hok in
theorem goes_headMatches (k : Key) (fnx : Link Addr) :
    Goes ts code invoke ok (shielded threshold) t ⟨M, some (prev, some cur)⟩ l (headMatches C k cur fnx)
      (fun _ => ⟨M, some (prev, some cur)⟩) fun _ => [] := by
  unfold headMatches
  split
  · exact .ret (.refl _) (by simp)
  · refine Goes.act rfl (fun q hq => Option.some.inj hq ▸ covers_cur rfl) (steps_loadKey cur)
      fun _ => ?_
    exact .ret (.refl _) (by simp)

/-- The scan of a run gives away the slot of the node that it begins behind. -/
theorem goes_scanRun (sk : Word) (k : Key) (hprev : .linked prev ∈ l) (hcur : .linked cur ∈ l) :
    Goes ts code invoke ok (shielded threshold) t ⟨M, some (prev, some cur)⟩ l (scanRun C sk k prev cur)
      (fun r => ⟨M, r.map fun q => (q.1, some q.2)⟩)
      fun r => r.toList.flatMap fun q => [.linked q.1, .linked q.2, .sort q.2 (isRegular sk)] := by
  refine Goes.loop (fun place => ⟨M, some (place.1, place.2.1)⟩)
    (fun place => known place.1 place.2.1) (.refl _) (by simp [known, hprev, hcur])
    fun place => ?_
  obtain ⟨rprev, rcur, tagged⟩ := place
  cases rcur with
  | none => exact .ret (.left (.refl _)) (by simp)
  | some rcur =>
    refine Goes.act rfl (fun q hq => Option.some.inj hq ▸ covers_cur rfl)
      (steps_loadSoKey (by simp [known])) fun so => ?_
    rw [Prog.ret_bind]
    split
    · exact .ret (.left (.refl _)) (by simp)
    · next hso =>
      obtain rfl : so = sk := not_not.mp hso
      refine Goes.act rfl (fun q hq => Option.some.inj hq ▸ covers_cur rfl) (steps_loadNext rcur)
        fun rnx => ?_
      rw [Prog.ret_bind]
      split
      · refine (goes_help hC ht hok (by simp [known]) (by simp)).bind fun place => ?_
        exact .ret (.refl _) (by simp)
      · refine Goes.act rfl (fun q hq => Option.some.inj hq ▸ covers_cur rfl)
          (steps_loadKey rcur) fun k' => ?_
        rw [Prog.ret_bind]
        split
        · exact .ret (.refl _) (by simp [known])
        · refine (goes_advance hC ht hok (by simp [known])).bind fun place => ?_
          exact .ret (.refl _) (by simp)

theorem goes_inRun (sk : Word) (k : Key) (hknown : known prev p ⊆ l) :
    Goes ts code invoke ok (shielded threshold) t ⟨M, some (prev, p)⟩ l (inRun C sk k prev p)
      (fun _ => ⟨M, none⟩) fun _ => [] := by
  cases p with
  | none => exact .ret (.left (.refl _)) (by simp)
  | some cur =>
    refine Goes.act rfl (fun q hq => Option.some.inj hq ▸ covers_cur rfl)
      (steps_loadSoKey (hknown (by simp [known]))) fun so => ?_
    rw [Prog.ret_bind]
    split
    · refine Goes.act rfl (fun q hq => Option.some.inj hq ▸ covers_cur rfl) (steps_loadNext cur)
        fun fnx => ?_
      refine (goes_headMatches k fnx).bind fun b => ?_
      split
      · exact .ret (.left (.refl _)) (by simp)
      · refine (goes_scanRun hC ht hok sk k ?_ ?_).bind fun r => ?_
        · simp [hknown (show .linked prev ∈ known prev (some cur) by simp [known])]
        · simp [hknown (show .linked cur ∈ known prev (some cur) by simp [known])]
        · exact .ret (.left (.refl _)) (by simp)
    · exact .ret (.left (.refl _)) (by simp)

/-! ### The calls -/

theorem spec_insertTouching (n : Addr) (mixed sk : Word) (k : Key) :
    Goes ts code invoke ok (Touch.shielded threshold) t ⟨[(n, false)], none⟩ []
      (insertTouching C n mixed sk k) (fun _ => ⟨[], none⟩) fun _ => [] := by
  have hkept : ∀ {α : Type} {H : Hand Addr} {l : List (Fact Addr)} {q : Code Addr Key α}
      {h : α → Hand Addr} {g : α → List (Fact Addr)},
      Goes ts code invoke ok (shielded threshold) t H l q h g →
      Goes ts code invoke ok (Touch.shielded threshold) t H l
        (q.expand fun o => perform (Touch.kept o)) h g := by
    intro α H l q h g hq
    unfold Goes
    rw [Prog.expand_expand]
    simp only [Prog.perform_expand]
    exact hq
  have hown : ∀ {l : List (Fact Addr)} {r : Bool} {x : Option (Addr × Option Addr)} (q : Obj Addr),
      some (.node n) = some q → Covers Key ts t ⟨[(n, r)], x⟩ l q :=
    fun q hq => Option.some.inj hq ▸ covers_own List.mem_cons_self
  refine Goes.act rfl hown steps_storeSoKey fun _ => ?_
  rw [Prog.ret_bind]
  refine Goes.loop (fun _ => ⟨[(n, isRegular sk)], none⟩) (fun _ => []) (.refl _) (by simp)
    fun _ => ?_
  refine Goes.bind (hkept (goes_locate hC ht hok mixed sk)) fun place => ?_
  obtain ⟨prev, cur⟩ := place
  refine Goes.bind (hkept (goes_inRun hC ht hok sk k (by simp))) fun dup => ?_
  split
  · exact .ret (.left (List.nil_sublist _)) (by simp)
  · refine Goes.act rfl hown (steps_storeNext (by simp [known])) fun _ => ?_
    refine Goes.given rfl hok (steps_loadNext prev) fun expected => ?_
    rw [Prog.ret_bind]
    split
    · exact .ret (.refl _) (by simp)
    · next hm =>
      split
      · refine Goes.given rfl hok (steps_link (by simpa using hm) (by simp [known])) fun linked => ?_
        cases linked with
        | true =>
          refine Goes.act rfl (fun q hq => by cases hq) steps_addCount fun _ => ?_
          exact .ret (.refl _) (by simp)
        | false => exact .ret (.refl _) (by simp)
      · exact .ret (.refl _) (by simp)

theorem goes_findNode (k : Key) (mixed sk : Word) :
    Goes ts code invoke ok (shielded threshold) t ⟨[], none⟩ [] (findNode C k mixed sk)
      (fun _ => ⟨[], none⟩) fun _ => [] := by
  refine (goes_locate hC ht hok mixed sk).bind fun place => ?_
  obtain ⟨prev, cur⟩ := place
  cases cur with
  | none => exact .ret (.left (.refl _)) (by simp)
  | some cur =>
    refine Goes.act rfl (fun q hq => Option.some.inj hq ▸ covers_cur rfl)
      (steps_loadSoKey (by simp [known])) fun so => ?_
    rw [Prog.ret_bind]
    split
    · exact .ret (.left (.refl _)) (by simp)
    · refine Goes.act rfl (fun q hq => Option.some.inj hq ▸ covers_cur rfl) (steps_loadNext cur)
        fun rnx => ?_
      refine (goes_headMatches k rnx).bind fun b => ?_
      split
      · exact .ret (.left (.refl _)) (by simp)
      · refine (goes_scanRun hC ht hok sk k (by simp [known]) (by simp [known])).bind fun r => ?_
        exact .ret (.left (.refl _)) (by simp)

theorem goes_relocate (target : Addr) (mixed sk : Word) :
    Goes ts code invoke ok (shielded threshold) t ⟨[], x⟩ l (relocate C target mixed sk)
      (fun _ => ⟨[], none⟩) fun _ => [] := by
  refine Goes.loop (fun _ => ⟨[], none⟩) (fun _ => []) (.left (.refl _)) (by simp) fun _ => ?_
  refine (goes_locate hC ht hok mixed sk).bind fun place => ?_
  obtain ⟨p, c⟩ := place
  -- the scan stops with its slots on the node and its predecessor
  have hscan : Goes ts code invoke ok (shielded threshold) t ⟨[], some (p, c)⟩
      (known p c ++ ([] ++ l)) (iterate (pointerStep C target sk) (p, c))
      (fun r => ⟨[], r.map fun q => (q, some target)⟩)
      fun r => r.toList.map .linked := by
    refine Goes.loop (fun st => ⟨[], some st⟩) (fun st => known st.1 st.2) (.refl _) (by simp)
      fun st => ?_
    obtain ⟨rp, rc⟩ := st
    cases rc with
    | none => exact .ret (.left (.refl _)) (by simp)
    | some rc =>
      refine Goes.act rfl (fun q hq => Option.some.inj hq ▸ covers_cur rfl)
        (steps_loadSoKey (by simp [known])) fun so => ?_
      rw [Prog.ret_bind]
      split
      · exact .ret (.left (.refl _)) (by simp)
      · split
        · next heq =>
          subst heq
          exact .ret (.refl _) (by simp [known])
        · refine (goes_advance hC ht hok (by simp [known])).bind fun place => ?_
          exact .ret (.refl _) (by simp)
  refine hscan.bind fun r => ?_
  cases r with
  | none => exact .ret (.left (.refl _)) (by simp)
  | some rp =>
    refine Goes.act rfl (fun q hq => Option.some.inj hq ▸ covers_cur rfl) (steps_loadNext target)
      fun repl => ?_
    refine Goes.act rfl (fun q hq => Option.some.inj hq ▸ covers_prev rfl)
      (steps_casNextWeak (by simp) (by simp [Link.clearMark])) fun b => ?_
    rw [Prog.ret_bind]
    split
    · exact .ret (.left (.refl _)) (by simp)
    · exact .ret (.left (.refl _)) (by simp)

theorem goes_finishErase (mixed : Word) {sk : Word} (hprev : .linked prev ∈ l)
    (hcur : .sort cur true ∈ l) :
    Goes ts code invoke ok (shielded threshold) t ⟨[], some (prev, some cur)⟩ l
      (finishErase C prev cur mixed sk) (fun _ => ⟨[], none⟩) fun _ => [] := by
  have hunlink : Goes ts code invoke ok (shielded threshold) t ⟨[], some (prev, some cur)⟩ l
      (unlinkMarked C prev cur mixed sk) (fun _ => ⟨[], none⟩) fun _ => [] := by
    refine Goes.act rfl (fun q hq => Option.some.inj hq ▸ covers_cur rfl) (steps_loadNext cur)
      fun tnext => ?_
    refine Goes.act rfl (fun q hq => Option.some.inj hq ▸ covers_prev rfl)
      (steps_casNext (by simp [hprev]) (by simp [Link.clearMark])) fun b => ?_
    rw [Prog.ret_bind]
    split
    · exact .ret (.left (.refl _)) (by simp)
    · exact goes_relocate hC ht hok cur mixed sk
  refine hunlink.bind fun _ => ?_
  refine Goes.retireNode (by simp [hcur]) ?_
  refine Goes.act rfl (fun q hq => by cases hq) steps_subCount fun _ => ?_
  exact .ret (.refl _) (by simp)

theorem goes_eraseScan (k : Key) (mixed : Word) {sk : Word} (hsk : isRegular sk = true)
    (hprev : .linked prev ∈ l) (hcur : .linked cur ∈ l) :
    Goes ts code invoke ok (shielded threshold) t ⟨[], some (prev, some cur)⟩ l
      (eraseScan C k mixed sk prev cur) (Sum.elim (fun _ => ⟨[], none⟩) fun _ => ⟨[], none⟩)
      (Sum.elim (fun _ => []) fun _ => []) := by
  refine (goes_scanRun hC ht hok sk k hprev hcur).bind fun r => ?_
  cases r with
  | none => exact .ret (.left (.refl _)) (by simp)
  | some r =>
    obtain ⟨rprev, rcur⟩ := r
    refine Goes.act rfl (fun q hq => Option.some.inj hq ▸ covers_cur rfl) (steps_loadNext rcur)
      fun tnext => ?_
    rw [Prog.ret_bind]
    split
    · exact .ret (.left (.refl _)) (by simp)
    · refine Goes.act rfl (fun q hq => Option.some.inj hq ▸ covers_cur rfl)
        (steps_casNext (by simp) (by simp [Link.setMarked])) fun b => ?_
      rw [Prog.ret_bind]
      split
      · refine (goes_finishErase hC ht hok mixed (by simp) (by simp [hsk])).bind fun _ => ?_
        exact .ret (.refl _) (by simp)
      · exact .ret (.left (.refl _)) (by simp)

omit hC ht hok in
theorem goes_markHead (k : Key) (hcur : .linked cur ∈ l) :
    Goes ts code invoke ok (shielded threshold) t ⟨M, some (prev, some cur)⟩ l (markHead C k cur)
      (fun _ => ⟨M, some (prev, some cur)⟩) fun _ => [] := by
  refine Goes.act rfl (fun q hq => Option.some.inj hq ▸ covers_cur rfl) (steps_loadNext cur)
    fun fnx => ?_
  refine (goes_headMatches k fnx).bind fun b => ?_
  split
  · exact Goes.act rfl (fun q hq => Option.some.inj hq ▸ covers_cur rfl)
      (steps_casNext (by simp [hcur]) (by simp [Link.setMarked])) fun b => .ret (.refl _) (by simp)
  · exact .ret (.refl _) (by simp)

theorem goes_eraseNode (k : Key) (mixed : Word) {sk : Word} (hsk : isRegular sk = true) :
    Goes ts code invoke ok (shielded threshold) t ⟨[], none⟩ l (eraseNode C k mixed sk)
      (fun _ => ⟨[], none⟩) fun _ => [] := by
  refine Goes.loop (fun _ => ⟨[], none⟩) (fun _ => []) (.refl _) (by simp) fun _ => ?_
  refine (goes_locate hC ht hok mixed sk).bind fun place => ?_
  obtain ⟨prev, cur⟩ := place
  cases cur with
  | none => exact .ret (.left (.refl _)) (by simp)
  | some cur =>
    refine Goes.act rfl (fun q hq => Option.some.inj hq ▸ covers_cur rfl)
      (steps_loadSoKey (by simp [known])) fun so => ?_
    rw [Prog.ret_bind]
    split
    · exact .ret (.left (.refl _)) (by simp)
    · next hso =>
      obtain rfl : so = sk := not_not.mp hso
      refine (goes_markHead k (by simp [known])).bind fun b => ?_
      split
      · refine (goes_finishErase hC ht hok mixed (by simp [known]) (by simp [hsk])).bind fun _ => ?_
        exact .ret (.refl _) (by simp)
      · exact goes_eraseScan hC ht hok k mixed hsk (by simp [known]) (by simp [known])

end Protected

/-! ## Calls -/

omit [DecidableEq Addr] in
/-- An empty container. -/
theorem Tidy.new (key : Addr → Key) (head : Addr) {pick : Nat → Finset Addr → Addr}
    (threshold : Nat → Nat) (hpick : ∀ n F, pick n F ∉ F) :
    Tidy ⟨Heap.new key head pick threshold, fun _ => none⟩ [] :=
  ⟨Inv.new key head threshold hpick, fun _ _ _ _ => (by decide : isRegular 0 = false),
    fun _ => ⟨1, by decide, rfl⟩, fun _ hp => (by cases hp)⟩

/-- A call keeps the protocol. -/
theorem spec_code (hC : C.reval = true) (ht : t ∈ ts) (hok : Vouches ts ok)
    (c : Walker Addr Key) :
    Spec ts code invoke ok t ⟨c.brings.map fun n => (n, false), none⟩ [] (c.code C threshold)
      (fun _ => ⟨[], none⟩) fun _ => [] := by
  cases c with
  | locate mixed cmpKey =>
    refine Spec.bind (goes_locate hC ht hok mixed cmpKey) fun r => ?_
    exact .ret (.left (.refl _)) (by simp)
  | insert n k =>
    refine Spec.bind (spec_insertTouching hC ht hok n _ _ k) fun r => ?_
    exact .ret (.refl _) (by simp)
  | erase k =>
    refine Goes.bind (goes_eraseNode hC ht hok k _ (isRegular_soKeyOf _)) fun r => ?_
    exact .ret (.refl _) (by simp)
  | find k =>
    refine Goes.bind (goes_findNode hC ht hok k _ _) fun r => ?_
    exact .ret (.refl _) (by simp)
  | reclaim =>
    intro s hi _
    have hscan : (guarding ts code invoke ok).Keeps t (fun _ => True) Reclaim.Shields.scan :=
      Reclaim.Shields.wp_scan
    refine Discipline.WP.bind ((hscan s hi trivial).mono fun _ s hi _ => ?_)
    exact Discipline.WP.ret stable_has hi ⟨List.nodup_nil, by simp, fun _ h => (by cases h), by simp⟩

/-- The caller of an insertion has made its node. -/
theorem has_brings {s : Guarded Addr Key} {h : Heap Addr Key} {c : Walker Addr Key}
    (hi : Sound ts s) (hh : c.invoke s.1.heap = some h) :
    ∃ x : Annotated Addr Key, x.heap = h ∧ Sound ts (x, s.2) ∧ Keeping t s.1 x ∧
      Has t ⟨c.brings.map fun n => (n, false), none⟩ [] (x, s.2) := by
  have hnone : Has t ⟨[], none⟩ [] s :=
    ⟨List.nodup_nil, by simp, fun _ h => (by cases h), by simp⟩
  cases c with
  | insert n k =>
    simp only [Walker.invoke] at hh
    split at hh <;> cases hh
    next hn =>
    obtain ⟨htidy, hg⟩ := hi.client.give (t := t) (m := s.1.heap.create n k) hn rfl rfl rfl rfl rfl
      rfl rfl
    refine ⟨⟨s.1.heap.create n k, Function.update s.1.owner n (some t)⟩, rfl, ⟨hi.slots, htidy⟩, hg,
      hnone.step (M := [(n, false)]) hg (by simp) ?_⟩
    intro y hy
    obtain rfl := List.mem_singleton.mp hy
    exact ⟨Function.update_self _ _ _, by simp [Heap.create, isRegular]⟩
  | _ =>
    cases hh
    exact ⟨s.1, rfl, hi, (linking Addr Key).refl t s.1, hnone⟩

end Shielding

end MpmcMap.Unordered
