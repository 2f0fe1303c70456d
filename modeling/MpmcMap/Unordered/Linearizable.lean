import MpmcMap.Unordered.Searches

/-!
# The engine is linearizable

Every run of the engine is one of a map that executes its calls one at a time, each at a point
between its invocation and its return, as long as no helper brings back an erased node and the
split-order keys tell the keys apart. Without the second condition the books are still right: a
marked node is retired once and out of the list then, and the counter is the number of the entries
but for the calls that have not counted yet.
-/

namespace MpmcMap.Unordered

open Conc
open Prog (perform iterate)
open Function (update)

variable {Addr Key : Type} [DecidableEq Addr]

namespace Entries

section Calls

variable {C : Config Key} {head : Addr} {t : Nat} {H : Hand Addr Key} {T : Turn Addr Key}
  {M : List (Own Addr)} {l : List (Fact Addr Key)} {op : Request Addr Key} {ans : Answer Addr Key}
  {n cur prev : Addr} {mixed so : Word} {k : Key} {γ : Type}

/-! ## Insertion, search and erasure -/

/-- An insertion that succeeds has its point when the node is linked. -/
theorem links_insertNode
    (hop : ∀ x : Contents Addr Key, C.Absent x k → op.Does C x (x ∪ {(n, k)}) ans)
    (hso : so = C.splitKey k) (hsuits : Suits mixed so) (hn : .named n k ∈ l) :
    Spec C head t ⟨.fresh op, [⟨n, 0, none⟩]⟩ l (insertNode C n mixed so k)
      (fun r => ⟨if r = .INSERT_OK then .done op ans else .fresh op, []⟩)
      fun r => if r = .INSERT_OK then [] else [.found k] := by
  refine .storeSoKey ?_
  rw [Prog.ret_bind]
  apply Spec.loop (fun _ => []) (by simp)
  intro _
  refine (finds_locate (A := .entry so) (fun w hw => ?_) (by simp [known])).bind fun x => ?_
  · obtain rfl := Option.some.inj hw
    exact ⟨rfl, hsuits⟩
  obtain ⟨prev, cur⟩ := x
  refine .bind (finds_inRun hso (by grind) (by grind)) fun dup => ?_
  cases dup with
  | true => exact .ret ⟨rfl, List.nil_sublist _⟩ (by simp)
  | false =>
    rw [if_neg Bool.false_ne_true]
    refine .storeNext (fun c hc => by subst hc; simp [spot]) ?_
    refine .loadNext (by simp [spot]) fun e => ?_
    rw [Prog.ret_bind]
    split
    · exact .blank (.ret (.refl _) (by simp))
    · next hm =>
      split
      · next hptr =>
        have he : e = .plain cur := by
          cases e
          simp_all [Link.plain]
        subst he
        refine .linkEntry hop (by simp [lower, Aim.word]) (fun c hc => ?_) (by simp [hn]) hso ?_ ?_
        · subst hc
          simp [upper]
        · exact .addCount (.ret (.refl _) (by simp))
        · exact .blank (.ret (.refl _) (by simp))
      · exact .blank (.ret (.refl _) (by simp))

/-- A search finds a node that was the entry of the key, or the key was absent. -/
theorem finds_findNode (hso : so = C.splitKey k) (hsuits : Suits mixed so) :
    Finds C head t ⟨T, M⟩ l (findNode C k mixed so) fun r =>
      r.elim [.lost (.entry so)] fun a => [.was a k] := by
  refine (finds_locate (A := .entry so) (fun w hw => ?_) (by simp [known])).bind fun x => ?_
  · obtain rfl := Option.some.inj hw
    exact ⟨rfl, hsuits⟩
  obtain ⟨prev, cur⟩ := x
  cases cur with
  | none => exact .ret (.refl _) (by simp [spot])
  | some cur =>
    refine .loadSoKey (by simp [spot]) fun r => ?_
    rw [Prog.ret_bind]
    split
    · next hr =>
      refine .infer [.lost (.entry so)] (fun s hi hl f hf => ?_) (.ret (.refl _) (by simp))
      obtain rfl := List.mem_singleton.mp hf
      exact lost_of_above hi rfl (hl (.leads cur _) (by simp [spot]))
        (hl (.above cur so) (by simp [upper])) (hl (.keyed cur r) (by simp)) hr
    · next hr =>
      obtain rfl : r = so := not_not.mp hr
      refine .loadNext (by simp [spot]) fun rnx => ?_
      refine (finds_headMatches hso (by simp) (by simp)).bind fun b => ?_
      cases b with
      | true => exact .ret (.refl _) (by simp)
      | false =>
        refine (finds_scanRun hso (by simp [spot]) (by simp) (by simp [spot])).bind fun q => ?_
        cases q with
        | none => exact .ret (.refl _) (by simp)
        | some q => exact .ret (.refl _) (by simp)

/-- A marked node is retired once and counted down. -/
theorem finishes_erase (hsuits : Suits mixed so) (hprev : .linked prev ∈ l)
    (hcur : .erased cur ∈ l) (hkey : .keyed cur so ∈ l) :
    Spec C head t ⟨.marked op ans cur, M⟩ l (finishErase C prev cur mixed so)
      (fun _ => ⟨.done op ans, M⟩) fun _ => [] := by
  refine (finds_unlinkMarked hsuits hprev hcur hkey).bind fun _ => ?_
  exact .retireNode (w := so) (by simp) (.subCount (.ret (.refl _) (by simp)))

section Erase

variable (hop : ∀ (x : Contents Addr Key) y, y ∈ x → C.eq y.2 k = true → op.Does C x (x \ {y}) ans)

include hop

/-- The mark of the head of a run erases the entry. -/
theorem marks_head (hso : so = C.splitKey k) (hkey : .keyed cur so ∈ l) :
    Spec C head t ⟨.fresh op, M⟩ l (markHead C k cur)
      (fun b => ⟨if b then .marked op ans cur else .fresh op, M⟩)
      fun b => if b then [.erased cur] else [] := by
  refine .infer [.linked cur] (fun s _ hl f hf => ?_) (.loadNext (by simp) fun fnx => ?_)
  · obtain rfl := List.mem_singleton.mp hf
    exact (hl _ hkey).1
  refine (finds_headMatches hso (by simp) (by simp [hkey])).bind fun b => ?_
  cases b with
  | false => exact .ret (.refl _) (by simp)
  | true =>
    refine .assume (φ := fnx.marked = false) (by simp) fun hm => ?_
    refine .mark (w := so) hop hm (by simp) (by simp [hkey]) (hso ▸ isRegular_soKeyOf _) ?_ ?_
    · exact .ret (.refl _) (by simp)
    · exact .ret (.refl _) (by simp)

/-- An erasure that succeeds has its point when the mark is set. -/
theorem marks_eraseNode (hso : so = C.splitKey k) (hsuits : Suits mixed so) :
    Spec C head t ⟨.fresh op, M⟩ l (eraseNode C k mixed so)
      (fun b => ⟨if b then .done op ans else .fresh op, M⟩)
      fun b => if b then [] else [.lost (.entry so)] := by
  apply Spec.loop (fun _ => []) (by simp)
  intro _
  refine (finds_locate (A := .entry so) (fun w hw => ?_) (by simp [known])).bind fun x => ?_
  · obtain rfl := Option.some.inj hw
    exact ⟨rfl, hsuits⟩
  obtain ⟨prev, cur⟩ := x
  cases cur with
  | none => exact .ret (.refl _) (by simp [spot])
  | some cur =>
    refine .loadSoKey (by simp [spot]) fun r => ?_
    rw [Prog.ret_bind]
    split
    · next hr =>
      -- the walk has gone past the key: an entry that was there is lost
      refine .infer [.lost (.entry so)] (fun s hi hl f hf => ?_) (.ret (.refl _) (by simp))
      obtain rfl := List.mem_singleton.mp hf
      exact lost_of_above hi rfl (hl (.leads cur _) (by simp [spot]))
        (hl (.above cur so) (by simp [upper])) (hl (.keyed cur r) (by simp)) hr
    · next hr =>
      obtain rfl : r = so := not_not.mp hr
      refine (marks_head hop hso (by simp)).bind fun b => ?_
      -- the head of the run has the key, or the run is scanned
      cases b with
      | true =>
        exact (finishes_erase hsuits (by simp [spot]) (by simp) (by simp)).bind fun _ =>
          .ret (.refl _) (by simp)
      | false =>
        rw [if_neg Bool.false_ne_true]
        refine (finds_scanRun hso (by simp [spot]) (by simp) (by simp [spot])).bind fun q => ?_
        cases q with
        | none => exact .ret (.refl _) (by simp)
        | some q =>
          obtain ⟨rprev, rcur⟩ := q
          refine .loadNext (by simp) fun tnext => ?_
          rw [Prog.ret_bind]
          by_cases hm : tnext.marked = true
          · rw [if_pos hm]
            exact .ret (.refl _) (by simp)
          · rw [if_neg hm]
            -- setting the mark takes effect; the rest only unlinks and counts
            refine .mark (w := r) hop (by simpa using hm) (by simp) (by simp)
              (hso ▸ isRegular_soKeyOf _) ?_ ?_
            · rw [Prog.ret_bind, if_pos rfl]
              exact (finishes_erase hsuits (by simp) (by simp) (by simp)).bind fun _ =>
                .ret (.refl _) (by simp)
            · exact .ret (.refl _) (by simp)

end Erase

/-! ## Growth and iteration -/

theorem runs_roomyUnless (force : Bool) (u : Nat) :
    Runs C head t H l (if force then return false else isRoomy u) :=
  Reading.roomyUnless closed_runs force u

/-- What is copied from a cell is the dummy of the bucket. -/
theorem runs_copyCells (u nt sz : Nat) : Runs C head t H l (copyCells u nt sz) := by
  apply Spec.loop (fun _ => []) (by simp)
  intro i
  simp only [Prog.bind_eq, Prog.pure_eq]
  split
  · exact .loadBucket fun d => .storeBucket (by simp) (.ret (.refl H) (by simp))
  · exact .ret (.refl H) (by simp)

theorem runs_growOnce (force : Bool) : Runs C head t H l (growOnce C force) := by
  apply Spec.skip rfl
  intro b
  rw [Prog.ret_bind]
  split
  · refine Spec.bind (g := fun _ => []) (h := fun _ => H) (.loop (fun _ => []) (by simp)
      fun _ => ?_) fun _ => .skip rfl fun _ => .ret (.refl H) (by simp)
    refine runs_loadTable.bind fun u => .loadSize fun j hj => ?_
    refine (runs_roomyUnless force u).bind fun roomy => ?_
    split
    · exact .ret (.refl H) (by simp)
    · split
      · exact .ret (.refl H) (by simp)
      · next hsmall =>
        have hlt : j < 30 := (Nat.pow_lt_pow_iff_right (by decide)).mp (Nat.not_le.mp hsmall)
        rw [← Nat.pow_succ]
        refine .newTable hlt fun nt => (runs_copyCells u nt _).bind fun _ => .skip rfl fun b => ?_
        rw [Prog.ret_bind]
        split
        · exact .skip rfl fun _ => .ret (.refl H) (by simp)
        · exact .skip rfl fun _ => .ret (.refl H) (by simp)
  · exact .ret (.refl H) (by simp)

theorem runs_maybeGrow : Runs C head t H l (maybeGrow C) :=
  Reading.maybeGrow closed_runs (runs_growOnce false)

theorem runs_describe (a : Addr) : Runs C head t H l (describe a : Code Addr Key (NodeInfo Key)) :=
  Reading.describe closed_runs a

/-- A scan that looks for nothing steps onto a node. -/
theorem finds_onto (hcur : .linked cur ∈ l) :
    Finds C head t H l (advance C cur) (on .anything) := by
  refine .infer [.past cur .anything] (fun s _ hl f hf => ?_) (Spec.post (finds_advance
    (A := .anything) (fun _ => []) (by simp) (by simp [hcur]) (by simp))
    fun place s _ hl f hf => ?_)
  · obtain rfl := List.mem_singleton.mp hf
    exact holds_anything (hl _ hcur)
  · exact hl f (by simp [hf])

/-- An iteration that helps, where nothing is looked for. -/
theorem finds_clear {tagged raw : Link Addr} (hr : raw.marked = true)
    (hplace : spot .anything prev (some cur) ⊆ l) (hcur : .seen cur raw ∈ l)
    (hptr : tagged.ptr = none ∨ tagged.ptr = some cur) :
    Finds C head t H l (help C prev tagged raw) (on .anything) :=
  Spec.post (finds_help (fun _ => []) hr hplace hcur hptr (by simp)) fun _ _ _ hl f hf =>
    hl f (by simp [hf])

theorem runs_firstNode : Runs C head t H l (firstNode C) := by
  refine runs_loadTable.bind fun u => .loadBucket fun r => ?_
  cases r with
  | none => exact .ret (.refl H) (by simp)
  | some d =>
    refine (runs_publish HP_PREV d).bind fun _ => ?_
    refine .infer [.linked d, .past d .anything] (fun s _ hl f hf => ?_) ?_
    · obtain ⟨hlinked, -⟩ : s.Linked d ∧ _ := hl (.keyed d (dummySplitOrderKey 0)) (by simp)
      rcases List.mem_cons.mp hf with rfl | hf
      · exact hlinked
      · obtain rfl := List.mem_singleton.mp hf
        exact holds_anything hlinked
    refine (finds_follow (A := .anything) (fun _ => []) (by simp) (by simp) (by simp)).bind
      fun place => ?_
    apply Spec.loop (on .anything) (by simp)
    intro place
    obtain ⟨prev, cur, tagged⟩ := place
    cases cur with
    | none => exact .ret (.refl H) (by simp)
    | some cur =>
      apply Spec.assume (φ := tagged.ptr = some cur) (by simp [on])
      intro hptr
      refine .loadNext (by simp [on, spot]) fun raw => ?_
      rw [Prog.ret_bind]
      split
      · next hr =>
        refine (finds_clear hr (List.Subset.trans
          (spot_subset_on .anything (prev, some cur, tagged)) (by grind)) (by simp)
          (.inr hptr)).bind fun place => ?_
        exact .ret (.refl H) (by simp)
      · refine .skip rfl fun so => ?_
        rw [Prog.ret_bind]
        split
        · exact (runs_describe cur).bind fun _ => .ret (.refl H) (by simp)
        · refine (finds_onto (by simp [on, spot])).bind fun place => ?_
          exact .ret (.refl H) (by simp)

/-- The first loop of `next_node` passes the run of its key. -/
theorem finds_skip (sk : Word) (k : Key) (place : Place Addr) (hplace : lax .anything place ⊆ l) :
    Finds C head t H l (iterate (skipStep C sk k) place) fun r =>
      r.toList.flatMap (lax .anything) := by
  apply Spec.loop (lax .anything) hplace
  intro place
  obtain ⟨prev, cur, tagged⟩ := place
  cases cur with
  | none => exact .ret (.refl H) (by simp)
  | some cur =>
    apply Spec.assume (φ := tagged.ptr = none ∨ tagged.ptr = some cur) (by simp [lax])
    intro hptr
    refine .skip rfl fun so => ?_
    rw [Prog.ret_bind]
    split
    · exact .ret (.refl H) (by simp)
    · refine .loadNext (by simp [lax, spot]) fun raw =>
        (runs_headMatches k cur raw).bind fun b => ?_
      split
      · exact .ret (.refl H) (by grind)
      · split
        · next hr =>
          refine (finds_clear hr (List.Subset.trans
            (spot_subset_lax .anything (prev, some cur, tagged)) (by grind)) (by simp) hptr).bind
            fun place => .infer (lax .anything place) (fun s _ hl => ?_) (.ret (.refl H) (by simp))
          exact holds_lax fun f hf => hl f (List.mem_append_left _ hf)
        · refine (finds_onto (by simp [lax, spot])).bind fun place =>
            .infer (lax .anything place) (fun s _ hl => ?_) (.ret (.refl H) (by simp))
          exact holds_lax fun f hf => hl f (List.mem_append_left _ hf)

theorem runs_nextNode (mixed sk : Word) (k : Key) :
    Runs C head t ⟨T, M⟩ l (nextNode C mixed sk k) := by
  refine (finds_locate (A := .anything) (fun w hw => by cases hw) (by simp [known])).bind
    fun x => ?_
  obtain ⟨prev, cur⟩ := x
  have hnull : (Link.null : Link Addr).ptr = none ∨ (Link.null : Link Addr).ptr = cur := .inl rfl
  apply Spec.learn hnull
  refine (finds_skip sk k (prev, cur, .null) (by grind [lax])).bind fun r => ?_
  cases r with
  | none => exact .ret (.refl _) (by simp)
  | some place =>
    apply Spec.loop (lax .anything) (by simp)
    intro place
    obtain ⟨prev, cur, tagged⟩ := place
    cases cur with
    | none => exact .skip rfl fun _ => .ret (.refl _) (by simp)
    | some cur =>
      apply Spec.assume (φ := tagged.ptr = none ∨ tagged.ptr = some cur) (by simp [lax])
      intro hptr
      refine .loadNext (by simp [lax, spot]) fun raw => ?_
      rw [Prog.ret_bind]
      split
      · next hr =>
        refine (finds_clear hr (List.Subset.trans
          (spot_subset_lax .anything (prev, some cur, tagged)) (by grind)) (by simp) hptr).bind
          fun place => .infer (lax .anything place) (fun s _ hl => ?_) (.ret (.refl _) (by simp))
        exact holds_lax fun f hf => hl f (List.mem_append_left _ hf)
      · refine (finds_onto (by simp [lax, spot])).bind fun place => ?_
        obtain ⟨prev, nxt, tagged⟩ := place
        cases nxt with
        | none => exact .ret (.refl _) (by simp)
        | some a =>
          refine .skip rfl fun so => ?_
          rw [Prog.ret_bind]
          split
          · exact (runs_describe a).bind fun _ => .ret (.refl _) (by simp)
          · refine .infer (lax .anything (prev, some a, tagged)) (fun s _ hl => ?_)
              (.ret (.refl _) (by simp))
            exact holds_lax fun f hf => hl f (List.mem_append_left _ hf)

end Calls

/-! ## Whole calls -/

section Coverage

variable {C : Config Key} {head : Addr} {t : Nat} {s : Followed Addr Key} {op : Request Addr Key}

/-- What a call that answers `r` has done: an insertion or erasure that succeeds has changed the
entries. -/
def Turn.after (op : Request Addr Key) : Answer Addr Key → Turn Addr Key
  | .inserted .INSERT_OK => .done op (.inserted .INSERT_OK)
  | .flag true => .done op (.flag true)
  | _ => .fresh op

/-- What a call that answers `r` without a change has learned. -/
def learned (C : Config Key) : Request Addr Key → Answer Addr Key → List (Fact Addr Key)
  | .emplace _ _, .inserted .INSERT_OK | .insert _ _, .inserted .INSERT_OK
  | .erase _, .flag true => []
  | .emplace _ k, .inserted .INSERT_DUPLICATE | .insert _ k, .inserted .INSERT_DUPLICATE =>
    [.found k]
  | .erase k, .flag false | .find k, .node none => [.lost (.entry (C.splitKey k))]
  | .find k, .node (some a) => [.was a k]
  | .size, .count _ | .grow _, .done | .first, .info _ | .next _ _ _, .info _ => []
  | _, _ => [.pure False]

/-- The node that a call brings has the key of the call. -/
def given : Request Addr Key → List (Fact Addr Key)
  | .emplace n k | .insert n k => [.named n k]
  | _ => []

/-- Each call does what its answer says at some point of it. -/
theorem runs_code (hop : op ≠ .clear) :
    Spec C head t ⟨.fresh op, op.brings.map (⟨·, 0, none⟩)⟩ (given op) (op.code C)
      (fun r => ⟨.after op r, []⟩) (learned C op) := by
  cases op with
  | emplace n k =>
    have hlink : ∀ x : Contents Addr Key, C.Absent x k → (Request.emplace n k).Does C x
        (x ∪ {(n, k)}) (.inserted .INSERT_OK) := fun x hx => Or.inl ⟨rfl, hx, rfl⟩
    refine (links_insertNode hlink rfl (suits_soKeyOf _) (by simp [given])).bind fun r => ?_
    cases r with
    | INSERT_OK => exact runs_maybeGrow.bind fun _ => .ret (.refl _) (by simp [learned])
    | INSERT_DUPLICATE => exact .ret (.refl _) (by simp [learned])
  | insert n k =>
    have hlink : ∀ x : Contents Addr Key, C.Absent x k → (Request.insert n k).Does C x
        (x ∪ {(n, k)}) (.inserted .INSERT_OK) := fun x hx => Or.inl ⟨rfl, hx, rfl⟩
    refine (links_insertNode hlink rfl (suits_soKeyOf _) (by simp [given])).bind fun r => ?_
    cases r <;> exact .ret (.refl _) (by simp [learned])
  | erase k =>
    have hmark : ∀ (x : Contents Addr Key) y, y ∈ x → C.eq y.2 k = true →
        (Request.erase k).Does C x (x \ {y}) (.flag true) :=
      fun x y hy heq => Or.inl ⟨rfl, y, hy, heq, rfl⟩
    refine (marks_eraseNode hmark rfl (suits_soKeyOf _)).bind fun b => ?_
    cases b <;> exact .ret (.refl _) (by simp [learned])
  | find k =>
    refine (finds_findNode rfl (suits_soKeyOf _)).bind fun r => ?_
    cases r <;> exact .ret (.refl _) (by simp [learned])
  | size => exact .skip rfl fun _ => .ret (.refl _) (by simp [learned])
  | clear => exact absurd rfl hop
  | grow force => exact (runs_growOnce force).bind fun _ => .ret (.refl _) (by simp [learned])
  | first => exact runs_firstNode.bind fun _ => .ret (.refl _) (by simp [learned])
  | next mixed sk k =>
    exact (runs_nextNode mixed sk k).bind fun _ => .ret (.refl _) (by simp [learned])

/-- The call `op` of thread `t` has nothing left to settle and may answer `r`. -/
structure Settled (C : Config Key) (t : Nat) (op : Request Addr Key) (r : Answer Addr Key)
    (s : Followed Addr Key) : Prop extends Idle t s where
  accounts : C.Separates → s.moments.Accounts (Request.Does C) t op r

variable {r : Answer Addr Key} {M : List (Own Addr)}

omit [DecidableEq Addr] in
theorem settled_done (h : (Turn.done op r).holds C t s) : Settled C t op r s :=
  ⟨h.idle rfl rfl rfl, fun hC => .inr (h.changed hC)⟩

omit [DecidableEq Addr] in
theorem settled_fresh (h : (Turn.fresh op).holds C t s)
    (hdoes : C.Separates → ∃ x ∈ s.moments.seen t, op.Does C x x r) : Settled C t op r s :=
  ⟨h.idle rfl rfl rfl, fun hC => .inl ⟨h.changed hC, hdoes hC⟩⟩

omit [DecidableEq Addr] in
/-- A key whose split-order key was absent was absent. -/
theorem absent_of_lost {k : Key} (hC : C.Separates)
    (h : Fact.holds C head t s (.lost (.entry (C.splitKey k)))) :
    ∃ x ∈ s.moments.seen t, C.Absent x k := by
  obtain ⟨x, hx, habsent⟩ := h hC
  refine ⟨x, hx, fun e he => ?_⟩
  rw [Bool.eq_false_iff]
  intro heq
  exact habsent e he ((hC e.2 k).mp heq)

omit [DecidableEq Addr] in
/-- What is known at the return of a call settles its answer. -/
theorem settled (hi : Told C head s) (h : Has C head t ⟨.after op r, M⟩ (learned C op r) s) :
    Settled C t op r s := by
  obtain ⟨-, -, hturn, hknows⟩ := h
  revert hturn hknows
  fun_cases learned C op r with
  | case1 n k | case2 n k | case3 k =>
    intro hturn _
    exact settled_done hturn
  | case4 n k | case5 n k =>
    intro hturn hknows
    obtain ⟨x, hx, he⟩ : ∃ x ∈ s.moments.seen t, ∃ e ∈ x, C.eq e.2 k = true :=
      hknows _ List.mem_cons_self
    exact settled_fresh hturn fun _ => ⟨x, hx, Or.inr ⟨rfl, rfl, he⟩⟩
  | case6 k =>
    intro hturn hknows
    refine settled_fresh hturn fun hC => ?_
    obtain ⟨x, hx, habsent⟩ := absent_of_lost hC (hknows _ List.mem_cons_self)
    exact ⟨x, hx, Or.inr ⟨rfl, rfl, habsent⟩⟩
  | case7 k =>
    intro hturn hknows
    refine settled_fresh hturn fun hC => ?_
    obtain ⟨x, hx, habsent⟩ := absent_of_lost hC (hknows _ List.mem_cons_self)
    exact ⟨x, hx, rfl, Or.inr ⟨rfl, habsent⟩⟩
  | case8 k a =>
    intro hturn hknows
    obtain ⟨-, heq, x, hx, hmem⟩ : s.Linked a ∧ C.eq (s.heap.key a) k = true ∧
        ∃ x ∈ s.moments.seen t, (a, s.heap.key a) ∈ x := hknows _ List.mem_cons_self
    exact settled_fresh hturn fun _ => ⟨x, hx, rfl, Or.inl ⟨_, hmem, heq, rfl⟩⟩
  | case9 | case10 | case11 | case12 =>
    intro hturn _
    exact settled_fresh hturn fun _ => ⟨_, hi.now t, rfl⟩
  | case13 =>
    intro _ hknows
    exact (hknows _ List.mem_cons_self).elim

/-! ### Invocation and return -/

omit [DecidableEq Addr] in
/-- The others leave a thread between two calls where it is. -/
theorem Idle.keep {u : Nat} {s' : Followed Addr Key} (hu : t ≠ u) (hg : Follows head u s s')
    (h : Idle t s) : Idle t s' := by
  obtain ⟨hright, hcredit, hdebit⟩ := hg.books t hu
  exact ⟨hright.trans h.right, mt hcredit.mp h.credit, mt hdebit.mp h.debit⟩

omit [DecidableEq Addr] in
/-- A call begins with nothing done. -/
theorem Idle.enter (h : Idle t s) : (Turn.fresh op).holds C t (s.enter head t op) :=
  ⟨Function.update_self _ _ _, fun _ => Function.update_self _ _ _, h.right,
    iff_of_false h.credit Bool.false_ne_true, iff_of_false h.debit Bool.false_ne_true⟩

/-- A call begins; `s'` is the container after what the caller does before. -/
theorem enters (hop : op ≠ .clear) (hi : Told C head s) (hb : Booked head s) (hidle : Idle t s)
    (hnodup : op.brings.Nodup) (hown : ∀ n ∈ op.brings, (Own.mk n 0 none).holds t s.toAged)
    (hgiven : ∀ f ∈ given op, f.holds C head t (s.enter head t op)) :
    (following C head).WP t (op.code C) (Settled C t op) (s.enter head t op) := by
  have hhas : Has C head t ⟨.fresh op, op.brings.map (⟨·, 0, none⟩)⟩ (given op)
      (s.enter head t op) := by
    refine ⟨?_, fun x hx => ?_, hidle.enter, hgiven⟩
    · rw [List.map_map]
      exact (List.map_id op.brings).symm ▸ hnodup
    · obtain ⟨n, hn, rfl⟩ := List.mem_map.mp hx
      exact hown n hn
  have hrun := runs_code hop _ (List.Subset.refl _) _ (enter_told hi) (enter_booked hb) hhas
  refine hrun.mono fun r s hi hh => settled hi.1 (hh.mono (List.subset_append_left _ _))

/-- The inserter makes its node. -/
theorem still_create {n : Addr} (k : Key) (hi : Told C head s) (hn : n ∉ s.heap.inUse) :
    Still head t s
      { s.toAged with heap := s.heap.create n k, owner := update s.owner n (some t) } :=
  still_give hi hn rfl rfl rfl rfl rfl (fun _ ha => Function.update_of_ne ha _ _) rfl

/-- A call that brings a node begins with a new block. -/
theorem enters_create {n : Addr} {k : Key} (hop : op ≠ .clear) (hbrings : op.brings = [n])
    (hgiven : given op = [.named n k]) (hi : Told C head s) (hb : Booked head s) (hidle : Idle t s)
    (hn : n ∉ s.heap.inUse) : ∃ x : Followed Addr Key,
      (x.heap, x.moments) =
        (s.heap.create n k, s.moments.enter t op ((s.heap.create n k).entries head)) ∧
      Follows head t s x ∧ (following C head).WP t (op.code C) (Settled C t op) x := by
  have hstill := still_create (t := t) k hi hn
  refine ⟨(s.withAged _).enter head t op, rfl, enter_follows hstill.follows_same,
    enters hop (hstill.told hi) (hstill.booked hb hi rfl rfl)
      ⟨hidle.right, hidle.credit, hidle.debit⟩ ?_ (fun m hm => ?_) fun f hf => ?_⟩
  · rw [hbrings]
    exact List.nodup_singleton n
  · rw [hbrings] at hm
    obtain rfl := List.mem_singleton.mp hm
    exact ⟨Function.update_self _ _ _, Function.update_self _ _ _, fun p hp => by cases hp⟩
  · rw [hgiven] at hf
    obtain rfl := List.mem_singleton.mp hf
    exact ⟨Finset.mem_insert_self _ _, Function.update_self _ _ _⟩

/-- A call that brings nothing begins in the list as it is. -/
theorem enters_same (hop : op ≠ .clear) (hbrings : op.brings = []) (hgiven : given op = [])
    (hi : Told C head s) (hb : Booked head s) (hidle : Idle t s) : ∃ x : Followed Addr Key,
      (x.heap, x.moments) = (s.heap, s.moments.enter t op (s.heap.entries head)) ∧
      Follows head t s x ∧ (following C head).WP t (op.code C) (Settled C t op) x := by
  refine ⟨s.enter head t op, rfl, enter_follows Follows.rfl,
    enters hop hi hb hidle ?_ (fun m hm => ?_) fun f hf => ?_⟩
  · rw [hbrings]
    exact List.nodup_nil
  · rw [hbrings] at hm
    cases hm
  · rw [hgiven] at hf
    cases hf

/-- The calls keep the account of the entries, and each answer is settled. -/
theorem following_covers : (@following Addr Key C head _).CoversIdle Idle (Settled C) where
  stable t u hu s s' _ _ hg h := h.keep hu.symm hg
  respond t op r s hi h := ⟨s, rfl, hi, Follows.rfl, h.toIdle⟩
  invoke t op s m hi hidle hinvoke := by
    obtain ⟨h, hh, rfl⟩ := Option.map_eq_some_iff.mp hinvoke
    cases op with
    | emplace n k =>
      simp only [list, following] at hh
      split at hh <;> cases hh
      next hn => exact enters_create (by simp) rfl rfl hi.1 hi.2 hidle hn
    | insert n k =>
      simp only [list, following] at hh
      split at hh <;> cases hh
      next hn => exact enters_create (by simp) rfl rfl hi.1 hi.2 hidle hn
    | clear => cases hh
    | _ =>
      cases hh
      exact enters_same (by simp) rfl rfl hi.1 hi.2 hidle

/-! ### The empty container -/

/-- Nothing is recorded of an empty container. -/
noncomputable def Followed.new (key : Addr → Key) (head : Addr) (pick : Nat → Finset Addr → Addr)
    (threshold : Nat → Nat) : Followed Addr Key where
  heap := Heap.new key head pick threshold
  owner _ := none
  date _ := 0
  moments := .init ((Heap.new key head pick threshold).entries head)
  right _ := none
  credit := ∅
  debit := ∅

omit [DecidableEq Addr] in
/-- A new container has no entries. -/
theorem entries_new (key : Addr → Key) (head : Addr) (pick : Nat → Finset Addr → Addr)
    (threshold : Nat → Nat) : (Heap.new key head pick threshold).entries head = ∅ := by
  refine Set.eq_empty_of_forall_notMem ?_
  rintro e ⟨-, -, hreg, -⟩
  have hzero : isRegular 0 = true := hreg
  cases hzero

variable {key : Addr → Key} {pick : Nat → Finset Addr → Addr} {threshold : Nat → Nat}

omit [DecidableEq Addr] in
/-- A new container is told of truly. -/
theorem told_new (hpick : ∀ n F, pick n F ∉ F) :
    Told C head (Followed.new key head pick threshold) := by
  have horder : InOrder (Followed.new key head pick threshold).toAged :=
    InOrder.new key head threshold hpick
  constructor
  case toShaped => exact shaped (Unlinked.Reached.new key head threshold hpick) horder
  case size => exact fun _ => ⟨1, by decide, rfl⟩
  case hashed =>
    intro a _ hreg
    have hzero : isRegular 0 = true := hreg
    cases hzero
  case stale =>
    intro _ a b _ hreg
    have hzero : isRegular 0 = true := hreg
    cases hzero
  case now => exact fun _ => rfl
  case pending => exact fun _ _ _ h => by cases h

omit [DecidableEq Addr] in
/-- A new container owes nothing. -/
theorem booked_new : Booked head (Followed.new key head pick threshold) := by
  constructor
  case right => exact fun _ _ h => by cases h
  case retired => exact fun _ h => by cases h
  case nodup => exact List.nodup_nil
  case settled => exact fun _ h => by cases h
  case count =>
    show (0 : Int) + _ = (((Heap.new key head pick threshold).entries head).ncard : Int) + _
    rw [entries_new, Set.ncard_empty]
    rfl

theorem following_new (hpick : ∀ n F, pick n F ∉ F) :
    (following C head).inv (Followed.new key head pick threshold) ∧
      ∀ t, Idle t (Followed.new key head pick threshold) :=
  ⟨⟨told_new hpick, booked_new⟩, fun _ => ⟨rfl, Finset.notMem_empty _, Finset.notMem_empty _⟩⟩

/-- The beginning of a call changes no entry. -/
theorem invoke_entries {m : Heap Addr Key} (hi : Told C head s)
    (h : (list C).invoke t op s.heap = some m) : m.entries head = s.heap.entries head := by
  cases op with
  | emplace n k | insert n k =>
    simp only [list] at h
    split at h <;> cases h
    next hn => exact (still_create (t := t) k hi hn).entries hi
  | clear => cases h
  | _ =>
    cases h
    rfl

/-- In every run the threads are covered. -/
theorem followed (hpick : ∀ n F, pick n F ∉ F)
    {c : Conc.Config (Op Addr Key) (Heap Addr Key) (Request Addr Key) (Answer Addr Key)}
    (h : (list C).Reach HelpsListed (Heap.new key head pick threshold) c) :
    ∃ s : Followed Addr Key, s.heap = c.shared ∧ Told C head s ∧ Booked head s ∧
      ∀ t, c.thread t = none → Idle t s := by
  obtain ⟨d, hd, rfl⟩ := h.timed (Heap.entries head)
  obtain ⟨h₀, hidle₀⟩ := following_new hpick
  obtain ⟨s, hs, hidle⟩ := Discipline.reach_idle following_covers h₀ hidle₀ hd
  exact ⟨s, congrArg Prod.fst hs.erase, hs.inv.1, hs.inv.2, hidle⟩

omit [DecidableEq Addr] in
/-- The threads that have something to settle are inside calls. -/
theorem subset_of_idle {F : Finset Nat} (hF : ∀ t ∉ F, Idle t s) :
    s.credit ⊆ F ∧ s.debit ⊆ F ∧ ∀ t a, s.right t = some a → t ∈ F := by
  refine ⟨fun t ht => ?_, fun t ht => ?_, fun t a ht => ?_⟩ <;> by_contra hout
  · exact (hF t hout).credit ht
  · exact (hF t hout).debit ht
  · rw [(hF t hout).right] at ht
    cases ht

end Coverage

end Entries

open Entries

/-- In every run in which no helper brings back an erased node, each insertion, search and erasure
takes effect at one point between its invocation and its return, as it does on a map that nobody
else uses, if the split-order keys tell the keys apart. (Else a scan that has unlinked a node of its
run may find a new node of a smaller key before the rest of the run, and miss it.) -/
theorem engine_linearizable (C : Config Key) (hC : C.Separates) (key : Addr → Key) (head : Addr)
    (pick : Nat → Finset Addr → Addr) (threshold : Nat → Nat) (hpick : ∀ n F, pick n F ∉ F)
    (ls : List (Label (Request Addr Key)))
    (c : Conc.Config (Op Addr Key) (Heap Addr Key) (Request Addr Key) (Answer Addr Key))
    (h : (list C).Trace HelpsListed (Heap.new key head pick threshold) ls c) :
    ∃ done, (list C).Linearized (Request.Does C) (Heap.new key head pick threshold) ∅ ls c
      (c.shared.entries head) done := by
  rw [← entries_new key head pick threshold]
  obtain ⟨h₀, hidle₀⟩ := following_new hpick
  exact Discipline.linearizable following_covers h₀ hidle₀
    (fun _ _ _ _ _ hr => hr.accounts hC) (fun a t hi => hi.1.now t)
    (fun a t op hi hop => hi.1.pending hC t op hop)
    (fun _ _ _ _ hi hinvoke => invoke_entries hi.1 hinvoke)
    (fun _ _ _ _ _ => rfl) (fun _ _ _ hok => hok) rfl h

open Label (whole)

/-- Keys are equal if their split-order keys are. -/
def Config.separated (C : Config Key) : Config Key :=
  { C with eq := fun k k' => C.splitKey k = C.splitKey k' }

theorem separated_separates (C : Config Key) : C.separated.Separates := by
  have hmixed : ∀ k, C.separated.mixedHash k = C.mixedHash k := fun k =>
    congrArg mixHash (Eq.refl (C.hash k))
  intro k k'
  rw [Config.splitKey, Config.splitKey, hmixed, hmixed]
  exact decide_eq_true_iff

/-- Two threads insert the same key. Thread 0 has found its place when thread 1 links its node; it
finds this node then, before thread 1 has counted it. -/
def racing : List (Label (Request Nat Nat)) :=
  .call 0 (.insert 1 0) :: List.replicate 9 (.step 0 false) ++
    .call 1 (.insert 2 0) :: List.replicate 12 (.step 1 false) ++ List.replicate 14 (.step 0 false)

/-- Thread 0 may answer before thread 1 does. -/
theorem engine_linearizable_run :
    ∃ (c : Conc.Config (Op Nat Nat) (Heap Nat Nat) (Request Nat Nat) (Answer Nat Nat))
      (done : Nat → Option (Answer Nat Nat)),
      (c.answered 0).map Prod.snd = some (.inserted .INSERT_DUPLICATE) ∧ c.answered 1 = none ∧
      (list epochal.separated).Linearized (Request.Does epochal.separated)
        (Heap.new id 0 nextBlock id) ∅ racing c (c.shared.entries 0) done := by
  have hrun : ((list epochal.separated).execIf helpsListedTest
      (SharedObject.start (Heap.new id 0 nextBlock id)) racing).map (fun c =>
        ((c.answered 0).map Prod.snd, (c.answered 1).isNone)) =
      some (some (.inserted .INSERT_DUPLICATE), true) := by
    decide +kernel
  obtain ⟨c, hc, hval⟩ := Option.map_eq_some_iff.mp hrun
  simp only [Prod.mk.injEq] at hval
  have htrace := SharedObject.trace_execIf helpsListedTest_sound racing .start hc
  obtain ⟨done, hdone⟩ := engine_linearizable epochal.separated (separated_separates epochal) id 0
    nextBlock id nextBlock_notMem racing c htrace
  exact ⟨c, done, hval.1, Option.isNone_iff_eq_none.mp hval.2, hdone⟩

/-- In every such run no key has two entries. -/
theorem one_entry (C : Config Key) (hC : C.Separates) (key : Addr → Key) (head : Addr)
    (pick : Nat → Finset Addr → Addr) (threshold : Nat → Nat) (hpick : ∀ n F, pick n F ∉ F)
    (c : Conc.Config (Op Addr Key) (Heap Addr Key) (Request Addr Key) (Answer Addr Key))
    (h : (list C).Reach HelpsListed (Heap.new key head pick threshold) c) (e e' : Addr × Key)
    (he : e ∈ c.shared.entries head) (he' : e' ∈ c.shared.entries head)
    (heq : C.eq e.2 e'.2 = true) : e = e' := by
  obtain ⟨s, hs, hi, -, -⟩ := followed hpick h
  rw [← hs] at he he'
  obtain ⟨hlive, hk⟩ := (mem_entries hi.toReached).mp he
  obtain ⟨hlive', hk'⟩ := (mem_entries hi.toReached).mp he'
  have hso : s.heap.soKey e.1 = s.heap.soKey e'.1 := by
    rw [hi.hashed e.1 hlive.linked hlive.regular, hi.hashed e'.1 hlive'.linked hlive'.regular, hk,
      hk']
    exact (hC _ _).mp heq
  have hnode := hi.unique hC hlive hlive' hso
  exact Prod.ext hnode (by rw [← hk, ← hk', hnode])

/-- The node of thread 1 is the only one of its key. -/
theorem one_entry_run :
    ∃ c : Conc.Config (Op Nat Nat) (Heap Nat Nat) (Request Nat Nat) (Answer Nat Nat),
      (list epochal.separated).Reach HelpsListed (Heap.new id 0 nextBlock id) c ∧
      (2, 0) ∈ c.shared.entries 0 ∧
      ∀ e ∈ c.shared.entries 0, epochal.separated.eq 0 e.2 = true → (2, 0) = e := by
  have hrun : ((list epochal.separated).execIf helpsListedTest
      (SharedObject.start (Heap.new id 0 nextBlock id)) racing).map (fun c =>
        (c.shared.next 0, (c.shared.next 2).marked, isRegular (c.shared.soKey 2), c.shared.key 2)) =
      some (.plain (some 2), false, true, 0) := by
    decide +kernel
  obtain ⟨c, hc, hval⟩ := Option.map_eq_some_iff.mp hrun
  simp only [Prod.mk.injEq] at hval
  obtain ⟨hnext, hentry⟩ := hval
  have hmem : (2, 0) ∈ c.shared.entries 0 := ⟨.single (congrArg Link.ptr hnext), hentry⟩
  have hreach := (list epochal.separated).reach_execIf helpsListedTest_sound racing .start hc
  exact ⟨c, hreach, hmem, fun e he heq => one_entry epochal.separated (separated_separates epochal)
    id 0 nextBlock id nextBlock_notMem c hreach (2, 0) e hmem he heq⟩

/-- In every run in which no helper brings back an erased node, a node is retired at most once, and
then it is marked and out of the list. -/
theorem retired_once (C : Config Key) (key : Addr → Key) (head : Addr)
    (pick : Nat → Finset Addr → Addr) (threshold : Nat → Nat) (hpick : ∀ n F, pick n F ∉ F)
    (c : Conc.Config (Op Addr Key) (Heap Addr Key) (Request Addr Key) (Answer Addr Key))
    (h : (list C).Reach HelpsListed (Heap.new key head pick threshold) c) :
    c.shared.retired.Nodup ∧
      ∀ a ∈ c.shared.retired, (c.shared.next a).marked = true ∧ ¬ c.shared.Reaches head a := by
  obtain ⟨s, hs, -, hb, -⟩ := followed hpick h
  rw [← hs]
  exact ⟨hb.nodup, hb.retired⟩

/-- Two nodes have been retired; another thread still knows one of them. -/
theorem retired_once_run :
    ∃ c : Conc.Config (Op Nat Nat) (Heap Nat Nat) (Request Nat Nat) (Answer Nat Nat),
      (list epochal).Reach HelpsListed (Heap.new id 0 nextBlock id) c ∧ c.shared.retired = [1, 2] ∧
      c.shared.retired.Nodup ∧
      ∀ a ∈ c.shared.retired, (c.shared.next a).marked = true ∧ ¬ c.shared.Reaches 0 a := by
  have hrun : ((list epochal).execIf helpsListedTest
      (SharedObject.start (Heap.new id 0 nextBlock id)) bothUnlinked).map (fun c =>
        c.shared.retired) = some [1, 2] := by
    decide +kernel
  obtain ⟨c, hc, hval⟩ := Option.map_eq_some_iff.mp hrun
  have hreach := (list epochal).reach_execIf helpsListedTest_sound bothUnlinked .start hc
  exact ⟨c, hreach, hval, retired_once epochal id 0 nextBlock id nextBlock_notMem c hreach⟩

/-- In every run in which no helper brings back an erased node, the entries are finitely many and
`count_`, a number modulo `2 ^ 64`, differs from their number by at most the number of the threads
inside calls. -/
theorem count_near (C : Config Key) (key : Addr → Key) (head : Addr)
    (pick : Nat → Finset Addr → Addr) (threshold : Nat → Nat) (hpick : ∀ n F, pick n F ∉ F)
    (c : Conc.Config (Op Addr Key) (Heap Addr Key) (Request Addr Key) (Answer Addr Key))
    (h : (list C).Reach HelpsListed (Heap.new key head pick threshold) c) (F : Finset Nat)
    (hF : ∀ t ∉ F, c.thread t = none) :
    ∃ (n : Nat) (d : Int), (c.shared.entries head).encard = n ∧ d.natAbs ≤ F.card ∧
      c.shared.count % 2 ^ 64 = (n + d) % 2 ^ 64 := by
  obtain ⟨s, hs, hi, hb, hidle⟩ := followed hpick h
  obtain ⟨hcredit, hdebit, -⟩ := subset_of_idle fun t ht => hidle t (hF t ht)
  rw [← hs]
  have hcount := hb.count
  have hle := Finset.card_le_card hcredit
  have hle' := Finset.card_le_card hdebit
  refine ⟨(s.heap.entries head).ncard, s.heap.count - (s.heap.entries head).ncard,
    (finite_entries hi.toReached).cast_ncard_eq.symm, by omega, ?_⟩
  rw [add_sub_cancel]

/-- Thread 1 has linked its node, and the counter is still 0. -/
theorem count_near_run :
    ∃ c : Conc.Config (Op Nat Nat) (Heap Nat Nat) (Request Nat Nat) (Answer Nat Nat),
      (list epochal).Reach HelpsListed (Heap.new id 0 nextBlock id) c ∧ c.shared.count = 0 ∧
      (c.shared.next 0).ptr = some 2 ∧
      ∃ (n : Nat) (d : Int), (c.shared.entries 0).encard = n ∧ d.natAbs ≤ 2 ∧
        c.shared.count % 2 ^ 64 = (n + d) % 2 ^ 64 := by
  have hrun : ((list epochal).execIf helpsListedTest
      (SharedObject.start (Heap.new id 0 nextBlock id)) racing).map (fun c =>
        (c.shared.count, (c.shared.next 0).ptr)) = some (0, some 2) := by
    decide +kernel
  obtain ⟨c, hc, hval⟩ := Option.map_eq_some_iff.mp hrun
  simp only [Prod.mk.injEq] at hval
  have hreach := (list epochal).reach_execIf helpsListedTest_sound racing .start hc
  have hthreads : ∀ t ∈ racing.map Label.thread, t ∈ ({0, 1} : Finset Nat) := by decide
  exact ⟨c, hreach, hval.1, hval.2, count_near epochal id 0 nextBlock id nextBlock_notMem c hreach
    {0, 1} fun t ht => (list epochal).execIf_other racing hc fun hmem => ht (hthreads t hmem)⟩

/-- In every run in which no helper brings back an erased node, of the marked nodes at most as many
are not retired as there are threads inside calls. -/
theorem unretired_few (C : Config Key) (key : Addr → Key) (head : Addr)
    (pick : Nat → Finset Addr → Addr) (threshold : Nat → Nat) (hpick : ∀ n F, pick n F ∉ F)
    (c : Conc.Config (Op Addr Key) (Heap Addr Key) (Request Addr Key) (Answer Addr Key))
    (h : (list C).Reach HelpsListed (Heap.new key head pick threshold) c) (F : Finset Nat)
    (hF : ∀ t ∉ F, c.thread t = none) :
    {a | (c.shared.next a).marked = true ∧ a ∉ c.shared.retired}.encard ≤ F.card := by
  obtain ⟨s, hs, -, hb, hidle⟩ := followed hpick h
  obtain ⟨-, -, hright⟩ := subset_of_idle fun t ht => hidle t (hF t ht)
  rw [← hs]
  have hsub : some '' {a | (s.heap.next a).marked = true ∧ a ∉ s.heap.retired} ⊆
      ↑(F.image s.right) := by
    rintro _ ⟨a, ⟨hm, hout⟩, rfl⟩
    obtain ⟨t, ht⟩ := (hb.settled a hm).resolve_left hout
    exact Finset.mem_coe.mpr (Finset.mem_image.mpr ⟨t, hright t a ht, ht⟩)
  have hle := Set.encard_le_encard hsub
  rw [(Option.some_injective _).encard_image, Set.encard_coe_eq_coe_finsetCard] at hle
  exact hle.trans (Nat.cast_le.mpr Finset.card_image_le)

/-- Thread 1 has marked the node that thread 0 has inserted, and not retired it. -/
def halfErased : List (Label (Request Nat Nat)) :=
  whole 0 (.insert 1 0) 13 ++ .call 1 (.erase 0) :: List.replicate 13 (.step 1 false)

/-- The node is the only one that thread 1 still has to retire. -/
theorem unretired_few_run :
    ∃ c : Conc.Config (Op Nat Nat) (Heap Nat Nat) (Request Nat Nat) (Answer Nat Nat),
      (list epochal).Reach HelpsListed (Heap.new id 0 nextBlock id) c ∧
      (c.shared.next 1).marked = true ∧ c.shared.retired = [] ∧
      {a | (c.shared.next a).marked = true ∧ a ∉ c.shared.retired}.encard ≤ 1 := by
  have hrun : ((list epochal).execIf helpsListedTest
      (SharedObject.start (Heap.new id 0 nextBlock id)) halfErased).map (fun c =>
        ((c.thread 0).isNone, (c.shared.next 1).marked, c.shared.retired)) =
      some (true, true, []) := by
    decide +kernel
  obtain ⟨c, hc, hval⟩ := Option.map_eq_some_iff.mp hrun
  simp only [Prod.mk.injEq] at hval
  obtain ⟨hzero, hmarked, hretired⟩ := hval
  have hreach := (list epochal).reach_execIf helpsListedTest_sound halfErased .start hc
  have hthreads : ∀ t ∈ halfErased.map Label.thread, t = 0 ∨ t = 1 := by decide
  refine ⟨c, hreach, hmarked, hretired, unretired_few epochal id 0 nextBlock id nextBlock_notMem c
    hreach {1} fun t ht => ?_⟩
  by_cases ht0 : t = 0
  · rw [ht0]
    exact Option.isNone_iff_eq_none.mp hzero
  · refine (list epochal).execIf_other halfErased hc fun hmem => ht ?_
    exact Finset.mem_singleton.mpr ((hthreads t hmem).resolve_left ht0)

end MpmcMap.Unordered
