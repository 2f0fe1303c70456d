import MpmcMap.Unordered.Accesses

/-!
# Walks and scans

A walk from the dummy of a bucket finds the place of a key, and what comes there leads to the entry
of the key, or the entry was absent. A scan of a run answers with a node that held an entry of its
key when its pointer was read; if it finds none, the head of the run was marked, and behind a marked
node of its own run an entry cannot be.
-/

namespace MpmcMap.Unordered

open Conc
open Prog (perform iterate Closed)
open Function (update)

variable {Addr Key : Type} [DecidableEq Addr]

namespace Entries

section Searches

variable {C : Config Key} {head : Addr} {t : Nat} {H : Hand Addr Key} {T : Turn Addr Key}
  {M : List (Own Addr)} {l : List (Fact Addr Key)} {α β : Type} {s : Followed Addr Key}
  {A : Aim Addr} {prev cur d n a : Addr} {tagged raw : Link Addr} {so mixed : Word}

/-- The program comes to know the facts `g r`; what the thread has stays as it is. -/
abbrev Finds (C : Config Key) (head : Addr) (t : Nat) (H : Hand Addr Key)
    (l : List (Fact Addr Key)) (p : Code Addr Key α) (g : α → List (Fact Addr Key)) : Prop :=
  Spec C head t H l p (fun _ => H) g

/-- The program may run. -/
abbrev Runs (C : Config Key) (head : Addr) (t : Nat) (H : Hand Addr Key)
    (l : List (Fact Addr Key)) (p : Code Addr Key α) : Prop :=
  Finds C head t H l p fun _ => []

/-! ## Walks -/

/-- What is known of a node and its successor on the way. -/
def spot (A : Aim Addr) (prev : Addr) (cur : Option Addr) : List (Fact Addr Key) :=
  .past prev A :: .linked prev :: (after prev cur ++ ahead A cur)

/-- What is known of a walk's place: `tagged` has been read from `prev` and leads to `cur`. -/
def on (A : Aim Addr) (place : Place Addr) : List (Fact Addr Key) :=
  .pure (place.2.2.ptr = place.2.1) :: spot A place.1 place.2.1

/-- What is known of a scan's place: `tagged` may still be null. -/
def lax (A : Aim Addr) (place : Place Addr) : List (Fact Addr Key) :=
  .pure (place.2.2.ptr = none ∨ place.2.2.ptr = place.2.1) :: spot A place.1 place.2.1

/-- The node is below the key that is looked for. -/
def lower (A : Aim Addr) (a : Addr) : List (Fact Addr Key) :=
  A.word.toList.map (.below a ·)

/-- The node, if it is one, is not below the key. -/
def upper (so : Word) (p : Option Addr) : List (Fact Addr Key) := p.toList.map (.above · so)

omit [DecidableEq Addr] in
theorem spot_subset_on (A : Aim Addr) (place : Place Addr) :
    (spot A place.1 place.2.1 : List (Fact Addr Key)) ⊆ on A place :=
  List.subset_cons_self _ _

omit [DecidableEq Addr] in
theorem spot_subset_lax (A : Aim Addr) (place : Place Addr) :
    (spot A place.1 place.2.1 : List (Fact Addr Key)) ⊆ lax A place :=
  List.subset_cons_self _ _

omit [DecidableEq Addr] in
theorem linked_mem_spot {p : Option Addr} :
    (.linked prev : Fact Addr Key) ∈ spot A prev p := by simp [spot]

omit [DecidableEq Addr] in
theorem past_mem_spot {p : Option Addr} :
    (.past prev A : Fact Addr Key) ∈ spot A prev p := by simp [spot]

omit [DecidableEq Addr] in
theorem before_mem_spot : (.before prev cur : Fact Addr Key) ∈ spot A prev (some cur) := by
  simp [spot]

omit [DecidableEq Addr] in
theorem next_mem_spot : (.linked cur : Fact Addr Key) ∈ spot A prev (some cur) := by
  simp [spot]

omit [DecidableEq Addr] in
theorem leads_mem_spot : (.leads cur A : Fact Addr Key) ∈ spot A prev (some cur) := by
  simp [spot]

omit [DecidableEq Addr] in
theorem holds_lax {place : Place Addr} (h : ∀ f ∈ on A place, f.holds C head t s) :
    ∀ f ∈ lax A place, f.holds C head t s := by
  intro f hf
  rcases List.mem_cons.mp hf with rfl | hf
  · have hptr : place.2.2.ptr = place.2.1 := h (.pure _) (by simp [on])
    exact .inr hptr
  · exact h f (spot_subset_on A place hf)

theorem closed_runs :
    Closed (fun {β} (o : Op Addr Key β) => o.Reads) fun _ p => Runs C head t H l p where
  ret _ := .ret (.refl H) (List.nil_subset l)
  act ho hk := .skip (still_of_reads ho) hk
  bind hp hf := hp.bind hf

theorem runs_publish (slot : Nat) (a : Addr) : Runs C head t H l (publish C slot a) :=
  Reading.publish closed_runs slot a

theorem finds_protectFrom {src : Addr} (hsrc : .past src A ∈ l) (slot : Nat) :
    Finds C head t H l (protectFrom C src slot) fun r =>
      .pure (r.2.ptr = r.1) :: (after src r.1 ++ ahead A r.1) := by
  unfold protectFrom
  split
  · apply Spec.loop (fun _ => []) (by simp)
    intro _
    refine .loadPast (by simpa using hsrc) fun r => .skip rfl fun _ => .skip rfl fun b => ?_
    rw [Prog.ret_bind]
    split
    · exact .learn (Eq.refl r.ptr) (.ret (.refl H) (by grind))
    · exact .ret (.refl H) (by simp)
  · exact .loadPast hsrc fun r => .learn (Eq.refl r.ptr) (.ret (.refl H) (by grind))

theorem runs_loadTable : Runs C head t H l (loadTable C) := by
  refine Reading.loadTable closed_runs fun body hbody => Spec.loop (fun _ => []) (by simp) fun x => ?_
  rw [Sum.elim_lam_const_lam_const, Sum.elim_lam_const_lam_const]
  exact hbody x

theorem finds_follow (E : Addr → List (Fact Addr Key)) (hpast : .past prev A ∈ l)
    (hprev : .linked prev ∈ l) (hE : E prev ⊆ l) :
    Finds C head t H l (follow C prev) fun place => on A place ++ E place.1 := by
  refine (finds_protectFrom hpast HP_CUR).bind fun r => .ret (.refl H) ?_
  grind [on, spot]

theorem finds_help (E : Addr → List (Fact Addr Key)) (hr : raw.marked = true)
    (hplace : spot A prev (some cur) ⊆ l) (hcur : .seen cur raw ∈ l)
    (hptr : tagged.ptr = none ∨ tagged.ptr = some cur) (hE : E prev ⊆ l) :
    Finds C head t H l (help C prev tagged raw) fun place => on A place ++ E place.1 :=
  .help hr (hplace before_mem_spot) (hplace linked_mem_spot) hcur hptr fun _ =>
    finds_follow E (hplace past_mem_spot) (hplace linked_mem_spot) hE

theorem finds_advance (E : Addr → List (Fact Addr Key)) (hpast : .past cur A ∈ l)
    (hcur : .linked cur ∈ l) (hE : E cur ⊆ l) :
    Finds C head t H l (advance C cur) fun place => on A place ++ E place.1 :=
  (runs_publish HP_PREV cur).bind fun _ =>
    finds_follow E (by simpa using hpast) (by simpa using hcur) (by simpa using hE)

theorem finds_pass (E : Addr → List (Fact Addr Key)) (hplace : spot A prev (some cur) ⊆ l)
    (hpast : .past cur A ∈ l) (hptr : tagged.ptr = some cur) (hprev : E prev ⊆ l)
    (hE : E cur ⊆ l) :
    Finds C head t H l (pass C prev cur tagged) fun place => on A place ++ E place.1 := by
  have hcur : .linked cur ∈ l := hplace next_mem_spot
  refine .loadNext hcur fun raw => ?_
  rw [Prog.ret_bind]
  split
  · next hr =>
    exact finds_help E hr (List.subset_append_of_subset_right _ hplace) (by simp) (.inr hptr)
      (List.subset_append_of_subset_right _ hprev)
  · exact finds_advance E (List.mem_append_right _ hpast) (List.mem_append_right _ hcur)
      (List.subset_append_of_subset_right _ hE)

omit [DecidableEq Addr] in
/-- A node below the key is not what is looked for. -/
theorem past_of_leads (hleads : Fact.holds C head t s (.leads a A))
    (hlt : ∀ w, A.word = some w → s.heap.soKey a < w) :
    Fact.holds C head t s (.past a A) := by
  obtain ⟨hlinked, hlost | ⟨x, hx, hreach⟩⟩ := hleads
  · exact ⟨hlinked, .inl hlost⟩
  · refine ⟨hlinked, .inr ⟨x, hx, ?_, hreach⟩⟩
    rintro rfl
    cases hw : A.word with
    | none => cases A <;> first | exact hx.elim | cases hw
    | some w => exact BitVec.lt_irrefl _ (hx.soKey hw ▸ hlt w hw)

omit [DecidableEq Addr] in
/-- What the walk knows of a node that it passes. -/
theorem holds_below {r : Word} (hso : ∀ w, A.word = some w → w = so)
    (hkey : Fact.holds C head t s (.keyed a r)) (hlt : r < so)
    (hleads : Fact.holds C head t s (.leads a A)) :
    ∀ f ∈ .past a A :: lower A a, f.holds C head t s := by
  obtain ⟨hlinked, hr⟩ := hkey
  intro f hf
  rcases List.mem_cons.mp hf with rfl | hf
  · refine past_of_leads hleads fun w hw => ?_
    rw [hr, hso w hw]
    exact hlt
  · obtain ⟨w, hw, rfl⟩ := List.mem_map.mp hf
    refine ⟨hlinked, ?_⟩
    rw [hr, hso w (Option.mem_toList.mp hw)]
    exact hlt

theorem finds_walk (hso : ∀ w, A.word = some w → w = so) (hpast : .past d A ∈ l)
    (hd : .linked d ∈ l) (hlow : lower A d ⊆ l) :
    Finds C head t H l (walk C d so) fun place =>
      on A place ++ (lower A place.1 ++ upper so place.2.1) := by
  refine (runs_publish HP_PREV d).bind fun _ => ?_
  refine (finds_follow (lower A) (by simpa using hpast) (by simpa using hd)
    (by simpa using hlow)).bind fun place => ?_
  apply Spec.loop (fun place => on A place ++ lower A place.1) (by simp)
  intro place
  obtain ⟨prev, cur, tagged⟩ := place
  cases cur with
  | none => exact .ret (.refl H) (by grind [upper])
  | some cur =>
    apply Spec.assume (φ := tagged.ptr = some cur) (by simp [on])
    intro hptr
    refine .loadSoKey (by simp [on, spot]) fun r => ?_
    rw [Prog.ret_bind]
    split
    · next hle =>
      refine .infer [.above cur so] (fun s _ hl f hf => ?_) (.ret (.refl H) (by grind [upper]))
      obtain rfl := List.mem_singleton.mp hf
      obtain ⟨hlinked, hr⟩ : s.Linked cur ∧ s.heap.soKey cur = r := hl _ List.mem_cons_self
      exact ⟨hlinked, hr ▸ hle⟩
    · next hgt =>
      refine .infer (.past cur A :: lower A cur) (fun s _ hl =>
        holds_below hso (hl _ List.mem_cons_self) (BitVec.not_le.mp hgt)
          (hl (.leads cur A) (by simp [on, spot]))) ?_
      refine (finds_pass (lower A)
        (List.Subset.trans (spot_subset_on A (prev, some cur, tagged)) (by grind)) (by simp) hptr
        (by grind) (by grind)).bind fun place => .ret (.refl H) (by simp)

/-! ## Buckets -/

/-- A node of the thread is linked behind a dummy. -/
theorem links_insertFrom {start : Addr} {i : Nat} {w : Option (Option Addr)}
    (hstart : .keyed start (dummySplitOrderKey i) ∈ l) (hlt : dummySplitOrderKey i < so)
    (hso : isRegular so = false) :
    Spec C head t ⟨T, ⟨n, so, w⟩ :: M⟩ l (insertFrom C start n) (fun _ => ⟨T, M⟩)
      fun _ => [.keyed n so] := by
  refine .blank (.loadOwnKey ?_)
  rw [Prog.ret_bind]
  refine .infer [.past start (.place so), .linked start, .below start so] (fun s _ hl f hf => ?_) ?_
  · obtain ⟨hlinked, hkey⟩ : s.Linked start ∧ s.heap.soKey start = _ := hl _ hstart
    simp only [List.mem_cons, List.not_mem_nil, or_false] at hf
    rcases hf with rfl | rfl | rfl
    · exact ⟨hlinked, .inl trivial⟩
    · exact hlinked
    · exact ⟨hlinked, hkey ▸ hlt⟩
  apply Spec.loop (fun _ => []) (by simp)
  intro _
  refine (finds_walk (A := .place so) (fun w hw => (Option.some.inj hw).symm) (by simp) (by simp)
    (by simp [lower, Aim.word])).bind fun place => ?_
  obtain ⟨prev, cur, tagged⟩ := place
  apply Spec.assume (φ := tagged.ptr = cur) (by simp [on])
  intro hptr
  refine .storeNext (fun c hc => by subst hc; simp [on, spot]) ?_
  rw [Prog.ret_bind]
  split
  · exact .blank (.ret (.refl _) (by simp))
  · next hm =>
    have htagged : tagged = .plain cur := by
      cases tagged
      simp_all [Link.plain]
    subst htagged
    refine .linkDummy (by simp [lower, Aim.word]) (fun c hc => ?_) hso ?_ ?_
    · subst hc
      simp [upper]
    · exact .ret (.refl _) (by simp)
    · exact .blank (.ret (.refl _) (by simp))

theorem runs_initializeBucketAt {u depth i : Nat} (hlt : i < 2 ^ 63) :
    Runs C head t ⟨T, M⟩ l (initializeBucketAt C u depth i) := by
  induction depth generalizing i l with
  | zero => exact .ret (.refl _) (by simp)
  | succ depth ih =>
    apply Spec.loadBucket
    intro r
    rw [Prog.ret_bind]
    split
    · exact .ret (.refl _) (by simp)
    · split
      · -- first the bucket of the parent
        next hi0 =>
        have hparent := parentBucket_lt hi0 (hlt.trans (by decide))
        refine (ih (hparent.trans hlt)).bind fun _ => ?_
        refine .allocNode fun d => .storeSoKey (.loadBucket fun r => ?_)
        cases r with
        | none => exact .skip rfl fun _ => .ret ⟨rfl, List.sublist_cons_self _ _⟩ (by simp)
        | some start =>
          refine (links_insertFrom List.mem_cons_self (dummy_parent_lt hi0 (hlt.trans (by decide)))
            (isRegular_dummy hlt)).bind fun _ => ?_
          exact .casBucket (by simp) hlt fun _ => .ret (.refl _) (by simp)
      · -- the bucket 0 has no parent
        next hi0 =>
        obtain rfl : i = 0 := not_not.mp hi0
        refine .allocNode fun d => .storeSoKey (.loadBucket fun r => ?_)
        cases r with
        | none => exact .skip rfl fun _ => .ret ⟨rfl, List.sublist_cons_self _ _⟩ (by simp)
        | some start =>
          refine .assume (φ := parentBucket 0 < 2 ^ 63) (by simp) fun hparent => ?_
          exact absurd hparent (by decide)

/-- What a walk has to know of what it looks for. -/
def known : Aim Addr → List (Fact Addr Key)
  | .node a so => [.keyed a so]
  | _ => []

omit [DecidableEq Addr] in
/-- A dummy below the key leads to what is looked for. -/
theorem holds_dummy {i : Nat} (hi : Told C head s) (hlt : i < 2 ^ 63)
    (hd : Fact.holds C head t s (.keyed d (dummySplitOrderKey i)))
    (hbelow : ∀ w, A.word = some w → dummySplitOrderKey i < w)
    (hknown : ∀ f ∈ known A, f.holds C head t s) :
    ∀ f ∈ .past d A :: .linked d :: lower A d, f.holds C head t s := by
  obtain ⟨hlinked, hkey⟩ : s.Linked d ∧ s.heap.soKey d = _ := hd
  have hm := hi.toInOrder.unmarked_dummy hlt hkey
  have hleads : Fact.holds C head t s (.leads d A) := by
    refine ⟨hlinked, ?_⟩
    cases A with
    | anything => exact .inl trivial
    | place w => exact .inl trivial
    | entry w =>
      by_cases hlive : ∃ x, Live s.toAnnotated x ∧ s.heap.soKey x = w
      · obtain ⟨x, hx, hso⟩ := hlive
        refine .inr ⟨x, ⟨hx, hso⟩, hi.toShaped.reaches_of_lt hlinked hm
          (hi.live x hx.linked hx.unmarked) ?_⟩
        rw [hkey, hso]
        exact hbelow w rfl
      · refine .inl fun _ => ⟨_, hi.now t, fun e he hw => hlive ?_⟩
        obtain ⟨hx, hk⟩ := (mem_entries hi.toReached).mp he
        refine ⟨e.1, hx, ?_⟩
        rw [hi.hashed e.1 hx.linked hx.regular, hk]
        exact hw
    | node b w =>
      obtain ⟨hb, hso⟩ : s.Linked b ∧ s.heap.soKey b = w :=
        hknown (.keyed b w) List.mem_cons_self
      by_cases hreach : s.heap.Reaches head b
      · refine .inr ⟨b, ⟨rfl, hso, hreach⟩, hi.toShaped.reaches_of_lt hlinked hm hreach ?_⟩
        rw [hkey, hso]
        exact hbelow w rfl
      · exact .inl ⟨hb, hreach⟩
  intro f hf
  rcases List.mem_cons.mp hf with rfl | hf
  · exact past_of_leads hleads fun w hw => hkey ▸ hbelow w hw
  · rcases List.mem_cons.mp hf with rfl | hf
    · exact hlinked
    · obtain ⟨w, hw, rfl⟩ := List.mem_map.mp hf
      exact ⟨hlinked, hkey ▸ hbelow w (Option.mem_toList.mp hw)⟩

theorem finds_locate (hso : ∀ w, A.word = some w → w = so ∧ Suits mixed so)
    (hknown : known A ⊆ l) :
    Finds C head t ⟨T, M⟩ l (locate C mixed so) fun r =>
      spot A r.1 r.2 ++ (lower A r.1 ++ upper so r.2) := by
  apply Spec.loop (fun _ => []) (by simp)
  intro _
  refine runs_loadTable.bind fun u => .loadSize fun j hj => .loadBucket fun r => ?_
  have hb : bucketOf mixed (2 ^ j) < 2 ^ 63 := (bucketOf_lt (by omega)).trans_le
    (Nat.pow_le_pow_right (by decide) (by omega))
  cases r with
  | none => exact (runs_initializeBucketAt hb).bind fun _ => .ret (.refl _) (by simp)
  | some d =>
    refine .infer (.past d A :: .linked d :: lower A d) (fun s hi hl => ?_) ?_
    · refine holds_dummy hi hb (hl (.keyed d _) (by simp)) (fun w hw => ?_) fun f hf =>
        hl f (by grind)
      obtain ⟨rfl, hsuits⟩ := hso w hw
      exact hsuits.dummy_lt (by omega)
    · refine (finds_walk (fun w hw => (hso w hw).1) (by simp) (by simp) (by grind)).bind
        fun place => ?_
      exact .ret (.refl _) (by grind [on])

/-! ## Runs of equal split-order keys -/

theorem runs_headMatches (k : Key) (cur : Addr) (fnx : Link Addr) :
    Runs C head t H l (headMatches C k cur fnx) :=
  Reading.headMatches closed_runs k cur fnx

omit [DecidableEq Addr] in
/-- A node of the key was an entry if its pointer was not marked when it was read. -/
theorem holds_was {k k' : Key} {r : Link Addr} (hseen : Fact.holds C head t s (.seen a r))
    (hr : r.marked = false) (hkey : Fact.holds C head t s (.keyed a so))
    (hreg : isRegular so = true) (hname : Fact.holds C head t s (.named a k'))
    (heq : C.eq k' k = true) : Fact.holds C head t s (.was a k) := by
  obtain ⟨hlinked, -, hlive⟩ := hseen
  obtain ⟨-, hso⟩ : s.Linked a ∧ s.heap.soKey a = so := hkey
  obtain ⟨-, hk⟩ : a ∈ s.heap.inUse ∧ s.heap.key a = k' := hname
  exact ⟨hlinked, hk ▸ heq, hlive hr (hso ▸ hreg)⟩

omit [DecidableEq Addr] in
/-- Where the split-order keys tell the keys apart, all nodes of a run have the same key. -/
theorem not_separates {k k' : Key} (hi : Told C head s) (hso : so = C.splitKey k)
    (hkey : Fact.holds C head t s (.keyed a so)) (hname : Fact.holds C head t s (.named a k'))
    (heq : C.eq k' k ≠ true) : ¬ C.Separates := by
  intro hC
  obtain ⟨hlinked, ha⟩ : s.Linked a ∧ s.heap.soKey a = so := hkey
  obtain ⟨-, hk⟩ : a ∈ s.heap.inUse ∧ s.heap.key a = k' := hname
  have hreg : isRegular so = true := hso ▸ isRegular_soKeyOf _
  have hsame := hi.hashed a hlinked (ha ▸ hreg)
  rw [ha, hk, hso] at hsame
  exact heq ((hC k' k).mpr hsame.symm)

/-- The head of a run: it was an entry of the key, or it is marked. -/
theorem finds_headMatches {k : Key} {fnx : Link Addr} (hso : so = C.splitKey k)
    (hseen : .seen cur fnx ∈ l) (hkey : .keyed cur so ∈ l) :
    Finds C head t H l (headMatches C k cur fnx) fun b =>
      if b then [.was cur k, .pure (fnx.marked = false)] else [.passed cur so] := by
  have hreg : isRegular so = true := hso ▸ isRegular_soKeyOf _
  unfold headMatches
  split
  · next hr =>
    refine .infer [.passed cur so] (fun s hi hl f hf => ?_) (.ret (.refl H) (by simp))
    obtain rfl := List.mem_singleton.mp hf
    obtain ⟨hlinked, ha⟩ := hl _ hkey
    obtain ⟨-, hmarked, -⟩ := hl _ hseen
    refine ⟨hlinked, fun _ => .inr ⟨ha, ?_⟩⟩
    rw [hmarked hr]
    exact hr
  · next hr =>
    refine .infer [.linked cur] (fun s hi hl f hf => ?_) (.loadKey (by simp) fun k' => ?_)
    · obtain rfl := List.mem_singleton.mp hf
      exact (hl _ hkey).1
    · rw [Prog.ret_bind]
      cases heq : C.eq k' k with
      | true =>
        have hunmarked : fnx.marked = false := Bool.not_eq_true _ ▸ hr
        refine .learn hunmarked (.infer [.was cur k] (fun s hi hl f hf => ?_)
          (.ret (.refl H) (by simp)))
        obtain rfl := List.mem_singleton.mp hf
        exact holds_was (hl (.seen cur fnx) (by simp [hseen])) hunmarked
          (hl (.keyed cur so) (by simp [hkey])) hreg (hl (.named cur k') (by simp)) heq
      | false =>
        refine .infer [.passed cur so] (fun s hi hl f hf => ?_) (.ret (.refl H) (by simp))
        obtain rfl := List.mem_singleton.mp hf
        have hcur := hl (.keyed cur so) (by simp [hkey])
        refine ⟨hcur.1, fun hC => absurd hC ?_⟩
        exact not_separates hi hso hcur (hl (.named cur k') (by simp))
          (by rw [heq]; exact Bool.false_ne_true)

omit [DecidableEq Addr] in
/-- Anything may come after a linked node. -/
theorem holds_anything (ha : Fact.holds C head t s (.linked a)) :
    Fact.holds C head t s (.past a .anything) :=
  ⟨ha, .inl trivial⟩

omit [DecidableEq Addr] in
/-- Behind a marked node of its run an entry cannot be. -/
theorem lost_of_inside (hi : Told C head s) (hin : Fact.holds C head t s (.inside (some a) so))
    (hm : C.Separates → (s.heap.next a).marked = true) :
    Fact.holds C head t s (.lost (.entry so)) := by
  rcases hin with hlost | ⟨b, x, hb, hlinked, hkey, ⟨hx, hso⟩, hreach⟩
  · exact hlost
  · obtain rfl := Option.some.inj hb
    intro hC
    have hm := hm hC
    have hne : a ≠ x := by
      rintro rfl
      rw [hx.unmarked] at hm
      cases hm
    have hsame := hkey.trans hso.symm
    have hmx := hi.marked_of_reaches hC hlinked hreach hne (hsame ▸ hx.regular) hsame
    rw [hx.unmarked] at hmx
    cases hmx

omit [DecidableEq Addr] in
/-- A node of another run does not lead to the entry. -/
theorem lost_of_ne {r : Word} {p : Option Addr} (hin : Fact.holds C head t s (.inside p so))
    (hp : ∀ a, p = some a → Fact.holds C head t s (.keyed a r) ∧ r ≠ so) :
    Fact.holds C head t s (.lost (.entry so)) := by
  rcases hin with hlost | ⟨a, x, ha, -, hkey, -⟩
  · exact hlost
  · obtain ⟨⟨-, hr⟩, hne⟩ := hp a ha
    exact absurd (hr.symm.trans hkey) hne

omit [DecidableEq Addr] in
/-- What the scan knows once there was no entry. -/
theorem holds_absent {place : Place Addr} (hlost : Fact.holds C head t s (.lost (.entry so)))
    (hplace : ∀ f ∈ on .anything place, f.holds C head t s) :
    ∀ f ∈ .inside place.2.1 so :: lax .anything place, f.holds C head t s := by
  intro f hf
  rcases List.mem_cons.mp hf with rfl | hf
  · exact .inl hlost
  · exact holds_lax hplace f hf

/-- The scan finds a node that was an entry of the key, or there was none. -/
theorem finds_scanRun {k : Key} (hso : so = C.splitKey k) (hbefore : .before prev cur ∈ l)
    (hkey : .keyed cur so ∈ l) (hleads : .leads cur (.entry so) ∈ l) :
    Finds C head t H l (scanRun C so k prev cur) fun r =>
      r.elim [.lost (.entry so)] fun p =>
        [.linked p.1, .linked p.2, .keyed p.2 so, .was p.2 k] := by
  have hreg : isRegular so = true := hso ▸ isRegular_soKeyOf _
  refine .infer (.inside (some cur) so :: lax .anything (prev, some cur, .null))
    (fun s hi hl f hf => ?_) ?_
  · have hb : s.Before prev cur := hl _ hbefore
    simp only [lax, spot, after_some, ahead_some, List.mem_cons, List.mem_append,
      List.not_mem_nil, or_false] at hf
    rcases hf with rfl | rfl | rfl | rfl | (rfl | rfl) | rfl
    · obtain ⟨hlinked, hlost | ⟨x, hx, hreach⟩⟩ := hl _ hleads
      · exact .inl hlost
      · exact .inr ⟨cur, x, rfl, hlinked, (hl _ hkey).2, hx, hreach⟩
    · exact .inl rfl
    · exact holds_anything hb.left
    · exact hb.left
    · exact hb
    · exact hb.right
    · exact ⟨hb.right, .inl trivial⟩
  apply Spec.loop (fun place => .inside place.2.1 so :: lax .anything place) (by simp)
  intro place
  obtain ⟨rprev, rcur, tagged⟩ := place
  cases rcur with
  | none =>
    refine .infer [.lost (.entry so)] (fun s _ hl f hf => ?_) (.ret (.refl H) (by simp))
    obtain rfl := List.mem_singleton.mp hf
    exact lost_of_ne (r := so) (hl (.inside none so) (by simp)) fun a ha => by cases ha
  | some rcur =>
    have hspot : (spot .anything rprev (some rcur) : List (Fact Addr Key)) ⊆
        lax .anything (rprev, some rcur, tagged) :=
      spot_subset_lax .anything (rprev, some rcur, tagged)
    refine .loadSoKey (by simp [lax, spot]) fun r => ?_
    rw [Prog.ret_bind]
    split
    · next hr =>
      -- the run is over without the key
      refine .infer [.lost (.entry so)] (fun s _ hl f hf => ?_) (.ret (.refl H) (by simp))
      obtain rfl := List.mem_singleton.mp hf
      refine lost_of_ne (r := r) (hl (.inside (some rcur) so) (by simp)) fun a ha => ?_
      obtain rfl := Option.some.inj ha
      exact ⟨hl (.keyed rcur r) (by simp), hr⟩
    · next hr =>
      obtain rfl : r = so := not_not.mp hr
      apply Spec.assume (φ := tagged.ptr = none ∨ tagged.ptr = some rcur) (by simp [lax])
      intro hptr
      refine .loadNext (by simp [lax, spot]) fun rnx => ?_
      rw [Prog.ret_bind]
      split
      · next hm =>
        refine .infer [.lost (.entry r)] (fun s hi hl f hf => ?_) ?_
        · obtain rfl := List.mem_singleton.mp hf
          obtain ⟨-, hmarked, -⟩ := hl (.seen rcur rnx) (by simp)
          refine lost_of_inside hi (hl (.inside (some rcur) r) (by simp)) fun _ => ?_
          rw [hmarked hm]
          exact hm
        refine (finds_help (A := .anything) (fun _ => []) hm
          (List.Subset.trans hspot (by grind)) (by simp) hptr (by simp)).bind fun place => ?_
        exact .infer (.inside place.2.1 r :: lax .anything place) (fun s _ hl =>
          holds_absent (hl (.lost (.entry r)) (by simp)) fun f hf => hl f (by grind))
          (.ret (.refl H) (by simp))
      · next hm =>
        refine .loadKey (by simp [lax, spot]) fun k' => ?_
        rw [Prog.ret_bind]
        split
        · next heq =>
          -- the key was in the list when its link was read unmarked
          refine .infer [.was rcur k] (fun s hi hl f hf => ?_) (.ret (.refl H) ?_)
          · obtain rfl := List.mem_singleton.mp hf
            exact holds_was (hl (.seen rcur rnx) (by simp)) (Bool.not_eq_true _ ▸ hm)
              (hl (.keyed rcur r) (by simp)) hreg (hl (.named rcur k') (by simp)) heq
          · simp [lax, spot]
        · next heq =>
          -- another key in the run: the hash does not separate keys, so no fact depends on it
          refine .infer [.past rcur .anything, .lost (.entry r)] (fun s hi hl f hf => ?_) ?_
          · have hcur := hl (.keyed rcur r) (by simp)
            rcases List.mem_cons.mp hf with rfl | hf
            · exact holds_anything hcur.1
            · obtain rfl := List.mem_singleton.mp hf
              exact fun hC => absurd hC
                (not_separates hi hso hcur (hl (.named rcur k') (by simp)) heq)
          · refine (finds_advance (A := .anything) (fun _ => []) (by simp) (by simp [lax, spot])
              (by simp)).bind fun place => ?_
            exact .infer (.inside place.2.1 r :: lax .anything place) (fun s _ hl =>
              holds_absent (hl (.lost (.entry r)) (by simp)) fun f hf => hl f (by grind))
              (.ret (.refl H) (by simp))

/-- Whether there has been an entry of the key; if not, what is at its place is no entry of it. -/
theorem finds_inRun {k : Key} {p : Option Addr} (hso : so = C.splitKey k)
    (hplace : spot (.entry so) prev p ⊆ l) (hup : upper so p ⊆ l) :
    Finds C head t H l (inRun C so k prev p) fun b =>
      if b then [.found k] else p.toList.map (.passed · so) := by
  cases p with
  | none => exact .ret (.refl H) (by simp)
  | some cur =>
    have hcur : .linked cur ∈ l := hplace next_mem_spot
    have hleads : .leads cur (.entry so) ∈ l := hplace leads_mem_spot
    have habove : .above cur so ∈ l := hup (by simp [upper])
    refine .loadSoKey hcur fun r => ?_
    rw [Prog.ret_bind]
    split
    · next hr =>
      subst hr
      refine .loadNext (by simp [hcur]) fun fnx => ?_
      refine (finds_headMatches hso (by simp) (by simp)).bind fun b => ?_
      cases b with
      | true =>
        refine .infer [.found k] (fun s _ hl f hf => ?_) (.ret (.refl H) (by simp))
        obtain rfl := List.mem_singleton.mp hf
        obtain ⟨-, heq, x, hx, hmem⟩ := hl (.was cur k) (by simp)
        exact ⟨x, hx, _, hmem, heq⟩
      | false =>
        have hbefore : .before prev cur ∈ l := hplace before_mem_spot
        refine (finds_scanRun hso (by simp [hbefore]) (by simp) (by simp [hleads])).bind
          fun q => ?_
        cases q with
        | none => exact .ret (.refl H) (by simp)
        | some q =>
          refine .infer [.found k] (fun s _ hl f hf => ?_) (.ret (.refl H) (by simp))
          obtain rfl := List.mem_singleton.mp hf
          obtain ⟨-, heq, x, hx, hmem⟩ := hl (.was q.2 k) (by simp)
          exact ⟨x, hx, _, hmem, heq⟩
    · next hr =>
      refine .infer [.passed cur so] (fun s _ hl f hf => ?_) (.ret (.refl H) (by simp))
      obtain rfl := List.mem_singleton.mp hf
      obtain ⟨hlinked, hkey⟩ : s.Linked cur ∧ s.heap.soKey cur = r :=
        hl (.keyed cur r) (by simp)
      obtain ⟨-, hle⟩ : s.Linked cur ∧ so ≤ s.heap.soKey cur :=
        hl (.above cur so) (by simp [habove])
      refine ⟨hlinked, fun _ => .inl (BitVec.lt_of_le_ne hle ?_)⟩
      rw [hkey]
      exact Ne.symm hr

omit [DecidableEq Addr] in
/-- A node behind the run does not lead to what is looked for. -/
theorem lost_of_above {r : Word} (hi : Told C head s) (hw : A.word = some so)
    (hleads : Fact.holds C head t s (.leads a A)) (habove : Fact.holds C head t s (.above a so))
    (hkey : Fact.holds C head t s (.keyed a r)) (hne : r ≠ so) :
    Fact.holds C head t s (.lost A) := by
  obtain ⟨hlinked, hlost | ⟨x, hx, hreach⟩⟩ := hleads
  · exact hlost
  · obtain ⟨-, hle⟩ : s.Linked a ∧ so ≤ s.heap.soKey a := habove
    obtain ⟨-, rfl⟩ : s.Linked a ∧ s.heap.soKey a = r := hkey
    have hlt := BitVec.lt_of_le_ne hle (Ne.symm hne)
    rw [← hx.soKey hw] at hlt
    rcases hi.toInOrder.after hlinked hreach with rfl | hbefore
    · exact absurd hlt (BitVec.lt_irrefl _)
    · exact absurd hlt (BitVec.not_lt.mpr hbefore.key_le)

/-! ## Unlinking -/

/-- What is known at each node of the scan for a node of the run. -/
def trace (A : Aim Addr) (so : Word) (x : Addr × Option Addr) : List (Fact Addr Key) :=
  .linked x.1 :: (ahead A x.2 ++ upper so x.2)

theorem finds_pointerScan {target : Addr} {x : Addr × Option Addr}
    (hx : trace (.node target so) so x ⊆ l) :
    Finds C head t H l (iterate (pointerStep C target so) x) fun r =>
      r.elim [.lost (.node target so)] fun rp => [.linked rp] := by
  apply Spec.loop (trace (.node target so) so) hx
  intro st
  obtain ⟨rp, rc⟩ := st
  cases rc with
  | none => exact .ret (.refl H) (by simp [trace])
  | some rc =>
    refine .infer [.linked rc] (fun s _ hl f hf => ?_) (.loadSoKey (by simp) fun r => ?_)
    · obtain rfl := List.mem_singleton.mp hf
      obtain ⟨hlinked, -⟩ := hl (.leads rc (.node target so)) (by simp [trace])
      exact hlinked
    rw [Prog.ret_bind]
    split
    · next hr =>
      -- the scan has left the run, so the target is no longer behind it
      refine .infer [.lost (.node target so)] (fun s hi hl f hf => ?_) (.ret (.refl H) (by simp))
      obtain rfl := List.mem_singleton.mp hf
      exact lost_of_above hi rfl (hl (.leads rc _) (by simp [trace]))
        (hl (.above rc so) (by simp [trace, upper])) (hl (.keyed rc r) (by simp)) hr
    · next hr =>
      obtain rfl : r = so := not_not.mp hr
      split
      · exact .ret (.refl H) (by simp [trace])
      · next hne =>
        refine .infer [.past rc (.node target r)] (fun s hi hl f hf => ?_) ?_
        · obtain rfl := List.mem_singleton.mp hf
          obtain ⟨hlinked, hlost | ⟨y, hy, hreach⟩⟩ :=
            hl (.leads rc (.node target r)) (by simp [trace])
          · exact ⟨hlinked, .inl hlost⟩
          · exact ⟨hlinked, .inr ⟨y, hy, fun hyc => hne (hyc.symm.trans hy.1), hreach⟩⟩
        · refine (finds_advance (A := .node target r) (fun a => [.keyed a r]) (by simp) (by simp)
            (by simp)).bind fun place => ?_
          obtain ⟨prev, cur, tagged⟩ := place
          refine .infer (upper r cur) (fun s hi hl f hf => ?_) (.ret (.refl H) ?_)
          · cases cur with
            | none => cases hf
            | some cur =>
              obtain rfl := List.mem_singleton.mp hf
              have hb : s.Before prev cur := hl (.before prev cur) (by simp [on, spot])
              obtain ⟨-, hkey⟩ : s.Linked prev ∧ s.heap.soKey prev = r :=
                hl (.keyed prev r) (by simp)
              exact ⟨hb.right, hkey ▸ hb.key_le⟩
          · grind [trace, on, spot]

/-- The slow path comes to its end when the node is out of the list. -/
theorem finds_relocate {target : Addr} (hsuits : Suits mixed so) (htarget : .erased target ∈ l)
    (hkey : .keyed target so ∈ l) :
    Finds C head t ⟨T, M⟩ l (relocate C target mixed so) fun _ => [.lost (.node target so)] := by
  apply Spec.loop (fun _ => []) (by simp)
  intro _
  refine (finds_locate (A := .node target so) (fun w hw => ?_) (by simp [known, hkey])).bind
    fun x => ?_
  · obtain rfl := Option.some.inj hw
    exact ⟨rfl, hsuits⟩
  refine (finds_pointerScan (x := x) (by grind [trace, spot])).bind fun r => ?_
  cases r with
  | none => exact .ret (.refl _) (by simp)
  | some rp =>
    refine .infer [.linked target] (fun s _ hl f hf => ?_) ?_
    · obtain rfl := List.mem_singleton.mp hf
      exact (hl (.keyed target so) (by simp [hkey])).1
    refine .loadErased (by simp) (by simp [htarget]) fun repl hrepl => ?_
    refine .cut (w := so) (fun _ _ => .inr rfl) hrepl (by simp) (by simp) ?_ ?_
    · rw [Prog.ret_bind, if_pos rfl]
      exact .ret (.refl _) (by simp)
    · exact .ret (.refl _) (by simp)

theorem finds_unlinkMarked {target : Addr} (hsuits : Suits mixed so) (hprev : .linked prev ∈ l)
    (htarget : .erased target ∈ l) (hkey : .keyed target so ∈ l) :
    Finds C head t ⟨T, M⟩ l (unlinkMarked C prev target mixed so) fun _ =>
      [.lost (.node target so)] := by
  refine .infer [.linked target] (fun s _ hl f hf => ?_) ?_
  · obtain rfl := List.mem_singleton.mp hf
    exact (hl _ hkey).1
  refine .loadErased (by simp) (by simp [htarget]) fun tnext htnext => ?_
  refine .cut (w := so) (fun _ _ => .inl rfl) htnext (by simp [hprev]) (by simp) ?_ ?_
  · rw [Prog.ret_bind, if_pos rfl]
    exact .ret (.refl _) (by simp)
  · exact finds_relocate hsuits (by simp [htarget]) (by simp [hkey])

end Searches

end Entries

end MpmcMap.Unordered
