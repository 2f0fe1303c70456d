import MpmcMap.Ordered.Descent

/-!
# Insertion

`fixup_insert`, and `insert_node` from the verification of the root to the release of its lock.
-/

namespace MpmcMap.Ordered

open Conc RedBlack Maps

variable {Addr Key : Type} [DecidableEq Addr]

namespace Writer

variable {W : Writer Addr Key} {α : Type} {X : Code Addr Key α → Heap Addr Key → Prop}
  {h : Heap Addr Key} {t : PtrTree Addr} {c : Ctx Addr} {S : List Addr}

variable {x p g u : Addr} {d e : Side} {A B C U : PtrTree Addr}

/-- Case 1 keeps the tree. -/
theorem insertCase1_spec {kont : List Addr → Code Addr Key α}
    (hA : W.At h (.mk g d (.mk p e t A) (.mk u e B C)) c (x :: p :: g :: Ctx.path c))
    (hx : t.ptr = some x)
    (hk : ∀ h', W.At h' (.mk g d (.mk p e t A) (.mk u e B C)) c (g :: Ctx.path c) →
      h'.color = Function.update
        (Function.update (Function.update h.color p .BLACK) u .BLACK) g .RED →
      Until W.solo X (kont (g :: Ctx.path c)) h') :
    Until W.solo X ((insertCase1 x p g u (Ctx.path c)).bind kont) h := by
  have hn := Ctx.apart_def.mp hA.apart
  simp only [PtrTree.nodup_mk, PtrTree.mem_addrs_mk] at hn
  have hxt : x ∈ t.addrs := PtrTree.mem_of_ptr hx
  have hpath : ∀ a, a ∈ Ctx.path c → a ∈ Ctx.addrs c := fun a => Ctx.mem_addrs_of_path
  have hku : W.known u := hA.known u (.inl (by simp))
  have hroot : ∀ a, a = u ∨ a = x ∨ a = p → h.root ≠ some a := by
    intro a ha
    refine hA.root_ne (by simp; grind) ?_
    simp only [PtrTree.ptr_mk, ne_eq, Option.some.injEq]
    grind
  refine lock hku (fun ha => hA.held.only ha u (by simp; grind)) ?_
  refine storeColor (hA.held.known p (by simp)) ?_
  refine storeColor hku ?_
  refine storeColor (hA.held.known g (by simp)) ?_
  have hA1 := (((hA.lock hku).setColor p .BLACK).setColor u .BLACK).setColor g .RED
  refine unlock hku (hA1.held.mem u (by simp)) (hroot u (by simp)) ?_
  have hA2 := hA1.unlock (by simp; grind)
  refine unlock (hA.held.known x (by simp)) (hA2.held.mem x (by simp)) (hroot x (by simp)) ?_
  have hA3 := hA2.unlock (by simp; grind)
  refine unlock (hA.held.known p (by simp)) (hA3.held.mem p (by simp)) (hroot p (by simp)) ?_
  exact hk _ (hA3.unlock (by simp; grind)) rfl

/-- The color of a new node and of its parent violate the rule, nothing else does. -/
def RedAt (W : Writer Addr Key) (h : Heap Addr Key) (x : Addr) (t : PtrTree Addr) (c : Ctx Addr) :
    Prop :=
  W.exact → h.color x = .RED ∧ ∃ n, Bal h.color t n ∧ Fit h.color c n

omit [DecidableEq Addr] in
theorem RedAt.fade {h' : Heap Addr Key} (hc : W.RedAt h x t c) (hf : W.Fade h h') :
    W.RedAt h' x t c := by
  intro he
  rw [hf.exact he]
  exact hc he

/-- Case 2 makes the new node an outer child. -/
theorem insertCase2_spec {kont : Addr × Addr → Code Addr Key α}
    (hA : W.At h t (⟨p, e, A⟩ :: ⟨g, d, U⟩ :: c) (x :: p :: g :: Ctx.path c))
    (hx : t.ptr = some x) (hp : W.exact → h.color p = .RED)
    (hc : W.RedAt h x t (⟨p, e, A⟩ :: ⟨g, d, U⟩ :: c))
    (hk : ∀ h' t' x' p' A', W.At h' t' (⟨p', d, A'⟩ :: ⟨g, d, U⟩ :: c)
        (x' :: p' :: g :: Ctx.path c) → t'.ptr = some x' →
      (W.exact → h'.color p' = .RED) → h'.color = h.color →
      W.RedAt h' x' t' (⟨p', d, A'⟩ :: ⟨g, d, U⟩ :: c) →
      (PtrTree.mk p' d t' A').addrs = (PtrTree.mk p e t A).addrs →
      Until W.solo X (kont (x', p')) h') :
    Until W.solo X ((insertCase2 x p g d (Ctx.path c)).bind kont) h := by
  have hn := Ctx.apart_def.mp hA.apart
  obtain ⟨h1, h2, -, -⟩ := hA.hole
  have hxt : x ∈ t.addrs := PtrTree.mem_of_ptr hx
  refine loadChild (hA.held.known p (by simp)) ?_
  show Until W.solo X (Prog.bind (if h.child p d.flip = some x then _ else _) _) h
  by_cases hed : e = d
  · subst hed
    have hne : h.child p e.flip ≠ some x := by
      rw [h2]
      intro he
      have hxA := PtrTree.mem_of_ptr he
      exact hn.2.2 x hxt (by simp [Ctx.addrs, hxA])
    rw [if_neg hne]
    exact hk h t x p A hA hx hp rfl hc rfl
  -- an inner child: the rotation makes `x` the parent, and the old parent is fixed instead
  · have hed' := Side.eq_flip hed
    subst hed'
    rw [if_pos (show h.child p d.flip = some x from h1.trans hx)]
    obtain ⟨N, B, rfl⟩ := PtrTree.eq_mk_of_ptr d.flip hx
    show Until W.solo X
      (Prog.bind (Prog.bind (rotate p d.flip (some (Ctx.path (⟨g, d, U⟩ :: c)))) _) _) h
    rw [Prog.bind_assoc]
    refine rotate_spec (At.up.mp hA) (by simp) (by simp) (by simp) fun h' hA' hcol => ?_
    have hA1 : W.At h' (.mk x d (.mk p d A B) N) (⟨g, d, U⟩ :: c) (x :: p :: g :: Ctx.path c) := by
      simpa only [PtrTree.mk_flip, Side.flip_flip] using hA'
    have hA'' : W.At h' (.mk p d A B) (⟨x, d, N⟩ :: ⟨g, d, U⟩ :: c)
        (p :: x :: g :: Ctx.path c) :=
      At.up.mpr (Loose.perm hA1 fun a => by simp; tauto)
    refine hk h' _ p x N hA'' (PtrTree.ptr_mk _ _ _ _) ?_ hcol ?_ ?_
    · intro he
      rw [hcol]
      exact (hc he).1
    · intro he
      obtain ⟨hxr, n, hb, hf⟩ := hc he
      rw [PtrTree.mk_flip] at hb
      rw [hcol]
      exact ⟨hp he, n, insert_inner hxr (hp he) hb hf⟩
    · rw [PtrTree.mk_flip, PtrTree.mk_flip]
      exact (PtrTree.addrs_rotate d p x A B N).symm

/-- Case 3 ends the fixup. -/
theorem insertCase3_spec {kont : List Addr → Code Addr Key α}
    (hA : W.At h t (⟨p, d, A⟩ :: ⟨g, d, U⟩ :: c) (x :: p :: g :: Ctx.path c))
    (hx : t.ptr = some x) (hp : W.exact → h.color p = .RED) (hU : W.exact → Dark h.color U)
    (hc : W.RedAt h x t (⟨p, d, A⟩ :: ⟨g, d, U⟩ :: c))
    (hk : ∀ h', W.Ready h' (Ctx.plug (.mk p d t (.mk g d A U)) c) (p :: Ctx.path c) →
      Until W.solo X (kont (p :: Ctx.path c)) h') :
    Until W.solo X ((insertCase3 x p g d (Ctx.path c)).bind kont) h := by
  have hxt : x ∈ t.addrs := PtrTree.mem_of_ptr hx
  refine storeColor (hA.held.known p (by simp)) ?_
  refine storeColor (hA.held.known g (by simp)) ?_
  have hA1 := (hA.setColor p .BLACK).setColor g .RED
  show Until W.solo X (Prog.bind (Prog.bind (rotate g d (some (Ctx.path c))) _) _) _
  rw [Prog.bind_assoc]
  refine rotate_spec (At.up.mp (At.up.mp hA1)) (by simp) (by simp) ?_ fun h' hA2 hcol => ?_
  · intro f hf
    cases c with
    | nil => cases hf
    | cons f' c =>
      cases hf
      simp
  have hn := Ctx.apart_def.mp hA2.apart
  simp only [PtrTree.nodup_mk, PtrTree.mem_addrs_mk] at hn
  have hpath : ∀ a, a ∈ Ctx.path c → a ∈ Ctx.addrs c := fun a => Ctx.mem_addrs_of_path
  -- after the rotation `p` is on top, so neither of the two nodes unlocked next is the root
  have hroot : ∀ a, a = g ∨ a = x → h'.root ≠ some a := by
    intro a ha
    refine hA2.root_ne (by simp; grind) ?_
    simp only [PtrTree.ptr_mk, ne_eq, Option.some.injEq]
    grind
  have hA3 : W.At h' (.mk p d t (.mk g d A U)) c (g :: x :: p :: Ctx.path c) :=
    Loose.perm hA2 fun a => by simp; tauto
  refine unlock (hA3.held.known g (by simp)) (hA3.held.mem g (by simp)) (hroot g (by simp)) ?_
  have hA4 := hA3.unlock (by simp; grind)
  refine unlock (hA4.held.known x (by simp)) (hA4.held.mem x (by simp)) (hroot x (by simp)) ?_
  have hA5 := hA4.unlock (by simp; grind)
  refine hk _ (At.ready_node hA5 (PtrTree.ptr_mk _ _ _ _) fun he => ?_)
  obtain ⟨-, n, hb, hf⟩ := hc he
  show Sound h'.color _
  rw [hcol]
  exact insert_outer hA.apart hb hf (hp he) (hU he)

/-- Cases 2 and 3 together. -/
theorem insertCase23_spec {kont : List Addr → Code Addr Key α}
    (hA : W.At h t (⟨p, e, A⟩ :: ⟨g, d, U⟩ :: c) (x :: p :: g :: Ctx.path c))
    (hx : t.ptr = some x) (hp : W.exact → h.color p = .RED) (hU : W.exact → Dark h.color U)
    (hc : W.RedAt h x t (⟨p, e, A⟩ :: ⟨g, d, U⟩ :: c))
    (hk : ∀ h' t' path, W.Ready h' t' path →
      t'.addrs = (Ctx.plug t (⟨p, e, A⟩ :: ⟨g, d, U⟩ :: c)).addrs →
      Until W.solo X (kont path) h') :
    Until W.solo X ((insertCase2 x p g d (Ctx.path c)).bind fun y =>
      (insertCase3 y.1 y.2 g d (Ctx.path c)).bind kont) h := by
  refine insertCase2_spec hA hx hp hc fun h' t' x' p' A' hA' hx' hp' hcol hc' haddrs => ?_
  have hU' : W.exact → Dark h'.color U := by
    intro he
    rw [hcol]
    exact hU he
  refine insertCase3_spec hA' hx' hp' hU' hc' fun h'' hR => hk h'' _ _ hR ?_
  show _ = (Ctx.plug (.mk g d (.mk p e t A) U) c).addrs
  refine Ctx.addrs_plug_congr ?_ c
  rw [PtrTree.addrs_rotate]
  exact PtrTree.addrs_mk_congr _ _ haddrs rfl

/-- `fixup_insert`. -/
theorem fixupInsert_spec {kont : List Addr → Code Addr Key α}
    (hA : W.At h t c (x :: Ctx.path c)) (hx : t.ptr = some x) (hc : W.RedAt h x t c)
    (hk : ∀ h' t' path, W.Ready h' t' path → t'.addrs = (Ctx.plug t c).addrs →
      Until W.solo X (kont path) h') :
    Until W.solo X (.loop fixupInsertStep (x :: Ctx.path c) kont) h := by
  -- induction on the length of the path: case 1 goes on two frames higher
  induction hl : c.length using Nat.strongRecOn generalizing h t c x with
  | _ n ih =>
  have stop : ∀ h', W.At h' t c (x :: Ctx.path c) → W.Fade h h' →
      (W.exact → ParentDark h.color c) → Until W.solo X (kont (x :: Ctx.path c)) h' := by
    intro h' hA' hf hpd
    refine hk h' _ _ (At.ready_node hA' hx fun he => ?_) rfl
    obtain ⟨-, n, hb, hfit⟩ := hc he
    rw [hf.exact he]
    exact hfit.sound hb (.inr (hpd he))
  refine .loop ?_
  match c, hl with
  | [], _ => exact stop h hA ⟨fun _ => rfl, fun _ h => h⟩ fun _ => trivial
  | [f], _ => exact stop h hA ⟨fun _ => rfl, fun _ h => h⟩ fun _ => .inl rfl
  | ⟨p, e, A⟩ :: ⟨g, d, U⟩ :: c, hl =>
    refine readColor_spec hA (hA.held.known p (by simp)) fun h1 col hA1 hf1 hcol _ => ?_
    have hc1 := hc.fade hf1
    show Until W.solo X (Prog.bind (if col = .BLACK then _ else _) _) h1
    by_cases hb : col = .BLACK
    · rw [if_pos hb]
      refine stop h1 hA1 hf1 fun he => .inr ?_
      rw [← hf1.exact he]
      exact hcol.symm.trans hb
    rw [if_neg hb]
    have hp : h1.color p = .RED := hcol.symm.trans (Color.ne_black.mp hb)
    have hg : W.Loose h1 (.mk p e t A) (⟨g, d, U⟩ :: c) (PtrTree.mk p e t A).ptr
        (x :: p :: g :: Ctx.path c) := At.up.mp hA1
    rw [PtrTree.ptr_mk] at hg
    have hpc : p ∉ Ctx.addrs (⟨g, d, U⟩ :: c) :=
      (Ctx.apart_def.mp hg.apart).2.2 p (by simp)
    show Until W.solo X (Prog.bind (Prog.bind (sideIn g p) _) _) h1
    rw [Prog.bind_assoc]
    refine sideIn_spec hg hpc ?_
    refine loadChild (hA.held.known g (by simp)) ?_
    rw [hg.hole.2.1]
    show Until W.solo X (Prog.bind (Prog.bind (isRed U.ptr) _) _) h1
    rw [Prog.bind_assoc]
    refine isRed_spec hA1 (fun a ha => ?_) fun h2 b hA2 hf2 hred hblack => ?_
    · exact hA.known a (.inr (by simp [Ctx.addrs, PtrTree.mem_of_ptr ha]))
    have hc2 := hc1.fade hf2
    have hp2 : W.exact → h2.color p = .RED := by
      intro he
      rw [hf2.exact he]
      exact hp
    cases b with
    | true =>
      obtain ⟨u, hu, hured⟩ := hred rfl
      obtain ⟨B, C, rfl⟩ := PtrTree.eq_mk_of_ptr e hu
      rw [hu]
      show Until W.solo X (Prog.bind (Prog.bind (insertCase1 x p g u (Ctx.path c)) _) _) h2
      rw [Prog.bind_assoc]
      refine insertCase1_spec (At.up.mp (At.up.mp hA2)) hx fun h3 hA3 hcol3 => ?_
      -- the red uncle is recolored, and the grandparent is the new red node
      refine ih c.length (by simp at hl; omega) hA3 (PtrTree.ptr_mk _ _ _ _) (fun he => ?_) hk rfl
      obtain ⟨-, m, hbal, hfit⟩ := hc2 he
      rw [hcol3]
      exact ⟨Function.update_self _ _ _, m + 1,
        insert_recolor hA2.apart hbal hfit (hp2 he) (hured he)⟩
    | false =>
      -- the uncle is black: one or two rotations end the fixup
      have hU : W.exact → Dark h2.color U := fun _ => hblack rfl
      have hout : Until W.solo X (Prog.bind (Prog.bind (insertCase2 x p g d (Ctx.path c))
          fun y => Prog.bind (insertCase3 y.1 y.2 g d (Ctx.path c)) fun path => .ret (.inr path))
          (Sum.elim (fun s => .loop fixupInsertStep s kont) kont)) h2 := by
        simp only [Prog.bind_assoc, Prog.ret_bind, Sum.elim_inr]
        exact insertCase23_spec hA2 hx hp2 hU hc2 hk
      cases hU' : U.ptr with
      | none => exact hout
      | some u => exact hout

/-! ## The section of `insert_node` -/

variable {n : Addr} {f : Frame Addr}

/-- A new node in the empty place below `f`. -/
theorem At.link (hA : W.At h .nil (f :: c) S) (hn : n ∉ Ctx.addrs (f :: c)) (hk : W.known n)
    (hc : ∀ d, h.child n d = none) :
    W.At (h.setChild f.addr f.side (some n)) (.node n .nil .nil) (f :: c) S := by
  have hL : W.Loose h (.node n .nil .nil) (f :: c) none S :=
    { hA with
      fits := ⟨hc .left, hc .right, trivial, trivial⟩
      apart := by
        rw [Ctx.apart_def]
        refine ⟨by simp [PtrTree.addrs], (Ctx.apart_def.mp hA.apart).2.1, ?_⟩
        simpa [PtrTree.addrs] using hn
      known := by
        rintro a (ha | ha)
        · simp only [PtrTree.addrs, List.nil_append, List.mem_singleton] at ha
          exact ha ▸ hk
        · exact hA.known a (.inr ha) }
  exact hL.fill

/-- `insert_node` below a locked parent. -/
theorem insertAt_spec {kont : Unit → Code Addr Key α} (hs : Small Addr)
    (hA : W.At h .nil (f :: c) (f.addr :: Ctx.path c)) (hcol : W.Colored h (Ctx.plug .nil (f :: c)))
    (hn : n ∉ Ctx.addrs (f :: c)) (hk : W.known n) (hc : ∀ d, h.child n d = none)
    (hX : ∀ h' t' r, W.At h' t' [] [r] → h'.root = some r → W.Colored h' t' → Dark h'.color t' →
      t'.addrs = Ctx.before (f :: c) ++ n :: Ctx.after (f :: c) →
      X (.act (.unlock r) fun _ => .act .addCount kont) h') :
    Until W.solo X ((insertAt n f.addr (Ctx.path c) f.side).bind kont) h := by
  have hf : W.known f.addr := hA.held.known f.addr (by simp)
  have hnp : n ∉ Ctx.path (f :: c) := fun h => hn (Ctx.mem_addrs_of_path h)
  refine lock hk (fun ha => hA.held.only ha n hnp) ?_
  have hA1 : W.At _ .nil (f :: c) (n :: Ctx.path (f :: c)) := hA.lock hk
  refine storeChild hf (hA1.held.mem f.addr (by simp)) ?_
  refine storeColor hk ?_
  have hA2 := (At.link hA1 hn hk hc).setColor n .RED
  refine writePath (fun he => ?_) ?_
  · have := hA.path_le hs hcol he
    simp only [List.length_cons, List.length_map, MAX_HEIGHT] at this ⊢
    omega
  -- the new red node is the only place where the rules can fail
  have hred : W.RedAt (((h.setLocked n (some W.tid)).setChild f.addr f.side (some n)).setColor n
      .RED) n (.node n .nil .nil) (f :: c) := by
    intro he
    obtain ⟨m, hb, hfit, -⟩ := (hcol he).split (List.cons_ne_nil f c)
    cases hb
    refine ⟨Heap.setColor_same _ _ _, 0, .inr ⟨Heap.setColor_same _ _ _, dark_nil, dark_nil, rfl,
      rfl⟩, hfit.congr fun a ha => Heap.setColor_ne _ _ ?_⟩
    rintro rfl
    exact hn ha
  show Until W.solo X (Prog.bind (Prog.bind (fixupInsert (n :: Ctx.path (f :: c))) _) _) _
  rw [Prog.bind_assoc]
  refine fixupInsert_spec hA2 rfl hred fun h3 t3 path hR haddrs => ?_
  show Until W.solo X (Prog.bind (Prog.bind (blackenRoot path) _) _) _
  rw [Prog.bind_assoc]
  refine blackenRoot_spec hR fun h4 hR4 hdark => ?_
  show Until W.solo X (Prog.bind (Prog.bind (unlockPath path) _) _) _
  rw [Prog.bind_assoc]
  refine unlockPath_spec hR4 fun h5 r hA5 hroot hcol5 => ?_
  refine hX h5 t3 r hA5 hroot ?_ ?_ ?_
  · intro he
    rw [hcol5]
    exact hR4.colored he
  · rw [hcol5]
    exact hdark
  · rw [haddrs, Ctx.addrs_plug]
    simp [PtrTree.addrs]

/-- What follows `lock_path` in `insert_node`. -/
def insertKont (cmp : Key → Key → Bool) (n : Addr) (k : Key) (r : LockResult Addr) :
    Code Addr Key Bool :=
  (insertLocked n r).bind (Sum.elim (fun _ => insertNode cmp n k) .ret)

/-- Where the section of `insert_node` ends: at the release of the lock of the root `r`. -/
inductive InsertExit (W : Writer Addr Key) (cmp : Key → Key → Bool) (n : Addr) (k : Key)
    (t : PtrTree Addr) : Code Addr Key Bool → Heap Addr Key → Prop where
  /-- The key is present. -/
  | found {h : Heap Addr Key} {r a : Addr} :
      W.At h t [] [r] → h.root = some r → h.color = W.start.color → a ∈ t.addrs →
      cmp k (h.key a) = false → cmp (h.key a) k = false →
      InsertExit W cmp n k t (.act (.unlock r) fun _ => .ret false) h
  /-- The node is linked; it remains to count it. -/
  | linked {h : Heap Addr Key} {r : Addr} {t' : PtrTree Addr} {A B : List Addr} :
      W.At h t' [] [r] → h.root = some r → W.Colored h t' → Dark h.color t' →
      t.addrs = A ++ B → t'.addrs = A ++ n :: B → (∀ a ∈ A, cmp (h.key a) k = true) →
      (∀ a ∈ B, cmp k (h.key a) = true) →
      InsertExit W cmp n k t
        (.act (.unlock r) fun _ => .act .addCount fun _ => .ret true) h
  /-- The path stack is full. -/
  | full {h : Heap Addr Key} {r : Addr} :
      W.At h t [] [r] → h.root = some r → ¬ W.exact → W.full →
      InsertExit W cmp n k t (.act (.unlock r) fun _ => insertKont cmp n k .empty) h

/-- `insert_node` from the verification of the root on. -/
theorem insert_section {cmp : Key → Key → Bool} [StrictWeakOrder cmp] {k : Key} {cur : Addr}
    (hs : Small Addr) (hA : W.At W.start t [] [cur]) (ht : t.ptr = some cur)
    (hsorted : t.addrs.Pairwise fun a b => cmp (W.start.key a) (W.start.key b) = true)
    (hcol : W.Colored W.start t) (hn : n ∉ t.addrs) (hk : W.known n)
    (hc : ∀ d, W.start.child n d = none) :
    Until W.solo (InsertExit W cmp n k t)
      (.act (.writePath 0) fun _ => .loop (lockStep cmp k) (cur, []) (insertKont cmp n k))
      W.start := by
  refine writePath (fun _ => by simp [MAX_HEIGHT]) ?_
  refine lockDown_spec hs (c := []) hA ht hsorted hcol ⟨by simp [Ctx.before], by simp [Ctx.after]⟩
    ?_ ?_ ?_
  -- the key is there: the locks are given back
  · intro h' t' c' a hA' ht' hcol' _ hplug h1 h2
    rw [Ctx.plug] at hplug
    rw [← hA'.key] at h1 h2
    show Until W.solo _ (Prog.bind (Prog.bind (unlockPath (a :: Ctx.path c')) _) _) h'
    rw [Prog.bind_assoc]
    refine unlockPath_spec (At.ready_node hA' ht' ?_) fun h'' r hA'' hr hcol'' => ?_
    · rw [hplug]
      intro he
      rw [hcol']
      exact hcol he
    · rw [hplug] at hA''
      refine .found hA'' hr (hcol''.trans hcol') (a := a) ?_ ?_ ?_
      · rw [← hplug, Ctx.mem_plug]
        exact .inl (PtrTree.mem_of_ptr ht')
      · rwa [hA''.key, ← hA'.key]
      · rwa [hA''.key, ← hA'.key]
  -- the key is absent: the node goes below the last frame
  · intro h' f c' hA' hcol' hchild' hplug hbet
    rw [Ctx.plug] at hplug
    show Until W.solo _ (Prog.bind (Prog.bind (insertAt n f.addr (Ctx.path c') f.side) _) _) h'
    rw [Prog.bind_assoc]
    have hn' : n ∉ Ctx.addrs (f :: c') := by
      intro hmem
      rw [← hplug, Ctx.mem_plug] at hn
      exact hn (.inr hmem)
    refine insertAt_spec hs hA' ?_ hn' hk (fun d => ?_) fun h'' t' r hA'' hr hcol'' hdark haddrs => ?_
    · rw [hplug]
      intro he
      rw [hcol']
      exact hcol he
    · rw [hchild']
      exact hc d
    · refine .linked hA'' hr hcol'' hdark ?_ haddrs ?_ ?_
      · rw [← hplug, Ctx.addrs_plug]
        simp [PtrTree.addrs]
      · rw [hA''.key]
        exact hbet.1
      · rw [hA''.key]
        exact hbet.2
  · intro h' r he hf hA' hr
    exact .full hA' hr he hf

end Writer

end MpmcMap.Ordered
