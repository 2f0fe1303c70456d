import MpmcMap.Ordered.Writer
import MpmcMap.Maps.Sorted

/-!
# The locked path

`lock_path` below the verified root, and the release of a path: where a key belongs, with the nodes
above it locked.
-/

namespace MpmcMap.Ordered

open Conc RedBlack Maps

variable {Addr Key : Type}

/-- The entries of a tree, in order. -/
def entriesOf (key : Addr → Key) (t : PtrTree Addr) : List (Key × Addr) :=
  t.addrs.map fun a => (key a, a)

section Compare

variable {cmp : Key → Key → Bool} {a b : Key}

theorem compare_lt (h : compare cmp a b = .lt) : cmp a b = true := by
  unfold compare at h
  split at h
  · assumption
  · split at h <;> cases h

theorem compare_gt (h : compare cmp a b = .gt) : cmp b a = true := by
  unfold compare at h
  split at h
  · cases h
  · split at h
    · assumption
    · cases h

theorem compare_eq (h : compare cmp a b = .eq) : cmp a b = false ∧ cmp b a = false := by
  unfold compare at h
  split at h
  · cases h
  · split at h
    · cases h
    · simp_all

end Compare

/-- What is known at the place of `k`: everything before it is smaller, everything after greater. -/
def Between (cmp : Key → Key → Bool) (key : Addr → Key) (k : Key) (c : Ctx Addr) : Prop :=
  (∀ a ∈ Ctx.before c, cmp (key a) k = true) ∧ ∀ a ∈ Ctx.after c, cmp k (key a) = true

/-- A comparison with `key a` tells the side of `a` on which `k` belongs. -/
theorem Between.down {cmp : Key → Key → Bool} [StrictWeakOrder cmp] {key : Addr → Key} {k : Key}
    {c : Ctx Addr} {a : Addr} {u v : PtrTree Addr} (hk : Between cmp key k c)
    (hs : (Ctx.plug (.mk a (sideOf (compare cmp k (key a))) u v) c).addrs.Pairwise
      fun a b => cmp (key a) (key b) = true)
    (hne : compare cmp k (key a) ≠ .eq) :
    Between cmp key k (⟨a, sideOf (compare cmp k (key a)), v⟩ :: c) := by
  rw [Ctx.addrs_plug, List.pairwise_append, List.pairwise_append] at hs
  obtain ⟨⟨-, hs, -⟩, -⟩ := hs
  cases hc : compare cmp k (key a) with
  | eq => exact absurd hc hne
  | lt =>
    have hlt := compare_lt hc
    rw [hc] at hs
    simp only [sideOf, PtrTree.mk, PtrTree.addrs, List.pairwise_append, List.pairwise_cons] at hs
    simp only [Between, Ctx.before, Ctx.after, sideOf, List.append_nil, List.cons_append,
      List.mem_cons, List.mem_append]
    refine ⟨hk.1, ?_⟩
    rintro b (rfl | hb | hb)
    · exact hlt
    · exact StrictWeakOrder.lt_trans hlt (hs.2.1.1 b hb)
    · exact hk.2 b hb
  | gt =>
    have hgt := compare_gt hc
    rw [hc] at hs
    simp only [sideOf, PtrTree.mk, PtrTree.addrs, List.pairwise_append, List.pairwise_cons] at hs
    simp only [Between, Ctx.before, Ctx.after, sideOf, List.nil_append, List.mem_append,
      List.mem_singleton]
    refine ⟨?_, hk.2⟩
    rintro b (hb | hb | rfl)
    · exact hk.1 b hb
    · exact StrictWeakOrder.lt_trans (hs.2.2 b hb a List.mem_cons_self) hgt
    · exact hgt

/-- Between the entries before and after its place there is no equivalent key. -/
theorem Between.absent {cmp : Key → Key → Bool} {key : Addr → Key} {k : Key} {c : Ctx Addr}
    (hk : Between cmp key k c) :
    ∀ a ∈ (Ctx.plug .nil c).addrs, cmp (key a) k = true ∨ cmp k (key a) = true := by
  intro a ha
  rw [Ctx.addrs_plug] at ha
  simp only [PtrTree.addrs, List.append_nil, List.mem_append] at ha
  exact ha.imp (hk.1 a) (hk.2 a)

/-- Addresses have at most 64 bits. -/
def Small (Addr : Type) : Prop := ∀ l : List Addr, l.Nodup → l.length < 2 ^ 64

/-- A balanced tree of nodes with 64-bit addresses leaves room on the path stack. -/
theorem depth_le_of_sound {κ : Addr → Color} {t : PtrTree Addr} (hs : Small Addr)
    (hn : t.addrs.Nodup) (h : Sound κ t) : t.depth ≤ 128 := by
  by_contra hd
  have h1 : 2 ^ 129 ≤ 2 ^ t.depth := Nat.pow_le_pow_right (by omega) (by omega)
  have h2 : (t.addrs.length + 1) ^ 2 ≤ (2 ^ 64) ^ 2 := Nat.pow_le_pow_left (hs _ hn) 2
  have h3 := h.two_pow_depth_le
  omega

namespace Writer

variable [DecidableEq Addr] {W : Writer Addr Key} {α : Type}
  {X : Code Addr Key α → Heap Addr Key → Prop} {h : Heap Addr Key} {t : PtrTree Addr} {c : Ctx Addr}
  {S : List Addr} {cur : Addr} {cmp : Key → Key → Bool} {k : Key}

/-- The colors of the tree are sound, as far as they are known. -/
def Colored (W : Writer Addr Key) (h : Heap Addr Key) (t : PtrTree Addr) : Prop :=
  W.exact → Sound h.color t

omit [DecidableEq Addr] in
theorem At.path_le (hA : W.At h t c S) (hs : Small Addr) (hc : W.Colored h (Ctx.plug t c))
    (he : W.exact) : c.length + t.depth ≤ 128 :=
  Nat.le_trans (Ctx.length_le_depth t c)
    (depth_le_of_sound hs (Ctx.apart_iff.mp hA.apart) (hc he))

/-- The writer has the whole tree `t` in order and the path to unlock. -/
structure Ready (W : Writer Addr Key) (h : Heap Addr Key) (t : PtrTree Addr) (path : List Addr) :
    Prop where
  place : W.At h t [] path
  nodup : path.Nodup
  ne_nil : path ≠ []
  last : path.getLast? = h.root
  colored : W.Colored h t

omit [DecidableEq Addr] in
theorem At.ready (hA : W.At h t c (Ctx.path c)) (hc : c ≠ [])
    (hcol : W.Colored h (Ctx.plug t c)) : W.Ready h (Ctx.plug t c) (Ctx.path c) where
  place := hA.whole
  nodup := hA.nodup_path
  ne_nil := by simpa using hc
  last := (hA.hole.root_eq hc).symm
  colored := hcol

omit [DecidableEq Addr] in
theorem At.ready_node {x : Addr} (hA : W.At h t c (x :: Ctx.path c)) (hx : t.ptr = some x)
    (hcol : W.Colored h (Ctx.plug t c)) : W.Ready h (Ctx.plug t c) (x :: Ctx.path c) := by
  obtain ⟨u, v, rfl⟩ := PtrTree.eq_mk_of_ptr .left hx
  exact At.ready (At.up.mpr hA) (List.cons_ne_nil ⟨x, .left, v⟩ c) hcol

/-- `unlock_path`, up to the root. -/
theorem unlockPath_spec {kont : Unit → Code Addr Key α} {path : List Addr}
    (hR : W.Ready h t path)
    (hX : ∀ h' r, W.At h' t [] [r] → h'.root = some r → h'.color = h.color →
      X (.act (.unlock r) fun _ => kont ()) h') :
    Until W.solo X ((unlockPath path).bind kont) h := by
  obtain ⟨hA, hn, hne, hl, -⟩ := hR
  induction path generalizing h with
  | nil => exact absurd rfl hne
  | cons a path ih =>
    cases path with
    | nil =>
      refine .stop (hX h a hA ?_ rfl)
      simpa using hl.symm
    | cons b path =>
      obtain ⟨ha, hn'⟩ := List.nodup_cons.mp hn
      refine unlock (hA.held.known a List.mem_cons_self) (hA.held.mem a List.mem_cons_self) ?_ ?_
      · rw [← hl]
        intro he
        rw [List.getLast?_cons_cons] at he
        exact ha (List.mem_of_getLast? he)
      · refine ih hX (hA.unlock ha) hn' (List.cons_ne_nil b path) ?_
        rw [← List.getLast?_cons_cons]
        exact hl

/-- The closing blackening of the root, when the root's lock is held. -/
theorem blackenRoot_spec {kont : Unit → Code Addr Key α} {path : List Addr}
    (hR : W.Ready h t path)
    (hk : ∀ h', W.Ready h' t path → Dark h'.color t → Until W.solo X (kont ()) h') :
    Until W.solo X ((blackenRoot path).bind kont) h := by
  obtain ⟨r, hr⟩ : ∃ r, h.root = some r := by
    rw [← hR.last, List.getLast?_eq_some_getLast hR.ne_nil]
    exact ⟨_, rfl⟩
  have ht : t.ptr = some r := hR.place.hole.symm.trans hr
  refine loadRoot ?_
  rw [hr]
  have hknown := hR.place.known r (.inl (PtrTree.mem_of_ptr ht))
  cases path with
  | nil => exact absurd rfl hR.ne_nil
  | cons a path =>
    refine blackenTop hknown (hk _ ⟨hR.place.setColor r .BLACK, hR.nodup, hR.ne_nil, hR.last,
      fun he => ?_⟩ fun b hb => ?_)
    · refine (hR.colored he).congr (fun b _ hb => Heap.setColor_ne _ _ ?_)
        (Ctx.apart_nil.mp hR.place.apart)
      rintro rfl
      exact hb ht
    · rw [ht] at hb
      cases hb
      exact Heap.setColor_same _ _ _

/-- The descent of `lock_path`. -/
theorem lockDown_spec [StrictWeakOrder cmp] (hs : Small Addr)
    {kont : LockResult Addr → Code Addr Key α}
    (hA : W.At h t c (cur :: Ctx.path c)) (ht : t.ptr = some cur)
    (hsorted : (Ctx.plug t c).addrs.Pairwise fun a b => cmp (h.key a) (h.key b) = true)
    (hcol : W.Colored h (Ctx.plug t c)) (hk : Between cmp h.key k c)
    (hfound : ∀ h' t' c' a, W.At h' t' c' (a :: Ctx.path c') → t'.ptr = some a →
      h'.color = h.color → h'.child = h.child → Ctx.plug t' c' = Ctx.plug t c →
      cmp k (h.key a) = false → cmp (h.key a) k = false →
      Until W.solo X (kont (.found a (Ctx.path c'))) h')
    (habsent : ∀ h' f c', W.At h' .nil (f :: c') (f.addr :: Ctx.path c') → h'.color = h.color →
      h'.child = h.child → Ctx.plug .nil (f :: c') = Ctx.plug t c → Between cmp h.key k (f :: c') →
      Until W.solo X (kont (.absent f.addr (Ctx.path c') f.side)) h')
    (hfull : ∀ h' r, ¬ W.exact → W.full → W.At h' (Ctx.plug t c) [] [r] → h'.root = some r →
      X (.act (.unlock r) fun _ => kont .empty) h') :
    Until W.solo X (.loop (lockStep cmp k) (cur, Ctx.path c) kont) h := by
  -- induction on the depth of the subtree below the last locked node
  induction hd : t.depth using Nat.strongRecOn generalizing h t c cur with
  | _ n ih =>
  obtain ⟨u, v, rfl⟩ := PtrTree.eq_mk_of_ptr (sideOf (compare cmp k (h.key cur))) ht
  have hcur : W.known cur := hA.known cur (.inl (by simp))
  refine .loop (loadKey hcur ?_)
  by_cases hc : compare cmp k (h.key cur) = .eq
  · show Until W.solo X (Prog.bind (if compare cmp k (h.key cur) = .eq then _ else _) _) h
    rw [if_pos hc]
    obtain ⟨h1, h2⟩ := compare_eq hc
    exact hfound h _ c cur hA ht rfl rfl rfl h1 h2
  · show Until W.solo X (Prog.bind (if compare cmp k (h.key cur) = .eq then _ else _) _) h
    rw [if_neg hc]
    refine loadChild hcur ?_
    obtain ⟨hu, -⟩ := PtrTree.fits_mk.mp hA.fits
    have hk' := hk.down hsorted hc
    set f : Frame Addr := ⟨cur, sideOf (compare cmp k (h.key cur)), v⟩ with hf
    have hA' : W.At h u (f :: c) (f.addr :: Ctx.path c) := At.up.mpr hA
    cases hup : u.ptr with
    | none =>
      rw [hup] at hu
      rw [hu]
      obtain rfl := PtrTree.eq_nil_of_ptr hup
      exact habsent h _ c hA' rfl rfl rfl hk'
    | some child =>
      rw [hup] at hu
      rw [hu]
      show Until W.solo X
        (Prog.bind (if MAX_HEIGHT ≤ (f.addr :: Ctx.path c).length then _ else _) _) h
      -- in a sound tree the path and what is left of it have at most 128 nodes, so the stack never
      -- fills
      have hle : W.exact → (Ctx.path c).length + (max u.depth v.depth + 1) ≤ 128 := by
        intro he
        have := hA.path_le hs hcol he
        rwa [PtrTree.depth_mk, ← List.length_map Frame.addr] at this
      by_cases hfl : MAX_HEIGHT ≤ (f.addr :: Ctx.path c).length
      · rw [if_pos hfl]
        have hne : ¬ W.exact := by
          intro he
          have := hle he
          simp only [MAX_HEIGHT, List.length_cons] at hfl
          omega
        refine pathFull hne fun hful => ?_
        show Until W.solo X (Prog.bind (Prog.bind (unlockPath (Ctx.path (f :: c))) _) _) h
        rw [Prog.bind_assoc]
        refine unlockPath_spec (hA'.ready (List.cons_ne_nil f c) hcol) fun h' r hA'' hr _ => ?_
        exact hfull h' r hne hful hA'' hr
      · rw [if_neg hfl]
        have hchild : child ∈ u.addrs := PtrTree.mem_of_ptr hup
        have hck : W.known child := hA'.known child (.inl hchild)
        refine lock hck (fun ha => hA.held.only ha child (hA'.not_mem_path hchild)) ?_
        refine writePath (fun he => ?_) ?_
        · have := hle he
          simp only [MAX_HEIGHT, List.length_cons]
          omega
        refine ih u.depth ?_ (hA'.lock hck) hup hsorted hcol hk' hfound habsent hfull rfl
        rw [← hd, PtrTree.depth_mk]
        omega

end Writer

end MpmcMap.Ordered
