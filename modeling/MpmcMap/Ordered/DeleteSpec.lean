import MpmcMap.Ordered.Descent

/-!
# The fixup of a deletion

`fixup_delete` while the root is locked: it restores the balance, or climbs to the root and is about
to give up the root's lock. The node that was removed may stay locked (`E`) while it runs.
-/

namespace MpmcMap.Ordered

open Conc RedBlack Maps

variable {Addr Key : Type} [DecidableEq Addr]

/-- A bound on the iterations of `fixup_delete` that are left. -/
def weight (c : Ctx Addr) : Nat := (c.map fun f => 1 + 2 * f.sib.addrs.length).sum

namespace Writer

variable {W : Writer Addr Key} {α : Type} {X : Code Addr Key α → Heap Addr Key → Prop}
  {h : Heap Addr Key} {t : PtrTree Addr} {c : Ctx Addr} {S E : List Addr} {p w x y : Addr}
  {d e : Side} {A B N F U : PtrTree Addr}

omit [DecidableEq Addr] in
theorem head_mem_path {f : Frame Addr} (hf : f ∈ c.head?) : f.addr ∈ Ctx.path c := by
  cases c with
  | nil => cases hf
  | cons f' c =>
    cases hf
    exact List.mem_cons_self

/-- The locks outside the tree. -/
def Outside (E : List Addr) (t : PtrTree Addr) (c : Ctx Addr) : Prop :=
  ∀ a ∈ E, a ∉ (Ctx.plug t c).addrs

omit [DecidableEq Addr] in
theorem Outside.sib {f : Frame Addr} (hE : Outside E t (f :: c))
    (hn : (Ctx.addrs (f :: c)).Nodup) {a : Addr} (ha : a ∈ f.sib.addrs) :
    a ∉ Ctx.path (f :: c) ++ E := by
  rw [List.mem_append, not_or]
  refine ⟨Ctx.not_mem_path_of_sib hn ha, fun he => hE a he (Ctx.mem_plug.mpr (.inr ?_))⟩
  exact List.mem_cons_of_mem _ (List.mem_append_left _ ha)

omit [DecidableEq Addr] in
theorem Outside.parent {f : Frame Addr} (hE : Outside E t (f :: c)) : f.addr ∉ E :=
  fun he => hE f.addr he (Ctx.mem_plug.mpr (.inr List.mem_cons_self))

/-- The tree in the hole is one black short, the rest is balanced. -/
def ShortAt (W : Writer Addr Key) (h : Heap Addr Key) (t : PtrTree Addr) (c : Ctx Addr) : Prop :=
  W.exact → ∃ n, Short h.color t n ∧ Fit h.color c (n + 1)

/-- Room on the path stack: a red parent means that the path has grown by the rotation of case 1. -/
def Room (W : Writer Addr Key) (h : Heap Addr Key) (c : Ctx Addr) : Prop :=
  W.exact → c.length ≤ 130 ∨ (c.length ≤ 131 ∧ ∀ f ∈ c.head?, h.color f.addr = .RED)

/-- What comes after an iteration of `fixup_delete`, whose tree has the nodes `L` in order. -/
structure After (W : Writer Addr Key) (X : Code Addr Key α → Heap Addr Key → Prop) (L E : List Addr)
    (bound : Nat) (kont : (List Addr × Option Addr × Side) ⊕ List Addr → Code Addr Key α) :
    Prop where
  /-- The next iteration. -/
  climb : ∀ h t f c, W.At h t (f :: c) (Ctx.path (f :: c) ++ E) → Outside E t (f :: c) →
    W.ShortAt h t (f :: c) → W.Room h (f :: c) → (Ctx.plug t (f :: c)).addrs = L →
    weight (f :: c) < bound →
    Until W.solo X (kont (.inl (Ctx.path (f :: c), t.ptr, f.side))) h
  /-- The end of the fixup. -/
  stop : ∀ h t f c, W.At h t (f :: c) (Ctx.path (f :: c) ++ E) → Outside E t (f :: c) →
    W.Colored h (Ctx.plug t (f :: c)) → (Ctx.plug t (f :: c)).addrs = L →
    Until W.solo X (kont (.inr (Ctx.path (f :: c)))) h
  /-- The root is left: the lock of `p`, the root, is about to be released. -/
  leave : ∀ h t p d, W.At h t [] (p :: E) → t.ptr = some p → W.Colored h t → t.addrs = L →
    X (.act (.unlock p) fun _ => kont (.inl ([], some p, d))) h

/-- Case 1. -/
theorem deleteCase1_spec {kont : List Addr → Code Addr Key α}
    (hA : W.At h t (⟨p, d, .mk w d N F⟩ :: c) (Ctx.path (⟨p, d, .mk w d N F⟩ :: c) ++ E))
    (hE : Outside E t (⟨p, d, .mk w d N F⟩ :: c)) (hc : W.exact → c.length < 255)
    (hk : ∀ h', W.At h' t (⟨p, d, N⟩ :: ⟨w, d, F⟩ :: c)
        (Ctx.path (⟨p, d, N⟩ :: ⟨w, d, F⟩ :: c) ++ E) →
      h'.color = Function.update (Function.update h.color w .BLACK) p .RED →
      Until W.solo X (kont (p :: w :: Ctx.path c)) h') :
    Until W.solo X ((deleteCase1 p (Ctx.path c) w d).bind kont) h := by
  have hn := Ctx.apart_def.mp hA.apart
  have hwk : W.known w := hA.known w (.inr (by simp [Ctx.addrs]))
  have hpk : W.known p := hA.held.known p (by simp)
  have hwS : w ∉ Ctx.path (⟨p, d, .mk w d N F⟩ :: c) ++ E := hE.sib hn.2.1 (by simp)
  refine lock hwk (fun ha => hA.held.only ha w hwS) ?_
  refine storeColor hwk ?_
  refine storeColor hpk ?_
  have hA1 := At.up.mp (((hA.lock hwk).setColor w .BLACK).setColor p .RED)
  show Until W.solo X (Prog.bind (Prog.bind (rotate p d.flip (some (Ctx.path c))) _) _) _
  rw [Prog.bind_assoc]
  refine rotate_flip_spec hA1 (by simp) (by simp) (fun f hf => ?_) fun h' hA2 hcol => ?_
  · simp [head_mem_path hf]
  refine writePath (fun he => ?_) ?_
  · have := hc he
    simp only [List.length_cons, List.length_map, MAX_HEIGHT]
    omega
  refine hk h' ?_ hcol
  refine At.up.mpr (At.up.mpr (Loose.perm hA2 fun a => ?_))
  simp only [Ctx.path, List.map_cons, List.cons_append, List.mem_cons]
  exact or_left_comm

/-- Case 2: `w` is made red, and the fixup climbs, or leaves the tree at its root. -/
theorem deleteCase2_spec {kont : List Addr × Option Addr × Side → Code Addr Key α} {wLocked : Bool}
    (hA : W.At h t (⟨p, d, U⟩ :: c) (Ctx.path (⟨p, d, U⟩ :: c) ++ E))
    (hE : Outside E t (⟨p, d, U⟩ :: c))
    (hk : ∀ h' f c', c = f :: c' → W.At h' (.mk p d t U) c (Ctx.path c ++ E) →
      (∀ w, U.ptr = some w → h'.color = Function.update h.color w .RED) →
      Until W.solo X (kont (Ctx.path c, some p, f.side)) h')
    (hX : ∀ h', c = [] → W.At h' (.mk p d t U) [] (p :: E) →
      (∀ w, U.ptr = some w → h'.color = Function.update h.color w .RED) →
      X (.act (.unlock p) fun _ => kont ([], some p, d)) h') :
    Until W.solo X ((deleteCase2 p (Ctx.path c) U.ptr wLocked d).bind kont) h := by
  have hpk : W.known p := hA.held.known p (by simp)
  -- what happens once `w` is red: the parent is unlocked, unless it is the root
  have climb : ∀ h', W.At h' t (⟨p, d, U⟩ :: c) (Ctx.path (⟨p, d, U⟩ :: c) ++ E) →
      (∀ w, U.ptr = some w → h'.color = Function.update h.color w .RED) →
      Until W.solo X ((deleteCase2 p (Ctx.path c) none wLocked d).bind kont) h' := by
    intro h' hA' hcol
    have hA1 := At.up.mp hA'
    cases c with
    | nil => exact .stop (hX h' rfl hA1 hcol)
    | cons f c =>
      have hn := Ctx.apart_def.mp hA1.apart
      have hpc : p ∉ Ctx.addrs (f :: c) := hn.2.2 p (by simp)
      have hpE : p ∉ E := hE.parent
      have hpS : p ∉ Ctx.path (f :: c) ++ E := by
        rw [List.mem_append, not_or]
        exact ⟨fun h => hpc (Ctx.mem_addrs_of_path h), hpE⟩
      refine unlock hpk (hA1.held.mem p (by simp)) ?_ ?_
      · rw [hA1.hole.root_eq (List.cons_ne_nil f c)]
        intro he
        exact hpc (Ctx.mem_addrs_of_path (List.mem_of_getLast? he))
      · have hA2 := hA1.unlock hpS
        have hA3 : W.Loose _ (.mk p d t U) (f :: c) (PtrTree.mk p d t U).ptr _ := hA2
        rw [PtrTree.ptr_mk] at hA3
        show Until W.solo X (Prog.bind (Prog.bind (sideIn f.addr p) _) kont) _
        rw [Prog.bind_assoc]
        refine sideIn_spec hA3 hpc ?_
        exact hk _ f c rfl hA2 hcol
  cases hU : U.ptr with
  | none =>
    refine climb h hA fun w hw => ?_
    rw [hU] at hw
    cases hw
  | some w =>
    have hwU : w ∈ U.addrs := PtrTree.mem_of_ptr hU
    have hwk : W.known w := hA.known w (.inr (by simp [Ctx.addrs, hwU]))
    have hn := (Ctx.apart_def.mp hA.apart).2.1
    have hwS : w ∉ Ctx.path (⟨p, d, U⟩ :: c) ++ E := hE.sib hn hwU
    have hroot : h.root ≠ some w := by
      refine (At.up.mp hA).root_ne (by simp [hwU]) ?_
      rw [PtrTree.ptr_mk]
      intro he
      obtain rfl : p = w := Option.some.inj he
      exact hwS (by simp)
    -- there is a sibling: it is colored under its lock
    have hcol : ∀ w', U.ptr = some w' →
        Function.update h.color w .RED = Function.update h.color w' .RED := by
      intro w' hw'
      rw [Option.some.inj (hU.symm.trans hw')]
    cases wLocked with
    | true =>
      refine storeColor hwk ?_
      exact climb _ (hA.setColor w .RED) hcol
    | false =>
      refine lock hwk (fun ha => hA.held.only ha w hwS) ?_
      refine storeColor hwk ?_
      have hA1 := (hA.lock hwk).setColor w .RED
      refine unlock hwk (hA1.held.mem w (by simp)) hroot ?_
      exact climb _ (hA1.unlock hwS) hcol

/-- Case 4: the fixup ends. -/
theorem deleteCase4_spec {kont : List Addr → Code Addr Key α} {wLocked : Bool}
    (hA : W.At h t (⟨p, d, .mk w d N (.mk y e A B)⟩ :: c)
      ((if wLocked then [w] else []) ++ (Ctx.path (⟨p, d, .mk w d N (.mk y e A B)⟩ :: c) ++ E)))
    (hE : Outside E t (⟨p, d, .mk w d N (.mk y e A B)⟩ :: c))
    (hk : ∀ h', W.At h' (.mk p d t N) (⟨w, d, .mk y e A B⟩ :: c)
        (Ctx.path (⟨w, d, .mk y e A B⟩ :: c) ++ E) →
      (W.exact → h'.color = Function.update (Function.update (Function.update h.color w
        (h.color p)) p .BLACK) y .BLACK) →
      Until W.solo X (kont (w :: Ctx.path c)) h') :
    Until W.solo X ((deleteCase4 p (Ctx.path c) w (some y) wLocked d).bind kont) h := by
  have hn := (Ctx.apart_def.mp hA.apart).2.1
  have hpk : W.known p := hA.held.known p (by simp)
  have hwk : W.known w := hA.known w (.inr (by simp [Ctx.addrs]))
  have hyk : W.known y := hA.known y (.inr (by simp [Ctx.addrs]))
  have hwS : w ∉ Ctx.path (⟨p, d, .mk w d N (.mk y e A B)⟩ :: c) ++ E := hE.sib hn (by simp)
  have hyS : y ∉ Ctx.path (⟨p, d, .mk w d N (.mk y e A B)⟩ :: c) ++ E := hE.sib hn (by simp)
  have hyw : y ≠ w := by
    simp only [Ctx.addrs, List.nodup_cons, List.nodup_append, PtrTree.nodup_mk,
      PtrTree.mem_addrs_mk] at hn
    grind
  -- from the point where w is locked
  have main : ∀ h1, W.At h1 t (⟨p, d, .mk w d N (.mk y e A B)⟩ :: c)
      (w :: (Ctx.path (⟨p, d, .mk w d N (.mk y e A B)⟩ :: c) ++ E)) → h1.color = h.color →
      Until W.solo X (.act (.lock y) fun _ => .act (.loadColor p) fun col =>
        .act (.storeColor w col) fun _ => .act (.storeColor p .BLACK) fun _ =>
        .act (.storeColor y .BLACK) fun _ => .act (.unlock y) fun _ =>
        Prog.bind (Prog.bind (rotate p d.flip (some (Ctx.path c))) fun _ =>
          .act (.unlock p) fun _ => .ret (w :: Ctx.path c)) kont) h1 := by
    intro h1 hA1 hcol1
    have hyS1 : y ∉ w :: (Ctx.path (⟨p, d, .mk w d N (.mk y e A B)⟩ :: c) ++ E) := by
      rw [List.mem_cons, not_or]
      exact ⟨hyw, hyS⟩
    refine lock hyk (fun ha => hA1.held.only ha y hyS1) ?_
    refine readColor_spec (hA1.lock hyk) hpk fun h2 col hA2 hf2 hx2 _ => ?_
    subst hx2
    refine storeColor hwk ?_
    refine storeColor hpk ?_
    refine storeColor hyk ?_
    have hA3 := ((hA2.setColor w (h2.color p)).setColor p .BLACK).setColor y .BLACK
    refine unlock hyk (hA3.held.mem y (by simp)) ?_ ?_
    · refine (At.up.mp hA2).root_ne (by simp) ?_
      rw [PtrTree.ptr_mk]
      intro he
      obtain rfl : p = y := Option.some.inj he
      exact hyS (by simp)
    have hA4 := At.up.mp (hA3.unlock hyS1)
    rw [Prog.bind_assoc]
    refine rotate_flip_spec hA4 (by simp) (by simp) (fun f hf => ?_) fun h5 hA5 hcol5 => ?_
    · simp [head_mem_path hf]
    have hA6 : W.At h5 (.mk w d (.mk p d t N) (.mk y e A B)) c
        (p :: (Ctx.path (⟨w, d, .mk y e A B⟩ :: c) ++ E)) :=
      Loose.perm hA5 fun a => by
        simp only [Ctx.path, List.map_cons, List.cons_append, List.mem_cons]
        exact or_left_comm
    have hA7 : W.At h5 (.mk p d t N) (⟨w, d, .mk y e A B⟩ :: c)
        (p :: (Ctx.path (⟨w, d, .mk y e A B⟩ :: c) ++ E)) := At.up.mpr hA6
    have hpS : p ∉ Ctx.path (⟨w, d, .mk y e A B⟩ :: c) ++ E := by
      rw [List.mem_append, not_or]
      exact ⟨hA7.not_mem_path (by simp), hE.parent⟩
    refine unlock hpk (hA6.held.mem p (by simp)) ?_ ?_
    · refine hA6.root_ne (by simp) ?_
      rw [PtrTree.ptr_mk]
      intro he
      obtain rfl : w = p := Option.some.inj he
      exact hwS (by simp)
    · refine hk _ (hA7.unlock hpS) fun he => ?_
      show h5.color = _
      rw [hcol5]
      show Function.update (Function.update (Function.update h2.color w (h2.color p)) p .BLACK) y
        .BLACK = _
      rw [hf2.exact he]
      show Function.update (Function.update (Function.update h1.color w (h1.color p)) p .BLACK) y
        .BLACK = _
      rw [hcol1]
  cases wLocked with
  | true => exact main h hA rfl
  | false =>
    refine lock hwk (fun ha => hA.held.only ha w hwS) ?_
    exact main _ (hA.lock hwk) rfl

/-- Case 3: the near child `y` of the sibling takes its place and stays locked. -/
theorem deleteCase3_spec {kont : Option Addr → Code Addr Key α}
    (hA : W.At h t (⟨p, d, .mk w d (.mk y d A B) F⟩ :: c)
      (Ctx.path (⟨p, d, .mk w d (.mk y d A B) F⟩ :: c) ++ E))
    (hE : Outside E t (⟨p, d, .mk w d (.mk y d A B) F⟩ :: c))
    (hk : ∀ h', W.At h' t (⟨p, d, .mk y d A (.mk w d B F)⟩ :: c)
        (y :: (Ctx.path (⟨p, d, .mk y d A (.mk w d B F)⟩ :: c) ++ E)) →
      h'.color = Function.update (Function.update h.color y .BLACK) w .RED →
      Until W.solo X (kont (some w)) h') :
    Until W.solo X ((deleteCase3 p w y d).bind kont) h := by
  have hn := (Ctx.apart_def.mp hA.apart).2.1
  have hwk : W.known w := hA.known w (.inr (by simp [Ctx.addrs]))
  have hyk : W.known y := hA.known y (.inr (by simp [Ctx.addrs]))
  have hwS : w ∉ Ctx.path (⟨p, d, .mk w d (.mk y d A B) F⟩ :: c) ++ E := hE.sib hn (by simp)
  have hyS : y ∉ Ctx.path (⟨p, d, .mk w d (.mk y d A B) F⟩ :: c) ++ E := hE.sib hn (by simp)
  have hyw : y ≠ w := by
    simp only [Ctx.addrs, List.nodup_cons, List.nodup_append, PtrTree.nodup_mk,
      PtrTree.mem_addrs_mk] at hn
    grind
  refine lock hwk (fun ha => hA.held.only ha w hwS) ?_
  have hA1 := hA.lock hwk
  refine lock hyk (fun ha => hA1.held.only ha y ?_) ?_
  · rw [List.mem_cons, not_or]
    exact ⟨hyw, hyS⟩
  refine storeColor hyk ?_
  refine storeColor hwk ?_
  -- the sibling in the hole, `t` in the frame
  have hA2 := At.across.mp (((hA1.lock hyk).setColor y .BLACK).setColor w .RED)
  have hwc := (Ctx.apart_def.mp hA2.apart).2.2 w (by simp)
  have hwA := hA2.known w (.inl (by simp))
  refine loadChild hwA ?_
  obtain ⟨hwy, -⟩ := PtrTree.fits_mk.mp hA2.fits
  rw [hwy, PtrTree.ptr_mk]
  show Until W.solo X (Prog.bind (Prog.bind (Prog.bind (Ordered.rotateInner w y d) _) _) kont) _
  rw [Prog.bind_assoc, Prog.bind_assoc]
  refine rotateInner_spec hA2 (by simp) (by simp) fun h3 hA3 hcol3 => ?_
  have hptr : (PtrTree.mk y d A (PtrTree.mk w d B F)).ptr = some y := PtrTree.ptr_mk _ _ _ _
  show Until W.solo X (Prog.bind (Prog.bind (rewireChild p w (some y)) _) kont) _
  rw [Prog.bind_assoc, ← hptr]
  refine replaceChild_spec (c := ⟨p, d.flip, t⟩ :: c) hA3 (by simp) hwc (fun h => by cases h)
    fun h4 hA4 hcol4 => ?_
  have hA5 : W.At h4 (.mk y d A (.mk w d B F)) (⟨p, d.flip, t⟩ :: c)
      (w :: y :: (Ctx.path (⟨p, d.flip, t⟩ :: c) ++ E)) :=
    Loose.perm hA4 fun a => by
      simp only [List.mem_cons]
      exact or_left_comm
  have hwS' : w ∉ y :: (Ctx.path (⟨p, d.flip, t⟩ :: c) ++ E) := by
    rw [List.mem_cons, not_or]
    exact ⟨fun he => hyw he.symm, hwS⟩
  refine unlock hwk (hA5.held.mem w (by simp)) ?_ ?_
  · refine hA5.root_ne (by simp) ?_
    rw [hptr]
    intro he
    exact hyw (Option.some.inj he)
  · have hA6 := hA5.unlock hwS'
    refine loadChild hyk ?_
    rw [(PtrTree.fits_mk.mp hA6.fits).2.1, PtrTree.ptr_mk]
    have hA7 := At.across.mp hA6
    rw [Side.flip_flip] at hA7
    exact hk _ hA7 (hcol4.trans hcol3)

/-- Case 2, for a black sibling with black children. -/
theorem climb_spec {L : List Addr} {bound : Nat} {wLocked : Bool}
    {kont : (List Addr × Option Addr × Side) ⊕ List Addr → Code Addr Key α}
    (hA : W.At h t (⟨p, d, U⟩ :: c) (Ctx.path (⟨p, d, U⟩ :: c) ++ E))
    (hE : Outside E t (⟨p, d, U⟩ :: c)) (hr : W.Room h (⟨p, d, U⟩ :: c))
    (hb : W.exact → ∃ n, Bal h.color t n ∧ Fit h.color (⟨p, d, U⟩ :: c) (n + 1))
    (hU : ∀ w N F, U = .mk w d N F → W.exact →
      h.color w = .BLACK ∧ Dark h.color N ∧ Dark h.color F)
    (hL : (Ctx.plug t (⟨p, d, U⟩ :: c)).addrs = L) (hbound : weight (⟨p, d, U⟩ :: c) ≤ bound)
    (hk : W.After X L E bound kont) :
    Until W.solo X
      ((deleteCase2 p (Ctx.path c) U.ptr wLocked d).bind fun l => kont (.inl l)) h := by
  -- the parent is one black short once the sibling is red
  have short : ∀ h' : Heap Addr Key,
      (∀ w, U.ptr = some w → h'.color = Function.update h.color w .RED) →
      W.ShortAt h' (.mk p d t U) c := by
    intro h' hcol he
    obtain ⟨n, hbal, hfit⟩ := hb he
    obtain ⟨w, N, F, hUe⟩ := hfit.sibling
    simp only at hUe
    obtain ⟨hw, hN, hF⟩ := hU w N F hUe he
    subst hUe
    rw [hcol w (PtrTree.ptr_mk _ _ _ _)]
    exact delete_recolor hA.apart hbal hfit hw hN hF
  refine deleteCase2_spec hA hE ?_ ?_
  · rintro h' f c' rfl hA' hcol
    rw [← PtrTree.ptr_mk p d t U]
    refine hk.climb h' _ f c' hA' hE (short h' hcol) ?_ hL ?_
    · intro he
      have := hr he
      simp only [List.length_cons] at this ⊢
      omega
    · simp only [weight, List.map_cons, List.sum_cons] at hbound ⊢
      omega
  · rintro h' rfl hA' hcol
    refine hk.leave h' _ p d hA' (PtrTree.ptr_mk _ _ _ _) (fun he => ?_) hL
    obtain ⟨m, hm, -⟩ := short h' hcol he
    exact hm.sound

/-- Cases 2 and 4, for a black sibling. After case 3 the sibling is locked. -/
theorem deleteCase24_spec {L : List Addr} {bound : Nat} {far : Option Addr} {wLocked : Bool}
    {kont : (List Addr × Option Addr × Side) ⊕ List Addr → Code Addr Key α}
    (hA : W.At h t (⟨p, d, U⟩ :: c)
      ((if wLocked then U.ptr.toList else []) ++ (Ctx.path (⟨p, d, U⟩ :: c) ++ E)))
    (hE : Outside E t (⟨p, d, U⟩ :: c)) (hr : W.Room h (⟨p, d, U⟩ :: c))
    (hb : W.exact → ∃ n, Bal h.color t n ∧ Fit h.color (⟨p, d, U⟩ :: c) (n + 1))
    (hw : ∀ w, U.ptr = some w → h.color w = .BLACK)
    (hU : ∀ w N F, U = .mk w d N F →
      far = F.ptr ∧ (W.exact → Dark h.color F → Dark h.color N ∧ wLocked = false))
    (hL : (Ctx.plug t (⟨p, d, U⟩ :: c)).addrs = L) (hbound : weight (⟨p, d, U⟩ :: c) ≤ bound)
    (hk : W.After X L E bound kont) :
    Until W.solo X ((deleteCase24 p (Ctx.path c) U.ptr far wLocked d).bind kont) h := by
  cases hUp : U.ptr with
  | none =>
    obtain rfl := PtrTree.eq_nil_of_ptr hUp
    show Until W.solo X (Prog.bind (Prog.bind (deleteCase2 p (Ctx.path c) none wLocked d) _) kont) h
    rw [Prog.bind_assoc]
    refine climb_spec (U := .nil) ?_ hE hr hb (fun w N F hne => ?_) hL hbound hk
    · cases wLocked <;> simpa [PtrTree.ptr] using hA
    · have := congrArg PtrTree.ptr hne
      rw [PtrTree.ptr_mk] at this
      cases this
  | some w =>
    obtain ⟨N, F, rfl⟩ := PtrTree.eq_mk_of_ptr d hUp
    obtain ⟨rfl, hdark⟩ := hU w N F rfl
    show Until W.solo X (Prog.bind (Prog.bind (isBlack (some w)) _) kont) h
    rw [Prog.bind_assoc]
    refine isBlack_spec hA (fun a ha => ?_) fun h1 b hA1 hf1 _ _ hbt => ?_
    · cases ha
      exact hA.known w (.inr (by simp [Ctx.addrs]))
    rw [hbt fun a ha => by cases ha; exact hw w hUp]
    show Until W.solo X (Prog.bind (Prog.bind (isBlack F.ptr) _) kont) h1
    rw [Prog.bind_assoc]
    refine isBlack_spec hA1 (fun a ha => ?_) fun h2 b hA2 hf2 hred hblack _ => ?_
    · exact hA.known a (.inr (by simp [Ctx.addrs, PtrTree.mem_of_ptr ha]))
    have hcol : W.exact → h2.color = h.color := fun he => (hf2.exact he).trans (hf1.exact he)
    have hw2 : h2.color w = .BLACK := hf2.black w (hf1.black w (hw w hUp))
    have hb2 : W.exact → ∃ n, Bal h2.color t n ∧
        Fit h2.color (⟨p, d, .mk w d N F⟩ :: c) (n + 1) := by
      intro he
      rw [hcol he]
      exact hb he
    cases b with
    | true =>
      -- the far child is black: case 2
      have hF : Dark h2.color F := hblack rfl
      show Until W.solo X
        (Prog.bind (Prog.bind (deleteCase2 p (Ctx.path c) (some w) wLocked d) _) kont) h2
      rw [Prog.bind_assoc, ← hUp]
      refine climb_spec ?_ hE ?_ hb2 ?_ hL hbound hk
      · cases wLocked with
        | false => simpa using hA2
        | true =>
          -- after case 3 the far child is red, so this branch is met only where colors are not
          -- exact
          have hne : ¬ W.exact := by
            intro he
            rw [hcol he] at hF
            exact absurd (hdark he hF).2 (by simp)
          rw [PtrTree.ptr_mk] at hA2
          exact { hA2 with held := Held.forget hA2.held hne }
      · intro he
        rw [hcol he]
        exact hr he
      · intro w' N' F' heq he
        obtain ⟨rfl, rfl, rfl⟩ := PtrTree.mk_inj heq
        refine ⟨hw2, ?_, hF⟩
        rw [hcol he] at hF ⊢
        exact (hdark he hF).1
    | false =>
      -- the far child is red: case 4, and the fixup ends
      obtain ⟨y, hy, hyr⟩ := hred rfl
      obtain ⟨A, B, rfl⟩ := PtrTree.eq_mk_of_ptr d hy
      rw [PtrTree.ptr_mk]
      show Until W.solo X
        (Prog.bind (Prog.bind (deleteCase4 p (Ctx.path c) w (some y) wLocked d) _) kont) h2
      rw [Prog.bind_assoc]
      refine deleteCase4_spec ?_ hE fun h3 hA3 hcol3 => ?_
      · simpa using hA2
      · have hL' : (Ctx.plug (.mk p d t N) (⟨w, d, .mk y d A B⟩ :: c)).addrs = L := by
          rw [← hL]
          exact Ctx.addrs_plug_congr (PtrTree.addrs_rotate _ _ _ _ _ _).symm c
        refine hk.stop h3 _ ⟨w, d, _⟩ c hA3 ?_ (fun he => ?_) hL'
        · rw [Outside, hL', ← hL]
          exact hE
        · obtain ⟨n, hbal, hfit⟩ := hb2 he
          rw [hcol3 he]
          exact delete_outer hA2.apart hbal hfit hw2 (hyr he)

/-- Case 3 and what comes after it. -/
theorem inner_spec {L : List Addr} {bound : Nat}
    {kont : (List Addr × Option Addr × Side) ⊕ List Addr → Code Addr Key α}
    (hA : W.At h t (⟨p, d, .mk w d (.mk y d A B) F⟩ :: c)
      (Ctx.path (⟨p, d, .mk w d (.mk y d A B) F⟩ :: c) ++ E))
    (hE : Outside E t (⟨p, d, .mk w d (.mk y d A B) F⟩ :: c))
    (hr : W.Room h (⟨p, d, .mk w d (.mk y d A B) F⟩ :: c))
    (hb : W.exact → ∃ n, Bal h.color t n ∧ Dark h.color t ∧
      Fit h.color (⟨p, d, .mk w d (.mk y d A B) F⟩ :: c) (n + 1))
    (hw : h.color w = .BLACK) (hy : W.exact → h.color y = .RED) (hF : Dark h.color F)
    (hL : (Ctx.plug t (⟨p, d, .mk w d (.mk y d A B) F⟩ :: c)).addrs = L)
    (hbound : weight (⟨p, d, .mk w d (.mk y d A B) F⟩ :: c) ≤ bound)
    (hk : W.After X L E bound kont) :
    Until W.solo X ((deleteCase3 p w y d).bind fun far =>
      (deleteCase24 p (Ctx.path c) (some y) far true d).bind kont) h := by
  have hn := (Ctx.apart_def.mp hA.apart).2.1
  simp only [Ctx.addrs, List.nodup_cons, List.nodup_append, PtrTree.nodup_mk, List.mem_append,
    PtrTree.mem_addrs_mk] at hn
  have hyw : y ≠ w := by grind
  have hpy : p ≠ y := by grind
  have hpw : p ≠ w := by grind
  have haddrs : (PtrTree.mk y d A (.mk w d B F)).addrs = (PtrTree.mk w d (.mk y d A B) F).addrs :=
    PtrTree.addrs_rotate _ _ _ _ _ _
  have hL' : (Ctx.plug t (⟨p, d, .mk y d A (.mk w d B F)⟩ :: c)).addrs = L := by
    rw [← hL]
    exact Ctx.addrs_plug_congr (PtrTree.addrs_mk_congr _ _ rfl haddrs) c
  -- the sibling is now `y`, black, locked, and its far child `w` is red
  refine deleteCase3_spec hA hE fun h' hA' hcol => ?_
  have hptr : (PtrTree.mk y d A (.mk w d B F)).ptr = some y := PtrTree.ptr_mk _ _ _ _
  rw [← hptr]
  refine deleteCase24_spec ?_ ?_ ?_ ?_ ?_ ?_ hL' ?_ hk
  · rw [if_pos rfl, hptr]
    exact hA'
  · rw [Outside, hL', ← hL]
    exact hE
  · intro he
    rcases hr he with hlt | ⟨hlt, hred⟩
    · exact .inl hlt
    · refine .inr ⟨hlt, fun f hf => ?_⟩
      cases hf
      rw [hcol, Function.update_of_ne hpw, Function.update_of_ne hpy]
      exact hred _ rfl
  · intro he
    obtain ⟨n, hbal, hd, hfit⟩ := hb he
    obtain ⟨h1, -, h2⟩ := delete_inner hA.apart hbal hd hfit hw (hy he) hF
    rw [hcol]
    exact ⟨n, h1, h2⟩
  · intro a ha
    rw [hptr] at ha
    cases ha
    rw [hcol, Function.update_of_ne hyw, Function.update_self]
  · intro w' N' F' heq
    obtain ⟨rfl, rfl, rfl⟩ := PtrTree.mk_inj heq
    refine ⟨(PtrTree.ptr_mk _ _ _ _).symm, fun he hdark => ?_⟩
    rw [dark_mk, hcol, Function.update_self] at hdark
    cases hdark
  · simp only [weight, List.map_cons, List.sum_cons, haddrs] at hbound ⊢
    exact hbound

/-- `fixup_delete` once the sibling is not red. -/
theorem deleteBlackSibling_spec {L : List Addr} {bound : Nat}
    {kont : (List Addr × Option Addr × Side) ⊕ List Addr → Code Addr Key α}
    (hA : W.At h t (⟨p, d, U⟩ :: c) (Ctx.path (⟨p, d, U⟩ :: c) ++ E))
    (hE : Outside E t (⟨p, d, U⟩ :: c)) (hr : W.Room h (⟨p, d, U⟩ :: c))
    (hb : W.exact → ∃ n, Bal h.color t n ∧ Dark h.color t ∧
      Fit h.color (⟨p, d, U⟩ :: c) (n + 1))
    (hw : ∀ w, U.ptr = some w → h.color w = .BLACK)
    (hL : (Ctx.plug t (⟨p, d, U⟩ :: c)).addrs = L) (hbound : weight (⟨p, d, U⟩ :: c) ≤ bound)
    (hk : W.After X L E bound kont) :
    Until W.solo X ((deleteBlackSibling p (Ctx.path c) U.ptr d).bind kont) h := by
  -- all branches but case 3 go on with the sibling as it is
  have plain : ∀ h' far, W.At h' t (⟨p, d, U⟩ :: c) (Ctx.path (⟨p, d, U⟩ :: c) ++ E) →
      W.Fade h h' → (∀ w N F, U = .mk w d N F →
        far = F.ptr ∧ (W.exact → Dark h'.color F → Dark h'.color N)) →
      Until W.solo X ((deleteCase24 p (Ctx.path c) U.ptr far false d).bind kont) h' := by
    intro h' far hA' hf hU
    refine deleteCase24_spec hA' hE (fun he => ?_) (fun he => ?_)
      (fun w h => hf.black w (hw w h)) (fun w N F he => ?_) hL hbound hk
    · rw [hf.exact he]
      exact hr he
    · obtain ⟨n, h1, -, h2⟩ := hb he
      rw [hf.exact he]
      exact ⟨n, h1, h2⟩
    · exact ⟨(hU w N F he).1, fun h1 h2 => ⟨(hU w N F he).2 h1 h2, rfl⟩⟩
  cases hUp : U.ptr with
  | none =>
    have hplain := plain h none hA ⟨fun _ => rfl, fun _ h => h⟩ fun w N F hne => by
      rw [hne, PtrTree.ptr_mk] at hUp
      cases hUp
    rw [hUp] at hplain
    exact hplain
  | some w =>
    obtain ⟨N, F, rfl⟩ := PtrTree.eq_mk_of_ptr d hUp
    have hwk : W.known w := hA.known w (.inr (by simp [Ctx.addrs]))
    obtain ⟨hN, hF, -⟩ := PtrTree.fits_mk.mp hA.hole.2.2.1
    refine loadChild hwk ?_
    refine loadChild hwk ?_
    rw [hN, hF]
    show Until W.solo X
      (Prog.bind (Prog.bind (Prog.bind (isBlack N.ptr) _) _) kont) h
    rw [Prog.bind_assoc, Prog.bind_assoc]
    refine isBlack_spec hA (fun a ha => ?_) fun h1 b1 hA1 hf1 hred1 hblack1 _ => ?_
    · exact hA.known a (.inr (by simp [Ctx.addrs, PtrTree.mem_of_ptr ha]))
    rw [PtrTree.ptr_mk] at plain
    cases b1 with
    | true =>
      have hplain := plain h1 F.ptr hA1 hf1 fun w' N' F' heq => by
        obtain ⟨rfl, rfl, rfl⟩ := PtrTree.mk_inj heq
        exact ⟨rfl, fun _ _ => hblack1 rfl⟩
      cases hNp : N.ptr with
      | none => exact hplain
      | some y => exact hplain
    | false =>
      obtain ⟨y, hy, hyr⟩ := hred1 rfl
      rw [hy]
      show Until W.solo X (Prog.bind (isBlack F.ptr) _) h1
      refine isBlack_spec hA1 (fun a ha => ?_) fun h2 b2 hA2 hf2 hred2 hblack2 _ => ?_
      · exact hA.known a (.inr (by simp [Ctx.addrs, PtrTree.mem_of_ptr ha]))
      have hf : W.Fade h h2 :=
        ⟨fun he => (hf2.exact he).trans (hf1.exact he),
          fun a ha => hf2.black a (hf1.black a ha)⟩
      cases b2 with
      | false =>
        refine plain h2 F.ptr hA2 hf fun w' N' F' heq => ?_
        obtain ⟨rfl, rfl, rfl⟩ := PtrTree.mk_inj heq
        refine ⟨rfl, fun he hdark => ?_⟩
        obtain ⟨z, hz, hzr⟩ := hred2 rfl
        have := hdark z hz
        rw [hzr he] at this
        cases this
      | true =>
        obtain ⟨A, B, rfl⟩ := PtrTree.eq_mk_of_ptr d hy
        show Until W.solo X (Prog.bind (Prog.bind (deleteCase3 p w y d) _) kont) h2
        rw [Prog.bind_assoc]
        -- the near child is red and the far one is black: case 3 comes first
        refine inner_spec hA2 hE (fun he => ?_) (fun he => ?_) (hf.black w (hw w hUp))
          (fun he => ?_) (hblack2 rfl) hL hbound hk
        · rw [hf.exact he]
          exact hr he
        · rw [hf.exact he]
          exact hb he
        · rw [hf2.exact he]
          exact hyr he

/-- `fixup_delete`. -/
theorem fixupDelete_spec {L : List Addr} {kont : List Addr → Code Addr Key α} {f : Frame Addr}
    (hA : W.At h t (f :: c) (Ctx.path (f :: c) ++ E)) (hE : Outside E t (f :: c))
    (hS : W.ShortAt h t (f :: c)) (hr : W.Room h (f :: c))
    (hL : (Ctx.plug t (f :: c)).addrs = L)
    (hk : ∀ h t f c, W.At h t (f :: c) (Ctx.path (f :: c) ++ E) →
      W.Colored h (Ctx.plug t (f :: c)) → (Ctx.plug t (f :: c)).addrs = L →
      Until W.solo X (kont (Ctx.path (f :: c))) h)
    (hX : ∀ h t p d, W.At h t [] (p :: E) → t.ptr = some p → W.Colored h t → t.addrs = L →
      X (.act (.unlock p) fun _ => .loop fixupDeleteStep ([], some p, d) kont) h) :
    Until W.solo X (.loop fixupDeleteStep (Ctx.path (f :: c), t.ptr, f.side) kont) h := by
  induction hw : weight (f :: c) using Nat.strongRecOn generalizing h t f c with
  | _ bound ih =>
  have after : W.After X L E bound
      (Sum.elim (fun s => .loop fixupDeleteStep s kont) kont) :=
    ⟨fun h' t' f' c' hA' hE' hS' hr' hL' hlt => ih _ hlt hA' hE' hS' hr' hL' rfl,
      fun h' t' f' c' hA' _ hcol hL' => hk h' t' f' c' hA' hcol hL',
      fun h' t' p d hA' hp hcol hL' => hX h' t' p d hA' hp hcol hL'⟩
  obtain ⟨p, d, U⟩ := f
  refine .loop ?_
  show Until W.solo X (Prog.bind (Prog.bind (isRed t.ptr) _) _) h
  rw [Prog.bind_assoc]
  refine isRed_spec hA (fun a ha => hA.known a (.inl (PtrTree.mem_of_ptr ha)))
    fun h1 b hA1 hf1 hred hblack => ?_
  have hS1 : W.ShortAt h1 t (⟨p, d, U⟩ :: c) := by
    intro he
    rw [hf1.exact he]
    exact hS he
  cases b with
  | true =>
    obtain ⟨x, hx, hxr⟩ := hred rfl
    rw [hx]
    refine Writer.blackenX (hA.known x (.inl (PtrTree.mem_of_ptr hx))) ?_
    refine hk _ t _ c (hA1.setColor x .BLACK) (fun he => ?_) hL
    obtain ⟨n, hshort, hfit⟩ := hS1 he
    exact delete_red hA.apart hshort hfit hx (hxr he)
  | false =>
    have hb : W.exact → ∃ n, Bal h1.color t n ∧ Dark h1.color t ∧
        Fit h1.color (⟨p, d, U⟩ :: c) (n + 1) := by
      intro he
      obtain ⟨n, ⟨hd, hbal⟩ | ⟨a, l, r, rfl, ha, -⟩, hfit⟩ := hS1 he
      · exact ⟨n, hbal, hd, hfit⟩
      · rw [hblack rfl a rfl] at ha
        cases ha
    refine loadChild (hA.held.known p (by simp)) ?_
    rw [hA1.hole.2.1]
    show Until W.solo X (Prog.bind (Prog.bind (isRed U.ptr) _) _) h1
    rw [Prog.bind_assoc]
    refine isRed_spec hA1 (fun a ha => ?_) fun h2 b hA2 hf2 hred2 hblack2 => ?_
    · exact hA.known a (.inr (by simp [Ctx.addrs, PtrTree.mem_of_ptr ha]))
    have hcol : W.exact → h2.color = h1.color := fun he => hf2.exact he
    have hr2 : W.Room h2 (⟨p, d, U⟩ :: c) := by
      intro he
      rw [hcol he, hf1.exact he]
      exact hr he
    cases b with
    | true =>
      obtain ⟨w, hwp, hwr⟩ := hred2 rfl
      obtain ⟨N, F, rfl⟩ := PtrTree.eq_mk_of_ptr d hwp
      rw [hwp]
      show Until W.solo X (Prog.bind (Prog.bind (deleteCase1 p (Ctx.path c) w d) _) _) h2
      rw [Prog.bind_assoc]
      refine deleteCase1_spec hA2 hE (fun he => ?_) fun h3 hA3 hcol3 => ?_
      · have := hr2 he
        simp only [List.length_cons] at this
        omega
      · have hL' : (Ctx.plug t (⟨p, d, N⟩ :: ⟨w, d, F⟩ :: c)).addrs = L := by
          rw [← hL]
          exact Ctx.addrs_plug_congr (PtrTree.addrs_rotate _ _ _ _ _ _).symm c
        have hfit : W.exact → ∃ n, Short h2.color t n ∧
            Fit h2.color (⟨p, d, .mk w d N F⟩ :: c) (n + 1) := by
          intro he
          rw [hcol he]
          exact hS1 he
        refine ih _ ?_ hA3 ?_ (fun he => ?_) (fun he => .inr ⟨?_, ?_⟩) hL' rfl
        · have hlen := (PtrTree.addrs_mk_perm w d N F).length_eq
          simp only [List.length_cons, List.length_append] at hlen
          simp only [weight, List.map_cons, List.sum_cons] at hw ⊢
          omega
        · rw [Outside, hL', ← hL]
          exact hE
        · obtain ⟨n, h1, h2⟩ := hfit he
          rw [hcol3]
          exact ⟨n, delete_red_sibling hA2.apart h1 h2 (hwr he)⟩
        · -- the parent of a red sibling is black, or the root
          obtain ⟨n, -, -, hroot | ⟨hpb, -⟩ | ⟨-, hd, -⟩⟩ := hfit he
          · simp [hroot]
          · have := hr2 he
            simp only [List.head?_cons, Option.mem_def, Option.some.injEq, forall_eq',
              hpb, List.length_cons, reduceCtorEq, and_false, or_false] at this ⊢
            omega
          · rw [dark_mk, hwr he] at hd
            cases hd
        · intro f hf
          cases hf
          rw [hcol3]
          exact Function.update_self _ _ _
    | false =>
      have hout := deleteBlackSibling_spec hA2 hE hr2 (fun he => by rw [hcol he]; exact hb he)
        (hblack2 rfl) hL (Nat.le_of_eq hw) after
      cases hUp : U.ptr with
      | none => rwa [hUp] at hout
      | some w => rwa [hUp] at hout

end Writer

end MpmcMap.Ordered
