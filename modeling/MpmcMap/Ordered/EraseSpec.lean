import MpmcMap.Ordered.DeleteSpec

/-!
# Removal

`erase_node` from the verification of the root to the release of its lock: a target with at most one
child is unlinked, a target with two children is replaced by its successor.
-/

namespace MpmcMap.Ordered

open Conc RedBlack Maps

variable {Addr Key : Type} [DecidableEq Addr]

namespace Writer

variable {W : Writer Addr Key} {α : Type} {X : Code Addr Key α → Heap Addr Key → Prop}
  {h : Heap Addr Key} {t l r u : PtrTree Addr} {c e : Ctx Addr} {S : List Addr} {f : Frame Addr}
  {target succ cur a b : Addr} {d : Side}

/-! ## The successor -/

/-- The descent to the successor: to the left as far as possible. -/
theorem successor_spec {kont : Addr × List Addr ⊕ List Addr → Code Addr Key α} (hs : Small Addr)
    (hA : W.At h t (e ++ f :: c) (cur :: Ctx.path (e ++ f :: c))) (ht : t.ptr = some cur)
    (hcol : W.Colored h (Ctx.plug t (e ++ f :: c))) (he : ∀ g ∈ e, g.side = .left)
    (hk : ∀ h' succ sr e', W.At h' (.node succ .nil sr) (e' ++ f :: c)
        (succ :: Ctx.path (e' ++ f :: c)) → h'.color = h.color → (∀ g ∈ e', g.side = .left) →
      Ctx.plug (.node succ .nil sr) (e' ++ f :: c) = Ctx.plug t (e ++ f :: c) →
      Until W.solo X (kont (.inl (succ, Ctx.path e'))) h')
    (hfull : ∀ h' ext, ¬ W.exact → W.full →
      W.Ready h' (Ctx.plug t (e ++ f :: c)) (ext ++ Ctx.path (f :: c)) →
      Until W.solo X (kont (.inr ext)) h') :
    Until W.solo X (.loop (successorStep (Ctx.path (f :: c)).length) (cur, Ctx.path e) kont) h := by
  -- induction on the tree: each turn goes to its left subtree and locks one more frame
  induction t generalizing h cur e with
  | nil => cases ht
  | node a l r ih _ =>
    cases ht
    have hak : W.known a := hA.held.known a (by simp)
    obtain ⟨hl, hr, hfl, hfr⟩ := hA.fits
    refine .loop (loadChild hak ?_)
    rw [hl]
    cases hlp : l.ptr with
    | none =>
      obtain rfl := PtrTree.eq_nil_of_ptr hlp
      exact hk h a r e hA rfl he rfl
    | some next =>
      have hup : W.At h l (⟨a, .left, r⟩ :: (e ++ f :: c)) (a :: Ctx.path (e ++ f :: c)) :=
        At.up.mpr hA
      have hnext : next ∈ l.addrs := PtrTree.mem_of_ptr hlp
      -- as in `lock_path`, the stack has room in a sound tree
      have hlen : W.exact → e.length + (c.length + 1) + ((PtrTree.node a l r).depth) ≤ 128 := by
        intro hex
        have := hA.path_le hs hcol hex
        simpa using this
      show Until W.solo X (Prog.bind (if MAX_HEIGHT ≤ (a :: Ctx.path e).length +
        (Ctx.path (f :: c)).length then _ else _) _) h
      by_cases hful : MAX_HEIGHT ≤ (a :: Ctx.path e).length + (Ctx.path (f :: c)).length
      · rw [if_pos hful]
        have hne : ¬ W.exact := by
          intro hex
          have := hlen hex
          simp only [List.length_cons, List.length_map, MAX_HEIGHT] at hful
          omega
        refine pathFull hne fun hf => hfull h _ hne hf ?_
        have hR := At.ready_node hA rfl hcol
        simpa using hR
      · rw [if_neg hful]
        refine loadChild hak ?_
        rw [hl, hlp]
        have hnk : W.known next := hup.known next (.inl hnext)
        refine lock hnk (fun ha => hup.held.only ha next (hup.not_mem_path hnext)) ?_
        refine writePath (fun hex => ?_) ?_
        · have := hlen hex
          simp only [List.length_cons, List.length_map, MAX_HEIGHT, PtrTree.depth] at this ⊢
          omega
        refine ih (e := ⟨a, .left, r⟩ :: e) (hup.lock hnk) hlp hcol ?_ hk hfull
        intro g hg
        rcases List.mem_cons.mp hg with rfl | hg
        · rfl
        · exact he g hg

/-! ## Two children -/

/-- The successor takes the place of the target, with the target's subtrees. -/
theorem At.relink (hA : W.At h u (⟨target, .right, l⟩ :: c) S) (hk : W.known succ)
    (hu : succ ∉ u.addrs) (hc : succ ∉ Ctx.addrs (⟨target, .right, l⟩ :: c)) :
    W.At (((h.fill c (some succ)).setChild succ .left l.ptr).setChild succ .right u.ptr)
      (.node succ l u) c S := by
  have hn := Ctx.apart_def.mp hA.apart
  simp only [Ctx.addrs, List.mem_cons, List.mem_append, not_or] at hc
  obtain ⟨hst, hsl, hsc⟩ := hc
  have hup := At.up.mp hA
  obtain ⟨-, -, hfl, hfu⟩ := hup.fits
  have hapart := Ctx.apart_def.mp hup.apart
  simp only [PtrTree.mk, PtrTree.addrs, List.mem_append, List.mem_cons] at hapart hfl hfu
  -- outside the frames only the successor is written
  have hne : ∀ {a}, a ≠ succ → a ∉ Ctx.addrs c →
      (((h.fill c (some succ)).setChild succ .left l.ptr).setChild succ .right u.ptr).child a
        = h.child a := by
    intro a ha hac
    funext d
    rw [Heap.setChild_ne _ _ _ _ ha, Heap.setChild_ne _ _ _ _ ha, Heap.child_fill hac]
  have hnc : ∀ {a}, a ∈ Ctx.addrs c → a ≠ succ := fun ha he => hsc (he ▸ ha)
  refine ⟨⟨?_, ?_, ?_, ?_⟩, ?_, ?_, ⟨?_, ?_, ?_⟩, ?_, ?_, ?_, ?_, ?_⟩
  · exact (Heap.setChild_of_flip _ succ .left _).trans (Heap.setChild_same _ _ _ _)
  · exact Heap.setChild_same _ _ _ _
  · exact hfl.congr fun a ha => hne (fun he => hsl (he ▸ ha)) (hapart.2.2 a (.inl ha))
  · exact hfu.congr fun a ha => hne (fun he => hu (he ▸ ha)) (hapart.2.2 a (.inr (.inr ha)))
  · refine (Heap.hole_fill (v := some succ) hup.hole hapart.2.1).congr rfl fun a ha => ?_
    funext d
    rw [Heap.setChild_ne _ _ _ _ (hnc ha), Heap.setChild_ne _ _ _ _ (hnc ha)]
  · rw [Ctx.apart_def]
    simp only [PtrTree.addrs, List.mem_append, List.mem_cons]
    grind [Ctx.addrs]
  · exact hA.held.known
  · simpa using hA.held.mem
  · simpa using hA.held.only
  · intro a ha
    simp only [PtrTree.addrs, List.mem_append, List.mem_cons] at ha
    rcases ha with (ha | rfl | ha) | ha
    · exact hup.known a (.inl (by simp [PtrTree.mk, PtrTree.addrs, ha]))
    · exact hk
    · exact hA.known a (.inl ha)
    · exact hup.known a (.inr ha)
  all_goals simp [hA.key, hA.count, hA.retired, hA.freed, Heap.setChild]

/-! ## After the node is unlinked -/

/-- What follows `fixup_delete` in `erase_node`, the locks `E` being held. -/
def eraseRest (target : Addr) (kont : Unit → Code Addr Key α) (E path : List Addr) :
    Code Addr Key α :=
  (unlockPath E).bind fun _ => (finishErase target path).bind kont

/-- The ends of the section of `erase_node` once the tree has the nodes `L` in order. -/
structure Closing (W : Writer Addr Key) (X : Code Addr Key α → Heap Addr Key → Prop)
    (target : Addr) (L : List Addr) (kont : Unit → Code Addr Key α) : Prop where
  /-- The tree is balanced. -/
  done : ∀ h t r, W.At h t [] [r] → h.root = some r → W.Colored h t → Dark h.color t →
    t.addrs = L →
    X (.act (.unlock r) fun _ => .act (.retire target) fun _ => .act .subCount kont) h
  /-- `fixup_delete` climbs beyond the root. -/
  climbed : ∀ h t p d E, W.At h t [] (p :: E) → t.ptr = some p → W.Colored h t → t.addrs = L →
    (E = [] ∨ E = [target]) →
    X (.act (.unlock p) fun _ => .loop fixupDeleteStep ([], some p, d) (eraseRest target kont E)) h

/-- The release of locks outside the tree. -/
theorem unlockOutside_spec {kont : Unit → Code Addr Key α} (hA : W.At h t c (S ++ E))
    (hE : Outside E t c) (hS : ∀ a ∈ S, a ∉ E) (hn : E.Nodup)
    (hk : ∀ h', W.At h' t c S → h'.color = h.color → Until W.solo X (kont ()) h') :
    Until W.solo X ((unlockPath E).bind kont) h := by
  induction E generalizing h with
  | nil => exact hk h (by simpa using hA) rfl
  | cons a E ih =>
    obtain ⟨ha, hn'⟩ := List.nodup_cons.mp hn
    have hA1 : W.At h t c (a :: (S ++ E)) := hA.perm (by simp; tauto)
    have hat := hE a List.mem_cons_self
    refine unlock (hA1.held.known a (by simp)) (hA1.held.mem a (by simp)) ?_ ?_
    · rw [hA.root_eq]
      exact fun he => hat (PtrTree.mem_of_ptr he)
    · have haS : a ∉ S ++ E := by
        rw [List.mem_append, not_or]
        exact ⟨fun h => hS a h List.mem_cons_self, ha⟩
      refine ih (hA1.unlock haS) (fun b hb => hE b (List.mem_cons_of_mem _ hb)) ?_ hn' hk
      exact fun b hb h => hS b hb (List.mem_cons_of_mem _ h)

/-- The end of `erase_node` when the root is still locked. -/
theorem eraseRest_spec {kont : Unit → Code Addr Key α} {L : List Addr}
    (hA : W.At h t (f :: c) (Ctx.path (f :: c) ++ E)) (hE : Outside E t (f :: c)) (hn : E.Nodup)
    (hcol : W.Colored h (Ctx.plug t (f :: c))) (hL : (Ctx.plug t (f :: c)).addrs = L)
    (hC : W.Closing X target L kont) :
    Until W.solo X (eraseRest target kont E (Ctx.path (f :: c))) h := by
  refine unlockOutside_spec hA hE (fun a ha he => hE a he ?_) hn fun h' hA' hcol' => ?_
  · exact Ctx.mem_plug.mpr (.inr (Ctx.mem_addrs_of_path ha))
  have hcol1 : W.Colored h' (Ctx.plug t (f :: c)) := by
    intro he
    rw [hcol']
    exact hcol he
  show Until W.solo X (Prog.bind (Prog.bind (blackenRoot (Ctx.path (f :: c))) _) _) h'
  rw [Prog.bind_assoc]
  refine blackenRoot_spec (At.ready hA' (List.cons_ne_nil f c) hcol1) fun h2 hR hdark => ?_
  show Until W.solo X (Prog.bind (Prog.bind (unlockPath (Ctx.path (f :: c))) _) _) h2
  rw [Prog.bind_assoc]
  refine unlockPath_spec hR fun h3 r hA3 hr hcol3 => ?_
  refine hC.done h3 _ r hA3 hr (fun he => ?_) ?_ hL
  · rw [hcol3]
    exact hR.colored he
  · rw [hcol3]
    exact hdark

/-- The fixup, if it is needed, and the end of `erase_node`. -/
theorem fixupErase_spec {kont : Unit → Code Addr Key α} {L : List Addr} {x : Color}
    (hA : W.At h t (f :: c) (Ctx.path (f :: c) ++ E)) (hE : Outside E t (f :: c))
    (hE' : E = [] ∨ E = [target]) (hL : (Ctx.plug t (f :: c)).addrs = L)
    (hlen : W.exact → (f :: c).length ≤ 130)
    (hb : x = .BLACK → W.ShortAt h t (f :: c))
    (hr : x = .RED → W.Colored h (Ctx.plug t (f :: c)))
    (hC : W.Closing X target L kont) :
    Until W.solo X ((if x = .BLACK then fixupDelete (Ctx.path (f :: c)) t.ptr f.side
      else .ret (Ctx.path (f :: c))).bind (eraseRest target kont E)) h := by
  have hn : E.Nodup := by
    rcases hE' with rfl | rfl
    · exact List.nodup_nil
    · exact List.nodup_singleton target
  cases x with
  | RED => exact eraseRest_spec hA hE hn (hr rfl) hL hC
  | BLACK =>
    refine fixupDelete_spec hA hE (hb rfl) (fun he => .inl (hlen he)) hL ?_ ?_
    · intro h' t' f' c' hA' hcol' hL'
      refine eraseRest_spec hA' ?_ hn hcol' hL' hC
      rw [Outside, hL', ← hL]
      exact hE
    · intro h' t' p d hA' hp hcol' hL'
      exact hC.climbed h' t' p d E hA' hp hcol' hL' hE'

/-! ## At most one child -/

omit [DecidableEq Addr] in
/-- A node with one subtree in the hole, seen as that subtree with the pointer not yet updated. -/
theorem At.splice (hA : W.At h (.mk a d t .nil) c S) : W.Loose h t c (some a) S := by
  obtain ⟨-, -, ht, -⟩ := PtrTree.fits_mk.mp hA.fits
  have hn := Ctx.apart_def.mp hA.apart
  simp only [PtrTree.nodup_mk, PtrTree.mem_addrs_mk] at hn
  exact { hA with
    fits := ht
    hole := by simpa using hA.hole
    apart := Ctx.apart_def.mpr ⟨hn.1.2.2.1, hn.2.1, fun b hb => hn.2.2 b (.inr (.inl hb))⟩
    known := fun b hb => hA.known b (hb.imp_left fun hb => by simp [hb]) }

/-- `erase_node` of a node with at most one child, below the root. -/
theorem eraseSimple_spec {kont : Unit → Code Addr Key α} (hs : Small Addr)
    (hA : W.At h (.mk target d t .nil) (f :: c) (target :: Ctx.path (f :: c)))
    (hcol : W.Colored h (Ctx.plug (.mk target d t .nil) (f :: c)))
    (hC : W.Closing X target (Ctx.plug t (f :: c)).addrs kont) :
    Until W.solo X ((eraseSimple target (Ctx.path (f :: c)) t.ptr).bind kont) h := by
  have hn := Ctx.apart_def.mp hA.apart
  simp only [PtrTree.nodup_mk, PtrTree.mem_addrs_mk] at hn
  have htc : target ∉ Ctx.addrs (f :: c) := hn.2.2 target (.inl rfl)
  have htp : target ∉ Ctx.path (f :: c) := fun h => htc (Ctx.mem_addrs_of_path h)
  have htt : target ∉ (Ctx.plug t (f :: c)).addrs := by
    rw [Ctx.mem_plug, not_or]
    exact ⟨hn.1.1, htc⟩
  have hk : W.known target := hA.known target (.inl (by simp))
  show Until W.solo X (Prog.bind (Prog.bind (sideIn f.addr target) _) kont) h
  rw [Prog.bind_assoc]
  refine sideIn_spec hA.splice htc ?_
  show Until W.solo X (Prog.bind (Prog.bind (replaceChild (Ctx.path (f :: c)) target t.ptr) _) _) h
  rw [Prog.bind_assoc]
  refine replaceChild_spec hA.splice (by simp) htc (by simp) fun h1 hA1 hcol1 => ?_
  refine unlock hk (hA1.held.mem target (by simp)) ?_ ?_
  · rw [hA1.root_eq]
    exact fun he => htt (PtrTree.mem_of_ptr he)
  -- the color of the unlinked node decides whether a black node is missing
  refine readColor_spec (hA1.unlock htp) hk fun h2 x hA2 hf hx _ => ?_
  have hsplice : W.exact → _ := fun he => Sound.splice (hcol he)
  have hcol2 : W.exact → h2.color = h.color := fun he => (hf.exact he).trans hcol1
  show Until W.solo X (Prog.bind (Prog.bind (if x = .BLACK then _ else _) _) kont) h2
  rw [Prog.bind_assoc]
  refine fixupErase_spec (E := []) (x := x) ?_ ?_ (.inl rfl) rfl ?_ ?_ ?_ hC
  · simpa using hA2
  · intro a ha
    cases ha
  · intro he
    have := hA.path_le hs hcol he
    omega
  · intro hb he
    rw [hcol2 he]
    refine (hsplice he).1 ?_
    rw [← hcol2 he, ← hx, hb]
  · intro hr he
    rw [hcol2 he]
    obtain ⟨n, hb, hd, hfit⟩ := (hsplice he).2 (by rw [← hcol2 he, ← hx, hr])
    exact hfit.sound hb (.inl hd)

/-- The side of the successor below its parent, or below the target. -/
def succSide (e : Ctx Addr) : Side :=
  match e with
  | [] => .right
  | _ :: _ => .left

omit [DecidableEq Addr] in
/-- The frame nearest to the successor's place. -/
theorem exists_frame (he : ∀ g ∈ e, g.side = .left) (b : Addr) :
    ∃ g gs, e ++ ⟨b, .right, l⟩ :: c = g :: gs ∧ g.side = succSide e := by
  cases e with
  | nil => exact ⟨_, _, rfl, rfl⟩
  | cons g e => exact ⟨g, _, rfl, he g List.mem_cons_self⟩

omit [DecidableEq Addr] in
/-- The locks held while the target and the successor change places. -/
theorem relink_locks (e c : Ctx Addr) (l : PtrTree Addr) (target succ : Addr) : ∀ a,
    a ∈ Ctx.path (e ++ ⟨succ, .right, l⟩ :: c) ++ [target] ↔
      a ∈ succ :: Ctx.path (e ++ ⟨target, .right, l⟩ :: c) := by
  intro a
  simp only [Ctx.path, List.map_append, List.map_cons, List.mem_append, List.mem_cons]
  tauto

/-- The pointer to the successor is replaced by its right child. -/
theorem unlinkSuccessor_spec {kont : Side → Code Addr Key α}
    (hA : W.Loose h r (e ++ ⟨target, .right, l⟩ :: c) (some succ) S)
    (he : ∀ g ∈ e, g.side = .left) (hS : ∀ a ∈ Ctx.path (e ++ ⟨target, .right, l⟩ :: c), a ∈ S)
    (hk : ∀ h', W.At h' r (e ++ ⟨target, .right, l⟩ :: c) S → h'.color = h.color →
      Until W.solo X (kont (succSide e)) h') :
    Until W.solo X ((unlinkSuccessor target r.ptr (Ctx.path e)).bind kont) h := by
  have hfill := hk _ hA.fill (by simp)
  cases e with
  | nil =>
    have ht := hS target (by simp)
    exact storeChild (hA.held.known target ht) (hA.held.mem target ht) hfill
  | cons g e =>
    have hg := hS g.addr (by simp)
    have hside : g.side = .left := he g List.mem_cons_self
    rw [List.cons_append, Heap.fill, hside] at hfill
    exact storeChild (hA.held.known g.addr hg) (hA.held.mem g.addr hg) hfill

omit [DecidableEq Addr] in
/-- The colors after the successor has taken the target's place and color. -/
theorem relink_colors {κ : Addr → Color} (κ' : Addr → Color)
    (hs : Sound κ (Ctx.plug (.node succ .nil r) (e ++ ⟨target, .right, l⟩ :: c)))
    (hn : Ctx.Apart (.node succ .nil r) (e ++ ⟨target, .right, l⟩ :: c))
    (hb : κ' succ = κ target) (hk : ∀ z, z ≠ succ → κ' z = κ z) :
    (κ succ = .BLACK → ∃ n, Short κ' r n ∧ Fit κ' (e ++ ⟨succ, .right, l⟩ :: c) (n + 1)) ∧
    (κ succ = .RED → Sound κ' (Ctx.plug r (e ++ ⟨succ, .right, l⟩ :: c))) := by
  rw [Ctx.apart_def] at hn
  simp only [PtrTree.addrs, List.nil_append, List.nodup_cons, List.mem_cons] at hn
  obtain ⟨⟨hsr, -⟩, hn, hdis⟩ := hn
  have hsc := hdis succ (.inl rfl)
  have hr : ∀ z ∈ r.addrs, κ' z = κ z := fun z hz => hk z fun he => hsr (he ▸ hz)
  have hfit : ∀ n, Fit κ (e ++ ⟨target, .right, l⟩ :: c) n →
      Fit κ' (e ++ ⟨succ, .right, l⟩ :: c) n := fun n h =>
    h.rename hb (fun z hz _ => hk z fun he => hsc (he ▸ hz)) hn
  have hne : e ++ ⟨target, .right, l⟩ :: c ≠ [] := by simp
  obtain ⟨n, hbal, hf, -⟩ := hs.split hne
  constructor
  · intro hblack
    rcases hbal with ⟨-, m, rfl, -, ht⟩ | ⟨hred, -⟩
    · exact ⟨m, ht.short.congr hr, hfit _ hf⟩
    · rw [hblack] at hred
      cases hred
  · intro hred
    rcases hbal with ⟨hblack, -⟩ | ⟨-, -, hd, -, ht⟩
    · rw [hred] at hblack
      cases hblack
    · exact (hfit _ hf).sound (ht.congr hr) (.inl (hd.congr hr))

/-- `erase_node` of a node with two children, once the successor is locked. -/
theorem eraseRelink_spec {kont : Unit → Code Addr Key α} {left right : Addr} (hs : Small Addr)
    (hA : W.At h (.node succ .nil r) (e ++ ⟨target, .right, l⟩ :: c)
      (succ :: Ctx.path (e ++ ⟨target, .right, l⟩ :: c)))
    (hcol : W.Colored h (Ctx.plug (.node succ .nil r) (e ++ ⟨target, .right, l⟩ :: c)))
    (he : ∀ g ∈ e, g.side = .left) (hl : l.ptr = some left)
    (hr : (Ctx.plug (.node succ .nil r) e).ptr = some right)
    (hC : W.Closing X target (Ctx.plug r (e ++ ⟨succ, .right, l⟩ :: c)).addrs kont) :
    Until W.solo X ((eraseRelink target (Ctx.path c) left right succ (Ctx.path e)).bind kont)
      h := by
  have hn := Ctx.apart_def.mp hA.apart
  simp only [PtrTree.addrs, List.nil_append, List.nodup_cons, List.mem_cons] at hn
  obtain ⟨⟨hsr, -⟩, hnfs, hdis⟩ := hn
  have hsfs := hdis succ (.inl rfl)
  have hsk : W.known succ := hA.known succ (.inl (by simp [PtrTree.addrs]))
  have htk : W.known target := hA.held.known target (by simp)
  -- the right child and the color of the successor
  refine loadChild hsk ?_
  rw [hA.fits.2.1]
  refine readColor_spec hA hsk fun h1 x hA1 hf1 hx _ => ?_
  show Until W.solo X (Prog.bind (Prog.bind (unlinkSuccessor target r.ptr (Ctx.path e)) _) kont) h1
  rw [Prog.bind_assoc]
  refine unlinkSuccessor_spec (At.splice (d := .right) hA1) he
    (fun a ha => List.mem_cons_of_mem _ ha) fun h2 hA2 hcol2 => ?_
  -- the target's place
  have hA3 := At.append.mp hA2
  have happ := Ctx.apart_def.mp hA3.apart
  simp only [Ctx.addrs, List.nodup_cons, List.mem_cons, List.mem_append, not_or] at happ
  obtain ⟨-, ⟨⟨htl, htc⟩, -⟩, hdis3⟩ := happ
  have hsu : succ ∉ (Ctx.plug r e).addrs := by
    rw [Ctx.mem_plug, not_or]
    refine ⟨hsr, fun hse => hsfs ?_⟩
    rw [Ctx.addrs_append]
    exact List.mem_append_left _ hse
  have hsc : succ ∉ Ctx.addrs (⟨target, .right, l⟩ :: c) := by
    intro h
    rw [Ctx.addrs_append] at hsfs
    exact hsfs (List.mem_append_right _ h)
  show Until W.solo X
    (Prog.bind (Prog.bind (replaceChild (Ctx.path c) target (some succ)) _) kont) h2
  rw [Prog.bind_assoc]
  refine replaceChild_fill (fun g hg => ?_) (At.up.mp hA3).hole htc
    (fun _ => ⟨succ, rfl, hA2.held.mem succ (by simp)⟩) ?_
  · have hgm : g.addr ∈ succ :: Ctx.path (e ++ ⟨target, .right, l⟩ :: c) := by
      simp [head_mem_path hg]
    exact ⟨hA2.held.known _ hgm, hA2.held.mem _ hgm⟩
  have hsl : h2.locked succ = some W.tid := hA2.held.mem succ (by simp)
  refine storeChild hsk (by simpa using hsl) ?_
  refine storeChild hsk (by simpa using hsl) ?_
  have hptr : (if succ = right then r.ptr else some right) = (Ctx.plug r e).ptr := by
    cases e with
    | nil =>
      obtain rfl := Option.some.inj hr
      exact if_pos rfl
    | cons g e =>
      have hne : g :: e ≠ [] := List.cons_ne_nil g e
      have hlast := Ctx.ptr_plug r hne
      rw [← Ctx.ptr_plug (.node succ .nil r) hne, hr] at hlast
      rw [hlast, if_neg]
      rintro rfl
      exact hsu (PtrTree.mem_of_ptr hlast)
  rw [hptr, ← hl]
  have hA4 := At.relink hA3 hsk hsu hsc
  refine readColor_spec hA4 htk fun h5 y hA5 hf5 hy _ => ?_
  refine storeColor hsk ?_
  have htt : target ∉ (PtrTree.node succ l (Ctx.plug r e)).addrs := by
    have hst : target ≠ succ := fun he => hsc (he ▸ List.mem_cons_self)
    have htu : target ∉ (Ctx.plug r e).addrs := fun h => (hdis3 target h).1 rfl
    simp [PtrTree.addrs, htl, hst, htu]
  have hA6 := ((hA5.setColor succ y).setChild_outside (d := .left) htt htc none).setChild_outside
    (d := .right) htt htc none
  have htS : h5.locked target = some W.tid := hA5.held.mem target (by simp)
  refine storeChild htk (by simpa using htS) ?_
  refine storeChild htk (by simpa using htS) ?_
  refine writePath (fun hex => ?_) ?_
  · have := hA.path_le hs hcol hex
    simp only [List.length_append, List.length_cons, List.length_map, MAX_HEIGHT] at this ⊢
    omega
  -- the path now leads through the successor
  have hA7 : W.At _ (Ctx.plug r e) (⟨succ, .right, l⟩ :: c) _ := At.up.mpr hA6
  have hA8 : W.At _ r (e ++ ⟨succ, .right, l⟩ :: c) _ := At.append.mpr hA7
  obtain ⟨hblack, hred⟩ : (x = .BLACK → W.ShortAt (h5.setColor succ y) r
        (e ++ ⟨succ, .right, l⟩ :: c)) ∧
      (x = .RED → W.Colored (h5.setColor succ y) (Ctx.plug r (e ++ ⟨succ, .right, l⟩ :: c))) := by
    have hcolor : W.exact → h5.color = h.color := by
      intro hex
      rw [hf5.exact hex, ← hf1.exact hex, ← hcol2]
      simp
    have hcolors : W.exact → _ := fun hex =>
      relink_colors (h5.setColor succ y).color (hcol hex) hA.apart
        (by rw [Heap.setColor_same, hy, hcolor hex])
        fun z hz => by rw [Heap.setColor_ne _ _ hz, hcolor hex]
    have hxs : W.exact → h.color succ = x := fun hex => by rw [hx, hf1.exact hex]
    exact ⟨fun hb hex => (hcolors hex).1 ((hxs hex).trans hb),
      fun hr hex => (hcolors hex).2 ((hxs hex).trans hr)⟩
  have hout : Outside [target] r (e ++ ⟨succ, .right, l⟩ :: c) := by
    intro a ha
    rw [List.mem_singleton.mp ha, Ctx.plug_append, Ctx.plug, Ctx.mem_plug, not_or]
    exact ⟨htt, htc⟩
  have hlen : W.exact → (e ++ ⟨succ, .right, l⟩ :: c).length ≤ 130 := by
    intro hex
    have := hA.path_le hs hcol hex
    simp only [List.length_append, List.length_cons] at this ⊢
    omega
  have hlocks := relink_locks e c l target succ
  obtain ⟨g, gs, hg, hside⟩ := exists_frame (c := c) (l := l) he succ
  have hpath : Ctx.path e ++ succ :: Ctx.path c = Ctx.path (g :: gs) := by simp [← hg]
  rw [hpath, ← hside]
  rw [hg] at hA8 hblack hred hC hout hlen hlocks
  show Until W.solo X (Prog.bind (Prog.bind (if x = .BLACK then _ else _) _) kont) _
  rw [Prog.bind_assoc]
  exact fixupErase_spec (hA8.perm hlocks) hout (.inr rfl) rfl hlen hblack hred hC

/-! ## The section -/

/-- What follows `lock_path` in `erase_node`. -/
def eraseKont (cmp : Key → Key → Bool) (k : Key) (r : LockResult Addr) : Code Addr Key Bool :=
  (eraseLocked r).bind (Sum.elim (fun _ => eraseNode cmp k) .ret)

/-- What follows the store to `root_` when the root is unlinked. -/
def eraseRootRest (target : Addr) (child : Option Addr) (kont : Unit → Code Addr Key α) :
    Code Addr Key α :=
  .act (.unlock target) fun _ => .act (.loadColor target) fun c =>
    ((if c = .BLACK then fixupDelete [] child .right else .ret []).bind (finishErase target)).bind
      kont

/-- The section is about to end, with the tree `t` or with the node of key `k` taken out of it. -/
inductive EraseExit (W : Writer Addr Key) (cmp : Key → Key → Bool) (k : Key) (t : PtrTree Addr) :
    Code Addr Key Bool → Heap Addr Key → Prop where
  /-- The key is absent. -/
  | absent {h : Heap Addr Key} {r : Addr} :
      W.At h t [] [r] → h.root = some r → h.color = W.start.color →
      (∀ a ∈ t.addrs, cmp (h.key a) k = true ∨ cmp k (h.key a) = true) →
      EraseExit W cmp k t (.act (.unlock r) fun _ => .ret false) h
  /-- The node is unlinked and the tree balanced. -/
  | done {h : Heap Addr Key} {t' : PtrTree Addr} {r target : Addr} {A B : List Addr} :
      W.At h t' [] [r] → h.root = some r → W.Colored h t' → Dark h.color t' →
      t.addrs = A ++ target :: B → t'.addrs = A ++ B →
      cmp k (h.key target) = false → cmp (h.key target) k = false →
      EraseExit W cmp k t
        (.act (.unlock r) fun _ => .act (.retire target) fun _ => .act .subCount fun _ => .ret true)
        h
  /-- The node is unlinked; the fixup goes on without the root's lock. -/
  | climbed {h : Heap Addr Key} {t' : PtrTree Addr} {p target : Addr} {d : Side} {A B E : List Addr} :
      W.At h t' [] (p :: E) → t'.ptr = some p → W.Colored h t' → (E = [] ∨ E = [target]) →
      t.addrs = A ++ target :: B → t'.addrs = A ++ B →
      cmp k (h.key target) = false → cmp (h.key target) k = false →
      EraseExit W cmp k t
        (.act (.unlock p) fun _ =>
          .loop fixupDeleteStep ([], some p, d) (eraseRest target (fun _ => .ret true) E))
        h
  /-- The node is the root; it is about to be unlinked. -/
  | root {h : Heap Addr Key} {t' : PtrTree Addr} {target : Addr} {d : Side} :
      t = .mk target d t' .nil → W.At h t [] [target] → h.color = W.start.color →
      cmp k (h.key target) = false → cmp (h.key target) k = false →
      EraseExit W cmp k t
        (.act (.storeRoot t'.ptr) fun _ => eraseRootRest target t'.ptr fun _ => .ret true) h
  /-- The path stack is full. -/
  | full {h : Heap Addr Key} {r : Addr} {q : Code Addr Key Bool} :
      W.At h t [] [r] → h.root = some r → ¬ W.exact → W.full →
      EraseExit W cmp k t (.act (.unlock r) fun _ => q) h

/-- The ends of the section lead to its exits. -/
theorem closing_exit {cmp : Key → Key → Bool} {k : Key} {A B : List Addr}
    (hL : t.addrs = A ++ target :: B) (h1 : cmp k (W.start.key target) = false)
    (h2 : cmp (W.start.key target) k = false) :
    W.Closing (EraseExit W cmp k t) target (A ++ B) fun _ => .ret true := by
  constructor
  · intro h t' r hA hr hcol hd hL'
    exact .done hA hr hcol hd hL hL' (hA.key ▸ h1) (hA.key ▸ h2)
  · intro h t' p d E hA hp hcol hL' hE
    exact .climbed hA hp hcol hE hL hL' (hA.key ▸ h1) (hA.key ▸ h2)

section Found

variable {cmp : Key → Key → Bool} {k : Key} {h' : Heap Addr Key}

/-- The target has at most one child. -/
theorem eraseOne_spec (hs : Small Addr) (hA : W.At h' (.mk target d u .nil) c (target :: Ctx.path c))
    (hcol : W.Colored h' (Ctx.plug (.mk target d u .nil) c)) (hc : h'.color = W.start.color)
    (hplug : Ctx.plug (.mk target d u .nil) c = t) (h1 : cmp k (W.start.key target) = false)
    (h2 : cmp (W.start.key target) k = false) :
    Until W.solo (EraseExit W cmp k t)
      ((eraseSimple target (Ctx.path c) u.ptr).bind fun _ => .ret true) h' := by
  cases c with
  | nil =>
    have hA' : W.At h' t [] [target] := hplug ▸ hA
    exact .stop (EraseExit.root hplug.symm hA' hc (hA.key ▸ h1) (hA.key ▸ h2))
  | cons f c =>
    refine eraseSimple_spec hs hA hcol ?_
    have hL := congrArg PtrTree.addrs hplug
    rw [Ctx.addrs_plug] at hL ⊢
    have hmk : (PtrTree.mk target d u .nil).addrs =
        (match d with | .left => u.addrs ++ [target] | .right => target :: u.addrs) := by
      cases d <;> simp [PtrTree.mk, PtrTree.addrs]
    rw [hmk] at hL
    cases d with
    | left =>
      refine closing_exit (A := Ctx.before (f :: c) ++ u.addrs) ?_ h1 h2
      rw [← hL]
      simp
    | right =>
      rw [List.append_assoc]
      refine closing_exit (A := Ctx.before (f :: c)) ?_ h1 h2
      rw [← hL]
      simp

/-- The target has two children. -/
theorem eraseTwo_spec {left right : Addr} (hs : Small Addr)
    (hA : W.At h' (.node target l r) c (target :: Ctx.path c))
    (hcol : W.Colored h' (Ctx.plug (.node target l r) c))
    (hl : l.ptr = some left) (hr : r.ptr = some right)
    (hplug : Ctx.plug (.node target l r) c = t) (h1 : cmp k (W.start.key target) = false)
    (h2 : cmp (W.start.key target) k = false) :
    Until W.solo (EraseExit W cmp k t)
      ((eraseTwo target (Ctx.path c) left right).bind
        (Sum.elim (fun _ => eraseNode cmp k) .ret)) h' := by
  have hA1 : W.At h' r (⟨target, .right, l⟩ :: c) (target :: Ctx.path c) := At.up.mpr hA
  have hrm : right ∈ r.addrs := PtrTree.mem_of_ptr hr
  have hrk : W.known right := hA1.known right (.inl hrm)
  have hle : W.exact → (Ctx.path c).length + (PtrTree.node target l r).depth ≤ 128 := by
    intro he
    have := hA.path_le hs hcol he
    simpa using this
  refine writePath (fun he => ?_) ?_
  · have := hle he
    simp only [List.length_cons, MAX_HEIGHT, PtrTree.depth] at this ⊢
    omega
  refine lock hrk (fun ha => hA.held.only ha right (hA1.not_mem_path hrm)) ?_
  refine successor_spec (e := []) hs (hA1.lock hrk) hr hcol (by simp) ?_ ?_
  · intro h2' succ sr e hA2 hcol2 he hplug2
    show Until W.solo _ (Prog.bind (Prog.bind (eraseRelink target (Ctx.path c) left right succ
      (Ctx.path e)) _) _) h2'
    rw [Prog.bind_assoc]
    -- the descent has reached the successor: it takes the place of the target
    rw [List.nil_append, Ctx.plug] at hplug2
    have hsub : Ctx.plug (.node succ .nil sr) e = r := by
      rw [Ctx.plug_append, Ctx.plug] at hplug2
      exact (PtrTree.mk_inj (Ctx.plug_inj hplug2)).2.1
    refine eraseRelink_spec hs hA2 (fun hex => ?_) he hl (hsub ▸ hr) ?_
    · rw [hplug2, hcol2]
      exact hcol hex
    · have hL := congrArg PtrTree.addrs (hplug2.trans hplug)
      rw [Ctx.addrs_plug, Ctx.before_append, Ctx.before_of_left he, Ctx.after_append] at hL ⊢
      simp only [PtrTree.addrs, Ctx.before, Ctx.after, List.nil_append, List.append_nil] at hL ⊢
      have hL' : t.addrs = (Ctx.before c ++ l.addrs) ++
          target :: (succ :: (sr.addrs ++ (Ctx.after e ++ Ctx.after c))) := by
        rw [← hL]
        simp
      have hC := closing_exit hL' h1 h2
      simpa using hC
  · intro h2' ext hne hf hR
    -- the path stack was full: everything is unlocked and the erase starts again
    show Until W.solo _ (Prog.bind (Prog.bind (unlockPath (ext ++ target :: Ctx.path c)) _) _) h2'
    rw [Prog.bind_assoc]
    refine unlockPath_spec hR fun h3 r3 hA3 hr3 _ => ?_
    rw [List.nil_append, Ctx.plug] at hA3
    exact .full (hplug ▸ hA3) hr3 hne hf

end Found

/-- `erase_node` from the verification of the root on. -/
theorem erase_section {cmp : Key → Key → Bool} [StrictWeakOrder cmp] {k : Key}
    (hs : Small Addr) (hA : W.At W.start t [] [cur]) (ht : t.ptr = some cur)
    (hsorted : t.addrs.Pairwise fun a b => cmp (W.start.key a) (W.start.key b) = true)
    (hcol : W.Colored W.start t) :
    Until W.solo (EraseExit W cmp k t)
      (.act (.writePath 0) fun _ => .loop (lockStep cmp k) (cur, []) (eraseKont cmp k))
      W.start := by
  refine writePath (fun _ => by simp [MAX_HEIGHT]) ?_
  refine lockDown_spec hs (c := []) hA ht hsorted hcol ⟨by simp [Ctx.before], by simp [Ctx.after]⟩
    ?_ ?_ ?_
  · intro h' t' c' a hA' ht' hcol' _ hplug h1 h2
    rw [Ctx.plug] at hplug
    have hcolored : W.Colored h' (Ctx.plug t' c') := by
      rw [hplug]
      intro he
      rw [hcol']
      exact hcol he
    -- the key is there: which child the target lacks decides how it is unlinked
    obtain ⟨l, r, rfl⟩ := PtrTree.eq_mk_of_ptr .left ht'
    have hak : W.known a := hA'.known a (.inl (by simp))
    obtain ⟨hl, hr, -, -⟩ := PtrTree.fits_mk.mp hA'.fits
    refine loadChild hak ?_
    refine loadChild hak ?_
    rw [hl, show h'.child a .right = r.ptr from hr]
    cases hlp : l.ptr with
    | none =>
      obtain rfl := PtrTree.eq_nil_of_ptr hlp
      show Until W.solo _ (Prog.bind (Prog.bind (eraseSimple a (Ctx.path c') r.ptr) _) _) h'
      rw [Prog.bind_assoc]
      exact eraseOne_spec (d := .right) hs hA' hcolored hcol' hplug h1 h2
    | some left =>
      cases hrp : r.ptr with
      | none =>
        obtain rfl := PtrTree.eq_nil_of_ptr hrp
        show Until W.solo _ (Prog.bind (Prog.bind (eraseSimple a (Ctx.path c') (some left)) _) _) h'
        rw [Prog.bind_assoc, ← hlp]
        exact eraseOne_spec (d := .left) hs hA' hcolored hcol' hplug h1 h2
      | some right =>
        exact eraseTwo_spec hs hA' hcolored hlp hrp hplug h1 h2
  · intro h' f c' hA' hcol' hchild' hplug hbet
    rw [Ctx.plug] at hplug
    -- the key is absent, and nothing changes
    show Until W.solo _ (Prog.bind (Prog.bind (unlockPath (Ctx.path (f :: c'))) _) _) h'
    rw [Prog.bind_assoc]
    refine unlockPath_spec (At.ready hA' (List.cons_ne_nil f c') ?_) fun h'' r hA'' hr hcol'' => ?_
    · rw [hplug]
      intro he
      rw [hcol']
      exact hcol he
    · refine .absent (hplug ▸ hA'') hr (hcol''.trans hcol') ?_
      rw [← hplug, hA''.key]
      exact hbet.absent
  · intro h' r he hf hA' hr
    exact .full hA' hr he hf

end Writer

end MpmcMap.Ordered
