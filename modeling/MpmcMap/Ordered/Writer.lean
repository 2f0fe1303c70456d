import MpmcMap.Conc.Total
import MpmcMap.Ordered.Engine

/-!
# The holder of the root's lock

What a writer may do between the verification of the root in `lock_path` and the release of the
root's lock, as a program that runs alone: nobody else writes a pointer of the tree in that time.
The same account serves a single thread and a concurrent run. It differs in three points, which a
`Writer` fixes: whether the colors read are those last written (`exact`), whether nobody else takes
locks (`alone`), and whether a path may be found full (`full`). Without `exact`, a color read may be
BLACK at any time, as other threads blacken nodes.
-/

namespace MpmcMap.Ordered

open Conc RedBlack

variable {Addr Key : Type} [DecidableEq Addr]

/-! ## Holes of the heap -/

namespace Heap

/-- Write the pointer in the hole. -/
def fill (h : Heap Addr Key) (c : Ctx Addr) (v : Option Addr) :
    Heap Addr Key :=
  match c with
  | [] => h.setRoot v
  | f :: _ => h.setChild f.addr f.side v

variable {h : Heap Addr Key} {c : Ctx Addr} {v w : Option Addr}

section

variable (h : Heap Addr Key) (c : Ctx Addr) (v : Option Addr)

@[simp] theorem fill_locked : (h.fill c v).locked = h.locked := by cases c <;> rfl
@[simp] theorem fill_color : (h.fill c v).color = h.color := by cases c <;> rfl
@[simp] theorem fill_key : (h.fill c v).key = h.key := by cases c <;> rfl
@[simp] theorem fill_count : (h.fill c v).count = h.count := by cases c <;> rfl
@[simp] theorem fill_retired : (h.fill c v).retired = h.retired := by cases c <;> rfl
@[simp] theorem fill_freed : (h.fill c v).freed = h.freed := by cases c <;> rfl

end

/-- The frames with another pointer in the hole. -/
theorem hole_fill (hc : Ctx.Hole h.root h.child c w) (hn : (Ctx.addrs c).Nodup) :
    Ctx.Hole (h.fill c v).root (h.fill c v).child c v := by
  cases c with
  | nil => rfl
  | cons f c =>
    obtain ⟨-, h2, h3, h4⟩ := hc
    simp only [Ctx.addrs, List.nodup_cons, List.mem_append, not_or] at hn
    refine ⟨Heap.setChild_same _ _ _ _, ?_, h3.congr fun a ha => ?_, h4.congr rfl fun a ha => ?_⟩
    · rw [Heap.fill, Heap.setChild_flip, h2]
    · funext e
      exact Heap.setChild_ne _ _ _ _ fun he => hn.1.1 (he ▸ ha)
    · funext e
      exact Heap.setChild_ne _ _ _ _ fun he => hn.1.2 (he ▸ ha)

/-- Filling a hole changes no node outside the frames. -/
theorem child_fill {a : Addr} (ha : a ∉ Ctx.addrs c) : (h.fill c v).child a = h.child a := by
  cases c with
  | nil => rfl
  | cons f c =>
    funext e
    exact Heap.setChild_ne _ _ _ _ fun he => ha (he ▸ List.mem_cons_self)

end Heap

/-- A critical section: its thread, the nodes it may touch and the heap at its beginning. -/
structure Writer (Addr Key : Type) where
  tid : Nat
  known : Addr → Prop
  start : Heap Addr Key
  exact : Prop
  alone : Prop
  full : Prop
  exact_of_alone : alone → exact

namespace Writer

variable (W : Writer Addr Key)

/-- The actions of the section. Unlocking the root and storing a root that is not locked end it. -/
def solo : Solo (Op Addr Key) (Heap Addr Key) where
  pre e h :=
    match e with
    | .loadRoot => True
    | .storeRoot v => ∃ a, v = some a ∧ h.locked a = some W.tid
    | .loadChild a _ => W.known a
    | .storeChild a _ _ => W.known a ∧ h.locked a = some W.tid
    | .lock a => W.known a ∧ (W.alone → h.locked a = none)
    | .unlock a => W.known a ∧ h.locked a = some W.tid ∧ h.root ≠ some a
    | .loadColor a => W.known a
    | .storeColor a _ | .blackenX a | .blackenTop a => W.known a
    | .loadKey a => W.known a
    | .writePath i => W.exact → i < MAX_HEIGHT
    | .pathFull => ¬ W.exact
    | _ => False
  step e h r h' :=
    match e with
    | .loadRoot => r = h.root ∧ h' = h
    | .storeRoot v => h' = h.setRoot v
    | .loadChild a d => r = h.child a d ∧ h' = h
    | .storeChild a d v => h' = h.setChild a d v
    | .lock a => h' = h.setLocked a (some W.tid)
    | .unlock a => h' = h.setLocked a none
    | .loadColor a => (r = h.color a ∨ (¬ W.exact ∧ r = .BLACK)) ∧ h' = h.setColor a r
    | .storeColor a c => h' = h.setColor a c
    | .blackenX a | .blackenTop a => h' = h.setColor a .BLACK
    | .loadKey a => r = h.key a ∧ h' = h
    | .writePath _ => h' = h
    | .pathFull => W.full ∧ h' = h
    | _ => False

/-! ## One rule for each action -/

section Rules

variable {W} {α : Type} {X : Code Addr Key α → Heap Addr Key → Prop} {h : Heap Addr Key} {a : Addr}
  {d : Side} {v : Option Addr} {c : Color} {i : Nat}

theorem loadRoot {k : Option Addr → Code Addr Key α} (hk : Until W.solo X (k h.root) h) :
    Until W.solo X (.act .loadRoot k) h := by
  refine .act trivial ?_
  rintro r h' ⟨rfl, rfl⟩
  exact hk

/-- A known node may be read. -/
theorem loadChild {k : Option Addr → Code Addr Key α} (ha : W.known a)
    (hk : Until W.solo X (k (h.child a d)) h) : Until W.solo X (.act (.loadChild a d) k) h := by
  refine .act ha ?_
  rintro r h' ⟨rfl, rfl⟩
  exact hk

theorem loadKey {k : Key → Code Addr Key α} (ha : W.known a)
    (hk : Until W.solo X (k (h.key a)) h) : Until W.solo X (.act (.loadKey a) k) h := by
  refine .act ha ?_
  rintro r h' ⟨rfl, rfl⟩
  exact hk

/-- A color that is read may have become BLACK. -/
theorem loadColor {k : Color → Code Addr Key α} (ha : W.known a)
    (hk : ∀ c, (W.exact → c = h.color a) → (h.color a = .BLACK → c = .BLACK) →
      Until W.solo X (k c) (h.setColor a c)) : Until W.solo X (.act (.loadColor a) k) h := by
  refine .act ha ?_
  rintro c h' ⟨hc, rfl⟩
  refine hk c (fun he => ?_) (fun hb => ?_)
  · exact hc.resolve_right fun h => h.1 he
  · exact hc.elim (fun h => h.trans hb) fun h => h.2

/-- The root is written under the lock of the new one. -/
theorem storeRoot {k : Unit → Code Addr Key α} (ha : h.locked a = some W.tid)
    (hk : Until W.solo X (k ()) (h.setRoot (some a))) :
    Until W.solo X (.act (.storeRoot (some a)) k) h := by
  refine .act ⟨a, rfl, ha⟩ ?_
  rintro ⟨⟩ h' rfl
  exact hk

/-- A link is written under the lock of its node. -/
theorem storeChild {k : Unit → Code Addr Key α} (ha : W.known a) (hl : h.locked a = some W.tid)
    (hk : Until W.solo X (k ()) (h.setChild a d v)) :
    Until W.solo X (.act (.storeChild a d v) k) h := by
  refine .act ⟨ha, hl⟩ ?_
  rintro ⟨⟩ h' rfl
  exact hk

theorem storeColor {k : Unit → Code Addr Key α} (ha : W.known a)
    (hk : Until W.solo X (k ()) (h.setColor a c)) :
    Until W.solo X (.act (.storeColor a c) k) h := by
  refine .act ha ?_
  rintro ⟨⟩ h' rfl
  exact hk

theorem blackenX {k : Unit → Code Addr Key α} (ha : W.known a)
    (hk : Until W.solo X (k ()) (h.setColor a .BLACK)) :
    Until W.solo X (.act (.blackenX a) k) h := by
  refine .act ha ?_
  rintro ⟨⟩ h' rfl
  exact hk

theorem blackenTop {k : Unit → Code Addr Key α} (ha : W.known a)
    (hk : Until W.solo X (k ()) (h.setColor a .BLACK)) :
    Until W.solo X (.act (.blackenTop a) k) h := by
  refine .act ha ?_
  rintro ⟨⟩ h' rfl
  exact hk

/-- Where the thread is alone, the node has to be free. -/
theorem lock {k : Unit → Code Addr Key α} (ha : W.known a) (hl : W.alone → h.locked a = none)
    (hk : Until W.solo X (k ()) (h.setLocked a (some W.tid))) :
    Until W.solo X (.act (.lock a) k) h := by
  refine .act ⟨ha, hl⟩ ?_
  rintro ⟨⟩ h' rfl
  exact hk

/-- Only a lock that the thread holds is given back. -/
theorem unlock {k : Unit → Code Addr Key α} (ha : W.known a) (hl : h.locked a = some W.tid)
    (hr : h.root ≠ some a) (hk : Until W.solo X (k ()) (h.setLocked a none)) :
    Until W.solo X (.act (.unlock a) k) h := by
  refine .act ⟨ha, hl, hr⟩ ?_
  rintro ⟨⟩ h' rfl
  exact hk

/-- The path stack is written within its bounds. -/
theorem writePath {k : Unit → Code Addr Key α} (hi : W.exact → i < MAX_HEIGHT)
    (hk : Until W.solo X (k ()) h) : Until W.solo X (.act (.writePath i) k) h := by
  refine .act hi ?_
  rintro ⟨⟩ h' rfl
  exact hk

/-- A full path stack is reported, unless the paths are known to fit. -/
theorem pathFull {k : Unit → Code Addr Key α} (he : ¬ W.exact)
    (hk : W.full → Until W.solo X (k ()) h) : Until W.solo X (.act .pathFull k) h := by
  refine .act he ?_
  rintro ⟨⟩ h' ⟨hf, rfl⟩
  exact hk hf

end Rules

/-! ## Where a writer stands -/

/-- The writer holds the locks `S`. -/
structure Held (h : Heap Addr Key) (S : List Addr) : Prop where
  known : ∀ a ∈ S, W.known a
  mem : ∀ a ∈ S, h.locked a = some W.tid
  only : W.alone → ∀ a, a ∉ S → h.locked a = none

/-- The heap stores the tree `t` and the frames `c` around it, the pointer in whose hole is still
`v`; the writer holds the locks `S`. -/
structure Loose (h : Heap Addr Key) (t : PtrTree Addr) (c : Ctx Addr) (v : Option Addr)
    (S : List Addr) : Prop where
  fits : t.Fits h.child
  hole : Ctx.Hole h.root h.child c v
  apart : Ctx.Apart t c
  held : W.Held h S
  known : ∀ a, a ∈ t.addrs ∨ a ∈ Ctx.addrs c → W.known a
  key : h.key = W.start.key
  count : h.count = W.start.count
  retired : h.retired = W.start.retired
  freed : h.freed = W.start.freed

/-- The heap stores the tree `t` in the frames `c`; the writer holds the locks `S`. -/
abbrev At (h : Heap Addr Key) (t : PtrTree Addr) (c : Ctx Addr) (S : List Addr) : Prop :=
  W.Loose h t c t.ptr S

variable {W} {h : Heap Addr Key} {t u : PtrTree Addr} {c : Ctx Addr} {S S' : List Addr} {a b : Addr}
  {d : Side} {f : Frame Addr} {v : Option Addr}

omit [DecidableEq Addr] in
/-- In which order the nodes are named does not matter. -/
theorem Held.perm (hS : W.Held h S) (hp : ∀ a, a ∈ S' ↔ a ∈ S) : W.Held h S' :=
  ⟨fun a ha => hS.known a ((hp a).mp ha), fun a ha => hS.mem a ((hp a).mp ha), fun hs a ha => hS.only hs a fun h => ha ((hp a).mpr h)⟩

omit [DecidableEq Addr] in
/-- A lock may be forgotten where others take locks too. -/
theorem Held.forget (hS : W.Held h (a :: S)) (he : ¬ W.exact) : W.Held h S where
  known b hb := hS.known b (List.mem_cons_of_mem _ hb)
  mem b hb := hS.mem b (List.mem_cons_of_mem _ hb)
  only ha := absurd (W.exact_of_alone ha) he

/-- A node that is locked is held. -/
theorem Held.lock (hS : W.Held h S) (ha : W.known a) :
    W.Held (h.setLocked a (some W.tid)) (a :: S) := by
  constructor
  · intro b hb
    rcases List.mem_cons.mp hb with rfl | hb
    · exact ha
    · exact hS.known b hb
  · intro b hb
    by_cases hba : b = a
    · rw [hba, Heap.setLocked_same]
    · rw [Heap.setLocked_ne _ _ hba]
      exact hS.mem b ((List.mem_cons.mp hb).resolve_left hba)
  · intro hs b hb
    rw [List.mem_cons, not_or] at hb
    rw [Heap.setLocked_ne _ _ hb.1]
    exact hS.only hs b hb.2

/-- A node that is unlocked is held no more. -/
theorem Held.unlock (hS : W.Held h (a :: S)) (ha : a ∉ S) :
    W.Held (h.setLocked a none) S := by
  constructor
  · exact fun b hb => hS.known b (List.mem_cons_of_mem _ hb)
  · intro b hb
    have hba : b ≠ a := fun he => ha (he ▸ hb)
    rw [Heap.setLocked_ne _ _ hba]
    exact hS.mem b (List.mem_cons_of_mem _ hb)
  · intro hs b hb
    by_cases hba : b = a
    · rw [hba, Heap.setLocked_same]
    · rw [Heap.setLocked_ne _ _ hba]
      exact hS.only hs b fun h => (List.mem_cons.mp h).elim hba hb

namespace At

omit [DecidableEq Addr] in
/-- Look at the subtree of the nearest frame, or back. -/
theorem up : W.At h t (f :: c) S ↔ W.At h (.mk f.addr f.side t f.sib) c S := by
  have hp : (t.Fits h.child ∧ Ctx.Hole h.root h.child (f :: c) t.ptr) ↔
      ((PtrTree.mk f.addr f.side t f.sib).Fits h.child ∧
        Ctx.Hole h.root h.child c (PtrTree.mk f.addr f.side t f.sib).ptr) := by
    rw [← Ctx.fits_plug, ← Ctx.fits_plug, Ctx.plug]
  have hk : (∀ a, a ∈ t.addrs ∨ a ∈ Ctx.addrs (f :: c) → W.known a) ↔
      ∀ a, a ∈ (PtrTree.mk f.addr f.side t f.sib).addrs ∨ a ∈ Ctx.addrs c → W.known a := by
    refine forall_congr' fun a => ?_
    rw [← Ctx.mem_plug, ← Ctx.mem_plug, Ctx.plug]
  constructor
  · intro hA
    obtain ⟨h1, h2⟩ := hp.mp ⟨hA.fits, hA.hole⟩
    exact ⟨h1, h2, Ctx.apart_cons.mp hA.apart, hA.held, hk.mp hA.known, hA.key, hA.count,
      hA.retired, hA.freed⟩
  · intro hA
    obtain ⟨h1, h2⟩ := hp.mpr ⟨hA.fits, hA.hole⟩
    exact ⟨h1, h2, Ctx.apart_cons.mpr hA.apart, hA.held, hk.mpr hA.known, hA.key, hA.count,
      hA.retired, hA.freed⟩

omit [DecidableEq Addr] in
/-- Look at the sibling. -/
theorem across {p : Addr} : W.At h t (⟨p, d, u⟩ :: c) S ↔ W.At h u (⟨p, d.flip, t⟩ :: c) S := by
  rw [up, up]
  simp only [PtrTree.mk_flip]

omit [DecidableEq Addr] in
/-- Look at the whole tree. -/
theorem whole (hA : W.At h t c S) : W.At h (Ctx.plug t c) [] S := by
  induction c generalizing t with
  | nil => exact hA
  | cons f c ih => exact ih (up.mp hA)

omit [DecidableEq Addr] in
/-- Look at the subtree above some of the frames, or back. -/
theorem append {e : Ctx Addr} : W.At h t (e ++ c) S ↔ W.At h (Ctx.plug t e) c S := by
  induction e generalizing t with
  | nil => exact Iff.rfl
  | cons f e ih => exact up.trans ih

omit [DecidableEq Addr] in
/-- What the root points to. -/
theorem root_eq (hA : W.At h t c S) : h.root = (Ctx.plug t c).ptr := hA.whole.hole

omit [DecidableEq Addr] in
/-- A node of the tree in the hole that is not its root is not the root of the whole. -/
theorem root_ne (hA : W.At h t c S) (ha : a ∈ t.addrs) (hne : t.ptr ≠ some a) :
    h.root ≠ some a := by
  intro hr
  cases c with
  | nil => exact hne (hA.hole.symm.trans hr)
  | cons f c =>
    have hlast := hA.hole.root_eq (List.cons_ne_nil f c)
    rw [hr] at hlast
    have hm := Ctx.mem_addrs_of_path (List.mem_of_getLast? hlast.symm)
    exact (Ctx.apart_def.mp hA.apart).2.2 a ha hm

end At

namespace Loose

omit [DecidableEq Addr] in
theorem perm (hA : W.Loose h t c v S) (hp : ∀ a, a ∈ S' ↔ a ∈ S) : W.Loose h t c v S' :=
  { hA with held := hA.held.perm hp }

omit [DecidableEq Addr] in
/-- The nodes below are not on the path. -/
theorem not_mem_path (hA : W.Loose h t c v S) (ha : a ∈ t.addrs) : a ∉ Ctx.path c :=
  fun hp => (Ctx.apart_def.mp hA.apart).2.2 a ha (Ctx.mem_addrs_of_path hp)

omit [DecidableEq Addr] in
theorem nodup_path (hA : W.Loose h t c v S) : (Ctx.path c).Nodup :=
  (Ctx.apart_def.mp hA.apart).2.1.sublist (Ctx.path_sublist c)

theorem setColor (hA : W.Loose h t c v S) (a : Addr) (k : Color) :
    W.Loose (h.setColor a k) t c v S :=
  { hA with held := ⟨hA.held.known, hA.held.mem, hA.held.only⟩ }

theorem lock (hA : W.Loose h t c v S) (ha : W.known a) :
    W.Loose (h.setLocked a (some W.tid)) t c v (a :: S) :=
  { hA with held := hA.held.lock ha }

theorem unlock (hA : W.Loose h t c v (a :: S)) (ha : a ∉ S) :
    W.Loose (h.setLocked a none) t c v S :=
  { hA with held := hA.held.unlock ha }

/-- A pointer of a node outside the tree. -/
theorem setChild_outside (hA : W.Loose h t c v S) (ht : a ∉ t.addrs) (hc : a ∉ Ctx.addrs c)
    (w : Option Addr) : W.Loose (h.setChild a d w) t c v S :=
  { hA with
    fits := hA.fits.congr fun b hb => by
      funext e
      exact Heap.setChild_ne _ _ _ _ fun he => ht (he ▸ hb)
    hole := hA.hole.congr rfl fun b hb => by
      funext e
      exact Heap.setChild_ne _ _ _ _ fun he => hc (he ▸ hb)
    held := ⟨hA.held.known, hA.held.mem, hA.held.only⟩ }

/-- The hole gets the pointer to the tree. -/
theorem fill (hA : W.Loose h t c v S) : W.At (h.fill c t.ptr) t c S where
  fits := hA.fits.congr fun _ ha => Heap.child_fill ((Ctx.apart_def.mp hA.apart).2.2 _ ha)
  hole := Heap.hole_fill hA.hole (Ctx.apart_def.mp hA.apart).2.1
  apart := hA.apart
  held := ⟨hA.held.known, by simpa using hA.held.mem, by simpa using hA.held.only⟩
  known := hA.known
  key := by simpa using hA.key
  count := by simpa using hA.count
  retired := by simpa using hA.retired
  freed := by simpa using hA.freed

end Loose

/-! ## Rotations -/

variable {A B C : PtrTree Addr} {p n : Addr}

/-- `rotate_inner`: `n`, the child of `p` on side `d`, is above `p`, which is still in the hole. -/
theorem At.rotateInner (hA : W.At h (.mk p d (.mk n d A B) C) c S) :
    W.Loose ((h.setChild n d.flip (some p)).setChild p d B.ptr) (.mk n d A (.mk p d B C)) c
      (some p) S := by
  have hn := hA.apart
  rw [Ctx.apart_def] at hn
  simp only [PtrTree.nodup_mk, PtrTree.mem_addrs_mk] at hn
  obtain ⟨h1, h2, hf, h3⟩ := PtrTree.fits_mk.mp hA.fits
  obtain ⟨h4, h5, hfA, hfB⟩ := PtrTree.fits_mk.mp hf
  have hnp : n ≠ p := by grind
  -- only the pointers of the two nodes change
  have hk : ∀ a, a ≠ n → a ≠ p →
      ((h.setChild n d.flip (some p)).setChild p d B.ptr).child a = h.child a := by
    intro a han hap
    funext e
    rw [Heap.setChild_ne _ _ _ _ hap, Heap.setChild_ne _ _ _ _ han]
  have hhole : Ctx.Hole h.root h.child c (some p) := by simpa only [PtrTree.ptr_mk] using hA.hole
  refine ⟨?_, ?_, ?_, ⟨hA.held.known, hA.held.mem, hA.held.only⟩, ?_, hA.key, hA.count, hA.retired, hA.freed⟩
  · rw [PtrTree.fits_mk, PtrTree.fits_mk, Heap.setChild_ne _ _ _ _ hnp, Heap.setChild_ne _ _ _ _ hnp,
      Heap.setChild_same, Heap.setChild_same, Heap.setChild_of_flip, Heap.setChild_flip,
      Heap.setChild_ne _ _ _ _ hnp.symm, ← h2, ← h4]
    refine ⟨rfl, (PtrTree.ptr_mk _ _ _ _).symm, hfA.congr fun a ha => ?_, rfl, rfl,
      hfB.congr fun a ha => ?_, h3.congr fun a ha => ?_⟩
    all_goals apply hk <;> grind
  · refine hhole.congr rfl fun a ha => hk a ?_ ?_ <;> grind
  · rw [Ctx.apart_def]
    simp only [PtrTree.nodup_mk, PtrTree.mem_addrs_mk]
    grind
  · intro a ha
    apply hA.known
    simp only [PtrTree.mem_addrs_mk] at ha ⊢
    tauto

variable {α : Type} {X : Code Addr Key α → Heap Addr Key → Prop} {k : Unit → Code Addr Key α}

/-- A rotation at an inner node. -/
theorem rotateInner_spec (hA : W.At h (.mk p d (.mk n d A B) C) c S) (hp : p ∈ S) (hn : n ∈ S)
    (hk : ∀ h', W.Loose h' (.mk n d A (.mk p d B C)) c (some p) S → h'.color = h.color →
      Until W.solo X (k ()) h') :
    Until W.solo X ((Ordered.rotateInner p n d).bind k) h := by
  obtain ⟨-, -, hf, -⟩ := PtrTree.fits_mk.mp hA.fits
  obtain ⟨-, hnB, -⟩ := PtrTree.fits_mk.mp hf
  have hpk : W.known p := hA.known p (.inl (by simp))
  have hnk : W.known n := hA.known n (.inl (by simp))
  refine loadChild hnk ?_
  rw [hnB]
  refine storeChild hnk (hA.held.mem n hn) ?_
  refine storeChild hpk (hA.held.mem p hp) ?_
  exact hk _ hA.rotateInner rfl

/-- `rewire_child` and the store to `root_` write the pointer in the hole. -/
theorem replaceChild_fill (hl : ∀ f ∈ c.head?, W.known f.addr ∧ h.locked f.addr = some W.tid)
    (hc : Ctx.Hole h.root h.child c (some a)) (ha : a ∉ Ctx.addrs c)
    (hv : c = [] → ∃ n, v = some n ∧ h.locked n = some W.tid)
    (hk : Until W.solo X (k ()) (h.fill c v)) :
    Until W.solo X ((replaceChild (Ctx.path c) a v).bind k) h := by
  cases c with
  | nil =>
    obtain ⟨n, rfl, hn⟩ := hv rfl
    exact storeRoot hn hk
  | cons f c =>
    obtain ⟨hfk, hfl⟩ := hl f rfl
    obtain ⟨h1, h2, -, -⟩ := hc
    have hs : h.child f.addr f.side.flip ≠ some a := by
      rw [h2]
      intro he
      exact ha (List.mem_cons_of_mem _ (List.mem_append_left _ (PtrTree.mem_of_ptr he)))
    rw [Heap.fill] at hk
    refine loadChild hfk ?_
    show Until W.solo X (Prog.bind (if h.child f.addr .left = some a then _ else _) _) h
    cases hd : f.side with
    | left =>
      rw [hd] at h1 hk
      rw [if_pos h1]
      exact storeChild hfk hfl hk
    | right =>
      rw [hd] at hs hk
      rw [if_neg (show h.child f.addr .left ≠ some a from hs)]
      exact storeChild hfk hfl hk

/-- The pointer to `a` becomes the pointer to the tree. -/
theorem replaceChild_spec (hA : W.Loose h t c (some a) S) (hc : ∀ f ∈ c.head?, f.addr ∈ S)
    (ha : a ∉ Ctx.addrs c) (ht : c = [] → ∃ n, t.ptr = some n ∧ n ∈ S)
    (hk : ∀ h', W.At h' t c S → h'.color = h.color → Until W.solo X (k ()) h') :
    Until W.solo X ((replaceChild (Ctx.path c) a t.ptr).bind k) h := by
  refine replaceChild_fill (fun f hf => ?_) hA.hole ha (fun he => ?_) (hk _ hA.fill (by simp))
  · exact ⟨hA.held.known _ (hc f hf), hA.held.mem _ (hc f hf)⟩
  · obtain ⟨n, hn, hnS⟩ := ht he
    exact ⟨n, hn, hA.held.mem n hnS⟩

/-- Which side of its parent the node below the hole is on. -/
theorem sideIn_spec {k : Side → Code Addr Key α} (hA : W.Loose h t (f :: c) (some a) S)
    (ha : a ∉ Ctx.addrs (f :: c)) (hk : Until W.solo X (k f.side) h) :
    Until W.solo X ((sideIn f.addr a).bind k) h := by
  obtain ⟨h1, h2, -, -⟩ := hA.hole
  have hs : h.child f.addr f.side.flip ≠ some a := by
    rw [h2]
    intro he
    exact ha (List.mem_cons_of_mem _ (List.mem_append_left _ (PtrTree.mem_of_ptr he)))
  refine loadChild (hA.known f.addr (.inr List.mem_cons_self)) ?_
  show Until W.solo X (k (if h.child f.addr .left = some a then .left else .right)) h
  cases hd : f.side with
  | left =>
    rw [hd] at h1 hk
    rwa [if_pos h1]
  | right =>
    rw [hd] at hs hk
    rwa [if_neg (show h.child f.addr .left ≠ some a from hs)]

/-- What may happen to the colors while the writer reads them. -/
structure Fade (W : Writer Addr Key) (h h' : Heap Addr Key) : Prop where
  exact : W.exact → h'.color = h.color
  black : ∀ a, h.color a = .BLACK → h'.color a = .BLACK

/-- Reading a color fixes it, until others may have written it again. -/
theorem readColor_spec {k : Color → Code Addr Key α} (hA : W.At h t c S) (ha : W.known a)
    (hk : ∀ h' x, W.At h' t c S → W.Fade h h' → x = h'.color a →
      (h.color a = .BLACK → x = .BLACK) → Until W.solo X (k x) h') :
    Until W.solo X (.act (.loadColor a) k) h := by
  refine loadColor ha fun x hx hb => hk _ x (hA.setColor a x) ⟨fun he => ?_, fun y hy => ?_⟩
    (Heap.setColor_same _ _ _).symm hb
  · rw [hx he]
    exact Function.update_eq_self a h.color
  · by_cases hya : y = a
    · rw [hya, Heap.setColor_same]
      exact hb (hya ▸ hy)
    · rwa [Heap.setColor_ne _ _ hya]

/-- A test of the color of a child. -/
theorem isRed_spec {k : Bool → Code Addr Key α} {w : Option Addr} (hA : W.At h t c S)
    (hw : ∀ a, w = some a → W.known a)
    (hk : ∀ h' b, W.At h' t c S → W.Fade h h' →
      (b = true → ∃ a, w = some a ∧ (W.exact → h'.color a = .RED)) →
      (b = false → ∀ a, w = some a → h'.color a = .BLACK) →
      Until W.solo X (k b) h') :
    Until W.solo X ((isRed w).bind k) h := by
  cases w with
  | none =>
    refine hk h false hA ⟨fun _ => rfl, fun _ h => h⟩ ?_ ?_
    · intro hb
      cases hb
    · intro _ a ha
      cases ha
  | some a =>
    refine readColor_spec hA (hw a rfl) fun h' x hA' hf hx _ => hk h' _ hA' hf ?_ ?_
    · intro hr
      exact ⟨a, rfl, fun _ => hx.symm.trans (by simpa using hr)⟩
    · rintro hr a' ⟨⟩
      rw [← hx]
      exact Color.ne_red.mp (by simpa using hr)

/-- A test of the color of a node, null being black. -/
theorem isBlack_spec {k : Bool → Code Addr Key α} {w : Option Addr} (hA : W.At h t c S)
    (hw : ∀ a, w = some a → W.known a)
    (hk : ∀ h' b, W.At h' t c S → W.Fade h h' →
      (b = false → ∃ a, w = some a ∧ (W.exact → h'.color a = .RED)) →
      (b = true → ∀ a, w = some a → h'.color a = .BLACK) →
      ((∀ a, w = some a → h.color a = .BLACK) → b = true) →
      Until W.solo X (k b) h') :
    Until W.solo X ((isBlack w).bind k) h := by
  cases w with
  | none =>
    refine hk h true hA ⟨fun _ => rfl, fun _ h => h⟩ ?_ ?_ fun _ => rfl
    · intro hb
      cases hb
    · intro _ a ha
      cases ha
  | some a =>
    refine readColor_spec hA (hw a rfl) fun h' x hA' hf hx hb => hk h' _ hA' hf ?_ ?_ ?_
    · intro hr
      refine ⟨a, rfl, fun _ => hx.symm.trans (Color.ne_black.mp ?_)⟩
      simpa using hr
    · rintro hr a' ⟨⟩
      rw [← hx]
      simpa using hr
    · intro hall
      simpa using hb (hall a rfl)

/-- `rotate` of a node on the path. -/
theorem rotate_spec (hA : W.At h (.mk p d (.mk n d A B) C) c S) (hp : p ∈ S) (hn : n ∈ S)
    (hc : ∀ f ∈ c.head?, f.addr ∈ S)
    (hk : ∀ h', W.At h' (.mk n d A (.mk p d B C)) c S → h'.color = h.color →
      Until W.solo X (k ()) h') :
    Until W.solo X ((rotate p d (some (Ctx.path c))).bind k) h := by
  obtain ⟨hpn, -⟩ := PtrTree.fits_mk.mp hA.fits
  refine loadChild (hA.known p (.inl (by simp))) ?_
  rw [hpn, PtrTree.ptr_mk]
  show Until W.solo X (Prog.bind (Prog.bind (Ordered.rotateInner p n d) _) k) h
  rw [Prog.bind_assoc]
  refine rotateInner_spec hA hp hn fun h' hA' hcol => ?_
  have hptr : (PtrTree.mk n d A (.mk p d B C)).ptr = some n := PtrTree.ptr_mk _ _ _ _
  show Until W.solo X ((replaceChild (Ctx.path c) p (some n)).bind k) h'
  rw [← hptr]
  refine replaceChild_spec hA' hc ?_ (fun _ => ⟨n, hptr, hn⟩) fun h'' hA'' hcol' => ?_
  · exact (Ctx.apart_def.mp hA.apart).2.2 p (by simp)
  · exact hk h'' hA'' (hcol'.trans hcol)

/-- `rotate` of a node with its child on the other side. -/
theorem rotate_flip_spec (hA : W.At h (.mk p d C (.mk n d B A)) c S) (hp : p ∈ S) (hn : n ∈ S)
    (hc : ∀ f ∈ c.head?, f.addr ∈ S)
    (hk : ∀ h', W.At h' (.mk n d (.mk p d C B) A) c S → h'.color = h.color →
      Until W.solo X (k ()) h') :
    Until W.solo X ((rotate p d.flip (some (Ctx.path c))).bind k) h := by
  rw [← PtrTree.mk_flip p, ← PtrTree.mk_flip n] at hA
  refine rotate_spec hA hp hn hc fun h' hA' hcol => hk h' ?_ hcol
  rwa [PtrTree.mk_flip, PtrTree.mk_flip] at hA'

end Writer

end MpmcMap.Ordered
