import Mathlib.Data.List.Perm.Basic
import Mathlib.Data.List.Nodup

/-!
# Binary trees and their pointers

A tree of node addresses, a hole in it (the list of frames from the hole up to the root) and what it
means that child pointers store a tree. Mirrored situations are one situation with a side.
-/

namespace MpmcMap.RedBlack

/-- `side` of a child: 0 is left, 1 is right. -/
inductive Side where
  | left
  | right
  deriving DecidableEq, Repr

/-- `1 - side`. -/
def Side.flip : Side → Side
  | .left => .right
  | .right => .left

@[simp] theorem Side.flip_flip (d : Side) : d.flip.flip = d := by cases d <;> rfl

@[simp] theorem Side.flip_ne (d : Side) : d.flip ≠ d := by cases d <;> simp [flip]

@[simp] theorem Side.ne_flip (d : Side) : d ≠ d.flip := by cases d <;> simp [flip]

theorem Side.eq_flip {d e : Side} (h : e ≠ d) : e = d.flip := by
  cases d <;> cases e <;> simp_all [flip]

/-- The nodes below a pointer. -/
inductive PtrTree (Addr : Type) where
  | nil
  | node (a : Addr) (l r : PtrTree Addr)

variable {Addr : Type}

namespace PtrTree

/-- The pointer to a tree. -/
def ptr : PtrTree Addr → Option Addr
  | nil => none
  | node a _ _ => some a

/-- The nodes in order. -/
def addrs : PtrTree Addr → List Addr
  | nil => []
  | node a l r => l.addrs ++ a :: r.addrs

/-- The number of nodes on a longest path. -/
def depth : PtrTree Addr → Nat
  | nil => 0
  | node _ l r => max l.depth r.depth + 1

/-- The node `a` with the subtree `t` on side `d` and `u` on the other one. -/
def mk (a : Addr) (d : Side) (t u : PtrTree Addr) : PtrTree Addr :=
  match d with
  | .left => node a t u
  | .right => node a u t

variable (a : Addr) (d : Side) (t u : PtrTree Addr)

@[simp] theorem ptr_mk : (mk a d t u).ptr = some a := by cases d <;> rfl

@[simp] theorem mk_flip : mk a d.flip t u = mk a d u t := by cases d <;> rfl

@[simp] theorem mem_addrs_mk {x : Addr} :
    x ∈ (mk a d t u).addrs ↔ x = a ∨ x ∈ t.addrs ∨ x ∈ u.addrs := by
  cases d
  · simp only [mk, addrs, List.mem_append, List.mem_cons]
    tauto
  · simp only [mk, addrs, List.mem_append, List.mem_cons]
    tauto

theorem addrs_mk_perm : (mk a d t u).addrs.Perm (a :: (t.addrs ++ u.addrs)) := by
  cases d
  · exact List.perm_middle
  · exact List.perm_middle.trans (List.Perm.cons a List.perm_append_comm)

@[simp] theorem nodup_mk : (mk a d t u).addrs.Nodup ↔
    a ∉ t.addrs ∧ a ∉ u.addrs ∧ t.addrs.Nodup ∧ u.addrs.Nodup ∧ ∀ b ∈ t.addrs, b ∉ u.addrs := by
  rw [(addrs_mk_perm a d t u).nodup_iff, List.nodup_cons, List.nodup_append, List.mem_append]
  constructor
  · rintro ⟨h1, h2, h3, h4⟩
    exact ⟨fun h => h1 (.inl h), fun h => h1 (.inr h), h2, h3, fun b hb hb' => h4 b hb b hb' rfl⟩
  · rintro ⟨h1, h2, h3, h4, h5⟩
    exact ⟨fun h => h.elim h1 h2, h3, h4, fun b hb b' hb' he => h5 b hb (he ▸ hb')⟩

theorem depth_mk : (mk a d t u).depth = max t.depth u.depth + 1 := by
  cases d
  · rfl
  · simp only [mk, depth, Nat.max_comm]

theorem addrs_mk_congr {t t' u u' : PtrTree Addr} (ht : t.addrs = t'.addrs) (hu : u.addrs = u'.addrs) :
    (mk a d t u).addrs = (mk a d t' u').addrs := by
  cases d <;> simp [mk, addrs, ht, hu]

/-- A rotation keeps the order. -/
theorem addrs_rotate (n p : Addr) (A B C : PtrTree Addr) :
    (mk n d A (mk p d B C)).addrs = (mk p d (mk n d A B) C).addrs := by
  cases d <;> simp [mk, addrs]

/-- Every tree that is not empty has a node, whichever side is named first. -/
theorem eq_mk_of_ptr {t : PtrTree Addr} {a : Addr} (d : Side) (h : t.ptr = some a) :
    ∃ u v, t = mk a d u v := by
  cases t with
  | nil => cases h
  | node b l r =>
    cases h
    cases d with
    | left => exact ⟨l, r, rfl⟩
    | right => exact ⟨r, l, rfl⟩

theorem eq_nil_of_ptr {t : PtrTree Addr} (h : t.ptr = none) : t = nil := by
  cases t with
  | nil => rfl
  | node a l r => cases h

theorem mk_inj {a b : Addr} {d : Side} {t t' u u' : PtrTree Addr} (h : mk a d t u = mk b d t' u') :
    a = b ∧ t = t' ∧ u = u' := by
  cases d
  · cases h
    exact ⟨rfl, rfl, rfl⟩
  · cases h
    exact ⟨rfl, rfl, rfl⟩

theorem mem_of_ptr {t : PtrTree Addr} {a : Addr} (h : t.ptr = some a) : a ∈ t.addrs := by
  obtain ⟨u, v, rfl⟩ := eq_mk_of_ptr .left h
  simp

/-! ## Stored trees -/

/-- The child pointers of the nodes of a tree lead to their subtrees. -/
def Fits (child : Addr → Side → Option Addr) : PtrTree Addr → Prop
  | nil => True
  | node a l r => child a .left = l.ptr ∧ child a .right = r.ptr ∧ l.Fits child ∧ r.Fits child

variable {child child' : Addr → Side → Option Addr} {t u : PtrTree Addr} {a : Addr} {d : Side}

@[simp] theorem fits_mk : (mk a d t u).Fits child ↔
    child a d = t.ptr ∧ child a d.flip = u.ptr ∧ t.Fits child ∧ u.Fits child := by
  cases d
  · rfl
  · simp only [mk, Fits, Side.flip]
    tauto

/-- Only the pointers of the tree's own nodes matter. -/
theorem Fits.congr (h : t.Fits child) (hc : ∀ a ∈ t.addrs, child' a = child a) :
    t.Fits child' := by
  induction t with
  | nil => trivial
  | node a l r ihl ihr =>
    obtain ⟨h1, h2, hl, hr⟩ := h
    have ha : child' a = child a := hc a (by simp [addrs])
    refine ⟨by rw [ha, h1], by rw [ha, h2], ihl hl fun b hb => ?_, ihr hr fun b hb => ?_⟩
    · exact hc b (by simp [addrs, hb])
    · exact hc b (by simp [addrs, hb])

/-- The pointers determine the tree. -/
theorem Fits.unique {t u : PtrTree Addr} (ht : t.Fits child) (hu : u.Fits child)
    (h : t.ptr = u.ptr) : t = u := by
  induction t generalizing u with
  | nil => exact (eq_nil_of_ptr h.symm).symm
  | node a l r ihl ihr =>
    obtain ⟨l', r', rfl⟩ := eq_mk_of_ptr .left h.symm
    obtain ⟨h1, h2, hl, hr⟩ := ht
    obtain ⟨h1', h2', hl', hr'⟩ := hu
    rw [ihl hl hl' (h1.symm.trans h1'), ihr hr hr' (h2.symm.trans h2')]
    rfl

end PtrTree

/-! ## Holes -/

/-- A node above the hole: the side on which the hole is and the other subtree. -/
structure Frame (Addr : Type) where
  addr : Addr
  side : Side
  sib : PtrTree Addr

/-- The frames above a hole, the nearest first. -/
abbrev Ctx (Addr : Type) := List (Frame Addr)

namespace Ctx

/-- Put a tree into the hole. -/
def plug (t : PtrTree Addr) : Ctx Addr → PtrTree Addr
  | [] => t
  | f :: c => plug (.mk f.addr f.side t f.sib) c

/-- The nodes above the hole, the nearest first. -/
abbrev path (c : Ctx Addr) : List Addr := c.map Frame.addr

/-- All nodes outside the hole. -/
def addrs : Ctx Addr → List Addr
  | [] => []
  | f :: c => f.addr :: (f.sib.addrs ++ addrs c)

theorem path_sublist (c : Ctx Addr) : (path c).Sublist (addrs c) := by
  induction c with
  | nil => exact List.Sublist.slnil
  | cons f c ih => exact (ih.trans (List.sublist_append_right _ _)).cons_cons _

theorem addrs_append (c c' : Ctx Addr) : addrs (c ++ c') = addrs c ++ addrs c' := by
  induction c with
  | nil => rfl
  | cons f c ih => simp [addrs, ih]

/-- The nodes to the left of the hole, in order. -/
def before : Ctx Addr → List Addr
  | [] => []
  | f :: c => before c ++ (match f.side with | .left => [] | .right => f.sib.addrs ++ [f.addr])

/-- The nodes to the right of the hole, in order. -/
def after : Ctx Addr → List Addr
  | [] => []
  | f :: c => (match f.side with | .left => f.addr :: f.sib.addrs | .right => []) ++ after c

theorem addrs_plug (t : PtrTree Addr) (c : Ctx Addr) :
    (plug t c).addrs = before c ++ t.addrs ++ after c := by
  induction c generalizing t with
  | nil => simp [plug, before, after]
  | cons f c ih =>
    obtain ⟨a, d, u⟩ := f
    cases d <;> simp [plug, before, after, ih, PtrTree.mk, PtrTree.addrs]

theorem plug_append (t : PtrTree Addr) (c c' : Ctx Addr) :
    plug t (c ++ c') = plug (plug t c) c' := by
  induction c generalizing t with
  | nil => rfl
  | cons f c ih => exact ih _

theorem plug_inj {t u : PtrTree Addr} {c : Ctx Addr} (h : plug t c = plug u c) : t = u := by
  induction c generalizing t u with
  | nil => exact h
  | cons f c ih => exact (PtrTree.mk_inj (ih h)).2.1

theorem before_append (c c' : Ctx Addr) : before (c ++ c') = before c' ++ before c := by
  induction c with
  | nil => simp [before]
  | cons f c ih => simp [before, ih]

theorem after_append (c c' : Ctx Addr) : after (c ++ c') = after c ++ after c' := by
  induction c with
  | nil => simp [after]
  | cons f c ih => simp [after, ih]

/-- Nothing is to the left of a hole that was reached by going left. -/
theorem before_of_left {c : Ctx Addr} (h : ∀ f ∈ c, f.side = .left) : before c = [] := by
  induction c with
  | nil => rfl
  | cons f c ih =>
    rw [before, ih fun g hg => h g (List.mem_cons_of_mem _ hg), h f List.mem_cons_self]
    rfl

/-- The root of a tree with frames is that of the last frame. -/
theorem ptr_plug {c : Ctx Addr} (t : PtrTree Addr) (hc : c ≠ []) :
    (plug t c).ptr = (path c).getLast? := by
  induction c generalizing t with
  | nil => exact absurd rfl hc
  | cons f c ih =>
    cases c with
    | nil => exact PtrTree.ptr_mk _ _ _ _
    | cons g c => rw [plug, ih _ (List.cons_ne_nil g c)]; rfl

theorem addrs_plug_congr {t u : PtrTree Addr} (h : t.addrs = u.addrs) (c : Ctx Addr) :
    (plug t c).addrs = (plug u c).addrs := by
  rw [addrs_plug, addrs_plug, h]

theorem plug_perm (t : PtrTree Addr) (c : Ctx Addr) :
    (plug t c).addrs.Perm (t.addrs ++ addrs c) := by
  induction c generalizing t with
  | nil => simp [plug, addrs]
  | cons f c ih =>
    refine (ih _).trans (((PtrTree.addrs_mk_perm _ _ _ _).append_right _).trans ?_)
    simp only [addrs, List.cons_append, List.append_assoc]
    exact List.perm_middle.symm

theorem mem_plug {x : Addr} {t : PtrTree Addr} {c : Ctx Addr} :
    x ∈ (plug t c).addrs ↔ x ∈ t.addrs ∨ x ∈ addrs c := by
  rw [(plug_perm t c).mem_iff, List.mem_append]

theorem mem_addrs_of_path {x : Addr} {c : Ctx Addr} (h : x ∈ path c) : x ∈ addrs c :=
  (path_sublist c).mem h

/-- The tree in the hole and the frames have no node in common, and none twice. -/
def Apart (t : PtrTree Addr) (c : Ctx Addr) : Prop := (t.addrs ++ addrs c).Nodup

theorem apart_nil {t : PtrTree Addr} : Apart t [] ↔ t.addrs.Nodup := by simp [Apart, addrs]

theorem apart_iff {t : PtrTree Addr} {c : Ctx Addr} : Apart t c ↔ (plug t c).addrs.Nodup :=
  (plug_perm t c).nodup_iff.symm

/-- The frame nearest to the hole may be taken as part of the tree. -/
theorem apart_cons {t : PtrTree Addr} {f : Frame Addr} {c : Ctx Addr} :
    Apart t (f :: c) ↔ Apart (.mk f.addr f.side t f.sib) c := by
  rw [apart_iff, apart_iff, plug]

/-- The nodes of the hole and of the frames are different. -/
theorem apart_def {t : PtrTree Addr} {c : Ctx Addr} :
    Apart t c ↔ t.addrs.Nodup ∧ (addrs c).Nodup ∧ ∀ a ∈ t.addrs, a ∉ addrs c := by
  rw [Apart, List.nodup_append]
  constructor
  · rintro ⟨h1, h2, h3⟩
    exact ⟨h1, h2, fun a ha ha' => h3 a ha a ha' rfl⟩
  · rintro ⟨h1, h2, h3⟩
    exact ⟨h1, h2, fun a ha b hb he => h3 a ha (he ▸ hb)⟩

/-- The other subtree of a frame is off the path. -/
theorem not_mem_path_of_sib {f : Frame Addr} {c : Ctx Addr} (hn : (addrs (f :: c)).Nodup) {a : Addr}
    (ha : a ∈ f.sib.addrs) : a ∉ path (f :: c) := by
  simp only [addrs, List.nodup_cons, List.nodup_append, List.mem_append, not_or] at hn
  obtain ⟨⟨h1, -⟩, -, -, h2⟩ := hn
  rw [path, List.map_cons, List.mem_cons, not_or]
  exact ⟨fun he => h1 (he ▸ ha), fun hp => h2 a ha a (mem_addrs_of_path hp) rfl⟩

variable {child child' : Addr → Side → Option Addr} {root root' : Option Addr}

/-- `root` and the child pointers store the frames, with the pointer `v` in the hole. -/
def Hole (root : Option Addr) (child : Addr → Side → Option Addr) :
    Ctx Addr → Option Addr → Prop
  | [], v => root = v
  | f :: c, v => child f.addr f.side = v ∧ child f.addr f.side.flip = f.sib.ptr ∧
      f.sib.Fits child ∧ Hole root child c (some f.addr)

/-- A stored tree, seen from a place in it. -/
theorem fits_plug {t : PtrTree Addr} {c : Ctx Addr} :
    (root = (plug t c).ptr ∧ (plug t c).Fits child) ↔
      t.Fits child ∧ Hole root child c t.ptr := by
  induction c generalizing t with
  | nil => exact And.comm
  | cons f c ih =>
    rw [plug, ih]
    simp only [PtrTree.fits_mk, PtrTree.ptr_mk, Hole]
    tauto

theorem Hole.congr {c : Ctx Addr} {v : Option Addr} (h : Hole root child c v)
    (hr : root' = root) (hc : ∀ a ∈ addrs c, child' a = child a) : Hole root' child' c v := by
  induction c generalizing v with
  | nil => exact hr.trans h
  | cons f c ih =>
    obtain ⟨h1, h2, h3, h4⟩ := h
    have hf : child' f.addr = child f.addr := hc _ List.mem_cons_self
    refine ⟨by rw [hf, h1], by rw [hf, h2], h3.congr fun a ha => hc a ?_,
      ih h4 fun a ha => hc a ?_⟩
    · exact List.mem_cons_of_mem _ (List.mem_append_left _ ha)
    · exact List.mem_cons_of_mem _ (List.mem_append_right _ ha)

/-- The root pointer leads to the last node above the hole. -/
theorem Hole.root_eq {c : Ctx Addr} {v : Option Addr} (h : Hole root child c v) (hc : c ≠ []) :
    root = (path c).getLast? := by
  induction c generalizing v with
  | nil => exact absurd rfl hc
  | cons f c ih =>
    cases c with
    | nil => exact h.2.2.2
    | cons g c => rw [ih h.2.2.2 (List.cons_ne_nil g c)]; rfl

end Ctx

end MpmcMap.RedBlack
