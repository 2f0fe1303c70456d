import MpmcMap.Conc.Partial
import MpmcMap.Ordered.Engine
import Mathlib.Data.Set.Insert

/-!
# Colors are written under locks

Which nodes an update holds when it writes a color. That is a matter of the code alone: whatever the
pointers and colors are that it reads, an update locks a node only when it does not hold it, so the
entries of its path and the nodes that it has locked besides them are different nodes, and it writes
the colors of these. Two writes are actions of their own: an erasure blackens the red node that takes
the place of the removed one, and every update ends with a blackening of the root. Each comes right
after the access that has led to the node.
-/

namespace MpmcMap.Ordered

open Conc RedBlack

variable {Addr Key : Type}

/-- What an action has found: a red node, or the root. -/
inductive Found (Addr : Type) where
  | nothing
  | red (a : Addr)
  | top (a : Addr)

/-- What the action has found when it answers `r`. A root that it has put there counts, too. -/
def Op.found {β : Type} (o : Op Addr Key β) (r : β) : Found Addr :=
  match o, r with
  | .loadColor a, .RED => .red a
  | .loadRoot, some a => .top a
  | .casRoot _ (some a), true => .top a
  | _, _ => .nothing

/-- The nodes that the thread holds, and what its last action has found. -/
structure Holding (Addr : Type) where
  locks : Set Addr
  found : Found Addr

/-- The actions of a thread as far as its locks are concerned; what it reads may be anything. -/
def holding : Solo (Op Addr Key) (Holding Addr) where
  pre o s :=
    match o with
    | .storeColor a _ => a ∈ s.locks
    | .blackenX a => s.found = .red a
    | .blackenTop a => s.found = .top a
    | _ => True
  step o s r s' := s'.found = o.found r ∧
    match o with
    | .lock a => a ∉ s.locks ∧ s'.locks = insert a s.locks
    | .unlock a => s'.locks = s.locks \ {a}
    | _ => s'.locks = s.locks

/-- The action neither locks nor unlocks a node, nor does it write a color. -/
def Op.Plain {β : Type} : Op Addr Key β → Prop
  | .lock _ | .unlock _ | .storeColor _ _ | .blackenX _ | .blackenTop _ => False
  | _ => True

/-- The action does not write the count either. -/
def Op.Links {β : Type} : Op Addr Key β → Prop
  | .lock _ | .unlock _ | .storeColor _ _ | .blackenX _ | .blackenTop _ | .addCount | .subCount
  | .storeCount _ => False
  | _ => True

/-- A program that starts with the locks `L` writes colors under locks, but for the two writes, and
leaves as `Q` says. -/
def Paints {α : Type} (p : Code Addr Key α) (L : Set Addr) (Q : α → Set Addr → Prop) : Prop :=
  ∀ g, Always holding (fun a s => Q a s.locks) p ⟨L, g⟩

namespace Paints

variable {α β σ : Type} {L : Set Addr} {Q : α → Set Addr → Prop} {a : Addr}

theorem ret {x : α} (h : Q x L) : Paints (.ret x : Code Addr Key α) L Q := fun _ => .ret h

theorem bind {p : Code Addr Key β} {f : β → Code Addr Key α} {R : β → Set Addr → Prop}
    (h : Paints p L R) (hf : ∀ b L, R b L → Paints (f b) L Q) : Paints (p.bind f) L Q :=
  fun g => (h g).bind fun b s hb => hf b s.locks hb s.found

theorem mono {p : Code Addr Key α} {R : α → Set Addr → Prop} (h : Paints p L R)
    (hR : ∀ a L, R a L → Q a L) : Paints p L Q :=
  fun g => (h g).mono fun a s ha => hR a s.locks ha

theorem iterate {body : σ → Code Addr Key (σ ⊕ α)} {I : σ → Set Addr → Prop} {st : σ}
    (hbody : ∀ st L, I st L → Paints (body st) L fun x L => Sum.elim (I · L) (Q · L) x)
    (h : I st L) : Paints (Prog.iterate body st) L Q :=
  fun _ => Always.iterate (I := fun st s => I st s.locks)
    (fun st s hI => hbody st s.locks hI s.found) h

/-! ## The actions -/

/-- A node that can be locked is not held by anyone. -/
theorem lock {k : Unit → Code Addr Key α} (hk : a ∉ L → Paints (k ()) (insert a L) Q) :
    Paints (.act (.lock a) k) L Q := by
  intro g
  apply Always.act trivial
  intro _ s hs
  obtain ⟨locks, found⟩ := s
  obtain ⟨-, hfree, hlocks⟩ := hs
  obtain rfl : locks = insert a L := hlocks
  exact hk hfree found

theorem unlock {k : Unit → Code Addr Key α} (hk : Paints (k ()) (L \ {a}) Q) :
    Paints (.act (.unlock a) k) L Q := by
  intro g
  apply Always.act trivial
  intro _ s hs
  obtain ⟨locks, found⟩ := s
  obtain rfl : locks = L \ {a} := hs.2
  exact hk found

/-- A color is written under the lock of the node. -/
theorem storeColor {k : Unit → Code Addr Key α} {c : Color} (ha : a ∈ L)
    (hk : Paints (k ()) L Q) : Paints (.act (.storeColor a c) k) L Q := by
  intro g
  apply Always.act ha
  intro _ s hs
  obtain ⟨locks, found⟩ := s
  obtain rfl : locks = L := hs.2
  exact hk found

/-- Reads and writes of other kinds. -/
theorem plain {o : Op Addr Key β} {k : β → Code Addr Key α} (ho : o.Plain)
    (hk : ∀ r, Paints (k r) L Q) : Paints (.act o k) L Q := by
  intro g
  have hpre : holding.pre o ⟨L, g⟩ := by
    cases o with
    | storeColor | blackenX | blackenTop => exact ho.elim
    | _ => trivial
  apply Always.act hpre
  intro r s hs
  obtain ⟨locks, found⟩ := s
  obtain rfl : locks = L := by
    cases o with
    | lock | unlock | storeColor | blackenX | blackenTop => exact ho.elim
    | _ => exact hs.2
  exact hk r found

/-- What neither locks nor colors leaves the locks as they are. -/
theorem uses {p : Code Addr Key α} (hp : p.Uses Op.Links) : Paints p L fun _ L' => L' = L := by
  intro g
  refine Always.of_uses (I := fun s : Holding Addr => s.locks = L) ?_ hp rfl
  intro β o s ho hs
  constructor
  · cases o with
    | storeColor | blackenX | blackenTop => exact ho.elim
    | _ => trivial
  · intro r s' hstep
    rw [← hs]
    cases o with
    | lock | unlock | storeColor | blackenX | blackenTop => exact ho.elim
    | _ => exact hstep.2

/-- What the last action has found is made black. -/
theorem blacken {o : Op Addr Key β} {k : β → Code Addr Key α} (ho : o.Plain)
    (hk : ∀ r, Paints (k r) L Q ∨ ∃ a k', Paints (k' ()) L Q ∧
      (o.found r = .red a ∧ k r = .act (.blackenX a) k' ∨
        o.found r = .top a ∧ k r = .act (.blackenTop a) k')) : Paints (.act o k) L Q := by
  intro g
  have hpre : holding.pre o ⟨L, g⟩ := by
    cases o with
    | storeColor | blackenX | blackenTop => exact ho.elim
    | _ => trivial
  apply Always.act hpre
  intro r s hs
  obtain ⟨locks, found⟩ := s
  obtain rfl : locks = L := by
    cases o with
    | lock | unlock | storeColor | blackenX | blackenTop => exact ho.elim
    | _ => exact hs.2
  obtain rfl : found = o.found r := hs.1
  rcases hk r with h | ⟨a, k', h, ⟨ha, heq⟩ | ⟨ha, heq⟩⟩
  · exact h _
  · rw [heq, ha]
    apply Always.act rfl
    intro _ s hs
    obtain ⟨locks', found⟩ := s
    obtain rfl : locks' = locks := hs.2
    exact h found
  · rw [heq, ha]
    apply Always.act rfl
    intro _ s hs
    obtain ⟨locks', found⟩ := s
    obtain rfl : locks' = locks := hs.2
    exact h found

end Paints

/-! ## The path -/

/-- The thread holds the nodes of the path, which are different ones. -/
structure Covers (L : Set Addr) (path : List Addr) : Prop where
  nodup : path.Nodup
  mem : ∀ a ∈ path, a ∈ L

section Covers

variable {L : Set Addr} {path rest : List Addr} {a b : Addr}

theorem Covers.nil : Covers L [] := ⟨List.nodup_nil, by simp⟩

theorem Covers.head (h : Covers L (a :: path)) : a ∈ L := h.mem a List.mem_cons_self

theorem Covers.tail (h : Covers L (a :: path)) : Covers L path :=
  ⟨(List.nodup_cons.mp h.nodup).2, fun b hb => h.mem b (List.mem_cons_of_mem _ hb)⟩

/-- A node that has just been locked is a new one. -/
theorem Covers.lock (h : Covers L path) (ha : a ∉ L) : Covers (insert a L) (a :: path) := by
  constructor
  · rw [List.nodup_cons]
    exact ⟨fun hm => ha (h.mem a hm), h.nodup⟩
  · intro b hb
    rcases List.mem_cons.mp hb with rfl | hb
    · exact Set.mem_insert _ _
    · exact Set.mem_insert_of_mem _ (h.mem b hb)

/-- A lock that is not of the path may be given back. -/
theorem Covers.unlock (h : Covers L path) (ha : a ∉ path) : Covers (L \ {a}) path := by
  refine ⟨h.nodup, fun b hb => ⟨h.mem b hb, ?_⟩⟩
  rintro rfl
  exact ha hb

theorem Covers.unlock_head (h : Covers L (a :: path)) : Covers (L \ {a}) path :=
  h.tail.unlock (List.nodup_cons.mp h.nodup).1

/-- The order of the path does not matter. -/
theorem Covers.perm (h : Covers L path) (hp : path.Perm rest) : Covers L rest :=
  ⟨hp.nodup_iff.mp h.nodup, fun a ha => h.mem a (hp.mem_iff.mpr ha)⟩

theorem Covers.swap (h : Covers L (a :: b :: path)) : Covers L (b :: a :: path) :=
  h.perm (List.Perm.swap b a path)

end Covers

/-- The path that `lock_path` answers. -/
def LockResult.path : LockResult Addr → List Addr
  | .found target above => target :: above
  | .absent parent above _ => parent :: above
  | .empty => []

section Code

open Prog (perform)

variable [DecidableEq Addr] {cmp : Key → Key → Bool} {k : Key} {L : Set Addr}
  {path rest above ext : List Addr}
  {x p g u w n target : Addr} {side : Side} {wLocked : Bool}

omit [DecidableEq Addr] in
theorem paints_unlockPath (path : List Addr) (L : Set Addr) :
    Paints (unlockPath path : Code Addr Key Unit) L fun _ _ => True := by
  induction path generalizing L with
  | nil => exact .ret trivial
  | cons a path ih => exact .unlock (ih _)

omit [DecidableEq Addr] in
theorem paints_lockStep {cur : Addr} (h : Covers L (cur :: above)) :
    Paints (lockStep cmp k (cur, above)) L fun x L =>
      Sum.elim (fun l => Covers L (l.1 :: l.2)) (fun r => Covers L r.path) x := by
  refine .plain trivial fun key => ?_
  show Paints (if compare cmp k key = .eq then _ else _) L _
  split
  · exact .ret h
  · refine .plain trivial fun child => ?_
    cases child with
    | none => exact .ret h
    | some child =>
      show Paints (if MAX_HEIGHT ≤ (cur :: above).length then _ else _) L _
      split
      · refine .plain trivial fun _ => ?_
        apply (paints_unlockPath (cur :: above) L).bind
        intro _ L _
        exact .ret Covers.nil
      · apply Paints.lock
        intro hfree
        refine .plain trivial fun _ => ?_
        exact .ret (h.lock hfree)

/-- The walk down holds the locks of the path that it answers with. -/
theorem paints_lockPath (cmp : Key → Key → Bool) (k : Key) (L : Set Addr) :
    Paints (lockPath cmp k) L fun r L => Covers L r.path := by
  refine .iterate (I := fun _ _ => True) ?_ trivial
  intro _ L _
  refine .plain trivial fun root => ?_
  cases root with
  | none => exact .ret Covers.nil
  | some cur =>
    apply Paints.lock
    intro hfree
    refine .plain trivial fun root => ?_
    show Paints (if root = some cur then _ else _) _ _
    split
    · refine .plain trivial fun _ => ?_
      show Paints ((Prog.iterate (lockStep cmp k) (cur, [])).bind fun r =>
        .ret (.inr r : Unit ⊕ LockResult Addr)) _ _
      have hdown : Paints (Prog.iterate (lockStep cmp k) (cur, [])) (insert cur L)
          fun r L => Covers L r.path :=
        .iterate (I := fun l L => Covers L (l.1 :: l.2)) (fun l L h => paints_lockStep h)
          (Covers.nil.lock hfree)
      apply hdown.bind
      intro r L h
      exact .ret h
    · exact .unlock (.ret trivial)

/-! ## Rotations -/

theorem uses_rewireChild (parent old : Addr) (new : Option Addr) :
    (rewireChild parent old new : Code Addr Key Unit).Uses Op.Links := by
  refine .act trivial fun left => ?_
  show Prog.Uses _ (if left = some old then _ else _ : Code Addr Key Unit)
  split
  · exact .act trivial .ret
  · exact .act trivial .ret

theorem uses_replaceChild (above : List Addr) (old : Addr) (new : Option Addr) :
    (replaceChild above old new : Code Addr Key Unit).Uses Op.Links := by
  cases above with
  | nil => exact .act trivial .ret
  | cons parent above => exact uses_rewireChild parent old new

/-- A rotation writes links only. -/
theorem uses_rotate (p : Addr) (side : Side) (below : Option (List Addr)) :
    (rotate p side below : Code Addr Key Unit).Uses Op.Links := by
  refine .act trivial fun n => ?_
  cases n with
  | none => exact .act trivial .ret
  | some n =>
    refine .act trivial fun _ => .act trivial fun _ => .act trivial fun _ => ?_
    cases below with
    | none => exact .ret _
    | some below => exact uses_replaceChild below p (some n)

theorem uses_sideIn (p a : Addr) : (sideIn p a : Code Addr Key Side).Uses Op.Links :=
  .act trivial fun _ => .ret _

/-! ## The fixup of an insertion -/

omit [DecidableEq Addr] in
/-- With a red uncle, the parent, the uncle and the grandparent are colored under their locks. -/
theorem paints_insertCase1 (h : Covers L (x :: p :: g :: rest)) :
    Paints (insertCase1 x p g u rest : Code Addr Key _) L fun path L => Covers L path := by
  apply Paints.lock
  intro hfree
  have h := h.lock hfree
  apply Paints.storeColor h.tail.tail.head
  apply Paints.storeColor h.head
  apply Paints.storeColor h.tail.tail.tail.head
  apply Paints.unlock
  apply Paints.unlock
  apply Paints.unlock
  exact .ret h.unlock_head.unlock_head.unlock_head

/-- An inner node is turned outside; nothing is colored. -/
theorem paints_insertCase2 (h : Covers L (x :: p :: g :: rest)) :
    Paints (insertCase2 x p g side rest : Code Addr Key _) L fun y L =>
      Covers L (y.1 :: y.2 :: g :: rest) := by
  refine .plain trivial fun inner => ?_
  show Paints (if inner = some x then _ else _) L _
  split
  · apply (Paints.uses (uses_rotate _ _ _)).bind
    intro _ L' hL
    rw [hL]
    exact .ret h.swap
  · exact .ret h

/-- The parent and the grandparent are colored before they are turned. -/
theorem paints_insertCase3 (h : Covers L (x :: p :: g :: rest)) :
    Paints (insertCase3 x p g side rest : Code Addr Key _) L fun path L => Covers L path := by
  apply Paints.storeColor h.tail.head
  apply Paints.storeColor h.tail.tail.head
  apply (Paints.uses (uses_rotate _ _ _)).bind
  intro _ L' hL
  rw [hL]
  have h : Covers L (g :: x :: p :: rest) :=
    h.perm (((List.Perm.swap g p rest).cons x).trans (List.Perm.swap g x (p :: rest)))
  apply Paints.unlock
  apply Paints.unlock
  exact .ret h.unlock_head.unlock_head

theorem paints_fixupInsertStep (h : Covers L path) :
    Paints (fixupInsertStep path : Code Addr Key _) L fun x L => Covers L (x.elim id id) := by
  rcases path with _ | ⟨x, _ | ⟨p, _ | ⟨g, rest⟩⟩⟩
  · exact .ret h
  · exact .ret h
  · exact .ret h
  · refine .plain trivial fun col => ?_
    show Paints (if col = .BLACK then _ else _) L _
    split
    · exact .ret h
    apply (Paints.uses (uses_sideIn _ _)).bind
    intro side L' hL
    rw [hL]
    refine .plain trivial fun uncle => ?_
    have hout : Paints (do
        let y ← insertCase2 x p g side rest
        let path ← insertCase3 y.1 y.2 g side rest
        return .inr path : Code Addr Key (List Addr ⊕ List Addr)) L
        fun x L => Covers L (x.elim id id) := by
      apply (paints_insertCase2 h).bind
      intro y L h
      apply (paints_insertCase3 h).bind
      intro path L h
      exact .ret h
    cases uncle with
    | none => exact hout
    | some u =>
      refine .plain trivial fun col => ?_
      cases col with
      | RED =>
        apply (paints_insertCase1 h).bind
        intro path L h
        exact .ret h
      | BLACK => exact hout

/-- The fixup of an insertion holds what is left of the path. -/
theorem paints_fixupInsert (h : Covers L path) :
    Paints (fixupInsert path : Code Addr Key _) L fun path L => Covers L path := by
  refine .iterate (I := fun path L => Covers L path) (fun path L h => ?_) h
  refine (paints_fixupInsertStep h).mono fun x L h => ?_
  cases x <;> exact h

/-! ## The fixup of a deletion -/

/-- The next place of `fixup_delete`, the parent of `p`. -/
theorem paints_climb (rest : List Addr) :
    Paints (match rest with
      | gp :: _ => do
        let side ← sideIn gp p
        return (rest, some p, side)
      | [] => return (rest, some p, side) : Code Addr Key (List Addr × Option Addr × Side)) L
      fun l L' => l.1 = rest ∧ L' = L := by
  cases rest with
  | nil => exact .ret ⟨rfl, rfl⟩
  | cons gp rest =>
    refine .plain trivial fun _ => ?_
    exact .ret ⟨rfl, rfl⟩

/-- A black sibling with black children is colored under its own lock. -/
theorem paints_deleteCase2 {w : Option Addr}
    (h : Covers L ((if wLocked then w.toList else []) ++ p :: rest)) :
    Paints (deleteCase2 p rest w wLocked side : Code Addr Key _) L fun l L => Covers L l.1 := by
  have hclimb : ∀ {L}, Covers L (p :: rest) →
      ∀ {k : Unit → Code Addr Key (List Addr × Option Addr × Side)},
      (∀ L, Paints (k ()) L fun l L' => l.1 = rest ∧ L' = L) →
      Paints (.act (.unlock p) k) L fun l L => Covers L l.1 := by
    intro L h k hk
    apply Paints.unlock
    apply (hk _).mono
    intro l L' hl
    rw [hl.1, hl.2]
    exact h.unlock_head
  cases w with
  | none =>
    have h : Covers L (p :: rest) := by
      cases wLocked <;> exact h
    exact hclimb h fun _ => paints_climb rest
  | some w =>
    cases wLocked with
    | true =>
      apply Paints.storeColor h.head
      exact hclimb h.tail fun _ => paints_climb rest
    | false =>
      apply Paints.lock
      intro hfree
      have h : Covers L (p :: rest) := h
      have h := h.lock hfree
      apply Paints.storeColor h.head
      apply Paints.unlock
      exact hclimb h.unlock_head fun _ => paints_climb rest

/-- The parent, the sibling and the far child are colored under their locks. -/
theorem paints_deleteCase4 {far : Option Addr}
    (h : Covers L ((if wLocked then [w] else []) ++ p :: rest)) :
    Paints (deleteCase4 p rest w far wLocked side : Code Addr Key _) L
      fun path L => Covers L path := by
  -- from the back: the rotation and the last unlock color nothing
  have hend : ∀ L, Covers L (w :: p :: rest) → Paints (do
      rotate p side.flip (some rest)
      perform (.unlock p)
      return w :: rest : Code Addr Key (List Addr)) L fun path L => Covers L path := by
    intro L h
    apply (Paints.uses (uses_rotate _ _ _)).bind
    intro _ L' hL
    rw [hL]
    apply Paints.unlock
    exact .ret h.swap.unlock_head
  have hcolors : ∀ L, Covers L (w :: p :: rest) → Paints (do
      lockUnless false far
      perform (.storeColor w (← perform (.loadColor p)))
      perform (.storeColor p .BLACK)
      storeColorOf .BLACK far
      unlockUnless false far
      rotate p side.flip (some rest)
      perform (.unlock p)
      return w :: rest : Code Addr Key (List Addr)) L fun path L => Covers L path := by
    intro L h
    cases far with
    | none =>
      refine .plain trivial fun col => ?_
      apply Paints.storeColor h.head
      apply Paints.storeColor h.tail.head
      exact hend L h
    | some y =>
      apply Paints.lock
      intro hfree
      have h := h.lock hfree
      refine .plain trivial fun col => ?_
      apply Paints.storeColor h.tail.head
      apply Paints.storeColor h.tail.tail.head
      apply Paints.storeColor h.head
      apply Paints.unlock
      exact hend _ h.unlock_head
  cases wLocked with
  | true => exact hcolors L h
  | false =>
    apply Paints.lock
    intro hfree
    have h : Covers L (p :: rest) := h
    exact hcolors _ (h.lock hfree)

/-- The near child takes the place of the sibling, which stays locked. -/
theorem paints_deleteCase3 {near : Addr} (h : Covers L (p :: rest)) :
    Paints (deleteCase3 p w near side : Code Addr Key _) L
      fun _ L => Covers L (near :: p :: rest) := by
  apply Paints.lock
  intro hw
  apply Paints.lock
  intro hnear
  have h := (h.lock hw).lock hnear
  apply Paints.storeColor h.head
  apply Paints.storeColor h.tail.head
  apply (Paints.uses (uses_rotate _ _ _)).bind
  intro _ L' hL
  rw [hL]
  apply (Paints.uses (uses_rewireChild _ _ _)).bind
  intro _ L' hL
  rw [hL]
  apply Paints.unlock
  refine .plain trivial fun _ => ?_
  exact .ret h.swap.unlock_head

omit [DecidableEq Addr] in
theorem uses_isRed (a : Option Addr) : (isRed a : Code Addr Key Bool).Uses Op.Links := by
  cases a with
  | none => exact .ret _
  | some a => exact .act trivial fun _ => .ret _

omit [DecidableEq Addr] in
theorem uses_isBlack (a : Option Addr) : (isBlack a : Code Addr Key Bool).Uses Op.Links := by
  cases a with
  | none => exact .ret _
  | some a => exact .act trivial fun _ => .ret _

omit [DecidableEq Addr] in
theorem uses_childOf (a : Option Addr) (d : Side) :
    (childOf a d : Code Addr Key (Option Addr)).Uses Op.Links := by
  cases a with
  | none => exact .ret _
  | some a => exact .act trivial .ret

/-- What an iteration leaves: the next path, or what is left of the last one. -/
def leftOn : (List Addr × Option Addr × Side) ⊕ List Addr → List Addr
  | .inl l => l.1
  | .inr path => path

/-- Which of the two cases it is does not matter for the locks. -/
theorem paints_deleteCase24 {w far : Option Addr}
    (h : Covers L ((if wLocked then w.toList else []) ++ p :: rest)) :
    Paints (deleteCase24 p rest w far wLocked side : Code Addr Key _) L
      fun x L => Covers L (leftOn x) := by
  have htwo : Paints (do
      let l ← deleteCase2 p rest w wLocked side
      return .inl l : Code Addr Key ((List Addr × Option Addr × Side) ⊕ List Addr)) L
      fun x L => Covers L (leftOn x) := by
    apply (paints_deleteCase2 h).bind
    intro l L h
    exact .ret h
  cases w with
  | none => exact htwo
  | some w =>
    apply (Paints.uses (uses_isBlack _)).bind
    intro b L' hL
    rw [hL]
    cases b with
    | false =>
      refine .ret ⟨?_, ?_⟩
      · exact (List.nodup_append.mp h.nodup).2.1
      · exact fun a ha => h.mem a (List.mem_append_right _ ha)
    | true =>
      apply (Paints.uses (uses_isBlack _)).bind
      intro b L' hL
      rw [hL]
      cases b with
      | true => exact htwo
      | false =>
        apply (paints_deleteCase4 h).bind
        intro path L h
        exact .ret h

theorem paints_deleteBlackSibling {w : Option Addr} (h : Covers L (p :: rest)) :
    Paints (deleteBlackSibling p rest w side : Code Addr Key _) L
      fun x L => Covers L (leftOn x) := by
  apply (Paints.uses (uses_childOf _ _)).bind
  intro near L' hL
  rw [hL]
  apply (Paints.uses (uses_childOf _ _)).bind
  intro far L' hL
  rw [hL]
  have htest : (deleteIsCase3 near far : Code Addr Key Bool).Uses Op.Links := by
    apply (uses_isBlack near).bind
    intro b
    cases b with
    | true => exact .ret _
    | false => exact uses_isBlack far
  have hplain : Paints (deleteCase24 p rest w far false side : Code Addr Key _) L
      fun x L => Covers L (leftOn x) := paints_deleteCase24 h
  apply (Paints.uses htest).bind
  intro b L' hL
  rw [hL]
  cases w with
  | none => exact hplain
  | some w =>
    cases near with
    | none => exact hplain
    | some near =>
      cases b with
      | false => exact hplain
      | true =>
        apply (paints_deleteCase3 h).bind
        intro far L h
        exact paints_deleteCase24 h

/-- A red sibling is locked before it is colored. -/
theorem paints_deleteCase1 (h : Covers L (p :: rest)) :
    Paints (deleteCase1 p rest w side : Code Addr Key _) L fun path L => Covers L path := by
  apply Paints.lock
  intro hfree
  have h := h.lock hfree
  apply Paints.storeColor h.head
  apply Paints.storeColor h.tail.head
  apply (Paints.uses (uses_rotate _ _ _)).bind
  intro _ L' hL
  rw [hL]
  refine .plain trivial fun _ => ?_
  exact .ret h.swap

/-- With or without a red sibling, what is left of the path is locked. -/
theorem paints_deleteBelow {x : Option Addr} (h : Covers L (p :: rest)) :
    Paints (deleteBelow p rest x side : Code Addr Key _) L fun y L => Covers L (leftOn y) := by
  refine .plain trivial fun w => ?_
  apply (Paints.uses (uses_isRed w)).bind
  intro b L' hL
  rw [hL]
  cases w with
  | none => exact paints_deleteBlackSibling h
  | some w =>
    cases b with
    | false => exact paints_deleteBlackSibling h
    | true =>
      apply (paints_deleteCase1 h).bind
      intro path L h
      exact .ret h

omit [DecidableEq Addr] in
/-- The root is locked before it is colored. -/
theorem paints_blackenLocked (r : Addr) (L : Set Addr) :
    Paints (blackenLocked r : Code Addr Key Unit) L fun _ _ => True := by
  apply Paints.lock
  intro hfree
  apply Paints.storeColor (Set.mem_insert _ _)
  exact .unlock (.ret trivial)

theorem paints_fixupDeleteStep {x : Option Addr} (h : Covers L path) :
    Paints (fixupDeleteStep (path, x, side) : Code Addr Key _) L
      fun y L => Covers L (leftOn y) := by
  cases path with
  | nil =>
    refine .plain trivial fun root => ?_
    cases root with
    | none => exact .ret Covers.nil
    | some r =>
      apply (paints_blackenLocked r L).bind
      intro _ L _
      exact .ret Covers.nil
  | cons p rest =>
    cases x with
    | none => exact paints_deleteBelow h
    | some x =>
      refine .blacken trivial fun col => ?_
      cases col with
      | RED => exact .inr ⟨x, _, .ret h, .inl ⟨rfl, rfl⟩⟩
      | BLACK => exact .inl (paints_deleteBelow h)

/-- The fixup of an erasure holds what is left of the path. -/
theorem paints_fixupDelete {x : Option Addr} (h : Covers L path) :
    Paints (fixupDelete path x side : Code Addr Key _) L fun path L => Covers L path := by
  refine .iterate (I := fun l L => Covers L l.1) (fun l L h => ?_) h
  refine (paints_fixupDeleteStep h).mono fun y L h => ?_
  cases y <;> exact h

/-! ## The updates -/

omit [DecidableEq Addr] in
/-- The root becomes black at the end of an update, locked or not. -/
theorem paints_blackenRoot (path : List Addr) (L : Set Addr) :
    Paints (blackenRoot path : Code Addr Key Unit) L fun _ _ => True := by
  refine .blacken trivial fun root => ?_
  cases root with
  | none => exact .inl (.ret trivial)
  | some r =>
    cases path with
    | nil => exact .inl (paints_blackenLocked r L)
    | cons a path => exact .inr ⟨r, _, .ret trivial, .inr ⟨rfl, rfl⟩⟩

/-- The new node is linked under the locked parent. -/
theorem paints_insertAt (h : Covers L (p :: above)) :
    Paints (insertAt n p above side : Code Addr Key Unit) L fun _ _ => True := by
  apply Paints.lock
  intro hfree
  have h := h.lock hfree
  refine .plain trivial fun _ => ?_
  apply Paints.storeColor h.head
  refine .plain trivial fun _ => ?_
  apply (paints_fixupInsert h).bind
  intro path L _
  apply (paints_blackenRoot path L).bind
  intro _ L _
  apply (paints_unlockPath path L).bind
  intro _ L _
  exact .plain trivial fun _ => .ret trivial

/-- An insertion colors under locks, but for a first node. -/
theorem paints_insertNode (cmp : Key → Key → Bool) (n : Addr) (k : Key) (L : Set Addr) :
    Paints (insertNode cmp n k) L fun _ _ => True := by
  refine .iterate (I := fun _ _ => True) (fun _ L _ => ?_) trivial
  apply (paints_lockPath cmp k L).bind
  intro r L h
  cases r with
  | found target above =>
    apply (paints_unlockPath (target :: above) L).bind
    intro _ L _
    exact .ret trivial
  | absent parent above side =>
    apply (paints_insertAt h).bind
    intro _ L _
    exact .ret trivial
  | empty =>
    refine .blacken trivial fun b => ?_
    cases b with
    | true =>
      have hcount : Paints (do
          perform .addCount
          return .inr true : Code Addr Key (Unit ⊕ Bool)) L
          fun x L => Sum.elim (fun _ => True) (fun _ => True) x := .plain trivial fun _ => .ret trivial
      exact .inr ⟨n, fun _ => _, hcount, .inr ⟨rfl, rfl⟩⟩
    | false => exact .inl (.ret trivial)

omit [DecidableEq Addr] in
theorem paints_finishErase (target : Addr) (path : List Addr) (L : Set Addr) :
    Paints (finishErase target path : Code Addr Key Unit) L fun _ _ => True := by
  apply (paints_blackenRoot path L).bind
  intro _ L _
  apply (paints_unlockPath path L).bind
  intro _ L _
  exact .plain trivial fun _ => .plain trivial fun _ => .ret trivial

theorem uses_sideAbove (above : List Addr) (target : Addr) : (match above with
    | parent :: _ => sideIn parent target
    | [] => return .right : Code Addr Key Side).Uses Op.Links := by
  cases above with
  | nil => exact .ret _
  | cons parent above => exact uses_sideIn _ _

/-- A node with at most one child is replaced by the child. -/
theorem paints_eraseSimple {child : Option Addr} (h : Covers L (target :: above)) :
    Paints (eraseSimple target above child : Code Addr Key Unit) L fun _ _ => True := by
  apply (Paints.uses (uses_sideAbove above target)).bind
  intro side L' hL
  rw [hL]
  apply (Paints.uses (uses_replaceChild _ _ _)).bind
  intro _ L' hL
  rw [hL]
  apply Paints.unlock
  refine .plain trivial fun col => ?_
  have hfix : Paints (if col = .BLACK then fixupDelete above child side
      else return above : Code Addr Key (List Addr)) (L \ {target}) fun _ _ => True := by
    split
    · exact (paints_fixupDelete h.unlock_head).mono fun _ _ _ => trivial
    · exact .ret trivial
  apply hfix.bind
  intro path L _
  exact paints_finishErase target path L

omit [DecidableEq Addr] in
/-- The path of an erasure with the extension to the successor. -/
theorem paints_lockSuccessor {right : Addr} {depth : Nat} (h : Covers L path) :
    Paints (lockSuccessor right depth : Code Addr Key _) L fun x L =>
      ∀ succ ext, x = .inl (succ, ext) → Covers L (succ :: ext ++ path) := by
  refine .plain trivial fun _ => ?_
  apply Paints.lock
  intro hfree
  refine .iterate (I := fun l L => Covers L (l.1 :: l.2 ++ path)) (fun l L h => ?_) (h.lock hfree)
  obtain ⟨succ, ext⟩ := l
  refine .plain trivial fun left => ?_
  cases left with
  | none =>
    apply Paints.ret
    intro succ' ext' heq
    cases heq
    exact h
  | some left =>
    show Paints (if MAX_HEIGHT ≤ (succ :: ext).length + depth then _ else _) L _
    split
    · refine .plain trivial fun _ => .ret fun succ' ext' heq => ?_
      cases heq
    · refine .plain trivial fun next => ?_
      cases next with
      | none =>
        refine .plain trivial fun _ => .ret fun succ' ext' heq => ?_
        cases heq
      | some next =>
        apply Paints.lock
        intro hfree
        refine .plain trivial fun _ => ?_
        exact .ret (h.lock hfree)

omit [DecidableEq Addr] in
theorem uses_unlinkSuccessor (target : Addr) (succRight : Option Addr) (ext : List Addr) :
    (unlinkSuccessor target succRight ext : Code Addr Key Side).Uses Op.Links := by
  cases ext with
  | nil => exact .act trivial fun _ => .ret _
  | cons succParent ext => exact .act trivial fun _ => .ret _

/-- The successor takes the place of the node and its color. -/
theorem paints_eraseRelink {left right succ : Addr} (h : Covers L (ext ++ succ :: above)) :
    Paints (eraseRelink target above left right succ ext : Code Addr Key Unit) L
      fun _ _ => True := by
  refine .plain trivial fun succRight => .plain trivial fun succColor => ?_
  apply (Paints.uses (uses_unlinkSuccessor _ _ _)).bind
  intro side L' hL
  rw [hL]
  apply (Paints.uses (uses_replaceChild _ _ _)).bind
  intro _ L' hL
  rw [hL]
  refine .plain trivial fun _ => .plain trivial fun _ => .plain trivial fun col => ?_
  apply Paints.storeColor (h.mem succ (by simp))
  refine .plain trivial fun _ => .plain trivial fun _ => .plain trivial fun _ => ?_
  have hfix : Paints
      (if succColor = .BLACK then fixupDelete (ext ++ succ :: above) succRight side
      else return ext ++ succ :: above : Code Addr Key (List Addr)) L fun _ _ => True := by
    split
    · exact (paints_fixupDelete h).mono fun _ _ _ => trivial
    · exact .ret trivial
  apply hfix.bind
  intro path L _
  apply Paints.unlock
  exact paints_finishErase target path _

/-- An erasure colors under locks, but for the two writes. -/
theorem paints_eraseNode (cmp : Key → Key → Bool) (k : Key) (L : Set Addr) :
    Paints (eraseNode cmp k : Code Addr Key Bool) L fun _ _ => True := by
  refine .iterate (I := fun _ _ => True) (fun _ L _ => ?_) trivial
  apply (paints_lockPath cmp k L).bind
  intro r L h
  cases r with
  | absent parent above side =>
    apply (paints_unlockPath (parent :: above) L).bind
    intro _ L _
    exact .ret trivial
  | empty => exact .ret trivial
  | found target above =>
    refine .plain trivial fun left => .plain trivial fun right => ?_
    have hone : ∀ child, Paints (do
        eraseSimple target above child
        return .inr true : Code Addr Key (Unit ⊕ Bool)) L
        fun x _ => Sum.elim (fun _ => True) (fun _ => True) x := by
      intro child
      apply (paints_eraseSimple h).bind
      intro _ L _
      exact .ret trivial
    cases left with
    | none => exact hone _
    | some left =>
      cases right with
      | none => exact hone _
      | some right =>
        apply (paints_lockSuccessor h).bind
        intro x L hx
        rcases x with ⟨succ, ext⟩ | ext
        · have h := hx succ ext rfl
          -- the locks as `erase_relink` expects them: those of the successor on top of those of the
          -- target
          have h : Covers L (ext ++ succ :: above) := by
            have hperm : (succ :: ext ++ target :: above).Perm
                (target :: (ext ++ succ :: above)) := by
              apply (List.perm_middle.cons succ).trans
              apply (List.Perm.swap target succ (ext ++ above)).trans
              exact List.perm_middle.symm.cons target
            exact (h.perm hperm).tail
          apply (paints_eraseRelink h).bind
          intro _ L _
          exact .ret trivial
        · apply (paints_unlockPath (ext ++ target :: above) L).bind
          intro _ L _
          exact .ret trivial

end Code

end MpmcMap.Ordered
