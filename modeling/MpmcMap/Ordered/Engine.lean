import MpmcMap.Conc.Prog
import MpmcMap.RedBlack.Balance

/-!
# The red-black tree engine

`rb_tree` of `detail/rb_tree.hpp`. The heap is a map from node addresses to their fields; a node's
`left` and `right` are one field indexed by the side, since every mirrored pair of branches of the
source differs in the side only (`side == 0` is `left`). The code of each operation is a program
over the atomic accesses to the heap. A path stack is the list of its nodes from the top down, so
`path.top()` is the head and `path.nodes[0]` the last element.

`lock_node` is one action that waits until the lock is free: the failed attempts of its spin loop
change nothing. A null dereference is `fault`, an action that is never possible. The epoch guards of
the searches are left to the systems built on this engine.
-/

namespace MpmcMap.Ordered

open Conc RedBlack

/-- `MPMC_TREE_MAX_HEIGHT`. -/
def MAX_HEIGHT : Nat := 256

/-- The tree object and the nodes. `locked a` is the thread that set the lock bit of `a`. `count`
is the exact value of `count_`, which `size` reads modulo `2 ^ 64`. -/
structure Heap (Addr Key : Type) where
  root : Option Addr
  child : Addr → Side → Option Addr
  locked : Addr → Option Nat
  color : Addr → Color
  key : Addr → Key
  count : Int
  /-- The nodes handed to the reclaimer, in order. -/
  retired : List Addr
  /-- The nodes given back by `free_node` directly, in order. -/
  freed : List Addr

/-! ## Atomic actions -/

/-- The atomic accesses of the engine. -/
inductive Op (Addr Key : Type) : Type → Type where
  | loadRoot : Op Addr Key (Option Addr)
  | storeRoot (v : Option Addr) : Op Addr Key Unit
  | casRoot (expected desired : Option Addr) : Op Addr Key Bool
  /-- The reload of `root_` after a publication: is it still `v`? -/
  | reloadRoot (v : Option Addr) : Op Addr Key Bool
  | loadChild (a : Addr) (d : Side) : Op Addr Key (Option Addr)
  | storeChild (a : Addr) (d : Side) (v : Option Addr) : Op Addr Key Unit
  | lock (a : Addr) : Op Addr Key Unit
  | unlock (a : Addr) : Op Addr Key Unit
  | loadLocked (a : Addr) : Op Addr Key Bool
  | loadColor (a : Addr) : Op Addr Key Color
  | storeColor (a : Addr) (c : Color) : Op Addr Key Unit
  /-- `x->color = BLACK` of `fixup_delete`'s red `x`. -/
  | blackenX (a : Addr) : Op Addr Key Unit
  /-- The root becomes black without a lock of its own: at the end of an update, or as the first
  node. -/
  | blackenTop (a : Addr) : Op Addr Key Unit
  | loadKey (a : Addr) : Op Addr Key Key
  | addCount : Op Addr Key Unit
  | subCount : Op Addr Key Unit
  | loadCount : Op Addr Key Int
  | storeCount (n : Int) : Op Addr Key Unit
  /-- `reclaimer::retire(n, free_node)`. -/
  | retire (a : Addr) : Op Addr Key Unit
  /-- `node::free_node(n)`. -/
  | freeNode (a : Addr) : Op Addr Key Unit
  /-- `path.nodes[i] = ...`: a write to the fixed-size array of the caller's path stack. The fixups
  also replace entries in place; such an entry was written at the same index when it was pushed. -/
  | writePath (i : Nat) : Op Addr Key Unit
  /-- A capacity test found the path stack full. -/
  | pathFull : Op Addr Key Unit
  /-- A null dereference. -/
  | fault : Op Addr Key Unit

variable {Addr Key : Type}

namespace Heap

def setRoot (h : Heap Addr Key) (v : Option Addr) : Heap Addr Key := { h with root := v }

section

variable (h : Heap Addr Key) (v : Option Addr)

@[simp] theorem setRoot_root : (h.setRoot v).root = v := rfl
@[simp] theorem setRoot_child : (h.setRoot v).child = h.child := rfl
@[simp] theorem setRoot_key : (h.setRoot v).key = h.key := rfl
@[simp] theorem setRoot_color : (h.setRoot v).color = h.color := rfl
@[simp] theorem setRoot_locked : (h.setRoot v).locked = h.locked := rfl

end

variable [DecidableEq Addr]

/-- Write one child pointer. -/
def setChild (h : Heap Addr Key) (a : Addr) (d : Side) (v : Option Addr) : Heap Addr Key :=
  { h with child := fun b e => if b = a ∧ e = d then v else h.child b e }

def setColor (h : Heap Addr Key) (a : Addr) (c : Color) : Heap Addr Key :=
  { h with color := Function.update h.color a c }

def setLocked (h : Heap Addr Key) (a : Addr) (v : Option Nat) : Heap Addr Key :=
  { h with locked := Function.update h.locked a v }

variable (h : Heap Addr Key) (a b : Addr) (d e : Side) (v : Option Addr) (c : Color)
  (w : Option Nat)

@[simp] theorem setChild_same : (h.setChild a d v).child a d = v := by simp [setChild]

@[simp] theorem setChild_flip : (h.setChild a d v).child a d.flip = h.child a d.flip := by
  simp [setChild]

@[simp] theorem setChild_of_flip : (h.setChild a d.flip v).child a d = h.child a d := by
  simp [setChild]

theorem setChild_ne {a b : Addr} (hab : b ≠ a) : (h.setChild a d v).child b e = h.child b e := by
  simp [setChild, hab]

@[simp] theorem setChild_root : (h.setChild a d v).root = h.root := rfl
@[simp] theorem setChild_color : (h.setChild a d v).color = h.color := rfl
@[simp] theorem setChild_key : (h.setChild a d v).key = h.key := rfl
@[simp] theorem setChild_locked : (h.setChild a d v).locked = h.locked := rfl

@[simp] theorem setColor_same : (h.setColor a c).color a = c := by simp [setColor]

theorem setColor_ne {a b : Addr} (hab : b ≠ a) : (h.setColor a c).color b = h.color b := by
  simp [setColor, hab]

@[simp] theorem setColor_root : (h.setColor a c).root = h.root := rfl
@[simp] theorem setColor_child : (h.setColor a c).child = h.child := rfl
@[simp] theorem setColor_key : (h.setColor a c).key = h.key := rfl
@[simp] theorem setColor_locked : (h.setColor a c).locked = h.locked := rfl

@[simp] theorem setLocked_same : (h.setLocked a w).locked a = w := by simp [setLocked]

theorem setLocked_ne {a b : Addr} (hab : b ≠ a) : (h.setLocked a w).locked b = h.locked b := by
  simp [setLocked, hab]

@[simp] theorem setLocked_root : (h.setLocked a w).root = h.root := rfl
@[simp] theorem setLocked_child : (h.setLocked a w).child = h.child := rfl
@[simp] theorem setLocked_key : (h.setLocked a w).key = h.key := rfl
@[simp] theorem setLocked_color : (h.setLocked a w).color = h.color := rfl

end Heap

variable [DecidableEq Addr]

/-- The meaning of the actions, performed by thread `t`. -/
def Op.apply {β : Type} (t : Nat) (o : Op Addr Key β) (h : Heap Addr Key) :
    Option (β × Heap Addr Key) :=
  match o with
  | .loadRoot => some (h.root, h)
  | .storeRoot v => some ((), h.setRoot v)
  | .casRoot expected desired =>
    if h.root = expected then some (true, h.setRoot desired) else some (false, h)
  | .reloadRoot v => some (h.root = v, h)
  | .loadChild a d => some (h.child a d, h)
  | .storeChild a d v => some ((), h.setChild a d v)
  | .lock a => if h.locked a = none then some ((), h.setLocked a (some t)) else none
  | .unlock a => some ((), h.setLocked a none)
  | .loadLocked a => some ((h.locked a).isSome, h)
  | .loadColor a => some (h.color a, h)
  | .storeColor a c => some ((), h.setColor a c)
  | .blackenX a | .blackenTop a => some ((), h.setColor a .BLACK)
  | .loadKey a => some (h.key a, h)
  | .addCount => some ((), { h with count := h.count + 1 })
  | .subCount => some ((), { h with count := h.count - 1 })
  | .loadCount => some (h.count, h)
  | .storeCount n => some ((), { h with count := n })
  | .retire a => some ((), { h with retired := h.retired ++ [a] })
  | .freeNode a => some ((), { h with freed := h.freed ++ [a] })
  | .writePath _ => some ((), h)
  | .pathFull => some ((), h)
  | .fault => none

/-! ## The code -/

abbrev Code (Addr Key : Type) := Prog (Op Addr Key)

section Code

open Prog (perform iterate)

/-- `compare`: `-1`, `0`, `1` of the source are `lt`, `eq`, `gt`. -/
def compare (cmp : Key → Key → Bool) (a b : Key) : Ordering :=
  if cmp a b then .lt else if cmp b a then .gt else .eq

/-- The side on which a descent goes on after a comparison that is not `0`. -/
def sideOf : Ordering → Side
  | .lt => .left
  | _ => .right

/-- `is_black`; null counts as black. -/
def isBlack : Option Addr → Code Addr Key Bool
  | none => return true
  | some a => do
    let c ← perform (.loadColor a)
    return c = .BLACK

/-- `n != nullptr && n->color == RED`. -/
def isRed : Option Addr → Code Addr Key Bool
  | none => return false
  | some a => do
    let c ← perform (.loadColor a)
    return c = .RED

/-- A child of a node that may be null: null in that case. -/
def childOf (n : Option Addr) (d : Side) : Code Addr Key (Option Addr) :=
  match n with
  | none => return none
  | some a => perform (.loadChild a d)

/-! ### Search -/

/-- What `search` answers: the node, or the last node visited. -/
inductive SearchResult (Addr : Type) where
  | found (a : Addr)
  | absent (last : Option Addr)
  deriving DecidableEq, Repr

/-- One node of a descent of `search`, from `(cur, parent)`; `none` is `retry`. -/
def searchStep (cmp : Key → Key → Bool) (k : Key) :
    Option Addr × Option Addr →
      Code Addr Key (Option Addr × Option Addr ⊕ Option (SearchResult Addr))
  | (none, parent) => return .inr (some (.absent parent))
  | (some cur, _) => do
    if ← perform (.loadLocked cur) then
      return .inr none
    let c := compare cmp k (← perform (.loadKey cur))
    if c = .eq then
      return .inr (some (.found cur))
    let child ← perform (.loadChild cur (sideOf c))
    if ← perform (.loadLocked cur) then
      return .inr none
    return .inl (child, some cur)

/-- One descent of `search` from the root. -/
def searchTry (cmp : Key → Key → Bool) (k : Key) :
    Unit → Code Addr Key (Unit ⊕ SearchResult Addr)
  | () => do
    match ← perform .loadRoot with
    | none => return .inr (.absent none)
    | some root =>
      match ← iterate (searchStep cmp k) (some root, none) with
      | none => return .inl ()
      | some r => return .inr r

/-- `search`. -/
def search (cmp : Key → Key → Bool) (k : Key) : Code Addr Key (SearchResult Addr) :=
  iterate (searchTry cmp k) ()

/-- `find_node`. -/
def findNode (cmp : Key → Key → Bool) (k : Key) : Code Addr Key (Option Addr) := do
  match ← search cmp k with
  | .found a => return some a
  | .absent _ => return none

/-- One node of the descent of `bound_node`, from `(cur, candidate)`. A descent that meets a locked
node stops there. -/
def boundStep (cmp : Key → Key → Bool) (k : Key) (strict : Bool) :
    Option Addr × Option Addr → Code Addr Key (Option Addr × Option Addr ⊕ Option Addr)
  | (none, candidate) => return .inr candidate
  | (some cur, candidate) => do
    if ← perform (.loadLocked cur) then
      return .inr candidate
    let c := compare cmp k (← perform (.loadKey cur))
    let goLeft := if strict then c = .lt else c ≠ .gt
    let candidate := if goLeft then some cur else candidate
    let child ← perform (.loadChild cur (if goLeft then .left else .right))
    if ← perform (.loadLocked cur) then
      return .inr candidate
    return .inl (child, candidate)

/-- `bound_node`: the key found. -/
def boundNode (cmp : Key → Key → Bool) (k : Key) (strict : Bool) :
    Code Addr Key (Option Key) := do
  let root ← perform .loadRoot
  let candidate ← iterate (boundStep cmp k strict) (root, none)
  match candidate with
  | none => return none
  | some a => return some (← perform (.loadKey a))

/-- One node of the descent of `first_node`; `inr none` after a locked node. -/
def firstStep : Option Addr → Code Addr Key (Option Addr ⊕ Option (Option Key))
  | none => return .inr (some none)
  | some cur => do
    if ← perform (.loadLocked cur) then
      return .inr none
    let child ← perform (.loadChild cur .left)
    if ← perform (.loadLocked cur) then
      return .inr none
    match child with
    | none =>
      let k ← perform (.loadKey cur)
      return .inr (some (some k))
    | some child => return .inl (some child)

/-- One descent of `first_node`. -/
def firstTry : Unit → Code Addr Key (Unit ⊕ Option Key)
  | () => do
    let root ← perform .loadRoot
    match ← iterate firstStep root with
    | none => return .inl ()
    | some answer => return .inr answer

/-- `first_node`. -/
def firstNode : Code Addr Key (Option Key) := iterate firstTry ()

/-- `next_node`. -/
def nextNode (cmp : Key → Key → Bool) (k : Key) : Code Addr Key (Option Key) :=
  boundNode cmp k true

/-! ### The locked path -/

/-- What `lock_path` answers: 1, 0 (with the side of the position) or -1. -/
inductive LockResult (Addr : Type) where
  | found (target : Addr) (above : List Addr)
  | absent (parent : Addr) (above : List Addr) (side : Side)
  | empty
  deriving DecidableEq, Repr

/-- `unlock_path`: from the top of the stack down. -/
def unlockPath : List Addr → Code Addr Key Unit
  | [] => return ()
  | a :: path => do
    perform (.unlock a)
    unlockPath path

/-- One node of the descent of `lock_path`: `cur` is locked, `above` is the path above it. -/
def lockStep (cmp : Key → Key → Bool) (k : Key) :
    Addr × List Addr → Code Addr Key (Addr × List Addr ⊕ LockResult Addr)
  | (cur, above) => do
    let c := compare cmp k (← perform (.loadKey cur))
    if c = .eq then
      return .inr (.found cur above)
    match ← perform (.loadChild cur (sideOf c)) with
    | none => return .inr (.absent cur above (sideOf c))
    | some child =>
      if MAX_HEIGHT ≤ (cur :: above).length then
        perform .pathFull
        unlockPath (cur :: above)
        return .inr .empty
      perform (.lock child)
      perform (.writePath (cur :: above).length)
      return .inl (child, cur :: above)

/-- One attempt of `lock_path`. -/
def lockTry (cmp : Key → Key → Bool) (k : Key) :
    Unit → Code Addr Key (Unit ⊕ LockResult Addr)
  | () => do
    match ← perform .loadRoot with
    | none => return .inr .empty
    | some cur =>
      perform (.lock cur)
      let root ← perform .loadRoot
      if root = some cur then
        perform (.writePath 0)
        let r ← iterate (lockStep cmp k) (cur, [])
        return .inr r
      else
        -- a stale root
        perform (.unlock cur)
        return .inl ()

/-- `lock_path`. -/
def lockPath (cmp : Key → Key → Bool) (k : Key) : Code Addr Key (LockResult Addr) :=
  iterate (lockTry cmp k) ()

/-! ### Rotations -/

/-- `rotate_inner`: `n` is the child of `p` on `side`. -/
def rotateInner (p n : Addr) (side : Side) : Code Addr Key Unit := do
  let middle ← perform (.loadChild n side.flip)
  perform (.storeChild n side.flip (some p))
  perform (.storeChild p side middle)

/-- `rewire_child`. -/
def rewireChild (parent : Addr) (old : Addr) (new : Option Addr) : Code Addr Key Unit := do
  if (← perform (.loadChild parent .left)) = some old then
    perform (.storeChild parent .left new)
  else
    perform (.storeChild parent .right new)

/-- The pointer to `old`, the node below the entries `above` of the path, becomes `new`: by
`rewire_child` in the parent or by a store to `root_`. -/
def replaceChild (above : List Addr) (old : Addr) (new : Option Addr) : Code Addr Key Unit :=
  match above with
  | parent :: _ => rewireChild parent old new
  | [] => perform (.storeRoot new)

/-- `rotate`: the entries of the path below `p`'s own, or `none` for `NOT_IN_PATH`. -/
def rotate (p : Addr) (side : Side) (below : Option (List Addr)) : Code Addr Key Unit := do
  match ← perform (.loadChild p side) with
  | none => perform .fault
  | some n =>
    rotateInner p n side
    match below with
    | none => return ()
    | some below => replaceChild below p (some n)

/-! ### Fixups -/

/-- The side of `p` on which `a` is, when it is a child. -/
def sideIn (p a : Addr) : Code Addr Key Side := do
  return if (← perform (.loadChild p .left)) = some a then .left else .right

/-- Case 1 of `fixup_insert`: recolor, climb two levels. -/
def insertCase1 (x p g uncle : Addr) (rest : List Addr) : Code Addr Key (List Addr) := do
  perform (.lock uncle)
  perform (.storeColor p .BLACK)
  perform (.storeColor uncle .BLACK)
  perform (.storeColor g .RED)
  perform (.unlock uncle)
  perform (.unlock x)
  perform (.unlock p)
  return g :: rest

/-- Case 2 of `fixup_insert`: `p` is rotated up, after which `x` and `p` have changed places. -/
def insertCase2 (x p g : Addr) (side : Side) (rest : List Addr) : Code Addr Key (Addr × Addr) := do
  if (← perform (.loadChild p side.flip)) = some x then
    rotate p side.flip (some (g :: rest))
    return (p, x)
  else
    return (x, p)

/-- Case 3 of `fixup_insert`: rotate `g` up and recolor. -/
def insertCase3 (x p g : Addr) (side : Side) (rest : List Addr) : Code Addr Key (List Addr) := do
  perform (.storeColor p .BLACK)
  perform (.storeColor g .RED)
  rotate g side (some rest)
  perform (.unlock g)
  perform (.unlock x)
  return p :: rest

/-- One iteration of `fixup_insert`. -/
def fixupInsertStep : List Addr → Code Addr Key (List Addr ⊕ List Addr)
  | x :: p :: g :: rest => do
    if (← perform (.loadColor p)) = .BLACK then
      return .inr (x :: p :: g :: rest)
    let side ← sideIn g p
    let uncle ← perform (.loadChild g side.flip)
    match uncle, ← isRed uncle with
    | some uncle, true =>
      let path ← insertCase1 x p g uncle rest
      return .inl path
    | _, _ =>
      let (x, p) ← insertCase2 x p g side rest
      let path ← insertCase3 x p g side rest
      return .inr path
  | path => return .inr path

/-- `fixup_insert`: answers what is left on the path. -/
def fixupInsert (path : List Addr) : Code Addr Key (List Addr) := iterate fixupInsertStep path

/-- Lock a node that may be null, unless it is locked already. -/
def lockUnless (locked : Bool) : Option Addr → Code Addr Key Unit
  | some a => if locked then return () else perform (.lock a)
  | none => return ()

/-- Color a node that may be null. -/
def storeColorOf (c : Color) : Option Addr → Code Addr Key Unit
  | some a => perform (.storeColor a c)
  | none => return ()

/-- Make the red `x` black, which may be null. -/
def blackenX : Option Addr → Code Addr Key Unit
  | some a => perform (.blackenX a)
  | none => return ()

/-- Unlock a node that may be null, unless it was locked before. -/
def unlockUnless (locked : Bool) : Option Addr → Code Addr Key Unit
  | some a => if locked then return () else perform (.unlock a)
  | none => return ()

/-- Lock a node, make it black, unlock it. -/
def blackenLocked (r : Addr) : Code Addr Key Unit := do
  perform (.lock r)
  perform (.storeColor r .BLACK)
  perform (.unlock r)

/-- Case 2 of `fixup_delete`: recolor `w` and climb. -/
def deleteCase2 (p : Addr) (rest : List Addr) (w : Option Addr) (wLocked : Bool) (xSide : Side) :
    Code Addr Key (List Addr × Option Addr × Side) := do
  lockUnless wLocked w
  storeColorOf .RED w
  unlockUnless wLocked w
  perform (.unlock p)
  match rest with
  | gp :: _ =>
    let side ← sideIn gp p
    return (rest, some p, side)
  | [] => return (rest, some p, xSide)

/-- Case 4 of `fixup_delete`: answers the path. -/
def deleteCase4 (p : Addr) (rest : List Addr) (w : Addr) (far : Option Addr) (wLocked : Bool)
    (xSide : Side) : Code Addr Key (List Addr) := do
  lockUnless wLocked (some w)
  lockUnless false far
  perform (.storeColor w (← perform (.loadColor p)))
  perform (.storeColor p .BLACK)
  storeColorOf .BLACK far
  unlockUnless false far
  rotate p xSide.flip (some rest)
  perform (.unlock p)
  return w :: rest

/-- The test for case 3 of `fixup_delete`: `near` red and `far` black. -/
def deleteIsCase3 (near far : Option Addr) : Code Addr Key Bool := do
  if ← isBlack near then
    return false
  else
    isBlack far

/-- Case 3 of `fixup_delete`: recolor `near`, rotate `w`; answers the new far child. -/
def deleteCase3 (p w near : Addr) (xSide : Side) : Code Addr Key (Option Addr) := do
  perform (.lock w)
  perform (.lock near)
  perform (.storeColor near .BLACK)
  perform (.storeColor w .RED)
  rotate w xSide none
  rewireChild p w (some near)
  perform (.unlock w)
  perform (.loadChild near xSide.flip)

/-- Cases 2 and 4 of `fixup_delete`. -/
def deleteCase24 (p : Addr) (rest : List Addr) (w far : Option Addr) (wLocked : Bool)
    (xSide : Side) : Code Addr Key ((List Addr × Option Addr × Side) ⊕ List Addr) := do
  match w with
  | none =>
    let l ← deleteCase2 p rest none wLocked xSide
    return .inl l
  | some w =>
    if ← isBlack (some w) then
      if ← isBlack far then
        let l ← deleteCase2 p rest (some w) wLocked xSide
        return .inl l
      else
        let path ← deleteCase4 p rest w far wLocked xSide
        return .inr path
    else
      -- red siblings are dealt with before
      return .inr (p :: rest)

/-- What `fixup_delete` does once the sibling `w` is not red. -/
def deleteBlackSibling (p : Addr) (rest : List Addr) (w : Option Addr) (xSide : Side) :
    Code Addr Key ((List Addr × Option Addr × Side) ⊕ List Addr) := do
  let near ← childOf w xSide
  let far ← childOf w xSide.flip
  match w, near, ← deleteIsCase3 near far with
  | some w, some near, true =>
    let far ← deleteCase3 p w near xSide
    deleteCase24 p rest (some near) far true xSide
  | _, _, _ => deleteCase24 p rest w far false xSide

/-- Case 1 of `fixup_delete`: recolor and rotate `p`; `w` takes `p`'s entry. -/
def deleteCase1 (p : Addr) (rest : List Addr) (w : Addr) (xSide : Side) :
    Code Addr Key (List Addr) := do
  perform (.lock w)
  perform (.storeColor w .BLACK)
  perform (.storeColor p .RED)
  rotate p xSide.flip (some rest)
  perform (.writePath (w :: rest).length)
  return p :: w :: rest

/-- What `fixup_delete` does below the top `p` of the path, once `x` is not red. -/
def deleteBelow (p : Addr) (rest : List Addr) (x : Option Addr) (xSide : Side) :
    Code Addr Key ((List Addr × Option Addr × Side) ⊕ List Addr) := do
  let w ← perform (.loadChild p xSide.flip)
  match w, ← isRed w with
  | some w, true =>
    let path ← deleteCase1 p rest w xSide
    return .inl (path, x, xSide)
  | w, _ => deleteBlackSibling p rest w xSide

/-- One iteration of `fixup_delete`, from `(path, x, x_side)`. -/
def fixupDeleteStep : List Addr × Option Addr × Side →
    Code Addr Key ((List Addr × Option Addr × Side) ⊕ List Addr)
  | ([], _, _) => do
    match ← perform .loadRoot with
    | none => return .inr []
    | some r =>
      blackenLocked r
      return .inr []
  | (p :: rest, x, xSide) => do
    if ← isRed x then
      blackenX x
      return .inr (p :: rest)
    else
      deleteBelow p rest x xSide

/-- `fixup_delete`: answers what is left on the path. -/
def fixupDelete (path : List Addr) (x : Option Addr) (xSide : Side) :
    Code Addr Key (List Addr) :=
  iterate fixupDeleteStep (path, x, xSide)

/-- The closing blackening of the root of `insert_node` and `erase_node`. -/
def blackenRoot (path : List Addr) : Code Addr Key Unit := do
  match ← perform .loadRoot with
  | none => return ()
  | some r =>
    match path with
    | [] => blackenLocked r
    | _ :: _ => perform (.blackenTop r)

/-! ### Updates -/

/-- `insert_node` once its position is locked. -/
def insertAt (n parent : Addr) (above : List Addr) (side : Side) : Code Addr Key Unit := do
  perform (.lock n)
  perform (.storeChild parent side (some n))
  perform (.storeColor n .RED)
  perform (.writePath (parent :: above).length)
  let path ← fixupInsert (n :: parent :: above)
  blackenRoot path
  unlockPath path
  perform .addCount

/-- One attempt of `insert_node`, from the answer of `lock_path`. -/
def insertLocked (n : Addr) : LockResult Addr → Code Addr Key (Unit ⊕ Bool)
  | .found target above => do
    unlockPath (target :: above)
    return .inr false
  | .empty => do
    -- empty tree (or path overflow): CAS the root
    if ← perform (.casRoot none (some n)) then
      perform (.blackenTop n)
      perform .addCount
      return .inr true
    else
      return .inl ()
  | .absent parent above side => do
    insertAt n parent above side
    return .inr true

/-- `insert_node`: whether the node was inserted. -/
def insertNode (cmp : Key → Key → Bool) (n : Addr) (k : Key) : Code Addr Key Bool :=
  iterate (fun (_ : Unit) => do
    let r ← lockPath cmp k
    insertLocked n r) ()

/-- The end of `erase_node`, after the fixup. -/
def finishErase (target : Addr) (path : List Addr) : Code Addr Key Unit := do
  blackenRoot path
  unlockPath path
  perform (.retire target)
  perform .subCount

/-- `erase_node` of a target with at most one child: unlink it. -/
def eraseSimple (target : Addr) (above : List Addr) (child : Option Addr) :
    Code Addr Key Unit := do
  let xSide ← (match above with
    | parent :: _ => sideIn parent target
    | [] => return .right : Code Addr Key Side)
  replaceChild above target child
  perform (.unlock target)
  let path ← (if (← perform (.loadColor target)) = .BLACK then fixupDelete above child xSide
    else return above : Code Addr Key (List Addr))
  finishErase target path

/-- One node of the extension of the path to the in-order successor; `ext` are the entries between
`succ`'s and the target's, which is at `depth - 1`. `inr (inr _)`: the path stack is full. -/
def successorStep (depth : Nat) :
    Addr × List Addr → Code Addr Key (Addr × List Addr ⊕ (Addr × List Addr ⊕ List Addr))
  | (succ, ext) => do
    match ← perform (.loadChild succ .left) with
    | none => return .inr (.inl (succ, ext))
    | some _ =>
      if MAX_HEIGHT ≤ (succ :: ext).length + depth then
        perform .pathFull
        return .inr (.inr (succ :: ext))
      match ← perform (.loadChild succ .left) with
      | none =>
        perform .fault
        return .inr (.inr [])
      | some next =>
        perform (.lock next)
        perform (.writePath ((succ :: ext).length + depth))
        return .inl (next, succ :: ext)

/-- The extension of the path from the target's right child to the successor. -/
def lockSuccessor (right : Addr) (depth : Nat) : Code Addr Key (Addr × List Addr ⊕ List Addr) := do
  perform (.writePath depth)
  perform (.lock right)
  iterate (successorStep depth) (right, [])

/-- The successor is unlinked from its parent, the target if `ext` is empty; answers the side. -/
def unlinkSuccessor (target : Addr) (succRight : Option Addr) (ext : List Addr) :
    Code Addr Key Side :=
  match ext with
  | [] => do
    perform (.storeChild target .right succRight)
    return .right
  | succParent :: _ => do
    perform (.storeChild succParent .left succRight)
    return .left

/-- `erase_node` of a target with two children, its successor `succ` locked: relink it. `ext` are
the entries between `succ`'s and the target's. -/
def eraseRelink (target : Addr) (above : List Addr) (left right succ : Addr)
    (ext : List Addr) : Code Addr Key Unit := do
  let succRight ← perform (.loadChild succ .right)
  let succColor ← perform (.loadColor succ)
  let xSide ← unlinkSuccessor target succRight ext
  -- the successor takes the target's place
  replaceChild above target (some succ)
  perform (.storeChild succ .left (some left))
  perform (.storeChild succ .right (if succ = right then succRight else some right))
  perform (.storeColor succ (← perform (.loadColor target)))
  perform (.storeChild target .left none)
  perform (.storeChild target .right none)
  perform (.writePath above.length)
  let path ← (if succColor = .BLACK then fixupDelete (ext ++ succ :: above) succRight xSide
    else return ext ++ succ :: above : Code Addr Key (List Addr))
  perform (.unlock target)
  finishErase target path

/-- `erase_node` of a target with two children; `inl` is the retry after a full path. -/
def eraseTwo (target : Addr) (above : List Addr) (left right : Addr) :
    Code Addr Key (Unit ⊕ Bool) := do
  match ← lockSuccessor right (target :: above).length with
  | .inr ext =>
    unlockPath (ext ++ target :: above)
    return .inl ()
  | .inl (succ, ext) =>
    eraseRelink target above left right succ ext
    return .inr true

/-- One attempt of `erase_node`, from the answer of `lock_path`. -/
def eraseLocked : LockResult Addr → Code Addr Key (Unit ⊕ Bool)
  | .absent parent above _ => do
    unlockPath (parent :: above)
    return .inr false
  | .empty => return .inr false
  | .found target above => do
    let left ← perform (.loadChild target .left)
    let right ← perform (.loadChild target .right)
    match left, right with
    | some left, some right => eraseTwo target above left right
    | left, right =>
      eraseSimple target above (left <|> right)
      return .inr true

/-- `erase_node`: whether the key was present. -/
def eraseNode (cmp : Key → Key → Bool) (k : Key) : Code Addr Key Bool :=
  iterate (fun (_ : Unit) => do
    let r ← lockPath cmp k
    eraseLocked r) ()

/-! ### Size and clear -/

/-- `size`: the value of a 64-bit counter. -/
def size : Code Addr Key Nat := do
  let n ← perform .loadCount
  return (n % 2 ^ 64).toNat

/-- One iteration of the loops of `free_subtree`, from `cur` and the explicit stack. -/
def freeStep : Option Addr × List Addr → Code Addr Key (Option Addr × List Addr ⊕ Unit)
  | (some cur, stack) => do
    -- the inner loop: push and go left
    let left ← perform (.loadChild cur .left)
    return .inl (left, cur :: stack)
  | (none, cur :: stack) => do
    let right ← perform (.loadChild cur .right)
    perform (.freeNode cur)
    return .inl (right, stack)
  | (none, []) => return .inr ()

/-- `free_subtree`. -/
def freeSubtree (cur : Option Addr) : Code Addr Key Unit := iterate freeStep (cur, [])

/-- `clear_impl`; `root_.exchange` is one access. -/
def clearImpl : Code Addr Key Unit := do
  let cur ← perform .loadRoot
  perform (.storeRoot none)
  freeSubtree cur
  perform (.storeCount 0)

end Code

end MpmcMap.Ordered
