import MpmcMap.Conc.Choices
import MpmcMap.Conc.Throw
import MpmcMap.Unordered.Engine

/-!
# The container in one thread

`unordered_map` over the engine, used by a single thread, where allocations and constructors may
throw. Beside the heap, a log of the payload objects that were constructed and destroyed.

`node()` default-constructs the payload, which its initializer list does not mention, and
`value_type(args...)` is constructed in the same place afterwards.
-/

namespace MpmcMap.Unordered

open Conc
open Prog (perform iterate)

/-- The container, the decisions to come and the log of the payload objects. -/
structure World (Addr Key : Type) where
  heap : Heap Addr Key
  choices : Decisions
  log : List (Event Addr)

/-! ## Actions that may throw -/

/-- The actions that the engine leaves to the allocator, the payload and the reclaimer. `none` is an
exception. -/
inductive Own (Addr Key : Type) : Type → Type where
  /-- `pool_.acquire(na_)`. -/
  | acquire : Own Addr Key (Option Addr)
  /-- `::new (n) node()`. -/
  | blank (n : Addr) : Own Addr Key (Option Unit)
  /-- `::new (&n->payload) value_type(args...)`. -/
  | value (n : Addr) (k : Key) : Own Addr Key (Option Unit)
  | makeTable (size : Nat) : Own Addr Key (Option Nat)
  | retireNode (a : Addr) : Own Addr Key (Option Unit)
  | retireTable (t : Nat) : Own Addr Key (Option Unit)

/-- The actions of the container. -/
inductive Act (Addr Key β : Type) : Type where
  | access (o : Op Addr Key β)
  | own (o : Own Addr Key β)

section Meaning

variable {Addr Key : Type} [DecidableEq Addr]

namespace Heap

/-- `pool_.acquire`: the block that the allocator picks. -/
def acquire (h : Heap Addr Key) : Addr × Heap Addr Key :=
  (h.pick h.allocs h.inUse,
    { h with inUse := insert (h.pick h.allocs h.inUse) h.inUse, allocs := h.allocs + 1 })

/-- `node()`. -/
def blank (h : Heap Addr Key) (n : Addr) : Heap Addr Key :=
  { h with next := Function.update h.next n .null, soKey := Function.update h.soKey n 0 }

/-- A payload with the key `k`. -/
def setKey (h : Heap Addr Key) (n : Addr) (k : Key) : Heap Addr Key :=
  { h with key := Function.update h.key n k }

/-- `pool_.release`. -/
def release (h : Heap Addr Key) (n : Addr) : Heap Addr Key :=
  { h with freed := h.freed ++ [n], inUse := h.inUse.erase n }

end Heap

/-- The engine's accesses by a single thread. `free_node_action` destroys the payload. -/
def Op.alone {β : Type} (o : Op Addr Key β) (w : World Addr Key) : Option (β × World Addr Key) :=
  match o with
  | .casNextWeak a expected desired =>
    let (r, h) := w.heap.compareExchange a expected desired (w.choices.head .weak)
    some (r, { w with heap := h, choices := w.choices.next .weak })
  | .freeNode a => some ((), { w with heap := w.heap.release a, log := w.log ++ [.destroy a] })
  | o => (o.apply false w.heap).map fun r => (r.1, { w with heap := r.2 })

/-- The other actions: `c` decides whether one throws. -/
def Own.alone {β : Type} (o : Own Addr Key β) (w : World Addr Key) : β × World Addr Key :=
  match o with
  | .acquire =>
    let w' := { w with choices := w.choices.next .node }
    if w.choices.head .node then (none, w')
    else (some w.heap.acquire.1, { w' with heap := w.heap.acquire.2 })
  | .blank n =>
    let w' := { w with choices := w.choices.next .blank }
    if w.choices.head .blank then (none, w')
    else (some (), { w' with heap := w.heap.blank n, log := w.log ++ [.construct n] })
  | .value n k =>
    let w' := { w with choices := w.choices.next .value }
    if w.choices.head .value then (none, w')
    else (some (), { w' with heap := w.heap.setKey n k, log := w.log ++ [.construct n] })
  | .makeTable size =>
    let w' := { w with choices := w.choices.next .table }
    if w.choices.head .table then (none, w')
    else (some (w.heap.makeTable size).1, { w' with heap := (w.heap.makeTable size).2 })
  | .retireNode a =>
    let w' := { w with choices := w.choices.next .retire }
    if w.choices.head .retire then (none, w')
    else (some (), { w' with heap := { w.heap with retired := w.heap.retired ++ [a] } })
  | .retireTable t =>
    let w' := { w with choices := w.choices.next .retire }
    if w.choices.head .retire then (none, w')
    else (some (), { w' with heap := { w.heap with retiredTables := w.heap.retiredTables ++ [t] } })

def Act.alone {β : Type} (o : Act Addr Key β) (w : World Addr Key) : Option (β × World Addr Key) :=
  match o with
  | .access o => o.alone w
  | .own o => some (o.alone w)

/-- The engine's accesses, where a cell outside of its table is a fault. -/
def Op.bounded {β : Type} (o : Op Addr Key β) (w : World Addr Key) : Option (β × World Addr Key) :=
  match o with
  | .loadBucket t b => if b < w.heap.size t then Op.alone (.loadBucket t b) w else none
  | .storeBucket t b v => if b < w.heap.size t then Op.alone (.storeBucket t b v) w else none
  | .casBucket t b desired =>
    if b < w.heap.size t then Op.alone (.casBucket t b desired) w else none
  | o => o.alone w

def Act.bounded {β : Type} (o : Act Addr Key β) (w : World Addr Key) :
    Option (β × World Addr Key) :=
  match o with
  | .access o => o.bounded w
  | .own o => some (o.alone w)

theorem Op.alone_of_bounded {β : Type} {o : Op Addr Key β} {w : World Addr Key}
    {r : β × World Addr Key} (h : o.bounded w = some r) : o.alone w = some r := by
  unfold Op.bounded at h
  split at h
  case h_1 | h_2 | h_3 =>
    split at h
    · exact h
    · cases h
  case h_4 => exact h

theorem loadBucket_bounded {t b : Nat} {w : World Addr Key} (h : b < w.heap.size t) :
    (Op.loadBucket t b).bounded w = some (w.heap.bucket t b, w) := if_pos h

/-- What returns without a fault returns where nothing is checked. -/
theorem ends_unbounded {α : Type} {Q : α → World Addr Key → Prop} {p : Prog (Act Addr Key) α}
    {w : World Addr Key} (h : Ends (Solo.of Act.bounded) Q p w) : Ends (Solo.of Act.alone) Q p w := by
  have hact : ∀ {β : Type} (o : Act Addr Key β) (w : World Addr Key) (r : β × World Addr Key),
      o.bounded w = some r → o.alone w = some r := by
    intro β o w r hr
    cases o with
    | access o => exact Op.alone_of_bounded hr
    | own o => exact hr
  apply Until.lift h
  · intro β o w hpre
    obtain ⟨r, hr⟩ := Option.isSome_iff_exists.mp hpre
    exact Option.isSome_of_eq_some (hact o w r hr)
  · intro β o w r w' hpre hstep
    obtain ⟨r', hr'⟩ := Option.isSome_iff_exists.mp hpre
    have hsame : some (r, w') = some r' := hstep.symm.trans (hact o w r' hr')
    exact hr'.trans hsame.symm

end Meaning

/-! ## The code -/

/-- Programs of the container. Those that may throw answer an `Option`; `none` is an exception. -/
abbrev Steps (Addr Key : Type) := Prog (Act Addr Key)

section Code

variable {Addr Key : Type}

/-- `alloc_node()`. -/
def allocNode : Steps Addr Key (Option Addr) :=
  (perform (.own .acquire) : Steps Addr Key (Option Addr)).andThen fun n =>
    (perform (.own (.blank n)) : Steps Addr Key (Option Unit)).andThen fun _ => .ret (some n)

/-- The engine's accesses, some of which may throw. -/
def throwing {β : Type} (o : Op Addr Key β) : Steps Addr Key (Option β) :=
  match o with
  | .allocNode => allocNode
  | .newTable size => perform (.own (.makeTable size))
  | .retireNode a => perform (.own (.retireNode a))
  | .retireTable t => perform (.own (.retireTable t))
  | o => (perform (.access o)).bind fun r => .ret (some r)

variable [DecidableEq Addr] (C : Config Key)

/-- The loop of `grow_once`. -/
def growLoop (force : Bool) : Code Addr Key Unit :=
  iterate (fun (_ : Unit) => do
    let t ← loadTable C
    let sz ← perform (.loadSize t)
    if ← (if force then return false else isRoomy t : Code Addr Key Bool) then
      return .inr ()
    else if MAX_BUCKETS ≤ sz then
      return .inr ()
    else
      let nt ← perform (.newTable (sz * 2))
      copyCells t nt sz
      if ← perform (.casTable t nt) then
        perform (.retireTable t)
        return .inl ()
      else
        perform (.destroyTable nt)
        return .inl ()) ()

/-- The tests of `maybe_grow`: is the table to grow? -/
def isCrowded : Code Addr Key Bool := do
  let cached ← perform .loadCached
  let skip ← (if 0 < cached then do return (← perform .loadCount) ≤ cached
    else return false : Code Addr Key Bool)
  if !skip then
    let threshold ← refreshCached
    return threshold < (← perform .loadCount)
  else
    return false

namespace Container

/-- `grow_once(force)`; an exception resets `growing_`. -/
def growOnce (force : Bool) : Steps Addr Key (Option Unit) := do
  if ← perform (.access .casGrowing) then
    let r ← (growLoop C force).attempt throwing
    perform (.access (.storeGrowing false))
    return r
  else
    return some ()

/-- `maybe_grow()`. -/
def maybeGrow : Steps Addr Key (Option Unit) :=
  (isCrowded.attempt throwing).andThen fun crowded =>
    if crowded then
      (growOnce C false).andThen fun _ =>
        (refreshCached.attempt throwing).andThen fun _ => .ret (some ())
    else .ret (some ())

/-- The end of an insertion: `insert_node` and what follows it. -/
def link (n : Addr) (k : Key) : Steps Addr Key (Option Bool) :=
  ((insertNode C n (C.mixedHash k) (soKeyOf (C.mixedHash k)) k).attempt throwing).andThen fun r =>
    match r with
    | .INSERT_OK => (maybeGrow C).andThen fun _ => .ret (some true)
    | .INSERT_DUPLICATE => do
      perform (.access (.freeNode n))
      return some false

/-- `emplace(args...)`, where the arguments make a payload of key `k`; `insert` and `try_emplace`
call it. -/
def emplace (k : Key) : Steps Addr Key (Option Bool) :=
  allocNode.andThen fun n => do
    match ← perform (.own (.value n k)) with
    | none =>
      perform (.access (.freeNode n))
      return none
    | some _ => link C n k

/-- `find_value_ptr`: the payload of a key. -/
def findValuePtr (k : Key) : Steps Addr Key (Option (Option Key)) :=
  ((findNode C k (C.mixedHash k) (soKeyOf (C.mixedHash k))).attempt throwing).andThen fun r =>
    match r with
    | none => .ret (some none)
    | some a => ((perform (.loadKey a)).attempt throwing).andThen fun v => .ret (some (some v))

/-- `operator[](k)`, which answers the payload; a null result is a null dereference. -/
def subscript (k : Key) : Steps Addr Key (Option (Option Key)) :=
  (findValuePtr C k).andThen fun p =>
    match p with
    | some v => .ret (some (some v))
    | none =>
      allocNode.andThen fun n =>
        -- no handler here
        (perform (.own (.value n k)) : Steps Addr Key (Option Unit)).andThen fun _ =>
          (link C n k).andThen fun inserted =>
            if inserted then .ret (some (some k)) else findValuePtr C k

end Container

end Code

end MpmcMap.Unordered
