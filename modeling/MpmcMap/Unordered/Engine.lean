import MpmcMap.Conc.Prog
import MpmcMap.Unordered.SplitOrder
import Mathlib.Data.Finset.Basic
import Mathlib.Logic.Function.Basic

/-!
# The split-ordered list engine

`split_ordered_table` of `detail/split_ordered_table.hpp`. A tagged pointer is a pointer with its
`MARKED` bit; no function of the engine sets the `BUCKET` bit. Bucket tables are numbered in the
order of their creation. The code of each operation is a program over the atomic accesses; the
scheme enters by the flag `NEEDS_REVALIDATION` and the publications that it switches on. The guards
are left to the systems built on this engine.
-/

namespace MpmcMap.Unordered

open Conc

/-- A tagged `node*`. -/
structure Link (Addr : Type) where
  /-- `tags::clear`. -/
  ptr : Option Addr
  /-- `tags::is_marked`. -/
  marked : Bool
  deriving DecidableEq, Repr

variable {Addr Key : Type}

namespace Link

def null : Link Addr := ⟨none, false⟩

/-- An untagged pointer. -/
def plain (p : Option Addr) : Link Addr := ⟨p, false⟩

/-- `tags::set_marked`. -/
def setMarked (l : Link Addr) : Link Addr := { l with marked := true }

/-- `tags::clear_mark`. -/
def clearMark (l : Link Addr) : Link Addr := { l with marked := false }

end Link

/-- What is published in a hazard slot. -/
inductive Obj (Addr : Type) where
  | node (a : Addr)
  | table (t : Nat)
  deriving DecidableEq

def HP_TABLE : Nat := 0
def HP_PREV : Nat := 1
def HP_CUR : Nat := 2

/-- The container and its blocks. -/
structure Heap (Addr Key : Type) where
  /-- `table_`. -/
  table : Nat
  /-- How many tables have been made. -/
  tables : Nat
  /-- `t->size`. -/
  size : Nat → Nat
  /-- `t->buckets[b]`. -/
  bucket : Nat → Nat → Option Addr
  next : Addr → Link Addr
  soKey : Addr → Word
  key : Addr → Key
  /-- The node blocks that are not free. -/
  inUse : Finset Addr
  /-- The block that the allocator gives out for a dummy: its answer to the n-th request. -/
  pick : Nat → Finset Addr → Addr
  allocs : Nat
  /-- The exact value of `count_`, which is read modulo `2 ^ 64`. -/
  count : Int
  growing : Bool
  /-- The conversion of `size * inv_max_load_factor_` to an integer. -/
  threshold : Nat → Nat
  cachedThreshold : Nat
  /-- The nodes handed to the reclaimer, in order. -/
  retired : List Addr
  retiredTables : List Nat
  /-- The nodes given to `free_node_action` directly, in order. -/
  freed : List Addr

/-! ## Atomic actions -/

/-- The atomic accesses of the engine. -/
inductive Op (Addr Key : Type) : Type → Type where
  | loadTable : Op Addr Key Nat
  /-- The reload of `table_` after a publication: is it still `t`? -/
  | reloadTable (t : Nat) : Op Addr Key Bool
  | casTable (expected desired : Nat) : Op Addr Key Bool
  | loadSize (t : Nat) : Op Addr Key Nat
  /-- `make_table(size)`. -/
  | newTable (size : Nat) : Op Addr Key Nat
  /-- `destroy_table(t)`. -/
  | destroyTable (t : Nat) : Op Addr Key Unit
  | loadBucket (t b : Nat) : Op Addr Key (Option Addr)
  | storeBucket (t b : Nat) (v : Option Addr) : Op Addr Key Unit
  | casBucket (t b : Nat) (desired : Addr) : Op Addr Key Bool
  | loadNext (a : Addr) : Op Addr Key (Link Addr)
  /-- The reload of a `next` pointer after a publication: is it still `l`? -/
  | reloadNext (a : Addr) (l : Link Addr) : Op Addr Key Bool
  | storeNext (a : Addr) (l : Link Addr) : Op Addr Key Unit
  /-- `compare_exchange_strong`. -/
  | casNext (a : Addr) (expected desired : Link Addr) : Op Addr Key Bool
  /-- `compare_exchange_weak`. -/
  | casNextWeak (a : Addr) (expected desired : Link Addr) : Op Addr Key Bool
  | loadSoKey (a : Addr) : Op Addr Key Word
  | storeSoKey (a : Addr) (so : Word) : Op Addr Key Unit
  | loadKey (a : Addr) : Op Addr Key Key
  /-- `alloc_node()`. -/
  | allocNode : Op Addr Key Addr
  | addCount : Op Addr Key Unit
  | subCount : Op Addr Key Unit
  | loadCount : Op Addr Key Nat
  | storeCount (n : Int) : Op Addr Key Unit
  /-- `growing_.compare_exchange_strong(false, true)`. -/
  | casGrowing : Op Addr Key Bool
  | storeGrowing (v : Bool) : Op Addr Key Unit
  | loadThreshold (size : Nat) : Op Addr Key Nat
  | loadCached : Op Addr Key Nat
  | storeCached (n : Nat) : Op Addr Key Unit
  /-- `reclaimer::protect(slot, p)`. -/
  | protect (slot : Nat) (p : Option (Obj Addr)) : Op Addr Key Unit
  /-- `reclaimer::retire(n, free_node_action)`. -/
  | retireNode (a : Addr) : Op Addr Key Unit
  /-- `reclaimer::retire(t, retire_table_action)`. -/
  | retireTable (t : Nat) : Op Addr Key Unit
  /-- `free_node_action(n)`. -/
  | freeNode (a : Addr) : Op Addr Key Unit
  /-- A null dereference. -/
  | fault : Op Addr Key Unit

namespace Heap

variable [DecidableEq Addr]

/-- Write one next pointer. -/
def setNext (h : Heap Addr Key) (a : Addr) (l : Link Addr) : Heap Addr Key :=
  { h with next := Function.update h.next a l }

/-- Write one bucket cell. -/
def setBucket (h : Heap Addr Key) (t b : Nat) (v : Option Addr) : Heap Addr Key :=
  { h with bucket := Function.update h.bucket t (Function.update (h.bucket t) b v) }

/-- `alloc_node`: the block that the allocator picks, with a null `next` and the key 0. -/
def alloc (h : Heap Addr Key) : Addr × Heap Addr Key :=
  let a := h.pick h.allocs h.inUse
  (a, { h with
    next := Function.update h.next a .null
    soKey := Function.update h.soKey a 0
    inUse := insert a h.inUse
    allocs := h.allocs + 1 })

/-- `make_table`. -/
def makeTable (h : Heap Addr Key) (size : Nat) : Nat × Heap Addr Key :=
  (h.tables, { h with
    tables := h.tables + 1
    size := Function.update h.size h.tables size
    bucket := Function.update h.bucket h.tables fun _ => none })

/-- `compare_exchange` on a next pointer; `fails` is a spurious failure. -/
def compareExchange (h : Heap Addr Key) (a : Addr) (expected desired : Link Addr) (fails : Bool) :
    Bool × Heap Addr Key :=
  if h.next a = expected ∧ fails = false then (true, h.setNext a desired) else (false, h)

end Heap

variable [DecidableEq Addr]

/-- The meaning of the actions; `b` makes a weak compare-exchange fail. -/
def Op.apply {β : Type} (b : Bool) (o : Op Addr Key β) (h : Heap Addr Key) :
    Option (β × Heap Addr Key) :=
  match o with
  | .loadTable => some (h.table, h)
  | .reloadTable t => some (h.table = t, h)
  | .casTable expected desired =>
    if h.table = expected then some (true, { h with table := desired }) else some (false, h)
  | .loadSize t => some (h.size t, h)
  | .newTable size => some (h.makeTable size)
  | .destroyTable _ => some ((), h)
  | .loadBucket t b => some (h.bucket t b, h)
  | .storeBucket t b v => some ((), h.setBucket t b v)
  | .casBucket t b desired =>
    if h.bucket t b = none then some (true, h.setBucket t b (some desired)) else some (false, h)
  | .loadNext a => some (h.next a, h)
  | .reloadNext a l => some (h.next a = l, h)
  | .storeNext a l => some ((), h.setNext a l)
  | .casNext a expected desired => some (h.compareExchange a expected desired false)
  | .casNextWeak a expected desired => some (h.compareExchange a expected desired b)
  | .loadSoKey a => some (h.soKey a, h)
  | .storeSoKey a so => some ((), { h with soKey := Function.update h.soKey a so })
  | .loadKey a => some (h.key a, h)
  | .allocNode => some h.alloc
  | .addCount => some ((), { h with count := h.count + 1 })
  | .subCount => some ((), { h with count := h.count - 1 })
  | .loadCount => some ((h.count % 2 ^ 64).toNat, h)
  | .storeCount n => some ((), { h with count := n })
  | .casGrowing => if h.growing then some (false, h) else some (true, { h with growing := true })
  | .storeGrowing v => some ((), { h with growing := v })
  | .loadThreshold size => some (h.threshold size, h)
  | .loadCached => some (h.cachedThreshold, h)
  | .storeCached n => some ((), { h with cachedThreshold := n })
  | .protect _ _ => some ((), h)
  | .retireNode a => some ((), { h with retired := h.retired ++ [a] })
  | .retireTable t => some ((), { h with retiredTables := h.retiredTables ++ [t] })
  | .freeNode a => some ((), { h with freed := h.freed ++ [a], inUse := h.inUse.erase a })
  | .fault => none

/-! ## The code -/

abbrev Code (Addr Key : Type) := Prog (Op Addr Key)

section Code

open Prog (perform iterate)

/-- What the code of the engine depends on: the scheme and the functions of the user. -/
structure Config (Key : Type) where
  /-- `reclaimer::NEEDS_REVALIDATION`. -/
  reval : Bool
  /-- The user's hash. -/
  hash : Key → Word
  /-- The user's equality. -/
  eq : Key → Key → Bool

/-- `mixed_hash`. -/
def Config.mixedHash (C : Config Key) (k : Key) : Word := mixHash (C.hash k)

variable (C : Config Key)

omit [DecidableEq Addr] in
/-- A publication under a scheme that needs re-validation. -/
def publish (slot : Nat) (a : Addr) : Code Addr Key Unit :=
  if C.reval then perform (.protect slot (some (.node a))) else return ()

/-- `protect_from(src->next, slot, tagged)`: the node read and the tagged pointer. -/
def protectFrom (src : Addr) (slot : Nat) : Code Addr Key (Option Addr × Link Addr) :=
  if C.reval then
    iterate (fun (_ : Unit) => do
      let p ← perform (.loadNext src)
      perform (.protect slot (p.ptr.map .node))
      if ← perform (.reloadNext src p) then
        return .inr (p.ptr, p)
      else
        return .inl ()) ()
  else do
    let p ← perform (.loadNext src)
    return (p.ptr, p)

/-- `table_.load()`, published where the scheme needs it. -/
def loadTable : Code Addr Key Nat :=
  iterate (fun (_ : Unit) => do
    let t ← perform .loadTable
    if C.reval then
      perform (.protect HP_TABLE (some (.table t)))
      if ← perform (.reloadTable t) then return .inr t else return .inl ()
    else
      return .inr t) ()

/-! ### The walk -/

/-- Where a walk stands: `(prev, cur, tagged)`. -/
abbrev Place (Addr : Type) := Addr × Option Addr × Link Addr

/-- The walk goes on from `prev` to its successor. -/
def follow (prev : Addr) : Code Addr Key (Place Addr) := do
  let (cur, tagged) ← protectFrom C prev HP_CUR
  return (prev, cur, tagged)

/-- Help to unlink the marked `cur`, whose next pointer is `rawNext`, and read on. -/
def help (prev : Addr) (tagged rawNext : Link Addr) : Code Addr Key (Place Addr) := do
  let _ ← perform (.casNextWeak prev tagged rawNext.clearMark)
  follow C prev

/-- Step onto `cur`. -/
def advance (cur : Addr) : Code Addr Key (Place Addr) := do
  publish C HP_PREV cur
  follow C cur

/-- Past `cur`, by helping if it is marked. -/
def pass (prev cur : Addr) (tagged : Link Addr) : Code Addr Key (Place Addr) := do
  let rawNext ← perform (.loadNext cur)
  if rawNext.marked then help C prev tagged rawNext else advance C cur

/-- One node of a walk to the first node with a key of at least `cmpKey`. -/
def walkStep (cmpKey : Word) :
    Place Addr → Code Addr Key (Place Addr ⊕ (Addr × Option Addr × Link Addr))
  | (prev, none, tagged) => return .inr (prev, none, tagged)
  | (prev, some cur, tagged) => do
    if cmpKey ≤ (← perform (.loadSoKey cur)) then
      return .inr (prev, some cur, tagged)
    else
      let place ← pass C prev cur tagged
      return .inl place

/-- The walk from the dummy `d`. -/
def walk (d : Addr) (cmpKey : Word) : Code Addr Key (Place Addr) := do
  publish C HP_PREV d
  let place ← follow C d
  iterate (walkStep C cmpKey) place

/-- `insert_from(start, n)`. -/
def insertFrom (start n : Addr) : Code Addr Key Unit := do
  let so ← perform (.loadSoKey n)
  iterate (fun (_ : Unit) => do
    let (prev, cur, tagged) ← walk C start so
    perform (.storeNext n (.plain cur))
    if tagged.marked then
      -- predecessor marked: retry
      return .inl ()
    else if ← perform (.casNextWeak prev tagged (.plain (some n))) then
      return .inr ()
    else
      return .inl ()) ()

/-- `initialize_bucket(t, b)`. The recursion goes to smaller buckets; `depth` bounds it. -/
def initializeBucketAt (t : Nat) : Nat → Nat → Code Addr Key Unit
  | 0, _ => return ()
  | depth + 1, b => do
    if (← perform (.loadBucket t b)).isSome then
      return ()
    else
      if b ≠ 0 then
        initializeBucketAt t depth (parentBucket b)
      let d ← perform .allocNode
      perform (.storeSoKey d (dummySplitOrderKey b))
      match ← perform (.loadBucket t (parentBucket b)) with
      | none => perform .fault
      | some start =>
        insertFrom C start d
        -- a dummy that loses the race stays in the list
        let _ ← perform (.casBucket t b d)
        return ()

def initializeBucket (t b : Nat) : Code Addr Key Unit := initializeBucketAt C t (b + 1) b

/-- `locate(mixed, cmp_key)`: `(prev, cur)`. -/
def locate (mixed cmpKey : Word) : Code Addr Key (Addr × Option Addr) :=
  iterate (fun (_ : Unit) => do
    let t ← loadTable C
    let b := bucketOf mixed (← perform (.loadSize t))
    match ← perform (.loadBucket t b) with
    | none =>
      initializeBucket C t b
      return .inl ()
    | some d =>
      let (prev, cur, _) ← walk C d cmpKey
      return .inr (prev, cur)) ()

/-! ### Runs of equal split-order keys -/

/-- One node of the scan of a run for the key `k`: `inr` with the node and its predecessor, if it
is there. -/
def scanStep (sk : Word) (k : Key) :
    Place Addr → Code Addr Key (Place Addr ⊕ Option (Addr × Addr))
  | (_, none, _) => return .inr none
  | (rprev, some rcur, tagged) => do
    if (← perform (.loadSoKey rcur)) ≠ sk then
      return .inr none
    else
      let rnx ← perform (.loadNext rcur)
      if rnx.marked then
        -- help unlink, then continue the scan
        let place ← help C rprev tagged rnx
        return .inl place
      else if C.eq (← perform (.loadKey rcur)) k then
        return .inr (some (rprev, rcur))
      else
        let place ← advance C rcur
        return .inl place

/-- The scan of the run that begins at `cur`; `tagged` is null until the scan has read a pointer. -/
def scanRun (sk : Word) (k : Key) (prev cur : Addr) : Code Addr Key (Option (Addr × Addr)) :=
  iterate (scanStep C sk k) (prev, some cur, .null)

/-- The test of the fast paths: the head of the run is not marked and has the key `k`. -/
def headMatches (k : Key) (cur : Addr) (fnx : Link Addr) : Code Addr Key Bool :=
  if fnx.marked then return false
  else do return C.eq (← perform (.loadKey cur)) k

/-- Whether the run at `cur` holds the key `k`. -/
def inRun (sk : Word) (k : Key) (prev : Addr) : Option Addr → Code Addr Key Bool
  | none => return false
  | some cur => do
    if (← perform (.loadSoKey cur)) = sk then
      let fnx ← perform (.loadNext cur)
      if ← headMatches C k cur fnx then
        return true
      else
        return (← scanRun C sk k prev cur).isSome
    else
      return false

/-- `insert_result`. -/
inductive InsertResult where
  | INSERT_OK
  | INSERT_DUPLICATE
  deriving DecidableEq, Repr

/-- `insert_node(n, mixed, sk, k)`. -/
def insertNode (n : Addr) (mixed sk : Word) (k : Key) : Code Addr Key InsertResult := do
  perform (.storeSoKey n sk)
  iterate (fun (_ : Unit) => do
    let (prev, cur) ← locate C mixed sk
    if ← inRun C sk k prev cur then
      return .inr .INSERT_DUPLICATE
    else
      perform (.storeNext n (.plain cur))
      let expected ← perform (.loadNext prev)
      if expected.marked then
        -- predecessor became marked: retry
        return .inl ()
      else if expected.ptr = cur then
        if ← perform (.casNextWeak prev expected (.plain (some n))) then
          perform .addCount
          return .inr .INSERT_OK
        else
          return .inl ()
      else
        return .inl ()) ()

/-- `find_node(k, mixed, sk)`. -/
def findNode (k : Key) (mixed sk : Word) : Code Addr Key (Option Addr) := do
  let (prev, cur) ← locate C mixed sk
  match cur with
  | none => return none
  | some cur =>
    if (← perform (.loadSoKey cur)) ≠ sk then
      return none
    else
      let rnx ← perform (.loadNext cur)
      if ← headMatches C k cur rnx then
        return some cur
      else
        return (← scanRun C sk k prev cur).map Prod.snd

/-! ### Erase -/

/-- One node of the scan of `unlink_marked` for `target`, from `(rp, rc)`: `inr` with the
predecessor. -/
def pointerStep (target : Addr) (sk : Word) :
    Addr × Option Addr → Code Addr Key (Addr × Option Addr ⊕ Option Addr)
  | (_, none) => return .inr none
  | (rp, some rc) => do
    if (← perform (.loadSoKey rc)) ≠ sk then
      return .inr none
    else if rc = target then
      return .inr (some rp)
    else
      let (prev, cur, _) ← advance C rc
      return .inl (prev, cur)

/-- The slow path of `unlink_marked`: relocate and scan by pointer until the node is unlinked. -/
def relocate (target : Addr) (mixed sk : Word) : Code Addr Key Unit :=
  iterate (fun (_ : Unit) => do
    let (p, c) ← locate C mixed sk
    match ← iterate (pointerStep C target sk) (p, c) with
    | none => return .inr ()
    | some rp =>
      let repl ← perform (.loadNext target)
      if ← perform (.casNextWeak rp (.plain (some target)) repl.clearMark) then
        return .inr ()
      else
        return .inl ()) ()

/-- `unlink_marked(hint_prev, target, mixed, sk)`. -/
def unlinkMarked (hintPrev target : Addr) (mixed sk : Word) : Code Addr Key Unit := do
  let tnext ← perform (.loadNext target)
  if ← perform (.casNext hintPrev (.plain (some target)) tnext.clearMark) then
    return ()
  else
    relocate C target mixed sk

/-- What `erase_node` does once it has marked `cur`. -/
def finishErase (prev cur : Addr) (mixed sk : Word) : Code Addr Key Unit := do
  unlinkMarked C prev cur mixed sk
  perform (.retireNode cur)
  perform .subCount

/-- The slow path of `erase_node`. -/
def eraseScan (k : Key) (mixed sk : Word) (prev cur : Addr) : Code Addr Key (Unit ⊕ Bool) := do
  match ← scanRun C sk k prev cur with
  | none => return .inr false
  | some (rprev, rcur) =>
    let tnext ← perform (.loadNext rcur)
    if tnext.marked then
      -- someone else marked it: retry
      return .inl ()
    else if ← perform (.casNext rcur tnext tnext.setMarked) then
      finishErase C rprev rcur mixed sk
      return .inr true
    else
      return .inl ()

/-- The fast path of `erase_node`: mark the head of the run if it has the key. -/
def markHead (k : Key) (cur : Addr) : Code Addr Key Bool := do
  let fnx ← perform (.loadNext cur)
  if ← headMatches C k cur fnx then
    perform (.casNext cur fnx fnx.setMarked)
  else
    return false

/-- `erase_node(k, mixed, sk)`. -/
def eraseNode (k : Key) (mixed sk : Word) : Code Addr Key Bool :=
  iterate (fun (_ : Unit) => do
    let (prev, cur) ← locate C mixed sk
    match cur with
    | none => return .inr false
    | some cur =>
      if (← perform (.loadSoKey cur)) ≠ sk then
        return .inr false
      else if ← markHead C k cur then
        finishErase C prev cur mixed sk
        return .inr true
      else
        eraseScan C k mixed sk prev cur) ()

/-! ### Growth -/

/-- The growth ceiling of `grow_once`. -/
def MAX_BUCKETS : Nat := 2 ^ 30

/-- The copy of the cells of `t` to the new table. -/
def copyCells (t nt sz : Nat) : Code Addr Key Unit :=
  iterate (fun i => do
    if i < sz then
      perform (.storeBucket nt i (← perform (.loadBucket t i)))
      return .inl (i + 1)
    else return .inr ()) 0

/-- The load test of `grow_once`: no growth is needed. -/
def isRoomy (t : Nat) : Code Addr Key Bool := do
  let n ← perform .loadCount
  return n ≤ (← perform (.loadThreshold (← perform (.loadSize t))))

/-- `grow_once(force)`. -/
def growOnce (force : Bool) : Code Addr Key Unit := do
  if ← perform .casGrowing then
    iterate (fun (_ : Unit) => do
      let t ← loadTable C
      let sz ← perform (.loadSize t)
      if ← (if force then return false else isRoomy t : Code Addr Key Bool) then
        return .inr ()
      else if MAX_BUCKETS ≤ sz then
        return .inr ()
      else
        let nt ← perform (.newTable (sz * 2))
        copyCells t nt sz
        if ← perform (.casTable t nt) then
          perform (.retireTable t)
          return .inl ()
        else
          perform (.destroyTable nt)
          return .inl ()) ()
    perform (.storeGrowing false)

/-- Store the threshold of the current table. -/
def refreshCached : Code Addr Key Nat := do
  let t ← perform .loadTable
  let threshold ← perform (.loadThreshold (← perform (.loadSize t)))
  perform (.storeCached threshold)
  return threshold

/-- `maybe_grow()`. -/
def maybeGrow : Code Addr Key Unit := do
  let cached ← perform .loadCached
  let skip ← (if 0 < cached then do return (← perform .loadCount) ≤ cached
    else return false : Code Addr Key Bool)
  if !skip then
    let threshold ← refreshCached
    if threshold < (← perform .loadCount) then
      growOnce C false
      let _ ← refreshCached
      return ()

/-- `size()`. -/
def size : Code Addr Key Nat := perform .loadCount

/-! ### Clear and iteration -/

/-- One node of `clear_impl`, from `(prev, cur)`. -/
def clearStep : Addr × Option Addr → Code Addr Key (Addr × Option Addr ⊕ Unit)
  | (_, none) => return .inr ()
  | (prev, some cur) => do
    let rawNext ← perform (.loadNext cur)
    let removed ← (if rawNext.marked then return false
      else do return isRegular (← perform (.loadSoKey cur)) : Code Addr Key Bool)
    if removed then
      perform (.storeNext prev (.plain rawNext.ptr))
      perform (.freeNode cur)
      return .inl (prev, rawNext.ptr)
    else
      return .inl (cur, rawNext.ptr)

/-- `clear_impl()`. -/
def clearImpl : Code Addr Key Unit := do
  let t ← perform .loadTable
  match ← perform (.loadBucket t 0) with
  | none => perform .fault
  | some prev =>
    let first ← perform (.loadNext prev)
    iterate clearStep (prev, first.ptr)
    perform (.storeCount 0)

/-- `node_info`. -/
structure NodeInfo (Key : Type) where
  mixed : Word
  sk : Word
  key : Key
  deriving DecidableEq

/-- The description of the node `a`. -/
def describe (a : Addr) : Code Addr Key (NodeInfo Key) := do
  let so ← perform (.loadSoKey a)
  return ⟨rebuiltHash so, so, ← perform (.loadKey a)⟩

/-- One node of `first_node`. -/
def firstStep : Place Addr → Code Addr Key (Place Addr ⊕ Option (NodeInfo Key))
  | (_, none, _) => return .inr none
  | (prev, some cur, tagged) => do
    let rawNext ← perform (.loadNext cur)
    if rawNext.marked then
      let place ← help C prev tagged rawNext
      return .inl place
    else if isRegular (← perform (.loadSoKey cur)) then
      return .inr (some (← describe cur))
    else
      let place ← advance C cur
      return .inl place

/-- `first_node()`. -/
def firstNode : Code Addr Key (Option (NodeInfo Key)) := do
  let t ← loadTable C
  match ← perform (.loadBucket t 0) with
  | none => return none
  | some d =>
    publish C HP_PREV d
    let place ← follow C d
    iterate (firstStep C) place

/-- One node of the first phase of `next_node`: skip to the current node. -/
def skipStep (sk : Word) (k : Key) : Place Addr → Code Addr Key (Place Addr ⊕ Option (Place Addr))
  | (_, none, _) => return .inr none
  | (prev, some cur, tagged) => do
    if (← perform (.loadSoKey cur)) ≠ sk then
      -- the current node is absent
      return .inr none
    else
      let rawNext ← perform (.loadNext cur)
      if ← headMatches C k cur rawNext then
        return .inr (some (prev, some cur, tagged))
      else if rawNext.marked then
        let place ← help C prev tagged rawNext
        return .inl place
      else
        let place ← advance C cur
        return .inl place

/-- What the second phase of `next_node` does at `cur`: past it, to the next node that counts. After
helping, `cur` may be null, which the source does not test. -/
def nextStep (sk : Word) : Place Addr → Code Addr Key (Place Addr ⊕ Option (NodeInfo Key))
  | (_, none, _) => do
    perform .fault
    return .inr none
  | (prev, some cur, tagged) => do
    let rawNext ← perform (.loadNext cur)
    if rawNext.marked then
      let place ← help C prev tagged rawNext
      return .inl place
    else
      let (prev, nxt, tagged) ← advance C cur
      match nxt with
      | none => return .inr none
      | some a =>
        let so ← perform (.loadSoKey a)
        if so = sk ∨ isRegular so then
          return .inr (some (← describe a))
        else
          return .inl (prev, some a, tagged)

/-- `next_node(mixed, sk, key)`; its outer loop is never repeated. -/
def nextNode (mixed sk : Word) (k : Key) : Code Addr Key (Option (NodeInfo Key)) := do
  let (prev, cur) ← locate C mixed sk
  match ← iterate (skipStep C sk k) (prev, cur, .null) with
  | none => return none
  | some place => iterate (nextStep C sk) place

end Code

/-! ## The container -/

/-- The constructor: a table of two buckets and the dummy of bucket 0. -/
def Heap.new (key : Addr → Key) (head : Addr) (pick : Nat → Finset Addr → Addr)
    (threshold : Nat → Nat) : Heap Addr Key where
  table := 0
  tables := 1
  size := fun _ => 2
  bucket := fun t b => if t = 0 ∧ b = 0 then some head else none
  next := fun _ => .null
  soKey := fun _ => 0
  key := key
  inUse := {head}
  pick := pick
  allocs := 0
  count := 0
  growing := false
  threshold := threshold
  cachedThreshold := 0
  retired := []
  retiredTables := []
  freed := []

/-- `alloc_node`, with a payload of key `k`. -/
def Heap.create (h : Heap Addr Key) (n : Addr) (k : Key) : Heap Addr Key :=
  { h with
    next := Function.update h.next n .null
    soKey := Function.update h.soKey n 0
    key := Function.update h.key n k
    inUse := insert n h.inUse }

/-- The calls of the engine. An insertion brings its node. -/
inductive Request (Addr Key : Type) where
  /-- `insert_node`, followed by `maybe_grow` where the node was inserted. -/
  | emplace (n : Addr) (k : Key)
  | insert (n : Addr) (k : Key)
  | erase (k : Key)
  | find (k : Key)
  | size
  | clear
  | grow (force : Bool)
  | first
  | next (mixed sk : Word) (k : Key)

/-- What a call returns. -/
inductive Answer (Addr Key : Type) where
  | inserted (r : InsertResult)
  | flag (b : Bool)
  | node (a : Option Addr)
  | count (n : Nat)
  | info (i : Option (NodeInfo Key))
  | done
  deriving DecidableEq

namespace Request

open Prog (perform)

/-- What the caller does before the call. -/
def prepare (h : Heap Addr Key) : Request Addr Key → Heap Addr Key
  | .emplace n k | .insert n k => h.create n k
  | _ => h

/-- The code of a call. -/
def code (C : Config Key) : Request Addr Key → Code Addr Key (Answer Addr Key)
  | .emplace n k => do
    let r ← insertNode C n (C.mixedHash k) (soKeyOf (C.mixedHash k)) k
    if r = .INSERT_OK then
      maybeGrow C
    return .inserted r
  | .insert n k => do
    return .inserted (← insertNode C n (C.mixedHash k) (soKeyOf (C.mixedHash k)) k)
  | .erase k => do return .flag (← eraseNode C k (C.mixedHash k) (soKeyOf (C.mixedHash k)))
  | .find k => do return .node (← findNode C k (C.mixedHash k) (soKeyOf (C.mixedHash k)))
  | .size => do return .count (← Unordered.size)
  | .clear => do
    clearImpl
    return .done
  | .grow force => do
    growOnce C force
    return .done
  | .first => do return .info (← firstNode C)
  | .next mixed sk k => do return .info (← nextNode C mixed sk k)

end Request

end MpmcMap.Unordered
