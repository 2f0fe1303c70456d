import MpmcMap.Conc.SharedObject
import MpmcMap.Reclaim.Epoch
import Mathlib.Algebra.Order.Ring.Int
import Mathlib.Data.Finset.Card
import Mathlib.Logic.Function.Basic

/-!
# The hazard-pointer reclaimer

`hazard_pointer_reclaimer` of `detail/hazard_pointer.hpp`: an array of hazard slots, each owned by
at most one thread and publishing four pointers; the registry of the slots in use, which
`is_protected` walks; per thread a list of retired objects that `scan` compacts in place; and the
late-retire chain of exited threads.

Each atomic access is one action, and so is each access to the calling thread's own `tls_`. The
registry entry `-1` is `none`, a null pointer is `none`. Allocations may fail: `pushRetired` and
`pushAction` answer `false` when `push_back` throws.
-/

namespace MpmcMap.Reclaim.Hazard

open Conc

/-- `MPMC_MAX_THREADS`. -/
def MAX_THREADS : Nat := 128

/-- `MPMC_HAZARD_POINTERS`. -/
def HAZARD_POINTERS : Nat := 4

/-- `MPMC_HAZARD_RETIRE_THRESHOLD`. -/
def RETIRE_THRESHOLD : Nat := 2 * MAX_THREADS * HAZARD_POINTERS

/-- `HP_TABLE`, `HP_PREV` and `HP_CUR` of the unordered engine. -/
def HP_TABLE : Nat := 0
def HP_PREV : Nat := 1
def HP_CUR : Nat := 2

/-- `thread_state`. -/
structure ThreadState where
  slot : Option Nat
  retired : List Ptr
  retiredActions : List RetireAction

def ThreadState.init : ThreadState where
  slot := none
  retired := []
  retiredActions := []

/-- `orphan`: an entry of the late-retire chain. -/
structure Orphan where
  next : Option Nat
  ptr : Ptr
  action : RetireAction

/-- What a deleted orphan answers. -/
def Orphan.deleted : Orphan where
  next := none
  ptr := 0
  action := ⟨0⟩

/-- Where a thread is between acquiring a slot and the end of its unregistration. -/
inductive Phase where
  | away
  /-- It owns a slot and has not yet reserved an entry. -/
  | acquired
  /-- It has reserved an entry and not yet written it. -/
  | reserved
  | registered
  /-- It has given its slot back and not yet read the count. -/
  | released
  /-- It has read the count and not yet decreased it. -/
  | moving
  deriving DecidableEq, Repr

/-- The shared state, every thread's `tls_`, a cell that clients share, and the history. -/
structure State where
  /-- `slots()[i].owner`. -/
  owner : Nat → Nat
  /-- `slots()[i].hp[h]`. -/
  hp : Nat → Nat → Option Ptr
  /-- `active()->count`; every `fetch_sub` follows its own `fetch_add`, so it never wraps. -/
  count : Nat
  /-- `active()->slots[k]`. -/
  entries : Nat → Option Nat
  /-- The counter of `thread_owner_id`, 32 bits wide. -/
  nextOwner : Nat
  outstanding : Nat
  late : Option Nat
  orphans : Nat → Option Orphan
  /-- The address that `new orphan()` answers for the n-th time; it may be one used before. -/
  address : Nat → Nat
  nextOrphan : Nat
  tls : Nat → ThreadState
  /-- The shared cell of the clients of the protocol. -/
  cell : Option Ptr
  phase : Nat → Phase
  /-- The threads that have acquired a slot and not yet finished its unregistration. -/
  members : Finset Nat
  /-- The index that the thread's last `fetch_add` on the count reserved. -/
  reservedAt : Nat → Nat
  /-- The indices with which `active()->slots` was accessed. -/
  touched : List Nat
  /-- The threads inside a call of `is_protected`, and what they look for. -/
  scanners : Finset Nat
  scanned : Nat → Ptr
  /-- How far the last walk of the thread over the registry has come, and how far it goes. -/
  cursor : Nat → Nat
  limit : Nat → Nat
  /-- The scanners that were beyond the entry that the thread wrote last. -/
  passed : Nat → Finset Nat
  /-- The hazard that the thread read last, since it last read an entry of the registry. -/
  reading : Nat → Option (Nat × Nat)
  /-- The object that the thread has validated, until it next overwrites its first hazard. -/
  validated : Nat → Option Ptr
  /-- The objects that clients have brought into the cell or are about to. -/
  made : Finset Ptr
  /-- The objects passed to `retire`, less those given back by an exception. -/
  submitted : Finset Ptr
  /-- The objects in whose retirement both pushes succeeded, with the action pushed, oldest first. -/
  accepted : List (Ptr × RetireAction)
  /-- The arguments of the calls of `retire` that have returned without a throw, oldest first. -/
  returned : List (Ptr × RetireAction)
  /-- The actions that have run, and on which pointer, oldest first. -/
  ran : List (Ptr × RetireAction)

/-- Nothing registered, nothing retired. -/
def State.init : State where
  owner := fun _ => 0
  hp := fun _ _ => none
  count := 0
  entries := fun _ => none
  nextOwner := 0
  outstanding := 0
  late := none
  orphans := fun _ => none
  address := id
  nextOrphan := 0
  tls := fun _ => .init
  cell := none
  phase := fun _ => .away
  members := ∅
  reservedAt := fun _ => 0
  touched := []
  scanners := ∅
  scanned := fun _ => 0
  cursor := fun _ => 0
  limit := fun _ => 0
  passed := fun _ => ∅
  reading := fun _ => none
  validated := fun _ => none
  made := ∅
  submitted := ∅
  accepted := []
  returned := []
  ran := []

/-! ## Atomic actions -/

/-- The atomic accesses of the reclaimer and of its clients, and the accesses to the caller's
`tls_`. -/
inductive Op : Type → Type where
  /-- `next.fetch_add(1) + 1` of `thread_owner_id`. -/
  | newOwnerId : Op Nat
  /-- `slots()[i].owner.compare_exchange_strong(0, self)`. -/
  | casOwner (i self : Nat) : Op Bool
  | loadOwner (i : Nat) : Op Nat
  /-- `slots()[i].owner.store(0)`. -/
  | releaseOwner (i : Nat) : Op Unit
  | loadHp (i h : Nat) : Op (Option Ptr)
  | storeHp (i h : Nat) (v : Option Ptr) : Op Unit
  /-- `count.fetch_add(1)`, answering the old value. -/
  | addCount : Op Nat
  | loadCount : Op Nat
  | subCount : Op Unit
  | loadEntry (k : Nat) : Op (Option Nat)
  | storeEntry (k : Nat) (v : Option Nat) : Op Unit
  | getTls : Op ThreadState
  /-- `ts.slot = ...`. -/
  | setSlot (v : Option Nat) : Op Unit
  | setRetired (retired : List Ptr) (actions : List RetireAction) : Op Unit
  | pushRetired (p : Ptr) : Op Bool
  | pushAction (a : RetireAction) : Op Bool
  | incOutstanding : Op Unit
  | decOutstanding : Op Unit
  | run (a : RetireAction) (p : Ptr) : Op Unit
  | loadLate : Op (Option Nat)
  | exchangeLate (v : Option Nat) : Op (Option Nat)
  /-- `compare_exchange_weak` on the chain's head: success, and the value then in `expected`. -/
  | casLate (expected desired : Option Nat) : Op (Bool × Option Nat)
  | newOrphan (o : Orphan) : Op Nat
  | readOrphan (o : Nat) : Op Orphan
  | setOrphanNext (o : Nat) (v : Option Nat) : Op Unit
  | deleteOrphan (o : Nat) : Op Unit
  | loadCell : Op (Option Ptr)
  /-- The reload of the cell after a publication: is it still `p`? -/
  | reloadCell (p : Option Ptr) : Op Bool
  /-- `compare_exchange_weak` on the shared cell. -/
  | casCell (expected : Option Ptr) (desired : Ptr) : Op Bool

open Function (update)

/-- The meaning of the actions; `b` makes an allocation or a weak compare-exchange fail. -/
def action {β : Type} (t : Nat) (b : Bool) (o : Op β) (s : State) : Option (β × State) :=
  match o with
  | .newOwnerId =>
    some ((s.nextOwner + 1) % 2 ^ 32, { s with nextOwner := (s.nextOwner + 1) % 2 ^ 32 })
  | .casOwner i self =>
    if s.owner i = 0 then
      some (true, { s with
        owner := update s.owner i self
        phase := update s.phase t .acquired
        members := insert t s.members })
    else some (false, s)
  | .loadOwner i => some (s.owner i, s)
  | .releaseOwner i =>
    some ((), { s with owner := update s.owner i 0, phase := update s.phase t .released })
  | .loadHp i h => some (s.hp i h, { s with reading := update s.reading t (some (i, h)) })
  | .storeHp i h v => some ((), { s with
      hp := update s.hp i (update (s.hp i) h v)
      validated := if h = 0 then update s.validated t none else s.validated })
  | .addCount =>
    some (s.count, { s with
      count := s.count + 1
      phase := update s.phase t .reserved
      reservedAt := update s.reservedAt t s.count })
  | .loadCount =>
    some (s.count, { s with
      phase := if s.phase t = .released then update s.phase t .moving else s.phase
      cursor := update s.cursor t 0
      limit := update s.limit t s.count
      passed := fun u => (s.passed u).erase t })
  | .subCount =>
    some ((), { s with
      count := s.count - 1
      phase := update s.phase t .away
      members := s.members.erase t })
  | .loadEntry k =>
    some (s.entries k, { s with
      touched := s.touched ++ [k]
      cursor := update s.cursor t (k + 1)
      reading := update s.reading t none })
  | .storeEntry k v =>
    some ((), { s with
      entries := update s.entries k v
      touched := s.touched ++ [k]
      phase := if s.phase t = .reserved then update s.phase t .registered else s.phase
      passed := update s.passed t (s.scanners.filter fun u => k < s.cursor u) })
  | .getTls => some (s.tls t, s)
  | .setSlot v =>
    some ((), { s with
      tls := update s.tls t { s.tls t with slot := v }
      phase := if v = none then update s.phase t .away else s.phase
      members := if v = none then s.members.erase t else s.members })
  | .setRetired ps as =>
    some ((), { s with tls := update s.tls t { s.tls t with retired := ps, retiredActions := as } })
  | .pushRetired p =>
    if b then some (false, s)
    else some (true, { s with
      tls := update s.tls t { s.tls t with retired := (s.tls t).retired ++ [p] } })
  | .pushAction a =>
    if b then some (false, s)
    else some (true, { s with
      tls := update s.tls t { s.tls t with retiredActions := (s.tls t).retiredActions ++ [a] }
      accepted := s.accepted ++ ((s.tls t).retired.getLast?.map fun p => (p, a)).toList })
  | .incOutstanding => some ((), { s with outstanding := s.outstanding + 1 })
  | .decOutstanding => some ((), { s with outstanding := s.outstanding - 1 })
  | .run a p => some ((), { s with ran := s.ran ++ [(p, a)] })
  | .loadLate => some (s.late, s)
  | .exchangeLate v => some (s.late, { s with late := v })
  | .casLate expected desired =>
    if s.late = expected ∧ b = false then some ((true, expected), { s with late := desired })
    else some ((false, s.late), s)
  | .newOrphan o =>
    let i := s.address s.nextOrphan
    if (s.orphans i).isNone then
      some (i, { s with orphans := update s.orphans i (some o), nextOrphan := s.nextOrphan + 1 })
    else none
  | .readOrphan o => some ((s.orphans o).getD .deleted, s)
  | .setOrphanNext o v => some ((), { s with
      orphans := update s.orphans o ((s.orphans o).map fun r => { r with next := v }) })
  | .deleteOrphan o => some ((), { s with orphans := update s.orphans o none })
  | .loadCell => some (s.cell, s)
  | .reloadCell p =>
    if s.cell = p then some (true, { s with validated := update s.validated t p }) else some (false, s)
  | .casCell expected desired =>
    if s.cell = expected ∧ b = false then some (true, { s with cell := some desired })
    else some (false, s)

/-! ## The code -/

abbrev Code := Prog Op

open Prog (perform iterate)

/-- `register_active(slot_idx)`. -/
def registerActive (slotIdx : Nat) : Code Unit := do
  let k ← perform .addCount
  perform (.storeEntry k (some slotIdx))

/-- `slot()`: the slot of this thread, acquired on first use. -/
def slot : Code Nat := do
  let ts ← perform .getTls
  match ts.slot with
  | some i => return i
  | none =>
    let self ← perform .newOwnerId
    iterate (fun i => do
      if ← perform (.casOwner i self) then
        perform (.setSlot (some i))
        registerActive i
        return .inr i
      else
        -- after the last slot: yield and begin again
        return .inl ((i + 1) % MAX_THREADS)) 0

/-- `protect(idx, p)`. -/
def protect (idx : Nat) (p : Option Ptr) : Code Unit := do
  let i ← slot
  perform (.storeHp i idx p)

/-- `clear(idx)`. -/
def clear (idx : Nat) : Code Unit := do
  let i ← slot
  perform (.storeHp i idx none)

/-- The search of `unregister_active` for the entry of the slot. -/
def findEntry (slotIdx n : Nat) : Code (Option Nat) :=
  iterate (fun j => do
    if j < n then
      if (← perform (.loadEntry j)) = some slotIdx then return .inr (some j)
      else return .inl (j + 1)
    else return .inr none) 0

/-- `unregister_active(slot_idx)`. -/
def unregisterActive (slotIdx : Nat) : Code Unit := do
  let n ← perform .loadCount
  match ← findEntry slotIdx n with
  | none => return ()
  | some k =>
    let last ← perform (.loadEntry (n - 1))
    perform (.storeEntry k last)
    perform (.storeEntry (n - 1) none)
    perform .subCount

/-- The loop of `is_protected` over the pointers of one slot. -/
def publishes (i : Nat) (cur : Ptr) : Code Bool :=
  iterate (fun h => do
    if h < HAZARD_POINTERS then
      if (← perform (.loadHp i h)) = some cur then return .inr true
      else return .inl (h + 1)
    else return .inr false) 0

/-- `is_protected(cur)`. -/
def isProtected (cur : Ptr) : Code Bool := do
  let n ← perform .loadCount
  iterate (fun k => do
    if k < n then
      match ← perform (.loadEntry k) with
      | none => return .inl (k + 1)
      | some i =>
        if (← perform (.loadOwner i)) = 0 then
          return .inl (k + 1)
        else if ← publishes i cur then
          return .inr true
        else
          return .inl (k + 1)
    else return .inr false) 0

/-- Push one orphan on the chain: the loop over `compare_exchange_weak`. -/
def pushLate (cur : Nat) : Code Unit := do
  let expected ← perform .loadLate
  iterate (fun expected => do
    perform (.setOrphanNext cur expected)
    let (ok, seen) ← perform (.casLate expected (some cur))
    if ok then return .inr () else return .inl seen) expected

/-- Push the orphans of a private chain one by one. -/
def pushAll (head : Option Nat) : Code Unit :=
  iterate (fun cur => do
    match cur with
    | none => return .inr ()
    | some c =>
      let o ← perform (.readOrphan c)
      pushLate c
      return .inl o.next) head

/-- `drain_late_retire()`: free the orphans that are not protected, push the others back. -/
def drainLateRetire : Code Unit := do
  let head ← perform (.exchangeLate none)
  let (keptHead, keptTail) ← iterate
    (fun (l : Option Nat × Option Nat × Option Nat) => do
      let (head, keptHead, keptTail) := l
      match head with
      | none => return .inr (keptHead, keptTail)
      | some h =>
        let o ← perform (.readOrphan h)
        if ← isProtected o.ptr then
          match keptTail with
          | none => return .inl (o.next, some h, some h)
          | some k =>
            perform (.setOrphanNext k (some h))
            return .inl (o.next, keptHead, some h)
        else
          perform (.run o.action o.ptr)
          perform .decOutstanding
          perform (.deleteOrphan h)
          return .inl (o.next, keptHead, keptTail))
    (head, none, none)
  match keptTail with
  | none => return ()
  | some k =>
    perform (.setOrphanNext k none)
    pushAll keptHead

/-- One element of the loop of `scan`, from `(i, kept)`. -/
def scanStep (n : Nat) : Nat × Nat → Code (Nat × Nat ⊕ Nat)
  | (i, kept) => do
    if i < n then
      let ts ← perform .getTls
      let cur := ts.retired.getD i 0
      if ← isProtected cur then
        perform (.setRetired (ts.retired.set kept cur)
          (ts.retiredActions.set kept (ts.retiredActions.getD i ⟨0⟩)))
        return .inl (i + 1, kept + 1)
      else
        perform (.run (ts.retiredActions.getD i ⟨0⟩) cur)
        perform .decOutstanding
        return .inl (i + 1, kept)
    else return .inr kept

/-- `scan()`. -/
def scan : Code Unit := do
  drainLateRetire
  let ts ← perform .getTls
  let kept ← iterate (scanStep ts.retired.length) (0, 0)
  let ts ← perform .getTls
  perform (.setRetired (ts.retired.take kept) (ts.retiredActions.take kept))

/-- `retire(p, action)`; answers `false` when it throws. -/
def retire (p : Ptr) (act : RetireAction) : Code Bool := do
  perform .incOutstanding
  let pushed ← perform (.pushRetired p)
  let both ← if pushed then perform (.pushAction act) else pure false
  if both then
    let ts ← perform .getTls
    if RETIRE_THRESHOLD < ts.retired.length then
      scan
    return true
  else
    -- the handler undoes the first push and rethrows
    let ts ← perform .getTls
    if ts.retiredActions.length < ts.retired.length then
      perform (.setRetired ts.retired.dropLast ts.retiredActions)
    perform .decOutstanding
    return false

/-- The private chain of `finalize_thread`: the last retired object first. -/
def makeOrphans (ts : ThreadState) : Code (Option Nat) := do
  let (_, head) ← iterate (fun (l : Nat × Option Nat) => do
    let (i, head) := l
    if i < ts.retired.length then
      let o ← perform (.newOrphan ⟨head, ts.retired.getD i 0, ts.retiredActions.getD i ⟨0⟩⟩)
      return .inl (i + 1, some o)
    else return .inr (i, head)) (0, none)
  return head

/-- The end of `finalize_thread`: the slot is cleared, released and unregistered. -/
def releaseSlot : Code Unit := do
  let ts ← perform .getTls
  match ts.slot with
  | none => return ()
  | some i =>
    perform (.releaseOwner i)
    unregisterActive i
    perform (.setSlot none)

/-- `finalize_thread()`. -/
def finalizeThread : Code Unit := do
  scan
  let ts ← perform .getTls
  if ts.retired ≠ [] then
    let head ← makeOrphans ts
    perform (.setRetired [] [])
    pushAll head
  releaseSlot

/-- `drain_all()`. -/
def drainAll : Code Unit := do
  drainLateRetire
  iterate (fun i => do
    let ts ← perform .getTls
    if i < ts.retired.length then
      perform (.run (ts.retiredActions.getD i ⟨0⟩) (ts.retired.getD i 0))
      perform .decOutstanding
      return .inl (i + 1)
    else return .inr ()) 0
  perform (.setRetired [] [])

end MpmcMap.Reclaim.Hazard
