import MpmcMap.Conc.SharedObject
import Mathlib.Algebra.Order.Ring.Int
import Mathlib.Data.Finset.Card

/-!
# The epoch reclaimer

`epoch_reclaimer` of `detail/epoch.hpp`: a global counter with three values, one active count per
value, and per thread three lists of retired objects, one per tag. `enter` and `exit` bracket an
operation, `retire` tags an object with the epoch the thread entered, `reclaim` frees the tag two
epochs behind the global counter and drains the late-retire chain left by exited threads.

Each atomic access is one action. Accesses to the calling thread's own `tls_` are actions too, which
only adds interleavings. Allocations may fail: `pushRetired` and `pushAction` answer `false` when
`push_back` throws.
-/

namespace MpmcMap.Reclaim

open Conc

/-- The addresses of retired objects. -/
abbrev Ptr := Nat

/-- `retire_action`: the function that frees an object. -/
structure RetireAction where
  fn : Nat
  deriving DecidableEq, Repr

namespace Epoch

/-- `EPOCHS`. -/
def EPOCHS : Nat := 3

/-- `MPMC_EPOCH_RECLAIM_THRESHOLD`. -/
def RECLAIM_THRESHOLD : Nat := 256

/-- `~0u`, the initial `last_drain_epoch`. -/
def noEpoch : Nat := 2 ^ 32 - 1

/-- `thread_state`: the two vectors of each tag are separate, as in the source. -/
structure ThreadState where
  localEpoch : Nat
  lastDrainEpoch : Nat
  retiredTotal : Nat
  retired : Nat → List Ptr
  retiredActions : Nat → List RetireAction

def ThreadState.init : ThreadState where
  localEpoch := 0
  lastDrainEpoch := noEpoch
  retiredTotal := 0
  retired := fun _ => []
  retiredActions := fun _ => []

/-- `orphan`: an entry of the late-retire chain. -/
structure Orphan where
  next : Option Nat
  ptr : Ptr
  action : RetireAction
  tag : Nat

/-- What a deleted orphan answers. -/
def Orphan.deleted : Orphan where
  next := none
  ptr := 0
  action := ⟨0⟩
  tag := 0

/-- What a client or the reclaimer did, oldest first. -/
inductive Event where
  /-- `enter()` of thread `t` returned. -/
  | entered (t : Nat)
  /-- Thread `t` called `exit()`. -/
  | exit (t : Nat)
  /-- Thread `t` called `retire(x)`. -/
  | retire (t : Nat) (x : Ptr)
  /-- Thread `t` ran the action of `x`. -/
  | ran (t : Nat) (x : Ptr)
  deriving DecidableEq, Repr

/-- Where a thread is with respect to its guard. -/
inductive Phase where
  | outside
  | entering
  | inside
  | exiting
  deriving DecidableEq, Repr

/-- The shared state, every thread's `tls_`, and the history. -/
structure State where
  global : Nat
  active : Nat → Nat
  outstanding : Nat
  late : Option Nat
  orphans : Nat → Option Orphan
  /-- The address that `new orphan()` answers for the n-th time; it may be one used before. -/
  address : Nat → Nat
  nextOrphan : Nat
  tls : Nat → ThreadState
  phase : Nat → Phase
  /-- The threads counted in `active e`. -/
  members : Nat → Finset Nat
  trace : List Event
  /-- The objects passed to `retire`, less those given back by an exception. -/
  submitted : Finset Ptr
  /-- The objects in whose retirement both pushes succeeded, with the action pushed, oldest first. -/
  accepted : List (Ptr × RetireAction)
  /-- The arguments of the calls of `retire` that have returned without a throw, oldest first. -/
  returned : List (Ptr × RetireAction)
  /-- The actions that have run, and on which pointer, oldest first. -/
  ran : List (Ptr × RetireAction)

def State.init : State where
  global := 0
  active := fun _ => 0
  outstanding := 0
  late := none
  orphans := fun _ => none
  address := id
  nextOrphan := 0
  tls := fun _ => .init
  phase := fun _ => .outside
  members := fun _ => ∅
  trace := []
  submitted := ∅
  accepted := []
  returned := []
  ran := []

/-- Replace one value of a function. -/
def upd {α : Type} (f : Nat → α) (i : Nat) (v : α) : Nat → α := fun j => if j = i then v else f j

@[simp] theorem upd_same {α : Type} (f : Nat → α) (i : Nat) (v : α) : upd f i v i = v := by
  simp [upd]

theorem upd_other {α : Type} (f : Nat → α) {i j : Nat} (v : α) (h : j ≠ i) :
    upd f i v j = f j := by
  simp [upd, h]

/-! ## Atomic actions -/

/-- The atomic accesses of the reclaimer, and the accesses to the caller's `tls_`. -/
inductive Op : Type → Type where
  | loadGlobal : Op Nat
  | casGlobal (expected desired : Nat) : Op Bool
  | incActive (e : Nat) : Op Unit
  /-- `fetch_sub`, answering the old value. -/
  | decActive (e : Nat) : Op Nat
  | incOutstanding : Op Unit
  | decOutstanding : Op Unit
  | getTls : Op ThreadState
  | setTls (ts : ThreadState) : Op Unit
  | pushRetired (e : Nat) (p : Ptr) : Op Bool
  | pushAction (e : Nat) (a : RetireAction) : Op Bool
  | run (a : RetireAction) (p : Ptr) : Op Unit
  | loadLate : Op (Option Nat)
  | exchangeLate (v : Option Nat) : Op (Option Nat)
  /-- `compare_exchange_weak` on the chain's head: success, and the value then in `expected`. -/
  | casLate (expected desired : Option Nat) : Op (Bool × Option Nat)
  | newOrphan (o : Orphan) : Op Nat
  | readOrphan (o : Nat) : Op Orphan
  | setOrphanNext (o : Nat) (v : Option Nat) : Op Unit
  | deleteOrphan (o : Nat) : Op Unit

/-- Thread `t`'s own list of tag `e` with `p` at its end. -/
def ThreadState.pushRetired (ts : ThreadState) (e : Nat) (p : Ptr) : ThreadState :=
  { ts with retired := upd ts.retired e (ts.retired e ++ [p]) }

def ThreadState.pushAction (ts : ThreadState) (e : Nat) (a : RetireAction) : ThreadState :=
  { ts with retiredActions := upd ts.retiredActions e (ts.retiredActions e ++ [a]) }

/-- The meaning of the actions; `b` makes an allocation or a weak compare-exchange fail. -/
def action {β : Type} (t : Nat) (b : Bool) (o : Op β) (s : State) : Option (β × State) :=
  match o with
  | .loadGlobal => some (s.global, s)
  | .casGlobal expected desired =>
    if s.global = expected then some (true, { s with global := desired }) else some (false, s)
  | .incActive e => some ((), { s with
      active := upd s.active (e % EPOCHS) (s.active (e % EPOCHS) + 1)
      members := upd s.members (e % EPOCHS) (insert t (s.members (e % EPOCHS))) })
  | .decActive e => some (s.active (e % EPOCHS), { s with
      active := upd s.active (e % EPOCHS) (s.active (e % EPOCHS) - 1)
      members := upd s.members (e % EPOCHS) ((s.members (e % EPOCHS)).erase t) })
  | .incOutstanding => some ((), { s with outstanding := s.outstanding + 1 })
  | .decOutstanding => some ((), { s with outstanding := s.outstanding - 1 })
  | .getTls => some (s.tls t, s)
  | .setTls ts => some ((), { s with tls := upd s.tls t ts })
  | .pushRetired e p =>
    if b then some (false, s)
    else some (true, { s with tls := upd s.tls t ((s.tls t).pushRetired e p) })
  | .pushAction e a =>
    if b then some (false, s)
    else some (true, { s with
      tls := upd s.tls t ((s.tls t).pushAction e a)
      accepted := s.accepted ++ (((s.tls t).retired e).getLast?.map fun p => (p, a)).toList })
  | .run a p => some ((), { s with trace := s.trace ++ [.ran t p], ran := s.ran ++ [(p, a)] })
  | .loadLate => some (s.late, s)
  | .exchangeLate v => some (s.late, { s with late := v })
  | .casLate expected desired =>
    if s.late = expected ∧ b = false then some ((true, expected), { s with late := desired })
    else some ((false, s.late), s)
  | .newOrphan o =>
    let i := s.address s.nextOrphan
    if (s.orphans i).isNone then
      some (i, { s with orphans := upd s.orphans i (some o), nextOrphan := s.nextOrphan + 1 })
    else none
  | .readOrphan o => some ((s.orphans o).getD .deleted, s)
  | .setOrphanNext o v => some ((), { s with
      orphans := upd s.orphans o ((s.orphans o).map fun r => { r with next := v }) })
  | .deleteOrphan o => some ((), { s with orphans := upd s.orphans o none })

/-! ## The code -/

abbrev Code := Prog Op

/-- `free_tagged(ts, tag)`. -/
def freeTagged (tag : Nat) : Code Unit := do
  let ts ← Prog.perform .getTls
  let ptrs := ts.retired tag
  let acts := ts.retiredActions tag
  .perform (.setTls { ts with retiredTotal := ts.retiredTotal - ptrs.length })
  Prog.iterate (fun i => do
    if i < ptrs.length then
      .perform (.run (acts.getD i ⟨0⟩) (ptrs.getD i 0))
      .perform .decOutstanding
      return .inl (i + 1)
    else
      return .inr ()) 0
  let ts ← Prog.perform .getTls
  .perform (.setTls { ts with
    retired := upd ts.retired tag [], retiredActions := upd ts.retiredActions tag [] })

/-- Push one orphan on the chain: the loop of `drain_late` over `compare_exchange_weak`. -/
def pushLate (cur : Nat) : Code Unit := do
  let expected ← Prog.perform .loadLate
  Prog.iterate (fun expected => do
    .perform (.setOrphanNext cur expected)
    let (ok, seen) ← Prog.perform (.casLate expected (some cur))
    if ok then return .inr () else return .inl seen) expected

/-- `drain_late(current_tag)`: free the orphans of that tag, push the others back one by one. -/
def drainLate (currentTag : Nat) : Code Unit := do
  let head ← Prog.perform (.exchangeLate none)
  let (keptHead, keptTail) ← Prog.iterate
    (fun (l : Option Nat × Option Nat × Option Nat) => do
      let (head, keptHead, keptTail) := l
      match head with
      | none => return .inr (keptHead, keptTail)
      | some h =>
        let o ← Prog.perform (.readOrphan h)
        if o.tag = currentTag then
          .perform (.run o.action o.ptr)
          .perform .decOutstanding
          .perform (.deleteOrphan h)
          return .inl (o.next, keptHead, keptTail)
        else
          match keptTail with
          | none => return .inl (o.next, some h, some h)
          | some k =>
            .perform (.setOrphanNext k (some h))
            return .inl (o.next, keptHead, some h))
    (head, none, none)
  match keptTail with
  | none => return ()
  | some k =>
    .perform (.setOrphanNext k none)
    Prog.iterate (fun cur => do
      match cur with
      | none => return .inr ()
      | some c =>
        let o ← Prog.perform (.readOrphan c)
        pushLate c
        return .inl o.next) keptHead

/-- `reclaim()`. -/
def reclaim : Code Unit := do
  let g ← Prog.perform .loadGlobal
  let tag := (g + 1) % EPOCHS
  freeTagged tag
  let ts ← Prog.perform .getTls
  if g ≠ ts.lastDrainEpoch then
    let head ← Prog.perform .loadLate
    if head ≠ none then
      drainLate tag
      let ts ← Prog.perform .getTls
      .perform (.setTls { ts with lastDrainEpoch := g })
  let ts ← Prog.perform .getTls
  .perform (.setTls { ts with
    retiredTotal := (ts.retired 0).length + (ts.retired 1).length + (ts.retired 2).length })

/-- `retire(p, action)`; answers `false` when it throws. -/
def retire (p : Ptr) (act : RetireAction) : Code Bool := do
  .perform .incOutstanding
  let ts ← Prog.perform .getTls
  let e := ts.localEpoch % EPOCHS
  let pushed ← Prog.perform (.pushRetired e p)
  let both ← if pushed then Prog.perform (.pushAction e act) else pure false
  if both then
    let ts ← Prog.perform .getTls
    .perform (.setTls { ts with retiredTotal := ts.retiredTotal + 1 })
    if RECLAIM_THRESHOLD < ts.retiredTotal + 1 then
      reclaim
    return true
  else
    -- the handler undoes the first push and rethrows
    let ts ← Prog.perform .getTls
    if (ts.retiredActions e).length < (ts.retired e).length then
      .perform (.setTls { ts with retired := upd ts.retired e (ts.retired e).dropLast })
    .perform .decOutstanding
    return false

/-- `enter()`. -/
def enter : Code Unit := do
  let g ← Prog.perform .loadGlobal
  .perform (.incActive g)
  let ts ← Prog.perform .getTls
  .perform (.setTls { ts with localEpoch := g })

/-- `exit()`. -/
def exit : Code Unit := do
  let ts ← Prog.perform .getTls
  let loc := ts.localEpoch
  let old ← Prog.perform (.decActive loc)
  if old = 1 then
    let g ← Prog.perform .loadGlobal
    if g = loc then
      let _ ← Prog.perform (.casGlobal g ((g + 1) % EPOCHS))

/-- Push the orphans of a private chain one by one, as `finalize_thread` and `drain_late` do. -/
def pushAll (head : Option Nat) : Code Unit :=
  Prog.iterate (fun cur => do
    match cur with
    | none => return .inr ()
    | some c =>
      let o ← Prog.perform (.readOrphan c)
      pushLate c
      return .inl o.next) head

/-- The private chain of `finalize_thread`: tag by tag, the last object first. -/
def makeOrphans : Code (Option Nat) :=
  Prog.iterate (fun (l : Nat × Nat × Option Nat) => do
    let (e, i, head) := l
    if e < EPOCHS then
      let ts ← Prog.perform .getTls
      if i < (ts.retired e).length then
        let o ← Prog.perform (.newOrphan
          ⟨head, (ts.retired e).getD i 0, (ts.retiredActions e).getD i ⟨0⟩, e⟩)
        return .inl (e, i + 1, some o)
      else
        .perform (.setTls { ts with
          retired := upd ts.retired e [], retiredActions := upd ts.retiredActions e [] })
        return .inl (e + 1, 0, head)
    else return .inr head) (0, 0, none)

/-- `finalize_thread()`. -/
def finalizeThread : Code Unit := do
  reclaim
  let head ← makeOrphans
  let ts ← Prog.perform .getTls
  .perform (.setTls { ts with retiredTotal := 0 })
  pushAll head

/-- `drain_late_all()`: free the orphans of the chain until it is found empty. -/
def drainLateAll : Code Unit :=
  Prog.iterate (fun (_ : Unit) => do
    let head ← Prog.perform (.exchangeLate none)
    if head = none then
      return .inr ()
    else
      Prog.iterate (fun head => do
        match head with
        | none => return .inr ()
        | some h =>
          let o ← Prog.perform (.readOrphan h)
          .perform (.run o.action o.ptr)
          .perform .decOutstanding
          .perform (.deleteOrphan h)
          return .inl o.next) head
      return .inl ()) ()

/-- `drain_all()`. -/
def drainAll : Code Unit := do
  freeTagged 0
  freeTagged 1
  freeTagged 2
  let ts ← Prog.perform .getTls
  .perform (.setTls { ts with retiredTotal := 0 })
  drainLateAll

/-! ## Clients -/

/-- The operations of the reclaimer that clients call. -/
inductive Call where
  | enter
  | exit
  | retire (x : Ptr) (a : RetireAction)
  | reclaim
  deriving DecidableEq, Repr

def code : Call → Code Bool
  | .enter => do enter; return true
  | .exit => do exit; return true
  | .retire x a => retire x a
  | .reclaim => do reclaim; return true

/-- Guards are not nested, objects are retired inside a guard and once (the memory of a freed
object, when it is used again, is a new object). -/
def invoke (t : Nat) (c : Call) (s : State) : Option State :=
  match c with
  | .enter =>
    if s.phase t = .outside then some { s with phase := upd s.phase t .entering } else none
  | .exit =>
    if s.phase t = .inside then
      some { s with phase := upd s.phase t .exiting, trace := s.trace ++ [.exit t] }
    else none
  | .retire x _ =>
    if s.phase t = .inside ∧ s.trace.all (fun | .retire _ y => x ≠ y | _ => true) then
      some { s with trace := s.trace ++ [.retire t x] }
    else none
  | .reclaim => some s

def respond (t : Nat) (c : Call) (_ : Bool) (s : State) : State :=
  match c with
  | .enter => { s with phase := upd s.phase t .inside, trace := s.trace ++ [.entered t] }
  | .exit => { s with phase := upd s.phase t .outside }
  | _ => s

/-- The reclaimer under any number of clients. -/
def reclaimer : SharedObject Op State Call Bool where
  action := action
  code := code
  invoke := invoke
  respond := respond

end Epoch

end MpmcMap.Reclaim
