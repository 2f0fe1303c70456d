import MpmcMap.Conc.RelyGuarantee
import Mathlib.Algebra.Order.Ring.Int
import Mathlib.Data.Finset.Card
import Mathlib.Data.Finset.Dedup
import Mathlib.Logic.Function.Basic

/-!
# The node pool

`node_pool` of `detail/utils.hpp`: one stack of blocks per shard, linked through a field of the
blocks. A critical section of a shard's lock is one action; everything else happens outside the
locks. A block carries the allocator that it must be given back to.

An allocator may answer any address that is not in use, one that was given back before included, or
throw. While a caller owns a block it may write what it likes into it; it releases the block with
`alloc_owner` set to the allocator that it acquired the block with.
-/

namespace MpmcMap.Reclaim.Pool

open Conc
open Prog (perform iterate)
open Function (update)

/-- The addresses of blocks. -/
abbrev Block := Nat

/-- `SHARDS`, `WATERMARK` and `PER_SHARD_WATERMARK`. -/
def SHARDS : Nat := 128
def WATERMARK : Nat := 4096
def PER_SHARD_WATERMARK : Nat := WATERMARK / SHARDS

/-- Who has a block that is not pooled. -/
inductive Holder where
  /-- The thread owns it, between its calls. -/
  | caller (t : Nat)
  /-- A call of the thread has it: on its way to the caller or the pool, or detached to be given
  back to its allocator. -/
  | call (t : Nat)
  deriving DecidableEq

/-- The pool, the blocks, the allocators and their clients. -/
structure State where
  /-- `shards_[i].head`. -/
  head : Nat → Option Block
  /-- `shards_[i].size`. -/
  size : Nat → Nat
  /-- The counter of `next_shard`, 32 bits wide. -/
  nextShard : Nat
  /-- The thread-local `idx` of `my_shard`. -/
  idx : Nat → Option Nat
  /-- The field of a block that links it in the pool. -/
  link : Block → Option Block
  allocOwner : Block → Nat
  /-- The allocator that the block was obtained from and not yet given back to. -/
  source : Block → Option Nat
  /-- What the allocators answer for the n-th time. -/
  address : Nat → Block
  nextAddress : Nat
  holder : Block → Option Holder
  /-- The allocator with which the owner acquired the block. -/
  granted : Block → Nat
  /-- The threads inside a call, and the one whose call has been the only one since it began. -/
  active : Finset Nat
  alone : Option Nat
  /-- The threads in whose last call the allocator has thrown. -/
  threw : Finset Nat
  /-- The blocks given to an allocator that had not handed them out or that they do not name. -/
  misfreed : List Block

/-- An empty pool; nothing has been allocated. -/
def State.init (address : Nat → Block) : State where
  head := fun _ => none
  size := fun _ => 0
  nextShard := 0
  idx := fun _ => none
  link := fun _ => none
  allocOwner := fun _ => 0
  source := fun _ => none
  address := address
  nextAddress := 0
  holder := fun _ => none
  granted := fun _ => 0
  active := ∅
  alone := none
  threw := ∅
  misfreed := []

/-- The first `n` blocks of the chain that begins at `head`. -/
def walk (link : Block → Option Block) : Option Block → Nat → List Block
  | some b, n + 1 => b :: walk link (link b) n
  | _, _ => []

/-- The blocks pooled in a shard. -/
def State.pooled (s : State) (i : Nat) : List Block := walk s.link (s.head i) (s.size i)

/-! ## Actions -/

inductive Op : Type → Type where
  /-- `next_shard().fetch_add(1)`. -/
  | addShard : Op Nat
  | getIdx : Op (Option Nat)
  | setIdx (i : Nat) : Op Unit
  /-- The critical section of `acquire`. -/
  | popShard (i : Nat) : Op (Option Block)
  /-- The critical section of `release`, answering `over`. -/
  | pushShard (i : Nat) (n : Block) : Op Bool
  /-- The critical section of `drain_shard`. -/
  | takeShard (i : Nat) : Op (Option Block)
  | getLink (n : Block) : Op (Option Block)
  | loadOwner (n : Block) : Op Nat
  /-- Answers `none` when the allocator throws. -/
  | allocate (na : Nat) : Op (Option Block)
  | deallocate (na : Nat) (n : Block) : Op Unit

namespace State

variable (s : State) (t i na : Nat) (n : Block)

/-- Take the block `n` off shard `i`. -/
def pop : State :=
  { s with
    head := update s.head i (s.link n)
    size := update s.size i (s.size i - 1)
    holder := update s.holder n (some (.call t)) }

/-- Link the block `n` in front of shard `i`. -/
def push : State :=
  { s with
    link := update s.link n (s.head i)
    head := update s.head i (some n)
    size := update s.size i (s.size i + 1)
    holder := update s.holder n none }

/-- Detach the whole chain of shard `i`. -/
def take : State :=
  { s with
    head := update s.head i none
    size := update s.size i 0
    holder := fun m => if m ∈ s.pooled i then some (.call t) else s.holder m }

def allocate : State :=
  { s with
    source := update s.source n (some na)
    nextAddress := s.nextAddress + 1
    holder := update s.holder n (some (.call t)) }

def deallocate : State :=
  if s.source n = some na ∧ s.allocOwner n = na then
    { s with source := update s.source n none, holder := update s.holder n none }
  else { s with misfreed := s.misfreed ++ [n] }

end State

/-- The meaning of the actions; `b` makes an allocator throw. -/
def action {β : Type} (t : Nat) (b : Bool) (o : Op β) (s : State) : Option (β × State) :=
  match o with
  | .addShard => some (s.nextShard, { s with nextShard := (s.nextShard + 1) % 2 ^ 32 })
  | .getIdx => some (s.idx t, s)
  | .setIdx i => some ((), { s with idx := update s.idx t (some i) })
  | .popShard i => some (s.head i, match s.head i with
      | none => s
      | some n => s.pop t i n)
  | .pushShard i n => some (decide (PER_SHARD_WATERMARK < s.size i + 1), s.push i n)
  | .takeShard i => some (s.head i, s.take t i)
  | .getLink n => some (s.link n, s)
  | .loadOwner n => some (s.allocOwner n, s)
  | .allocate na =>
    let n := s.address s.nextAddress
    if b then some (none, { s with threw := insert t s.threw })
    else if s.source n = none then some (some n, s.allocate t na n) else none
  | .deallocate na n => some ((), s.deallocate na n)

/-! ## The code -/

abbrev Code := Prog Op

/-- `my_shard()`. -/
def myShard : Code Nat := do
  match ← perform .getIdx with
  | some i => return i
  | none =>
    let n ← perform .addShard
    perform (.setIdx (n % SHARDS))
    return n % SHARDS

/-- `acquire(na)`; it lets the exception of the allocator through. -/
def acquire (na : Nat) : Code (Option Block) := do
  let s ← myShard
  match ← perform (.popShard s) with
  | none => perform (.allocate na)
  | some n =>
    if (← perform (.loadOwner n)) = na then
      return some n
    else
      -- a foreign block is released through its own allocator
      let o ← perform (.loadOwner n)
      perform (.deallocate o n)
      perform (.allocate na)

/-- The deallocation loop of `drain_shard`. -/
def freeChain (head : Option Block) : Code Unit :=
  iterate (fun (n : Option Block) => do
    match n with
    | none => return .inr ()
    | some n =>
      let nx ← perform (.getLink n)
      let o ← perform (.loadOwner n)
      perform (.deallocate o n)
      return .inl nx) head

/-- `drain_shard(s)`. -/
def drainShard (i : Nat) : Code Unit := do
  let n ← perform (.takeShard i)
  freeChain n

/-- `release(n)`. -/
def release (n : Block) : Code Unit := do
  let s ← myShard
  if ← perform (.pushShard s n) then
    drainShard s

/-- `drain()`. -/
def drain : Code Unit :=
  iterate (fun i => do
    if i < SHARDS then
      drainShard i
      return .inl (i + 1)
    else return .inr ()) 0

/-! ## Clients -/

inductive Call where
  | acquire (a : Nat)
  | release (n : Block)
  | drain
  /-- The owner of a block writes its fields. -/
  | write (n : Block) (link : Option Block) (allocOwner : Nat)
  deriving DecidableEq

def code : Call → Code (Option Block)
  | .acquire a => acquire a
  | .release n => do release n; return none
  | .drain => do drain; return none
  | .write .. => return none

/-- A call of thread `t` begins. -/
def State.begin (s : State) (t : Nat) : State :=
  { s with
    active := insert t s.active
    threw := s.threw.erase t
    alone := if s.active = ∅ then some t else none }

/-- The client's side of a call. -/
def invoke (t : Nat) (c : Call) (s : State) : Option State :=
  (match c with
    | .release n =>
      if s.holder n = some (Holder.caller t) ∧ s.allocOwner n = s.granted n then
        some { s with holder := update s.holder n (some (Holder.call t)) }
      else none
    | .write n l o =>
      if s.holder n = some (Holder.caller t) then
        some { s with link := update s.link n l, allocOwner := update s.allocOwner n o }
      else none
    | _ => some s).map fun (s : State) => s.begin t

/-- The caller of `acquire` owns what it gets. -/
def respond (t : Nat) (c : Call) (r : Option Block) (s : State) : State :=
  let s := match c, r with
    | .acquire a, some n =>
      { s with
        holder := update s.holder n (some (.caller t))
        granted := update s.granted n a }
    | _, _ => s
  { s with active := s.active.erase t, alone := none }

/-- The pool under any number of threads and allocators. -/
def pool : SharedObject Op State Call (Option Block) where
  action := action
  code := code
  invoke := invoke
  respond := respond

/-! ## Conservation -/

/-- Where a block can be. -/
inductive Place where
  | held (h : Holder)
  | pooled (i : Nat)

/-- The block is there. -/
def State.At (s : State) (n : Block) : Place → Prop
  | .held h => s.holder n = some h
  | .pooled i => n ∈ s.pooled i

/-- The links lead from `h` through the blocks of the list to null. -/
def Stack (link : Block → Option Block) : Option Block → List Block → Prop
  | h, [] => h = none
  | h, n :: L => h = some n ∧ Stack link (link n) L

structure Conserved (s : State) : Prop where
  /-- A block that was obtained from an allocator is in exactly one place. -/
  place : ∀ n, s.source n ≠ none → ∃! p, s.At n p
  /-- Nothing else is anywhere. -/
  source : ∀ n p, s.At n p → s.source n ≠ none
  /-- The size of a shard is the length of its chain. -/
  stack : ∀ i, Stack s.link (s.head i) (s.pooled i)
  size : ∀ i, s.size i = (s.pooled i).length
  nodup : ∀ i, (s.pooled i).Nodup
  /-- A pooled block names the allocator that it was obtained from. -/
  allocOwner : ∀ i, ∀ n ∈ s.pooled i, s.source n = some (s.allocOwner n)
  misfreed : s.misfreed = []

/-! ### Stacks -/

section Stacks

variable {link link' : Block → Option Block} {h : Option Block} {L : List Block}

theorem Stack.congr (hL : Stack link h L) (hlink : ∀ n ∈ L, link' n = link n) :
    Stack link' h L := by
  induction L generalizing h with
  | nil => exact hL
  | cons n L ih =>
    obtain ⟨rfl, hrest⟩ := hL
    refine ⟨rfl, ?_⟩
    rw [hlink n List.mem_cons_self]
    exact ih hrest fun m hm => hlink m (List.mem_cons_of_mem _ hm)

theorem Stack.walk (hL : Stack link h L) : walk link h L.length = L := by
  induction L generalizing h with
  | nil =>
    obtain rfl := hL
    rfl
  | cons n L ih =>
    obtain ⟨rfl, hrest⟩ := hL
    simp only [List.length_cons, Pool.walk, ih hrest]

theorem pooled_eq {s : State} {i : Nat} (hL : Stack s.link (s.head i) L)
    (hsize : s.size i = L.length) : s.pooled i = L := by
  unfold State.pooled
  rw [hsize, hL.walk]

end Stacks

structure Inv (s : State) : Prop where
  stack : ∀ i, Stack s.link (s.head i) (s.pooled i)
  size : ∀ i, s.size i = (s.pooled i).length
  nodup : ∀ i, (s.pooled i).Nodup
  /-- A pooled block is nowhere else. -/
  apart : ∀ n i j, n ∈ s.pooled i → n ∈ s.pooled j → i = j
  pooled : ∀ n i, n ∈ s.pooled i → s.holder n = none ∧ s.source n = some (s.allocOwner n)
  held : ∀ n h, s.holder n = some h → s.source n ≠ none
  somewhere : ∀ n, s.source n ≠ none → s.holder n ≠ none ∨ ∃ i, n ∈ s.pooled i
  granted : ∀ n t, s.holder n = some (.caller t) → s.source n = some (s.granted n)
  misfreed : s.misfreed = []
  idx : ∀ t i, s.idx t = some i → i < SHARDS
  beyond : ∀ i, SHARDS ≤ i → s.head i = none
  alone : ∀ t, s.alone = some t → s.active = {t}

theorem Inv.conserved {s : State} (hi : Inv s) : Conserved s where
  place n hn := by
    rcases hi.somewhere n hn with h | ⟨i, h⟩
    · obtain ⟨h', hh⟩ := Option.ne_none_iff_exists'.mp h
      refine ⟨.held h', hh, fun p hp => ?_⟩
      cases p with
      | held h'' =>
        have heq : some h'' = some h' := hp.symm.trans hh
        rw [Option.some.inj heq]
      | pooled i => exact absurd (hi.pooled n i hp).1 h
    · refine ⟨.pooled i, h, fun p hp => ?_⟩
      cases p with
      | held h' =>
        have hnone := (hi.pooled n i h).1
        rw [show s.holder n = some h' from hp] at hnone
        cases hnone
      | pooled j => rw [hi.apart n j i hp h]
  source n p hp := by
    cases p with
    | held h => exact hi.held n h hp
    | pooled i => simp [(hi.pooled n i hp).2]
  stack := hi.stack
  size := hi.size
  nodup := hi.nodup
  allocOwner i n hn := (hi.pooled n i hn).2
  misfreed := hi.misfreed

/-- The fields of a block. -/
structure Fields where
  link : Option Block
  allocOwner : Nat
  source : Option Nat

def State.fields (s : State) (n : Block) : Fields := ⟨s.link n, s.allocOwner n, s.source n⟩

/-- Only calls of thread `t` have had or get the block, if who has it or its fields change. -/
def Untouched (t : Nat) (n : Block) (s s' : State) : Prop :=
  (s'.holder n = s.holder n ∧ s'.fields n = s.fields n) ∨
    ∀ v, v ≠ t → s.holder n ≠ some (.call v) ∧ s'.holder n ≠ some (.call v)

/-- What a step of thread `u` may change. -/
structure Guar (u : Nat) (s s' : State) : Prop where
  call : ∀ n, Untouched u n s s'
  active : ∀ v, v ≠ u → (v ∈ s'.active ↔ v ∈ s.active)
  threw : ∀ v, v ≠ u → (v ∈ s'.threw ↔ v ∈ s.threw)
  alone : ∀ v, v ≠ u → s'.alone = some v → s.alone = some v ∧ s'.head = s.head

/-- The proof obligations of the threads. -/
def conserving : Discipline pool State where
  erase := id
  inv := Inv
  guar := Guar
  ok := SharedObject.anyAction

@[simp] theorem conserving_erase (s : State) : conserving.erase s = s := by
  simp only [conserving, id_eq]

/-! ### Steps that keep the invariant -/

section Steps

variable {s s' : State} {t i k na : Nat} {n : Block} {L : List Block}

/-- What is neither in the shards nor about who has a block may change. -/
theorem Inv.keep (hi : Inv s) (hhead : s'.head = s.head) (hsize : s'.size = s.size)
    (hlink : s'.link = s.link) (hallocOwner : s'.allocOwner = s.allocOwner)
    (hsource : s'.source = s.source) (hholder : s'.holder = s.holder)
    (hgranted : s'.granted = s.granted) (hmisfreed : s'.misfreed = s.misfreed)
    (hidx : ∀ t i, s'.idx t = some i → i < SHARDS)
    (halone : ∀ t, s'.alone = some t → s'.active = {t}) : Inv s' := by
  have hpooled : s'.pooled = s.pooled := by
    funext i
    simp only [State.pooled, hlink, hhead, hsize]
  constructor
  case idx => exact hidx
  case alone => exact halone
  all_goals simp only [hhead, hsize, hlink, hallocOwner, hsource, hholder, hgranted, hmisfreed,
    hpooled]
  exacts [hi.stack, hi.size, hi.nodup, hi.apart, hi.pooled, hi.held, hi.somewhere, hi.granted,
    hi.misfreed, hi.beyond]

/-- Shard `k` becomes the stack `L`, the others stay as they are. -/
theorem pooled_update {h : Option Block} {z : Nat} {v : State} (hi : Inv s)
    (hlink : ∀ i, i ≠ k → ∀ m ∈ s.pooled i, v.link m = s.link m)
    (hhead : v.head = update s.head k h) (hsize : v.size = update s.size k z)
    (hL : Stack v.link h L) (hz : z = L.length) (i : Nat) :
    v.pooled i = update s.pooled k L i ∧ Stack v.link (v.head i) (v.pooled i) ∧
      v.size i = (v.pooled i).length := by
  have hstack : Stack v.link (v.head i) (update s.pooled k L i) ∧
      v.size i = (update s.pooled k L i).length := by
    rw [hhead, hsize]
    by_cases hik : i = k
    · subst hik
      simpa only [Function.update_self] using ⟨hL, hz⟩
    · simp only [Function.update_of_ne hik]
      exact ⟨(hi.stack i).congr (hlink i hik), hi.size i⟩
  have heq := pooled_eq hstack.1 hstack.2
  rw [heq]
  exact ⟨rfl, hstack⟩

/-- The first block of a shard that is not empty. -/
theorem Inv.head (hi : Inv s) (hn : s.head k = some n) :
    ∃ L, s.pooled k = n :: L ∧ Stack s.link (s.link n) L := by
  have hstack := hi.stack k
  cases hp : s.pooled k with
  | nil =>
    rw [hp, hn] at hstack
    cases hstack
  | cons m L =>
    rw [hp, hn] at hstack
    obtain rfl := Option.some.inj hstack.1
    exact ⟨L, rfl, hstack.2⟩

theorem Inv.pop (hi : Inv s) (hn : s.head k = some n) : Inv (s.pop t k n) := by
  obtain ⟨L, hL, hstack⟩ := hi.head hn
  obtain ⟨hnL, hnd⟩ := List.nodup_cons.mp (hL ▸ hi.nodup k)
  have hz : s.size k - 1 = L.length := by
    rw [hi.size k, hL, List.length_cons]
    omega
  have hshards := pooled_update (v := s.pop t k n) hi (fun _ _ _ _ => rfl) rfl rfl hstack hz
  have hpooled : (s.pop t k n).pooled = update s.pooled k L := funext fun i => (hshards i).1
  -- the shards have lost the one block
  have hmem : ∀ m i, m ∈ (s.pop t k n).pooled i ↔ m ∈ s.pooled i ∧ m ≠ n := by
    intro m i
    rw [hpooled]
    by_cases hik : i = k
    · subst hik
      rw [Function.update_self, hL, List.mem_cons]
      grind
    · rw [Function.update_of_ne hik]
      refine ⟨fun hm => ⟨hm, ?_⟩, fun hm => hm.1⟩
      rintro rfl
      exact hik (hi.apart m i k hm (by simp [hL]))
  have hnsource := (hi.pooled n k (by simp [hL])).2
  refine ⟨fun i => (hshards i).2.1, fun i => (hshards i).2.2, fun i => ?_, fun m i j hmi hmj => ?_,
    fun m i hm => ?_, fun m h hm => ?_, fun m hm => ?_, fun m u hm => ?_, hi.misfreed, hi.idx,
    fun i hb => ?_, hi.alone⟩
  · rw [hpooled]
    by_cases hik : i = k
    · subst hik
      simpa using hnd
    · simpa [hik] using hi.nodup i
  · exact hi.apart m i j ((hmem m i).mp hmi).1 ((hmem m j).mp hmj).1
  · obtain ⟨hm, hne⟩ := (hmem m i).mp hm
    simpa [State.pop, hne] using hi.pooled m i hm
  · by_cases hmn : m = n
    · subst hmn
      simp [State.pop, hnsource]
    · exact hi.held m h (by simpa [State.pop, hmn] using hm)
  · by_cases hmn : m = n
    · simp [State.pop, hmn]
    · refine (hi.somewhere m hm).imp (fun h => by simpa [State.pop, hmn] using h) ?_
      rintro ⟨i, hi'⟩
      exact ⟨i, (hmem m i).mpr ⟨hi', hmn⟩⟩
  · by_cases hmn : m = n
    · simp [State.pop, hmn] at hm
    · exact hi.granted m u (by simpa [State.pop, hmn] using hm)
  · have hik : i ≠ k := by
      rintro rfl
      rw [hi.beyond i hb] at hn
      cases hn
    simpa [State.pop, hik] using hi.beyond i hb

/-- A block that somebody has is in no shard. -/
theorem Inv.notMem_pooled (hi : Inv s) (hn : s.holder n ≠ none) (i : Nat) : n ∉ s.pooled i :=
  fun hm => hn (hi.pooled n i hm).1

theorem Inv.push (hi : Inv s) (hk : k < SHARDS) (hn : s.holder n ≠ none)
    (hsource : s.source n = some (s.allocOwner n)) : Inv (s.push k n) := by
  have hout := hi.notMem_pooled hn
  have hlink : ∀ i, ∀ m ∈ s.pooled i, (s.push k n).link m = s.link m := by
    intro i m hm
    have hne : m ≠ n := fun h => hout i (h ▸ hm)
    simp [State.push, hne]
  have hstack : Stack (s.push k n).link (some n) (n :: s.pooled k) :=
    ⟨rfl, by simpa [State.push] using (hi.stack k).congr (hlink k)⟩
  have hshards := pooled_update (v := s.push k n) hi (fun i _ => hlink i) rfl rfl hstack
    (by simp [hi.size k])
  have hpooled : (s.push k n).pooled = update s.pooled k (n :: s.pooled k) :=
    funext fun i => (hshards i).1
  -- the shards have gained the one block
  have hmem : ∀ m i, m ∈ (s.push k n).pooled i ↔ m ∈ s.pooled i ∨ (m = n ∧ i = k) := by
    intro m i
    rw [hpooled]
    by_cases hik : i = k
    · subst hik
      rw [Function.update_self, List.mem_cons]
      tauto
    · rw [Function.update_of_ne hik]
      tauto
  refine ⟨fun i => (hshards i).2.1, fun i => (hshards i).2.2, fun i => ?_, fun m i j hmi hmj => ?_,
    fun m i hm => ?_, fun m h hm => ?_, fun m hm => ?_, fun m u hm => ?_, hi.misfreed, hi.idx,
    fun i hb => ?_, hi.alone⟩
  · rw [hpooled]
    by_cases hik : i = k
    · subst hik
      simpa using ⟨hout i, hi.nodup i⟩
    · simpa [hik] using hi.nodup i
  · rcases (hmem m i).mp hmi with h₁ | ⟨h₁, hik⟩ <;> rcases (hmem m j).mp hmj with h₂ | ⟨h₂, hjk⟩
    · exact hi.apart m i j h₁ h₂
    · exact absurd (h₂ ▸ h₁) (hout i)
    · exact absurd (h₁ ▸ h₂) (hout j)
    · exact hik.trans hjk.symm
  · rcases (hmem m i).mp hm with hm | ⟨rfl, rfl⟩
    · have hne : m ≠ n := fun h => hout i (h ▸ hm)
      simpa [State.push, hne] using hi.pooled m i hm
    · simpa [State.push] using hsource
  · have hne : m ≠ n := by
      rintro rfl
      simp [State.push] at hm
    exact hi.held m h (by simpa [State.push, hne] using hm)
  · by_cases hmn : m = n
    · exact .inr ⟨k, (hmem m k).mpr (.inr ⟨hmn, rfl⟩)⟩
    · refine (hi.somewhere m hm).imp (fun h => by simpa [State.push, hmn] using h) ?_
      rintro ⟨i, hi'⟩
      exact ⟨i, (hmem m i).mpr (.inl hi')⟩
  · have hne : m ≠ n := by
      rintro rfl
      simp [State.push] at hm
    exact hi.granted m u (by simpa [State.push, hne] using hm)
  · have hik : i ≠ k := by omega
    simpa [State.push, hik] using hi.beyond i hb

theorem Inv.take (hi : Inv s) : Inv (s.take t k) := by
  have hshards := pooled_update (v := s.take t k) (h := none) hi (fun _ _ _ _ => rfl) rfl rfl
    (show Stack _ none [] from rfl) rfl
  -- shard `k` is empty afterwards, its blocks are with the call, and nothing else has moved
  have hpooled : (s.take t k).pooled = update s.pooled k [] := funext fun i => (hshards i).1
  have hmem : ∀ m i, m ∈ (s.take t k).pooled i ↔ m ∈ s.pooled i ∧ m ∉ s.pooled k := by
    intro m i
    rw [hpooled]
    by_cases hik : i = k
    · subst hik
      simp
    · rw [Function.update_of_ne hik]
      exact ⟨fun hm => ⟨hm, fun hm' => hik (hi.apart m i k hm hm')⟩, fun hm => hm.1⟩
  have hholder : ∀ m, m ∉ s.pooled k → (s.take t k).holder m = s.holder m := fun m hm => if_neg hm
  have hholder' : ∀ m, m ∈ s.pooled k → (s.take t k).holder m = some (.call t) :=
    fun m hm => if_pos hm
  refine ⟨fun i => (hshards i).2.1, fun i => (hshards i).2.2, fun i => ?_, fun m i j hmi hmj => ?_,
    fun m i hm => ?_, fun m h hm => ?_, fun m hm => ?_, fun m u hm => ?_, hi.misfreed, hi.idx,
    fun i hb => ?_, hi.alone⟩
  · rw [hpooled]
    by_cases hik : i = k
    · subst hik
      simp
    · simpa [hik] using hi.nodup i
  · exact hi.apart m i j ((hmem m i).mp hmi).1 ((hmem m j).mp hmj).1
  · obtain ⟨hm, hout⟩ := (hmem m i).mp hm
    rw [hholder m hout]
    exact hi.pooled m i hm
  · by_cases hmk : m ∈ s.pooled k
    · show s.source m ≠ none
      simp [(hi.pooled m k hmk).2]
    · rw [hholder m hmk] at hm
      exact hi.held m h hm
  · by_cases hmk : m ∈ s.pooled k
    · exact .inl (by simp [hholder' m hmk])
    · rw [hholder m hmk]
      refine (hi.somewhere m hm).imp id ?_
      rintro ⟨i, hi'⟩
      exact ⟨i, (hmem m i).mpr ⟨hi', hmk⟩⟩
  · by_cases hmk : m ∈ s.pooled k
    · simp [hholder' m hmk] at hm
    · rw [hholder m hmk] at hm
      exact hi.granted m u hm
  · by_cases hik : i = k
    · subst hik
      simp [State.take]
    · simpa [State.take, hik] using hi.beyond i hb

/-- What concerns a block outside the shards may change. -/
theorem Inv.outside (hi : Inv s) (hout : ∀ i, n ∉ s.pooled i) (hhead : s'.head = s.head)
    (hsize : s'.size = s.size)
    (hother : ∀ m, m ≠ n → s'.fields m = s.fields m ∧ s'.holder m = s.holder m ∧
      s'.granted m = s.granted m)
    (hself : (s'.source n = none ↔ s'.holder n = none) ∧
      ∀ t, s'.holder n = some (.caller t) → s'.source n = some (s'.granted n))
    (hmisfreed : s'.misfreed = s.misfreed) (hidx : s'.idx = s.idx)
    (halone : ∀ t, s'.alone = some t → s'.active = {t}) : Inv s' := by
  have hne : ∀ m i, m ∈ s.pooled i → m ≠ n := fun m i hm h => hout i (h ▸ hm)
  have hfields : ∀ m, m ≠ n → s'.link m = s.link m ∧ s'.allocOwner m = s.allocOwner m ∧
      s'.source m = s.source m := fun m hm => by simpa [State.fields] using (hother m hm).1
  have hstack : ∀ i, Stack s'.link (s'.head i) (s.pooled i) := by
    intro i
    rw [hhead]
    exact (hi.stack i).congr fun m hm => (hfields m (hne m i hm)).1
  -- no chain runs through `n`, so all of them are as before
  have hpooled : s'.pooled = s.pooled := by
    funext i
    exact pooled_eq (hstack i) (by rw [hsize, hi.size])
  refine ⟨?_, ?_, ?_, ?_, fun m i hm => ?_, fun m h hm => ?_, fun m hm => ?_, fun m u hm => ?_, ?_,
    ?_, ?_, halone⟩
  · simpa only [hpooled] using hstack
  · simpa only [hsize, hpooled] using hi.size
  · simpa only [hpooled] using hi.nodup
  · simpa only [hpooled] using hi.apart
  · rw [hpooled] at hm
    obtain ⟨-, h1, h2⟩ := hfields m (hne m i hm)
    rw [(hother m (hne m i hm)).2.1, h1, h2]
    exact hi.pooled m i hm
  · by_cases hmn : m = n
    · subst hmn
      intro hnone
      rw [hself.1.mp hnone] at hm
      cases hm
    · rw [(hfields m hmn).2.2]
      exact hi.held m h ((hother m hmn).2.1 ▸ hm)
  · by_cases hmn : m = n
    · subst hmn
      exact .inl fun hnone => hm (hself.1.mpr hnone)
    · rw [(hother m hmn).2.1, hpooled]
      exact hi.somewhere m ((hfields m hmn).2.2 ▸ hm)
  · by_cases hmn : m = n
    · subst hmn
      exact hself.2 u hm
    · obtain ⟨-, h1, h2⟩ := hother m hmn
      rw [(hfields m hmn).2.2, h2]
      exact hi.granted m u (h1 ▸ hm)
  · rw [hmisfreed, hi.misfreed]
  · simpa only [hidx] using hi.idx
  · simpa only [hhead] using hi.beyond

theorem Inv.allocate (hi : Inv s) (hn : s.source n = none) : Inv (s.allocate t na n) := by
  refine hi.outside (n := n) (fun i hm => ?_) rfl rfl (fun m hm => ?_) ?_ rfl rfl hi.alone
  · rw [(hi.pooled n i hm).2] at hn
    cases hn
  · simp [State.allocate, State.fields, hm]
  · simp [State.allocate]

theorem Inv.deallocate (hi : Inv s) (hn : s.holder n ≠ none)
    (hsource : s.source n = some na ∧ s.allocOwner n = na) : Inv (s.deallocate na n) := by
  rw [State.deallocate, if_pos hsource]
  refine hi.outside (n := n) (hi.notMem_pooled hn) rfl rfl (fun m hm => ?_) ?_ rfl rfl hi.alone
  · simp [State.fields, hm]
  · simp

end Steps

/-! ### What a thread has -/

section Own

variable {s s' : State} {t i k na : Nat} {n : Block} {L : List Block}
  {S : Finset Block} {c : Block → Fields} {E : Nat → Prop}

/-- The call of thread `t` has the blocks of `S` and no others, with the fields `c`; as long as it is
the only one, the shards of `E` are empty. -/
structure Own (t : Nat) (S : Finset Block) (c : Block → Fields) (E : Nat → Prop) (s : State) :
    Prop where
  active : t ∈ s.active
  call : ∀ n, s.holder n = some (.call t) ↔ n ∈ S
  fields : ∀ n ∈ S, s.fields n = c n
  empty : s.alone = some t → ∀ i, E i → s.head i = none

theorem Guar.holder {u : Nat} (hg : Guar u s s') (hu : u ≠ t) (n : Block) :
    s'.holder n = some (.call t) ↔ s.holder n = some (.call t) := by
  rcases hg.call n with ⟨hholder, -⟩ | hnot
  · rw [hholder]
  · exact ⟨fun h => absurd h (hnot t hu.symm).2, fun h => absurd h (hnot t hu.symm).1⟩

theorem stable_own : conserving.Stable t (Own t S c E) := by
  intro u hu s s' _ _ hg h
  refine ⟨(hg.active t hu.symm).mpr h.active, fun n => (hg.holder hu n).trans (h.call n),
    fun n hn => ?_, fun halone i hE => ?_⟩
  · rcases hg.call n with ⟨-, hfields⟩ | hnot
    · rw [hfields]
      exact h.fields n hn
    · exact absurd ((h.call n).mpr hn) (hnot t hu.symm).1
  · obtain ⟨halone, hhead⟩ := hg.alone t hu.symm halone
    rw [hhead]
    exact h.empty halone i hE

/-- While another thread is inside a call, nobody is the only one. -/
theorem Own.not_alone (h : Own t S c E s) (hi : Inv s) {v : Nat} (hv : v ≠ t) :
    s.alone ≠ some v := by
  intro halone
  have hmem := h.active
  rw [hi.alone v halone, Finset.mem_singleton] at hmem
  exact hv hmem.symm

/-- A step inside a call that leaves alone what calls of other threads have. -/
theorem Own.guar (h : Own t S c E s) (hi : Inv s) (hactive : s'.active = s.active)
    (halone : s'.alone = s.alone) (hthrew : ∀ v, v ≠ t → (v ∈ s'.threw ↔ v ∈ s.threw))
    (hcall : ∀ n, Untouched t n s s') : Guar t s s' :=
  ⟨hcall, fun v _ => by rw [hactive], hthrew,
    fun v hv hv' => absurd (halone ▸ hv') (h.not_alone hi hv)⟩

theorem Own.guar_same (h : Own t S c E s) (hi : Inv s) (hactive : s'.active = s.active)
    (halone : s'.alone = s.alone) (hthrew : s'.threw = s.threw) (hholder : s'.holder = s.holder)
    (hfields : s'.fields = s.fields) : Guar t s s' :=
  h.guar hi hactive halone (fun v _ => by rw [hthrew]) fun n =>
    .inl ⟨by rw [hholder], by rw [hfields]⟩

/-- A step that is about one block, which no call of another thread has. -/
theorem untouched_of_ne (hother : ∀ m, m ≠ n → s'.holder m = s.holder m ∧ s'.fields m = s.fields m)
    (hself : ∀ v, v ≠ t → s.holder n ≠ some (.call v) ∧ s'.holder n ≠ some (.call v)) (m : Block) :
    Untouched t m s s' := by
  by_cases hm : m = n
  · rw [hm]
    exact .inr hself
  · exact .inl (hother m hm)

variable {α β : Type} {Q : α → State → Prop}

/-- An action that reads, or writes only the index of the thread's shard. -/
theorem wp_quiet {o : Op β} {k : β → Code α} {R : β → Prop} (hi : Inv s) (h : Own t S c E s)
    (hact : ∀ s b r s', Inv s → Own t S c E s → action t b o s = some (r, s') →
      R r ∧ Inv s' ∧ Own t S c E s' ∧ Guar t s s')
    (hk : ∀ r s, R r → Inv s → Own t S c E s → conserving.WP t (k r) Q s) :
    conserving.WP t (.act o k) Q s := by
  refine Discipline.WP.act stable_own hi h fun s b r s' hi h _ hstep => ?_
  obtain ⟨hr, hi', h', hg⟩ := hact s b r s' hi h hstep
  exact ⟨s', rfl, hi', hg, hk r s' hr hi' h'⟩

theorem wp_getLink {k : Option Block → Code α} (hi : Inv s) (h : Own t S c E s) (hn : n ∈ S)
    (hk : ∀ s, Inv s → Own t S c E s → conserving.WP t (k (c n).link) Q s) :
    conserving.WP t (.act (.getLink n) k) Q s := by
  refine wp_quiet (R := fun r => r = (c n).link) hi h (fun s b r s' hi h hact => ?_)
    fun r s hr hi h => hr ▸ hk s hi h
  cases hact
  exact ⟨by rw [← h.fields n hn, State.fields], hi, h, h.guar_same hi rfl rfl rfl rfl rfl⟩

theorem wp_loadOwner {k : Nat → Code α} (hi : Inv s) (h : Own t S c E s) (hn : n ∈ S)
    (hk : ∀ s, Inv s → Own t S c E s → conserving.WP t (k (c n).allocOwner) Q s) :
    conserving.WP t (.act (.loadOwner n) k) Q s := by
  refine wp_quiet (R := fun r => r = (c n).allocOwner) hi h (fun s b r s' hi h hact => ?_)
    fun r s hr hi h => hr ▸ hk s hi h
  cases hact
  exact ⟨by rw [← h.fields n hn, State.fields], hi, h, h.guar_same hi rfl rfl rfl rfl rfl⟩

/-- `my_shard()`. -/
theorem wp_myShard (hi : Inv s) (h : Own t S c E s) :
    conserving.WP t myShard (fun r s => r < SHARDS ∧ Own t S c E s) s := by
  have hret : ∀ r s, r < SHARDS → Inv s → Own t S c E s →
      conserving.WP t (.ret r) (fun r s => r < SHARDS ∧ Own t S c E s) s := fun r s hr hi h =>
    Discipline.WP.ret (Discipline.Stable.const.and stable_own) hi ⟨hr, h⟩
  refine wp_quiet (R := fun r => ∀ i, r = some i → i < SHARDS) hi h (fun s b r s' hi h hact => ?_)
    fun r s hr hi h => ?_
  · cases hact
    exact ⟨hi.idx t, hi, h, h.guar_same hi rfl rfl rfl rfl rfl⟩
  cases r with
  | some i => exact hret i s (hr i rfl) hi h
  | none =>
    refine wp_quiet (R := fun _ => True) hi h (fun s b r s' hi h hact => ?_) fun n s _ hi h => ?_
    · cases hact
      exact ⟨trivial, hi.keep rfl rfl rfl rfl rfl rfl rfl rfl hi.idx hi.alone,
        ⟨h.active, h.call, h.fields, h.empty⟩, h.guar_same hi rfl rfl rfl rfl rfl⟩
    have hlt : n % SHARDS < SHARDS := Nat.mod_lt _ (by decide)
    refine wp_quiet (R := fun _ => True) hi h (fun s b r s' hi h hact => ?_)
      fun _ s _ hi h => hret _ s hlt hi h
    cases hact
    refine ⟨trivial, hi.keep rfl rfl rfl rfl rfl rfl rfl rfl (fun u i hu => ?_) hi.alone,
      ⟨h.active, h.call, h.fields, h.empty⟩, h.guar_same hi rfl rfl rfl rfl rfl⟩
    by_cases hut : u = t
    · subst hut
      have : n % SHARDS = i := by simpa using hu
      omega
    · exact hi.idx u i (by simpa [hut] using hu)

/-- The critical section of `acquire`. -/
theorem wp_popShard {k : Option Block → Code α} (hi : Inv s) (h : Own t ∅ c E s)
    (hnone : ∀ s, Inv s → Own t ∅ c E s → conserving.WP t (k none) Q s)
    (hsome : ∀ n l o s, Inv s → Own t {n} (fun _ => ⟨l, o, some o⟩) E s →
      conserving.WP t (k (some n)) Q s) : conserving.WP t (.act (.popShard i) k) Q s := by
  refine Discipline.WP.act stable_own hi h fun s b r s' hi h _ hact => ?_
  cases hhead : s.head i with
  | none =>
    simp only [pool, action, conserving, id, hhead, Option.some.injEq, Prod.mk.injEq] at hact
    obtain ⟨rfl, rfl⟩ := hact
    exact ⟨s, rfl, hi, h.guar_same hi rfl rfl rfl rfl rfl, hnone s hi h⟩
  | some n =>
    simp only [pool, action, conserving, id, hhead, Option.some.injEq, Prod.mk.injEq] at hact
    obtain ⟨rfl, rfl⟩ := hact
    obtain ⟨L, hL, -⟩ := hi.head hhead
    obtain ⟨hnh, hnsource⟩ := hi.pooled n i (by simp [hL])
    have hguar : Guar t s (s.pop t i n) := h.guar hi rfl rfl (fun _ _ => Iff.rfl)
      (untouched_of_ne (n := n) (fun m hm => ⟨by simp [State.pop, hm], rfl⟩)
      fun v hv => ⟨by simp [hnh], by simp [State.pop, hv.symm]⟩)
    refine ⟨_, rfl, hi.pop hhead, hguar, hsome n (s.link n) (s.allocOwner n) _ (hi.pop hhead)
      ⟨h.active, fun m => ?_, ?_, fun halone j hE => ?_⟩⟩
    · by_cases hm : m = n
      · simp [hm]
      · simpa [hm] using h.call m
    · simpa [State.pop, State.fields] using hnsource
    · have hne : j ≠ i := by
        rintro rfl
        rw [h.empty halone j hE] at hhead
        cases hhead
      simpa [State.pop, hne] using h.empty halone j hE

/-- The critical section of `release`. -/
theorem wp_pushShard {k : Bool → Code α} (hlt : i < SHARDS) (hE : ¬ E i) (hi : Inv s)
    (h : Own t {n} c E s) (hsource : (c n).source = some (c n).allocOwner)
    (hk : ∀ r s, Inv s → Own t ∅ c E s → conserving.WP t (k r) Q s) :
    conserving.WP t (.act (.pushShard i n) k) Q s := by
  refine Discipline.WP.act stable_own hi h fun s b r s' hi h _ hact => ?_
  cases hact
  have hcall := (h.call n).mpr (by simp)
  have hfields := h.fields n (by simp)
  have hi' : Inv (s.push i n) := by
    refine hi.push hlt (by simp [hcall]) ?_
    rw [← hfields] at hsource
    exact hsource
  have hguar : Guar t s (s.push i n) := h.guar hi rfl rfl (fun _ _ => Iff.rfl)
    (untouched_of_ne (n := n) (fun m hm => ⟨by simp [State.push, hm], by simp [State.push, State.fields, hm]⟩)
    fun v hv => ⟨by simp [hcall, hv.symm], by simp [State.push]⟩)
  refine ⟨_, rfl, hi', hguar, hk _ _ hi' ⟨h.active, fun m => ?_, by simp, fun halone j hEj => ?_⟩⟩
  · by_cases hm : m = n
    · simp [hm]
    · simpa [hm] using h.call m
  · have hne : j ≠ i := fun he => hE (he ▸ hEj)
    simpa [State.push, hne] using h.empty halone j hEj

/-- A detached chain whose blocks name their allocators. -/
structure Detached (c : Block → Fields) (h : Option Block) (L : List Block) : Prop where
  stack : Stack (fun n => (c n).link) h L
  nodup : L.Nodup
  source : ∀ n ∈ L, (c n).source = some (c n).allocOwner

/-- The critical section of `drain_shard`. -/
theorem wp_takeShard {k : Option Block → Code α} (hi : Inv s) (h : Own t ∅ c E s)
    (hk : ∀ r L c s, Inv s → Own t L.toFinset c (fun j => E j ∨ j = i) s → Detached c r L →
      conserving.WP t (k r) Q s) : conserving.WP t (.act (.takeShard i) k) Q s := by
  refine Discipline.WP.act stable_own hi h fun s b r s' hi h _ hact => ?_
  cases hact
  have hguar : Guar t s (s.take t i) := h.guar hi rfl rfl (fun _ _ => Iff.rfl) fun m => by
    by_cases hm : m ∈ s.pooled i
    · exact .inr fun v hv => ⟨by simp [(hi.pooled m i hm).1], by simp [State.take, hm, hv.symm]⟩
    · exact .inl ⟨if_neg hm, rfl⟩
  refine ⟨_, rfl, hi.take, hguar, hk (s.head i) (s.pooled i) s.fields _ hi.take ⟨h.active,
    fun m => ?_, fun _ _ => rfl, fun halone j hE => ?_⟩
    ⟨hi.stack i, hi.nodup i, fun m hm => (hi.pooled m i hm).2⟩⟩
  · by_cases hm : m ∈ s.pooled i
    · simp [hm]
    · simpa [State.take, hm] using h.call m
  · by_cases hji : j = i
    · subst hji
      simp
    · simpa [State.take, hji] using h.empty halone j (hE.resolve_right hji)

/-- The allocator throws, or gives out a block that nobody has. -/
theorem wp_allocate {k : Option Block → Code α} (hi : Inv s) (h : Own t ∅ c E s)
    (hthrow : ∀ s, Inv s → Own t ∅ c E s → t ∈ s.threw → conserving.WP t (k none) Q s)
    (hk : ∀ n c s, Inv s → Own t {n} c E s → (c n).source = some na →
      conserving.WP t (k (some n)) Q s) : conserving.WP t (.act (.allocate na) k) Q s := by
  refine Discipline.WP.act stable_own hi h fun s b r s' hi h _ hact => ?_
  simp only [pool, action, conserving, id] at hact
  split at hact
  · simp only [Option.some.injEq, Prod.mk.injEq] at hact
    obtain ⟨rfl, rfl⟩ := hact
    have hi' : Inv { s with threw := insert t s.threw } :=
      hi.keep rfl rfl rfl rfl rfl rfl rfl rfl hi.idx hi.alone
    refine ⟨_, rfl, hi', h.guar hi rfl rfl (fun v hv => by simp [hv]) fun _ => .inl ⟨rfl, rfl⟩,
      hthrow _ hi' ⟨h.active, h.call, h.fields, h.empty⟩ (Finset.mem_insert_self _ _)⟩
  split at hact
  · next hnone =>
    simp only [Option.some.injEq, Prod.mk.injEq] at hact
    obtain ⟨rfl, rfl⟩ := hact
    set n := s.address s.nextAddress
    have hfree : s.holder n = none := by
      by_contra hne
      obtain ⟨x, hx⟩ := Option.ne_none_iff_exists'.mp hne
      exact hi.held n x hx hnone
    have hguar : Guar t s (s.allocate t na n) := h.guar hi rfl rfl (fun _ _ => Iff.rfl)
      (untouched_of_ne (n := n)
        (fun m hm => ⟨by simp [State.allocate, hm], by simp [State.allocate, State.fields, hm]⟩)
        fun v hv => ⟨by simp [hfree], by simp [State.allocate, hv.symm]⟩)
    refine ⟨_, rfl, hi.allocate hnone, hguar, hk n (s.allocate t na n).fields _
      (hi.allocate hnone) ⟨h.active, fun m => ?_, fun _ _ => rfl, h.empty⟩
      (by simp [State.fields, State.allocate])⟩
    by_cases hm : m = n
    · simp [hm]
    · simpa [hm] using h.call m
  · cases hact

theorem wp_deallocate {k : Unit → Code α} (hi : Inv s) (h : Own t S c E s) (hn : n ∈ S)
    (hsource : (c n).source = some (c n).allocOwner)
    (hk : ∀ s, Inv s → Own t (S.erase n) c E s → conserving.WP t (k ()) Q s) :
    conserving.WP t (.act (.deallocate (c n).allocOwner n) k) Q s := by
  refine Discipline.WP.act stable_own hi h fun s b r s' hi h _ hact => ?_
  cases hact
  have hcall := (h.call n).mpr hn
  rw [← h.fields n hn] at hsource ⊢
  set na := (s.fields n).allocOwner
  have hsource : s.source n = some na ∧ s.allocOwner n = na := ⟨hsource, rfl⟩
  have hi' : Inv (s.deallocate na n) := hi.deallocate (by simp [hcall]) hsource
  have heq : s.deallocate na n =
      { s with source := update s.source n none, holder := update s.holder n none } :=
    if_pos hsource
  have hguar : Guar t s (s.deallocate na n) := by
    rw [heq]
    exact h.guar hi rfl rfl (fun _ _ => Iff.rfl) (untouched_of_ne (n := n)
      (fun m hm => ⟨by simp [hm], by simp [State.fields, hm]⟩)
      fun v hv => ⟨by simp [hcall, hv.symm], by simp⟩)
  refine ⟨s.deallocate na n, rfl, hi', hguar, hk _ hi' ?_⟩
  · rw [heq]
    refine ⟨h.active, fun m => ?_, fun m hm => ?_, h.empty⟩
    · by_cases hm : m = n
      · simp [hm]
      · simpa [hm] using h.call m
    · obtain ⟨hne, hm⟩ := Finset.mem_erase.mp hm
      rw [← h.fields m hm]
      simp [State.fields, hne]

/-! ### The code -/

/-- What `acquire(na)` leaves: it has a block of `na` and nothing else, or the allocator has thrown
and it has nothing. -/
def Acquired (t na : Nat) (r : Option Block) (s : State) : Prop :=
  (∃ n c, r = some n ∧ Own t {n} c (fun _ => False) s ∧ (c n).source = some na) ∨
    (r = none ∧ t ∈ s.threw ∧ ∃ c, Own t ∅ c (fun _ => False) s)

theorem stable_acquired (r : Option Block) : conserving.Stable t (Acquired t na r) := by
  refine .or (.exist fun n => .exist fun c => Discipline.Stable.const.and (stable_own.and .const))
    (Discipline.Stable.const.and (.and (fun u hu s s' _ _ hg h => ?_) (.exist fun c => stable_own)))
  exact (hg.threw t hu.symm).mpr h

theorem wp_acquire (hi : Inv s) (h : Own t ∅ c (fun _ => False) s) :
    conserving.WP t (acquire na) (fun r s => Acquired t na r s) s := by
  have hallocate : ∀ c s, Inv s → Own t ∅ c (fun _ => False) s →
      conserving.WP t (.act (.allocate na) .ret) (fun r s => Acquired t na r s) s := by
    intro c s hi h
    refine wp_allocate hi h (fun s hi h hthrew => ?_) fun n c s hi h hc => ?_
    · exact Discipline.WP.ret (stable_acquired none) hi (.inr ⟨rfl, hthrew, c, h⟩)
    · exact Discipline.WP.ret (stable_acquired (some n)) hi (.inl ⟨n, c, rfl, h, hc⟩)
  refine Discipline.WP.bind ((wp_myShard hi h).mono fun i s hi h => ?_)
  refine wp_popShard hi h.2 (fun s hi h => hallocate _ s hi h) fun n l o s hi h => ?_
  simp only [Prog.ret_bind, Prog.bind_eq, Prog.perform_bind, Prog.pure_eq]
  refine wp_loadOwner hi h (Finset.mem_singleton_self n) fun s hi h => ?_
  split
  · next ho =>
    exact Discipline.WP.ret (stable_acquired (some n)) hi (.inl ⟨n, _, rfl, h, congrArg some ho⟩)
  · refine wp_loadOwner hi h (Finset.mem_singleton_self n) fun s hi h => ?_
    refine wp_deallocate hi h (Finset.mem_singleton_self n) rfl fun s hi h => ?_
    exact hallocate _ s hi (by simpa using h)

theorem wp_freeChain {L : List Block} {head : Option Block} (hi : Inv s)
    (h : Own t L.toFinset c E s) (hL : Detached c head L) :
    conserving.WP t (freeChain head) (fun _ s => ∃ c, Own t ∅ c E s) s := by
  have hstable : conserving.Stable t fun s => ∃ c, Own t ∅ c E s := .exist fun c => stable_own
  refine Discipline.WP.loop (I := fun head s => ∃ L, Detached c head L ∧ Own t L.toFinset c E s)
    (fun head => .exist fun L => Discipline.Stable.const.and stable_own) hi ⟨L, hL, h⟩
    fun head s hi h => ?_
  obtain ⟨L, hL, h⟩ := h
  obtain ⟨hstack, hnodup, hsource⟩ := hL
  cases L with
  | nil =>
    obtain rfl := hstack
    exact Discipline.WP.ret (Discipline.WP.stable _ _) hi
      (Discipline.WP.ret hstable hi ⟨c, by simpa using h⟩)
  | cons n L =>
    obtain ⟨rfl, hrest⟩ := hstack
    obtain ⟨hn, hnodup⟩ := List.nodup_cons.mp hnodup
    have hmem : n ∈ (n :: L).toFinset := by simp
    refine wp_getLink hi h hmem fun s hi h => wp_loadOwner hi h hmem fun s hi h => ?_
    refine wp_deallocate hi h hmem (hsource n List.mem_cons_self) fun s hi h => ?_
    refine Discipline.WP.ret (.exist fun L => Discipline.Stable.const.and stable_own) hi ?_
    have herase : (n :: L).toFinset.erase n = L.toFinset := by
      rw [List.toFinset_cons, Finset.erase_insert]
      simpa using hn
    exact ⟨L, ⟨hrest, hnodup, fun m hm => hsource m (List.mem_cons_of_mem _ hm)⟩, herase ▸ h⟩

/-- `drain_shard(s)` leaves the shard empty, if nobody else is active. -/
theorem wp_drainShard (hi : Inv s) (h : Own t ∅ c E s) :
    conserving.WP t (drainShard i) (fun _ s => ∃ c, Own t ∅ c (fun j => E j ∨ j = i) s) s :=
  wp_takeShard hi h fun _ _ _ _ hi h hL => wp_freeChain hi h hL

/-- The call has no block. -/
def Done (t : Nat) (s : State) : Prop := ∃ c, Own t ∅ c (fun _ => False) s

theorem stable_done : conserving.Stable t (Done t) := .exist fun _ => stable_own

theorem Own.done (h : Own t ∅ c E s) : Done t s :=
  ⟨c, h.active, h.call, h.fields, fun _ _ h => h.elim⟩

/-- `release(n)` gives the block away. -/
theorem wp_release (hi : Inv s) (h : Own t {n} c (fun _ => False) s)
    (hsource : (c n).source = some (c n).allocOwner) :
    conserving.WP t (release n) (fun _ s => Done t s) s := by
  refine Discipline.WP.bind ((wp_myShard hi h).mono fun i s hi h => ?_)
  refine wp_pushShard h.1 id hi h.2 hsource fun r s hi h => ?_
  rw [Prog.ret_bind]
  cases r with
  | true =>
    refine (wp_drainShard hi h).mono fun _ _ _ h => ?_
    obtain ⟨c, h⟩ := h
    exact h.done
  | false => exact Discipline.WP.ret stable_done hi h.done

theorem stable_drained : conserving.Stable t fun s => s.alone = some t → ∀ i, s.head i = none := by
  intro u hu s s' _ _ hg h halone i
  obtain ⟨halone, hhead⟩ := hg.alone t hu.symm halone
  rw [hhead]
  exact h halone i

/-- `drain()` leaves every shard empty, if nobody else is active. -/
theorem wp_drain (hi : Inv s) (h : Own t ∅ c (fun _ => False) s) :
    conserving.WP t drain
      (fun _ s => Done t s ∧ (s.alone = some t → ∀ i, s.head i = none)) s := by
  have hstable : ∀ E, conserving.Stable t fun s => ∃ c, Own t ∅ c E s := fun E =>
    .exist fun c => stable_own
  refine Discipline.WP.loop (I := fun i s => ∃ c, Own t ∅ c (fun j => j < i) s)
    (fun i => hstable _) hi ⟨c, by simpa using h⟩ fun i s hi h => ?_
  obtain ⟨c, h⟩ := h
  simp only [Prog.bind_eq, Prog.pure_eq]
  split
  · refine Discipline.WP.bind ((wp_drainShard hi h).mono fun _ s hi h => ?_)
    refine Discipline.WP.ret (hstable _) hi ?_
    obtain ⟨c, h⟩ := h
    exact ⟨c, h.active, h.call, h.fields, fun halone j hj => h.empty halone j (by omega)⟩
  · next hlast =>
    refine Discipline.WP.ret (Discipline.WP.stable _ _) hi
      (Discipline.WP.ret (stable_done.and stable_drained) hi ⟨h.done, fun halone j => ?_⟩)
    by_cases hj : j < SHARDS
    · exact h.empty halone j (by omega)
    · exact hi.beyond j (by omega)

end Own

/-! ## Calls -/

section Calls

variable {s s' : State} {t : Nat} {n : Block}

/-- Between its calls a thread has nothing that is on its way. -/
def Idle (t : Nat) (s : State) : Prop := ∀ n, s.holder n ≠ some (.call t)

theorem stable_idle : conserving.Stable t (Idle t) :=
  fun _ hu _ _ _ _ hg h n hn => h n ((hg.holder hu n).mp hn)

/-- What holds when a call is about to return. -/
def Post (t : Nat) : Call → Option Block → State → Prop
  | .acquire a, r, s => Acquired t a r s
  | .drain, _, s => Done t s ∧ (s.alone = some t → ∀ i, s.head i = none)
  | _, _, s => Done t s

/-- The bookkeeping of a call that begins. -/
theorem guar_begin (hcall : ∀ n, Untouched t n s s') (hactive : s'.active = insert t s.active)
    (hthrew : s'.threw = s.threw.erase t)
    (halone : s'.alone = if s.active = ∅ then some t else none) : Guar t s s' := by
  refine ⟨hcall, fun v hv => by simp [hactive, hv], fun v hv => by simp [hthrew, hv],
    fun v hv h => ?_⟩
  rw [halone] at h
  split at h
  · exact absurd (Option.some.inj h).symm hv
  · cases h

/-- Whoever begins a call while nobody is active is the only one. -/
theorem alone_begin {act : Finset Nat} {u : Nat}
    (h : (if act = ∅ then some t else none) = some u) : insert t act = {u} := by
  split at h
  · next hempty =>
    obtain rfl := Option.some.inj h
    rw [hempty]
    rfl
  · cases h

/-- The call begins with nothing. -/
theorem own_begin (hidle : Idle t s) : Own t ∅ s.fields (fun _ => False) (s.begin t) :=
  ⟨Finset.mem_insert_self _ _, fun n => iff_of_false (hidle n) (Finset.notMem_empty n), by simp,
    fun _ _ h => h.elim⟩

theorem covers_invoke {c : Call} (hi : Inv s) (hidle : Idle t s) (h : invoke t c s = some s') :
    Guar t s s' ∧ conserving.WP t (code c) (Post t c) s' := by
  cases c with
  | acquire a =>
    cases h
    refine ⟨guar_begin (fun _ => .inl ⟨rfl, rfl⟩) rfl rfl rfl, ?_⟩
    refine wp_acquire ?_ (own_begin hidle)
    exact hi.keep rfl rfl rfl rfl rfl rfl rfl rfl hi.idx fun _ => alone_begin
  | drain =>
    cases h
    refine ⟨guar_begin (fun _ => .inl ⟨rfl, rfl⟩) rfl rfl rfl, ?_⟩
    refine Discipline.WP.bind ((wp_drain ?_ (own_begin hidle)).mono ?_)
    · exact hi.keep rfl rfl rfl rfl rfl rfl rfl rfl hi.idx fun _ => alone_begin
    · exact fun _ s hi h => Discipline.WP.ret (stable_done.and stable_drained) hi h
  | release n =>
    simp only [invoke] at h
    split at h
    · next hn =>
      cases h
      have hnh := hn.1
      -- the caller hands the block over to its call
      have hsource := hi.granted n t hnh
      refine ⟨guar_begin (untouched_of_ne (n := n) (fun m hm => ⟨by simp [State.begin, hm], rfl⟩)
        fun v hv => ⟨by simp [hnh], by simp [State.begin, hv.symm]⟩) rfl rfl rfl, ?_⟩
      refine Discipline.WP.bind ((wp_release (c := s.fields) ?_ ?_ ?_).mono ?_)
      · refine hi.outside (n := n) (hi.notMem_pooled (by simp [hnh])) rfl rfl (fun m hm => ?_) ?_
          rfl rfl fun _ => alone_begin
        · simp [State.begin, State.fields, hm]
        · simp [State.begin, hsource]
      · refine ⟨by simp [State.begin], fun m => ?_, by simp [State.begin, State.fields],
          fun _ _ h => h.elim⟩
        by_cases hm : m = n
        · simp [State.begin, hm]
        · simpa [State.begin, hm] using hidle m
      · simp [State.fields, hsource, hn.2]
      · exact fun _ s hi h => Discipline.WP.ret stable_done hi h
    · cases h
  | write n l o =>
    simp only [invoke] at h
    split at h
    · next hn =>
      cases h
      refine ⟨guar_begin (untouched_of_ne (n := n)
        (fun m hm => ⟨rfl, by simp [State.begin, State.fields, hm]⟩)
        fun v _ => ⟨by simp [hn], by simp [State.begin, hn]⟩) rfl rfl rfl, ?_⟩
      have hidle' : Idle t { s with
        link := update s.link n l, allocOwner := update s.allocOwner n o } := hidle
      refine Discipline.WP.ret stable_done ?_ (own_begin hidle').done
      refine hi.outside (n := n) (hi.notMem_pooled (by simp [hn])) rfl rfl (fun m hm => ?_) ?_
        rfl rfl fun _ => alone_begin
      · simp [State.begin, State.fields, hm]
      · simpa [State.begin, hn] using ⟨hi.held n _ hn, hi.granted n t hn⟩
    · cases h

theorem covers_respond {c : Call} {r : Option Block} (hi : Inv s) (h : Post t c r s) :
    Inv (respond t c r s) ∧ Guar t s (respond t c r s) ∧ Idle t (respond t c r s) := by
  have hfinish : Done t s → Inv { s with active := s.active.erase t, alone := none } ∧
      Guar t s { s with active := s.active.erase t, alone := none } ∧
      Idle t { s with active := s.active.erase t, alone := none } := by
    rintro ⟨c, h⟩
    refine ⟨hi.keep rfl rfl rfl rfl rfl rfl rfl rfl hi.idx fun _ h => (by cases h),
      ⟨fun _ => .inl ⟨rfl, rfl⟩, fun v hv => by simp [hv], fun _ _ => Iff.rfl,
        fun _ _ h => by cases h⟩, fun n hn => ?_⟩
    exact Finset.notMem_empty n ((h.call n).mp hn)
  cases c with
  | release n => exact hfinish h
  | drain => exact hfinish h.1
  | write n l o => exact hfinish h
  | acquire a =>
    rcases h with ⟨n, c, rfl, h, hc⟩ | ⟨rfl, -, h⟩
    · have hcall := (h.call n).mpr (by simp)
      rw [← h.fields n (by simp)] at hc
      refine ⟨?_, ⟨untouched_of_ne (n := n) (fun m hm => ⟨by simp [respond, hm], rfl⟩)
        fun v hv => ⟨by simp [hcall, hv.symm], by simp [respond]⟩, fun v hv => by simp [respond, hv],
        fun _ _ => Iff.rfl, fun _ _ h => by cases h⟩, fun m hm => ?_⟩
      · refine hi.outside (n := n) (hi.notMem_pooled (by simp [hcall])) rfl rfl (fun m hm => ?_) ?_
          rfl rfl fun _ h => (by cases h)
        · simp [respond, State.fields, hm]
        · have hsource : s.source n = some a := hc
          simp [respond, hsource]
      · by_cases hmn : m = n
        · simp [respond, hmn] at hm
        · simp only [respond, Function.update_of_ne hmn] at hm
          exact hmn (Finset.mem_singleton.mp ((h.call m).mp hm))
    · exact hfinish h

theorem conserving_covers : conserving.CoversIdle Idle Post where
  stable _ := stable_idle
  invoke _ _ _ _ hi hidle h := ⟨_, rfl, covers_invoke hi hidle h⟩
  respond _ _ _ _ hi h := ⟨_, rfl, covers_respond hi h⟩

end Calls

theorem Inv.init (address : Nat → Block) : Inv (State.init address) := by
  have hpooled : ∀ i, (State.init address).pooled i = [] := fun _ => rfl
  have hnone : ∀ n i, n ∉ (State.init address).pooled i := by simp [hpooled]
  refine ⟨fun i => ?_, fun i => ?_, fun i => ?_, fun n i _ hn => (hnone n i hn).elim,
    fun n i hn => (hnone n i hn).elim, ?_, ?_, ?_, rfl, ?_, fun _ _ => rfl, ?_⟩
  · rw [hpooled]
    rfl
  · rw [hpooled]
    rfl
  · rw [hpooled]
    exact List.nodup_nil
  all_goals simp [State.init]

open Label (whole)

/-- Thread 0 acquires a block from allocator 1 and releases it, thread 1 acquires another one. -/
def twoBlocks : List (Label Call) :=
  whole 0 (.acquire 1) 5 ++ whole 0 (.write 100 none 1) 0 ++ whole 0 (.release 100) 2 ++
    whole 1 (.acquire 1) 5

/-- Thread 0 wants a block of allocator 2 and finds the foreign one. -/
def foreign : List (Label Call) := .call 0 (.acquire 2) :: List.replicate 6 (.step 0 false)

/-- Thread 1 releases its block and thread 0 drains the pool. -/
def drained : List (Label Call) :=
  whole 1 (.write 101 none 1) 0 ++ whole 1 (.release 101) 2 ++
    .call 0 .drain :: List.replicate 393 (.step 0 false)

end MpmcMap.Reclaim.Pool
