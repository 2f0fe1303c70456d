import MpmcMap.Conc.RelyGuarantee
import Mathlib.Data.Nat.Init
import Mathlib.Logic.Function.Basic

/-!
# `operator[]`

`operator[]` searches for the key, inserts a node where the key is absent, and searches again where
the insertion was refused. The engine calls are atomic actions on a set of nodes by their keys, and
other threads insert and erase between them.
-/

namespace MpmcMap.Maps

open Conc
open Function (update)
open Prog (perform)

/-- The calls of the engine. -/
inductive SetOp (Addr Key : Type) : Type → Type where
  | findValuePtr (k : Key) : SetOp Addr Key (Option Addr)
  | insertNode (n : Addr) (k : Key) : SetOp Addr Key Bool
  | eraseNode (k : Key) : SetOp Addr Key Bool
  | destroyNode (n : Addr) : SetOp Addr Key Unit
  | maybeGrow : SetOp Addr Key Unit

/-- The container, and what has happened to the threads inside `operator[]`. -/
structure Nodes (Addr Key : Type) where
  /-- The node of each key. -/
  holder : Key → Option Addr
  /-- The key of the `operator[]` that a thread is in. -/
  asked : Nat → Option Key
  /-- The last insertion of a thread was refused, and it has not searched since. -/
  refused : Nat → Bool

/-- The calls of the threads; the node is the one that `alloc_node` gives. -/
inductive Access (Addr Key : Type) where
  | index (n : Addr) (k : Key)
  | emplace (n : Addr) (k : Key)
  | erase (k : Key)
  deriving DecidableEq

/-- What a call returns: `value p` is `p->second`, so `value none` uses a null pointer. -/
inductive Result (Addr : Type) where
  | value (p : Option Addr)
  | flag (b : Bool)
  deriving DecidableEq

section Code

variable {Addr Key : Type}

/-- `operator[]` of `map`. -/
def mapIndex (n : Addr) (k : Key) : Prog (SetOp Addr Key) (Option Addr) := do
  match ← perform (.findValuePtr k) with
  | some p => return some p
  | none =>
    if ← perform (.insertNode n k) then
      return some n
    perform (.destroyNode n)
    perform (.findValuePtr k)

/-- `operator[]` of `unordered_map`. -/
def unorderedMapIndex (n : Addr) (k : Key) : Prog (SetOp Addr Key) (Option Addr) := do
  match ← perform (.findValuePtr k) with
  | some p => return some p
  | none =>
    if ← perform (.insertNode n k) then
      perform .maybeGrow
      return some n
    perform (.destroyNode n)
    perform (.findValuePtr k)

/-- The containers that have `operator[]`. -/
inductive MapKind where
  | map
  | unorderedMap
  deriving DecidableEq

def MapKind.index : MapKind → Addr → Key → Prog (SetOp Addr Key) (Option Addr)
  | .map => mapIndex
  | .unorderedMap => unorderedMapIndex

/-- The code of a call. -/
def Access.code (M : MapKind) : Access Addr Key → Prog (SetOp Addr Key) (Result Addr)
  | .index n k => do return .value (← M.index n k)
  | .emplace n k => do
    if ← perform (.insertNode n k) then
      return .flag true
    perform (.destroyNode n)
    return .flag false
  | .erase k => do return .flag (← perform (.eraseNode k))

end Code

variable {Addr Key : Type} [DecidableEq Key]

/-- What the engine calls do as operations of a set. -/
def SetOp.apply {β : Type} (t : Nat) (o : SetOp Addr Key β) (s : Nodes Addr Key) :
    β × Nodes Addr Key :=
  match o with
  | .findValuePtr k => (s.holder k, { s with refused := update s.refused t false })
  | .insertNode n k =>
    match s.holder k with
    | none => (true, { s with holder := update s.holder k (some n) })
    | some _ => (false, { s with refused := update s.refused t true })
  | .eraseNode k => ((s.holder k).isSome, { s with holder := update s.holder k none })
  | .destroyNode _ | .maybeGrow => ((), s)

/-- The system of the threads. -/
def sharing (Addr Key : Type) [DecidableEq Key] (M : MapKind) :
    SharedObject (SetOp Addr Key) (Nodes Addr Key) (Access Addr Key) (Result Addr) where
  action t _ o s := some (o.apply t s)
  code := Access.code M
  invoke t c s := some { s with
    asked := update s.asked t (match c with
      | .index _ k => some k
      | _ => none)
    refused := update s.refused t false }
  respond t _ _ s := { s with asked := update s.asked t none }

/-- A container with these nodes, before any call. -/
def Nodes.start (holder : Key → Option Addr) : Nodes Addr Key := ⟨holder, fun _ => none, fun _ => false⟩

/-- A key is not erased between a refused insertion of an `operator[]` with it and the second
search. -/
def Spares {β : Type} (_ : Nat) (o : SetOp Addr Key β) (s : Nodes Addr Key) : Prop :=
  match o with
  | .eraseNode k => ∀ u, s.asked u = some k → s.refused u = false
  | _ => True

/-! ## The pointer is not null -/

section NotNull

/-- A thread whose insertion was refused still finds its key. -/
def Nodes.Kept (s : Nodes Addr Key) : Prop :=
  ∀ u k, s.asked u = some k → s.refused u = true → s.holder k ≠ none

/-- Threads do not touch what is recorded of other threads. -/
def sparing (M : MapKind) : Discipline (sharing Addr Key M) (Nodes Addr Key) where
  erase s := s
  inv := Nodes.Kept
  guar t s s' := ∀ u, u ≠ t → s'.asked u = s.asked u ∧ s'.refused u = s.refused u
  ok := Spares

/-- What is recorded of thread `t`. -/
def Nodes.Records (t : Nat) (o : Option Key) (b : Bool) (s : Nodes Addr Key) : Prop :=
  s.asked t = o ∧ s.refused t = b

variable {M : MapKind} {t : Nat} {k : Key} {n : Addr} {b : Bool} {o : Option Key}
  {s : Nodes Addr Key} {α : Type} {Q : α → Nodes Addr Key → Prop}

theorem stable_records :
    (sparing M).Stable t fun s : Nodes Addr Key => s.Records t o b := by
  intro u hu s s' _ _ hg hat
  obtain ⟨h1, h2⟩ := hg t (Ne.symm hu)
  exact ⟨h1.trans hat.1, h2.trans hat.2⟩

theorem guar_of_eq {s' : Nodes Addr Key} (h1 : s'.asked = s.asked)
    (h2 : ∀ u, u ≠ t → s'.refused u = s.refused u) : (sparing M).guar t s s' :=
  fun u hu => ⟨congrFun h1 u, h2 u hu⟩

/-- A search, the second one where an insertion was refused. -/
theorem wp_find {kont : Option Addr → Prog (SetOp Addr Key) α} (hi : s.Kept)
    (h : s.Records t (some k) b)
    (hk : ∀ s p, s.Kept → s.Records t (some k) false → (b = true → p ≠ none) →
      (sparing M).WP t (kont p) Q s) :
    (sparing M).WP t (.act (.findValuePtr k) kont) Q s := by
  apply Discipline.WP.act stable_records hi h
  rintro s c r s' hi ⟨hask, href⟩ - ⟨⟩
  have hi' : Nodes.Kept { s with refused := update s.refused t false } := by
    intro u k' hask' href'
    by_cases hu : u = t
    · subst hu
      simp at href'
    · exact hi u k' hask' ((Function.update_of_ne hu _ _).symm.trans href')
  refine ⟨_, rfl, hi', guar_of_eq rfl fun u hu => Function.update_of_ne hu _ _, ?_⟩
  apply hk _ _ hi' ⟨hask, Function.update_self _ _ _⟩
  rintro rfl
  exact hi t k hask href

/-- An insertion: of an `operator[]` with its key, or of another call. -/
theorem wp_insert {kont : Bool → Prog (SetOp Addr Key) α} (hi : s.Kept) (h : s.Records t o false)
    (ho : ∀ k', o = some k' → k' = k)
    (hk : ∀ s r, s.Kept → s.Records t o (!r) → (sparing M).WP t (kont r) Q s) :
    (sparing M).WP t (.act (.insertNode n k) kont) Q s := by
  apply Discipline.WP.act stable_records hi h
  rintro s c r s' hi ⟨hask, href⟩ - hact
  replace hact : ((SetOp.insertNode n k).apply t s) = (r, s') := Option.some.inj hact
  simp only [SetOp.apply] at hact
  cases hh : s.holder k with
  | none =>
    rw [hh] at hact
    obtain ⟨rfl, rfl⟩ := Prod.mk.inj hact
    have hi' : Nodes.Kept { s with holder := update s.holder k (some n) } := by
      intro u k' hask' href'
      by_cases hkk : k' = k
      · subst hkk
        simp
      · show update s.holder k (some n) k' ≠ none
        rw [Function.update_of_ne hkk]
        exact hi u k' hask' href'
    exact ⟨_, rfl, hi', guar_of_eq rfl fun _ _ => rfl, hk _ true hi' ⟨hask, href⟩⟩
  | some a =>
    rw [hh] at hact
    obtain ⟨rfl, rfl⟩ := Prod.mk.inj hact
    have hi' : Nodes.Kept { s with refused := update s.refused t true } := by
      intro u k' hask' href'
      by_cases hu : u = t
      · subst hu
        rw [ho k' (hask.symm.trans hask'), hh]
        simp
      · exact hi u k' hask' ((Function.update_of_ne hu _ _).symm.trans href')
    refine ⟨_, rfl, hi', guar_of_eq rfl fun u hu => Function.update_of_ne hu _ _, ?_⟩
    exact hk _ false hi' ⟨hask, Function.update_self _ _ _⟩

/-- `destroy_node` and `maybe_grow` change nothing. -/
theorem wp_still {e : SetOp Addr Key Unit} {kont : Unit → Prog (SetOp Addr Key) α}
    (he : ∀ s : Nodes Addr Key, e.apply t s = ((), s)) (hi : s.Kept) (h : s.Records t o b)
    (hk : ∀ s, s.Kept → s.Records t o b → (sparing M).WP t (kont ()) Q s) :
    (sparing M).WP t (.act e kont) Q s := by
  apply Discipline.WP.act stable_records hi h
  rintro s c r s' hi hrec - hact
  obtain ⟨rfl, rfl⟩ := Prod.mk.inj (Option.some.inj hact.symm |>.trans (he s))
  exact ⟨_, rfl, hi, guar_of_eq rfl fun _ _ => rfl, hk _ hi hrec⟩

/-- An erasure that spares the keys that are about to be searched for again. -/
theorem wp_erase {kont : Bool → Prog (SetOp Addr Key) α} (hi : s.Kept) (h : s.Records t o b)
    (hk : ∀ s r, s.Kept → s.Records t o b → (sparing M).WP t (kont r) Q s) :
    (sparing M).WP t (.act (.eraseNode k) kont) Q s := by
  apply Discipline.WP.act stable_records hi h
  rintro s c r s' hi hrec hok ⟨⟩
  have hi' : Nodes.Kept { s with holder := update s.holder k none } := by
    intro u k' hask' href'
    have hkk : k' ≠ k := by
      rintro rfl
      cases (hok u hask').symm.trans href'
    show update s.holder k none k' ≠ none
    rw [Function.update_of_ne hkk]
    exact hi u k' hask' href'
  exact ⟨_, rfl, hi', guar_of_eq rfl fun _ _ => rfl, hk _ _ hi' hrec⟩

/-- `operator[]` ends with a pointer that is not null. -/
theorem wp_index (hi : s.Kept) (h : s.Records t (some k) false) :
    (sparing M).WP t (M.index n k) (fun p s => p ≠ none ∧ Nodes.Records t (some k) false s) s := by
  have hret : ∀ (s : Nodes Addr Key) (p : Option Addr), s.Kept → s.Records t (some k) false → p ≠ none →
      (sparing M).WP t (.ret p) (fun p s => p ≠ none ∧ Nodes.Records t (some k) false s) s :=
    fun s p hi h hp => Discipline.WP.ret (.and .const stable_records) hi ⟨hp, h⟩
  -- a refused insertion: another thread's node is there, and the second search finds it
  have hrefused : ∀ s : Nodes Addr Key, s.Kept → s.Records t (some k) true → (sparing M).WP t
      (.act (.destroyNode n) fun _ => .act (.findValuePtr k) .ret)
      (fun p s => p ≠ none ∧ Nodes.Records t (some k) false s) s := by
    intro s hi h
    apply wp_still (fun _ => rfl) hi h
    intro s hi h
    apply wp_find hi h
    intro s p hi h hp
    exact hret s p hi h (hp rfl)
  cases M with
  | map =>
    apply wp_find hi h
    intro s p hi h _
    cases p with
    | some p => exact hret s _ hi h (by simp)
    | none =>
      apply wp_insert hi h fun k' hk' => (Option.some.inj hk').symm
      intro s r hi h
      cases r with
      | true => exact hret s _ hi h (by simp)
      | false => exact hrefused s hi h
  | unorderedMap =>
    apply wp_find hi h
    intro s p hi h _
    cases p with
    | some p => exact hret s _ hi h (by simp)
    | none =>
      apply wp_insert hi h fun k' hk' => (Option.some.inj hk').symm
      intro s r hi h
      cases r with
      | true => exact wp_still (fun _ => rfl) hi h fun s hi h => hret s _ hi h (by simp)
      | false => exact hrefused s hi h

/-- What a call has returned. -/
def Answered : Access Addr Key → Result Addr → Prop
  | .index _ _, .value p => p ≠ none
  | .index _ _, .flag _ => False
  | _, _ => True

theorem sparing_covers :
    (sparing M).Covers fun _ (c : Access Addr Key) r _ => Answered c r where
  invoke := by
    rintro t c s s' hi ⟨⟩
    -- nothing is refused yet, so the new record promises nothing
    have hi' : Nodes.Kept { s with
        asked := update s.asked t (match c with
          | .index _ k => some k
          | _ => none)
        refused := update s.refused t false } := by
      intro u k hask href
      by_cases hu : u = t
      · subst hu
        simp at href
      · exact hi u k ((Function.update_of_ne hu _ _).symm.trans hask)
          ((Function.update_of_ne hu _ _).symm.trans href)
    refine ⟨_, rfl, fun u hu => ⟨Function.update_of_ne hu _ _, Function.update_of_ne hu _ _⟩, ?_⟩
    cases c with
    | index n k =>
      apply Discipline.WP.bind
      apply (wp_index hi' ⟨Function.update_self _ _ _, Function.update_self _ _ _⟩).mono
      intro p s hi h
      exact Discipline.WP.ret .const hi h.1
    | emplace n k =>
      apply wp_insert hi' ⟨Function.update_self _ _ _, Function.update_self _ _ _⟩ (by simp)
      intro s r hi h
      cases r with
      | true => exact Discipline.WP.ret .const hi trivial
      | false =>
        apply wp_still (fun _ => rfl) hi h
        intro s hi _
        exact Discipline.WP.ret .const hi trivial
    | erase k =>
      apply wp_erase hi' ⟨Function.update_self _ _ _, Function.update_self _ _ _⟩
      intro s r hi _
      exact Discipline.WP.ret .const hi trivial
  respond := by
    intro t c r s hi _
    refine ⟨_, rfl, fun u k hask href => ?_, fun u hu => ⟨Function.update_of_ne hu _ _, rfl⟩⟩
    by_cases hu : u = t
    · subst hu
      have hnone : update s.asked u none u = some k := hask
      rw [Function.update_self] at hnone
      cases hnone
    · exact hi u k ((Function.update_of_ne hu _ _).symm.trans hask) href

end NotNull

/-! ## The node held the key -/

section Held

variable {M : MapKind} {t : Nat} {k : Key} {n a : Addr}
  {ok : {β : Type} → Nat → SetOp Addr Key β → Nodes Addr Key → Prop} {s₀ : Nodes Addr Key}

/-- What is left of an `operator[]` that has not met the node `a`. -/
inductive Avoiding (n : Addr) (k : Key) (a : Addr) : Prog (SetOp Addr Key) (Result Addr) → Prop
  | find {kont : Option Addr → Prog (SetOp Addr Key) (Result Addr)} :
      (∀ p, p ≠ some a → Avoiding n k a (kont p)) → Avoiding n k a (.act (.findValuePtr k) kont)
  | insert {kont : Bool → Prog (SetOp Addr Key) (Result Addr)} :
      (n ≠ a → Avoiding n k a (kont true)) → Avoiding n k a (kont false) →
      Avoiding n k a (.act (.insertNode n k) kont)
  | still {e : SetOp Addr Key Unit} {kont : Unit → Prog (SetOp Addr Key) (Result Addr)} :
      Avoiding n k a (kont ()) → Avoiding n k a (.act e kont)
  | done {p : Option Addr} : p ≠ some a → Avoiding n k a (.ret (.value p))

omit [DecidableEq Key] in
theorem avoiding_index : Avoiding n k a (Access.code M (.index n k)) := by
  have hagain : Avoiding n k a (.act (.destroyNode n) fun _ => .act (.findValuePtr k) fun p =>
      .ret (.value p)) := .still (.find fun _ hp => .done hp)
  cases M with
  | map =>
    apply Avoiding.find
    intro p hp
    cases p with
    | some p => exact .done hp
    | none => exact .insert (fun hn => .done (by simpa using hn)) hagain
  | unorderedMap =>
    apply Avoiding.find
    intro p hp
    cases p with
    | some p => exact .done hp
    | none => exact .insert (fun hn => .still (.done (by simpa using hn))) hagain

/-- A step between two states in which `a` does not hold the key. -/
theorem Avoiding.step {p q : Prog (SetOp Addr Key) (Result Addr)} {b : Bool} {s s' : Nodes Addr Key}
    (hp : Avoiding n k a p) (hs : s.holder k ≠ some a) (hs' : s'.holder k ≠ some a)
    (hstep : (sharing Addr Key M).stepProg t b p s = some (q, s')) : Avoiding n k a q := by
  cases hp with
  | done _ => cases hstep
  | find h =>
    cases hstep
    exact h _ hs
  | still h =>
    cases hstep
    exact h
  | insert h1 h2 =>
    cases hh : s.holder k with
    | some c =>
      simp only [SharedObject.stepProg, sharing, SetOp.apply, hh, Option.map_some,
        Option.some.injEq, Prod.mk.injEq] at hstep
      exact hstep.1 ▸ h2
    | none =>
      simp only [SharedObject.stepProg, sharing, SetOp.apply, hh, Option.map_some,
        Option.some.injEq, Prod.mk.injEq] at hstep
      obtain ⟨rfl, rfl⟩ := hstep
      -- the node inserted holds the key now
      apply h1
      rintro rfl
      exact hs' (Function.update_self _ _ _)

/-- An `operator[]` during which `a` does not hold the key has not met it. -/
theorem during_avoiding {c : Config (SetOp Addr Key) (Nodes Addr Key) (Access Addr Key) (Result Addr)}
    (hc : (sharing Addr Key M).During ok s₀ (fun s => s.holder k ≠ some a) t (.index n k) c) :
    c.shared.holder k ≠ some a ∧ ∃ p, c.thread t = some (.index n k, p) ∧ Avoiding n k a p := by
  induction hc with
  | @call c c' _ _ hnext hP =>
    refine ⟨hP, ?_⟩
    simp only [SharedObject.next] at hnext
    split at hnext
    · cases hnext
    · obtain ⟨s, -, rfl⟩ := Option.map_eq_some_iff.mp hnext
      exact ⟨_, SharedObject.setThread_same _ _ _, avoiding_index⟩
  | @step c c' l _ hne _ hnext hP ih =>
    obtain ⟨hs, p, hp, hav⟩ := ih
    refine ⟨hP, ?_⟩
    by_cases hlt : t = l.thread
    · subst hlt
      cases l with
      | call u o => simp [SharedObject.next, Label.thread] at hnext hp; simp [hp] at hnext
      | ret u => exact absurd rfl hne
      | step u b =>
        simp only [SharedObject.next, Label.thread] at hnext hp
        rw [hp] at hnext
        obtain ⟨⟨q, s'⟩, hstep, rfl⟩ := Option.map_eq_some_iff.mp hnext
        exact ⟨q, SharedObject.setThread_same _ _ _, hav.step hs hP hstep⟩
    · rw [(sharing Addr Key M).next_other hnext hlt]
      exact ⟨p, hp, hav⟩

end Held

/-- An `operator[]` from the node `n` that has returned `r` has not used a null pointer, and the node
whose value it returns has held the key at some moment of the call. -/
def Served (M : MapKind) (s₀ : Nodes Addr Key) (t : Nat) (n : Addr) (k : Key) (r : Result Addr)
    (c : Config (SetOp Addr Key) (Nodes Addr Key) (Access Addr Key) (Result Addr)) : Prop :=
  ∃ a, r = .value (some a) ∧ ¬ (sharing Addr Key M).During SharedObject.anyAction s₀
    (fun s => s.holder k ≠ some a) t (.index n k) c

/-- In runs that erase no key between a refused insertion of an `operator[]` with it and the second
search, every `operator[]` is served. -/
theorem index_served (M : MapKind) (holder : Key → Option Addr) (t : Nat) (n : Addr) (k : Key)
    (r : Result Addr)
    (c : Config (SetOp Addr Key) (Nodes Addr Key) (Access Addr Key) (Result Addr))
    (hc : (sharing Addr Key M).Reach Spares (.start holder) c)
    (hr : c.thread t = some (.index n k, .ret r)) : Served M (.start holder) t n k r c := by
  have h₀ : (Nodes.start holder : Nodes Addr Key).Kept := fun u k hask _ => by cases hask
  obtain ⟨s, hs⟩ := Discipline.reach_good sparing_covers h₀ hc
  have hans : Answered (.index n k) r := (hs.covered t _ _ hr).step.2.2
  cases r with
  | flag b => exact hans.elim
  | value p =>
    cases p with
    | none => exact absurd rfl hans
    | some a =>
      refine ⟨a, rfl, fun hduring => ?_⟩
      obtain ⟨-, p, hp, hav⟩ := during_avoiding hduring
      rw [hr] at hp
      cases hp
      cases hav with
      | done hne => exact hne rfl

/-! ## An erasure before the second search -/

/-- Thread 0 does not find key 5, thread 1 inserts it, thread 0 is refused. -/
def refusedOnce : List (Label (Access Nat Nat)) :=
  [.call 0 (.index 7 5), .step 0 false] ++ Label.whole 1 (.emplace 8 5) 1 ++ [.step 0 false]

/-- Thread 0 destroys its node and searches again. -/
def searchAgain : List (Label (Access Nat Nat)) := [.step 0 false, .step 0 false]

/-- What thread 0 has returned. -/
def returned (c : Config (SetOp Nat Nat) (Nodes Nat Nat) (Access Nat Nat) (Result Nat)) :
    Option (Result Nat) :=
  match c.thread 0 with
  | some (.index 7 5, .ret r) => some r
  | _ => none

theorem thread_of_returned {r : Result Nat}
    {c : Config (SetOp Nat Nat) (Nodes Nat Nat) (Access Nat Nat) (Result Nat)}
    (h : returned c = some r) : c.thread 0 = some (.index 7 5, .ret r) := by
  unfold returned at h
  split at h
  · next r' hthread =>
    rw [hthread, Option.some.inj h]
  · cases h

theorem erased_before_search (M : MapKind) : ¬ ∀ (holder : Nat → Option Nat) (t n k : Nat)
    (r : Result Nat) (c : Config (SetOp Nat Nat) (Nodes Nat Nat) (Access Nat Nat) (Result Nat)),
    (sharing Nat Nat M).Reachable (.start holder) c → c.thread t = some (.index n k, .ret r) →
      Served M (.start holder) t n k r c := by
  intro hall
  have hrun : ((sharing Nat Nat M).exec (SharedObject.start (.start fun _ => none))
      (refusedOnce ++ Label.whole 1 (.erase 5) 1 ++ searchAgain)).map returned =
        some (some (.value none)) := by
    cases M <;> decide
  obtain ⟨c, hc, hret⟩ := Option.map_eq_some_iff.mp hrun
  obtain ⟨a, ha, -⟩ := hall _ 0 7 5 _ c ((sharing Nat Nat M).reachable_exec _ hc)
    (thread_of_returned hret)
  cases ha

/-- In both containers the second search may find nothing, and its null pointer is used. -/
theorem null_pointer_used :
    (¬ ∀ (holder : Nat → Option Nat) (t n k : Nat) (r : Result Nat)
      (c : Config (SetOp Nat Nat) (Nodes Nat Nat) (Access Nat Nat) (Result Nat)),
      (sharing Nat Nat .map).Reachable (.start holder) c →
      c.thread t = some (.index n k, .ret r) → Served .map (.start holder) t n k r c) ∧
    ¬ ∀ (holder : Nat → Option Nat) (t n k : Nat) (r : Result Nat)
      (c : Config (SetOp Nat Nat) (Nodes Nat Nat) (Access Nat Nat) (Result Nat)),
      (sharing Nat Nat .unorderedMap).Reachable (.start holder) c →
      c.thread t = some (.index n k, .ret r) → Served .unorderedMap (.start holder) t n k r c :=
  ⟨erased_before_search .map, erased_before_search .unorderedMap⟩

/-- A test that is met where nothing is erased. -/
def sparesTest {β : Type} (_ : Nat) (o : SetOp Nat Nat β) (_ : Nodes Nat Nat) : Bool :=
  match o with
  | .eraseNode _ => false
  | _ => true

theorem sparesTest_sound {β : Type} (t : Nat) (o : SetOp Nat Nat β) (s : Nodes Nat Nat)
    (h : sparesTest t o s = true) : Spares t o s := by
  cases o with
  | eraseNode k => cases h
  | _ => trivial

/-- An insertion of `operator[]` that is refused; the search after it finds the key. -/
theorem index_served_run :
    ∃ c : Config (SetOp Nat Nat) (Nodes Nat Nat) (Access Nat Nat) (Result Nat),
      c.thread 0 = some (.index 7 5, .ret (.value (some 8))) ∧
      Served .map (.start fun _ => none) 0 7 5 (.value (some 8)) c := by
  have hrun : ((sharing Nat Nat .map).execIf sparesTest (SharedObject.start (.start fun _ => none))
      (refusedOnce ++ searchAgain)).map returned = some (some (.value (some 8))) := by decide
  obtain ⟨c, hc, hret⟩ := Option.map_eq_some_iff.mp hrun
  have hthread := thread_of_returned hret
  exact ⟨c, hthread, index_served .map _ 0 7 5 _ c
    ((sharing Nat Nat .map).reach_execIf sparesTest_sound _ .start hc) hthread⟩

end MpmcMap.Maps
