import MpmcMap.Maps.Passing
import MpmcMap.Ordered.Sequential

/-!
# Mapped values of `map`

The elements of a map are pairs, of which the engine compares the keys. `try_emplace` forwards its
argument into a node that it builds before it looks for the key, and `insert_or_assign` forwards the
same argument once more where the key is there.
-/

namespace MpmcMap.Ordered

open Conc RedBlack Maps
open Prog (perform)

variable {Key K V : Type}

/-! ## Runs in which elements are assigned to -/

/-- `emplace` of the node `n`, whose payload has the key `k`. -/
def emplace {Addr : Type} [DecidableEq Addr] (cmp : Key → Key → Bool) (n : Addr) (k : Key) :
    Code Addr Key Bool := do
  if ← insertNode cmp n k then
    return true
  else
    perform (.freeNode n)
    return false

/-- A new payload for the node `a`. -/
def Heap.assign (h : Heap Ptr Key) (a : Ptr) (p : Key) : Heap Ptr Key :=
  { h with key := Function.update h.key a p }

/-- The node `n` is not linked. -/
def Heap.Unlinked (h : Heap Ptr Key) (n : Ptr) : Prop := ∀ t, h.Stores t → n ∉ t.addrs

/-- The states of all sequential runs. An insertion brings a node that is not linked, and an element
may be assigned a payload of the same key. -/
inductive Reached (cmp : Key → Key → Bool) : Heap Ptr Key → Prop where
  | new (key : Ptr → Key) : Reached cmp (.new key)
  | call {h h' : Heap Ptr Key} {q : Request Ptr Key} {fuel : Nat} {r : Answer Ptr Key} :
      Reached cmp h → (∀ n k, q = .insert n k → h.Unlinked n) →
      (q.code cmp).run (fun o h => o.perform h) fuel (q.prepare h) = some (r, h') → Reached cmp h'
  | emplace {h h' : Heap Ptr Key} {n : Ptr} {k : Key} {fuel : Nat} {r : Bool} :
      Reached cmp h → h.Unlinked n →
      (emplace cmp n k).run (fun o h => o.perform h) fuel (h.create n k) = some (r, h') →
      Reached cmp h'
  | assign {h : Heap Ptr Key} {t : PtrTree Ptr} {a : Ptr} {p : Key} : Reached cmp h →
      h.Stores t → a ∈ t.addrs → cmp p (h.key a) = false → cmp (h.key a) p = false →
      Reached cmp (h.assign a p)

section Reached

variable {cmp : Key → Key → Bool} {h h' : Heap Ptr Key} {t : PtrTree Ptr} {n a : Ptr} {k p : Key}
  {m : SortedMap cmp Ptr}

theorem Quiet.stores (hq : Quiet m h t) : h.Stores t := ⟨hq.rest.root, hq.rest.fits⟩

theorem Heap.Stores.unique {t' : PtrTree Ptr} (h1 : h.Stores t) (h2 : h.Stores t') : t = t' :=
  h1.2.unique h2.2 (h1.1.symm.trans h2.1)

theorem Quiet.outside (hq : Quiet m h t) (hn : ∀ e ∈ m.entries, e.2 ≠ n) : h.Unlinked n := by
  intro t' ht
  rw [ht.unique hq.stores]
  exact hq.fresh hn

variable [StrictWeakOrder cmp]

/-- How `emplace` leaves. -/
theorem emplace_seq (hq : Quiet m h t) (hn : h.Unlinked n) :
    Ends sequential (fun b h' => b = (m.insert k n).1 ∧ h'.key = (h.create n k).key ∧
        ∃ t', Quiet (m.insert k n).2 h' t')
      (emplace cmp n k) (h.create n k) := by
  have hnt : n ∉ t.addrs := hn t hq.stores
  refine Ends.bind (steady_sequential (insertNode_seq small_ptr (hq.create hnt) hnt ?_ ?_)) ?_
  · intro d
    show Function.update h.child n (fun _ => none) n d = none
    rw [Function.update_self]
  · exact Function.update_self _ _ _
  · rintro b h' ⟨rfl, hkeep, t', hq'⟩
    split
    · next hb => exact Ends.ret ⟨hb.symm, hkeep.key, t', hq'⟩
    · next hb =>
      refine .act rfl ?_
      rintro _ _ ⟨⟩
      have hR := hq'.rest
      exact Ends.ret ⟨(Bool.eq_false_iff.mpr hb).symm, hkeep.key, t',
        ⟨hR.root, hR.fits, hR.nodup, hR.unlocked, hR.sound⟩, hq'.dark, hq'.entries, hq'.count⟩

/-- A payload of the same key changes nothing for the engine. -/
theorem Quiet.assign (hq : Quiet m h t) (h1 : cmp p (h.key a) = false)
    (h2 : cmp (h.key a) p = false) : ∃ m' : SortedMap cmp Ptr, Quiet m' (h.assign a p) t := by
  have hequiv : ∀ b, cmp ((h.assign a p).key b) (h.key b) = false ∧
      cmp (h.key b) ((h.assign a p).key b) = false := by
    intro b
    show cmp (Function.update h.key a p b) _ = false ∧ cmp _ (Function.update h.key a p b) = false
    by_cases hb : b = a
    · rw [hb, Function.update_self]
      exact ⟨h1, h2⟩
    · rw [Function.update_of_ne hb]
      exact ⟨StrictWeakOrder.irrefl _, StrictWeakOrder.irrefl _⟩
  have hsorted : Sorted cmp (entriesOf (h.assign a p).key t) := by
    rw [Sorted, entriesOf, List.pairwise_map]
    apply hq.sorted.imp
    intro b c hbc
    have hb := StrictWeakOrder.lt_of_equiv_of_lt (hequiv b).1 (hequiv b).2 hbc
    exact StrictWeakOrder.lt_of_lt_of_equiv hb (hequiv c).2 (hequiv c).1
  have hR := hq.rest
  exact ⟨⟨_, hsorted⟩, ⟨hR.root, hR.fits, hR.nodup, hR.unlocked, hR.sound⟩, hq.dark, rfl, hq.count⟩

theorem Reached.quiet (hr : Reached cmp h) : ∃ (m : SortedMap cmp Ptr) (t : PtrTree Ptr),
    Quiet m h t := by
  induction hr with
  | new key => exact ⟨.empty, .nil, quiet_new cmp key⟩
  | @call h h' q fuel r _ hfresh hrun ih =>
    obtain ⟨m, t, hq⟩ := ih
    have hf : q.Fresh m := by
      cases q with
      | insert n k =>
        intro e he hen
        apply hfresh n k rfl t hq.stores
        rw [← hq.entries] at he
        obtain ⟨a, ha, rfl⟩ := List.mem_map.mp he
        exact hen ▸ ha
      | _ => trivial
    obtain ⟨-, t', hq'⟩ := Ends.of_run (Q := fun a h' => a = (q.onMap m).1 ∧
      ∃ t', Quiet (q.onMap m).2 h' t') sequential_executes (code_seq small_ptr hq hf) hrun
    exact ⟨_, t', hq'⟩
  | emplace _ hn hrun ih =>
    obtain ⟨m, t, hq⟩ := ih
    obtain ⟨-, -, t', hq'⟩ := Ends.of_run (Q := fun b h' => b = (m.insert _ _).1 ∧
      h'.key = (Heap.create _ _ _).key ∧ ∃ t', Quiet (m.insert _ _).2 h' t') sequential_executes
      (emplace_seq hq hn) hrun
    exact ⟨_, t', hq'⟩
  | assign _ _ _ h1 h2 ih =>
    obtain ⟨m, t, hq⟩ := ih
    obtain ⟨m', hq'⟩ := hq.assign h1 h2
    exact ⟨m', t, hq'⟩

/-- Calls lead from such a state to such a state. -/
theorem Reached.calls {qs : List (Request Ptr Key)} {fuel : Nat} {answers : List (Answer Ptr Key)}
    (hr : Reached cmp h) (hq : Quiet m h t) (hf : Fresh m qs)
    (hrun : runCalls cmp fuel qs h = some (answers, h')) : Reached cmp h' := by
  induction qs generalizing m h t answers with
  | nil =>
    obtain ⟨-, rfl⟩ := Prod.mk.inj (Option.some.inj hrun)
    exact hr
  | cons q qs ih =>
    obtain ⟨hfq, hfqs⟩ := hf
    obtain ⟨⟨a, h₁⟩, hcall, hrest⟩ := Option.bind_eq_some_iff.mp hrun
    obtain ⟨⟨as, h₂⟩, hcalls, hend⟩ := Option.bind_eq_some_iff.mp hrest
    obtain ⟨-, rfl⟩ := Prod.mk.inj (Option.some.inj hend)
    obtain ⟨-, t₁, hq₁⟩ := Ends.of_run (Q := fun a h' => a = (q.onMap m).1 ∧
      ∃ t', Quiet (q.onMap m).2 h' t') sequential_executes (code_seq small_ptr hq hfq) hcall
    refine ih (hr.call ?_ hcall) hq₁ hfqs hcalls
    rintro n k rfl
    exact hq.outside hfq

/-- What calls from the empty tree lead to. -/
theorem Reached.of_calls (cmp : Key → Key → Bool) [StrictWeakOrder cmp] (key : Ptr → Key)
    {qs : List (Request Ptr Key)} (hf : Fresh (SortedMap.empty : SortedMap cmp Ptr) qs) :
    ∃ (h : Heap Ptr Key) (t : PtrTree Ptr), Reached cmp h ∧ h.Stores t ∧
      entriesOf h.key t = (onMap (SortedMap.empty : SortedMap cmp Ptr) qs).2.entries := by
  have hq₀ := quiet_new cmp key
  obtain ⟨N, hN⟩ := runCalls_spec small_ptr _ hq₀ hf
  obtain ⟨h, t, hrun, hq⟩ := hN N le_rfl
  exact ⟨h, t, (Reached.new _).calls hq₀ hf hrun, hq.stores, hq.entries⟩

end Reached

/-! ## Values -/

/-- The comparison of a map, on its elements. -/
def onKeys (cmp : K → K → Bool) (V : Type) (p q : K × V) : Bool := cmp p.1 q.1

instance (cmp : K → K → Bool) [StrictWeakOrder cmp] : StrictWeakOrder (onKeys cmp V) where
  irrefl p := StrictWeakOrder.irrefl p.1
  trans p q r := StrictWeakOrder.trans p.1 q.1 r.1
  incomp_trans p q r := StrictWeakOrder.incomp_trans p.1 q.1 r.1

/-- The node of a key in the tree `t`. -/
def Heap.nodeOf (cmp : K → K → Bool) (h : Heap Ptr (K × V)) (t : PtrTree Ptr) (k : K) :
    Option Ptr :=
  t.addrs.find? fun a => !cmp (h.key a).1 k && !cmp k (h.key a).1

/-- The mapped value of a key in the tree `t`. -/
def Heap.valueOf (cmp : K → K → Bool) (h : Heap Ptr (K × V)) (t : PtrTree Ptr) (k : K) : Option V :=
  (h.nodeOf cmp t k).map fun a => (h.key a).2

/-- The mapped value of a key. -/
def Heap.Value (cmp : K → K → Bool) (h : Heap Ptr (K × V)) (k : K) (x : Option V) : Prop :=
  ∃ t, h.Stores t ∧ h.valueOf cmp t k = x

section Calls

variable (cmp : K → K → Bool)

/-- `try_emplace(k, v)` with the node `n`, which is built first. -/
def tryEmplace (n : Ptr) (k : K) (v : V) (p : Passing V) (h : Heap Ptr (K × V)) (fuel : Nat) :
    Option ((Bool × V) × Heap Ptr (K × V)) :=
  ((emplace (onKeys cmp V) n (k, v)).run (fun o h => o.perform h) fuel (h.create n (k, v))).map
    fun r => ((r.1, p.left v), r.2)

/-- `insert_or_assign(k, v)`. -/
def insertOrAssign (n : Ptr) (k : K) (v : V) (p : Passing V) (h : Heap Ptr (K × V)) (fuel : Nat) :
    Option ((Bool × V) × Heap Ptr (K × V)) := do
  let ((inserted, v), h) ← tryEmplace cmp n k v p h fuel
  if inserted then
    return ((true, v), h)
  else
    -- `find_value_ptr(k)`
    let (a, h) ← (findNode (onKeys cmp V) (k, v)).run (fun o h => o.perform h) fuel h
    match a with
    | some a =>
      -- `p->second = std::forward<M>(obj)`
      return ((false, p.left v), h.assign a ((h.key a).1, v))
    | none => return ((false, v), h)

end Calls

/-- `map` with these functions, where the allocator gives out the node `n`. -/
def map (V : Type) (cmp : K → K → Bool) (n : Ptr) : MapModel K V where
  State := Heap Ptr (K × V)
  Reached h := Reached (onKeys cmp V) h ∧ h.Unlinked n
  Calm _ := True
  Value h := h.Value cmp
  tryEmplace k v p h fuel := (tryEmplace cmp n k v p h fuel).map fun r => (some r.1, r.2)
  insertOrAssign k v p h fuel :=
    (insertOrAssign cmp n k v p h fuel).map fun r => (some r.1, r.2)

/-! ## What the calls do -/

section Laws

variable {cmp : K → K → Bool} {h h' : Heap Ptr (K × V)} {t : PtrTree Ptr} {n a : Ptr} {k : K}
  {value q : V} {p : Passing V} {x y : Option V} {m : SortedMap (onKeys cmp V) Ptr}

theorem Heap.Value.unique (hx : h.Value cmp k x) (hy : h.Value cmp k y) : x = y := by
  obtain ⟨t, ht, rfl⟩ := hx
  obtain ⟨t', ht', rfl⟩ := hy
  rw [ht.unique ht']

theorem lookup_entriesOf (h : Heap Ptr (K × V)) (t : PtrTree Ptr) (k : K) (value : V) :
    lookup (onKeys cmp V) (k, value) (entriesOf h.key t) =
      (h.nodeOf cmp t k).map fun a => (h.key a, a) := by
  rw [lookup, entriesOf, List.find?_map]
  rfl

theorem Quiet.lookup (hq : Quiet m h t) (k : K) (value : V) :
    lookup (onKeys cmp V) (k, value) m.entries = (h.nodeOf cmp t k).map fun a => (h.key a, a) := by
  rw [← hq.entries, lookup_entriesOf]

theorem Quiet.valueOf (hq : Quiet m h t) (k : K) (value : V) : h.valueOf cmp t k =
    (Maps.lookup (onKeys cmp V) (k, value) m.entries).map fun e => e.1.2 := by
  rw [hq.lookup, Option.map_map]
  rfl

/-- What `p->second = ...` leaves. -/
theorem valueOf_assign (hn : h.nodeOf cmp t k = some a) :
    (h.assign a ((h.key a).1, q)).valueOf cmp t k = some q := by
  have hfst : ∀ b, ((h.assign a ((h.key a).1, q)).key b).1 = (h.key b).1 := by
    intro b
    show (Function.update h.key a ((h.key a).1, q) b).1 = _
    by_cases hb : b = a
    · rw [hb, Function.update_self]
    · rw [Function.update_of_ne hb]
  have hnode : (h.assign a ((h.key a).1, q)).nodeOf cmp t k = some a := by
    rw [← hn]
    apply List.find?_congr
    intro b _
    rw [hfst]
  rw [Heap.valueOf, hnode, Option.map_some]
  show some (Function.update h.key a ((h.key a).1, q) a).2 = _
  rw [Function.update_self]

variable [StrictWeakOrder cmp]

/-- `try_emplace` inserts a new element with the argument, and leaves an old one. -/
theorem tryEmplace_returns (hq : Quiet m h t) (hn : h.Unlinked n) (k : K) (value : V)
    (p : Passing V) :
    Returns (tryEmplace cmp n k value p h) fun r => r.1.1 = (h.valueOf cmp t k).isNone ∧
      r.1.2 = p.left value ∧ ∃ m' t', Quiet (m' : SortedMap (onKeys cmp V) Ptr) r.2 t' ∧
        r.2.valueOf cmp t' k = some ((h.valueOf cmp t k).getD value) := by
  apply (Ends.returns sequential_executes (emplace_seq (k := (k, value)) hq hn)).map
  rintro ⟨b, h'⟩ ⟨rfl, hkey, t', hq'⟩
  obtain ⟨hins, hlook⟩ := m.lookup_insert (k, value) n
  refine ⟨?_, rfl, _, t', hq', ?_⟩
  · rw [hins, hq.valueOf k value]
    cases Maps.lookup (onKeys cmp V) (k, value) m.entries <;> rfl
  · rw [hq'.valueOf k value, hlook, hq.valueOf k value]
    cases Maps.lookup (onKeys cmp V) (k, value) m.entries <;> rfl

/-- `insert_or_assign` gives a new element the argument, and an old one what was left of it. -/
theorem insertOrAssign_returns (hq : Quiet m h t) (hn : h.Unlinked n) (k : K) (value : V)
    (p : Passing V) :
    Returns (insertOrAssign cmp n k value p h) fun r =>
      ∃ m' t', Quiet (m' : SortedMap (onKeys cmp V) Ptr) r.2 t' ∧ r.2.valueOf cmp t' k =
        some (if (h.valueOf cmp t k).isSome then p.left value else value) := by
  apply (tryEmplace_returns hq hn k value p).bind
  rintro ⟨⟨inserted, left⟩, h₁⟩ ⟨hins, rfl, m₁, t₁, hq₁, hvalue⟩
  replace hq₁ : Quiet m₁ h₁ t₁ := hq₁
  cases hx : h.valueOf cmp t k with
  | none =>
    rw [hx] at hins hvalue
    obtain rfl := hins
    exact Returns.pure ⟨m₁, t₁, hq₁, hvalue⟩
  | some x =>
    rw [hx] at hins hvalue
    obtain rfl := hins
    have hsorted : Sorted (onKeys cmp V) (entriesOf h₁.key t₁) := hq₁.entries ▸ m₁.sorted
    have hfind := Ends.returns sequential_executes (steady_sequential
      (findNode_spec (k := (k, p.left value)) hq₁.rest.unlocked hq₁.rest.root hq₁.rest.fits hsorted))
    apply hfind.bind
    rintro ⟨r, h₂⟩ ⟨hr, hsame⟩
    obtain rfl : h₂ = h₁ := hsame
    obtain ⟨a, ha, -⟩ := Option.map_eq_some_iff.mp hvalue
    obtain rfl : r = some a := by
      rw [show r = _ from hr, lookup_entriesOf, ha]
      rfl
    obtain ⟨m', hq'⟩ := hq₁.assign (a := a) (p := ((h₂.key a).1, p.left value))
      (StrictWeakOrder.irrefl _) (StrictWeakOrder.irrefl _)
    exact Returns.pure ⟨m', t₁, hq', valueOf_assign ha⟩

theorem map_forwards (n : Ptr) : (map V cmp n).Forwards where
  unique := Heap.Value.unique
  tryEmplace := by
    rintro h k x v p ⟨hr, hn⟩ ⟨t, ht, rfl⟩
    obtain ⟨m, t', hq⟩ := hr.quiet
    obtain rfl := ht.unique hq.stores
    apply (tryEmplace_returns hq hn k v p).map
    rintro ⟨⟨b, left⟩, h'⟩ ⟨-, rfl, m', t', hq', hvalue⟩
    refine ⟨fun _ => rfl, fun b' v' hb => ?_⟩
    obtain ⟨rfl, rfl⟩ := Prod.mk.inj (Option.some.inj hb)
    exact ⟨rfl, t', hq'.stores, hvalue⟩
  insertOrAssign := by
    rintro h k x v p ⟨hr, hn⟩ ⟨t, ht, rfl⟩
    obtain ⟨m, t', hq⟩ := hr.quiet
    obtain rfl := ht.unique hq.stores
    apply (insertOrAssign_returns hq hn k v p).map
    rintro ⟨r, h'⟩ ⟨m', t', hq', hvalue⟩
    exact ⟨fun _ => rfl, fun _ => ⟨t', hq'.stores, hvalue⟩⟩

end Laws

end MpmcMap.Ordered
