import MpmcMap.Unordered.Emplace
import MpmcMap.Unordered.Iterators
import Mathlib.Data.Finset.Lattice.Fold
import Mathlib.Order.Lattice.Nat

/-!
# Sequential refinement of the unordered engine

The operations of a container run one after another by one thread, against a finite map. Nothing is
assumed of the hash but that equal keys hash alike, and nothing of the moments at which the table is
doubled.
-/

namespace MpmcMap.Unordered

open Conc Maps
open Prog (perform iterate)

variable {Addr Key : Type} [DecidableEq Addr] {C : Config Key}

/-! ## The container and the map -/

/-- The container holds the elements of the map `m`, and nothing is going to throw. -/
structure Holds (C : Config Key) (w : World Addr Key) (N : List Addr) (m : FiniteMap C.eq) :
    Prop where
  stores : Stores C w.heap N
  entries : ((w.heap.regular N).map w.heap.key).Perm m.entries
  count : w.heap.count = m.size
  calm : w.choices.Calm
  allocates : w.heap.Allocates

section Holds

variable {w w' u v : World Addr Key} {N N' new : List Addr} {m : FiniteMap C.eq} {k : Key}
  {n : Addr} {mixed : Word}

omit [DecidableEq Addr] in
theorem Holds.distinct (h : Holds C w N m) :
    Distinct C.eq ((w.heap.regular N).map w.heap.key) :=
  List.pairwise_map.mpr h.stores.distinct

omit [DecidableEq Addr] in
/-- A search in the list is a search in the map. -/
theorem Holds.lookup (hC : C.Lawful) (h : Holds C w N m) (k : Key) :
    (w.heap.lookup C N k).map w.heap.key = m.find k := by
  have := hC.toKeyEquiv
  rw [FiniteMap.find, h.distinct.find_perm h.entries, List.find?_map]
  rfl

omit [DecidableEq Addr] in
/-- Dummies do not matter. -/
theorem Holds.prepares (h : Holds C w N m) (hp : Prepares C w w' N N' new mixed) :
    Holds C w' N' m where
  stores := hp.stores
  entries := by
    rw [hp.regular h.stores, hp.agrees.key]
    exact h.entries
  count := hp.agrees.count.trans h.count
  calm := h.calm.spends hp.choices
  allocates := by
    unfold Heap.Allocates
    rw [hp.agrees.pick]
    exact h.allocates

theorem Holds.not_starves {l : Nat} (h : Holds C w N m) (hs : Starves C w w' N l) : False :=
  h.calm.not_starved hs.starved

theorem Holds.not_exhausts (h : Holds C w N m) (he : Exhausts w w') : False := by
  have hn := h.calm.head (by decide : Choice.node ≠ .weak)
  have hb := h.calm.head (by decide : Choice.blank ≠ .weak)
  cases he with
  | node h => rw [h] at hn; cases hn
  | blank _ h => rw [h] at hb; cases hb

omit [DecidableEq Addr] in
theorem Holds.not_growthFails {force : Bool} (h : Holds C w N m) : ¬ w.GrowthFails force :=
  growth_calm h.calm

omit [DecidableEq Addr] in
/-- The elements are unchanged where keys and split-order keys of the list are. -/
theorem Holds.congr (h : Holds C w N m) (hs : Stores C w'.heap N)
    (hso : ∀ a ∈ N, w'.heap.soKey a = w.heap.soKey a) (hkey : ∀ a ∈ N, w'.heap.key a = w.heap.key a)
    (hcount : w'.heap.count = w.heap.count) (hpick : w'.heap.pick = w.heap.pick)
    (hcalm : w'.choices.Calm) : Holds C w' N m where
  stores := hs
  entries := by
    have hreg : w'.heap.regular N = w.heap.regular N := by
      apply List.filter_congr
      intro a ha
      rw [hso a ha]
    have hmap : (w.heap.regular N).map w'.heap.key = (w.heap.regular N).map w.heap.key :=
      List.map_congr_left fun a ha => hkey a (Heap.mem_regular.mp ha).1
    rw [hreg, hmap]
    exact h.entries
  count := hcount.trans h.count
  calm := hcalm
  allocates := by
    unfold Heap.Allocates
    rw [hpick]
    exact h.allocates

/-- A new node that is not linked yet. -/
theorem Holds.created (h : Holds C w N m) (k : Key) :
    Holds C ((w.created k).withSoKey w.heap.acquire.1 (C.soKey k)) N m := by
  obtain ⟨hn, hs⟩ := h.stores.created h.allocates k
  refine h.congr (hs.withSoKey hn _) (fun a ha => ?_) (fun a ha => ?_) rfl rfl
    (((h.calm.next _).next _).next _)
  · have hne := ne_of_mem_of_not_mem ha hn
    exact (Function.update_of_ne hne _ _).trans (Function.update_of_ne hne _ _)
  · exact Function.update_of_ne (ne_of_mem_of_not_mem ha hn) _ _

theorem Stores.destroyed (hs : Stores C w.heap N) (hn : n ∉ N) :
    Stores C (w.destroyed n).heap N :=
  hs.congr (fun _ _ => rfl) (fun _ _ => rfl) (fun _ _ _ => rfl)
    (fun a ha => Finset.mem_erase.mpr ⟨ne_of_mem_of_not_mem ha hn, hs.alive a ha⟩)
    ⟨rfl, rfl, rfl, rfl, rfl⟩

/-- A node that was never linked is given back. -/
theorem Holds.destroyed (h : Holds C w N m) (hn : n ∉ N) : Holds C (w.destroyed n) N m :=
  h.congr (h.stores.destroyed hn) (fun _ _ => rfl) (fun _ _ => rfl) rfl rfl h.calm

omit [DecidableEq Addr] in
theorem Holds.enlarges (h : Holds C w N m) (he : Enlarges w w') (hs : Stores C w'.heap N) :
    Holds C w' N m :=
  h.congr hs (fun a _ => by rw [he.soKey]) (fun a _ => by rw [he.key]) he.count he.pick
    (h.calm.after he.after)

omit [DecidableEq Addr] in
/-- What a linked and counted node changes. -/
theorem Inserts.regular_perm {A B : List Addr} {p : Addr} (hi : Inserts C u v N n A p B)
    (hr : isRegular (u.heap.soKey n) = true) :
    (v.heap.regular (A ++ p :: n :: B)).Perm (n :: u.heap.regular N) ∧ v.heap.key = u.heap.key ∧
      v.heap.soKey = u.heap.soKey ∧ v.heap.count = u.heap.count + 1 ∧ v.heap.pick = u.heap.pick ∧
      u.choices.Weaker v.choices := by
  obtain ⟨v, hl, rfl⟩ := hi.links
  have hheap := hl.heap
  refine ⟨?_, by rw [hheap], by rw [hheap], by rw [hheap], by rw [hheap], hl.choices⟩
  have hso : v.heap.soKey = u.heap.soKey := by rw [hheap]
  show (v.heap.regular (A ++ p :: n :: B)).Perm _
  rw [hl.cut.eq, Heap.regular, Heap.regular, hso]
  exact Heap.regular_perm hr

omit [DecidableEq Addr] in
/-- A new element. -/
theorem Holds.inserts {A B : List Addr} {p : Addr} (hC : C.Lawful) (h : Holds C u N m)
    (hi : Inserts C u v N n A p B) (hs : Stores C v.heap (A ++ p :: n :: B))
    (hr : isRegular (u.heap.soKey n) = true) (hkey : u.heap.key n = k)
    (hl : u.heap.lookup C N k = none) :
    (m.insert k).1 = true ∧ Holds C v (A ++ p :: n :: B) (m.insert k).2 := by
  have hfind : m.find k = none := by
    rw [← h.lookup hC, hl]
    rfl
  obtain ⟨h1, h2⟩ := FiniteMap.insert_absent hfind
  obtain ⟨hperm, hk, -, hcount, hpick, hweak⟩ := hi.regular_perm hr
  refine ⟨h1, hs, ?_, ?_, h.calm.weaker hweak, ?_⟩
  · rw [h2, hk]
    refine (hperm.map u.heap.key).trans ?_
    rw [List.map_cons, hkey]
    exact (h.entries.cons k).trans (List.perm_append_singleton k m.entries).symm
  · rw [hcount, h.count, FiniteMap.size, FiniteMap.size, h2]
    simp
  · unfold Heap.Allocates
    rw [hpick]
    exact h.allocates

/-- An insertion without exceptions is an insertion into the map. -/
theorem Holds.linkage {x : Option Bool} (hC : C.Lawful) (h : Holds C w N m) (k : Key)
    (hl : Linkage C (w.created k) N w.heap.acquire.1 k x w') :
    x = some (m.insert k).1 ∧ ∃ N', Holds C w' N' (m.insert k).2 := by
  obtain ⟨hn, hs⟩ := h.stores.created h.allocates k
  have hc := h.created k
  have halive : w.heap.acquire.1 ∈ (w.created k).heap.inUse := Finset.mem_insert_self _ _
  have hlook : ∀ k', (w.created k).heap.lookup C N k' = w.heap.lookup C N k' := lookup_created hn k
  cases hl with
  | starved hst => exact (hc.not_starves hst).elim
  | duplicate hp hsome =>
    have hfind : (m.find k).isSome = true := by
      rw [← h.lookup hC, Option.isSome_map, ← hlook]
      exact hsome
    rw [FiniteMap.insert_present hfind]
    exact ⟨rfl, _, (hc.prepares hp).destroyed (hp.not_mem hn halive)⟩
  | @inserted x u v w' A B N' new p hp hnone hi hne ha =>
    have hu := hc.prepares hp
    have hlu : u.heap.lookup C N' k = none := by
      rw [hp.lookup (hs.withSoKey hn _) k, lookup_withSoKey hn, hnone]
    have hso : u.heap.soKey w.heap.acquire.1 = C.soKey k :=
      (hp.soKey _ halive).trans (Function.update_self _ _ _)
    have hkey : u.heap.key w.heap.acquire.1 = k := by
      rw [hp.agrees.key]
      exact Function.update_self _ _ _
    have hsv := hi.stores hC hp.stores (hp.not_mem hn halive)
      ((hp.inUse _).mpr (.inr halive)) hso hkey hlu
    obtain ⟨h1, hv⟩ := hu.inserts hC hi hsv (by rw [hso]; exact isRegular_soKeyOf _) hkey hlu
    refine ⟨?_, _, hv.enlarges ha.toEnlarges ha.stores⟩
    rw [h1]
    match x, hne, ha with
    | none, _, ha => exact (hv.not_growthFails (ha.fails.mp rfl).2).elim
    | some false, hne, _ => exact absurd rfl hne
    | some true, _, _ => rfl

omit [DecidableEq Addr] in
/-- The key is in the map where its node is in the list. -/
theorem Holds.find_none (hC : C.Lawful) (h : Holds C w N m) (hl : w.heap.lookup C N k = none) :
    m.find k = none := by
  rw [← h.lookup hC, hl]
  rfl

/-- An erase without exceptions is an erase from the map. -/
theorem Holds.erases {x : Option Bool} (hC : C.Lawful) (h : Holds C w N m)
    (he : Erases C w N k x w') :
    x = some (m.erase k).1 ∧ ∃ N', Holds C w' N' (m.erase k).2 := by
  cases he with
  | starved hst => exact (h.not_starves hst).elim
  | absent hp hl =>
    rw [FiniteMap.erase_absent (h.find_none hC hl)]
    exact ⟨rfl, _, h.prepares hp⟩
  | @present x u w' A B new p t hp hl hne her =>
    have hu := h.prepares hp
    have hretire := hu.calm.head (by decide : Choice.retire ≠ .weak)
    obtain ⟨htN, htr, htk⟩ := lookup_some hl
    have halive := h.stores.alive t htN
    have htr' : isRegular (u.heap.soKey t) = true := by
      rw [hp.soKey t halive]
      exact htr
    have htk' : C.eq (u.heap.key t) k = true := by
      rw [hp.agrees.key]
      exact htk
    have hfind : (m.erase k).1 = true := by
      rw [FiniteMap.erase, ← h.lookup hC, hl]
      rfl
    rcases x with _ | _ | _
    · have := her.1
      rw [hretire] at this
      cases this
    · exact absurd rfl hne
    · obtain ⟨-, rfl⟩ := her
      refine ⟨by rw [hfind], A ++ p :: B, ?_⟩
      have hperm := (Heap.regular_perm (A := A) (B := B) (p := p) htr').map u.heap.key
      have hdist : Distinct C.eq (u.heap.key t :: (u.heap.regular (A ++ p :: B)).map u.heap.key) :=
        (hperm.pairwise_iff fun h => hC.toKeyEquiv.ne_symm h).mp hu.distinct
      have := hC.toKeyEquiv
      have hent := hdist.eraseP_perm (hperm.symm.trans hu.entries) htk'
      have hs := hu.stores.unlinked htr'
      refine ⟨?_, hent, ?_, hu.calm.next _, hu.allocates⟩
      · exact hs.congr (fun _ _ => rfl) (fun _ _ => rfl) (fun _ _ _ => rfl) hs.alive
          ⟨rfl, rfl, rfl, rfl, rfl⟩
      · show u.heap.count - 1 = _
        have hlen := hent.length_eq
        have hlen' := (hperm.symm.trans hu.entries).length_eq
        rw [hu.count, FiniteMap.size, FiniteMap.size, FiniteMap.erase, ← hlen, ← hlen']
        simp

omit [DecidableEq Addr] in
/-- A cleared container. -/
theorem Holds.clears (h : Holds C w N m) (hc : Clears C w w' N) :
    Holds C w' (w.heap.dummies N) .empty where
  stores := hc.stores
  entries := by
    have hnil : w'.heap.regular (w.heap.dummies N) = [] := by
      rw [hc.heap, Heap.regular, List.filter_eq_nil_iff]
      intro a ha
      have := (List.mem_filter.mp ha).2
      simpa using this
    rw [hnil]
    exact .refl _
  count := by
    rw [hc.heap]
    rfl
  calm := by
    rw [hc.choices]
    exact h.calm
  allocates := by
    unfold Heap.Allocates
    rw [hc.heap]
    exact h.allocates

end Holds

/-! ## Calls -/

/-- The calls of a container. An element is its payload, which has the key in it. -/
inductive Call (Key : Type) where
  | emplace (k : Key)
  /-- `operator[]`; `k` is the payload that it constructs if there is none. -/
  | subscript (k : Key)
  | erase (k : Key)
  | find (k : Key)
  | size
  | clear
  | grow (force : Bool)

/-- What a call returns. -/
inductive Reply (Key : Type) where
  | flag (b : Bool)
  | payload (v : Option Key)
  | count (n : Nat)
  | done
  deriving DecidableEq, Repr

namespace Call

/-- The code of a call. -/
def code (C : Config Key) : Call Key → Steps Addr Key (Option (Reply Key))
  | .emplace k => (Container.emplace C k).andThen fun b => .ret (some (.flag b))
  | .subscript k => (Container.subscript C k).andThen fun v => .ret (some (.payload v))
  | .erase k => ((eraseNode C k (C.mixedHash k) (C.soKey k)).attempt throwing).andThen fun b =>
      .ret (some (.flag b))
  | .find k => (Container.findValuePtr C k).andThen fun v => .ret (some (.payload v))
  | .size => (Unordered.size.attempt throwing).andThen fun n => .ret (some (.count n))
  | .clear => (clearImpl.attempt throwing).andThen fun _ => .ret (some .done)
  | .grow force => (Container.growOnce C force).andThen fun _ => .ret (some .done)

/-- The call on a finite map. `size` is a 64-bit number. -/
def onMap {eq : Key → Key → Bool} (m : FiniteMap eq) : Call Key → Reply Key × FiniteMap eq
  | .emplace k => (.flag (m.insert k).1, (m.insert k).2)
  | .subscript k => (.payload (some ((m.find k).getD k)), (m.insert k).2)
  | .erase k => (.flag (m.erase k).1, (m.erase k).2)
  | .find k => (.payload (m.find k), m)
  | .size => (.count (m.size % 2 ^ 64), m)
  | .clear => (.done, .empty)
  | .grow _ => (.done, m)

end Call

/-- The calls on a finite map. -/
def onMap {eq : Key → Key → Bool} (m : FiniteMap eq) :
    List (Call Key) → List (Reply Key) × FiniteMap eq
  | [] => ([], m)
  | q :: qs => ((q.onMap m).1 :: (onMap (q.onMap m).2 qs).1, (onMap (q.onMap m).2 qs).2)

/-- Run calls one after another, each for at most `fuel` steps. -/
def runCalls (C : Config Key) (fuel : Nat) :
    List (Call Key) → World Addr Key → Option (List (Option (Reply Key)) × World Addr Key)
  | [], w => some ([], w)
  | q :: qs, w => do
    let (r, w) ← (q.code C).run (fun o w => o.alone w) fuel w
    let (rs, w) ← runCalls C fuel qs w
    return (r :: rs, w)

section Calls

variable {w w' : World Addr Key} {N : List Addr} {m : FiniteMap C.eq} {k : Key}

/-- `operator[]` without exceptions. -/
theorem Holds.subscripts {x : Option (Option Key)} (hC : C.Lawful) (h : Holds C w N m)
    (hs : Subscripts C w N k x w') :
    x = some (some ((m.find k).getD k)) ∧ ∃ N', Holds C w' N' (m.insert k).2 := by
  cases hs with
  | starved hst => exact (h.not_starves hst).elim
  | @found u N' new a hp hl =>
    have hfind : m.find k = some (w.heap.key a) := by
      rw [← h.lookup hC, hl]
      rfl
    rw [FiniteMap.insert_present (by rw [hfind]; rfl), hfind]
    exact ⟨rfl, _, h.prepares hp⟩
  | exhausted hp _ he => exact ((h.prepares hp).not_exhausts he).elim
  | value hp _ _ _ hv =>
    have := (h.prepares hp).calm.head (by decide : Choice.value ≠ .weak)
    rw [this] at hv
    cases hv
  | linkage hp hl _ _ _ _ hlink =>
    obtain ⟨rfl, hw⟩ := (h.prepares hp).linkage hC k hlink
    rw [h.find_none hC hl]
    exact ⟨rfl, hw⟩

/-- Every call answers as the map does and leaves the container with the new map. -/
theorem code_ends (hC : C.Lawful) (h : Holds C w N m) (q : Call Key) :
    Ends (Solo.of Act.bounded) (fun x w' => x = some (q.onMap m).1 ∧ ∃ N', Holds C w' N' (q.onMap m).2)
      (q.code C) w := by
  cases q with
  | emplace k =>
    refine Ends.andThen (T := fun x w' => x = some (m.insert k).1 ∧ ∃ N', Holds C w' N' (m.insert k).2)
      (Ends.mono (emplace_ends hC h.allocates h.stores k) fun x w' he => ?_) ?_ (fun _ h => by cases h.1)
    · cases he with
      | exhausted he => exact (h.not_exhausts he).elim
      | value _ _ hv =>
        have := h.calm.head (by decide : Choice.value ≠ .weak)
        rw [this] at hv
        cases hv
      | linkage _ _ _ hl => exact h.linkage hC k hl
    · rintro b w' ⟨hb, hw⟩
      obtain rfl := Option.some.inj hb
      exact Ends.ret ⟨rfl, hw⟩
  | subscript k =>
    refine Ends.andThen (Ends.mono (subscript_ends hC h.allocates h.stores k)
      fun x w' hs => h.subscripts hC hs) ?_ (fun _ h => by cases h.1)
    rintro v w' ⟨hv, hw⟩
    obtain rfl := Option.some.inj hv
    exact Ends.ret ⟨rfl, hw⟩
  | erase k =>
    refine Ends.andThen (Ends.mono (eraseNode_finishes hC h.allocates h.stores k)
      fun x w' he => h.erases hC he) ?_ (fun _ h => by cases h.1)
    rintro b w' ⟨hb, hw⟩
    obtain rfl := Option.some.inj hb
    exact Ends.ret ⟨rfl, hw⟩
  | find k =>
    refine Ends.andThen (findValuePtr_ends hC h.allocates h.stores k) ?_
      (fun _ hs => (h.not_starves hs).elim)
    rintro v w' ⟨N', new, hp, rfl⟩
    rw [h.lookup hC]
    exact Ends.ret ⟨rfl, N', h.prepares hp⟩
  | size =>
    refine Until.perform rfl (Ends.ret ⟨?_, N, h⟩)
    show some (Reply.count (w.heap.count % 2 ^ 64).toNat) = _
    rw [h.count]
    rfl
  | clear =>
    refine Ends.andThen (clearImpl_finishes h.stores) ?_ (fun _ h => by cases h.1)
    rintro _ w' ⟨-, hc⟩
    exact Ends.ret ⟨rfl, _, h.clears hc⟩
  | grow force =>
    refine Ends.andThen (growOnce_ends force h.stores) ?_
      (fun _ hx => (h.not_growthFails (hx.fails.mp rfl)).elim)
    intro _ w' hr
    exact Ends.ret ⟨rfl, N, h.enlarges hr.toEnlarges hr.stores⟩

end Calls

/-! ## Runs -/

/-- The iteration from `first_node` by `next_node` to the end. -/
def traverse (C : Config Key) : Code Addr Key (List (NodeInfo Key)) := do
  let i ← firstNode C
  iterate (fun (s : Option (NodeInfo Key) × List (NodeInfo Key)) =>
    match s.1 with
    | none => return .inr s.2
    | some i => do
      let j ← nextNode C i.mixed i.sk i.key
      return .inl (j, s.2 ++ [i])) (i, [])

section Runs

variable {w w' : World Addr Key} {N : List Addr} {m : FiniteMap C.eq}

omit [DecidableEq Addr] in
/-- Iterators keep their meaning while dummies are created. -/
theorem Prepares.info {N' new : List Addr} {a : Addr} {mixed : Word}
    (hp : Prepares C w w' N N' new mixed) (hs : Stores C w.heap N) (ha : a ∈ w.heap.regular N) :
    w'.heap.info a = w.heap.info a := by
  rw [Heap.info, Heap.info, hp.soKey a (hs.alive a (Heap.mem_regular.mp ha).1), hp.agrees.key]

/-- An iteration visits the elements of the map, each of them once. -/
theorem traverse_finishes (hC : C.Lawful) (h : Holds C w N m) :
    Finishes (fun x w' => ∃ visited, x = some visited ∧
      (visited.map NodeInfo.key).Perm m.entries ∧ ∃ N', Holds C w' N' m) (traverse C) w := by
  refine (firstNode_reads h.stores).bind ?_
  refine Exits.iterate (I := fun i st u => ∃ N' R R', Holds C u N' m ∧
      u.heap.regular N' = R ++ R' ∧ st = (R'.head?.map u.heap.info, R.map u.heap.info) ∧
      i = R'.length) wellFounded_lt ⟨N, [], _, h, rfl, rfl, rfl⟩ ?_
  rintro i _ u ⟨N', R, R', hu, hreg, rfl, rfl⟩
  cases R' with
  | nil =>
    refine Exits.ret ⟨_, rfl, ?_, N', hu⟩
    rw [List.append_nil] at hreg
    have hent := hu.entries
    rw [hreg] at hent
    rw [List.map_map]
    exact hent
  | cons t R' =>
    have htN : t ∈ u.heap.regular N' := by simp [hreg]
    obtain ⟨htm, htr⟩ := Heap.mem_regular.mp htN
    have hkeyed := hu.stores.keyed t htm htr
    have hsuits : Suits (rebuiltHash (u.heap.soKey t)) (soKeyOf (C.mixedHash (u.heap.key t))) := by
      rw [← hkeyed]
      exact suits_rebuiltHash htr
    have hnext := nextNode_finishes hC hu.allocates hu.stores hsuits
    rw [← hkeyed, hu.stores.successor_eq hC hreg (hC.refl _)] at hnext
    refine Exits.bind hnext ?_ fun v hv => (hu.not_starves hv).elim
    rintro _ v ⟨N'', new, hp, rfl⟩
    have hinfo : ∀ a ∈ R ++ t :: R', u.heap.info a = v.heap.info a :=
      fun a ha => (hp.info hu.stores (hreg ▸ ha)).symm
    refine Exits.ret ⟨R'.length, by simp, N'', R ++ [t], R', hu.prepares hp, ?_, ?_, rfl⟩
    · rw [hp.regular hu.stores, hreg, List.append_cons]
    · have hhead : R'.head?.map u.heap.info = R'.head?.map v.heap.info :=
        Option.map_congr fun a ha => hinfo a (by simp [List.mem_of_mem_head? ha])
      have hvisited : (R ++ [t]).map u.heap.info = (R ++ [t]).map v.heap.info :=
        List.map_congr_left fun a ha => hinfo a (by
          rw [List.append_cons]
          exact List.mem_append_left _ ha)
      rw [← hhead, ← hvisited, List.map_append]
      rfl

/-- With enough fuel the calls return, answer as the map does and leave its elements. -/
theorem runCalls_spec (hC : C.Lawful) (qs : List (Call Key)) (h : Holds C w N m) :
    ∃ F, ∀ fuel, F ≤ fuel → ∃ w' N', runCalls C fuel qs w =
      some ((onMap m qs).1.map some, w') ∧ Holds C w' N' (onMap m qs).2 := by
  induction qs generalizing w N m with
  | nil => exact ⟨0, fun _ _ => ⟨w, N, rfl, h⟩⟩
  | cons q qs ih =>
    obtain ⟨n₁, x, w₁, hrun, rfl, N₁, h₁⟩ := Ends.runs Solo.of_executes (ends_unbounded (code_ends hC h q))
    obtain ⟨n₂, hrest⟩ := ih h₁
    refine ⟨max n₁ n₂, fun fuel hfuel => ?_⟩
    obtain ⟨w₂, N₂, hrun₂, h₂⟩ := hrest fuel (by omega)
    refine ⟨w₂, N₂, ?_, h₂⟩
    rw [runCalls, Prog.run_le (by omega : n₁ ≤ fuel) hrun]
    show (runCalls C fuel qs w₁).bind _ = _
    rw [hrun₂]
    rfl

end Runs

/-- The container after its construction: `head` is the dummy of its first bucket. -/
def World.new (key : Addr → Key) (head : Addr) (pick : Nat → Finset Addr → Addr)
    (threshold : Nat → Nat) (choices : Decisions) : World Addr Key where
  heap := .new key head pick threshold
  choices := choices
  log := [.construct head]

omit [DecidableEq Addr] in
theorem regular_new (key : Addr → Key) (head : Addr) (pick : Nat → Finset Addr → Addr)
    (threshold : Nat → Nat) : (Heap.new key head pick threshold).regular [head] = [] :=
  Heap.regular_cons_neg (by show isRegular 0 = false; decide)

omit [DecidableEq Addr] in
theorem stores_new (C : Config Key) (key : Addr → Key) (head : Addr)
    (pick : Nat → Finset Addr → Addr) (threshold : Nat → Nat) :
    Stores C (Heap.new key head pick threshold) [head] where
  linked := ⟨rfl, trivial⟩
  nodup := List.nodup_singleton head
  sorted := List.pairwise_singleton _ _
  alive := fun _ ha => Finset.mem_singleton.mpr (List.mem_singleton.mp ha)
  size := ⟨1, le_refl 1, by omega, rfl⟩
  made := Nat.zero_lt_one
  head := ⟨head, rfl, rfl⟩
  filled := by
    intro b d _ hd
    replace hd : (if 0 = 0 ∧ b = 0 then some head else none) = some d := hd
    split at hd
    · next hb =>
      obtain rfl := Option.some.inj hd
      rw [hb.2]
      exact ⟨List.mem_singleton_self _, (by decide : (0 : Word) = dummySplitOrderKey 0)⟩
    · cases hd
  keyed := by
    intro a _ hr
    replace hr : isRegular 0 = true := hr
    exact absurd hr (by decide)
  distinct := by
    rw [regular_new]
    exact List.Pairwise.nil
  idle := rfl

omit [DecidableEq Addr] in
theorem holds_new (C : Config Key) (key : Addr → Key) (head : Addr)
    {pick : Nat → Finset Addr → Addr} (hpick : ∀ n U, pick n U ∉ U) (threshold : Nat → Nat)
    {choices : Decisions} (hcalm : choices.Calm) :
    Holds C (World.new key head pick threshold choices) [head] .empty where
  stores := stores_new C key head pick threshold
  entries := by
    show ((Heap.new key head pick threshold).regular [head]).map key |>.Perm []
    rw [regular_new]
    exact .refl _
  count := rfl
  calm := hcalm
  allocates := hpick

/-- The engine refines the finite map: every result is the map's, and an iteration at the end visits
the elements of the map, each of them once. -/
theorem refines_finiteMap (C : Config Key) (hC : C.Lawful) (key : Addr → Key) (head : Addr)
    (pick : Nat → Finset Addr → Addr) (hpick : ∀ n U, pick n U ∉ U) (threshold : Nat → Nat)
    (choices : Decisions) (hcalm : choices.Calm) (qs : List (Call Key)) :
    ∃ F, ∀ fuel, F ≤ fuel → ∃ w, runCalls C fuel qs (World.new key head pick threshold choices) =
        some ((onMap (FiniteMap.empty : FiniteMap C.eq) qs).1.map some, w) ∧
      ∃ n visited w', ((traverse C).attempt throwing).run (fun o w => o.alone w) n w =
          some (some visited, w') ∧
        (visited.map NodeInfo.key).Perm (onMap (FiniteMap.empty : FiniteMap C.eq) qs).2.entries := by
  obtain ⟨F, hF⟩ := runCalls_spec hC qs (holds_new C key head hpick threshold hcalm)
  refine ⟨F, fun fuel hfuel => ?_⟩
  obtain ⟨w, N, hrun, h⟩ := hF fuel hfuel
  obtain ⟨n, x, w', htrav, visited, rfl, hperm, -⟩ :=
    Ends.runs Solo.of_executes (ends_unbounded (traverse_finishes hC h))
  exact ⟨w, hrun, n, visited, w', htrav, hperm⟩

/-- Numbers, all with the same hash. -/
def colliding : Config Nat where
  reval := false
  hash := fun _ => 0
  eq := fun a b => a == b

theorem colliding_lawful : colliding.Lawful where
  refl := fun a => beq_self_eq_true a
  symm := fun _ _ h => beq_iff_eq.mpr (beq_iff_eq.mp h).symm
  trans := fun _ _ _ h h' => beq_iff_eq.mpr ((beq_iff_eq.mp h).trans (beq_iff_eq.mp h'))
  hash := fun _ _ _ => rfl

/-- Keys are numbers that hash to themselves. -/
def spread : Config Nat := ⟨false, BitVec.ofNat 64, fun a b => a == b⟩

theorem spread_lawful : spread.Lawful :=
  ⟨colliding_lawful.toKeyEquiv, fun _ _ h => congrArg (BitVec.ofNat 64) (beq_iff_eq.mp h)⟩

/-- An allocator of numbers that never hands out a number in use. -/
def pickAbove (_ : Nat) (U : Finset Nat) : Nat := U.sup id + 1

theorem pickAbove_fresh (n : Nat) (U : Finset Nat) : pickAbove n U ∉ U := by
  intro h
  have := Finset.le_sup (f := id) h
  exact absurd this (Nat.not_succ_le_self _)

/-- Colliding keys and a spurious failure. -/
theorem refines_finiteMap_colliding :
    ∃ F, ∀ fuel, F ≤ fuel → ∃ w, runCalls colliding fuel
        [.emplace 1, .emplace 2, .emplace 1, .erase 1, .size, .find 2, .grow true]
        (World.new (fun _ => 0) 0 pickAbove (fun _ => 1) fun c => if c = .weak then [true] else []) =
        some ([.flag true, .flag true, .flag false, .flag true, .count 1, .payload (some 2),
          .done].map some, w) ∧
      ∃ n visited w', ((traverse colliding).attempt throwing).run (fun o w => o.alone w) n w =
          some (some visited, w') ∧ (visited.map NodeInfo.key).Perm [2] :=
  refines_finiteMap colliding colliding_lawful (fun _ => 0) 0 pickAbove pickAbove_fresh (fun _ => 1)
    (fun c => if c = .weak then [true] else []) (by
      intro c hc
      simp [hc])
    [.emplace 1, .emplace 2, .emplace 1, .erase 1, .size, .find 2, .grow true]

end MpmcMap.Unordered
