import MpmcMap.Unordered.Growth
import Mathlib.Data.List.Find

/-!
# Insertions in one thread

Every way in which `emplace` and `operator[]` leave: the exceptions, before and after the element is
linked, the duplicate and the insertion.
-/

namespace MpmcMap.Unordered

open Conc
open Prog (perform iterate)

variable {Addr Key : Type} [DecidableEq Addr] {C : Config Key}

section

variable {w w' u v : World Addr Key} {A B N N' new : List Addr} {n p : Addr} {k : Key}

/-- The key under which `insert_node` links its node. -/
abbrev Config.soKey (C : Config Key) (k : Key) : Word := soKeyOf (C.mixedHash k)

omit [DecidableEq Addr] in
/-- The list with the new element. -/
theorem Inserts.stores (hC : C.Lawful) (hs : Stores C u.heap N) (hi : Inserts C u v N n A p B)
    (hn : n ∉ N) (halive : n ∈ u.heap.inUse) (hso : u.heap.soKey n = C.soKey k)
    (hkey : u.heap.key n = k) (hl : u.heap.lookup C N k = none) :
    Stores C v.heap (A ++ p :: n :: B) := by
  obtain ⟨v, hl', rfl⟩ := hi.links
  have hs' : Stores C v.heap (A ++ p :: n :: B) := by
    rw [hl'.heap]
    refine hs.insert (fun _ _ => hC.toKeyEquiv.ne_symm) hl'.cut hn halive (fun _ => ⟨by rw [hso, hkey], fun a ha hr => ?_⟩) hl'.self
      hl'.prev hl'.other
    rw [hkey]
    exact lookup_none hl a ha hr
  exact hs'.congr (fun _ _ => rfl) (fun _ _ => rfl) (fun _ _ _ => rfl) hs'.alive
    ⟨rfl, rfl, rfl, rfl, rfl⟩

/-- `free_node_action(n)` of a node that is not linked. -/
def World.destroyed (w : World Addr Key) (n : Addr) : World Addr Key :=
  { w with heap := w.heap.release n, log := w.log ++ [.destroy n] }

/-- How an insertion leaves once its node has its payload. -/
inductive Linkage (C : Config Key) (w : World Addr Key) (N : List Addr) (n : Addr) (k : Key) :
    Option Bool → World Addr Key → Prop where
  /-- A dummy cannot be allocated. -/
  | starved {w' : World Addr Key} :
      Starves C (w.withSoKey n (C.soKey k)) w' N (w.heap.lack (C.mixedHash k)) →
      Linkage C w N n k none w'
  | duplicate {u : World Addr Key} {N' new : List Addr} :
      Prepares C (w.withSoKey n (C.soKey k)) u N N' new (C.mixedHash k) →
      (w.heap.lookup C N k).isSome = true → Linkage C w N n k (some false) (u.destroyed n)
  /-- The element is linked and counted, and the table may have to grow. -/
  | inserted {x : Option Bool} {u v w' : World Addr Key} {A B N' new : List Addr} {p : Addr} :
      Prepares C (w.withSoKey n (C.soKey k)) u N N' new (C.mixedHash k) →
      w.heap.lookup C N k = none → Inserts C u v N' n A p B → x ≠ some false →
      Adapts C v w' (A ++ p :: n :: B) (x.map fun _ => ()) → Linkage C w N n k x w'

omit [DecidableEq Addr] in
theorem Prepares.not_mem {w : World Addr Key} {mixed : Word} (hp : Prepares C w u N N' new mixed)
    (hn : n ∉ N) (halive : n ∈ w.heap.inUse) : n ∉ N' := by
  intro hmem
  rcases List.mem_append.mp (hp.perm.mem_iff.mp hmem) with hnew | hold
  · exact hp.fresh n hnew halive
  · exact hn hold

theorem link_ends (hC : C.Lawful) (hpick : w.heap.Allocates) (hs : Stores C w.heap N) (hn : n ∉ N)
    (halive : n ∈ w.heap.inUse) (hkey : w.heap.key n = k) :
    Ends (Solo.of Act.bounded) (Linkage C w N n k) (Container.link C n k) w := by
  refine Ends.andThen (insertNode_finishes hC hpick hs hn halive k) ?_ fun _ h => .starved h
  rintro r v ⟨N', new, u, hprep, ⟨hsome, rfl, rfl⟩ | ⟨hnone, rfl, A, p, B, hi⟩⟩
  · exact Until.perform (t := v.destroyed n) rfl (Ends.ret (.duplicate hprep hsome))
  · have hl : w.heap.lookup C N k = none := Option.not_isSome_iff_eq_none.mp (by simp [hnone])
    have hlu : u.heap.lookup C N' k = none := by
      rw [hprep.lookup (hs.withSoKey hn _) k, lookup_withSoKey hn, hl]
    have hsv := hi.stores hC hprep.stores (hprep.not_mem hn halive)
      ((hprep.inUse n).mpr (.inr halive)) ((hprep.soKey n halive).trans (Function.update_self _ _ _))
      (by rw [hprep.agrees.key]; exact hkey) hlu
    refine Ends.andThen (maybeGrow_ends hsv) ?_ ?_
    · intro _ w' ha
      exact Ends.ret (.inserted hprep hl hi (by simp) ha)
    · intro w' ha
      exact .inserted hprep hl hi nofun ha

/-- A node with the payload of key `k`. -/
def World.created (w : World Addr Key) (k : Key) : World Addr Key where
  heap := (w.heap.acquire.2.blank w.heap.acquire.1).setKey w.heap.acquire.1 k
  choices := ((w.choices.next .node).next .blank).next .value
  log := w.log ++ [.construct w.heap.acquire.1] ++ [.construct w.heap.acquire.1]

theorem Stores.created (hs : Stores C w.heap N) (hpick : w.heap.Allocates) (k : Key) :
    w.heap.acquire.1 ∉ N ∧ Stores C (w.created k).heap N := by
  have hfresh : w.heap.acquire.1 ∉ w.heap.inUse := hpick _ _
  have hn : w.heap.acquire.1 ∉ N := fun h => hfresh (hs.alive _ h)
  refine ⟨hn, hs.congr (fun a ha => ?_) (fun a ha => ?_) (fun a ha _ => ?_) (fun a ha => ?_)
    ⟨rfl, rfl, rfl, rfl, rfl⟩⟩
  · exact Function.update_of_ne (ne_of_mem_of_not_mem ha hn) _ _
  · exact Function.update_of_ne (ne_of_mem_of_not_mem ha hn) _ _
  · exact Function.update_of_ne (ne_of_mem_of_not_mem ha hn) _ _
  · exact Finset.mem_insert_of_mem (hs.alive a ha)

theorem lookup_created (hn : w.heap.acquire.1 ∉ N) (k k' : Key) :
    (w.created k).heap.lookup C N k' = w.heap.lookup C N k' := by
  have hreg : (w.created k).heap.regular N = w.heap.regular N := by
    apply List.filter_congr
    intro a ha
    show isRegular (Function.update w.heap.soKey w.heap.acquire.1 0 a) = _
    rw [Function.update_of_ne (ne_of_mem_of_not_mem ha hn)]
  rw [Heap.lookup, Heap.lookup, hreg]
  apply List.find?_congr
  intro a ha
  have hne := ne_of_mem_of_not_mem (Heap.mem_regular.mp ha).1 hn
  show C.eq (Function.update w.heap.key w.heap.acquire.1 k a) k' = _
  rw [Function.update_of_ne hne]

/-- A node with a default-constructed payload. -/
def World.blanked (w : World Addr Key) : World Addr Key where
  heap := w.heap.acquire.2.blank w.heap.acquire.1
  choices := (w.choices.next .node).next .blank
  log := w.log ++ [.construct w.heap.acquire.1]

/-! ## The public insertions -/

/-- How `emplace` leaves. -/
inductive Emplaces (C : Config Key) (w : World Addr Key) (N : List Addr) (k : Key) :
    Option Bool → World Addr Key → Prop where
  | exhausted {w' : World Addr Key} : Exhausts w w' → Emplaces C w N k none w'
  /-- The payload cannot be constructed: the handler destroys the node. -/
  | value : w.choices.head .node = false → w.choices.head .blank = false →
      w.choices.head .value = true → Emplaces C w N k none
        ({ w.blanked with choices := w.blanked.choices.next .value }.destroyed w.heap.acquire.1)
  | linkage {x : Option Bool} {w' : World Addr Key} : w.choices.head .node = false →
      w.choices.head .blank = false → w.choices.head .value = false →
      Linkage C (w.created k) N w.heap.acquire.1 k x w' → Emplaces C w N k x w'

theorem emplace_ends (hC : C.Lawful) (hpick : w.heap.Allocates) (hs : Stores C w.heap N)
    (k : Key) : Ends (Solo.of Act.bounded) (Emplaces C w N k) (Container.emplace C k) w := by
  obtain ⟨hn, hs'⟩ := hs.created hpick k
  refine Ends.andThen (T := fun x u => x.elim (Exhausts w u) fun n => n = w.heap.acquire.1 ∧
    u = w.blanked ∧ w.choices.head .node = false ∧ w.choices.head .blank = false)
    (allocNode_ends (fun h => .node h) (fun h1 h2 => .blank h1 h2)
      fun h1 h2 => ⟨rfl, rfl, h1, h2⟩) ?_ fun _ h => .exhausted h
  rintro _ _ ⟨rfl, rfl, hnode, hblank⟩
  have hhead : w.blanked.choices.head .value = w.choices.head .value := rfl
  cases hv : w.choices.head .value with
  | true =>
    refine Until.perform (congrArg some (if_pos (hhead.trans hv))) ?_
    exact Until.perform rfl (Ends.ret (.value hnode hblank hv))
  | false =>
    refine Until.perform (congrArg some (if_neg (by rw [hhead, hv]; decide))) ?_
    refine Ends.mono (link_ends (w := w.created k) hC hpick hs' hn (Finset.mem_insert_self _ _)
      (Function.update_self _ _ _)) fun x w' h => .linkage hnode hblank hv h

/-- How `operator[]` leaves. -/
inductive Subscripts (C : Config Key) (w : World Addr Key) (N : List Addr) (k : Key) :
    Option (Option Key) → World Addr Key → Prop where
  | starved {w' : World Addr Key} :
      Starves C w w' N (w.heap.lack (C.mixedHash k)) → Subscripts C w N k none w'
  | found {u : World Addr Key} {N' new : List Addr} {a : Addr} :
      Prepares C w u N N' new (C.mixedHash k) → w.heap.lookup C N k = some a →
      Subscripts C w N k (some (some (w.heap.key a))) u
  | exhausted {u w' : World Addr Key} {N' new : List Addr} :
      Prepares C w u N N' new (C.mixedHash k) → w.heap.lookup C N k = none → Exhausts u w' →
      Subscripts C w N k none w'
  /-- The payload cannot be constructed: there is no handler. -/
  | value {u : World Addr Key} {N' new : List Addr} :
      Prepares C w u N N' new (C.mixedHash k) → w.heap.lookup C N k = none →
      u.choices.head .node = false → u.choices.head .blank = false →
      u.choices.head .value = true →
      Subscripts C w N k none { u.blanked with choices := u.blanked.choices.next .value }
  | linkage {x : Option Bool} {u w' : World Addr Key} {N' new : List Addr} :
      Prepares C w u N N' new (C.mixedHash k) → w.heap.lookup C N k = none →
      u.choices.head .node = false → u.choices.head .blank = false →
      u.choices.head .value = false → x ≠ some false →
      Linkage C (u.created k) N' u.heap.acquire.1 k x w' →
      Subscripts C w N k (x.map fun _ => some k) w'

/-- `find_value_ptr`. -/
theorem findValuePtr_ends (hC : C.Lawful) (hpick : w.heap.Allocates) (hs : Stores C w.heap N)
    (k : Key) :
    Ends (Solo.of Act.bounded) (fun x u => x.elim (Starves C w u N (w.heap.lack (C.mixedHash k)))
      fun r => ∃ N' new, Prepares C w u N N' new (C.mixedHash k) ∧
        r = (w.heap.lookup C N k).map w.heap.key) (Container.findValuePtr C k) w := by
  refine Ends.andThen (findNode_finishes hC hpick hs k) ?_ fun _ h => h
  rintro r u ⟨N', new, hp, rfl⟩
  cases hl : w.heap.lookup C N k with
  | none => exact Ends.ret ⟨N', new, hp, rfl⟩
  | some a =>
    refine Until.perform rfl (Ends.ret ⟨N', new, hp, ?_⟩)
    rw [hp.agrees.key]
    rfl

theorem subscript_ends (hC : C.Lawful) (hpick : w.heap.Allocates) (hs : Stores C w.heap N)
    (k : Key) : Ends (Solo.of Act.bounded) (Subscripts C w N k) (Container.subscript C k) w := by
  refine Ends.andThen (findValuePtr_ends hC hpick hs k) ?_ fun _ h => .starved h
  rintro r u ⟨N', new, hp, rfl⟩
  cases hl : w.heap.lookup C N k with
  | some a => exact Ends.ret (.found hp hl)
  | none =>
    have hpick' : u.heap.Allocates := by
      unfold Heap.Allocates
      rw [hp.agrees.pick]
      exact hpick
    obtain ⟨hn, hs'⟩ := hp.stores.created hpick' k
    refine Ends.andThen (T := fun x v => x.elim (Exhausts u v) fun n => n = u.heap.acquire.1 ∧
      v = u.blanked ∧ u.choices.head .node = false ∧ u.choices.head .blank = false)
      (allocNode_ends (fun h => .node h) (fun h1 h2 => .blank h1 h2)
        fun h1 h2 => ⟨rfl, rfl, h1, h2⟩) ?_ fun _ h => .exhausted hp hl h
    rintro _ _ ⟨rfl, rfl, hnode, hblank⟩
    have hhead : u.blanked.choices.head .value = u.choices.head .value := rfl
    cases hv : u.choices.head .value with
    | true =>
      exact Until.perform (congrArg some (if_pos (hhead.trans hv)))
        (Ends.ret (.value hp hl hnode hblank hv))
    | false =>
      refine Until.perform (congrArg some (if_neg (by rw [hhead, hv]; decide))) ?_
      have hlc : (u.created k).heap.lookup C N' k = none := by
        rw [lookup_created hn, hp.lookup hs, hl]
      show Ends _ _ ((Container.link C u.heap.acquire.1 k).andThen _) (u.created k)
      refine Ends.andThen (link_ends (w := u.created k) hC hpick' hs' hn
        (Finset.mem_insert_self _ _) (Function.update_self _ _ _)) ?_ ?_
      rotate_left
      · exact fun w' h => .linkage (x := none) hp hl hnode hblank hv nofun h
      rintro x w' h
      cases x with
      | true => exact Ends.ret (.linkage (x := some true) hp hl hnode hblank hv (by simp) h)
      | false =>
        cases h with
        | duplicate _ hsome =>
          rw [hlc] at hsome
          cases hsome
        | inserted _ _ _ hne _ => exact absurd rfl hne

end

end MpmcMap.Unordered
