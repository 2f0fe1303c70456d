import MpmcMap.Maps.Passing
import MpmcMap.Unordered.Runs

/-!
# Mapped values of `unordered_map`

The elements of a map are pairs, of which the engine looks at the key. `try_emplace` forwards its
argument into a node that it builds before it looks for the key, and `insert_or_assign` forwards the
same argument once more where the key is there.
-/

namespace MpmcMap.Unordered

open Conc Maps
open Prog (perform iterate)

variable {Addr Key K V : Type}

/-! ## Runs in which elements are assigned to -/

section Reached

variable [DecidableEq Addr]

/-- A new payload for the node `a`. -/
def World.assign (w : World Addr Key) (a : Addr) (p : Key) : World Addr Key :=
  { w with heap := w.heap.setKey a p }

/-- The container with another world. -/
def Loaded.withWorld (s : Loaded Addr Key) (w : World Addr Key) : Loaded Addr Key :=
  { s with world := w }

/-- The states of all sequential runs. An element may be assigned a payload of the same key. -/
inductive Reached (C : Config Key) : Loaded Addr Key → Prop where
  | new {key : Addr → Key} {head : Addr} {pick : Nat → Finset Addr → Addr} {choices : Decisions}
      {f : LoadFactor} (hpick : ∀ n U, pick n U ∉ U) : Reached C (.new key head pick choices f)
  | job {s s' : Loaded Addr Key} {j : Job Key} {fuel : Nat} {r : Option (Reply Key)} :
      Reached C s → j.run C fuel s = some (r, s') → Reached C s'
  | assign {s : Loaded Addr Key} {N : List Addr} {a : Addr} {p : Key} : Reached C s →
      Stores C s.world.heap N → a ∈ s.world.heap.regular N → C.eq (s.world.heap.key a) p = true →
      Reached C (s.withWorld (s.world.assign a p))

variable {C : Config Key} {w : World Addr Key} {N : List Addr} {a : Addr} {p : Key}
  {s : Loaded Addr Key}

/-- A payload of the same key changes nothing for the engine. -/
theorem Stores.assign (hC : C.Lawful) (hs : Stores C w.heap N)
    (hp : C.eq (w.heap.key a) p = true) : Stores C (w.assign a p).heap N := by
  have hkey : ∀ b, C.eq (w.heap.key b) ((w.assign a p).heap.key b) = true := by
    intro b
    show C.eq _ (Function.update w.heap.key a p b) = true
    by_cases hb : b = a
    · rw [hb, Function.update_self]
      exact hp
    · rw [Function.update_of_ne hb]
      exact hC.refl _
  constructor
  · exact hs.linked
  · exact hs.nodup
  · exact hs.sorted
  · exact hs.alive
  · exact hs.size
  · exact hs.made
  · exact hs.head
  · exact hs.filled
  · intro b hb hr
    rw [Config.mixedHash, ← hC.hash _ _ (hkey b)]
    exact hs.keyed b hb hr
  · apply hs.distinct.imp
    intro b c hbc
    -- equal keys after the assignment are equal keys before it
    rw [Bool.eq_false_iff] at hbc ⊢
    intro h
    apply hbc
    have hb := hC.trans _ _ _ (hkey b) h
    exact hC.trans _ _ _ hb (hC.symm _ _ (hkey c))
  · exact hs.idle

theorem Between.assign (hC : C.Lawful) (h : Between C w N) (hp : C.eq (w.heap.key a) p = true) :
    Between C (w.assign a p) N :=
  h.sameTable (h.stores.assign hC hp) ⟨rfl, rfl, rfl, rfl, rfl, rfl⟩
    (Heap.keepsOrigin_eq fun _ _ => rfl)

theorem Reached.stored (hC : C.Lawful) (h : Reached C s) : Stored C s := by
  induction h with
  | new hpick => exact stored_new C _ _ hpick _ _
  | job _ hrun ih => exact ih.run hC hrun
  | assign _ hs _ hp ih =>
    obtain ⟨N', hN'⟩ := ih.between
    exact ⟨⟨N', hN'.assign hC hp⟩, ih.threshold⟩

end Reached

/-! ## Values -/

/-- The functions of a map, on its elements. -/
def Config.onKeys (C : Config K) (V : Type) : Config (K × V) where
  reval := C.reval
  hash p := C.hash p.1
  eq p q := C.eq p.1 q.1

theorem Config.Lawful.onKeys {C : Config K} (hC : C.Lawful) : (C.onKeys V).Lawful where
  refl p := hC.refl p.1
  symm p q := hC.symm p.1 q.1
  trans p q r := hC.trans p.1 q.1 r.1
  hash p q := hC.hash p.1 q.1

/-- The mapped value of a key in the list `N`. -/
def Heap.valueOf (C : Config K) (h : Heap Addr (K × V)) (N : List Addr) (k : K) : Option V :=
  ((h.regular N).find? fun a => C.eq (h.key a).1 k).map fun a => (h.key a).2

/-- The mapped value of a key. -/
def Heap.Value (C : Config K) (h : Heap Addr (K × V)) (k : K) (x : Option V) : Prop :=
  ∃ N, Stores (C.onKeys V) h N ∧ h.valueOf C N k = x

section Calls

variable [DecidableEq Addr] (C : Config K)

/-- `try_emplace(k, v)`; `none` is an exception. The node of the new element is built first. -/
def tryEmplace (k : K) (v : V) (p : Passing V) (w : World Addr (K × V)) (fuel : Nat) :
    Option (Option (Bool × V) × World Addr (K × V)) :=
  ((Container.emplace (C.onKeys V) (k, v)).run (fun o w => o.alone w) fuel w).map fun r =>
    (r.1.map fun inserted => (inserted, p.left v), r.2)

/-- `find_value_ptr(k)`: the node whose payload it is. -/
def findElement (k : K) (v : V) : Steps Addr (K × V) (Option (Option Addr)) :=
  (findNode (C.onKeys V) (k, v) (C.mixedHash k) (soKeyOf (C.mixedHash k))).attempt throwing

/-- `insert_or_assign(k, v)`. -/
def insertOrAssign (k : K) (v : V) (p : Passing V) (w : World Addr (K × V)) (fuel : Nat) :
    Option (Option (Bool × V) × World Addr (K × V)) := do
  let (r, w) ← tryEmplace C k v p w fuel
  match r with
  | some (false, v) => do
    let (a, w) ← (findElement C k v).run (fun o w => o.alone w) fuel w
    match a with
    | some (some a) =>
      -- `p->second = std::forward<M>(obj)`
      return (some (false, p.left v), w.assign a ((w.heap.key a).1, v))
    | some none => return (some (false, v), w)
    | none => return (none, w)
  | r => return (r, w)

end Calls

/-- `unordered_map` with these functions. -/
def unorderedMap (Addr V : Type) [DecidableEq Addr] (C : Config K) : MapModel K V where
  State := Loaded Addr (K × V)
  Reached := Reached (C.onKeys V)
  Calm s := s.world.choices.Calm
  Value s := s.world.heap.Value C
  tryEmplace k v p s fuel := (tryEmplace C k v p s.world fuel).map fun r => (r.1, s.withWorld r.2)
  insertOrAssign k v p s fuel :=
    (insertOrAssign C k v p s.world fuel).map fun r => (r.1, s.withWorld r.2)

/-! ## What the calls do -/

theorem Linked.unique {next : Addr → Link Addr} {N N' : List Addr} (h : Linked next N)
    (h' : Linked next N') (hhead : N.head? = N'.head?) : N = N' := by
  induction N generalizing N' with
  | nil =>
    cases N' with
    | nil => rfl
    | cons b N' => cases hhead
  | cons a N ih =>
    cases N' with
    | nil => cases hhead
    | cons b N' =>
      obtain rfl := Option.some.inj hhead
      have hnext : Link.plain N.head? = Link.plain N'.head? := h.1.symm.trans h'.1
      rw [ih h.2 h'.2 (congrArg Link.ptr hnext)]

/-- There is one list. -/
theorem Stores.unique {C : Config Key} {h : Heap Addr Key} {N N' : List Addr} (hs : Stores C h N)
    (hs' : Stores C h N') : N = N' := by
  obtain ⟨d, hd, hb⟩ := hs.head
  obtain ⟨d', hd', hb'⟩ := hs'.head
  apply hs.linked.unique hs'.linked
  rw [hd, hd', ← hb, hb']

section Laws

variable [DecidableEq Addr] {C : Config K} {w w' u v : World Addr (K × V)} {N : List Addr}
  {h : Heap Addr (K × V)} {k : K} {x y : Option V} {value : V} {p : Passing V}

omit [DecidableEq Addr] in
theorem Heap.Value.unique (hx : h.Value C k x) (hy : h.Value C k y) : x = y := by
  obtain ⟨N, hs, rfl⟩ := hx
  obtain ⟨N', hs', rfl⟩ := hy
  rw [hs.unique hs']

omit [DecidableEq Addr] in
theorem Heap.valueOf_eq (h : Heap Addr (K × V)) (N : List Addr) (k : K) (value : V) :
    h.valueOf C N k = (h.lookup (C.onKeys V) N (k, value)).map fun a => (h.key a).2 := rfl

/-- A node that is linked for a new element, or destroyed because the key is there. -/
structure Emplaced (C : Config K) (w w' : World Addr (K × V)) (N : List Addr) (k : K) (value : V)
    (inserted : Bool) : Prop where
  between : ∃ N', Between (C.onKeys V) w' N' ∧
    w'.heap.valueOf C N' k = some ((w.heap.valueOf C N k).getD value)
  inserted : inserted = true ↔ w.heap.valueOf C N k = none

omit [DecidableEq Addr] in
/-- The value of a key where the list and the keys in it are the same. -/
theorem Heap.valueOf_congr {h' : Heap Addr (K × V)} {N' : List Addr}
    (hl : h'.lookup (C.onKeys V) N' (k, value) = h.lookup (C.onKeys V) N (k, value))
    (hkey : ∀ a ∈ N, h'.key a = h.key a) : h'.valueOf C N' k = h.valueOf C N k := by
  rw [h'.valueOf_eq N' k value, hl, h.valueOf_eq N k value]
  apply Option.map_congr
  intro a ha
  rw [hkey a (lookup_some ha).1]

theorem Between.emplaced {inserted : Bool} (hC : C.Lawful) (h : Between (C.onKeys V) w N)
    (he : Emplaces (C.onKeys V) w N (k, value) (some inserted) w') :
    Emplaced C w w' N k value inserted := by
  have hC' := hC.onKeys (V := V)
  cases he with
  | linkage _ _ _ hl =>
    obtain ⟨hn, hc, -⟩ := h.created (k, value)
    have halive : w.heap.acquire.1 ∈ (w.created (k, value)).heap.inUse := Finset.mem_insert_self _ _
    have hs := hc.stores.withSoKey hn ((C.onKeys V).soKey (k, value))
    have hw := hc.withSoKey hn ((C.onKeys V).soKey (k, value))
    -- the new node is not in the list yet, so lookups are what they were
    have hlook : ∀ {u : World Addr (K × V)} {N' new : List Addr}, Prepares (C.onKeys V)
        ((w.created (k, value)).withSoKey w.heap.acquire.1 ((C.onKeys V).soKey (k, value))) u N N'
        new ((C.onKeys V).mixedHash (k, value)) →
        u.heap.lookup (C.onKeys V) N' (k, value) = w.heap.lookup (C.onKeys V) N (k, value) := by
      intro u N' new hp
      rw [hp.lookup hs, lookup_withSoKey hn, lookup_created hn]
    cases hl with
    | @duplicate u N' new hp hsome =>
      have hu := hw.grows hp.toGrows
      have hdestroyed := hu.stores.destroyed (hp.not_mem hn halive)
      have hvalue : u.heap.valueOf C N' k = w.heap.valueOf C N k := by
        apply Heap.valueOf_congr (hlook hp)
        intro a ha
        show u.heap.key a = w.heap.key a
        rw [hp.agrees.key]
        exact Function.update_of_ne (ne_of_mem_of_not_mem ha hn) _ _
      rw [lookup_created hn] at hsome
      obtain ⟨a, ha⟩ := Option.isSome_iff_exists.mp hsome
      have hold : w.heap.valueOf C N k = some (w.heap.key a).2 := by
        rw [w.heap.valueOf_eq N k value, ha]
        rfl
      have hbetween := hu.sameTable hdestroyed ⟨rfl, rfl, rfl, rfl, rfl, rfl⟩
        (Heap.keepsOrigin_eq fun _ _ => rfl)
      refine ⟨⟨N', hbetween, ?_⟩, ?_⟩
      · show u.heap.valueOf C N' k = _
        rw [hvalue, hold]
        rfl
      · simp [hold]
    | @inserted _ u v _ A B N' new p hp hnone hi hne ha =>
      obtain ⟨hv, -⟩ := hc.inserts hC' hn halive (Function.update_self _ _ _) hp hnone hi
      have hw' := hv.resizes ha.toResizes ha.stores
      rw [lookup_created hn] at hnone
      have hold : w.heap.valueOf C N k = none := by
        rw [w.heap.valueOf_eq N k value, hnone]
        rfl
      refine ⟨⟨_, hw', ?_⟩, ?_⟩
      · have hsou : u.heap.soKey w.heap.acquire.1 = (C.onKeys V).soKey (k, value) :=
          (hp.soKey _ halive).trans (Function.update_self _ _ _)
        obtain ⟨-, hkv, hsov, -⟩ := hi.regular_perm (by rw [hsou]; exact isRegular_soKeyOf _)
        have hkey : w'.heap.key w.heap.acquire.1 = (k, value) := by
          rw [ha.key, hkv, hp.agrees.key]
          exact Function.update_self _ _ _
        have hso : w'.heap.soKey w.heap.acquire.1 = (C.onKeys V).soKey (k, value) := by
          rw [ha.soKey, hsov, hsou]
        have hfound := ha.stores.lookup_eq (k := (k, value)) hC' (x := w.heap.acquire.1) (by simp)
          (by rw [hso]; exact isRegular_soKeyOf _) (by rw [hkey]; exact hC'.refl _)
        rw [w'.heap.valueOf_eq _ k value, hfound, Option.map_some, hkey, hold]
        rfl
      · cases inserted
        · exact absurd rfl hne
        · simp [hold]

/-- Where nothing is going to throw, an insertion returns. -/
theorem Linkage.calm {C : Config Key} {w w' : World Addr Key} {n : Addr} {q : Key}
    {r : Option Bool} (hcalm : w.choices.Calm) (hl : Linkage C w N n q r w') :
    r.isSome = true ∧ w'.choices.Calm := by
  cases hl with
  | starved hst => exact (hcalm.not_starved hst.starved).elim
  | duplicate hp _ => exact ⟨rfl, hcalm.spends hp.choices⟩
  | @inserted r u v _ A B N' new p hp _ hi _ ha =>
    obtain ⟨x, hl, rfl⟩ := hi.links
    have hv : x.choices.Calm := (hcalm.spends hp.choices).weaker hl.choices
    refine ⟨?_, hv.after ha.after⟩
    cases r with
    | none => exact (growth_calm (w := { x with heap := { x.heap with count := x.heap.count + 1 } }) hv
      (ha.fails.mp rfl).2).elim
    | some b => rfl

theorem Emplaces.calm {C : Config Key} {w w' : World Addr Key} {q : Key} {r : Option Bool}
    (hcalm : w.choices.Calm) (he : Emplaces C w N q r w') :
    r.isSome = true ∧ w'.choices.Calm := by
  cases he with
  | exhausted he => exact (hcalm.not_starved he.starved).elim
  | value _ _ hv =>
    rw [hcalm.head (by decide)] at hv
    cases hv
  | linkage _ _ _ hl => exact hl.calm (((hcalm.next _).next _).next _)

/-- `try_emplace` returns or throws; where it returns, it has linked a node for a new element. -/
theorem tryEmplace_returns (hC : C.Lawful) (h : Between (C.onKeys V) w N) (k : K) (value : V)
    (p : Passing V) :
    Returns (tryEmplace C k value p w) fun r =>
      (w.choices.Calm → r.1.isSome = true ∧ r.2.choices.Calm) ∧
      ∀ b left, r.1 = some (b, left) → left = p.left value ∧ Emplaced C w r.2 N k value b := by
  have hends := Ends.returns Solo.of_executes
    (ends_unbounded (emplace_ends hC.onKeys h.allocates h.stores (k, value)))
  apply hends.map
  rintro ⟨r, w'⟩ he
  cases r with
  | none =>
    refine ⟨fun hcalm => ?_, nofun⟩
    cases (he.calm hcalm).1
  | some b =>
    refine ⟨fun hcalm => ⟨rfl, (he.calm hcalm).2⟩, ?_⟩
    intro b' left hr
    obtain ⟨rfl, rfl⟩ := Prod.mk.inj (Option.some.inj hr)
    exact ⟨rfl, h.emplaced hC he⟩

/-- `find_value_ptr` finds the node of its key, or it throws. -/
theorem findElement_ends (hC : C.Lawful) (h : Between (C.onKeys V) w N) (k : K) (value : V) :
    Ends (Solo.of Act.alone) (fun x w' => x.elim
        (Starves (C.onKeys V) w w' N (w.heap.lack (C.mixedHash k))) fun r => ∃ N' new,
        Prepares (C.onKeys V) w w' N N' new (C.mixedHash k) ∧
          r = w.heap.lookup (C.onKeys V) N (k, value))
      (findElement C k value) w :=
  ends_unbounded (findNode_finishes hC.onKeys h.allocates h.stores (k, value))

/-- What `p->second = ...` leaves. -/
theorem Between.assigned {a : Addr} {q : V} (hC : C.Lawful) (h : Between (C.onKeys V) w N)
    (ha : w.heap.lookup (C.onKeys V) N (k, value) = some a) :
    Between (C.onKeys V) (w.assign a ((w.heap.key a).1, q)) N ∧
      (w.assign a ((w.heap.key a).1, q)).heap.valueOf C N k = some q := by
  have hfst : ∀ b, ((w.assign a ((w.heap.key a).1, q)).heap.key b).1 = (w.heap.key b).1 := by
    intro b
    show (Function.update w.heap.key a ((w.heap.key a).1, q) b).1 = _
    by_cases hb : b = a
    · rw [hb, Function.update_self]
    · rw [Function.update_of_ne hb]
  have hlook : (w.assign a ((w.heap.key a).1, q)).heap.lookup (C.onKeys V) N (k, value) =
      some a := by
    rw [← ha]
    apply List.find?_congr
    intro b _
    show C.eq (((w.assign a ((w.heap.key a).1, q)).heap.key b).1) k = _
    rw [hfst]
    rfl
  refine ⟨h.assign hC.onKeys (hC.refl _), ?_⟩
  rw [Heap.valueOf_eq _ N k value, hlook, Option.map_some]
  show some (Function.update w.heap.key a ((w.heap.key a).1, q) a).2 = _
  rw [Function.update_self]

/-- `insert_or_assign` returns or throws; where it returns, the value of a new element is the
argument and that of an old one is what was left of the argument. -/
theorem insertOrAssign_returns (hC : C.Lawful) (h : Between (C.onKeys V) w N) (k : K) (value : V)
    (p : Passing V) :
    Returns (insertOrAssign C k value p w) fun r => (w.choices.Calm → r.1.isSome = true) ∧
      (r.1.isSome = true → ∃ N', Between (C.onKeys V) r.2 N' ∧ r.2.heap.valueOf C N' k =
        some (if (w.heap.valueOf C N k).isSome then p.left value else value)) := by
  apply (tryEmplace_returns hC h k value p).bind
  rintro ⟨_ | ⟨inserted, left⟩, w₁⟩ ⟨hcalm, hdone⟩
  · exact Returns.pure ⟨fun hc => (hcalm hc).1, nofun⟩
  obtain ⟨rfl, he⟩ := hdone inserted left rfl
  obtain ⟨N₁, h₁, hvalue⟩ := he.between
  cases inserted with
  | true =>
    refine Returns.pure ⟨fun _ => rfl, fun _ => ⟨N₁, h₁, ?_⟩⟩
    rw [he.inserted.mp rfl] at hvalue ⊢
    exact hvalue
  | false =>
    obtain ⟨x, hx⟩ : ∃ x, w.heap.valueOf C N k = some x := by
      rw [← Option.ne_none_iff_exists']
      intro hnone
      cases he.inserted.mpr hnone
    rw [hx] at hvalue ⊢
    apply (Ends.returns Solo.of_executes (findElement_ends hC h₁ k (p.left value))).bind
    rintro ⟨r, w₂⟩ hr
    cases r with
    | none => exact Returns.pure ⟨fun hc => ((hcalm hc).2.not_starved hr.starved).elim, nofun⟩
    | some r =>
      obtain ⟨N₂, new, hp, rfl⟩ := hr
      have h₂ := h₁.grows hp.toGrows
      obtain ⟨a, ha, -⟩ := Option.map_eq_some_iff.mp
        ((w₁.heap.valueOf_eq N₁ k (p.left value)).symm.trans hvalue)
      rw [ha]
      have hlook : w₂.heap.lookup (C.onKeys V) N₂ (k, p.left value) = some a := by
        rw [hp.lookup h₁.stores, ha]
      obtain ⟨h₃, hassigned⟩ := h₂.assigned (q := p.left value) hC hlook
      exact Returns.pure ⟨fun _ => rfl, fun _ => ⟨N₂, h₃, hassigned⟩⟩

/-! ### Both calls in a run -/

/-- `try_emplace` is a job. -/
theorem Reached.tryEmplace {s : Loaded Addr (K × V)} {r : Option (Bool × V)} {fuel : Nat}
    (hs : Reached (C.onKeys V) s)
    (hrun : tryEmplace C k value p s.world fuel = some (r, w)) :
    Reached (C.onKeys V) (s.withWorld w) := by
  obtain ⟨⟨b, w'⟩, hemplace, heq⟩ := Option.map_eq_some_iff.mp hrun
  obtain ⟨-, rfl⟩ := Prod.mk.inj heq
  have hcode : ((Call.emplace (k, value)).code (C.onKeys V)).run (fun o w => o.alone w) (fuel + 1)
      s.world = some (b.map fun b => .flag b, w') := by
    apply Prog.run_bind_of hemplace
    cases b <;> rfl
  have hjob : (Job.call (.emplace (k, value))).run (C.onKeys V) (fuel + 1) s =
      some (b.map fun b => .flag b, s.withWorld w') := by
    rw [Job.run, Job.code, hcode]
    rfl
  exact hs.job hjob

omit [DecidableEq Addr] in
theorem Emplaced.value_eq {inserted : Bool} (he : Emplaced C w w' N k value inserted) :
    w'.heap.Value C k (some ((w.heap.valueOf C N k).getD value)) := by
  obtain ⟨N', h', hvalue⟩ := he.between
  exact ⟨N', h'.stores, hvalue⟩

theorem unorderedMap_forwards (hC : C.Lawful) : (unorderedMap Addr V C).Forwards where
  unique := Heap.Value.unique
  tryEmplace := by
    rintro s k x v p hs ⟨N, hN, rfl⟩
    obtain ⟨N', h⟩ := (hs.stored hC.onKeys).between
    obtain rfl := hN.unique h.stores
    apply (tryEmplace_returns hC h k v p).map
    rintro ⟨r, w'⟩ ⟨hcalm, hdone⟩
    refine ⟨fun hc => (hcalm hc).1, fun b v' hr => ?_⟩
    obtain ⟨hleft, he⟩ := hdone b v' hr
    exact ⟨hleft, he.value_eq⟩
  insertOrAssign := by
    rintro s k x v p hs ⟨N, hN, rfl⟩
    obtain ⟨N', h⟩ := (hs.stored hC.onKeys).between
    obtain rfl := hN.unique h.stores
    apply (insertOrAssign_returns hC h k v p).map
    rintro ⟨r, w'⟩ ⟨hcalm, hdone⟩
    refine ⟨hcalm, fun hr => ?_⟩
    obtain ⟨N', h', hvalue⟩ := hdone hr
    exact ⟨N', h'.stores, hvalue⟩

end Laws

end MpmcMap.Unordered
