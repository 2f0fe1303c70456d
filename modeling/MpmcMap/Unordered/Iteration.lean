import MpmcMap.Maps.Cursor
import MpmcMap.Unordered.EraseAt

/-!
# Iteration of the unordered containers while they change

An increment looks for the key that the iterator is at. It finds what comes behind that key as long
as the key is there; if it has been erased, the iterator becomes an end iterator.
-/

namespace MpmcMap.Unordered

open Conc Maps
open Prog (perform iterate)

variable {Addr Key : Type}

/-! ## The code -/

section Code

variable [DecidableEq Addr] (C : Config Key)

/-- `begin()`; an end iterator has the key `blank`. -/
def beginIterator (blank : Key) : Code Addr Key (Iterator Key) := do
  match ← firstNode C with
  | some info => return ⟨false, info.key, info.mixed, info.sk⟩
  | none => return ⟨true, blank, 0, 0⟩

/-- Run code of the engine for at most `fuel` steps. -/
def Loaded.runCode {α : Type} (p : Code Addr Key α) (fuel : Nat) (s : Loaded Addr Key) :
    Option (Option α × Loaded Addr Key) :=
  ((p.attempt throwing).run (fun o w => o.alone w) fuel s.world).map fun r =>
    (r.1, s.withWorld r.2)

/-- The key that the iterator is at. -/
def Iterator.cursor (i : Iterator Key) : Option Key := if i.isEnd then none else some i.key

/-- The cursor of an iterator at an element is its key. -/
theorem Iterator.cursor_element {i : Iterator Key} (h : i.isEnd = false) :
    i.cursor = some i.key := if_neg (by simp [h])

theorem Iterator.cursor_end {i : Iterator Key} (h : i.isEnd = true) : i.cursor = none := if_pos h

end Code

/-! ## Keys -/

/-- The keys of the list in the order of iteration. -/
def Heap.keys (h : Heap Addr Key) (N : List Addr) : List Key := (h.regular N).map h.key

open Classical in
/-- The keys of the container in the order of iteration. -/
noncomputable def Loaded.keys (C : Config Key) (s : Loaded Addr Key) : List Key :=
  if h : ∃ N, Stores C s.world.heap N then s.world.heap.keys h.choose else []

/-- The keys of the container are those of the list. -/
theorem Stores.keys_eq {C : Config Key} {s : Loaded Addr Key} {N : List Addr}
    (hs : Stores C s.world.heap N) : s.keys C = s.world.heap.keys N := by
  have h : ∃ N, Stores C s.world.heap N := ⟨N, hs⟩
  unfold Loaded.keys
  rw [dif_pos h, h.choose_spec.unique hs]

/-- The keys of the list `N` are edited. -/
def Edits (C : Config Key) (w : World Addr Key) (N : List Addr) (w' : World Addr Key) : Prop :=
  ∃ N', Stores C w'.heap N' ∧ Edit C.eq (w.heap.keys N) (w'.heap.keys N')

section Edits

variable {C : Config Key} {w w' u v : World Addr Key} {h h' : Heap Addr Key}
  {A B N N' new : List Addr} {n p t : Addr} {k : Key} {m : Nat}

/-- Nodes with the keys that they had. -/
theorem Heap.keys_congr (hso : ∀ a ∈ N, h'.soKey a = h.soKey a)
    (hkey : ∀ a ∈ N, h'.key a = h.key a) : h'.keys N = h.keys N := by
  have hr : h'.regular N = h.regular N := by
    apply List.filter_congr
    intro a ha
    rw [hso a ha]
  unfold Heap.keys
  rw [hr]
  apply List.map_congr_left
  intro a ha
  exact hkey a (Heap.mem_regular.mp ha).1

theorem Heap.keys_cons (ht : isRegular (h.soKey t) = true) :
    h.keys (A ++ p :: t :: B) = h.keys (A ++ [p]) ++ h.key t :: h.keys B := by
  unfold Heap.keys
  rw [List.append_cons, Heap.regular_append, Heap.regular_cons_pos ht, List.map_append]
  rfl

theorem Heap.keys_append : h.keys (A ++ p :: B) = h.keys (A ++ [p]) ++ h.keys B := by
  unfold Heap.keys
  rw [List.append_cons, Heap.regular_append, List.map_append]

/-- No two keys of the container are equal. -/
theorem Stores.distinct_keys (hs : Stores C h N) : Distinct C.eq (h.keys N) :=
  List.pairwise_map.mpr hs.distinct

/-- A key is in the container if a lookup finds it. -/
theorem hasKey_keys : HasKey C.eq (h.keys N) k ↔ (h.lookup C N k).isSome = true := by
  unfold Heap.keys Heap.lookup
  rw [List.find?_isSome]
  simp [HasKey]

/-! ### Nothing happens to the elements -/

/-- The same keys are an edit. -/
theorem Stores.edits (hs : Stores C w'.heap N') (hk : w'.heap.keys N' = w.heap.keys N) :
    Edits C w N w' := by
  refine ⟨N', hs, ?_⟩
  rw [hk]
  exact .same

/-- What comes first has left the keys as they were. -/
theorem Edits.of_eq (he : Edits C u N' w') (hk : u.heap.keys N' = w.heap.keys N) :
    Edits C w N w' := by
  obtain ⟨N'', hs, he⟩ := he
  rw [hk] at he
  exact ⟨N'', hs, he⟩

variable [DecidableEq Addr]

omit [DecidableEq Addr] in
/-- A growth adds dummies only. -/
theorem Grows.keys (hs : Stores C w.heap N) (hg : Grows C w u N N' new) :
    u.heap.keys N' = w.heap.keys N := by
  unfold Heap.keys
  rw [hg.regular hs, hg.agrees.key]

omit [DecidableEq Addr] in
theorem Stores.grows_edits (hs : Stores C w.heap N) (hg : Grows C w u N N' new) :
    Edits C w N u :=
  hg.stores.edits (hg.keys hs)

/-- A call that runs out of memory in a growth edits nothing. -/
theorem Stores.exhausts (hs : Stores C w.heap N) (he : Exhausts w w') : Edits C w N w' := by
  cases he with
  | node _ => exact hs.edits rfl
  | blank _ _ =>
    have hs' : Stores C w.heap.acquire.2 N :=
      hs.congr (fun _ _ => rfl) (fun _ _ => rfl) (fun _ _ _ => rfl)
        (fun a ha => Finset.mem_insert_of_mem (hs.alive a ha)) ⟨rfl, rfl, rfl, rfl, rfl⟩
    exact hs'.edits rfl

/-- A call that runs out of memory in a walk edits nothing. -/
theorem Stores.starves (hs : Stores C w.heap N) (hst : Starves C w w' N m) : Edits C w N w' := by
  obtain ⟨u, N', new, hg, -, he⟩ := hst.grown
  exact (hg.stores.exhausts he).of_eq (hg.keys hs)

omit [DecidableEq Addr] in
theorem Enlarges.edits (he : Enlarges w w') (hs : Stores C w'.heap N) : Edits C w N w' :=
  hs.edits (Heap.keys_congr (fun _ _ => by rw [he.soKey]) fun _ _ => by rw [he.key])

/-! ### Insertions -/

omit [DecidableEq Addr] in
/-- A new element stands between others. -/
theorem Inserts.edits (hC : C.Lawful) (hi : Inserts C u v N n A p B) (hs : Stores C u.heap N)
    (hn : n ∉ N) (halive : n ∈ u.heap.inUse) (hso : u.heap.soKey n = C.soKey k)
    (hkey : u.heap.key n = k) (hl : u.heap.lookup C N k = none) :
    Stores C v.heap (A ++ p :: n :: B) ∧
      Edit C.eq (u.heap.keys N) (v.heap.keys (A ++ p :: n :: B)) := by
  refine ⟨hi.stores hC hs hn halive hso hkey hl, ?_⟩
  obtain ⟨v, hl', rfl⟩ := hi.links
  have hheap := hl'.heap
  have hkeys : ∀ L, v.heap.keys L = u.heap.keys L := fun L =>
    Heap.keys_congr (fun _ _ => by rw [hheap]) fun _ _ => by rw [hheap]
  show Edit _ _ (v.heap.keys _)
  rw [hkeys, Heap.keys_cons (by rw [hso]; exact isRegular_soKeyOf _), hkey]
  refine .insert ?_ fun hhas => ?_
  · rw [hl'.cut.eq]
    exact Heap.keys_append
  · rw [hasKey_keys, hl] at hhas
    cases hhas

theorem Stores.edits_destroyed (hs : Stores C w.heap N) (hn : n ∉ N) :
    Edits C w N (w.destroyed n) :=
  (hs.destroyed hn).edits rfl

/-- An insertion adds its key, or nothing. -/
theorem Linkage.edits {x : Option Bool} (hC : C.Lawful) (hs : Stores C w.heap N) (hn : n ∉ N)
    (halive : n ∈ w.heap.inUse) (hkey : w.heap.key n = k) (hl : Linkage C w N n k x w') :
    Edits C w N w' := by
  have hs' := hs.withSoKey hn (C.soKey k)
  have hkeys : (w.withSoKey n (C.soKey k)).heap.keys N = w.heap.keys N :=
    Heap.keys_congr (fun _ ha => Function.update_of_ne (ne_of_mem_of_not_mem ha hn) _ _)
      fun _ _ => rfl
  cases hl with
  | starved hst => exact (hs'.starves hst).of_eq hkeys
  | duplicate hp _ =>
    have hdest := hp.stores.edits_destroyed (hp.not_mem hn halive)
    exact (hdest.of_eq (hp.keys hs')).of_eq hkeys
  | @inserted x u v w' A B N' new p hp hnone hi _ ha =>
    have hlu : u.heap.lookup C N' k = none := by
      rw [hp.lookup hs' k, lookup_withSoKey hn, hnone]
    have hso : u.heap.soKey n = C.soKey k := (hp.soKey _ halive).trans (Function.update_self _ _ _)
    have hkey' : u.heap.key n = k := by
      rw [hp.agrees.key]
      exact hkey
    obtain ⟨-, he⟩ := hi.edits hC hp.stores (hp.not_mem hn halive) ((hp.inUse _).mpr (.inr halive))
      hso hkey' hlu
    -- the table grows, which changes no key
    have hkeys' : w'.heap.keys (A ++ p :: n :: B) = v.heap.keys (A ++ p :: n :: B) :=
      Heap.keys_congr (fun _ _ => by rw [ha.soKey]) fun _ _ => by rw [ha.key]
    have hends : Edits C u N' w' := ⟨_, ha.stores, hkeys' ▸ he⟩
    exact (hends.of_eq (hp.keys hs')).of_eq hkeys

theorem Stores.edits_created {x : Option Bool} (hC : C.Lawful) (hs : Stores C w.heap N)
    (hpick : w.heap.Allocates) (hl : Linkage C (w.created k) N w.heap.acquire.1 k x w') :
    Edits C w N w' := by
  obtain ⟨hn, hc⟩ := hs.created hpick k
  refine (hl.edits hC hc hn (Finset.mem_insert_self _ _) (Function.update_self _ _ _)).of_eq ?_
  exact Heap.keys_congr (fun _ ha => Function.update_of_ne (ne_of_mem_of_not_mem ha hn) _ _)
    fun _ ha => Function.update_of_ne (ne_of_mem_of_not_mem ha hn) _ _

/-- The payload of a new node cannot be constructed. -/
theorem Between.keys_blanked (h : Between C w N) : w.blanked.heap.keys N = w.heap.keys N :=
  Heap.keys_congr (fun _ ha => Function.update_of_ne (ne_of_mem_of_not_mem ha h.blanked.1) _ _)
    fun _ _ => rfl

/-- `emplace` adds one key at most. -/
theorem Between.edits_emplaces {x : Option Bool} (hC : C.Lawful) (h : Between C w N)
    (he : Emplaces C w N k x w') : Edits C w N w' := by
  cases he with
  | exhausted he => exact h.stores.exhausts he
  | value _ _ _ =>
    obtain ⟨hn, hs⟩ := h.blanked
    have hs' : Stores C { w.blanked with choices := w.blanked.choices.next .value }.heap N := hs
    exact (hs'.edits_destroyed hn).of_eq h.keys_blanked
  | linkage _ _ _ hl => exact h.stores.edits_created hC h.allocates hl

/-- `operator[]` adds one key at most. -/
theorem Between.edits_subscripts {x : Option (Option Key)} (hC : C.Lawful) (h : Between C w N)
    (hs : Subscripts C w N k x w') : Edits C w N w' := by
  cases hs with
  | starved hst => exact h.stores.starves hst
  | found hp _ => exact h.stores.grows_edits hp.toGrows
  | exhausted hp _ he => exact (hp.stores.exhausts he).of_eq (hp.keys h.stores)
  | @value u N' new hp _ _ _ _ =>
    have hu := h.grows hp.toGrows
    have hblank : Edits C u N' { u.blanked with choices := u.blanked.choices.next .value } :=
      Stores.edits hu.blanked.2 hu.keys_blanked
    exact hblank.of_eq (hp.keys h.stores)
  | linkage hp _ _ _ _ _ hl =>
    have hu := h.grows hp.toGrows
    exact (hu.stores.edits_created hC hu.allocates hl).of_eq (hp.keys h.stores)

/-! ### Erasures -/

/-- The node of an element is unlinked, whether `retire` throws or not. -/
theorem Erased.edits {b : Bool} (he : Erased w p t B b w')
    (hs : Stores C w.heap (A ++ p :: t :: B)) (ht : isRegular (w.heap.soKey t) = true) :
    Edits C w (A ++ p :: t :: B) w' := by
  have hs' := hs.unlinked ht
  have hedit : Edit C.eq (w.heap.keys (A ++ p :: t :: B)) (w.heap.keys (A ++ p :: B)) := by
    rw [Heap.keys_cons ht, Heap.keys_append (B := B)]
    exact .remove rfl
  unfold Erased at he
  split at he
  · obtain ⟨-, rfl⟩ := he
    exact ⟨_, hs'.congr (fun _ _ => rfl) (fun _ _ => rfl) (fun _ _ _ => rfl) hs'.alive
      ⟨rfl, rfl, rfl, rfl, rfl⟩, hedit⟩
  · obtain ⟨-, rfl⟩ := he
    exact ⟨_, hs', hedit⟩

/-- An erasure removes one key at most. -/
theorem Stores.edits_erases {x : Option Bool} (hs : Stores C w.heap N)
    (he : Erases C w N k x w') : Edits C w N w' := by
  cases he with
  | starved hst => exact hs.starves hst
  | absent hp _ => exact hs.grows_edits hp.toGrows
  | @present x u w' A B new p t hp hl _ her =>
    have ht : isRegular (u.heap.soKey t) = true := by
      rw [hp.soKey t (hs.alive t (lookup_some hl).1)]
      exact (lookup_some hl).2.1
    exact (her.edits hp.stores ht).of_eq (hp.keys hs)

omit [DecidableEq Addr] in
/-- `clear` removes all keys. -/
theorem Clears.edits (hc : Clears C w w' N) : Edits C w N w' := by
  refine ⟨_, hc.stores, ?_⟩
  have hnil : w'.heap.keys (w.heap.dummies N) = [] := by
    have hr : w'.heap.regular (w.heap.dummies N) = [] := by
      rw [hc.heap, Heap.regular, List.filter_eq_nil_iff]
      intro a ha
      simpa using (List.mem_filter.mp ha).2
    rw [Heap.keys, hr]
    rfl
  rw [hnil]
  exact .clear

end Edits

/-! ## What the calls do to the keys -/

section Calls

variable [DecidableEq Addr] {C : Config Key} {w w' u v : World Addr Key} {s s' : Loaded Addr Key}
  {N : List Addr} {a : Addr} {k : Key} {fuel : Nat} {j : Job Key} {r : Option (Reply Key)}
  {pos : Iterator Key}

/-- A call adds or removes keys, and keeps the order of the others. -/
theorem call_edits (hC : C.Lawful) (h : Between C w N) (q : Call Key) :
    Ends (Solo.of Act.bounded) (fun _ w' => Edits C w N w') (q.code C) w := by
  cases q with
  | emplace k =>
    refine Ends.andThen (emplace_ends hC h.allocates h.stores k) ?_
      (fun _ he => h.edits_emplaces hC he)
    intro b w' he
    exact Ends.ret (h.edits_emplaces hC he)
  | subscript k =>
    refine Ends.andThen (subscript_ends hC h.allocates h.stores k) ?_
      (fun _ hs => h.edits_subscripts hC hs)
    intro v w' hs
    exact Ends.ret (h.edits_subscripts hC hs)
  | erase k =>
    refine Ends.andThen (eraseNode_finishes hC h.allocates h.stores k) ?_
      (fun _ he => h.stores.edits_erases he)
    intro b w' he
    exact Ends.ret (h.stores.edits_erases he)
  | find k =>
    refine Ends.andThen (findValuePtr_ends hC h.allocates h.stores k) ?_
      (fun _ hst => h.stores.starves hst)
    rintro v w' ⟨N', new, hp, -⟩
    exact Ends.ret (h.stores.grows_edits hp.toGrows)
  | size => exact Until.perform rfl (Ends.ret (h.stores.edits rfl))
  | clear =>
    refine Ends.andThen (clearImpl_finishes h.stores) ?_ (fun _ hx => by cases hx.1)
    rintro _ w' ⟨-, hc⟩
    exact Ends.ret hc.edits
  | grow force =>
    refine Ends.andThen (growOnce_ends force h.stores) ?_
      (fun _ hr => hr.toEnlarges.edits hr.stores)
    intro _ w' hr
    exact Ends.ret (hr.toEnlarges.edits hr.stores)

theorem code_edits (hC : C.Lawful) {f : LoadFactor} (h : Between C w N)
    (hrun : (j.code C f).run (fun o w => o.alone w) fuel w = some (r, w')) : Edits C w N w' := by
  cases j with
  | call q =>
    exact Ends.of_run (Q := fun _ w' => Edits C w N w') Solo.of_executes
      (ends_unbounded (call_edits hC h q)) hrun
  | bucket mixed =>
    refine Ends.of_run (Q := fun _ w' => Edits C w N w') Solo.of_executes (ends_unbounded
      (Ends.andThen (createBucket_finishes hC h mixed) ?_ fun v hst => h.stores.starves hst)) hrun
    rintro _ v ⟨N', new, hg, -⟩
    exact Ends.ret (h.stores.grows_edits hg)
  | reserve n =>
    obtain ⟨m, x, v, l, hres, -, hrest⟩ := Prog.run_bind hrun
    obtain ⟨hkeys, hs, -⟩ := reserve_run (I := fun v => v.heap.keys N = w.heap.keys N)
      (fun v v' _ hv _ hr => (Heap.keys_congr (fun _ _ => by rw [hr.soKey])
        fun _ _ => by rw [hr.key]).trans hv) rfl h.stores hres
    have hend : w' = v := by
      cases x with
      | none => exact (Prod.mk.inj (Prog.run_ret hrest)).2
      | some x => exact (Prod.mk.inj (Prog.run_ret hrest)).2
    rw [hend]
    exact hs.edits hkeys
  | setMaxLoadFactor f =>
    obtain ⟨-, rfl⟩ := Prod.mk.inj (Prog.run_ret hrun)
    exact h.stores.edits rfl

omit [DecidableEq Addr] in
/-- The keys that `Edits` speaks of are those of the container. -/
theorem Edits.keys (hs : Stores C s.world.heap N) (he : Edits C s.world N s'.world) :
    Edit C.eq (s.keys C) (s'.keys C) := by
  obtain ⟨N', hs', hedit⟩ := he
  rw [hs.keys_eq, hs'.keys_eq]
  exact hedit

/-- A job edits the keys and leaves a container that is between two calls. -/
theorem Job.edits (hC : C.Lawful) (h : Between C s.world N)
    (hrun : j.run C fuel s = some (r, s')) :
    Edit C.eq (s.keys C) (s'.keys C) ∧ ∃ N', Between C s'.world N' := by
  obtain ⟨⟨r', w⟩, hcode, heq⟩ := Option.map_eq_some_iff.mp hrun
  obtain ⟨rfl, rfl⟩ := Prod.mk.inj heq
  have he := code_edits hC h hcode
  obtain ⟨N', hN'⟩ := (code_moves hC h hcode).between
  cases j with
  | setMaxLoadFactor f =>
    have hN : Between C (s.setMaxLoadFactor f).world N := by
      obtain ⟨hs, hr, ho, ha⟩ := h
      exact ⟨hs.congr (fun _ _ => rfl) (fun _ _ => rfl) (fun _ _ _ => rfl) hs.alive
        ⟨rfl, rfl, rfl, rfl, rfl⟩, hr, ho, ha⟩
    obtain ⟨-, rfl⟩ := Prod.mk.inj (Prog.run_ret hcode)
    exact ⟨(hN.stores.edits rfl).keys h.stores, N, hN⟩
  | call q => exact ⟨he.keys h.stores, N', hN'⟩
  | bucket mixed => exact ⟨he.keys h.stores, N', hN'⟩
  | reserve n => exact ⟨he.keys h.stores, N', hN'⟩

/-- Another payload of the same key. -/
theorem Stores.edits_assign (hC : C.Lawful) (hs : Stores C w.heap N) (ha : a ∈ w.heap.regular N)
    (hk : C.eq (w.heap.key a) k = true) : Edits C w N (w.assign a k) := by
  refine ⟨N, hs.assign hC hk, ?_⟩
  obtain ⟨R, R', hR⟩ := List.append_of_mem ha
  have hn : (R ++ a :: R').Nodup := hR ▸ hs.nodup.filter _
  have hout : ∀ b ∈ R ++ R', b ≠ a := by
    rintro b hb rfl
    exact (List.nodup_cons.mp (List.nodup_middle.mp hn)).1 hb
  have hreg : (w.assign a k).heap.regular N = R ++ a :: R' := hR
  have hkeys : ∀ L ⊆ R ++ R', L.map (w.assign a k).heap.key = L.map w.heap.key := by
    intro L hL
    apply List.map_congr_left
    intro b hb
    exact Function.update_of_ne (hout b (hL hb)) _ _
  have hself : (w.assign a k).heap.key a = k := Function.update_self _ _ _
  rw [Heap.keys, Heap.keys, hreg, hR, List.map_append, List.map_append, List.map_cons,
    List.map_cons, hkeys R (by simp), hkeys R' (by simp), hself]
  exact .assign rfl hk

/-- An erasure by an iterator locates the key by the hashes of the iterator. -/
theorem eraseNode_edits {mixed : Word} (hC : C.Lawful) (h : Between C w N)
    (hk : Suits mixed (soKeyOf (C.mixedHash k))) :
    Finishes (fun _ v => Edits C w N v ∧ Moves C w v)
      (eraseNode C k mixed (soKeyOf (C.mixedHash k))) w := by
  refine Exits.mono (eraseAt_finishes hC h.allocates h.stores hk) ?_
  rintro x v (⟨-, hst⟩ | ⟨N', new, u, A, p, B, hp, hcut, hx⟩)
  · exact ⟨h.stores.starves hst, h.starves hst⟩
  have hu := h.grows hp.toGrows
  have hmoves := h.moves_grows hp.toGrows
  rcases hx.cases hC hp.stores hcut with ⟨-, rfl, -⟩ | ⟨A', p', t, B', rfl, ht, -, he⟩
  · exact ⟨h.stores.grows_edits hp.toGrows, hmoves⟩
  · have htr := (lookup_some ht).2.1
    exact ⟨(he.edits hp.stores htr).of_eq (hp.keys h.stores), hmoves.trans (hu.erased htr he)⟩

/-- An iterator as `begin`, `end`, `find` and increments make it. -/
def Iterator.Made (C : Config Key) (i : Iterator Key) : Prop :=
  i.Hashed C ∨ i.isEnd = true ∧ i.mixed = 0 ∧ i.sk = 0

omit [DecidableEq Addr] in
theorem Iterator.Made.hashed {i : Iterator Key} (h : i.Made C) (hend : i.isEnd = false) :
    i.Hashed C := by
  rcases h with hi | ⟨htrue, -⟩
  · exact hi
  · rw [hend] at htrue
    cases htrue

/-- `erase(pos)` removes one key at most. -/
theorem eraseAt_edits (hC : C.Lawful) (h : Between C w N) (hpos : pos.Made C) :
    Finishes (fun _ v => Edits C w N v ∧ Moves C w v) (eraseAt C pos) w := by
  have hi : pos.Hashed C ∨ pos.mixed = 0 ∧ pos.sk = 0 := hpos.imp_right And.right
  refine Exits.bind ((constIteratorToIterator pos).advance_finishes hC h hi) ?_ ?_
  rotate_left
  · rintro v ⟨m, hst⟩
    exact ⟨h.stores.starves hst, h.starves hst⟩
  rintro next u ⟨N', new, hg, -⟩
  have hmoves := h.moves_grows hg
  cases hend : pos.isEnd with
  | true => exact Exits.ret ⟨h.stores.grows_edits hg, hmoves⟩
  | false =>
    have hash := hpos.hashed hend
    have herase := eraseNode_edits hC (h.grows hg) hash.suits
    rw [← hash.1] at herase
    have hdone : ∀ v, Edits C u N' v ∧ Moves C u v → Edits C w N v ∧ Moves C w v :=
      fun v hv => ⟨hv.1.of_eq (hg.keys h.stores), hmoves.trans hv.2⟩
    exact Exits.bind herase (fun _ v hv => Exits.ret (hdone v hv)) hdone

end Calls

/-! ## Loops -/

section Loops

variable [DecidableEq Addr]

/-- The stops of an iterator. -/
abbrev IteratorStop (Addr Key : Type) := Stop (Loaded Addr Key) Key

/-- The loops from `begin()` on, stop by stop, the latest one first: any calls come between the
increments, and where `P` holds of a stop and the key there, the iterator may be incremented. -/
inductive Iteration (C : Config Key) (P : IteratorStop Addr Key → Key → Prop) :
    Iterator Key → List (IteratorStop Addr Key) → Prop where
  | begin {s s' : Loaded Addr Key} {i : Iterator Key} {blank : Key} {fuel : Nat} : Reached C s →
      s.runCode (beginIterator C blank) fuel = some (some i, s') →
      Iteration C P i [⟨i.cursor, s', []⟩]
  | job {i : Iterator Key} {p : IteratorStop Addr Key} {its : List (IteratorStop Addr Key)}
      {j : Job Key} {fuel : Nat} {r : Option (Reply Key)} {s : Loaded Addr Key} :
      Iteration C P i (p :: its) → j.run C fuel p.now = some (r, s) →
      Iteration C P i ({ p with later := s :: p.later } :: its)
  /-- `insert_or_assign` of a key that is there. -/
  | assign {i : Iterator Key} {p : IteratorStop Addr Key}
      {its : List (IteratorStop Addr Key)} {N : List Addr} {a : Addr} {k : Key} :
      Iteration C P i (p :: its) → Stores C p.now.world.heap N →
      a ∈ p.now.world.heap.regular N → C.eq (p.now.world.heap.key a) k = true →
      Iteration C P i
        ({ p with later := p.now.withWorld (p.now.world.assign a k) :: p.later } :: its)
  /-- `erase` of any iterator. -/
  | eraseAt {i pos : Iterator Key} {p : IteratorStop Addr Key}
      {its : List (IteratorStop Addr Key)} {fuel : Nat} {r : Option (Iterator Key)}
      {s : Loaded Addr Key} : Iteration C P i (p :: its) → pos.Made C →
      p.now.runCode (Unordered.eraseAt C pos) fuel = some (r, s) →
      Iteration C P i ({ p with later := s :: p.later } :: its)
  /-- An increment throws: the iterator stays where it is. -/
  | thrown {i : Iterator Key} {p : IteratorStop Addr Key}
      {its : List (IteratorStop Addr Key)} {fuel : Nat} {s : Loaded Addr Key} :
      Iteration C P i (p :: its) → p.now.runCode (i.advance C) fuel = some (none, s) →
      Iteration C P i ({ p with later := s :: p.later } :: its)
  | next {i j : Iterator Key} {p : IteratorStop Addr Key}
      {its : List (IteratorStop Addr Key)} {fuel : Nat} {s : Loaded Addr Key} :
      Iteration C P i (p :: its) → i.isEnd = false → P p i.key →
      p.now.runCode (i.advance C) fuel = some (some j, s) →
      Iteration C P j (⟨j.cursor, s, []⟩ :: p :: its)

variable {C : Config Key} {P : IteratorStop Addr Key → Key → Prop} {w w' u : World Addr Key}
  {s s' : Loaded Addr Key} {N : List Addr} {i j : Iterator Key} {p : IteratorStop Addr Key}
  {its : List (IteratorStop Addr Key)} {blank : Key} {fuel : Nat}

/-- What the engine's code does, in terms of its runs. -/
theorem runCode_spec {α : Type} {Q : Option α → World Addr Key → Prop} {q : Code Addr Key α}
    {r : Option α} (hq : Finishes Q q s.world) (hrun : s.runCode q fuel = some (r, s')) :
    Q r s'.world := by
  obtain ⟨⟨r', w⟩, hcode, heq⟩ := Option.map_eq_some_iff.mp hrun
  obtain ⟨rfl, rfl⟩ := Prod.mk.inj heq
  exact Ends.of_run (Q := Q) Solo.of_executes (ends_unbounded hq) hcode

omit [DecidableEq Addr] in
/-- An iterator that is made at an element has its hash. -/
theorem Stores.keyed_info (hs : Stores C w.heap N) {a : Addr} (ha : a ∈ w.heap.regular N) :
    (⟨false, w.heap.key a, rebuiltHash (w.heap.soKey a), w.heap.soKey a⟩ : Iterator Key).Hashed C :=
  ⟨hs.keyed a (Heap.mem_regular.mp ha).1 (Heap.mem_regular.mp ha).2, .inr rfl⟩

/-- `begin()` is at the first key. -/
theorem beginIterator_reads (hs : Stores C w.heap N) :
    Finishes (fun x w' => w' = w ∧ ∃ i, x = some i ∧ i.cursor = (w.heap.keys N).head? ∧ i.Made C)
      (beginIterator C blank) w := by
  refine (firstNode_reads hs).bind ?_
  unfold Heap.keys
  cases hr : w.heap.regular N with
  | nil => exact Exits.ret ⟨rfl, _, rfl, rfl, .inr ⟨rfl, rfl, rfl⟩⟩
  | cons a R => exact Exits.ret ⟨rfl, _, rfl, rfl, .inl (hs.keyed_info (by simp [hr]))⟩

omit [DecidableEq Addr] in
/-- The element behind the one of the key `k`. -/
theorem Heap.successor_key (h : Heap Addr Key) (N : List Addr) (k : Key) :
    (h.successor C N k).map h.key = (behind C.eq (h.keys N) k).head? := by
  unfold Heap.successor behind Heap.keys
  rw [List.dropWhile_map, ← List.map_tail, List.head?_map]
  rfl

omit [DecidableEq Addr] in
/-- The iterator that an increment makes. -/
theorem Iterator.moved_following (hs : Stores C w.heap N) (hi : i.Hashed C)
    (hend : i.isEnd = false) :
    (i.moved w.heap (i.following C w.heap N)).cursor =
        (behind C.eq (w.heap.keys N) i.key).head? ∧
      (i.moved w.heap (i.following C w.heap N)).Made C := by
  have hsucc := Heap.successor_key (C := C) w.heap N i.key
  rw [← hsucc]
  have hmem : ∀ a, i.following C w.heap N = some a → a ∈ w.heap.regular N :=
    fun a ha => i.following_mem ha
  rw [Iterator.following, if_neg hi.sk_ne] at hmem ⊢
  cases hf : w.heap.successor C N i.key with
  | none => exact ⟨rfl, .inl hi⟩
  | some a =>
    refine ⟨?_, .inl (hs.keyed_info (hmem a hf))⟩
    show (if i.isEnd = true then none else some (w.heap.key a)) = _
    rw [if_neg (by simp [hend])]
    rfl

/-- The iterator is at the cursor of the latest stop, and a call may come. -/
structure Follows (C : Config Key) (i : Iterator Key) (p : IteratorStop Addr Key) : Prop where
  between : ∃ N, Between C p.now.world N
  cursor : p.cursor = i.cursor
  made : i.Made C

omit [DecidableEq Addr] in
theorem Follows.later (h : Follows C i p) (hs : ∃ N, Between C s.world N) :
    Follows C i { p with later := s :: p.later } := ⟨hs, h.cursor, h.made⟩

/-- What an increment does. -/
theorem Follows.advance (hC : C.Lawful) (h : Follows C i p) :
    Finishes (fun x w => x.elim
        (¬ p.now.world.choices.Calm ∧ ∃ N, Between C p.now.world N ∧ Edits C p.now.world N w ∧
          Moves C p.now.world w) fun j => ∃ N N' new, Between C p.now.world N ∧
            Grows C p.now.world w N N' new ∧
            j = i.moved p.now.world.heap (i.following C p.now.world.heap N))
      (i.advance C) p.now.world := by
  obtain ⟨N, hN⟩ := h.between
  have hi : i.Hashed C ∨ i.mixed = 0 ∧ i.sk = 0 := h.made.imp_right And.right
  refine Exits.mono (i.advance_finishes hC hN hi) ?_
  rintro (_ | j) w hx
  · obtain ⟨m, hst⟩ := hx
    refine ⟨fun hcalm => hcalm.not_starved hst.starved, N, hN, hN.stores.starves hst, ?_⟩
    exact hN.starves hst
  · obtain ⟨N', new, hg, rfl⟩ := hx
    exact ⟨N, N', new, hN, hg, rfl⟩

/-- Where the keys stay under the iterator, its loop is one over the keys. -/
theorem Iteration.loop (hC : C.Lawful) (h : Iteration C P i (p :: its)) : Follows C i p ∧
    ((∀ p k, P p k → p.Undisturbed (Loaded.keys C) C.eq k) →
      Loop (Loaded.keys C) C.eq (p :: its)) := by
  have := hC.toKeyEquiv
  generalize hL : p :: its = L at h
  induction h generalizing p its with
  | @begin s s' i blank fuel hs hrun =>
    obtain ⟨rfl, rfl⟩ := List.cons.inj hL
    obtain ⟨N, hN⟩ := (hs.stored hC).between
    obtain ⟨hw, i', hi', hcursor, hmade⟩ := runCode_spec (beginIterator_reads hN.stores) hrun
    obtain rfl := Option.some.inj hi'
    have hN' : Between C s'.world N := hw ▸ hN
    have hhead : i.cursor = (s'.keys C).head? := by
      rw [hcursor, hN'.stores.keys_eq, hw]
    refine ⟨⟨⟨N, hN'⟩, rfl, hmade⟩, fun _ => ?_⟩
    rw [hhead]
    refine .begin s' ?_
    rw [hN'.stores.keys_eq]
    exact hN'.stores.distinct_keys
  -- what happens between two increments edits the keys and leaves the iterator alone
  | job _ hrun ih =>
    obtain ⟨rfl, rfl⟩ := List.cons.inj hL
    obtain ⟨hf, hloop⟩ := ih rfl
    obtain ⟨N, hN⟩ := hf.between
    obtain ⟨he, hN'⟩ := Job.edits hC hN hrun
    exact ⟨hf.later hN', fun hP => (hloop hP).edit he⟩
  | @assign i p its N a k _ hs ha hk ih =>
    obtain ⟨rfl, rfl⟩ := List.cons.inj hL
    obtain ⟨hf, hloop⟩ := ih rfl
    obtain ⟨N', hN⟩ := hf.between
    obtain rfl := hs.unique hN.stores
    have he : Edits C p.now.world N (p.now.withWorld (p.now.world.assign a k)).world :=
      hs.edits_assign hC ha hk
    exact ⟨hf.later ⟨N, hN.assign hC hk⟩, fun hP => (hloop hP).edit (he.keys hs)⟩
  | eraseAt _ hpos hrun ih =>
    obtain ⟨rfl, rfl⟩ := List.cons.inj hL
    obtain ⟨hf, hloop⟩ := ih rfl
    obtain ⟨N, hN⟩ := hf.between
    obtain ⟨he, hmoves⟩ := runCode_spec (eraseAt_edits hC hN hpos) hrun
    exact ⟨hf.later hmoves.between, fun hP => (hloop hP).edit (he.keys hN.stores)⟩
  | thrown _ hrun ih =>
    obtain ⟨rfl, rfl⟩ := List.cons.inj hL
    obtain ⟨hf, hloop⟩ := ih rfl
    obtain ⟨-, N, hN, he, hmoves⟩ := runCode_spec (hf.advance hC) hrun
    exact ⟨hf.later hmoves.between, fun hP => (hloop hP).edit (he.keys hN.stores)⟩
  -- the increment itself moves to the first key behind the current one
  | @next i j p its fuel s _ hend hp hrun ih =>
    obtain ⟨rfl, rfl⟩ := List.cons.inj hL
    obtain ⟨hf, hloop⟩ := ih rfl
    obtain ⟨N, N', new, hN, hg, rfl⟩ := runCode_spec (hf.advance hC) hrun
    obtain ⟨hcursor, hmade⟩ := Iterator.moved_following hN.stores (hf.made.hashed hend) hend
    have hkeys : s.keys C = p.now.keys C := by
      rw [hg.stores.keys_eq, hN.stores.keys_eq, hg.keys hN.stores]
    have hat : p.cursor = some i.key := by rw [hf.cursor, Iterator.cursor_element hend]
    refine ⟨⟨⟨N', hN.grows hg⟩, rfl, hmade⟩, fun hP => ?_⟩
    rw [hcursor, ← hN.stores.keys_eq]
    exact (hloop hP).next hat (hP p _ hp) hkeys

/-- The condition on the increments: the key of the iterator has stayed where it is. -/
def Stays (C : Config Key) (p : IteratorStop Addr Key) (k : Key) : Prop :=
  p.Undisturbed (Loaded.keys C) C.eq k

/-- A loop is weakly consistent if at each increment the key of the iterator has stayed where it
is; no increment runs forever. -/
theorem iteration_weaklyConsistent (hC : C.Lawful) (h : Iteration C (Stays C) i (p :: its)) :
    WeaklyConsistent (Loaded.keys C) C.eq p its ∧
      Returns (fun fuel => p.now.runCode (i.advance C) fuel) fun r =>
        p.now.world.choices.Calm → r.1.isSome = true := by
  have := hC.toKeyEquiv
  obtain ⟨hf, hloop⟩ := h.loop hC
  refine ⟨(hloop fun _ _ hp => hp).weaklyConsistent, ?_⟩
  apply (Ends.returns Solo.of_executes (ends_unbounded (hf.advance hC))).map
  rintro ⟨_ | j, w⟩ hr
  · exact fun hcalm => absurd hcalm hr.1
  · exact fun _ => rfl

/-- A key that `find_node` reports is there. -/
theorem hasKey_of_find {k : Key} {a : Addr} (hC : C.Lawful) (h : ∃ N, Between C s.world N)
    (hrun : s.runCode (findNode C k (C.mixedHash k) (soKeyOf (C.mixedHash k))) fuel =
      some (some (some a), s')) : HasKey C.eq (s.keys C) k := by
  obtain ⟨N, hN⟩ := h
  obtain ⟨N', new, -, hfind⟩ := runCode_spec (findNode_finishes hC hN.allocates hN.stores k) hrun
  rw [hN.stores.keys_eq, hasKey_keys, ← hfind]
  rfl

end Loops

/-! ## Erasures under the iterator and elsewhere -/

section Elements

variable {C : Config Nat}

/-- `find_node(k)` as a test. -/
def Loaded.finds (C : Config Nat) (s : Loaded Nat Nat) (k : Nat) : Bool :=
  match s.runCode (findNode C k (C.mixedHash k) (soKeyOf (C.mixedHash k))) 80 with
  | some (some (some _), _) => true
  | _ => false

theorem hasKey_of_finds (hC : C.Lawful) {s : Loaded Nat Nat} {k : Nat}
    (h : ∃ N, Between C s.world N) (hk : s.finds C k = true) : HasKey C.eq (s.keys C) k := by
  unfold Loaded.finds at hk
  split at hk
  · next a s' hrun => exact hasKey_of_find hC h hrun
  · cases hk

/-- A set of numbers that nothing has been done to. -/
def Loaded.empty : Loaded Nat Nat := newNumbers (floatFactor 1)

theorem keeps_of_finds (hC : C.Lawful) {p : IteratorStop Nat Nat} {k : Nat}
    (hs : ∀ s ∈ p.arrival :: p.later, (∃ N, Between C s.world N) ∧ s.finds C k = true) :
    p.Keeps (Loaded.keys C) C.eq k :=
  fun s h => hasKey_of_finds hC (hs s h).1 (hs s h).2

/-- The iterator is at 1, which is erased: the increment does not come to 2, which has another hash
and was there all the time. -/
theorem iteration_ends_early : ∃ (i : Iterator Nat) (p : IteratorStop Nat Nat)
    (its : List (IteratorStop Nat Nat)), Iteration spread (fun _ _ => True) i (p :: its) ∧
      i.isEnd = true ∧ (∀ q ∈ p :: its, q.Keeps (Loaded.keys spread) spread.eq 2) ∧
      visited (p :: its) = [1] ∧
      ¬ WeaklyConsistent (Loaded.keys spread) spread.eq p its := by
  obtain ⟨⟨rs, s₀⟩, hrun₀, ⟨x, s₁⟩, hrun₁, ⟨b, s₂⟩, hrun₂, i, hi, ⟨y, s₃⟩, hrun₃, j, hj, hkey, hon,
      hend, hfind₁, hfind₂, hfind₃⟩ :
      ∃ x₀ ∈ runJobs spread 80 [.call (.emplace 2), .call (.emplace 1)] .empty,
      ∃ x₁ ∈ x₀.2.runCode (beginIterator spread 0) 80,
      ∃ x₂ ∈ (Job.call (.erase 1)).run spread 80 x₁.2, ∃ i ∈ x₁.1,
      ∃ x₃ ∈ x₂.2.runCode (i.advance spread) 80, ∃ j ∈ x₃.1, i.key = 1 ∧ i.isEnd = false ∧
        j.isEnd = true ∧ x₁.2.finds spread 2 = true ∧ x₂.2.finds spread 2 = true ∧
          x₃.2.finds spread 2 = true := by
    decide +kernel
  obtain rfl : x = some i := hi
  obtain rfl : y = some j := hj
  have hs₀ : Reached spread s₀ :=
    runJobs_induction spread (fun _ _ _ _ _ h hstep => h.job hstep) (.new pickAbove_fresh) hrun₀
  have h₁ : Iteration spread (fun _ _ => True) i [⟨i.cursor, s₁, []⟩] := .begin hs₀ hrun₁
  have h₂ := h₁.job hrun₂
  have h₃ := h₂.next hon trivial hrun₃
  have hat : i.cursor = some 1 := by rw [Iterator.cursor_element hon, hkey]
  have hnone := Iterator.cursor_end hend
  have hkeeps : ∀ q ∈ [(⟨j.cursor, s₃, []⟩ : IteratorStop Nat Nat), ⟨i.cursor, s₁, [s₂]⟩],
      q.Keeps (Loaded.keys spread) spread.eq 2 := by
    refine List.forall_mem_cons.mpr ⟨keeps_of_finds spread_lawful ?_, List.forall_mem_singleton.mpr
      (keeps_of_finds spread_lawful ?_)⟩
    · exact List.forall_mem_singleton.mpr ⟨(h₃.loop spread_lawful).1.between, hfind₃⟩
    · exact List.forall_mem_cons.mpr ⟨⟨(h₁.loop spread_lawful).1.between, hfind₁⟩,
        List.forall_mem_singleton.mpr ⟨(h₂.loop spread_lawful).1.between, hfind₂⟩⟩
  have hvisited : visited [(⟨j.cursor, s₃, []⟩ : IteratorStop Nat Nat),
      ⟨i.cursor, s₁, [s₂]⟩] = [1] := by
    rw [visited_none hnone, visited_some hat]
    rfl
  refine ⟨j, _, _, h₃, hend, hkeeps, hvisited, fun hcons => ?_⟩
  have honce := hcons.once hnone 2 hkeeps
  rw [hvisited] at honce
  cases honce

/-- The iterator is at 1 while 2, which comes next, is erased: it goes on to 3. -/
theorem iteration_weaklyConsistent_erased : ∃ (i : Iterator Nat) (p : IteratorStop Nat Nat)
    (its : List (IteratorStop Nat Nat)), Iteration colliding (Stays colliding) i (p :: its) ∧
      i.isEnd = true ∧ visited (p :: its) = [3, 1] ∧
      WeaklyConsistent (Loaded.keys colliding) colliding.eq p its := by
  obtain ⟨⟨rs, s₀⟩, hrun₀, ⟨x, s₁⟩, hrun₁, ⟨b, s₂⟩, hrun₂, i, hi, ⟨y, s₃⟩, hrun₃, j, hj, hkey, hon,
      hkey', hon', hlast, hfinds⟩ :
      ∃ x₀ ∈ runJobs colliding 80 [.call (.emplace 3), .call (.emplace 2), .call (.emplace 1)]
        .empty, ∃ x₁ ∈ x₀.2.runCode (beginIterator colliding 0) 80,
      ∃ x₂ ∈ (Job.call (.erase 2)).run colliding 80 x₁.2, ∃ i ∈ x₁.1,
      ∃ x₃ ∈ x₂.2.runCode (i.advance colliding) 80, ∃ j ∈ x₃.1, i.key = 1 ∧ i.isEnd = false ∧
        j.key = 3 ∧ j.isEnd = false ∧ ((x₃.2.runCode (j.advance colliding) 80).any
          fun x₄ => x₄.1.any fun l => l.isEnd) = true ∧
        (x₁.2.finds colliding 1 && x₂.2.finds colliding 1 && x₃.2.finds colliding 3) = true := by
    decide +kernel
  simp only [Bool.and_eq_true] at hfinds
  obtain ⟨⟨hfind₁, hfind₂⟩, hfind₃⟩ := hfinds
  obtain rfl : x = some i := hi
  obtain rfl : y = some j := hj
  obtain ⟨⟨z, s₄⟩, hrun₄, hz⟩ := (Option.any_eq_true _ _).mp hlast
  obtain ⟨l, rfl, hend⟩ := (Option.any_eq_true _ _).mp hz
  have hs₀ : Reached colliding s₀ :=
    runJobs_induction colliding (fun _ _ _ _ _ h hstep => h.job hstep) (.new pickAbove_fresh) hrun₀
  have h₁ : Iteration colliding (Stays colliding) i [⟨i.cursor, s₁, []⟩] := .begin hs₀ hrun₁
  have h₂ := h₁.job hrun₂
  have hstays : Stays colliding ⟨i.cursor, s₁, [s₂]⟩ i.key := by
    rw [hkey]
    exact .inl (keeps_of_finds colliding_lawful (List.forall_mem_cons.mpr
      ⟨⟨(h₁.loop colliding_lawful).1.between, hfind₁⟩,
        List.forall_mem_singleton.mpr ⟨(h₂.loop colliding_lawful).1.between, hfind₂⟩⟩))
  have h₃ := h₂.next hon hstays hrun₃
  have hstays' : Stays colliding ⟨j.cursor, s₃, []⟩ j.key := by
    rw [hkey']
    exact .inl (keeps_of_finds colliding_lawful (List.forall_mem_singleton.mpr
      ⟨(h₃.loop colliding_lawful).1.between, hfind₃⟩))
  have h₄ := h₃.next hon' hstays' hrun₄
  have hat : i.cursor = some 1 := by rw [Iterator.cursor_element hon, hkey]
  have hat' : j.cursor = some 3 := by rw [Iterator.cursor_element hon', hkey']
  refine ⟨l, _, _, h₄, hend, ?_, (iteration_weaklyConsistent colliding_lawful h₄).1⟩
  rw [visited_none (Iterator.cursor_end hend), visited_some hat', visited_some hat]
  rfl

end Elements

end MpmcMap.Unordered
