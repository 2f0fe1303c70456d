import MpmcMap.Maps.Positions
import MpmcMap.Unordered.Values

/-!
# `erase(const_iterator)` of the unordered containers

An iterator keeps a key and its hashes, also once it is an end iterator. `erase` turns its argument
into a mutable iterator, which is never an end iterator, and increments that one first.
-/

namespace MpmcMap.Unordered

open Conc Maps
open Prog (perform iterate)

variable {Addr Key : Type}

/-- `iterator` and `const_iterator`. -/
structure Iterator (Key : Type) where
  isEnd : Bool
  key : Key
  mixed : Word
  sk : Word

/-! ## The code -/

section Code

variable [DecidableEq Addr] (C : Config Key)

/-- `iterator::advance()`. -/
def Iterator.advance (i : Iterator Key) : Code Addr Key (Iterator Key) := do
  match ← nextNode C i.mixed i.sk i.key with
  | some info => return { i with key := info.key, mixed := info.mixed, sk := info.sk }
  | none => return { i with isEnd := true }

/-- `const_iterator_to_iterator(c)`. -/
def constIteratorToIterator (c : Iterator Key) : Iterator Key :=
  ⟨false, c.key, c.mixed, c.sk⟩

/-- `erase(pos)`. -/
def eraseAt (pos : Iterator Key) : Code Addr Key (Iterator Key) := do
  let next ← (constIteratorToIterator pos).advance C
  if !pos.isEnd then
    let _ ← eraseNode C pos.key pos.mixed pos.sk
    return next
  else
    return next

end Code

/-! ## Iterators into a container -/

/-- The hashes that come with a key, as the map or an earlier increment has computed them. -/
def Iterator.Hashed (C : Config Key) (i : Iterator Key) : Prop :=
  i.sk = soKeyOf (C.mixedHash i.key) ∧ (i.mixed = C.mixedHash i.key ∨ i.mixed = rebuiltHash i.sk)

/-- An iterator to the element `e`, or an end iterator: `end()` stores no hashes, an incremented
iterator those of the last element that it was at. -/
def Iterator.Into (C : Config Key) (h : Heap Addr Key) (i : Iterator Key) :
    Option (Addr × Key) → Prop
  | some e => i.isEnd = false ∧ i.Hashed C ∧ C.eq e.2 i.key = true ∧ h.key e.1 = e.2 ∧
      ∃ N, Stores C h N ∧ e.1 ∈ h.regular N
  | none => i.isEnd = true ∧ (i.Hashed C ∨ i.mixed = 0 ∧ i.sk = 0)

/-- The elements in the order of iteration. -/
def Heap.elements (h : Heap Addr Key) (N : List Addr) : List (Addr × Key) :=
  (h.regular N).map fun a => (a, h.key a)

/-- No element comes after the key of the iterator: it came from `end()`, its key is absent, or it
is the key of the last element. -/
def Iterator.Last (C : Config Key) (h : Heap Addr Key) (i : Iterator Key) : Prop :=
  i.sk = 0 ∨ ∃ N, Stores C h N ∧ h.successor C N i.key = none

/-- The unordered containers with `erase(const_iterator)`. -/
def unordered (Addr : Type) [DecidableEq Addr] (C : Config Key) :
    IterModel (Iterator Key) (Addr × Key) where
  State := Loaded Addr Key
  Reached := Reached C
  Calm s := s.world.choices.Calm
  Elements s L := ∃ N, Stores C s.world.heap N ∧ s.world.heap.elements N = L
  Into s i := i.Into C s.world.heap
  Last s i := i.Last C s.world.heap
  eraseAt i s fuel := (((eraseAt C i).attempt throwing).run (fun o w => o.alone w) fuel s.world).map
    fun r => (r.1, s.withWorld r.2)

/-! ## The increment -/

section Advance

variable [DecidableEq Addr] {C : Config Key} {w u : World Addr Key} {N N' : List Addr} {k : Key}
  {i : Iterator Key}

theorem Iterator.Hashed.suits (h : i.Hashed C) : Suits i.mixed (soKeyOf (C.mixedHash i.key)) := by
  obtain ⟨hsk, hmixed⟩ := h
  rcases hmixed with hm | hm
  · rw [hm]
    exact suits_soKeyOf _
  · rw [hm, hsk]
    exact suits_rebuiltHash (isRegular_soKeyOf _)

theorem Iterator.Hashed.sk_ne (h : i.Hashed C) : i.sk ≠ 0 := by
  intro hzero
  have hr := isRegular_soKeyOf (C.mixedHash i.key)
  rw [← h.1, hzero] at hr
  cases hr

/-- `next_node` with the hashes of `end()` finds nothing: the key 0 is that of the first dummy. -/
theorem nextNode_origin (h : Between C w N) (k : Key) : Reads (nextNode C 0 0 k) none w := by
  have hs := h.stores
  obtain ⟨d, hd, hbucket⟩ := hs.head
  obtain ⟨B, rfl⟩ : ∃ B, N = d :: B := by
    cases N with
    | nil => cases hd
    | cons a B => exact ⟨B, by rw [Option.some.inj hd]⟩
  have hzero : bucketOf 0 (w.heap.size w.heap.table) = 0 := by
    show (0#64 &&& _).toNat = 0
    rw [BitVec.zero_and]
    rfl
  have hnext : w.heap.next d = .plain B.head? := hs.linked.1
  -- no other node has the key of the first dummy
  have hB : ∀ b ∈ B, w.heap.soKey b ≠ 0 := by
    intro b hb hb0
    have heq := (h.origin b (List.mem_cons_of_mem _ hb) hb0).symm.trans hbucket
    obtain rfl := Option.some.inj heq
    exact (List.nodup_cons.mp hs.nodup).1 hb
  have hwalk : Reads (walk C d 0) (placeOf d B) w := by
    refine (publish_reads C w HP_PREV d).bind ((follow_reads C w d).bind ?_)
    rw [hnext]
    cases B with
    | nil => exact Reads.last (Reads.ret _ w) ⟨rfl, rfl⟩
    | cons b B =>
      refine Reads.last (a := placeOf d (b :: B)) ?_ ⟨rfl, rfl⟩
      refine .access rfl rfl ?_
      show Reads (if 0 ≤ w.heap.soKey b then Prog.ret (Sum.inr (placeOf d (b :: B)))
        else (pass C d b (.plain (some b))).bind fun place => Prog.ret (Sum.inl place)) _ w
      have hle : (0 : Word) ≤ w.heap.soKey b := by bv_omega
      rw [if_pos hle]
      exact Reads.ret _ w
  have hlocate : Reads (locate C 0 0) (d, B.head?) w := by
    refine Exits.unroll ((loadTable_reads C w).bind (Finishes.access rfl rfl
      (Finishes.access rfl (loadBucket_bounded ?_) ?_)))
    · rw [hzero]
      exact hs.size_pos
    · rw [hzero, hbucket]
      exact hwalk.bind (Exits.ret ⟨rfl, rfl⟩)
  have hskip : Reads (iterate (skipStep C 0 k) (d, B.head?, .null)) none w := by
    cases B with
    | nil => exact Reads.last (Reads.ret _ w) ⟨rfl, rfl⟩
    | cons b B =>
      refine Reads.last (a := none) ?_ ⟨rfl, rfl⟩
      refine Finishes.access rfl rfl ?_
      show Reads (if w.heap.soKey b ≠ 0 then _ else _) _ w
      rw [if_pos (hB b (by simp))]
      exact Reads.ret _ w
  exact hlocate.bind (hskip.bind (Reads.ret _ w))

/-- The element after the key of the iterator. -/
def Iterator.following (C : Config Key) (h : Heap Addr Key) (N : List Addr) (i : Iterator Key) :
    Option Addr := if i.sk = 0 then none else h.successor C N i.key

/-- The iterator moved to the node `a`, or to the end. -/
def Iterator.moved (i : Iterator Key) (h : Heap Addr Key) : Option Addr → Iterator Key
  | some a => ⟨i.isEnd, h.key a, rebuiltHash (h.soKey a), h.soKey a⟩
  | none => { i with isEnd := true }

/-- An increment moves to the following element, after dummies have been created. -/
theorem Iterator.advance_finishes (hC : C.Lawful) (h : Between C w N)
    (hi : i.Hashed C ∨ i.mixed = 0 ∧ i.sk = 0) :
    Finishes (fun x u => x.elim (∃ m, Starves C w u N m) fun j => ∃ N' new,
        Grows C w u N N' new ∧ j = i.moved w.heap (i.following C w.heap N)) (i.advance C) w := by
  rcases hi with hi | ⟨hm, hsk⟩
  · have hnext := nextNode_finishes hC h.allocates h.stores hi.suits
    rw [← hi.1] at hnext
    refine Exits.bind hnext ?_ fun u hu => ⟨_, hu⟩
    rintro r u ⟨N', new, hp, rfl⟩
    rw [Iterator.following, if_neg hi.sk_ne]
    cases w.heap.successor C N i.key with
    | none => exact Exits.ret ⟨N', new, hp.toGrows, rfl⟩
    | some a => exact Exits.ret ⟨N', new, hp.toGrows, rfl⟩
  · have hnext : Reads (nextNode C i.mixed i.sk i.key) none w := by
      rw [hm, hsk]
      exact nextNode_origin h i.key
    refine hnext.bind (Exits.ret ⟨N, [], h.stores.grows_refl, ?_⟩)
    rw [Iterator.following, if_pos hsk]
    rfl

end Advance

/-! ## The erasure -/

section EraseAt

variable [DecidableEq Addr] {C : Config Key} {w u v : World Addr Key} {N N' new : List Addr}
  {pos : Iterator Key} {R R' : List Addr} {t : Addr}

omit [DecidableEq Addr] in
/-- Dummies are no elements. -/
theorem Grows.elements (hs : Stores C w.heap N) (hg : Grows C w u N N' new) :
    u.heap.elements N' = w.heap.elements N := by
  rw [Heap.elements, Heap.elements, hg.regular hs, hg.agrees.key]

/-- An end iterator: nothing is erased. -/
theorem eraseAt_end (hC : C.Lawful) (h : Between C w N) (hend : pos.isEnd = true)
    (hi : pos.Hashed C ∨ pos.mixed = 0 ∧ pos.sk = 0) :
    Finishes (fun x u => x.elim (∃ m, Starves C w u N m) fun j => ∃ N' new,
        Grows C w u N N' new ∧
          j = (constIteratorToIterator pos).moved w.heap (pos.following C w.heap N))
      (eraseAt C pos) w := by
  refine Exits.bind ((constIteratorToIterator pos).advance_finishes hC h hi) ?_ fun u hu => hu
  rintro j u hj
  rw [hend]
  exact Exits.ret hj

omit [DecidableEq Addr] in
theorem Heap.regular_remove {h : Heap Addr Key} {A B : List Addr} {p : Addr}
    (hn : (A ++ p :: t :: B).Nodup) (hreg : h.regular (A ++ p :: t :: B) = R ++ t :: R') :
    h.regular (A ++ p :: B) = R ++ R' := by
  have htr : isRegular (h.soKey t) = true := by
    have ht : t ∈ h.regular (A ++ p :: t :: B) := by simp [hreg]
    exact (Heap.mem_regular.mp ht).2
  rw [List.append_cons, List.nodup_append] at hn
  rw [List.append_cons, Heap.regular_append, Heap.regular_cons_pos htr,
    List.append_cons_inj_of_notMem] at hreg
  · rw [List.append_cons, Heap.regular_append, hreg.1, hreg.2.2]
  · intro ht
    exact hn.2.2 t (Heap.mem_regular.mp ht).1 t (by simp) rfl
  · intro ht
    exact (List.nodup_cons.mp hn.2.1).1 (Heap.mem_regular.mp ht).1

/-- An element: it is erased, unless something throws. -/
theorem eraseAt_element (hC : C.Lawful) (h : Between C w N) (hend : pos.isEnd = false)
    (hi : pos.Hashed C) (hreg : w.heap.regular N = R ++ t :: R')
    (ht : C.eq (w.heap.key t) pos.key = true) :
    Finishes (fun x u => x.elim (¬ w.choices.Calm) fun j => ∃ N', Stores C u.heap N' ∧
        u.heap.elements N' = (R ++ R').map (fun a => (a, w.heap.key a)) ∧
        j = (constIteratorToIterator pos).moved w.heap R'.head?)
      (eraseAt C pos) w := by
  have hfollow : (constIteratorToIterator pos).following C w.heap N = R'.head? := by
    show (if pos.sk = 0 then none else w.heap.successor C N pos.key) = _
    rw [if_neg hi.sk_ne]
    exact h.stores.successor_eq hC hreg ht
  obtain ⟨htN, htr⟩ : t ∈ N ∧ isRegular (w.heap.soKey t) = true := by
    rw [← Heap.mem_regular, hreg]
    simp
  refine Exits.bind ((constIteratorToIterator pos).advance_finishes hC h (.inl hi)) ?_ ?_
  rotate_left
  · rintro u ⟨m, hst⟩ hcalm
    exact hcalm.not_starved hst.starved
  rintro _ u ⟨N₁, new, hg, rfl⟩
  have hu := h.grows hg
  rw [hend, hfollow]
  rw [hi.1]
  refine Exits.bind (eraseAt_finishes hC hu.allocates hu.stores hi.suits) ?_ ?_
  · rintro b v hv
    refine Exits.ret ?_
    rcases hv with ⟨hx, -⟩ | ⟨N₂, new₂, u₂, A, p, B, hp, hcut, hx⟩
    · cases hx
    -- neither the increment nor the walk to the bucket touches the elements
    have hlook : u₂.heap.lookup C N₂ pos.key = some t := by
      rw [hp.lookup hu.stores, hg.lookup h.stores]
      exact h.stores.lookup_eq hC htN htr ht
    rcases hx.cases hC hp.stores hcut with ⟨-, -, hnone⟩ | ⟨A', p', t', B', rfl, ht', hne, he⟩
    · rw [hlook] at hnone
      cases hnone
    · obtain rfl := Option.some.inj (hlook.symm.trans ht')
      -- the node that is unlinked is the one that the iterator is at
      have hreg₂ : u₂.heap.regular (A' ++ p' :: t :: B') = R ++ t :: R' := by
        rw [hp.regular hu.stores, hg.regular h.stores, hreg]
      have hkey : u₂.heap.key = w.heap.key := hp.agrees.key.trans hg.agrees.key
      have htr₂ : t ∈ u₂.heap.regular (A' ++ p' :: t :: B') := by simp [hreg₂]
      have hs := hp.stores.unlinked (Heap.mem_regular.mp htr₂).2
      cases b with
      | false => exact absurd rfl hne
      | true =>
        obtain ⟨-, rfl⟩ : _ ∧ _ := he
        refine ⟨A' ++ p' :: B', hs.congr (fun _ _ => rfl) (fun _ _ => rfl) (fun _ _ _ => rfl)
          hs.alive ⟨rfl, rfl, rfl, rfl, rfl⟩, ?_, rfl⟩
        show (u₂.heap.regular (A' ++ p' :: B')).map (fun a => (a, u₂.heap.key a)) = _
        rw [Heap.regular_remove hp.stores.nodup hreg₂, hkey]
  · rintro v hv hcalm
    rcases hv with ⟨-, hst⟩ | ⟨N₂, new₂, u₂, A, p, B, hp, hcut, hx⟩
    · exact (hcalm.spends hg.choices).not_starved hst.starved
    have hcalm₂ := (hcalm.spends hg.choices).spends hp.choices
    rcases hx.cases hC hp.stores hcut with ⟨hx, -, -⟩ | ⟨A', p', t', B', rfl, ht', hne, he⟩
    · cases hx
    · have hretire : u₂.choices.head .retire = true := he.1
      rw [hcalm₂.head (by decide)] at hretire
      cases hretire

omit [DecidableEq Addr] in
theorem Iterator.following_mem {h : Heap Addr Key} {a : Addr} (pos : Iterator Key)
    (hf : pos.following C h N = some a) : a ∈ h.regular N := by
  unfold Iterator.following at hf
  split at hf
  · cases hf
  · have hmem := List.mem_of_mem_tail (List.mem_of_mem_head? hf)
    exact (List.dropWhile_sublist _).subset hmem

omit [DecidableEq Addr] in
/-- An iterator that has moved to an element. -/
theorem Iterator.moved_into {a : Addr} {i : Iterator Key} (hC : C.Lawful) (hend : i.isEnd = false)
    (hs : Stores C w.heap N) (ha : a ∈ w.heap.regular N) (hs' : Stores C u.heap N')
    (ha' : (a, w.heap.key a) ∈ u.heap.elements N') :
    (i.moved w.heap (some a)).Into C u.heap (some (a, w.heap.key a)) := by
  obtain ⟨b, hb, heq⟩ := List.mem_map.mp ha'
  obtain ⟨rfl, hkey⟩ := Prod.mk.inj heq
  obtain ⟨hbN, hbr⟩ := Heap.mem_regular.mp ha
  exact ⟨hend, ⟨hs.keyed b hbN hbr, .inr rfl⟩, hC.refl _, hkey, N', hs', hb⟩

/-- What `erase(pos)` does to an element. -/
theorem eraseAt_element_returns {s : Loaded Addr Key} (hC : C.Lawful) (h : Between C s.world N)
    (hend : pos.isEnd = false) (hi : pos.Hashed C) (ht : t ∈ s.world.heap.regular N)
    (hk : C.eq (s.world.heap.key t) pos.key = true) :
    Returns ((unordered Addr C).eraseAt pos s) fun r =>
      (s.world.choices.Calm → r.1.isSome = true) ∧ ∀ next, r.1 = some next →
        (unordered Addr C).Erased (s.world.heap.elements N) (some (t, s.world.heap.key t)) next
          r.2 := by
  obtain ⟨R, R', hreg⟩ := List.append_of_mem ht
  apply (Ends.returns Solo.of_executes
    (ends_unbounded (eraseAt_element hC h hend hi hreg hk))).map
  rintro ⟨r, v⟩ hr
  cases r with
  | none => exact ⟨fun hcalm => absurd hcalm hr, nofun⟩
  | some j =>
    obtain ⟨N₁, hs₁, hel, rfl⟩ := hr
    refine ⟨fun _ => rfl, ?_⟩
    rintro next hnext
    obtain rfl := Option.some.inj hnext
    let pair : Addr → Addr × Key := fun b => (b, s.world.heap.key b)
    refine ⟨R.map pair, R'.map pair, ?_, ⟨N₁, hs₁, ?_⟩, ?_⟩
    · show (s.world.heap.regular N).map pair = _
      rw [hreg, List.map_append]
      rfl
    · rw [← List.map_append]
      exact hel
    · cases R' with
      | nil => exact ⟨rfl, .inl hi⟩
      | cons b R' =>
        refine Iterator.moved_into hC rfl h.stores (by simp [hreg]) hs₁ ?_
        show _ ∈ v.heap.elements N₁
        rw [hel]
        simp

/-- What `erase(pos)` does to an end iterator. -/
theorem eraseAt_end_returns {s : Loaded Addr Key} (hC : C.Lawful) (h : Between C s.world N)
    (hend : pos.isEnd = true) (hi : pos.Hashed C ∨ pos.mixed = 0 ∧ pos.sk = 0) :
    Returns ((unordered Addr C).eraseAt pos s) fun r =>
      (s.world.choices.Calm → r.1.isSome = true) ∧ ∀ next, r.1 = some next →
        (unordered Addr C).Elements r.2 (s.world.heap.elements N) ∧
          ∃ e', (unordered Addr C).Into r.2 next e' ∧ (e' = none ↔ pos.Last C s.world.heap) := by
  apply (Ends.returns Solo.of_executes (ends_unbounded (eraseAt_end hC h hend hi))).map
  rintro ⟨r, u⟩ hr
  cases r with
  | none =>
    obtain ⟨m, hst⟩ := hr
    exact ⟨fun hcalm => (hcalm.not_starved hst.starved).elim, nofun⟩
  | some j =>
    obtain ⟨N₁, new, hg, rfl⟩ := hr
    refine ⟨fun _ => rfl, ?_⟩
    rintro next hnext
    obtain rfl := Option.some.inj hnext
    replace hg : Grows C s.world u N N₁ new := hg
    have hel := hg.elements h.stores
    refine ⟨⟨N₁, hg.stores, hel⟩, (pos.following C s.world.heap N).map
      fun a => (a, s.world.heap.key a), ?_, ?_⟩
    · cases hf : pos.following C s.world.heap N with
      | none => exact ⟨rfl, hi⟩
      | some a =>
        have ha := pos.following_mem hf
        refine Iterator.moved_into hC rfl h.stores ha hg.stores ?_
        show _ ∈ u.heap.elements N₁
        rw [hel]
        exact List.mem_map_of_mem ha
    · rw [Option.map_eq_none_iff, Iterator.following, ite_eq_left_iff]
      constructor
      · intro hlast
        by_cases hsk : pos.sk = 0
        · exact .inl hsk
        · exact .inr ⟨N, h.stores, hlast hsk⟩
      · rintro (hsk | ⟨N', hN', hlast⟩) hne
        · exact absurd hsk hne
        · rw [h.stores.unique hN']
          exact hlast

theorem unordered_resumes (hC : C.Lawful) : (unordered Addr C).Resumes where
  into_unique := by
    rintro s pos e e' he he' rfl
    cases e' with
    | none => rfl
    | some t =>
      have h1 : pos.isEnd = true := he.1
      have h2 : pos.isEnd = false := he'.1
      rw [h1] at h2
      cases h2
  eraseAt := by
    rintro s L pos e hs ⟨N, hN, rfl⟩ he
    obtain ⟨N', h⟩ := (hs.stored hC).between
    obtain rfl := hN.unique h.stores
    cases e with
    | some t =>
      obtain ⟨a, key⟩ := t
      obtain ⟨hend, hi, hk, hkey, N', hN', ha⟩ := he
      obtain rfl := hN.unique hN'
      obtain rfl : s.world.heap.key a = key := hkey
      exact eraseAt_element_returns hC h hend hi ha hk
    | none => exact eraseAt_end_returns hC h he.1 he.2

end EraseAt

end MpmcMap.Unordered
