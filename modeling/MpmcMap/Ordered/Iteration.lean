import MpmcMap.Ordered.EraseAt

/-!
# Iteration of the ordered containers

An iterator holds a key and no node: each increment descends from the root again, in whatever tree
there is by then. Between two increments there may be any complete calls.
-/

namespace MpmcMap.Ordered

open Conc RedBlack Maps

variable {Key : Type}

/-! ## The runs -/

/-- `begin()`; `end()` has a key of its own. -/
def beginIterator {Addr : Type} (endKey : Key) : Code Addr Key (Iterator Key) := do
  match ← firstNode with
  | some key => return ⟨false, key⟩
  | none => return ⟨true, endKey⟩

/-- A complete call. -/
inductive Called (cmp : Key → Key → Bool) (h : Heap Ptr Key) : Heap Ptr Key → Prop where
  | request {h' : Heap Ptr Key} {q : Request Ptr Key} {fuel : Nat} {r : Answer Ptr Key} :
      (∀ n k, q = .insert n k → h.Unlinked n) →
      (q.code cmp).run (fun o h => o.perform h) fuel (q.prepare h) = some (r, h') → Called cmp h h'
  | emplace {h' : Heap Ptr Key} {n : Ptr} {k : Key} {fuel : Nat} {r : Bool} : h.Unlinked n →
      (emplace cmp n k).run (fun o h => o.perform h) fuel (h.create n k) = some (r, h') →
      Called cmp h h'

/-- A loop over the container, up to some point: the iterators so far, each with the state in which
it was produced, the latest one first, and the state. -/
inductive Iteration (cmp : Key → Key → Bool) :
    List (Iterator Key × Heap Ptr Key) → Heap Ptr Key → Prop where
  | begin {h h' : Heap Ptr Key} {i : Iterator Key} {endKey : Key} {fuel : Nat} : Reached cmp h →
      (beginIterator endKey).run (fun o h => o.perform h) fuel h = some (i, h') →
      Iteration cmp [(i, h')] h'
  | call {its : List (Iterator Key × Heap Ptr Key)} {h h' : Heap Ptr Key} :
      Iteration cmp its h → Called cmp h h' → Iteration cmp its h'
  | next {its : List (Iterator Key × Heap Ptr Key)} {i j : Iterator Key} {g h h' : Heap Ptr Key}
      {fuel : Nat} : Iteration cmp ((i, g) :: its) h → i.isEnd = false →
      (i.advance cmp).run (fun o h => o.perform h) fuel h = some (j, h') →
      Iteration cmp ((j, h') :: (i, g) :: its) h'

/-- The keys that a loop has visited, in order. -/
def visited (its : List (Iterator Key × Heap Ptr Key)) : List Key :=
  (its.reverse.filter fun p => !p.1.isEnd).map fun p => p.1.key

/-- The container has the key `k`. -/
def Heap.Has (cmp : Key → Key → Bool) (h : Heap Ptr Key) (k : Key) : Prop :=
  ∃ L, h.Entries L ∧ ∃ e ∈ L, cmp e.1 k = false ∧ cmp k e.1 = false

/-! ## What the iterators see -/

section

variable {cmp : Key → Key → Bool} {h h' g : Heap Ptr Key} {t : PtrTree Ptr} {k endKey : Key}
  {i j : Iterator Key} {its : List (Iterator Key × Heap Ptr Key)} {m : SortedMap cmp Ptr}

theorem Reached.called (hr : Reached cmp h) (hc : Called cmp h h') : Reached cmp h' := by
  cases hc with
  | request hn hrun => exact hr.call hn hrun
  | emplace hn hrun => exact hr.emplace hn hrun

/-- `begin()` is an iterator to the least entry. -/
theorem beginIterator_ends (endKey : Key) (hq : Quiet m h t) : Ends sequential
    (fun i h' => h' = h ∧ i = match m.entries.head? with
      | some e => ⟨false, e.1⟩
      | none => ⟨true, endKey⟩) (beginIterator endKey) h := by
  apply Ends.bind (steady_sequential (firstNode_spec hq.rest.unlocked hq.rest.root hq.rest.fits))
  rintro r h' ⟨rfl, rfl⟩
  rw [hq.entries]
  cases m.entries.head? with
  | none => exact Ends.ret ⟨rfl, rfl⟩
  | some e => exact Ends.ret ⟨rfl, rfl⟩

variable [StrictWeakOrder cmp]

/-- The least entry is not above a key that is there. -/
theorem head_le {L : List (Key × Ptr)} (hs : Sorted cmp L) {e e' : Key × Ptr}
    (he : L.head? = some e) (he' : e' ∈ L) : cmp e'.1 e.1 = false := by
  cases L with
  | nil => cases he
  | cons d L =>
    cases he
    rcases List.mem_cons.mp he' with rfl | hmem
    · exact StrictWeakOrder.irrefl _
    · exact StrictWeakOrder.asymm ((List.pairwise_cons.mp hs).1 e' hmem)

/-- The next entry is not above a greater key that is there. -/
theorem next_le {L : List (Key × Ptr)} (hs : Sorted cmp L) {e e' : Key × Ptr}
    (he : L.find? (fun e => cmp k e.1) = some e) (he' : e' ∈ L) (hk : cmp k e'.1 = true) :
    cmp e'.1 e.1 = false := by
  obtain ⟨-, A, B, rfl, hA⟩ := List.find?_eq_some_iff_append.mp he
  rcases List.mem_append.mp he' with hmem | hmem
  · have := hA e' hmem
    simp [hk] at this
  · exact head_le (List.pairwise_append.mp hs).2.1 rfl hmem

/-- What is not above a key is not above an equivalent one. -/
theorem not_lt_of_equiv {a b : Key} (hab : cmp a b = false) (h1 : cmp a k = false)
    (h2 : cmp k a = false) : cmp k b = false := by
  by_contra hlt
  have := StrictWeakOrder.lt_of_equiv_of_lt h1 h2 (by simpa using hlt)
  rw [hab] at this
  cases this

/-- The state of a loop at the iterator `i`, produced in `g`. -/
structure Sweeps (cmp : Key → Key → Bool) (i : Iterator Key) (g : Heap Ptr Key)
    (its : List (Iterator Key × Heap Ptr Key)) : Prop where
  open_before : ∀ p ∈ its, p.1.isEnd = false
  below : i.isEnd = false → ∀ p ∈ its, cmp p.1.key i.key = true
  increasing : its.Pairwise fun p q => cmp q.1.key p.1.key = true
  present : ∀ p ∈ (i, g) :: its, p.1.isEnd = false → ∃ L, p.2.Entries L ∧ ∃ e ∈ L, e.1 = p.1.key
  /-- What has been there all the time has been visited, up to the iterator. -/
  complete : ∀ k, (∀ p ∈ (i, g) :: its, p.2.Has cmp k) → (i.isEnd = true ∨ cmp i.key k = false) →
    ∃ p ∈ (i, g) :: its, p.1.isEnd = false ∧ cmp p.1.key k = false ∧ cmp k p.1.key = false

theorem sweeps_begin (hq : Quiet m h t)
    (hi : i = match m.entries.head? with
      | some e => ⟨false, e.1⟩
      | none => ⟨true, endKey⟩) : Sweeps cmp i h [] := by
  have hL := hq.represents
  refine ⟨by simp, by simp, List.Pairwise.nil, ?_, ?_⟩
  · intro p hp hend
    obtain rfl := List.mem_singleton.mp hp
    cases he : m.entries.head? with
    | none =>
      rw [he] at hi
      simp [hi] at hend
    | some e =>
      rw [he] at hi
      exact ⟨_, hL, e, List.mem_of_mem_head? he, by rw [hi]⟩
  · intro k hk hle
    obtain ⟨L, hL', e', he', h1, h2⟩ := hk _ List.mem_cons_self
    obtain rfl := hL'.unique hL
    cases he : m.entries.head? with
    | none =>
      rw [List.head?_eq_none_iff.mp he] at he'
      cases he'
    | some e =>
      rw [he] at hi
      subst hi
      exact ⟨_, List.mem_cons_self, rfl, hle.resolve_left (by simp),
        not_lt_of_equiv (head_le m.sorted he he') h1 h2⟩

theorem Sweeps.next (hs : Sweeps cmp i g its) (hend : i.isEnd = false) (hq : Quiet m h t)
    (hj : j = i.moved (m.entries.find? fun e => cmp i.key e.1)) :
    Sweeps cmp j h ((i, g) :: its) := by
  have hL := hq.represents
  have hopen : ∀ p ∈ (i, g) :: its, p.1.isEnd = false := List.forall_mem_cons.mpr
    ⟨hend, hs.open_before⟩
  have hincreasing : ((i, g) :: its).Pairwise fun p q => cmp q.1.key p.1.key = true :=
    List.pairwise_cons.mpr ⟨hs.below hend, hs.increasing⟩
  -- what is not above `i` has been visited before
  have hbefore : ∀ k, (∀ p ∈ (j, h) :: (i, g) :: its, p.2.Has cmp k) → cmp i.key k = false →
      ∃ p ∈ (j, h) :: (i, g) :: its,
        p.1.isEnd = false ∧ cmp p.1.key k = false ∧ cmp k p.1.key = false := by
    intro k hk hle
    obtain ⟨p, hp, hvisit⟩ :=
      hs.complete k (fun p hp => hk p (List.mem_cons_of_mem _ hp)) (.inr hle)
    exact ⟨p, List.mem_cons_of_mem _ hp, hvisit⟩
  -- what is above `i` is found in the tree of the increment
  have habove : ∀ k, (∀ p ∈ (j, h) :: (i, g) :: its, p.2.Has cmp k) → cmp i.key k = true →
      ∃ e ∈ m.entries, cmp i.key e.1 = true ∧ cmp e.1 k = false ∧ cmp k e.1 = false := by
    intro k hk hlt
    obtain ⟨L, hL', e, he, h1, h2⟩ := hk _ List.mem_cons_self
    obtain rfl := hL'.unique hL
    exact ⟨e, he, StrictWeakOrder.lt_of_lt_of_equiv hlt h2 h1, h1, h2⟩
  cases he : m.entries.find? fun e => cmp i.key e.1 with
  | none =>
    rw [he] at hj
    subst hj
    refine ⟨hopen, nofun, hincreasing, ?_, ?_⟩
    · exact List.forall_mem_cons.mpr ⟨nofun, hs.present⟩
    · intro k hk _
      cases hlt : cmp i.key k with
      | false => exact hbefore k hk hlt
      | true =>
        obtain ⟨e, hmem, hie, -⟩ := habove k hk hlt
        have := List.find?_eq_none.mp he e hmem
        exact absurd hie this
  | some e =>
    rw [he] at hj
    subst hj
    have hfound := List.find?_some he
    have hie : cmp i.key e.1 = true := hfound
    have hmem := List.mem_of_find?_eq_some he
    refine ⟨hopen, fun _ => ?_, hincreasing, ?_, ?_⟩
    · refine List.forall_mem_cons.mpr ⟨hie, fun p hp => ?_⟩
      exact StrictWeakOrder.lt_trans (hs.below hend p hp) hie
    · exact List.forall_mem_cons.mpr ⟨fun _ => ⟨_, hL, e, hmem, rfl⟩, hs.present⟩
    · intro k hk hle
      cases hlt : cmp i.key k with
      | false => exact hbefore k hk hlt
      | true =>
        obtain ⟨e', hmem', hie', h1, h2⟩ := habove k hk hlt
        exact ⟨_, List.mem_cons_self, hend, hle.resolve_left (by simp [Iterator.moved, hend]),
          not_lt_of_equiv (next_le m.sorted he hmem' hie') h1 h2⟩

/-- Every loop keeps these facts. -/
theorem Iteration.sweeps (hi : Iteration cmp its h) :
    Reached cmp h ∧ ∃ i g before, its = (i, g) :: before ∧ Sweeps cmp i g before := by
  induction hi with
  | begin hr hrun =>
    obtain ⟨m, t, hq⟩ := hr.quiet
    obtain ⟨rfl, hi⟩ := Ends.of_run sequential_executes (beginIterator_ends _ hq) hrun
    exact ⟨hr, _, _, [], rfl, sweeps_begin hq hi⟩
  | call _ hc ih => exact ⟨ih.1.called hc, ih.2⟩
  | next _ hend hrun ih =>
    obtain ⟨hr, i, g, before, heq, hs⟩ := ih
    obtain ⟨⟨rfl, rfl⟩, rfl⟩ : (_ ∧ _) ∧ _ := by simpa using heq
    obtain ⟨m, t, hq⟩ := hr.quiet
    obtain ⟨hj, rfl⟩ := Ends.of_run sequential_executes (Iterator.advance_ends hq _) hrun
    exact ⟨hr, _, _, _, rfl, hs.next hend hq hj⟩

omit [StrictWeakOrder cmp] in
/-- The visited keys are strictly increasing. -/
theorem Sweeps.visited_sorted (hs : Sweeps cmp i g its) :
    (visited ((i, g) :: its)).Pairwise fun a b => cmp a b = true := by
  rw [visited, List.pairwise_map, List.filter_reverse, List.pairwise_reverse]
  cases hend : i.isEnd with
  | true =>
    rw [List.filter_cons_of_neg (by simp [hend])]
    exact hs.increasing.filter _
  | false =>
    rw [List.filter_cons_of_pos (by simp [hend])]
    apply List.pairwise_cons.mpr
    refine ⟨fun p hp => hs.below hend p (List.mem_filter.mp hp).1, hs.increasing.filter _⟩

/-- Strictly increasing keys have at most one that is equivalent to `k`. -/
theorem countP_equiv_le {ks : List Key} (hs : ks.Pairwise fun a b => cmp a b = true) (k : Key) :
    ks.countP (fun a => !cmp a k && !cmp k a) ≤ 1 := by
  induction ks with
  | nil => simp
  | cons a ks ih =>
    obtain ⟨ha, hks⟩ := List.pairwise_cons.mp hs
    cases hk : !cmp a k && !cmp k a with
    | false =>
      rw [List.countP_cons, hk]
      exact ih hks
    | true =>
      have hzero : ks.countP (fun a => !cmp a k && !cmp k a) = 0 := by
        rw [List.countP_eq_zero]
        intro b hb
        simp only [Bool.and_eq_true, Bool.not_eq_true'] at hk
        have hkb := StrictWeakOrder.lt_of_equiv_of_lt hk.2 hk.1 (ha b hb)
        simp [hkb]
      rw [List.countP_cons, hzero, hk]
      rfl

theorem mem_visited {p : Iterator Key × Heap Ptr Key} (hp : p ∈ its) (hend : p.1.isEnd = false) :
    p.1.key ∈ visited its := by
  rw [visited, List.mem_map]
  exact ⟨p, List.mem_filter.mpr ⟨List.mem_reverse.mpr hp, by simp [hend]⟩, rfl⟩

end

/-- In every loop over the container with complete calls between the increments, every increment
returns, the visited keys are strictly increasing, each of them was there when it was visited, and
once the loop has come to the end every key that was there at `begin()` and at each increment has
been visited exactly once. -/
theorem iteration_weakly_consistent {Key : Type} (cmp : Key → Key → Bool) [StrictWeakOrder cmp]
    (its : List (Iterator Key × Heap Ptr Key)) (h : Heap Ptr Key) (hi : Iteration cmp its h) :
    (∀ i : Iterator Key, ∃ N, ∀ fuel, N ≤ fuel → ∃ j,
      (i.advance cmp).run (fun o h => o.perform h) fuel h = some (j, h)) ∧
    (visited its).Pairwise (fun a b => cmp a b = true) ∧
    (∀ p ∈ its, p.1.isEnd = false → ∃ L, p.2.Entries L ∧ ∃ e ∈ L, e.1 = p.1.key) ∧
    ((∃ p ∈ its, p.1.isEnd = true) → ∀ k, (∀ p ∈ its, p.2.Has cmp k) →
      (visited its).countP (fun a => !cmp a k && !cmp k a) = 1) := by
  obtain ⟨hr, i, g, before, rfl, hs⟩ := hi.sweeps
  obtain ⟨m, t, hq⟩ := hr.quiet
  refine ⟨fun i => ?_, hs.visited_sorted, hs.present, ?_⟩
  · obtain ⟨N, j, h', hrun, -, rfl⟩ := Ends.runs sequential_executes (i.advance_ends hq)
    exact ⟨N, fun fuel hfuel => ⟨j, Prog.run_le hfuel hrun⟩⟩
  · rintro ⟨p, hp, hend⟩ k hk
    -- only the last iterator is an end iterator
    have hlast : i.isEnd = true := by
      rcases List.mem_cons.mp hp with rfl | hp
      · exact hend
      · rw [hs.open_before p hp] at hend
        cases hend
    obtain ⟨q, hq, hopen, h1, h2⟩ := hs.complete k hk (.inl hlast)
    have hpos : 0 < (visited ((i, g) :: before)).countP fun a => !cmp a k && !cmp k a :=
      List.countP_pos_iff.mpr ⟨q.1.key, mem_visited hq hopen, by simp [h1, h2]⟩
    have hle := countP_equiv_le hs.visited_sorted k
    omega

/-- Keys 1 and 2: key 1 is erased while the loop is at it, key 2 stays and is visited. -/
theorem iteration_weakly_consistent_run : ∃ (its : List (Iterator Nat × Heap Ptr Nat))
    (h : Heap Ptr Nat), visited its = [1, 2] ∧ h.Entries [(2, ptr 2)] ∧
    (∃ p ∈ its, p.1.isEnd = true) ∧ (∀ p ∈ its, p.2.Has natLess 2) ∧
    (∀ i : Iterator Nat, ∃ N, ∀ fuel, N ≤ fuel → ∃ j,
      (i.advance natLess).run (fun o h => o.perform h) fuel h = some (j, h)) ∧
    (visited its).Pairwise (fun a b => natLess a b = true) ∧
    (∀ p ∈ its, p.1.isEnd = false → ∃ L, p.2.Entries L ∧ ∃ e ∈ L, e.1 = p.1.key) ∧
    ((∃ p ∈ its, p.1.isEnd = true) → ∀ k, (∀ p ∈ its, p.2.Has natLess k) →
      (visited its).countP (fun a => !natLess a k && !natLess k a) = 1) := by
  have hq₀ := quiet_new natLess fun _ : Ptr => 0
  have hn₁ := hq₀.outside (n := ptr 1) (by simp [SortedMap.empty])
  obtain ⟨N₁, b₁, h₁, hrun₁, -, -, t₁, hq₁⟩ :=
    Ends.runs sequential_executes (emplace_seq (k := 1) hq₀ hn₁)
  have hn₂ := hq₁.outside (n := ptr 2) (by decide)
  obtain ⟨N₂, b₂, h₂, hrun₂, -, -, t₂, hq₂⟩ :=
    Ends.runs sequential_executes (emplace_seq (k := 2) hq₁ hn₂)
  obtain ⟨N₃, i, h₃, hrun₃, rfl, hi⟩ :=
    Ends.runs sequential_executes (beginIterator_ends 0 hq₂)
  obtain ⟨N₄, b₄, h₄, hrun₄, -, t₄, hq₄⟩ :=
    Ends.runs sequential_executes (code_seq small_ptr hq₂ (q := .erase 1) trivial)
  obtain ⟨N₅, j, h₅, hrun₅, hj, rfl⟩ := Ends.runs sequential_executes (i.advance_ends hq₄)
  obtain ⟨N₆, k, h₆, hrun₆, hk, rfl⟩ := Ends.runs sequential_executes (j.advance_ends hq₄)
  obtain rfl : i = ⟨false, 1⟩ := hi
  obtain rfl : j = ⟨false, 2⟩ := hj
  obtain rfl : k = ⟨true, 2⟩ := hk
  have hbegin : Iteration natLess [(_, h₃)] h₃ :=
    .begin (.emplace (.emplace (.new _) hn₁ hrun₁) hn₂ hrun₂) hrun₃
  have hcall : Iteration natLess [(_, h₃)] h₆ := .call hbegin (.request (by simp) hrun₄)
  have hloop := Iteration.next (.next hcall rfl hrun₅) rfl hrun₆
  -- key 2 is there at `begin()` and at both increments
  have hbefore : h₃.Has natLess 2 := ⟨_, hq₂.represents, (2, ptr 2), by decide, by decide, by decide⟩
  have hafter : h₆.Has natLess 2 := ⟨_, hq₄.represents, (2, ptr 2), by decide, by decide, by decide⟩
  refine ⟨_, h₆, rfl, hq₄.represents, ⟨_, List.mem_cons_self, rfl⟩, fun p hp => ?_,
    iteration_weakly_consistent natLess _ _ hloop⟩
  simp only [List.mem_cons, List.not_mem_nil, or_false] at hp
  obtain rfl | rfl | rfl := hp
  · exact hafter
  · exact hafter
  · exact hbefore

end MpmcMap.Ordered
