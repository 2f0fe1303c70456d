import MpmcMap.Unordered.Ranks

/-!
# The growth of the table

The thread that has set `growing_` is the only one that makes tables, publishes them and retires
them. So its compare-exchange on `table_` cannot fail, and the tables are published in the order of
their numbers, each twice as large as the one before. Any thread may fill an empty cell of a table
that has been published.
-/

namespace MpmcMap.Unordered

open Conc
open Prog (perform iterate)
open Function (update)

variable {Addr Key : Type} [DecidableEq Addr]

namespace Ranks

section Tables

variable {C : Config Key} {free : {β : Type} → Nat → Op Addr Key β → Heap Addr Key → Prop}
  {t u i : Nat} {M : List (Own Addr)} {l : List (Fact Addr)} {α : Type}
  {m : α → List (Own Addr)} {g : α → List (Fact Addr)} {s s' : Dated Addr Key} {d : Addr}
  {st : Stage} {e : Option Nat} {begun : Bool}

omit [DecidableEq Addr] in
/-- What a thread owns besides `growing_` does not depend on the tables. -/
theorem Own.holds_node {x : Own Addr} (h : x.holds t s) (hx : x.id ≠ none)
    (howner : s'.owner = s.owner) (hnext : s'.heap.next = s.heap.next)
    (hso : s'.heap.soKey = s.heap.soKey) : x.holds t s' := by
  cases x with
  | node b so next =>
    refine ⟨(congrFun howner b).trans h.1, fun w hw => ?_, fun p hp => ?_⟩
    · rw [hso]
      exact h.2.1 w hw
    · rw [hnext]
      exact h.2.2 p hp
  | lock st u begun => exact absurd rfl hx

omit [DecidableEq Addr] in
/-- Nobody else has set `growing_`. -/
theorem lock_eq {v : Nat} {st' : Stage} (h : s.lock = some (t, st)) (hv : s.lock = some (v, st')) :
    v = t := by
  rw [h] at hv
  exact (congrArg Prod.fst (Option.some.inj hv)).symm

omit [DecidableEq Addr] in
/-- A step of the growth, which nobody else is at. -/
theorem lock_step (h' : Heap Addr Key) (lock : Option (Nat × Stage)) (hi : Ranked s)
    (hmine : ∀ v st, s.lock = some (v, st) → v = t) (hgrown : Grown h' (lock.map Prod.snd))
    (hnodes : h'.next = s.heap.next ∧ h'.soKey = s.heap.soKey)
    (hinUse : h'.inUse = s.heap.inUse ∧ h'.pick = s.heap.pick) (htable : s.heap.table ≤ h'.table)
    (hbucket : ∀ u i d, h'.bucket u i = some d → s.heap.bucket u i = some d)
    (hkept : ∀ u i d, u ≤ s.heap.table → s.heap.bucket u i = some d → h'.bucket u i = some d) :
    Ranked { s with heap := h', lock := lock } ∧ Keeps t s { s with heap := h', lock := lock } := by
  obtain ⟨h1, h2⟩ := hnodes
  obtain ⟨h3, h4⟩ := hinUse
  have hk : Keeps t s { s with heap := h', lock := lock } := by
    constructor
    case linked => exact fun a ha => ⟨h3 ▸ ha.1, ha.2⟩
    case soKey => exact fun a _ => congrFun h2 a
    case date => exact fun _ _ => rfl
    case table => exact htable
    case bucket => exact hkept
    case node => exact fun _ _ a ha => ⟨ha, congrFun h1 a, congrFun h2 a⟩
    case lock => exact fun v hv st hst => absurd (hmine v st hst) hv
  have hcalm : Calm s.heap h' := ⟨h1, hbucket, h3, h4⟩
  exact ⟨⟨hi.toInOrder.calm hcalm h2, hgrown, fun u i d hd => hi.bound u i d (hbucket u i d hd)⟩, hk⟩

/-! ### Cells -/

omit [DecidableEq Addr] in
/-- A dummy is written to a cell that is empty, or to one of the table that the thread makes. -/
theorem setBucket_step {v : Option Addr} (hi : Ranked s)
    (hv : ∀ d, v = some d → s.Linked d ∧ s.heap.soKey d = dummySplitOrderKey i ∧ i < 2 ^ (u + 1))
    (hcell : (u = s.heap.table + 1 ∧ ∃ st, s.lock = some (t, st)) ∨
      u ≤ s.heap.table ∧ s.heap.bucket u i = none) :
    Ranked (s.withHeap (s.heap.setBucket u i v)) ∧
      Keeps t s (s.withHeap (s.heap.setBucket u i v)) := by
  -- a cell of a published table that is not empty keeps its dummy
  have hkept : ∀ w j d, w ≤ s.heap.table → s.heap.bucket w j = some d →
      (s.heap.setBucket u i v).bucket w j = some d := by
    intro w j d hw hd
    rw [bucket_setBucket, if_neg, hd]
    rintro ⟨rfl, rfl⟩
    rcases hcell with ⟨rfl, -⟩ | ⟨-, hnone⟩
    · exact Nat.not_succ_le_self _ hw
    · rw [hnone] at hd
      cases hd
  have hk : Keeps t s (s.withHeap (s.heap.setBucket u i v)) := by
    constructor
    case linked => exact fun _ h => h
    case soKey => exact fun _ _ => rfl
    case date => exact fun _ _ => rfl
    case table => exact Nat.le_refl _
    case bucket => exact hkept
    case node => exact fun _ _ _ h => ⟨h, rfl, rfl⟩
    case lock =>
      intro w hw st hst
      refine ⟨hst, rfl, ?_⟩
      funext j
      show (s.heap.setBucket u i v).bucket _ j = _
      rw [bucket_setBucket, if_neg]
      rintro ⟨hu, -⟩
      rcases hcell with ⟨-, st', hst'⟩ | ⟨hle, -⟩
      · exact hw (lock_eq hst' hst)
      · exact Nat.not_succ_le_self _ (hu ▸ hle)
  refine ⟨?_, hk⟩
  constructor
  case toInOrder =>
    have hsmall := hi.grown.small
    have hmade := hi.grown.lt_tables (Nat.le_refl _)
    have hu : 2 ^ (u + 1) ≤ 2 ^ 63 := Nat.pow_le_pow_right (by decide) (by omega)
    refine hi.toInOrder.setBucket fun d hd => ?_
    obtain ⟨hlinked, hkey, hlt⟩ := hv d hd
    exact ⟨hlinked, hkey, hlt.trans_le hu⟩
  case grown =>
    refine hi.grown.congr ⟨rfl, rfl, rfl⟩ ⟨rfl, rfl⟩ fun w hw hsome => ?_
    obtain ⟨d, hd⟩ := Option.isSome_iff_exists.mp hsome
    show ((s.heap.setBucket u i v).bucket w 0).isSome = true
    rw [hkept w 0 d hw hd]
    rfl
  case bound =>
    intro w j d hd
    have hd : (s.heap.setBucket u i v).bucket w j = some d := hd
    rw [bucket_setBucket] at hd
    split at hd
    · next hwj =>
      rw [hwj.1, hwj.2]
      exact (hv d hd).2.2
    · exact hi.bound w j d hd

/-- A dummy is published in its bucket. -/
theorem Spec.casBucket {k : Bool → Code Addr Key α} (hu : .table u ∈ l)
    (hd : .keyed d (dummySplitOrderKey i) ∈ l) (hi : i < 2 ^ (u + 1))
    (hk : ∀ r, Spec C free t M (.filled u i :: l) (k r) m g) :
    Spec C free t M l (.act (.casBucket u i d) k) m g := by
  refine .act (enabled rfl) (fun _ => M) (fun _ => [.filled u i]) (fun s b r h' his h hact => ?_) hk
  have hpub : u ≤ s.heap.table := h.knows _ hu
  obtain ⟨hlinked, hkey⟩ : s.Linked d ∧ s.heap.soKey d = _ := h.knows _ hd
  simp only [Op.apply] at hact
  split at hact <;> cases hact
  · next hnone =>
    have hv : ∀ c, some d = some c →
        s.Linked c ∧ s.heap.soKey c = dummySplitOrderKey i ∧ i < 2 ^ (u + 1) := by
      rintro c ⟨⟩
      exact ⟨hlinked, hkey, hi⟩
    obtain ⟨hi', hg⟩ := setBucket_step (t := t) his hv (.inr ⟨hpub, hnone⟩)
    refine ⟨_, rfl, hi', hg, h.nodup, fun x hx => Own.holds_all (fun w =>
      (setBucket_step (t := w) his hv (.inr ⟨hpub, hnone⟩)).2) (h.own x hx), fun f hf => ?_⟩
    obtain rfl := List.mem_singleton.mp hf
    refine ⟨hpub, ?_⟩
    show ((s.heap.setBucket u i (some d)).bucket u i).isSome = true
    rw [bucket_setBucket, if_pos ⟨rfl, rfl⟩]
    rfl
  · next hsome =>
    refine ⟨s, rfl, his, Keeps.rfl, h.nodup, h.own, fun f hf => ?_⟩
    obtain rfl := List.mem_singleton.mp hf
    exact ⟨hpub, Option.isSome_iff_ne_none.mpr hsome⟩

/-- The cells of the new table are copied, the first one first. -/
theorem Spec.storeBucket {v : Option Addr} {k : Unit → Code Addr Key α}
    (hv : ∀ d, v = some d → .keyed d (dummySplitOrderKey i) ∈ l) (hi : i < 2 ^ (u + 2))
    (h0 : i = 0 → v.isSome = true) (hbegun : begun = true ∨ i = 0)
    (hk : Spec C free t (.lock st (some u) true :: M) l (k ()) m g) :
    Spec C free t (.lock st (some u) begun :: M) l (.act (.storeBucket (u + 1) i v) k) m g := by
  refine .act (enabled rfl) (fun _ => .lock st (some u) true :: M) (fun _ => [])
    (fun s b r h' his h hact => ?_)
    fun _ => hk
  cases hact
  obtain ⟨hlock, htable, hfirst⟩ := h.own _ List.mem_cons_self
  obtain rfl := htable u rfl
  have hv' : ∀ d, v = some d → s.Linked d ∧ s.heap.soKey d = dummySplitOrderKey i ∧
      i < 2 ^ (s.heap.table + 1 + 1) := by
    intro d hd
    obtain ⟨hlinked, hkey⟩ : s.Linked d ∧ s.heap.soKey d = _ := h.knows _ (hv d hd)
    exact ⟨hlinked, hkey, hi⟩
  obtain ⟨hi', hg⟩ := setBucket_step (t := t) his hv' (.inl ⟨rfl, st, hlock⟩)
  refine ⟨_, rfl, hi', hg, h.nodup, fun x hx => ?_, fun f hf => by cases hf⟩
  rcases List.mem_cons.mp hx with rfl | hx
  · refine ⟨hlock, htable, fun _ => ?_⟩
    show ((s.heap.setBucket _ i v).bucket (s.heap.table + 1) 0).isSome = true
    rw [bucket_setBucket]
    split
    · next hi0 => exact h0 hi0.2.symm
    · next hi0 => exact hfirst (hbegun.resolve_right fun hi => hi0 ⟨rfl, hi.symm⟩)
  · exact Own.holds_node (h.own x (List.mem_cons_of_mem _ hx)) (h.ne_head hx) rfl rfl rfl

/-! ### The growth -/

omit [DecidableEq Addr] in
/-- Nobody has set `growing_`. -/
theorem Ranked.lock_none (hi : Ranked s) (hg : s.heap.growing = false) : s.lock = none := by
  have hstands := hi.grown.stands
  cases hl : s.lock with
  | none => rfl
  | some x =>
    obtain ⟨v, st⟩ := x
    rw [hl] at hstands
    cases st <;> exact absurd (hg.symm.trans hstands.1) (by simp)

theorem Spec.casGrowing {k : Bool → Code Addr Key α}
    (hyes : Spec C free t (.lock .idle none false :: M) l (k true) m g)
    (hno : Spec C free t M l (k false) m g) : Spec C free t M l (.act .casGrowing k) m g := by
  refine .act (enabled rfl) (fun r => if r then .lock .idle none false :: M else M) (fun _ => [])
    (fun s b r h' hi h hact => ?_) fun r => by cases r <;> assumption
  simp only [Op.apply] at hact
  split at hact <;> cases hact
  · exact ⟨s, rfl, hi, Keeps.rfl, h.nodup, h.own, fun f hf => by cases hf⟩
  · next hgrowing =>
    have hnone := hi.lock_none (Bool.not_eq_true _ ▸ hgrowing)
    have hnode : ∀ x ∈ M, x.id ≠ none := by
      rintro (⟨a, so, next⟩ | ⟨st, v, begun⟩) hx
      · exact fun he => by cases he
      · have hlock := (h.own _ hx).1
        rw [hnone] at hlock
        cases hlock
    have hstands := hi.grown.stands
    rw [hnone] at hstands
    obtain ⟨hi', hg⟩ := lock_step (t := t)
      { s.heap with growing := true } (some (t, .idle)) hi
      (fun v st hv => by rw [hnone] at hv; cases hv)
      ⟨⟨rfl, hstands.2⟩, hi.grown.size, hi.grown.small, hi.grown.head⟩ ⟨rfl, rfl⟩ ⟨rfl, rfl⟩
      (Nat.le_refl _) (fun _ _ _ h => h) fun _ _ _ _ h => h
    refine ⟨_, rfl, hi', hg, List.nodup_cons.mpr ⟨fun hmem => ?_, h.nodup⟩, fun x hx => ?_,
      fun f hf => by cases hf⟩
    · obtain ⟨x, hx, he⟩ := List.mem_map.mp hmem
      exact hnode x hx he
    · rcases List.mem_cons.mp hx with rfl | hx
      · exact ⟨rfl, fun _ hv => (by cases hv), fun hb => (by cases hb)⟩
      · exact Own.holds_node (h.own x hx) (hnode x hx) rfl rfl rfl

/-- The current table does not change meanwhile. -/
theorem Spec.loadLocked {k : Nat → Code Addr Key α}
    (hk : ∀ u, Spec C free t (.lock st (some u) begun :: M) (.table u :: l) (k u) m g) :
    Spec C free t (.lock st e begun :: M) l (.act .loadTable k) m g := by
  refine .act (enabled rfl) (fun u => .lock st (some u) begun :: M) (fun u => [.table u])
    (fun s b r h' hi h hact => ?_) hk
  cases hact
  refine ⟨s, rfl, hi, Keeps.rfl, h.nodup, fun x hx => ?_, fun f hf => ?_⟩
  · rcases List.mem_cons.mp hx with rfl | hx
    · obtain ⟨hlock, -, hfirst⟩ := h.own _ List.mem_cons_self
      exact ⟨hlock, fun v hv => Option.some.inj hv, hfirst⟩
    · exact h.own x (List.mem_cons_of_mem _ hx)
  · obtain rfl := List.mem_singleton.mp hf
    exact Nat.le_refl _

/-- A step of the growth that the thread is at. -/
theorem Spec.growth {β : Type} {o : Op Addr Key β} {k : β → Code Addr Key α} {r₀ : β}
    {st' : Stage} {e' : Option Nat} (ho : Op.performs o = true)
    (hstep : ∀ (s : Dated Addr Key) b r h', Ranked s → (Own.lock st e begun).holds t s →
      o.apply b s.heap = some (r, h') → r = r₀ ∧ Grown h' (some st') ∧
      (h'.next = s.heap.next ∧ h'.soKey = s.heap.soKey) ∧
      (h'.inUse = s.heap.inUse ∧ h'.pick = s.heap.pick) ∧ s.heap.table ≤ h'.table ∧
      (∀ u i d, h'.bucket u i = some d → s.heap.bucket u i = some d) ∧
      (∀ u i d, u ≤ s.heap.table → s.heap.bucket u i = some d → h'.bucket u i = some d) ∧
      ∀ v, e' = some v → h'.table = v)
    (hk : Spec C free t (.lock st' e' false :: M) l (k r₀) m g) :
    Spec C free t (.lock st e begun :: M) l (.act o k) m g := by
  refine .act (enabled ho) (fun _ => .lock st' e' false :: M) (fun r => [.pure (r = r₀)])
    (fun s b r h' hi h hact => ?_) fun r => .assume (φ := r = r₀) (by simp) ?_
  · have hlock := h.own _ List.mem_cons_self
    obtain ⟨hr, hgrown, hnodes, hinUse, htable, hbucket, hkept, he⟩ := hstep s b r h' hi hlock hact
    obtain ⟨hi', hg⟩ := lock_step (t := t) h' (some (t, st')) hi
      (fun v w hv => lock_eq hlock.1 hv) hgrown hnodes hinUse htable hbucket hkept
    refine ⟨_, rfl, hi', hg, h.nodup, fun x hx => ?_, fun f hf => ?_⟩
    · rcases List.mem_cons.mp hx with rfl | hx
      · exact ⟨rfl, he, fun hb => by cases hb⟩
      · exact Own.holds_node (h.own x (List.mem_cons_of_mem _ hx)) (h.ne_head hx) rfl hnodes.1
          hnodes.2
    · obtain rfl := List.mem_singleton.mp hf
      exact hr
  · rintro rfl s hi h
    exact hk s hi (h.mono (List.subset_append_right _ _))

theorem Spec.newTable {k : Nat → Code Addr Key α} (hu : u + 1 < 30)
    (hk : Spec C free t (.lock .making (some u) false :: M) l (k (u + 1)) m g) :
    Spec C free t (.lock .idle (some u) begun :: M) l (.act (.newTable (2 ^ (u + 2))) k) m g := by
  refine .growth rfl (fun s b r h' hi h hact => ?_) hk
  cases hact
  obtain ⟨hlock, htable, -⟩ := h
  obtain rfl := htable u rfl
  have hgrown := hi.grown
  rw [hlock] at hgrown
  obtain ⟨hgrowing, htables, hretired⟩ := hgrown.stands
  have hne : ∀ v, v ≤ s.heap.table → v ≠ s.heap.tables := by omega
  refine ⟨htables, ⟨⟨hgrowing, ?_, hretired⟩, fun v hv => ?_, ?_, fun v hv => ?_⟩, ⟨rfl, rfl⟩,
    ⟨rfl, rfl⟩, Nat.le_refl _, fun v i d hd => ?_, fun v i d hv hd => ?_, htable⟩
  · show s.heap.tables + 1 = _
    rw [htables]
  · show update s.heap.size s.heap.tables (2 ^ (s.heap.table + 2)) v = _
    by_cases hvt : v = s.heap.tables
    · rw [hvt, Function.update_self, htables]
    · rw [Function.update_of_ne hvt]
      exact hgrown.size v (Nat.lt_of_le_of_ne (Nat.lt_succ_iff.mp hv) hvt)
  · show s.heap.tables + 1 ≤ 30
    omega
  · show (update s.heap.bucket s.heap.tables (fun _ => none) v 0).isSome = true
    rw [Function.update_of_ne (hne v hv)]
    exact hgrown.head v hv
  · have hd : update s.heap.bucket s.heap.tables (fun _ => none) v i = some d := hd
    by_cases hvt : v = s.heap.tables
    · rw [hvt, Function.update_self] at hd
      cases hd
    · rwa [Function.update_of_ne hvt] at hd
  · show update s.heap.bucket s.heap.tables (fun _ => none) v i = some d
    rw [Function.update_of_ne (hne v hv)]
    exact hd

/-- The table that the thread has made is published. -/
theorem Spec.casTable {k : Bool → Code Addr Key α}
    (hk : Spec C free t (.lock .pending (some (u + 1)) false :: M) l (k true) m g) :
    Spec C free t (.lock .making (some u) true :: M) l (.act (.casTable u (u + 1)) k) m g := by
  refine .growth rfl (fun s b r h' hi h hact => ?_) hk
  obtain ⟨hlock, htable, hfirst⟩ := h
  obtain rfl := htable u rfl
  simp only [Op.apply, if_true] at hact
  cases hact
  have hgrown := hi.grown
  rw [hlock] at hgrown
  obtain ⟨hgrowing, htables, hretired⟩ := hgrown.stands
  refine ⟨rfl, ⟨⟨hgrowing, htables, Nat.succ_pos _, hretired⟩, hgrown.size, hgrown.small,
    fun v hv => ?_⟩, ⟨rfl, rfl⟩, ⟨rfl, rfl⟩, Nat.le_succ _, fun _ _ _ h => h, fun _ _ _ _ h => h,
    fun v hv => Option.some.inj hv⟩
  rcases Nat.le_succ_iff.mp hv with hv | rfl
  · exact hgrown.head v hv
  · exact hfirst rfl

/-- The old table is retired. -/
theorem Spec.retireTable {k : Unit → Code Addr Key α}
    (hk : Spec C free t (.lock .idle (some (u + 1)) false :: M) l (k ()) m g) :
    Spec C free t (.lock .pending (some (u + 1)) begun :: M) l (.act (.retireTable u) k) m g := by
  refine .growth rfl (fun s b r h' hi h hact => ?_) hk
  cases hact
  obtain ⟨hlock, htable, -⟩ := h
  have hu := htable (u + 1) rfl
  have hgrown := hi.grown
  rw [hlock] at hgrown
  obtain ⟨hgrowing, htables, -, hretired⟩ := hgrown.stands
  refine ⟨rfl, ⟨⟨hgrowing, htables, ?_⟩, hgrown.size, hgrown.small, hgrown.head⟩, ⟨rfl, rfl⟩,
    ⟨rfl, rfl⟩, Nat.le_refl _, fun _ _ _ h => h, fun _ _ _ _ h => h, htable⟩
  show s.heap.retiredTables ++ [u] = List.range s.heap.table
  rw [hretired, hu, List.range_succ, Nat.add_sub_cancel]

/-- The growth is over. -/
theorem Spec.storeGrowing {k : Unit → Code Addr Key α} (hk : Spec C free t M l (k ()) m g) :
    Spec C free t (.lock .idle e begun :: M) l (.act (.storeGrowing false) k) m g := by
  refine .act (enabled rfl) (fun _ => M) (fun _ => []) (fun s b r h' hi h hact => ?_) fun _ => hk
  cases hact
  have hlock := (h.own _ List.mem_cons_self).1
  have hgrown := hi.grown
  rw [hlock] at hgrown
  obtain ⟨hi', hg⟩ := lock_step (t := t) { s.heap with growing := false } none hi
    (fun v w hv => lock_eq hlock hv)
    ⟨⟨rfl, hgrown.stands.2⟩, hgrown.size, hgrown.small, hgrown.head⟩ ⟨rfl, rfl⟩ ⟨rfl, rfl⟩
    (Nat.le_refl _) (fun _ _ _ h => h) fun _ _ _ _ h => h
  exact ⟨_, rfl, hi', hg, (List.nodup_cons.mp h.nodup).2, fun x hx =>
    Own.holds_node (h.own x (List.mem_cons_of_mem _ hx)) (h.ne_head hx) rfl rfl rfl,
    fun f hf => by cases hf⟩

end Tables

end Ranks

end MpmcMap.Unordered
