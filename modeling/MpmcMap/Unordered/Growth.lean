import MpmcMap.Unordered.Updates

/-!
# Growth in one thread

`grow_once` and `maybe_grow`, run alone: a bigger table with the same cells, and the list as it was,
whether or not an allocation throws on the way.
-/

namespace MpmcMap.Unordered

open Conc
open Prog (perform iterate)

variable {Addr Key : Type} [DecidableEq Addr] {C : Config Key}

/-- What `count_` is read as. -/
def Heap.counted (h : Heap Addr Key) : Nat := (h.count % 2 ^ 64).toNat

/-- A table of this size is doubled. -/
def Heap.Wants (h : Heap Addr Key) (force : Bool) (size : Nat) : Prop :=
  size < MAX_BUCKETS ∧ (force = true ∨ h.threshold size < h.counted)

/-- One of the doublings to come throws: `make_table` or `retire`. -/
def World.GrowthFails (w : World Addr Key) (force : Bool) : Prop :=
  ∃ i, (∀ j ≤ i, w.heap.Wants force (w.heap.size w.heap.table * 2 ^ j)) ∧
    ((w.choices .table)[i]? = some true ∨ (w.choices .retire)[i]? = some true)

/-- Only the table has changed. -/
structure Enlarges (w w' : World Addr Key) : Prop where
  next : w'.heap.next = w.heap.next
  soKey : w'.heap.soKey = w.heap.soKey
  key : w'.heap.key = w.heap.key
  inUse : w'.heap.inUse = w.heap.inUse
  pick : w'.heap.pick = w.heap.pick
  count : w'.heap.count = w.heap.count
  threshold : w'.heap.threshold = w.heap.threshold
  retired : w'.heap.retired = w.heap.retired
  freed : w'.heap.freed = w.heap.freed
  log : w'.log = w.log
  choices : ∀ c, c ≠ .table → c ≠ .retire → w'.choices c = w.choices c
  after : w.choices.After w'.choices

section

variable {w w' w'' u v : World Addr Key} {N : List Addr} {force : Bool}

omit [DecidableEq Addr] in
theorem enlarges_refl (w : World Addr Key) : Enlarges w w := by
  constructor
  all_goals first | rfl | exact fun _ _ _ => rfl | exact w.choices.after_refl

omit [DecidableEq Addr] in
theorem Enlarges.trans (h : Enlarges w w') (h' : Enlarges w' w'') : Enlarges w w'' where
  next := h'.next.trans h.next
  soKey := h'.soKey.trans h.soKey
  key := h'.key.trans h.key
  inUse := h'.inUse.trans h.inUse
  pick := h'.pick.trans h.pick
  count := h'.count.trans h.count
  threshold := h'.threshold.trans h.threshold
  retired := h'.retired.trans h.retired
  freed := h'.freed.trans h.freed
  log := h'.log.trans h.log
  choices := fun c h1 h2 => (h'.choices c h1 h2).trans (h.choices c h1 h2)
  after := h.after.trans h'.after

/-- The table has been doubled as long as that was wanted. -/
structure Resizes (w w' : World Addr Key) (force : Bool) : Prop extends Enlarges w w' where
  doubled : ∃ i, w'.heap.size w'.heap.table = w.heap.size w.heap.table * 2 ^ i ∧
    ∀ j < i, w.heap.Wants force (w.heap.size w.heap.table * 2 ^ j)
  cells : ∀ b < w.heap.size w.heap.table,
    w'.heap.bucket w'.heap.table b = w.heap.bucket w.heap.table b
  empty : ∀ b < w'.heap.size w'.heap.table, w.heap.size w.heap.table ≤ b →
    w'.heap.bucket w'.heap.table b = none

omit [DecidableEq Addr] in
theorem Enlarges.wants (h : Enlarges w w') (size : Nat) :
    w'.heap.Wants force size ↔ w.heap.Wants force size := by
  unfold Heap.Wants Heap.counted
  rw [h.threshold, h.count]

omit [DecidableEq Addr] in
/-- The table is the same one. -/
theorem Enlarges.resizes (h : Enlarges w w')
    (hsize : w'.heap.size w'.heap.table = w.heap.size w.heap.table)
    (hcells : w'.heap.bucket w'.heap.table = w.heap.bucket w.heap.table) :
    Resizes w w' force where
  toEnlarges := h
  doubled := ⟨0, by rw [hsize, Nat.pow_zero, Nat.mul_one], fun _ hj => by omega⟩
  cells := fun b _ => congrFun hcells b
  empty := by
    intro b hlt hle
    omega

omit [DecidableEq Addr] in
theorem Resizes.size_le (h : Resizes w w' force) :
    w.heap.size w.heap.table ≤ w'.heap.size w'.heap.table := by
  obtain ⟨i, hi, -⟩ := h.doubled
  rw [hi]
  exact Nat.le_mul_of_pos_right _ (Nat.two_pow_pos i)

omit [DecidableEq Addr] in
theorem Resizes.trans (h : Resizes w w' force) (h' : Resizes w' w'' force) :
    Resizes w w'' force where
  toEnlarges := h.toEnlarges.trans h'.toEnlarges
  doubled := by
    obtain ⟨i, hi, hwants⟩ := h.doubled
    obtain ⟨j, hj, hwants'⟩ := h'.doubled
    refine ⟨i + j, by rw [hj, hi, Nat.pow_add, Nat.mul_assoc], fun l hl => ?_⟩
    by_cases hli : l < i
    · exact hwants l hli
    · have hlast := (h.wants _).mp (hwants' (l - i) (by omega))
      rw [hi, Nat.mul_assoc, ← Nat.pow_add] at hlast
      rwa [Nat.add_sub_cancel' (by omega)] at hlast
  cells := by
    intro b hb
    rw [h'.cells b (hb.trans_le h.size_le), h.cells b hb]
  empty := by
    intro b hlt hle
    by_cases hb : b < w'.heap.size w'.heap.table
    · rw [h'.cells b hb]
      exact h.empty b hb hle
    · exact h'.empty b hlt (by omega)

/-! ## The copy of the cells -/

/-- The table `nt` has got the first `i` cells of `t`. -/
structure Copies (w u : World Addr Key) (t nt i : Nat) : Prop where
  heap : u.heap = { w.heap with bucket := u.heap.bucket }
  other : ∀ t', t' ≠ nt → u.heap.bucket t' = w.heap.bucket t'
  cells : ∀ b, u.heap.bucket nt b = if b < i then w.heap.bucket t b else w.heap.bucket nt b
  choices : u.choices = w.choices
  log : u.log = w.log

theorem copyCells_finishes {t nt sz : Nat} (hne : t ≠ nt) (ht : sz ≤ w.heap.size t)
    (hnt : sz ≤ w.heap.size nt) :
    Finishes (fun x u => x = some () ∧ Copies w u t nt sz) (copyCells t nt sz) w := by
  refine Exits.iterate (I := fun m i u => Copies w u t nt i ∧ i ≤ sz ∧ m = sz - i) wellFounded_lt
    (i := sz) ⟨⟨rfl, fun _ _ => rfl, fun b => by simp, rfl, rfl⟩, by omega, by omega⟩ ?_
  rintro m i u ⟨hc, hi, rfl⟩
  show Finishes _ (if i < sz then _ else _) u
  split
  · next hlt =>
    have hsize : u.heap.size = w.heap.size := by rw [hc.heap]
    refine Finishes.access rfl (loadBucket_bounded (by rw [hsize]; omega)) (Finishes.access rfl
      (if_pos (by rw [hsize]; omega)) (Exits.ret ⟨sz - (i + 1), by omega, ?_, by omega, rfl⟩))
    constructor
    · rw [hc.heap]
      rfl
    · intro t' ht'
      show Function.update _ _ _ _ = _
      rw [Function.update_of_ne ht']
      exact hc.other t' ht'
    · intro b
      show (u.heap.setBucket nt i (u.heap.bucket t i)).bucket nt b = _
      rw [Heap.setBucket_bucket, hc.cells, hc.other t hne]
      by_cases hbi : b = i
      · rw [if_pos hbi, if_pos (by omega), hbi]
      · rw [if_neg hbi]
        by_cases hlt : b < i
        · rw [if_pos hlt, if_pos (by omega)]
        · rw [if_neg hlt, if_neg (by omega)]
    · exact hc.choices
    · exact hc.log
  · next hge =>
    have hsz : i = sz := by omega
    exact Exits.ret ⟨rfl, hsz ▸ hc⟩

/-! ## Doubling -/

/-- The test of `grow_once`. -/
theorem roomy_reads (force : Bool) (t : Nat) :
    Reads (if force then return false else isRoomy t : Code Addr Key Bool)
      (!force && decide (w.heap.counted ≤ w.heap.threshold (w.heap.size t))) w := by
  cases force with
  | true => exact Reads.ret _ w
  | false => exact Finishes.access rfl rfl (Finishes.access rfl rfl (Finishes.access rfl rfl
      (Reads.ret _ w)))

omit [DecidableEq Addr] in
theorem wants_iff (h : Heap Addr Key) (force : Bool) (sz : Nat) :
    h.Wants force sz ↔ (!force && decide (h.counted ≤ h.threshold sz)) = false ∧
      ¬ MAX_BUCKETS ≤ sz := by
  unfold Heap.Wants
  cases force <;> simp [and_comm]

/-- The world after a doubling. -/
structure Doubles (w w' : World Addr Key) : Prop extends Enlarges w w' where
  table : w'.heap.table = w.heap.tables
  tables : w'.heap.tables = w.heap.tables + 1
  size : w'.heap.size w'.heap.table = w.heap.size w.heap.table * 2
  cells : ∀ b, w'.heap.bucket w'.heap.table b =
    if b < w.heap.size w.heap.table then w.heap.bucket w.heap.table b else none
  growing : w'.heap.growing = w.heap.growing
  cached : w'.heap.cachedThreshold = w.heap.cachedThreshold

/-- The list of the container while the flag `growing_` is up. -/
abbrev StoresGrowing (C : Config Key) (h : Heap Addr Key) (N : List Addr) : Prop :=
  Stores C { h with growing := false } N

omit [DecidableEq Addr] in
theorem Enlarges.stores (he : Enlarges w w') (hs : StoresGrowing C w.heap N)
    (hsize : ∃ j, 1 ≤ j ∧ j ≤ 30 ∧ w'.heap.size w'.heap.table = 2 ^ j)
    (hmade : w'.heap.table < w'.heap.tables)
    (hhead : w'.heap.bucket w'.heap.table 0 = w.heap.bucket w.heap.table 0)
    (hcells : ∀ b d, b < w'.heap.size w'.heap.table →
      w'.heap.bucket w'.heap.table b = some d → b < w.heap.size w.heap.table ∧
        w.heap.bucket w.heap.table b = some d) : StoresGrowing C w'.heap N where
  linked := he.next ▸ hs.linked
  nodup := hs.nodup
  sorted := he.soKey ▸ hs.sorted
  alive := he.inUse ▸ hs.alive
  size := hsize
  made := hmade
  head := by
    obtain ⟨d, hd, hb⟩ := hs.head
    exact ⟨d, hd, hhead.trans hb⟩
  filled := by
    intro b d hb hd
    obtain ⟨hb', hd'⟩ := hcells b d hb hd
    show d ∈ N ∧ w'.heap.soKey d = _
    rw [he.soKey]
    exact hs.filled b d hb' hd'
  keyed := by
    show ∀ a ∈ N, isRegular (w'.heap.soKey a) = true → w'.heap.soKey a = soKeyOf (C.mixedHash (w'.heap.key a))
    rw [he.soKey, he.key]
    exact hs.keyed
  distinct := by
    show ((N.filter fun a => isRegular (w'.heap.soKey a)).Pairwise fun a b => C.eq (w'.heap.key a) (w'.heap.key b) = false)
    rw [he.soKey, he.key]
    exact hs.distinct
  idle := rfl

omit [DecidableEq Addr] in
theorem Doubles.stores (hd : Doubles w w') (hs : StoresGrowing C w.heap N)
    (hmax : w.heap.size w.heap.table < MAX_BUCKETS) : StoresGrowing C w'.heap N := by
  obtain ⟨j, h1, h30, hj⟩ := hs.size
  replace hj : w.heap.size w.heap.table = 2 ^ j := hj
  refine hd.toEnlarges.stores hs ⟨j + 1, by omega, ?_, ?_⟩ ?_ ?_ ?_
  · rw [hj] at hmax
    have := (Nat.pow_lt_pow_iff_right (by decide : 1 < 2)).mp hmax
    omega
  · rw [hd.size, hj, Nat.pow_succ]
  · rw [hd.table, hd.tables]
    omega
  · rw [hd.cells, if_pos]
    rw [hj]
    exact Nat.two_pow_pos j
  · intro b d _ hb
    rw [hd.cells] at hb
    split at hb
    · next hlt => exact ⟨hlt, hb⟩
    · cases hb

omit [DecidableEq Addr] in
/-- The failures that are left after a doubling. -/
theorem Doubles.growthFails (hd : Doubles w w')
    (hwants : w.heap.Wants force (w.heap.size w.heap.table))
    (htable : w.choices.head .table = false) (hretire : w.choices.head .retire = false)
    (hts : w'.choices .table = (w.choices .table).tail)
    (hrs : w'.choices .retire = (w.choices .retire).tail) :
    w.GrowthFails force ↔ w'.GrowthFails force := by
  have hwants' : ∀ sz, w'.heap.Wants force sz ↔ w.heap.Wants force sz := hd.wants
  have hpow : ∀ j, w'.heap.size w'.heap.table * 2 ^ j = w.heap.size w.heap.table * 2 ^ (j + 1) := by
    intro j
    rw [hd.size, Nat.pow_succ, Nat.mul_assoc, Nat.mul_comm 2]
  have hzero : ∀ {l : List Bool}, l.headD false = false → l[0]? ≠ some true := by
    intro l hl h0
    cases l <;> simp_all
  unfold World.GrowthFails
  rw [hts, hrs]
  constructor
  · rintro ⟨i, hi, hfail⟩
    cases i with
    | zero => exact (hfail.elim (hzero htable) (hzero hretire)).elim
    | succ i =>
      refine ⟨i, fun j hj => ?_, by simpa using hfail⟩
      rw [hwants', hpow]
      exact hi (j + 1) (by omega)
  · rintro ⟨i, hi, hfail⟩
    refine ⟨i + 1, fun j hj => ?_, by simpa using hfail⟩
    cases j with
    | zero => simpa using hwants
    | succ j =>
      rw [← hpow, ← hwants']
      exact hi j (by omega)

omit [DecidableEq Addr] in
theorem growthFails_now (hwants : w.heap.Wants force (w.heap.size w.heap.table))
    (hfail : w.choices.head .table = true ∨ w.choices.head .retire = true) :
    w.GrowthFails force := by
  have hzero : ∀ {l : List Bool}, l.headD false = true → l[0]? = some true := by
    intro l hl
    cases l <;> simp_all
  refine ⟨0, fun j hj => ?_, hfail.imp hzero hzero⟩
  obtain rfl : j = 0 := by omega
  simpa using hwants

omit [DecidableEq Addr] in
theorem not_growthFails (hwants : ¬ w.heap.Wants force (w.heap.size w.heap.table)) :
    ¬ w.GrowthFails force := by
  rintro ⟨i, hi, -⟩
  exact hwants (by simpa using hi 0 (by omega))

omit [DecidableEq Addr] in
theorem growth_calm (h : w.choices.Calm) : ¬ w.GrowthFails force := by
  rintro ⟨i, -, hi | hi⟩
  · exact h .table (by decide) (List.mem_of_getElem? hi)
  · exact h .retire (by decide) (List.mem_of_getElem? hi)

/-- `make_table`, without an exception. -/
def World.withTable (w : World Addr Key) (size : Nat) : World Addr Key :=
  { w with heap := (w.heap.makeTable size).2, choices := w.choices.next .table }

omit [DecidableEq Addr] in
theorem Copies.doubles {d : Decisions} {l : List Nat}
    (hmade : w.heap.table < w.heap.tables)
    (hc : Copies (w.withTable (w.heap.size w.heap.table * 2)) v w.heap.table w.heap.tables
      (w.heap.size w.heap.table)) (hd : ∀ c, c ≠ .table → c ≠ .retire → d c = w.choices c)
    (hafter : w.choices.After d) : Doubles w { v with
      heap := { v.heap with table := w.heap.tables, retiredTables := l }, choices := d } := by
  have hold : ∀ b, (w.withTable (w.heap.size w.heap.table * 2)).heap.bucket w.heap.table b =
      w.heap.bucket w.heap.table b := by
    intro b
    exact congrFun (Function.update_of_ne hmade.ne _ _) b
  have hnew : ∀ b, (w.withTable (w.heap.size w.heap.table * 2)).heap.bucket w.heap.tables b =
      none := by
    intro b
    show Function.update w.heap.bucket w.heap.tables (fun _ => none) w.heap.tables b = none
    rw [Function.update_self]
  constructor
  · constructor
    all_goals first | exact hc.log | exact hd | exact hafter | (dsimp only; rw [hc.heap]; rfl)
  · rfl
  · dsimp only
    rw [hc.heap]
    rfl
  · dsimp only
    rw [hc.heap]
    exact Function.update_self _ _ _
  · intro b
    dsimp only
    rw [hc.cells, hold, hnew]
  · dsimp only
    rw [hc.heap]
    rfl
  · dsimp only
    rw [hc.heap]
    rfl

/-- One doubling: the new table, the copy of its cells, its publication. -/
theorem double_finishes (hmade : w.heap.table < w.heap.tables)
    (hwants : w.heap.Wants force (w.heap.size w.heap.table)) :
    Finishes (fun x v => x.elim
        ((Enlarges w v ∧ v.heap = w.heap ∨ Doubles w v) ∧ w.GrowthFails force)
        (Sum.elim (fun _ => Doubles w v ∧ (w.GrowthFails force ↔ v.GrowthFails force))
          fun _ => False))
      (do
        let nt ← perform (.newTable (w.heap.size w.heap.table * 2))
        copyCells w.heap.table nt (w.heap.size w.heap.table)
        if ← perform (.casTable w.heap.table nt) then
          perform (.retireTable w.heap.table)
          return .inl ()
        else
          perform (.destroyTable nt)
          return .inl () : Code Addr Key (Unit ⊕ Unit)) w := by
  refine Exits.act (T := fun x v =>
    (x, v) = (Own.makeTable (w.heap.size w.heap.table * 2)).alone w)
    (Until.perform rfl (Ends.ret rfl)) ?_ ?_
  · intro nt u hu
    unfold Own.alone at hu
    dsimp only at hu
    split at hu
    · cases hu
    · next htable =>
      rw [Bool.not_eq_true] at htable
      obtain ⟨hnt, rfl⟩ := Prod.mk.inj hu
      obtain rfl := Option.some.inj hnt
      show Finishes _ (Prog.bind (copyCells w.heap.table w.heap.tables _) _) (w.withTable _)
      -- the new table is made: its cells are copied before it is published
      have hold : (w.withTable (w.heap.size w.heap.table * 2)).heap.size w.heap.table =
          w.heap.size w.heap.table := Function.update_of_ne hmade.ne _ _
      have hnew : (w.withTable (w.heap.size w.heap.table * 2)).heap.size w.heap.tables =
          w.heap.size w.heap.table * 2 := Function.update_self _ _ _
      refine Exits.bind (copyCells_finishes hmade.ne hold.ge (by rw [hnew]; omega)) ?_
        (fun _ h => by cases h.1)
      rintro _ v ⟨-, hc⟩
      have hv : v.heap.table = w.heap.table := by
        rw [hc.heap]
        rfl
      have hchoices : ∀ c, c ≠ .table → c ≠ .retire → v.choices c = w.choices c := by
        intro c h1 h2
        rw [hc.choices]
        exact Decisions.next_ne _ h1
      have hafter : w.choices.After (v.choices.next .retire) := by
        rw [hc.choices]
        exact (w.choices.after_next .table).trans (Decisions.after_next _ .retire)
      have hhead : ∀ {d : Decisions}, d = w.choices.next .table →
          d.head .retire = w.choices.head .retire := by
        rintro _ rfl
        rfl
      refine Finishes.access (r := true)
        (v := { v with heap := { v.heap with table := w.heap.tables } }) rfl ?_ ?_
      · simp [Op.bounded, Op.alone, Op.apply, hv, Heap.makeTable]
      · refine Exits.act (T := fun x u => (x, u) = (Own.retireTable w.heap.table).alone
          { v with heap := { v.heap with table := w.heap.tables } })
          (Until.perform rfl (Ends.ret rfl)) ?_ ?_
        · intro _ u hu
          unfold Own.alone at hu
          dsimp only at hu
          split at hu
          · cases hu
          · next hretire =>
            obtain ⟨-, rfl⟩ := Prod.mk.inj hu
            have hd := hc.doubles (d := v.choices.next .retire)
              (l := v.heap.retiredTables ++ [w.heap.table]) hmade
              (fun c h1 h2 => (Decisions.next_ne _ h2).trans (hchoices c h1 h2)) hafter
            refine Exits.ret ⟨hd, hd.growthFails hwants htable ?_ ?_ ?_⟩
            · rw [Bool.not_eq_true] at hretire
              exact (hhead hc.choices).symm.trans hretire
            · show (v.choices.next .retire) .table = _
              rw [Decisions.next_ne _ (by decide), hc.choices]
              exact w.choices.next_self .table
            · show (v.choices.next .retire) .retire = _
              rw [Decisions.next_self, hc.choices]
              exact congrArg List.tail (w.choices.next_ne (by decide : Choice.retire ≠ .table))
        · intro u hu
          unfold Own.alone at hu
          dsimp only at hu
          split at hu
          · next hretire =>
            obtain ⟨-, rfl⟩ := Prod.mk.inj hu
            -- `retire` throws: the table is published all the same
            have hd := hc.doubles (d := v.choices.next .retire) (l := v.heap.retiredTables) hmade
              (fun c h1 h2 => (Decisions.next_ne _ h2).trans (hchoices c h1 h2)) hafter
            exact ⟨.inr hd, growthFails_now hwants (.inr ((hhead hc.choices).symm.trans hretire))⟩
          · cases hu
  · intro u hu
    unfold Own.alone at hu
    dsimp only at hu
    split at hu
    · next htable =>
      obtain ⟨-, rfl⟩ := Prod.mk.inj hu
      -- the allocation of the table throws: nothing has happened
      refine ⟨.inl ⟨?_, rfl⟩, growthFails_now hwants (.inl htable)⟩
      constructor
      all_goals first | rfl | exact fun c h1 _ => Decisions.next_ne _ h1 | exact w.choices.after_next _
    · cases hu

omit [DecidableEq Addr] in
theorem Doubles.resizes (hd : Doubles w w')
    (hwants : w.heap.Wants force (w.heap.size w.heap.table)) : Resizes w w' force where
  toEnlarges := hd.toEnlarges
  doubled := by
    refine ⟨1, hd.size, fun j hj => ?_⟩
    obtain rfl : j = 0 := by omega
    simpa using hwants
  cells := by
    intro b hb
    rw [hd.cells, if_pos hb]
  empty := by
    intro b _ hle
    rw [hd.cells, if_neg (by omega)]

/-- How growth leaves: the list is as it was. -/
structure Grown (C : Config Key) (w w' : World Addr Key) (N : List Addr) (force : Bool) : Prop
    extends Resizes w w' force where
  stores : StoresGrowing C w'.heap N
  growing : w'.heap.growing = w.heap.growing
  cached : w'.heap.cachedThreshold = w.heap.cachedThreshold

/-- The loop of `grow_once`. -/
theorem growLoop_finishes (hs : StoresGrowing C w.heap N) :
    Finishes (fun x v => Grown C w v N force ∧ (x = none ↔ w.GrowthFails force) ∧
        (x = some () → ¬ v.heap.Wants force (v.heap.size v.heap.table)))
      (growLoop C force) w := by
  refine Exits.iterate (I := fun m _ u => Grown C w u N force ∧
    m = 2 ^ 30 - u.heap.size u.heap.table ∧ (w.GrowthFails force ↔ u.GrowthFails force))
    wellFounded_lt ⟨⟨(enlarges_refl w).resizes rfl rfl, hs, rfl, rfl⟩, rfl, Iff.rfl⟩ ?_
  rintro m ⟨⟩ u ⟨⟨he, hsu, hgr, hca⟩, rfl, hiff⟩
  have hmade : u.heap.table < u.heap.tables := hsu.made
  refine (loadTable_reads C u).bind (Finishes.access rfl rfl
    ((roomy_reads force u.heap.table).bind ?_))
  have hwants := wants_iff u.heap force (u.heap.size u.heap.table)
  show Finishes _ (if (!force && decide (u.heap.counted ≤ u.heap.threshold
    (u.heap.size u.heap.table))) = true then Prog.ret (Sum.inr ()) else
    if MAX_BUCKETS ≤ u.heap.size u.heap.table then Prog.ret (Sum.inr ()) else _) _
  split
  · next hroomy =>
    have hnot : ¬ u.heap.Wants force (u.heap.size u.heap.table) := by
      intro hw
      rw [(hwants.mp hw).1] at hroomy
      cases hroomy
    refine Exits.ret ⟨⟨he, hsu, hgr, hca⟩, ⟨fun hx => (by cases hx), fun hf => ?_⟩, fun _ => hnot⟩
    exact (not_growthFails hnot (hiff.mp hf)).elim
  · next hroomy =>
    split
    · next hmax =>
      have hnot : ¬ u.heap.Wants force (u.heap.size u.heap.table) := fun hw => (hwants.mp hw).2 hmax
      refine Exits.ret ⟨⟨he, hsu, hgr, hca⟩, ⟨fun hx => (by cases hx), fun hf => ?_⟩, fun _ => hnot⟩
      exact (not_growthFails hnot (hiff.mp hf)).elim
    · next hmax =>
      rw [Bool.not_eq_true] at hroomy
      have hw := hwants.mpr ⟨hroomy, hmax⟩
      -- a turn doubles the table, and the ceiling comes nearer
      refine Exits.mono (double_finishes hmade hw) ?_
      rintro (_ | _ | r) v hx
      · obtain ⟨hv, hf⟩ := hx
        refine ⟨?_, ⟨fun _ => hiff.mpr hf, fun _ => rfl⟩, fun hx => (by cases hx)⟩
        rcases hv with ⟨hev, hheap⟩ | hd
        · have hsame : Resizes _ _ force := hev.resizes (by rw [hheap]) (by rw [hheap])
          exact ⟨he.trans hsame, by rw [hheap]; exact hsu, by rw [hheap]; exact hgr,
            by rw [hheap]; exact hca⟩
        · exact ⟨he.trans (hd.resizes hw), hd.stores hsu (not_le.mp hmax), hd.growing.trans hgr,
            hd.cached.trans hca⟩
      · obtain ⟨hd, hf⟩ := hx
        have hpos : 0 < u.heap.size u.heap.table := hsu.size_pos
        refine ⟨_, ?_, ⟨he.trans (hd.resizes hw), hd.stores hsu (not_le.mp hmax),
          hd.growing.trans hgr, hd.cached.trans hca⟩, rfl, hiff.trans hf⟩
        rw [hd.size]
        unfold MAX_BUCKETS at hmax
        omega
      · exact hx.elim

/-- How `grow_once` leaves. -/
structure Regrows (C : Config Key) (w w' : World Addr Key) (N : List Addr) (force : Bool)
    (x : Option Unit) : Prop extends Resizes w w' force where
  stores : Stores C w'.heap N
  cached : w'.heap.cachedThreshold = w.heap.cachedThreshold
  fails : x = none ↔ w.GrowthFails force
  settled : x = some () → ¬ w'.heap.Wants force (w'.heap.size w'.heap.table)

/-- `grow_once` changes the table only; it throws if a doubling does. -/
theorem growOnce_ends (force : Bool) (hs : Stores C w.heap N) :
    Ends (Solo.of Act.bounded) (fun x v => Regrows C w v N force x) (Container.growOnce C force) w := by
  have hcas : (Op.casGrowing : Op Addr Key Bool).bounded w =
      some (true, { w with heap := { w.heap with growing := true } }) := by
    simp [Op.bounded, Op.alone, Op.apply, hs.idle]
  have hs' : StoresGrowing C { w.heap with growing := true } N :=
    hs.congr (fun _ _ => rfl) (fun _ _ => rfl) (fun _ _ _ => rfl) hs.alive
      ⟨rfl, rfl, rfl, rfl, hs.idle.symm⟩
  refine Until.perform hcas ?_
  show Until _ _ (Prog.bind ((growLoop C force).attempt throwing) _) _
  refine Ends.bind (growLoop_finishes (w := { w with heap := { w.heap with growing := true } }) hs')
    ?_
  rintro x u ⟨⟨he, hsu, hgr, hca⟩, hiff, hsettled⟩
  refine Until.perform (r := ()) (t := { u with heap := { u.heap with growing := false } }) rfl
    (Ends.ret ⟨⟨?_, he.doubled, he.cells, he.empty⟩, hsu, hca, hiff, hsettled⟩)
  exact ⟨he.next, he.soKey, he.key, he.inUse, he.pick, he.count, he.threshold, he.retired,
    he.freed, he.log, he.choices, he.after⟩

/-- The tests of `maybe_grow`. -/
def Heap.crowded (h : Heap Addr Key) : Bool :=
  !(decide (0 < h.cachedThreshold) && decide (h.counted ≤ h.cachedThreshold)) &&
    decide (h.threshold (h.size h.table) < h.counted)

theorem refreshCached_finishes :
    Finishes (fun x v => x = some (w.heap.threshold (w.heap.size w.heap.table)) ∧
      v = { w with heap := { w.heap with
        cachedThreshold := w.heap.threshold (w.heap.size w.heap.table) } }) refreshCached w :=
  Finishes.access rfl rfl (Finishes.access rfl rfl (Finishes.access rfl rfl
    (Finishes.access rfl rfl (Exits.ret ⟨rfl, rfl⟩))))

theorem isCrowded_finishes :
    Finishes (fun x v => x = some w.heap.crowded ∧ ∃ n, (n = w.heap.cachedThreshold ∨
        n = w.heap.threshold (w.heap.size w.heap.table)) ∧
      v = { w with heap := { w.heap with cachedThreshold := n } }) isCrowded w := by
  refine Finishes.access rfl rfl ?_
  have hskip : Reads (if 0 < w.heap.cachedThreshold then do
      return decide ((← perform .loadCount) ≤ w.heap.cachedThreshold) else return false :
        Code Addr Key Bool)
      (decide (0 < w.heap.cachedThreshold) && decide (w.heap.counted ≤ w.heap.cachedThreshold))
      w := by
    split
    · next h =>
      rw [decide_eq_true h]
      exact Finishes.access rfl rfl (Reads.ret _ w)
    · next h =>
      rw [decide_eq_false h]
      exact Reads.ret _ w
  refine hskip.bind ?_
  unfold Heap.crowded
  cases decide (0 < w.heap.cachedThreshold) && decide (w.heap.counted ≤ w.heap.cachedThreshold) with
  | true => exact Exits.ret ⟨rfl, _, .inl rfl, rfl⟩
  | false =>
    refine Exits.bind refreshCached_finishes ?_ (fun _ h => by cases h.1)
    rintro _ v ⟨hx, rfl⟩
    obtain rfl := Option.some.inj hx
    exact Finishes.access rfl rfl (Exits.ret ⟨rfl, _, .inr rfl, rfl⟩)

omit [DecidableEq Addr] in
theorem Stores.withCached (hs : Stores C w.heap N) (n : Nat) :
    Stores C { w.heap with cachedThreshold := n } N :=
  hs.congr (fun _ _ => rfl) (fun _ _ => rfl) (fun _ _ _ => rfl) hs.alive ⟨rfl, rfl, rfl, rfl, rfl⟩

/-- How `maybe_grow` leaves. -/
structure Adapts (C : Config Key) (w w' : World Addr Key) (N : List Addr) (x : Option Unit) : Prop
    extends Resizes w w' false where
  stores : Stores C w'.heap N
  /-- The new threshold is that of a table on the way. -/
  cached : w'.heap.cachedThreshold = w.heap.cachedThreshold ∨
    ∃ i, 2 ^ i ≤ w'.heap.size w'.heap.table ∧ w'.heap.cachedThreshold = w.heap.threshold (2 ^ i)
  fails : x = none ↔ w.heap.crowded = true ∧ w.GrowthFails false
  settled : x = some () → w.heap.crowded = true →
    ¬ w'.heap.Wants false (w'.heap.size w'.heap.table)

omit [DecidableEq Addr] in
/-- Another cached threshold. -/
theorem Resizes.withCached (h : Resizes w w' force) (n : Nat) :
    Resizes w { w' with heap := { w'.heap with cachedThreshold := n } } force where
  toEnlarges := ⟨h.next, h.soKey, h.key, h.inUse, h.pick, h.count, h.threshold, h.retired, h.freed,
    h.log, h.choices, h.after⟩
  doubled := h.doubled
  cells := h.cells
  empty := h.empty

/-- `maybe_grow` changes the table and the cached threshold only; it throws if a doubling does. -/
theorem maybeGrow_ends (hs : Stores C w.heap N) :
    Ends (Solo.of Act.bounded) (fun x v => Adapts C w v N x) (Container.maybeGrow C) w := by
  have hsame : Resizes w w false := (enlarges_refl w).resizes rfl rfl
  refine Ends.andThen isCrowded_finishes ?_ (fun _ h => by cases h.1)
  rintro _ v ⟨hx, n, hn, rfl⟩
  obtain rfl := Option.some.inj hx
  obtain ⟨j, -, -, hj⟩ := hs.size
  have hcached : n = w.heap.cachedThreshold ∨
      ∃ i, 2 ^ i ≤ w.heap.size w.heap.table ∧ n = w.heap.threshold (2 ^ i) :=
    hn.imp id fun h => ⟨j, hj.ge, by rw [h, hj]⟩
  cases hc : w.heap.crowded with
  | false =>
    apply Ends.ret
    refine ⟨hsame.withCached n, hs.withCached n, hcached, ⟨nofun, fun h => ?_⟩, fun _ h => ?_⟩
    · rw [hc] at h
      cases h.1
    · rw [hc] at h
      cases h
  | true =>
    refine Ends.andThen (growOnce_ends false (hs.withCached n)) ?_ ?_
    · intro _ u hu
      have hgrown := (hsame.withCached n).trans hu.toResizes
      refine Ends.andThen refreshCached_finishes ?_ (fun _ h => by cases h.1)
      rintro _ v ⟨-, rfl⟩
      obtain ⟨i, -, -, hi⟩ := hu.stores.size
      apply Ends.ret
      refine ⟨hgrown.withCached _, hu.stores.withCached _, .inr ⟨i, hi.ge, ?_⟩,
        ⟨nofun, fun h => ?_⟩, fun _ _ => hu.settled rfl⟩
      · rw [← hgrown.threshold, ← hi]
      · cases hu.fails.mpr h.2
    · intro u hu
      have hgrown := (hsame.withCached n).trans hu.toResizes
      refine ⟨hgrown, hu.stores, ?_, ⟨fun _ => ⟨hc, hu.fails.mp rfl⟩, fun _ => rfl⟩, nofun⟩
      rw [hu.cached]
      exact hcached.imp id fun ⟨i, hle, h⟩ => ⟨i, hle.trans hgrown.size_le, h⟩

end

end MpmcMap.Unordered
