import MpmcMap.Unordered.LoadFactor
import Mathlib.Order.Bounds.Basic

/-!
# `reserve`

A forced `grow_once` does not stop at the next doubling: it doubles the table up to the growth
ceiling. So `reserve` either changes nothing or leaves the greatest table there is, and a target
above the ceiling is never reached.
-/

namespace MpmcMap.Unordered

open Conc
open Prog (perform iterate)
open Float.Model (UnpackedFloat)
open Floats (toSize widen)

variable {Addr Key : Type} [DecidableEq Addr] {C : Config Key}

section

variable {w v : World Addr Key} {N : List Addr} {target : Nat}

omit [DecidableEq Addr] in
/-- Forced growth goes up to the ceiling. -/
theorem Regrows.size_eq (hr : Regrows C w v N true (some ())) :
    v.heap.size v.heap.table = MAX_BUCKETS := by
  have hnot := hr.settled rfl
  have hle := hr.stores.size_le
  unfold Heap.Wants at hnot
  unfold MAX_BUCKETS at hnot ⊢
  simp only [true_or, and_true, not_lt] at hnot
  omega

/-- What `reserve` leaves where the target can be reached. -/
theorem reserve_ends (hs : Stores C w.heap N) (htarget : target ≤ MAX_BUCKETS) :
    Ends (Solo.of Act.bounded) (fun x v => Enlarges w v ∧ Stores C v.heap N ∧
        (x = none → w.GrowthFails true) ∧ (x = some () → v.heap.size v.heap.table =
          if target ≤ w.heap.size w.heap.table then w.heap.size w.heap.table else MAX_BUCKETS))
      (Container.reserve C target) w := by
  -- the loop is entered with the old table and, if that is too small, with the greatest one
  refine Ends.iterate (I := fun i _ v => Enlarges w v ∧ Stores C v.heap N ∧
    ((i = 1 ∧ v = w) ∨ (i = 0 ∧ w.heap.size w.heap.table < target ∧
      v.heap.size v.heap.table = MAX_BUCKETS))) wellFounded_lt
    ⟨enlarges_refl w, hs, .inl ⟨rfl, rfl⟩⟩ ?_
  rintro i ⟨⟩ v ⟨he, hsv, hi⟩
  refine Ends.bind (reserveStep_ends target hsv) ?_
  rintro _ v' (⟨hlt, r, hr, rfl⟩ | ⟨hge, rfl, rfl⟩)
  · obtain ⟨rfl, rfl⟩ : i = 1 ∧ v = w := by
      rcases hi with h | ⟨-, -, hv⟩
      · exact h
      · omega
    cases r with
    | none => exact Ends.ret ⟨hr.toEnlarges, hr.stores, fun _ => hr.fails.mp rfl, nofun⟩
    | some r =>
      exact Ends.ret ⟨0, by omega, hr.toEnlarges, hr.stores, .inr ⟨rfl, hlt, hr.size_eq⟩⟩
  · apply Ends.ret
    refine ⟨he, hsv, nofun, fun _ => ?_⟩
    rcases hi with ⟨-, rfl⟩ | ⟨-, hlt, hv⟩
    · rw [if_pos hge]
    · rw [if_neg (by omega), hv]

/-- No run of `reserve` with a target above the ceiling returns. -/
theorem reserve_diverges (hs : Stores C w.heap N) (hcalm : w.choices.Calm)
    (htarget : MAX_BUCKETS < target) (fuel : Nat) :
    (Container.reserve C target).run (fun o w => o.alone w) fuel w = none := by
  apply Option.eq_none_iff_forall_ne_some.mpr
  rintro ⟨x, v⟩ hrun
  obtain ⟨-, hsv, hdone, hthrow⟩ := reserve_run (I := fun v => v.choices.Calm)
    (fun _ _ _ h _ hr => h.after hr.after) hcalm hs hrun
  cases x with
  | none =>
    obtain ⟨u, hu, hfails⟩ := hthrow rfl
    exact growth_calm hu hfails
  | some x =>
    have hle := hsv.size_le
    have hge := hdone rfl
    unfold MAX_BUCKETS at htarget
    omega

end

/-! ## The target -/

/-- The number of buckets that `n` elements need: `ceil(n / f)`. -/
def bucketsFor (f : ℚ) (n : Nat) : Nat := ⌈(n : ℚ) / f⌉₊

theorem reserveTarget_eq {f : ℚ} (hf : 0 < f) (n : Nat) :
    reserveTarget (inverseOf f) n = ⌊(n : ℚ) / f + 999999 / 1000000⌋₊ := by
  rw [reserveTarget, inverseOf, if_pos hf, mul_one_div]

/-- The target is the rounded-up quotient or one less. -/
theorem reserveTarget_le {f : ℚ} (hf : 0 < f) (n : Nat) :
    reserveTarget (inverseOf f) n ≤ bucketsFor f n := by
  rw [reserveTarget_eq hf, bucketsFor]
  have hx : 0 ≤ (n : ℚ) / f := by positivity
  apply Nat.lt_succ_iff.mp
  apply (Nat.floor_lt (by positivity)).mpr
  have hceil := Nat.le_ceil ((n : ℚ) / f)
  push_cast
  linarith

/-- `b` is the smallest power of two that is at least the target and the old number of buckets. -/
def Fits (target old b : Nat) : Prop :=
  IsLeast {b | (∃ j, b = 2 ^ j) ∧ target ≤ b ∧ old ≤ b} b

theorem fits_old {target old j : Nat} (hold : old = 2 ^ j) : Fits target old old ↔ target ≤ old := by
  constructor
  · intro h
    exact h.1.2.1
  · intro h
    exact ⟨⟨⟨j, hold⟩, h, le_refl old⟩, fun b hb => hb.2.2⟩

theorem fits_max {target old j : Nat} (hold : old = 2 ^ j) (hlt : old < target)
    (htarget : target ≤ MAX_BUCKETS) :
    Fits target old MAX_BUCKETS ↔ 2 ^ 29 < target := by
  constructor
  · intro h
    by_contra hle
    have hleast : MAX_BUCKETS ≤ 2 ^ 29 := h.2 ⟨⟨29, rfl⟩, by omega, by omega⟩
    exact absurd hleast (by decide)
  · intro hgt
    refine ⟨⟨⟨30, rfl⟩, htarget, by omega⟩, ?_⟩
    rintro _ ⟨⟨i, rfl⟩, hi, -⟩
    have hi29 : 29 < i := (Nat.pow_lt_pow_iff_right (by decide)).mp (hgt.trans_le hi)
    exact Nat.pow_le_pow_right (by decide) hi29

/-! ## What `reserve` does -/

/-- `reserve` has grown the table exactly as needed for `n` elements and changed nothing else. -/
structure Reserves (C : Config Key) (f : ℚ) (s s' : Loaded Addr Key) (N : List Addr) (n : Nat) :
    Prop where
  buckets : Fits (bucketsFor f n) (s.world.heap.size s.world.heap.table)
    (s'.world.heap.size s'.world.heap.table)
  stores : Stores C s'.world.heap N
  elements : (s'.world.heap.regular N).map s'.world.heap.key =
    (s.world.heap.regular N).map s.world.heap.key
  size : s'.world.heap.counted = s.world.heap.counted

section

variable {s : Loaded Addr Key} {N : List Addr}

/-- How the job `reserve(n)` leaves: by an exception or with the table that is there afterwards. -/
inductive Reserved (C : Config Key) (s : Loaded Addr Key) (N : List Addr) (target : Nat) :
    Option (Reply Key) → Loaded Addr Key → Prop where
  | throws {s' : Loaded Addr Key} : s.world.GrowthFails true → Reserved C s N target none s'
  | returns {s' : Loaded Addr Key} : Enlarges s.world s'.world → Stores C s'.world.heap N →
      (s'.world.heap.size s'.world.heap.table =
        if target ≤ s.world.heap.size s.world.heap.table
        then s.world.heap.size s.world.heap.table else MAX_BUCKETS) →
      Reserved C s N target (some .done) s'

theorem reserveJob_runs (hs : Stores C s.world.heap N) (n : Nat)
    (htarget : s.factor.target n ≤ MAX_BUCKETS) :
    ∃ F, ∀ fuel, F ≤ fuel → ∃ r s', (Job.reserve n).run C fuel s = some (r, s') ∧
      Reserved C s N (s.factor.target n) r s' := by
  have hcode : Ends (Solo.of Act.bounded)
      (fun x v => Reserved C s N (s.factor.target n) x { s with world := v })
      ((Job.reserve n).code C s.factor) s.world := by
    refine Ends.andThen (reserve_ends hs htarget) ?_ fun v hv => .throws (hv.2.2.1 rfl)
    intro x v hv
    exact Ends.ret (.returns hv.1 hv.2.1 (hv.2.2.2 rfl))
  obtain ⟨F, x, v, hrun, hx⟩ := Ends.runs Solo.of_executes (ends_unbounded hcode)
  refine ⟨F, fun fuel hfuel => ⟨x, { s with world := v }, ?_, hx⟩⟩
  unfold Job.run
  rw [Prog.run_le hfuel hrun]
  rfl

omit [DecidableEq Addr] in
/-- Growth keeps the elements. -/
theorem Enlarges.elements {w w' : World Addr Key} (he : Enlarges w w') (N : List Addr) :
    (w'.heap.regular N).map w'.heap.key = (w.heap.regular N).map w.heap.key := by
  rw [he.key]
  unfold Heap.regular
  rw [he.soKey]

omit [DecidableEq Addr] in
theorem Enlarges.counted {w w' : World Addr Key} (he : Enlarges w w') :
    w'.heap.counted = w.heap.counted := by
  unfold Heap.counted
  rw [he.count]

end

/-- With an exact factor, `reserve(n)` grows the table exactly as needed if it need not grow at all,
or if only the greatest table is big enough. -/
theorem reserve_exact_iff (C : Config Key) (s : Loaded Addr Key) (N : List Addr)
    (hs : Stores C s.world.heap N) (f : ℚ) (hf : 0 < f) (hfactor : s.factor = .exact f) (n : Nat)
    (htarget : bucketsFor f n ≤ MAX_BUCKETS) :
    ∃ F, ∀ fuel, F ≤ fuel → ∃ r s', (Job.reserve n).run C fuel s = some (r, s') ∧
      ((r = none ∧ s.world.GrowthFails true) ∨
        (r = some .done ∧ (Reserves C f s s' N n ↔
          bucketsFor f n ≤ s.world.heap.size s.world.heap.table ∨
            (s.world.heap.size s.world.heap.table < reserveTarget (inverseOf f) n ∧
              2 ^ 29 < bucketsFor f n)))) := by
  have hle := reserveTarget_le hf n
  obtain ⟨j, -, -, hold⟩ := hs.size
  have hreserve : s.factor.target n = reserveTarget (inverseOf f) n := by
    rw [hfactor]
    rfl
  obtain ⟨F, hF⟩ := reserveJob_runs hs n (by rw [hreserve]; exact hle.trans htarget)
  rw [hreserve] at hF
  refine ⟨F, fun fuel hfuel => ?_⟩
  obtain ⟨r, s', hrun, hr⟩ := hF fuel hfuel
  refine ⟨r, s', hrun, ?_⟩
  cases hr with
  | throws hfails => exact .inl ⟨rfl, hfails⟩
  | returns he hs' hsize =>
    refine .inr ⟨rfl, ?_⟩
    -- what else `reserve` promises it keeps, so it is only the size that matters
    have hbuckets : Reserves C f s s' N n ↔ Fits (bucketsFor f n)
        (s.world.heap.size s.world.heap.table) (s'.world.heap.size s'.world.heap.table) :=
      ⟨fun h => h.buckets, fun h => ⟨h, hs', he.elements N, he.counted⟩⟩
    rw [hbuckets, hsize]
    split
    -- no growth: the old size fits exactly if it was enough
    · next hstay =>
      rw [fits_old hold]
      constructor
      · exact .inl
      · rintro (h | h)
        · exact h
        · omega
    -- forced growth goes to the ceiling, which fits only a target beyond half of it
    · next hgrow =>
      rw [fits_max hold (by omega) htarget]
      constructor
      · intro h
        exact .inr ⟨not_le.mp hgrow, h⟩
      · rintro (h | h)
        · omega
        · exact h.2

theorem newNumbers_stores (f : LoadFactor) : Stores colliding (newNumbers f).world.heap [0] :=
  stores_new colliding _ _ _ _

theorem newNumbers_calm (f : LoadFactor) : (newNumbers f).world.choices.Calm := fun _ _ h => by cases h

/-- Two elements fit into two buckets. -/
theorem reserve_exact_iff_two :
    ∃ F, ∀ fuel, F ≤ fuel → ∃ r s', (Job.reserve 2).run colliding fuel (newNumbers (.exact 1)) =
        some (r, s') ∧
      ((r = none ∧ (newNumbers (.exact 1)).world.GrowthFails true) ∨
        (r = some .done ∧ (Reserves colliding 1 (newNumbers (.exact 1)) s' [0] 2 ↔
          bucketsFor 1 2 ≤ 2 ∨ (2 < reserveTarget (inverseOf 1) 2 ∧ 2 ^ 29 < bucketsFor 1 2)))) :=
  reserve_exact_iff colliding (newNumbers (.exact 1)) [0] (newNumbers_stores (.exact 1)) 1
    (by decide +kernel) rfl 2 (by decide +kernel)

/-- Three elements need four buckets and get `2 ^ 30`. -/
theorem reserve_three :
    ∃ F, ∀ fuel, F ≤ fuel → ∃ s', (Job.reserve 3).run colliding fuel (newNumbers (.exact 1)) =
        some (some .done, s') ∧ Fits (bucketsFor 1 3) 2 4 ∧
      s'.world.heap.size s'.world.heap.table = 2 ^ 30 ∧
      ¬ Reserves colliding 1 (newNumbers (.exact 1)) s' [0] 3 := by
  have hfor : bucketsFor 1 3 = 3 := by decide +kernel
  obtain ⟨F, hF⟩ := reserveJob_runs (newNumbers_stores (.exact 1)) 3 (by decide +kernel)
  refine ⟨F, fun fuel hfuel => ?_⟩
  obtain ⟨r, s', hrun, hr⟩ := hF fuel hfuel
  cases hr with
  | throws hfails => exact absurd hfails (growth_calm (newNumbers_calm (.exact 1)))
  | returns _ _ hsize =>
    replace hsize : s'.world.heap.size s'.world.heap.table = 2 ^ 30 :=
      hsize.trans (if_neg (by decide +kernel))
    refine ⟨s', hrun, ?_, hsize, fun h => ?_⟩
    · rw [hfor]
      refine ⟨⟨⟨2, rfl⟩, by omega, by omega⟩, ?_⟩
      rintro _ ⟨⟨i, rfl⟩, hi, -⟩
      have hi1 : 1 < i := (Nat.pow_lt_pow_iff_right (by decide)).mp (show 2 ^ 1 < 2 ^ i by omega)
      exact Nat.pow_le_pow_right (by decide : 0 < 2) hi1
    · have hfour : 4 ∈ {b | (∃ j, b = 2 ^ j) ∧ bucketsFor 1 3 ≤ b ∧ 2 ≤ b} :=
        ⟨⟨2, rfl⟩, by omega, by omega⟩
      have hleast := h.buckets.2 hfour
      rw [hsize] at hleast
      exact absurd hleast (by decide)

/-- Without exceptions, `reserve(n)` returns if its target is at most the growth ceiling. The target
is the converted sum of doubles. -/
theorem reserve_returns_iff (undef : UnpackedFloat → Nat) (C : Config Key) (s : Loaded Addr Key)
    (N : List Addr) (hs : Stores C s.world.heap N) (hcalm : s.world.choices.Calm) (f : Float32)
    (hfactor : s.factor = .float undef f) (n : Nat) :
    (∃ fuel r s', (Job.reserve n).run C fuel s = some (r, s')) ↔
      toSize undef (n.toUInt64.toFloat * widen (invMaxLoadFactor f) + 0.999999).toModel.unpack ≤
        MAX_BUCKETS := by
  have htarget : (LoadFactor.float undef f).target n = toSize undef
      (n.toUInt64.toFloat * widen (invMaxLoadFactor f) + 0.999999).toModel.unpack := rfl
  rw [← htarget, ← hfactor]
  constructor
  · rintro ⟨fuel, r, s', hrun⟩
    by_contra hgt
    obtain ⟨⟨x, v⟩, hcode, -⟩ := Option.map_eq_some_iff.mp hrun
    obtain ⟨m, y, u, k, hres, -, -⟩ := Prog.run_bind hcode
    rw [reserve_diverges hs hcalm (not_le.mp hgt) m] at hres
    cases hres
  · intro hle
    obtain ⟨F, hF⟩ := reserveJob_runs hs n hle
    obtain ⟨r, s', hrun, -⟩ := hF F (le_refl F)
    exact ⟨F, r, s', hrun⟩

/-- The inverse of 3 is rounded up: `3 * 2 ^ 30` elements seem to need more buckets than there can
be. -/
example : (floatFactor 3).target (3 * 2 ^ 30) = 2 ^ 30 + 32 ∧
    (LoadFactor.exact 3).target (3 * 2 ^ 30) = 2 ^ 30 := by decide +kernel

/-- Three elements at the factor 1/3. -/
theorem reserve_returns_iff_three :
    (∃ fuel r s', (Job.reserve 3).run colliding fuel (newNumbers (floatFactor (1 / 3))) =
        some (r, s')) ↔
      toSize (fun _ => 0) ((3 : Nat).toUInt64.toFloat * widen (invMaxLoadFactor (1 / 3)) +
        0.999999).toModel.unpack ≤ MAX_BUCKETS :=
  reserve_returns_iff (fun _ => 0) colliding (newNumbers (floatFactor (1 / 3))) [0]
    (newNumbers_stores _) (newNumbers_calm _) (1 / 3) rfl 3

/-- More elements than there can be buckets: `reserve` never returns. -/
theorem reserve_beyond :
    ¬ ∃ fuel r, (Job.reserve (2 ^ 30 + 1)).run colliding fuel (newNumbers (floatFactor 1)) =
      some r := by
  rintro ⟨fuel, r, hrun⟩
  obtain ⟨⟨x, v⟩, hcode, -⟩ := Option.map_eq_some_iff.mp hrun
  obtain ⟨m, y, u, k, hres, -, -⟩ := Prog.run_bind hcode
  rw [reserve_diverges (newNumbers_stores _) (newNumbers_calm _) (by decide +kernel) m] at hres
  cases hres

end MpmcMap.Unordered
