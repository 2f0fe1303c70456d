import MpmcMap.Unordered.Runs

/-!
# The load factor

The growth threshold is computed from the inverse of the load factor where the law of the load
factor asks for the factor itself. The two agree for the factor 1 only. The cached threshold is a
lower bound of the one that would be computed as long as no change of the factor pushes that below
it.
-/

namespace MpmcMap.Unordered

open Conc
open Prog (perform iterate)
open Float.Model (UnpackedFloat)
open Floats (Converts)

variable {Addr Key : Type}

/-! ## The cached threshold -/

/-- The cached threshold is at most the one that the slow path of `maybe_grow` computes, so the fast
path skips nothing that the slow path would do. -/
structure LowerBound (w : World Addr Key) : Prop where
  cached : w.heap.cachedThreshold ≤ w.heap.threshold w.buckets
  skips : 0 < w.heap.cachedThreshold → w.heap.counted ≤ w.heap.cachedThreshold →
    ¬ w.heap.threshold w.buckets < w.heap.counted

theorem lowerBound_iff (w : World Addr Key) :
    LowerBound w ↔ w.heap.cachedThreshold ≤ w.heap.threshold w.buckets := by
  constructor
  · intro h
    exact h.cached
  · intro h
    exact ⟨h, fun _ hle => by omega⟩

/-- A change of the load factor leaves a threshold that is not below the cached one. -/
def KeepsBound (s : Loaded Addr Key) : Job Key → Prop
  | .setMaxLoadFactor f => f.HasThreshold s.world.buckets →
      s.world.heap.cachedThreshold ≤ f.threshold s.world.buckets
  | _ => True

/-- The load factors are floats. -/
def Job.Computes (undef : UnpackedFloat → Nat) : Job Key → Prop
  | .setMaxLoadFactor f => ∃ g, f = .float undef g
  | _ => True

/-- Where the threshold of the table has a value, the cached one is a lower bound of it. -/
structure Bounded (s : Loaded Addr Key) : Prop where
  grows : s.factor.Grows
  lower : s.factor.HasThreshold s.world.buckets → LowerBound s.world

section LowerBound

variable [DecidableEq Addr] {C : Config Key} {s s' : Loaded Addr Key} {w w' : World Addr Key}
  {fuel : Nat} {r : Option (Reply Key)} {j : Job Key}

omit [DecidableEq Addr] in
theorem Stored.exists_pow (h : Stored C s) : ∃ i, s.world.buckets = 2 ^ i := by
  obtain ⟨N, hN⟩ := h.between
  obtain ⟨i, -, -, hi⟩ := hN.stores.size
  exact ⟨i, hi⟩

omit [DecidableEq Addr] in
theorem Stored.buckets_le (h : Stored C s) : s.world.buckets ≤ MAX_BUCKETS := by
  obtain ⟨N, hN⟩ := h.between
  exact hN.stores.size_le

omit [DecidableEq Addr] in
/-- The threshold of a table that was there on the way is at most that of the last one. -/
theorem Bounded.scales (hs : Bounded s) (h : Stored C s) (h' : Stored C s')
    (hscales : Scales s.world s'.world) (hfactor : s'.factor = s.factor) : Bounded s' := by
  obtain ⟨i, hi⟩ := h.exists_pow
  obtain ⟨j, hj⟩ := h'.exists_pow
  have hmax := h'.buckets_le
  have hle : s.world.buckets ≤ s'.world.buckets := hscales.size_le
  rw [hj] at hmax
  refine ⟨by rw [hfactor]; exact hs.grows, fun hdefined => ?_⟩
  rw [hfactor, hj] at hdefined
  rw [lowerBound_iff, hj, h'.threshold, hfactor]
  have hbelow : ∀ l, 2 ^ l ≤ s'.world.buckets → s.factor.HasThreshold (2 ^ l) ∧
      s.factor.threshold (2 ^ l) ≤ s.factor.threshold (2 ^ j) := by
    intro l hl
    rw [hj] at hl
    exact hs.grows l j ((Nat.pow_le_pow_iff_right (by decide)).mp hl) hmax hdefined
  rcases hscales.cached with heq | ⟨l, hl, heq⟩
  · rw [hi] at hle
    obtain ⟨hold, hgrow⟩ := hbelow i hle
    have hlower := (hs.lower (by rwa [hi])).cached
    rw [h.threshold, hi] at hlower
    rw [heq]
    exact hlower.trans hgrow
  · rw [heq, h.threshold]
    exact (hbelow l hl).2

/-- One job. -/
theorem Bounded.run {undef : UnpackedFloat → Nat} (hC : C.Lawful) (hs : Bounded s)
    (h : Stored C s) (hfloat : j.Computes undef) (hj : KeepsBound s j)
    (hrun : j.run C fuel s = some (r, s')) : Bounded s' := by
  by_cases hset : ∃ f, j = .setMaxLoadFactor f
  · obtain ⟨f, rfl⟩ := hset
    obtain ⟨g, rfl⟩ := hfloat
    obtain ⟨⟨r', w⟩, hcode, heq⟩ := Option.map_eq_some_iff.mp hrun
    obtain ⟨rfl, rfl⟩ := Prod.mk.inj heq
    obtain ⟨-, rfl⟩ := Prod.mk.inj (Prog.run_ret hcode)
    exact ⟨LoadFactor.grows_float undef g, fun hdefined => (lowerBound_iff _).mpr (hj hdefined)⟩
  · obtain ⟨hscales, hfactor⟩ := h.scales hC hrun fun f hf => hset ⟨f, hf⟩
    exact hs.scales h (h.run hC hrun) hscales hfactor

/-- Every job of the run meets the condition `P` in the state that it starts from. -/
def Always (C : Config Key) (P : Loaded Addr Key → Job Key → Prop) (fuel : Nat) :
    List (Job Key) → Loaded Addr Key → Prop
  | [], _ => True
  | j :: js, s => P s j ∧ ∀ r s', j.run C fuel s = some (r, s') → Always C P fuel js s'

/-- The cached threshold is a lower bound in every state of a sequential run that never lowers the
threshold below it. -/
theorem runJobs_lowerBound (undef : UnpackedFloat → Nat) (C : Config Key) (hC : C.Lawful)
    (key : Addr → Key) (head : Addr) (pick : Nat → Finset Addr → Addr)
    (hpick : ∀ n U, pick n U ∉ U) (choices : Decisions) (f : Float32) (js : List (Job Key))
    (hfloat : ∀ j ∈ js, j.Computes undef) (fuel : Nat) (rs : List (Option (Reply Key)))
    (s : Loaded Addr Key)
    (hrun : runJobs C fuel js (Loaded.new key head pick choices (.float undef f)) = some (rs, s))
    (hjs : Always C KeepsBound fuel js (Loaded.new key head pick choices (.float undef f)))
    (hdefined : s.factor.HasThreshold s.world.buckets) : LowerBound s.world := by
  have hnew : Bounded (Loaded.new key head pick choices (.float undef f)) :=
    ⟨LoadFactor.grows_float undef f, fun _ => (lowerBound_iff _).mpr (Nat.zero_le _)⟩
  have hstored := stored_new C key head hpick choices (.float undef f)
  generalize Loaded.new key head pick choices (.float undef f) = s₀ at *
  induction js generalizing s₀ rs with
  | nil =>
    obtain ⟨-, rfl⟩ := Prod.mk.inj (Option.some.inj hrun)
    exact hnew.lower hdefined
  | cons j js ih =>
    obtain ⟨⟨r, s₁⟩, hj, hrest⟩ := Option.bind_eq_some_iff.mp hrun
    obtain ⟨⟨rs', s₂⟩, hjs', hend⟩ := Option.bind_eq_some_iff.mp hrest
    obtain ⟨-, rfl⟩ := Prod.mk.inj (Option.some.inj hend)
    exact ih (fun j hj => hfloat j (List.mem_cons_of_mem _ hj)) rs' s₁ hjs' (hjs.2 r s₁ hj)
      (hnew.run hC hstored (hfloat j List.mem_cons_self) hjs.1 hj) (hstored.run hC hj)

/-- The factor after a change of it. -/
theorem factor_setMaxLoadFactor {f : LoadFactor} {rs : List (Option (Reply Key))}
    (hrun : runJobs C fuel [.setMaxLoadFactor f] s = some (rs, s')) : s'.factor = f := by
  obtain ⟨⟨r, s₁⟩, hj, hrest⟩ := Option.bind_eq_some_iff.mp hrun
  obtain ⟨⟨x, w⟩, -, heq⟩ := Option.map_eq_some_iff.mp hj
  obtain ⟨-, rfl⟩ := Prod.mk.inj heq
  obtain ⟨-, rfl⟩ := Prod.mk.inj (Option.some.inj hrest)
  rfl

/-- A smaller factor raises the threshold. -/
theorem runJobs_lowerBound_half :
    ∃ rs s, runJobs colliding 300 [.call (.emplace 1), .setMaxLoadFactor (floatFactor (1 / 2))]
        (newNumbers (floatFactor 1)) = some (rs, s) ∧ LowerBound s.world := by
  obtain ⟨⟨rs, s⟩, hrun⟩ := Option.isSome_iff_exists.mp
    (show (runJobs colliding 300 [.call (.emplace 1), .setMaxLoadFactor (floatFactor (1 / 2))]
      (newNumbers (floatFactor 1))).isSome = true by decide +kernel)
  have hset : ((Job.call (.emplace 1)).run colliding 300 (newNumbers (floatFactor 1))).map
      (fun r => decide (r.2.world.heap.cachedThreshold ≤
        (floatFactor (1 / 2)).threshold r.2.world.buckets)) = some true := by decide +kernel
  have hconverts : (runJobs colliding 300
      [.call (.emplace 1), .setMaxLoadFactor (floatFactor (1 / 2))]
      (newNumbers (floatFactor 1))).map (fun r =>
        decide (Converts (scaledSize (1 / 2) r.2.world.buckets).toModel.unpack)) = some true := by
    decide +kernel
  have hfactor : s.factor = floatFactor (1 / 2) := by
    rw [runJobs] at hrun
    obtain ⟨⟨r, s₁⟩, -, hrest⟩ := Option.bind_eq_some_iff.mp hrun
    obtain ⟨⟨rs', s₂⟩, hset, hend⟩ := Option.bind_eq_some_iff.mp hrest
    obtain ⟨-, rfl⟩ := Prod.mk.inj (Option.some.inj hend)
    exact factor_setMaxLoadFactor hset
  rw [hrun] at hconverts
  refine ⟨rs, s, hrun, runJobs_lowerBound (fun _ => 0) colliding colliding_lawful _ _ _
    pickAbove_fresh _ 1 _ ?_ _ rs s hrun ⟨trivial, fun r s' hj => ⟨?_, fun _ _ _ => trivial⟩⟩ ?_⟩
  · intro j hj
    simp only [List.mem_cons, List.not_mem_nil, or_false] at hj
    rcases hj with rfl | rfl
    · trivial
    · exact ⟨1 / 2, rfl⟩
  · rw [hj] at hset
    exact fun _ => of_decide_eq_true (Option.some.inj hset)
  · rw [hfactor]
    have hdefined : Converts (scaledSize (1 / 2) s.world.buckets).toModel.unpack :=
      of_decide_eq_true (Option.some.inj hconverts)
    exact hdefined

/-- With one element the threshold of two buckets is cached. After a change of the factor to 2 the
threshold is 1, and the second element is inserted without growth. -/
theorem lowerBound_lost :
    ∃ rs s, runJobs colliding 300
        [.call (.emplace 1), .setMaxLoadFactor (floatFactor 2), .call (.emplace 2)]
        (newNumbers (floatFactor 1)) = some (rs, s) ∧
      s.world.heap.cachedThreshold = 2 ∧ s.world.heap.threshold s.world.buckets = 1 ∧
      s.world.heap.counted = 2 ∧ ¬ LowerBound s.world := by
  obtain ⟨⟨rs, s⟩, hrun⟩ := Option.isSome_iff_exists.mp
    (show (runJobs colliding 300
      [.call (.emplace 1), .setMaxLoadFactor (floatFactor 2), .call (.emplace 2)]
      (newNumbers (floatFactor 1))).isSome = true by decide +kernel)
  have hvalues : (runJobs colliding 300
      [.call (.emplace 1), .setMaxLoadFactor (floatFactor 2), .call (.emplace 2)]
      (newNumbers (floatFactor 1))).map (fun r =>
        (r.2.world.heap.cachedThreshold, r.2.world.heap.threshold r.2.world.buckets,
          r.2.world.heap.counted)) = some (2, 1, 2) := by decide +kernel
  rw [hrun] at hvalues
  obtain ⟨hcached, hrest⟩ := Prod.mk.inj (Option.some.inj hvalues)
  obtain ⟨hthreshold, hcounted⟩ := Prod.mk.inj hrest
  refine ⟨rs, s, hrun, hcached, hthreshold, hcounted, fun h => ?_⟩
  have hle := h.cached
  rw [hcached, hthreshold] at hle
  omega

end LowerBound

/-! ## The law of the load factor -/

/-- The law, for an insertion that leads from `w` to `w'`: it doubles the table only while there are
more elements than the factor allows, and a completed one leaves no more than that. -/
structure ObeysLoad (f : ℚ) (w w' : World Addr Key) (completed : Prop) : Prop where
  needed : ∃ i, w'.buckets = w.buckets * 2 ^ i ∧
    ∀ j < i, ((w.buckets * 2 ^ j : Nat) : ℚ) * f < w'.heap.counted
  bound : completed →
    (w'.heap.counted : ℚ) ≤ (w'.buckets : ℚ) * f ∨ w'.buckets = MAX_BUCKETS

/-- An insertion has returned, and there is one element more. -/
def Completes {α : Type} (w w' : World Addr Key) (r : Option α) : Prop :=
  r ≠ none ∧ w'.heap.count = w.heap.count + 1

/-- What an insertion does to the table. -/
structure Expands (w w' : World Addr Key) (completed : Prop) : Prop where
  doubled : ∃ i, w'.buckets = w.buckets * 2 ^ i ∧
    ∀ j < i, w'.heap.Wants false (w.buckets * 2 ^ j)
  settled : completed →
    w'.heap.counted ≤ w.heap.cachedThreshold ∨ ¬ w'.heap.Wants false w'.buckets

section Expands

variable {C : Config Key} {w w' v : World Addr Key} {N : List Addr} {k : Key} {n : Addr}

/-- A table that stays, without an insertion. -/
theorem expands_of_eq {completed : Prop} (h : w'.buckets = w.buckets) (hc : ¬ completed) :
    Expands w w' completed :=
  ⟨⟨0, by simpa using h, fun _ hj => by omega⟩, fun h => absurd h hc⟩

theorem Expands.of_eq {α : Type} {r : Option α} (h : Expands v w' (Completes v w' r))
    (hbuckets : v.buckets = w.buckets)
    (hcached : v.heap.cachedThreshold = w.heap.cachedThreshold)
    (hcount : v.heap.count = w.heap.count) : Expands w w' (Completes w w' r) := by
  obtain ⟨hdoubled, hsettled⟩ := h
  rw [hbuckets] at hdoubled
  rw [Completes, hcount, hcached] at hsettled
  exact ⟨hdoubled, hsettled⟩

theorem not_completes {α : Type} {r : Option α} (h : w'.heap.count = w.heap.count) :
    ¬ Completes w w' r := by
  rintro ⟨-, h'⟩
  omega

theorem Grows.buckets {N' new : List Addr} (hg : Grows C w w' N N' new) : w'.buckets = w.buckets := by
  unfold World.buckets
  rw [hg.agrees.size, hg.agrees.table]

theorem not_crowded {h : Heap Addr Key} (hc : h.crowded = false) :
    h.counted ≤ h.cachedThreshold ∨ ¬ h.threshold (h.size h.table) < h.counted := by
  unfold Heap.crowded at hc
  rw [Bool.and_eq_false_iff, Bool.not_eq_false', Bool.and_eq_true] at hc
  exact hc.imp (fun h => of_decide_eq_true h.2) of_decide_eq_false

/-- What `maybe_grow` does. -/
theorem Adapts.expands {x : Option Unit} (ha : Adapts C w w' N x) :
    Expands w w' (x = some ()) where
  doubled := by
    obtain ⟨i, hi, hwants⟩ := ha.doubled
    exact ⟨i, hi, fun j hj => (ha.wants _).mpr (hwants j hj)⟩
  settled := by
    intro hx
    have hcounted : w'.heap.counted = w.heap.counted := by
      unfold Heap.counted
      rw [ha.count]
    obtain ⟨i, hi, hwants⟩ := ha.doubled
    cases hc : w.heap.crowded with
    | true => exact .inr (ha.settled hx hc)
    | false =>
      rcases not_crowded hc with hle | hroomy
      · exact .inl (hcounted.trans_le hle)
      · -- the old table is big enough, so it is still there
        have hnot : ¬ w.heap.Wants false (w.heap.size w.heap.table) := by
          rintro ⟨-, h | h⟩
          · cases h
          · exact hroomy h
        have hzero : i = 0 := by
          by_contra hne
          apply hnot
          simpa using hwants 0 (by omega)
        rw [hzero, Nat.pow_zero, Nat.mul_one] at hi
        refine .inr fun hw => hnot ?_
        unfold World.buckets at hw
        rw [hi] at hw
        exact (ha.wants _).mp hw

variable [DecidableEq Addr]

theorem Between.linkage_expands {x : Option Bool} (hC : C.Lawful) (h : Between C w N) (hn : n ∉ N)
    (halive : n ∈ w.heap.inUse) (hkey : w.heap.key n = k) (hl : Linkage C w N n k x w') :
    Expands w w' (Completes w w' x) := by
  cases hl with
  | starved hst =>
    obtain ⟨u, N', new, hg, -, he⟩ := hst.grown
    cases he <;> exact expands_of_eq hg.buckets (not_completes hg.agrees.count)
  | duplicate hp _ =>
    exact expands_of_eq hp.toGrows.buckets (not_completes hp.agrees.count)
  | @inserted x u v w' A B N' new p hp hnone hi hne ha =>
    obtain ⟨-, -, hbuckets, hcached, -⟩ := h.inserts hC hn halive hkey hp hnone hi
    replace hbuckets : v.buckets = w.buckets := hbuckets
    obtain ⟨hdoubled, hsettled⟩ := ha.expands
    rw [hbuckets] at hdoubled
    rw [hcached] at hsettled
    refine ⟨hdoubled, fun hx => hsettled ?_⟩
    cases x with
    | none => exact absurd rfl hx.1
    | some b => rfl

theorem Between.emplaces_expands {x : Option Bool} (hC : C.Lawful) (h : Between C w N)
    (he : Emplaces C w N k x w') : Expands w w' (Completes w w' x) := by
  cases he with
  | exhausted he => cases he <;> exact expands_of_eq rfl (not_completes rfl)
  | value _ _ _ => exact expands_of_eq rfl (not_completes rfl)
  | linkage _ _ _ hl =>
    obtain ⟨hn, hc, -⟩ := h.created k
    have hexp := hc.linkage_expands hC hn (Finset.mem_insert_self _ _) (Function.update_self _ _ _) hl
    exact hexp.of_eq rfl rfl rfl

theorem Between.subscripts_expands {x : Option (Option Key)} (hC : C.Lawful) (h : Between C w N)
    (hs : Subscripts C w N k x w') : Expands w w' (Completes w w' x) := by
  cases hs with
  | starved hst =>
    obtain ⟨u, N', new, hg, -, he⟩ := hst.grown
    cases he <;> exact expands_of_eq hg.buckets (not_completes hg.agrees.count)
  | found hp _ => exact expands_of_eq hp.toGrows.buckets (not_completes hp.agrees.count)
  | exhausted hp _ he =>
    cases he <;> exact expands_of_eq hp.toGrows.buckets (not_completes hp.agrees.count)
  | value hp _ _ _ _ => exact expands_of_eq hp.toGrows.buckets (not_completes hp.agrees.count)
  | @linkage x u w' N' new hp _ _ _ _ _ hl =>
    obtain ⟨hn, hc, -⟩ := (h.grows hp.toGrows).created k
    have hexp := hc.linkage_expands hC hn (Finset.mem_insert_self _ _) (Function.update_self _ _ _) hl
    have hu : Expands w w' (Completes w w' x) :=
      hexp.of_eq hp.toGrows.buckets hp.agrees.cached hp.agrees.count
    refine ⟨hu.doubled, fun hx => hu.settled ⟨?_, hx.2⟩⟩
    rintro rfl
    exact hx.1 rfl

end Expands

/-! ### Runs of insertions and erases -/

/-- The jobs that insert. -/
def Job.isInsertion : Job Key → Bool
  | .call (.emplace _) | .call (.subscript _) => true
  | _ => false

/-- The jobs that insert or erase. -/
def Job.isUpdate : Job Key → Bool
  | .call (.emplace _) | .call (.subscript _) | .call (.erase _) => true
  | _ => false

section Law

variable [DecidableEq Addr]

/-- The law of the load factor, for the insertions of all sequential runs of insertions and erases
in a container with the factor `f`. -/
def LoadLaw (C : Config Key) (key : Addr → Key) (head : Addr) (pick : Nat → Finset Addr → Addr)
    (f : ℚ) : Prop :=
  ∀ (choices : Decisions) (js : List (Job Key)) (fuel : Nat) (rs : List (Option (Reply Key)))
    (s : Loaded Addr Key), (∀ j ∈ js, j.isUpdate = true) →
    runJobs C fuel js (Loaded.new key head pick choices (.exact f)) = some (rs, s) →
    ∀ (j : Job Key) (r : Option (Reply Key)) (s' : Loaded Addr Key), j.isInsertion = true →
      j.run C fuel s = some (r, s') → ObeysLoad f s.world s'.world (Completes s.world s'.world r)

variable {C : Config Key} {s s' : Loaded Addr Key} {fuel : Nat} {r : Option (Reply Key)} {j : Job Key}

/-- One insertion. -/
theorem Stored.expands (hC : C.Lawful) (h : Stored C s) (hj : j.isInsertion = true)
    (hrun : j.run C fuel s = some (r, s')) :
    Expands s.world s'.world (Completes s.world s'.world r) := by
  obtain ⟨⟨r', w⟩, hcode, heq⟩ := Option.map_eq_some_iff.mp hrun
  obtain ⟨rfl, rfl⟩ := Prod.mk.inj heq
  obtain ⟨N, hN⟩ := h.between
  have hmap : ∀ {α β : Type} {x : Option α} {y : Option β} {w w' : World Addr Key},
      (y ≠ none → x ≠ none) → Expands w w' (Completes w w' x) → Expands w w' (Completes w w' y) :=
    fun hxy he => ⟨he.doubled, fun hc => he.settled ⟨hxy hc.1, hc.2⟩⟩
  match j, hj with
  | .call (.emplace k), _ =>
    refine Ends.of_run (Q := fun x w' => Expands s.world w' (Completes s.world w' x))
      Solo.of_executes (ends_unbounded (Ends.andThen (emplace_ends hC hN.allocates hN.stores k) ?_
        fun v he => hmap (fun h => absurd rfl h) (hN.emplaces_expands hC he))) hcode
    intro b v he
    exact Ends.ret (hmap (by simp) (hN.emplaces_expands hC he))
  | .call (.subscript k), _ =>
    refine Ends.of_run (Q := fun x w' => Expands s.world w' (Completes s.world w' x))
      Solo.of_executes (ends_unbounded (Ends.andThen (subscript_ends hC hN.allocates hN.stores k) ?_
        fun v hs => hmap (fun h => absurd rfl h) (hN.subscripts_expands hC hs))) hcode
    intro b v hs
    exact Ends.ret (hmap (by simp) (hN.subscripts_expands hC hs))

theorem thresholdOf_one (size : Nat) : thresholdOf (inverseOf 1) size = size := by
  have hone : inverseOf 1 = 1 := by
    unfold inverseOf
    rw [if_pos one_pos, div_one]
  rw [thresholdOf, hone, mul_one, Nat.floor_natCast]

omit [DecidableEq Addr] in
/-- With the factor 1 the threshold is the number of buckets. -/
theorem Expands.obeys_one {w w' : World Addr Key} {completed : Prop} (h : Expands w w' completed)
    (hlower : LowerBound w) (hthreshold : ∀ size, w.heap.threshold size = size)
    (hsame : w'.heap.threshold = w.heap.threshold) (hmax : w'.buckets ≤ MAX_BUCKETS) :
    ObeysLoad 1 w w' completed where
  needed := by
    obtain ⟨i, hi, hwants⟩ := h.doubled
    refine ⟨i, hi, fun j hj => ?_⟩
    obtain ⟨-, hforce | hlt⟩ := hwants j hj
    · cases hforce
    · rw [hsame, hthreshold] at hlt
      rw [mul_one]
      exact_mod_cast hlt
  bound := by
    intro hcompleted
    rw [mul_one]
    rcases h.settled hcompleted with hle | hnot
    · obtain ⟨i, hi, -⟩ := h.doubled
      have hcached := hlower.cached
      rw [hthreshold] at hcached
      have hgrow : w.buckets ≤ w'.buckets := by
        rw [hi]
        exact Nat.le_mul_of_pos_right _ (Nat.two_pow_pos i)
      exact .inl (by exact_mod_cast hle.trans (hcached.trans hgrow))
    · by_cases htop : w'.buckets < MAX_BUCKETS
      · have hroomy : ¬ w'.heap.threshold w'.buckets < w'.heap.counted :=
          fun hlt => hnot ⟨htop, .inr hlt⟩
        rw [hsame, hthreshold] at hroomy
        exact .inl (by exact_mod_cast not_lt.mp hroomy)
      · exact .inr (by omega)

omit [DecidableEq Addr] in
theorem Job.ne_set {f : LoadFactor} (hj : j.isUpdate = true) : j ≠ .setMaxLoadFactor f := by
  rintro rfl
  cases hj

theorem loadLaw_one (hC : C.Lawful) (key : Addr → Key) (head : Addr)
    {pick : Nat → Finset Addr → Addr} (hpick : ∀ n U, pick n U ∉ U) :
    LoadLaw C key head pick 1 := by
  intro choices js fuel rs s hjs hrun j r s' hj hins
  obtain ⟨hs, hlower, hfactor⟩ := runJobs_induction C
    (P := fun s => Stored C s ∧ Bounded s ∧ s.factor = .exact 1)
    (fun j hmem s r s' ⟨hs, hlower, hfactor⟩ hstep => by
      have hset : ∀ f, j ≠ .setMaxLoadFactor f := fun f => Job.ne_set (hjs j hmem)
      obtain ⟨hscales, hsame⟩ := hs.scales hC hstep hset
      exact ⟨hs.run hC hstep, hlower.scales hs (hs.run hC hstep) hscales hsame,
        hsame.trans hfactor⟩)
    ⟨stored_new C key head hpick choices (.exact 1),
      ⟨LoadFactor.grows_exact 1, fun _ => (lowerBound_iff _).mpr (Nat.zero_le _)⟩, rfl⟩ hrun
  have hset : ∀ f, j ≠ .setMaxLoadFactor f := by
    rintro f rfl
    cases hj
  obtain ⟨hscales, -⟩ := hs.scales hC hins hset
  have hbound : LowerBound s.world := hlower.lower (by rw [hfactor]; trivial)
  refine (hs.expands hC hj hins).obeys_one hbound (fun size => ?_) hscales.threshold
    (hs.run hC hins).buckets_le
  rw [hs.threshold, hfactor]
  exact thresholdOf_one size

/-- An insertion without exceptions. -/
theorem emplace_runs (hC : C.Lawful) {N : List Addr} {m : Maps.FiniteMap C.eq}
    (h : Holds C s.world N m) (k : Key) :
    ∃ F s', (∀ fuel, F ≤ fuel → (Job.call (.emplace k)).run C fuel s =
      some (some (.flag (m.insert k).1), s')) ∧ ∃ N', Holds C s'.world N' (m.insert k).2 := by
  obtain ⟨F, x, w, hrun, rfl, N', hw⟩ :=
    Ends.runs Solo.of_executes (ends_unbounded (code_ends hC h (.emplace k)))
  refine ⟨F, { s with world := w }, fun fuel hfuel => ?_, N', hw⟩
  unfold Job.run
  have hlong : ((Job.call (.emplace k)).code C s.factor).run (fun o w => o.alone w) fuel
      s.world = some (some (.flag (m.insert k).1), w) := Prog.run_le hfuel hrun
  rw [hlong]
  rfl

/-- Two insertions into a new container: the states after the first and after the second. -/
structure TwoInserted (C : Config Key) (s₀ s₁ s₂ : Loaded Addr Key) (k k' : Key) (fuel : Nat) :
    Prop where
  first : (Job.call (.emplace k)).run C fuel s₀ = some (some (.flag true), s₁)
  second : (Job.call (.emplace k')).run C fuel s₁ = some (some (.flag true), s₂)
  one : s₁.world.heap.count = 1
  two : s₂.world.heap.count = 2

theorem exists_twoInserted (hC : C.Lawful) {k k' : Key} (hk : C.eq k k' = false)
    (key : Addr → Key) (head : Addr) {pick : Nat → Finset Addr → Addr}
    (hpick : ∀ n U, pick n U ∉ U) (f : LoadFactor) :
    ∃ s₁ s₂ fuel, TwoInserted C (Loaded.new key head pick (fun _ => []) f) s₁ s₂ k k' fuel := by
  have h₀ : Holds C (Loaded.new key head pick (fun _ => []) f).world [head] .empty :=
    holds_new C key head hpick _ (fun _ _ h => by cases h)
  have hnone : (Maps.FiniteMap.empty : Maps.FiniteMap C.eq).find k = none := rfl
  obtain ⟨hnew, hm₁⟩ := Maps.FiniteMap.insert_absent hnone
  obtain ⟨F₁, s₁, hrun₁, N₁, h₁⟩ :=
    emplace_runs (s := Loaded.new key head pick (fun _ => []) f) hC h₀ k
  have hfind : ((Maps.FiniteMap.empty : Maps.FiniteMap C.eq).insert k).2.find k' = none := by
    rw [Maps.FiniteMap.find, hm₁]
    show [k].find? (fun e => C.eq e k') = none
    rw [List.find?_cons_of_neg (by simp [hk])]
    rfl
  obtain ⟨hnew', hm₂⟩ := Maps.FiniteMap.insert_absent hfind
  obtain ⟨F₂, s₂, hrun₂, N₂, h₂⟩ := emplace_runs hC h₁ k'
  refine ⟨s₁, s₂, max F₁ F₂, ?_, ?_, ?_, ?_⟩
  · rw [hrun₁ _ (le_max_left _ _), hnew]
  · rw [hrun₂ _ (le_max_right _ _), hnew']
  · rw [h₁.count, Maps.FiniteMap.size, hm₁]
    rfl
  · rw [h₂.count, Maps.FiniteMap.size, hm₂, hm₁]
    rfl

omit [DecidableEq Addr] in
/-- Where no doubling is wanted, there is none. -/
theorem eq_of_doubled {P : Nat → Prop} {old new : Nat}
    (h : ∃ i, new = old * 2 ^ i ∧ ∀ j < i, P (old * 2 ^ j)) (hP : ¬ P old) : new = old := by
  obtain ⟨i, hi, hall⟩ := h
  have hzero : i = 0 := by
    by_contra hne
    have h0 := hall 0 (by omega)
    rw [Nat.pow_zero, Nat.mul_one] at h0
    exact hP h0
  rw [hi, hzero, Nat.pow_zero, Nat.mul_one]

/-- A factor below 1 makes the threshold too great. -/
theorem le_thresholdOf {f : ℚ} (hf : 0 < f) (hlt : f < 1) (size : Nat) :
    size ≤ thresholdOf (inverseOf f) size := by
  rw [thresholdOf, inverseOf, if_pos hf]
  apply Nat.le_floor
  have hone : 1 ≤ 1 / f := by
    rw [le_div_iff₀ hf]
    linarith
  exact le_mul_of_one_le_right (by positivity) hone

/-- A factor above 1 makes it too small. -/
theorem thresholdOf_lt {f : ℚ} (hlt : 1 < f) {size : Nat} (hsize : 0 < size) :
    thresholdOf (inverseOf f) size < size := by
  have hf : 0 < f := by linarith
  rw [thresholdOf, inverseOf, if_pos hf]
  apply (Nat.floor_lt (by positivity)).mpr
  have hone : 1 / f < 1 := by
    rw [div_lt_one hf]
    exact hlt
  have hpos : (0 : ℚ) < size := by exact_mod_cast hsize
  exact mul_lt_of_lt_one_right hpos hone

/-- What the second of two insertions into a new container would have to obey. -/
theorem TwoInserted.not_obeys (hC : C.Lawful) {f : ℚ} (hf : 0 < f) (hne : f ≠ 1) {k k' : Key}
    {s₀ s₁ s₂ : Loaded Addr Key} (h : TwoInserted C s₀ s₁ s₂ k k' fuel) (hs₀ : Stored C s₀)
    (hfactor : s₀.factor = .exact f) (hbuckets : s₀.world.buckets = 2)
    (hcached : s₀.world.heap.cachedThreshold = 0)
    (h₁ : ObeysLoad f s₀.world s₁.world (Completes s₀.world s₁.world (some (.flag true : Reply Key))))
    (h₂ : ObeysLoad f s₁.world s₂.world (Completes s₁.world s₂.world (some (.flag true : Reply Key)))) :
    False := by
  have hs₁ := hs₀.run hC h.first
  have hexp₁ := hs₀.expands hC rfl h.first
  have hexp₂ := hs₁.expands hC rfl h.second
  obtain ⟨hscales₁, -⟩ := hs₀.scales hC h.first nofun
  obtain ⟨hscales₂, -⟩ := hs₁.scales hC h.second nofun
  have hdone : Completes s₁.world s₂.world (some (.flag true : Reply Key)) := by
    refine ⟨by simp, ?_⟩
    rw [h.one, h.two]
    rfl
  have hthreshold₁ : s₁.world.heap.threshold = thresholdOf (inverseOf f) := by
    rw [hscales₁.threshold, hs₀.threshold, hfactor]
    rfl
  have hthreshold₂ : s₂.world.heap.threshold = thresholdOf (inverseOf f) := by
    rw [hscales₂.threshold, hthreshold₁]
  have hcounted₁ : s₁.world.heap.counted = 1 := by
    rw [Heap.counted, h.one]
    rfl
  have hcounted₂ : s₂.world.heap.counted = 2 := by
    rw [Heap.counted, h.two]
    rfl
  rcases lt_or_gt_of_ne hne with hlt | hgt
  · -- the table stays, although there are too many elements for the factor
    have hroomy : 2 ≤ thresholdOf (inverseOf f) 2 := le_thresholdOf hf hlt 2
    have hb₁ : s₁.world.buckets = 2 := by
      refine (eq_of_doubled hexp₁.doubled ?_).trans hbuckets
      rintro ⟨-, hforce | hw⟩
      · cases hforce
      · rw [hthreshold₁, hbuckets, hcounted₁] at hw
        omega
    have hb₂ : s₂.world.buckets = 2 := by
      refine (eq_of_doubled hexp₂.doubled ?_).trans hb₁
      rintro ⟨-, hforce | hw⟩
      · cases hforce
      · rw [hthreshold₂, hb₁, hcounted₂] at hw
        omega
    rcases h₂.bound hdone with hle | htop
    · rw [hcounted₂, hb₂] at hle
      push_cast at hle
      linarith
    · rw [hb₂] at htop
      exact absurd htop (by decide)
  · -- the second element makes the table grow, although the factor allows it
    have htight : thresholdOf (inverseOf f) 2 < 2 := thresholdOf_lt hgt (by decide)
    have hb₁ : s₁.world.buckets = 2 := by
      refine (eq_of_doubled (P := fun size => ((size : Nat) : ℚ) * f < s₁.world.heap.counted)
        h₁.needed fun hw => ?_).trans hbuckets
      rw [hbuckets, hcounted₁] at hw
      push_cast at hw
      linarith
    have hb₂ : s₂.world.buckets = 2 := by
      refine (eq_of_doubled (P := fun size => ((size : Nat) : ℚ) * f < s₂.world.heap.counted)
        h₂.needed fun hw => ?_).trans hb₁
      rw [hb₁, hcounted₂] at hw
      push_cast at hw
      linarith
    have hcached₁ : s₁.world.heap.cachedThreshold < 2 := by
      rcases hscales₁.cached with heq | ⟨i, hle, heq⟩
      · omega
      · have hmono := thresholdOf_mono (inverseOf_nonneg f) (hle.trans_eq hb₁)
        rw [hs₀.threshold, hfactor] at heq
        replace heq : s₁.world.heap.cachedThreshold = thresholdOf (inverseOf f) (2 ^ i) := heq
        omega
    rcases hexp₂.settled hdone with hle | hnot
    · omega
    · apply hnot
      rw [hb₂]
      refine ⟨by decide, .inr ?_⟩
      rw [hthreshold₂, hcounted₂]
      exact htight

theorem not_loadLaw (hC : C.Lawful) {k k' : Key} (hk : C.eq k k' = false) (key : Addr → Key)
    (head : Addr) {pick : Nat → Finset Addr → Addr} (hpick : ∀ n U, pick n U ∉ U) {f : ℚ}
    (hf : 0 < f) (hne : f ≠ 1) : ¬ LoadLaw C key head pick f := by
  intro hlaw
  obtain ⟨s₁, s₂, fuel, h⟩ := exists_twoInserted hC hk key head hpick (.exact f)
  have h₁ := hlaw _ [] fuel [] _ (by simp) rfl _ _ s₁ rfl h.first
  have hrun : runJobs C fuel [.call (.emplace k)]
      (Loaded.new key head pick (fun _ => []) (.exact f)) =
      some ([some (.flag true)], s₁) := by
    rw [runJobs, h.first]
    rfl
  have h₂ := hlaw _ [.call (.emplace k)] fuel _ s₁ (by simp [Job.isUpdate]) hrun _ _ s₂ rfl
    h.second
  exact h.not_obeys hC hf hne (stored_new C key head hpick _ (.exact f)) rfl rfl rfl h₁ h₂

/-- The law of the load factor holds for the factor 1 and for no other one. -/
theorem loadLaw_iff (C : Config Key) (hC : C.Lawful) (k k' : Key) (hk : C.eq k k' = false)
    (key : Addr → Key) (head : Addr) (pick : Nat → Finset Addr → Addr)
    (hpick : ∀ n U, pick n U ∉ U) (f : ℚ) (hf : 0 < f) :
    LoadLaw C key head pick f ↔ f = 1 := by
  constructor
  · intro hlaw
    by_contra hne
    exact not_loadLaw hC hk key head hpick hf hne hlaw
  · rintro rfl
    exact loadLaw_one hC key head hpick

/-- Numbers of one hash, and the factor 1. -/
theorem loadLaw_iff_numbers :
    LoadLaw colliding (fun _ => 0) 0 pickAbove 1 ↔ (1 : ℚ) = 1 :=
  loadLaw_iff colliding colliding_lawful 1 2 (by decide) (fun _ => 0) 0 pickAbove pickAbove_fresh 1
    one_pos

/-- With the factor 2 the second element makes four buckets of two, which would have been enough
for four elements; with the factor 1/2 two elements stay in two buckets, which allow one. -/
theorem loadLaw_broken :
    ((runJobs colliding 400 [.call (.emplace 1), .call (.emplace 2)]
        (newNumbers (.exact 2))).map fun r =>
          (r.2.world.heap.counted, r.2.world.buckets)) = some (2, 4) ∧
      ((runJobs colliding 400 [.call (.emplace 1), .call (.emplace 2)]
        (newNumbers (.exact (1 / 2)))).map fun r =>
          (r.2.world.heap.counted, r.2.world.buckets)) = some (2, 2) ∧
      ¬ LoadLaw colliding (fun _ => 0) 0 pickAbove 2 :=
  ⟨by decide +kernel, by decide +kernel, not_loadLaw colliding_lawful (show colliding.eq 1 2 = false by decide)
    (fun _ => 0) 0 pickAbove_fresh (by decide +kernel) (by decide +kernel)⟩

end Law

end MpmcMap.Unordered
