import MpmcMap.Floats.Scaling
import MpmcMap.Unordered.Sequential

/-!
# Sequential runs

One thread uses a container: the calls of the map, the creation of buckets, `reserve` and changes of
the load factor, in any order, where any allocation may throw. Every job leaves a sorted list, a
table whose filled buckets have filled parents, and never fewer buckets than before.
-/

namespace MpmcMap.Unordered

open Conc
open Prog (perform iterate)
open Float.Model (UnpackedFloat)
open Floats (toSize Converts widen scaled_mono toSize_scaled_mono)

variable {Addr Key : Type}

/-! ## The load factor -/

/-- The max load factor: what is computed from it. -/
structure LoadFactor where
  /-- `static_cast<std::size_t>(size * inv_max_load_factor_)`. -/
  threshold : Nat → Nat
  /-- The conversion that gives the threshold has a value. -/
  HasThreshold : Nat → Prop
  /-- The number of buckets that `reserve(n)` asks for. -/
  target : Nat → Nat

/-- `inv_max_load_factor_`. -/
def invMaxLoadFactor (f : Float32) : Float32 := if 0 < f then 1 / f else 1

/-- The product `size * inv_max_load_factor_`. -/
def scaledSize (f : Float32) (size : Nat) : Float32 := size.toUInt64.toFloat32 * invMaxLoadFactor f

/-- The factor as the code computes with it; `undef` gives the results of the conversions that the
language leaves open. -/
def LoadFactor.float (undef : UnpackedFloat → Nat) (f : Float32) : LoadFactor where
  threshold size := toSize undef (scaledSize f size).toModel.unpack
  HasThreshold size := Converts (scaledSize f size).toModel.unpack
  target n := toSize undef
    (n.toUInt64.toFloat * widen (invMaxLoadFactor f) + 0.999999).toModel.unpack

/-- `inv_max_load_factor_`, as an exact number. -/
def inverseOf (f : ℚ) : ℚ := if 0 < f then 1 / f else 1

/-- The threshold of a table, computed with exact numbers. -/
def thresholdOf (inv : ℚ) (size : Nat) : Nat := ⌊(size : ℚ) * inv⌋₊

/-- The target of `reserve(n)`, computed with exact numbers. -/
def reserveTarget (inv : ℚ) (n : Nat) : Nat := ⌊(n : ℚ) * inv + 999999 / 1000000⌋₊

/-- An exact factor with an exact inverse. -/
def LoadFactor.exact (f : ℚ) : LoadFactor where
  threshold := thresholdOf (inverseOf f)
  HasThreshold _ := True
  target := reserveTarget (inverseOf f)

/-- `bucket_count()`. -/
def World.buckets (w : World Addr Key) : Nat := w.heap.size w.heap.table

/-- The container and its load factor. -/
structure Loaded (Addr Key : Type) where
  world : World Addr Key
  factor : LoadFactor

/-- `set_max_load_factor(f)`. -/
def Loaded.setMaxLoadFactor (s : Loaded Addr Key) (f : LoadFactor) : Loaded Addr Key where
  world := { s.world with heap := { s.world.heap with threshold := f.threshold } }
  factor := f

/-- The constructor. -/
def Loaded.new (key : Addr → Key) (head : Addr) (pick : Nat → Finset Addr → Addr)
    (choices : Decisions) (f : LoadFactor) : Loaded Addr Key where
  world := .new key head pick f.threshold choices
  factor := f

/-- A new container of numbers, where nothing throws. -/
abbrev newNumbers (f : LoadFactor) : Loaded Nat Nat :=
  .new (fun _ => 0) 0 pickAbove (fun _ => []) f

/-- A float factor. Conversions that the language leaves open give 0. -/
abbrev floatFactor (f : Float32) : LoadFactor := .float (fun _ => 0) f

/-- Of the tables whose threshold can be computed, a greater one has no smaller threshold. -/
def LoadFactor.Grows (f : LoadFactor) : Prop :=
  ∀ i j, i ≤ j → 2 ^ j ≤ MAX_BUCKETS → f.HasThreshold (2 ^ j) →
    f.HasThreshold (2 ^ i) ∧ f.threshold (2 ^ i) ≤ f.threshold (2 ^ j)

/-- A threshold in floats does not fall as the tables double. -/
theorem LoadFactor.grows_float (undef : UnpackedFloat → Nat) (f : Float32) :
    (LoadFactor.float undef f).Grows := by
  intro i j hij hj hdefined
  have hmax : j ≤ 30 := (Nat.pow_le_pow_iff_right (by decide)).mp hj
  exact ⟨(scaled_mono hij hmax hdefined).1, toSize_scaled_mono undef hij hmax hdefined⟩

/-- The inverse of a factor is no negative number. -/
theorem inverseOf_nonneg (f : ℚ) : 0 ≤ inverseOf f := by
  unfold inverseOf
  split
  · positivity
  · exact zero_le_one

/-- A greater table has no smaller threshold. -/
theorem thresholdOf_mono {inv : ℚ} (hinv : 0 ≤ inv) : Monotone (thresholdOf inv) := by
  intro a b hab
  apply Nat.floor_le_floor
  exact mul_le_mul_of_nonneg_right (by exact_mod_cast hab) hinv

theorem LoadFactor.grows_exact (f : ℚ) : (LoadFactor.exact f).Grows := fun _ _ hij _ _ =>
  ⟨trivial, thresholdOf_mono (inverseOf_nonneg f) (Nat.pow_le_pow_right (by decide) hij)⟩

/-! ## Jobs -/

/-- What a thread does with its container. -/
inductive Job (Key : Type) where
  | call (q : Call Key)
  /-- `initialize_bucket` of the bucket of a hash. -/
  | bucket (mixed : Word)
  | reserve (n : Nat)
  | setMaxLoadFactor (f : LoadFactor)

section Code

variable [DecidableEq Addr] (C : Config Key)

/-- `bucket_count()`. -/
def bucketCount : Code Addr Key Nat := do
  let t ← perform .loadTable
  perform (.loadSize t)

/-- `initialize_bucket` of the bucket of `mixed`, as `locate` calls it. -/
def createBucket (mixed : Word) : Code Addr Key Unit := do
  let t ← loadTable C
  let b := bucketOf mixed (← perform (.loadSize t))
  initializeBucket C t b

/-- One iteration of `reserve`. -/
def Container.reserveStep (target : Nat) : Steps Addr Key (Option (Unit ⊕ Unit)) :=
  (bucketCount.attempt throwing).andThen fun count =>
    if count < target then
      (Container.growOnce C true).andThen fun _ => .ret (some (.inl ()))
    else .ret (some (.inr ()))

/-- `reserve(n)`, where `n` asks for `target` buckets. -/
def Container.reserve (target : Nat) : Steps Addr Key (Option Unit) :=
  iterate (fun (_ : Unit) => (Container.reserveStep C target).bind fun r => .ret (Prog.leave r)) ()

/-- The code of a job. -/
def Job.code (f : LoadFactor) : Job Key → Steps Addr Key (Option (Reply Key))
  | .call q => q.code C
  | .bucket mixed => ((createBucket C mixed).attempt throwing).andThen fun _ => .ret (some .done)
  | .reserve n => (Container.reserve C (f.target n)).andThen fun _ => .ret (some .done)
  | .setMaxLoadFactor _ => .ret (some .done)

/-- The container after a job that leaves the world `w`. -/
def Job.after (s : Loaded Addr Key) (w : World Addr Key) : Job Key → Loaded Addr Key
  | .setMaxLoadFactor f => { s with world := w }.setMaxLoadFactor f
  | _ => { s with world := w }

/-- Run a job for at most `fuel` steps. -/
def Job.run (fuel : Nat) (j : Job Key) (s : Loaded Addr Key) :
    Option (Option (Reply Key) × Loaded Addr Key) :=
  ((j.code C s.factor).run (fun o w => o.alone w) fuel s.world).map fun r =>
    (r.1, j.after s r.2)

/-- Run jobs one after another, each for at most `fuel` steps. A reply `none` is an exception. -/
def runJobs (fuel : Nat) :
    List (Job Key) → Loaded Addr Key → Option (List (Option (Reply Key)) × Loaded Addr Key)
  | [], s => some ([], s)
  | j :: js, s => do
    let (r, s) ← j.run C fuel s
    let (rs, s) ← runJobs fuel js s
    return (r :: rs, s)

/-- What holds at the start and is kept by every job holds after every run. -/
theorem runJobs_induction {P : Loaded Addr Key → Prop} {fuel : Nat} {js : List (Job Key)}
    {s s' : Loaded Addr Key} {rs : List (Option (Reply Key))}
    (hstep : ∀ j ∈ js, ∀ s r s', P s → j.run C fuel s = some (r, s') → P s')
    (h : P s) (hrun : runJobs C fuel js s = some (rs, s')) : P s' := by
  induction js generalizing s rs with
  | nil =>
    obtain ⟨-, rfl⟩ := Prod.mk.inj (Option.some.inj hrun)
    exact h
  | cons j js ih =>
    obtain ⟨⟨r, s₁⟩, hj, hrest⟩ := Option.bind_eq_some_iff.mp hrun
    obtain ⟨⟨rs', s₂⟩, hjs, hend⟩ := Option.bind_eq_some_iff.mp hrest
    obtain ⟨-, rfl⟩ := Prod.mk.inj (Option.some.inj hend)
    have hs₁ := hstep j (by simp) s r s₁ h hj
    exact ih (fun j hj => hstep j (List.mem_cons_of_mem _ hj)) hs₁ hjs

end Code

/-! ## What every job keeps -/

/-- The parent of a filled bucket is filled. -/
def Heap.Rooted (h : Heap Addr Key) : Prop :=
  ∀ b < h.size h.table, b ≠ 0 → (h.bucket h.table b).isSome = true →
    (h.bucket h.table (parentBucket b)).isSome = true

/-- Between two jobs: the list is `N`, and the allocator is sound. -/
structure Between (C : Config Key) (w : World Addr Key) (N : List Addr) : Prop where
  stores : Stores C w.heap N
  rooted : w.heap.Rooted
  /-- The first bucket has one dummy. -/
  origin : ∀ a ∈ N, w.heap.soKey a = 0 → w.heap.bucket w.heap.table 0 = some a
  allocates : w.heap.Allocates

/-- The table and what decides on its growth are the same. -/
structure SameTable (w w' : World Addr Key) : Prop where
  table : w'.heap.table = w.heap.table
  size : w'.heap.size = w.heap.size
  bucket : w'.heap.bucket = w.heap.bucket
  pick : w'.heap.pick = w.heap.pick
  threshold : w'.heap.threshold = w.heap.threshold
  cached : w'.heap.cachedThreshold = w.heap.cachedThreshold

/-- The number of buckets grows, and the cached threshold is the old one or that of a table that was
there on the way. -/
structure Scales (w w' : World Addr Key) : Prop where
  size_le : w.heap.size w.heap.table ≤ w'.heap.size w'.heap.table
  threshold : w'.heap.threshold = w.heap.threshold
  cached : w'.heap.cachedThreshold = w.heap.cachedThreshold ∨
    ∃ i, 2 ^ i ≤ w'.heap.size w'.heap.table ∧ w'.heap.cachedThreshold = w.heap.threshold (2 ^ i)

/-- From one job to the next. -/
structure Moves (C : Config Key) (w w' : World Addr Key) : Prop where
  between : ∃ N, Between C w' N
  scales : Scales w w'

section Moves

variable {C : Config Key} {w w' w'' u v : World Addr Key} {N N' new : List Addr} {m : Nat}
  {n : Addr} {k : Key} {mixed : Word} {force : Bool}

theorem scales_refl (w : World Addr Key) : Scales w w := ⟨le_refl _, rfl, .inl rfl⟩

theorem Scales.trans (h : Scales w w') (h' : Scales w' w'') : Scales w w'' where
  size_le := h.size_le.trans h'.size_le
  threshold := h'.threshold.trans h.threshold
  cached := by
    rcases h'.cached with heq | ⟨i, hle, heq⟩
    · rw [heq]
      exact h.cached.imp id fun ⟨i, hle, hold⟩ => ⟨i, hle.trans h'.size_le, hold⟩
    · exact .inr ⟨i, hle, by rw [heq, h.threshold]⟩

theorem SameTable.scales (h : SameTable w w') : Scales w w' where
  size_le := by rw [h.size, h.table]
  threshold := h.threshold
  cached := .inl h.cached

/-- Every node of `N'` with the key 0 was there before. -/
def Heap.KeepsOrigin (h h' : Heap Addr Key) (N N' : List Addr) : Prop :=
  ∀ a ∈ N', h'.soKey a = 0 → a ∈ N ∧ h.soKey a = 0

/-- Fewer nodes with the keys that they had. -/
theorem Heap.keepsOrigin_sub {h h' : Heap Addr Key} (hso : h'.soKey = h.soKey) (hsub : N' ⊆ N) :
    h.KeepsOrigin h' N N' := by
  intro a ha hzero
  rw [hso] at hzero
  exact ⟨hsub ha, hzero⟩

theorem Heap.keepsOrigin_eq {h h' : Heap Addr Key} (hso : ∀ a ∈ N, h'.soKey a = h.soKey a) :
    h.KeepsOrigin h' N N := by
  intro a ha hzero
  rw [hso a ha] at hzero
  exact ⟨ha, hzero⟩

/-- Where the table is the same, the container is between two calls again. -/
theorem Between.sameTable (h : Between C w N) (hs : Stores C w'.heap N') (hw : SameTable w w')
    (ho : w.heap.KeepsOrigin w'.heap N N') : Between C w' N' where
  stores := hs
  origin := by
    intro a ha hzero
    obtain ⟨haN, hold⟩ := ho a ha hzero
    rw [hw.bucket, hw.table]
    exact h.origin a haN hold
  rooted := by
    unfold Heap.Rooted
    rw [hw.size, hw.table, hw.bucket]
    exact h.rooted
  allocates := by
    unfold Heap.Allocates
    rw [hw.pick]
    exact h.allocates

theorem Moves.trans (h : Moves C w w') (h' : Moves C w' w'') : Moves C w w'' :=
  ⟨h'.between, h.scales.trans h'.scales⟩

theorem Scales.moves (h : Scales w w') (hm : Moves C w' w'') : Moves C w w'' :=
  ⟨hm.between, h.trans hm.scales⟩

theorem Between.moves (h : Between C w N) : Moves C w w := ⟨⟨N, h⟩, scales_refl w⟩

/-- Where the table stays, only the list matters. -/
theorem Between.moves_same (h : Between C w N) (hs : Stores C w'.heap N') (hw : SameTable w w')
    (ho : w.heap.KeepsOrigin w'.heap N N') : Moves C w w' :=
  ⟨⟨N', h.sameTable hs hw ho⟩, hw.scales⟩

/-! ### Dummies -/

/-- After a growth. -/
theorem Between.grows (h : Between C w N) (hg : Grows C w w' N N' new) : Between C w' N' where
  stores := hg.stores
  rooted := by
    intro b hlt hb hfilled
    have hparent := hg.parent b
    rw [← hg.agrees.table] at hparent
    rcases hparent hfilled with hold | hnew
    · rw [hg.agrees.table, hg.agrees.size] at hlt
      rw [hg.agrees.table] at hold
      obtain ⟨d, hd⟩ := Option.isSome_iff_exists.mp (h.rooted b hlt hb hold)
      rw [hg.agrees.table, hg.bucket _ d hd]
      rfl
    · exact hnew
  origin := by
    intro a ha hzero
    rcases List.mem_append.mp (hg.perm.mem_iff.mp ha) with hnew | hold
    · exact absurd hzero (hg.positive a hnew)
    · rw [hg.soKey a (h.stores.alive a hold)] at hzero
      rw [hg.agrees.table]
      exact hg.bucket 0 a (h.origin a hold hzero)
  allocates := by
    unfold Heap.Allocates
    rw [hg.agrees.pick]
    exact h.allocates

/-- A growth doubles tables. -/
theorem Grows.scales (hg : Grows C w w' N N' new) : Scales w w' where
  size_le := by rw [hg.agrees.size, hg.agrees.table]
  threshold := hg.agrees.threshold
  cached := .inl hg.agrees.cached

theorem Between.moves_grows (h : Between C w N) (hg : Grows C w w' N N' new) : Moves C w w' :=
  ⟨⟨N', h.grows hg⟩, hg.scales⟩

variable [DecidableEq Addr]

/-- A call that runs out of memory in a growth is over. -/
theorem Between.exhausts (h : Between C w N) (he : Exhausts w w') : Moves C w w' := by
  cases he with
  | node _ =>
    exact h.moves_same h.stores ⟨rfl, rfl, rfl, rfl, rfl, rfl⟩ (Heap.keepsOrigin_eq fun _ _ => rfl)
  | blank _ _ =>
    have hs : Stores C w.heap.acquire.2 N :=
      h.stores.congr (fun _ _ => rfl) (fun _ _ => rfl) (fun _ _ _ => rfl)
        (fun a ha => Finset.mem_insert_of_mem (h.stores.alive a ha)) ⟨rfl, rfl, rfl, rfl, rfl⟩
    exact h.moves_same hs ⟨rfl, rfl, rfl, rfl, rfl, rfl⟩ (Heap.keepsOrigin_eq fun _ _ => rfl)

/-- A call that runs out of memory in a walk is over. -/
theorem Between.starves (h : Between C w N) (hst : Starves C w w' N m) : Moves C w w' := by
  obtain ⟨u, N', new, hg, -, he⟩ := hst.grown
  exact (h.moves_grows hg).trans ((h.grows hg).exhausts he)

/-! ### Growth -/

omit [DecidableEq Addr] in
/-- The first bucket keeps its dummy. -/
theorem Resizes.rooted (h : Resizes w w' force) (hr : w.heap.Rooted)
    (hs' : Stores C w'.heap N') : w'.heap.Rooted := by
  intro b hlt hb hfilled
  have hold : b < w.heap.size w.heap.table := by
    by_contra hge
    rw [h.empty b hlt (not_lt.mp hge)] at hfilled
    cases hfilled
  have hparent : parentBucket b < b := by
    apply parentBucket_lt hb
    have := hs'.size_le
    omega
  rw [h.cells b hold] at hfilled
  rw [h.cells _ (hparent.trans hold)]
  exact hr b hold hb hfilled

omit [DecidableEq Addr] in
/-- After a resize. -/
theorem Between.resizes (h : Between C w N) (hr : Resizes w w' force) (hs : Stores C w'.heap N) :
    Between C w' N where
  stores := hs
  rooted := hr.rooted h.rooted hs
  origin := by
    intro a ha hzero
    rw [hr.soKey] at hzero
    rw [hr.cells 0 h.stores.size_pos]
    exact h.origin a ha hzero
  allocates := by
    unfold Heap.Allocates
    rw [hr.pick]
    exact h.allocates

omit [DecidableEq Addr] in
theorem Between.regrows {x : Option Unit} (h : Between C w N) (hr : Regrows C w w' N force x) :
    Moves C w w' :=
  ⟨⟨N, h.resizes hr.toResizes hr.stores⟩, hr.size_le, hr.threshold, .inl hr.cached⟩

omit [DecidableEq Addr] in
theorem Between.adapts {x : Option Unit} (h : Between C w N) (ha : Adapts C w w' N x) :
    Moves C w w' :=
  ⟨⟨N, h.resizes ha.toResizes ha.stores⟩, ha.size_le, ha.threshold, ha.cached⟩

/-! ### Insertions -/

/-- The node of an insertion is new. -/
theorem Between.created (h : Between C w N) (k : Key) :
    w.heap.acquire.1 ∉ N ∧ Between C (w.created k) N ∧ SameTable w (w.created k) := by
  obtain ⟨hn, hs⟩ := h.stores.created h.allocates k
  have hsame : SameTable w (w.created k) := ⟨rfl, rfl, rfl, rfl, rfl, rfl⟩
  have ho : w.heap.KeepsOrigin (w.created k).heap N N :=
    Heap.keepsOrigin_eq fun a ha => Function.update_of_ne (ne_of_mem_of_not_mem ha hn) _ _
  exact ⟨hn, h.sameTable hs hsame ho, hsame⟩

theorem Between.withSoKey (h : Between C w N) (hn : n ∉ N) (sk : Word) :
    Between C (w.withSoKey n sk) N :=
  h.sameTable (h.stores.withSoKey hn sk) ⟨rfl, rfl, rfl, rfl, rfl, rfl⟩
    (Heap.keepsOrigin_eq fun _ ha => Function.update_of_ne (ne_of_mem_of_not_mem ha hn) _ _)

omit [DecidableEq Addr] in
theorem Inserts.sameTable {A B : List Addr} {p : Addr} (hi : Inserts C u v N n A p B) :
    SameTable u v := by
  obtain ⟨v, hl, rfl⟩ := hi.links
  constructor
  all_goals
    dsimp only
    rw [hl.heap]

omit [DecidableEq Addr] in
/-- The new node has no key 0. -/
theorem Inserts.keepsOrigin {A B : List Addr} {p : Addr} (hi : Inserts C u v N n A p B)
    (hr : isRegular (u.heap.soKey n) = true) :
    u.heap.KeepsOrigin v.heap N (A ++ p :: n :: B) := by
  obtain ⟨-, -, hso, -⟩ := hi.regular_perm hr
  obtain ⟨v, hl, rfl⟩ := hi.links
  intro a ha hzero
  rw [hso] at hzero
  rcases List.mem_cons.mp ((perm_insert A B p n).mem_iff.mp ha) with rfl | hold
  · rw [hzero] at hr
    cases hr
  · exact ⟨hl.cut.eq ▸ hold, hzero⟩

/-- What a linked node leaves to `maybe_grow`. -/
theorem Between.inserts {A B : List Addr} {p : Addr} (hC : C.Lawful) (h : Between C w N)
    (hn : n ∉ N) (halive : n ∈ w.heap.inUse) (hkey : w.heap.key n = k)
    (hp : Prepares C (w.withSoKey n (C.soKey k)) u N N' new (C.mixedHash k))
    (hl : w.heap.lookup C N k = none) (hi : Inserts C u v N' n A p B) :
    Between C v (A ++ p :: n :: B) ∧ Scales w v ∧
      v.heap.size v.heap.table = w.heap.size w.heap.table ∧
      v.heap.cachedThreshold = w.heap.cachedThreshold ∧ v.heap.count = w.heap.count + 1 := by
  have hw := h.withSoKey hn (C.soKey k)
  have hu := hw.grows hp.toGrows
  have hsame := hi.sameTable
  have hlu : u.heap.lookup C N' k = none := by
    rw [hp.lookup (h.stores.withSoKey hn _) k, lookup_withSoKey hn, hl]
  have hso : u.heap.soKey n = C.soKey k :=
    (hp.soKey n halive).trans (Function.update_self _ _ _)
  have hsv := hi.stores hC hp.stores (hp.not_mem hn halive) ((hp.inUse n).mpr (.inr halive)) hso
    (by rw [hp.agrees.key]; exact hkey) hlu
  have hcount := (hi.regular_perm (by rw [hso]; exact isRegular_soKeyOf _)).2.2.2.1
  have hfirst : Scales w (w.withSoKey n (C.soKey k)) := ⟨le_refl _, rfl, .inl rfl⟩
  refine ⟨hu.sameTable hsv hsame (hi.keepsOrigin (by rw [hso]; exact isRegular_soKeyOf _)), hfirst.trans (hp.toGrows.scales.trans hsame.scales), ?_, ?_, ?_⟩
  · rw [hsame.size, hsame.table, hp.agrees.size, hp.agrees.table]
    rfl
  · rw [hsame.cached, hp.agrees.cached]
    rfl
  · rw [hcount, hp.agrees.count]
    rfl

/-- After an insertion, whatever its outcome. -/
theorem Between.linkage {x : Option Bool} (hC : C.Lawful) (h : Between C w N) (hn : n ∉ N)
    (halive : n ∈ w.heap.inUse) (hkey : w.heap.key n = k) (hl : Linkage C w N n k x w') :
    Moves C w w' := by
  have hw := h.withSoKey hn (C.soKey k)
  have hfirst : Moves C w (w.withSoKey n (C.soKey k)) :=
    ⟨⟨N, hw⟩, ⟨le_refl _, rfl, .inl rfl⟩⟩
  cases hl with
  | starved hst => exact hfirst.trans (hw.starves hst)
  | duplicate hp _ =>
    have hu := hw.grows hp.toGrows
    have hdestroyed := hu.stores.destroyed (hp.not_mem hn halive)
    exact (hfirst.trans (hw.moves_grows hp.toGrows)).trans
      (hu.moves_same hdestroyed ⟨rfl, rfl, rfl, rfl, rfl, rfl⟩
        (Heap.keepsOrigin_eq fun _ _ => rfl))
  | inserted hp hnone hi _ ha =>
    obtain ⟨hv, hscales, -⟩ := h.inserts hC hn halive hkey hp hnone hi
    exact hscales.moves (hv.adapts ha)

/-- A node whose payload is default-constructed. -/
theorem Between.blanked (h : Between C w N) :
    w.heap.acquire.1 ∉ N ∧ Stores C w.blanked.heap N := by
  have hfresh : w.heap.acquire.1 ∉ w.heap.inUse := h.allocates _ _
  have hn : w.heap.acquire.1 ∉ N := fun hmem => hfresh (h.stores.alive _ hmem)
  refine ⟨hn, h.stores.congr (fun a ha => ?_) (fun a ha => ?_) (fun _ _ _ => rfl) (fun a ha => ?_)
    ⟨rfl, rfl, rfl, rfl, rfl⟩⟩
  · exact Function.update_of_ne (ne_of_mem_of_not_mem ha hn) _ _
  · exact Function.update_of_ne (ne_of_mem_of_not_mem ha hn) _ _
  · exact Finset.mem_insert_of_mem (h.stores.alive a ha)

theorem Between.blanked_origin (h : Between C w N) :
    w.heap.KeepsOrigin w.blanked.heap N N :=
  Heap.keepsOrigin_eq fun _ ha =>
    Function.update_of_ne (ne_of_mem_of_not_mem ha h.blanked.1) _ _

/-- After `emplace`. -/
theorem Between.emplaces {x : Option Bool} (hC : C.Lawful) (h : Between C w N)
    (he : Emplaces C w N k x w') : Moves C w w' := by
  cases he with
  | exhausted he => exact h.exhausts he
  | value _ _ _ =>
    obtain ⟨hn, hs⟩ := h.blanked
    have hs' := Stores.destroyed (w := { w.blanked with
      choices := w.blanked.choices.next .value }) hs hn
    exact h.moves_same hs' ⟨rfl, rfl, rfl, rfl, rfl, rfl⟩ h.blanked_origin
  | linkage _ _ _ hl =>
    obtain ⟨hn, hc, hsame⟩ := h.created k
    have hlinkage := hc.linkage hC hn (Finset.mem_insert_self _ _) (Function.update_self _ _ _) hl
    exact hsame.scales.moves hlinkage

/-- After `operator[]`. -/
theorem Between.subscripts {x : Option (Option Key)} (hC : C.Lawful) (h : Between C w N)
    (hs : Subscripts C w N k x w') : Moves C w w' := by
  cases hs with
  | starved hst => exact h.starves hst
  | found hp _ => exact h.moves_grows hp.toGrows
  | exhausted hp _ he => exact (h.moves_grows hp.toGrows).trans ((h.grows hp.toGrows).exhausts he)
  | @value u N' new hp _ _ _ _ =>
    have hu := h.grows hp.toGrows
    obtain ⟨-, hblank⟩ := hu.blanked
    have hsame : SameTable u { u.blanked with choices := u.blanked.choices.next .value } :=
      ⟨rfl, rfl, rfl, rfl, rfl, rfl⟩
    exact (h.moves_grows hp.toGrows).trans (hu.moves_same hblank hsame hu.blanked_origin)
  | @linkage x u w' N' new hp _ _ _ _ _ hl =>
    obtain ⟨hn, hc, hsame⟩ := (h.grows hp.toGrows).created k
    have hlinkage := hc.linkage hC hn (Finset.mem_insert_self _ _) (Function.update_self _ _ _) hl
    exact (h.moves_grows hp.toGrows).trans (hsame.scales.moves hlinkage)

/-! ### The other calls -/

/-- Whether `retire` throws or not, the node is unlinked. -/
theorem Between.erased {A B : List Addr} {p t : Addr} {b : Bool}
    (h : Between C w (A ++ p :: t :: B)) (ht : isRegular (w.heap.soKey t) = true)
    (he : Erased w p t B b w') : Moves C w w' := by
  have hs := h.stores.unlinked ht
  have ho : w.heap.KeepsOrigin (w.unlinked p t B).heap (A ++ p :: t :: B) (A ++ p :: B) :=
    Heap.keepsOrigin_sub rfl
      ((List.Sublist.refl A).append ((List.sublist_cons_self t B).cons_cons p)).subset
  unfold Erased at he
  split at he
  · obtain ⟨-, rfl⟩ := he
    exact h.moves_same (hs.congr (fun _ _ => rfl) (fun _ _ => rfl) (fun _ _ _ => rfl) hs.alive
      ⟨rfl, rfl, rfl, rfl, rfl⟩) ⟨rfl, rfl, rfl, rfl, rfl, rfl⟩ ho
  · obtain ⟨-, rfl⟩ := he
    exact h.moves_same hs ⟨rfl, rfl, rfl, rfl, rfl, rfl⟩ ho

/-- After an erasure. -/
theorem Between.erases {x : Option Bool} (h : Between C w N) (he : Erases C w N k x w') :
    Moves C w w' := by
  cases he with
  | starved hst => exact h.starves hst
  | absent hp _ => exact h.moves_grows hp.toGrows
  | @present x u w' A B new p t hp hl _ her =>
    have htr : isRegular (u.heap.soKey t) = true := by
      rw [hp.soKey t (h.stores.alive t (lookup_some hl).1)]
      exact (lookup_some hl).2.1
    exact (h.moves_grows hp.toGrows).trans ((h.grows hp.toGrows).erased htr her)

omit [DecidableEq Addr] in
/-- After `clear`. -/
theorem Between.clears (h : Between C w N) (hc : Clears C w w' N) : Moves C w w' := by
  have hsame : SameTable w w' := by
    constructor
    all_goals
      rw [hc.heap]
  apply h.moves_same hc.stores hsame
  apply Heap.keepsOrigin_sub
  · rw [hc.heap]
  · exact (List.filter_sublist).subset

/-- Every call leaves the container between two jobs, also where it throws. -/
theorem call_moves (hC : C.Lawful) (h : Between C w N) (q : Call Key) :
    Ends (Solo.of Act.bounded) (fun _ w' => Moves C w w') (q.code C) w := by
  cases q with
  | emplace k =>
    refine Ends.andThen (emplace_ends hC h.allocates h.stores k) ?_ (fun _ he => h.emplaces hC he)
    intro b w' he
    exact Ends.ret (h.emplaces hC he)
  | subscript k =>
    refine Ends.andThen (subscript_ends hC h.allocates h.stores k) ?_
      (fun _ hs => h.subscripts hC hs)
    intro v w' hs
    exact Ends.ret (h.subscripts hC hs)
  | erase k =>
    refine Ends.andThen (eraseNode_finishes hC h.allocates h.stores k) ?_ (fun _ he => h.erases he)
    intro b w' he
    exact Ends.ret (h.erases he)
  | find k =>
    refine Ends.andThen (findValuePtr_ends hC h.allocates h.stores k) ?_
      (fun _ hst => h.starves hst)
    rintro v w' ⟨N', new, hp, -⟩
    exact Ends.ret (h.moves_grows hp.toGrows)
  | size => exact Until.perform rfl (Ends.ret h.moves)
  | clear =>
    refine Ends.andThen (clearImpl_finishes h.stores) ?_ (fun _ hx => by cases hx.1)
    rintro _ w' ⟨-, hc⟩
    exact Ends.ret (h.clears hc)
  | grow force =>
    refine Ends.andThen (growOnce_ends force h.stores) ?_ (fun _ hr => h.regrows hr)
    intro _ w' hr
    exact Ends.ret (h.regrows hr)

/-! ### The other jobs -/

theorem bucketCount_reads : Reads bucketCount (w.heap.size w.heap.table) w :=
  Finishes.access rfl rfl (Reads.perform rfl rfl)

/-- `initialize_bucket` of a bucket of the table. -/
theorem createBucket_finishes (hC : C.Lawful) (h : Between C w N) (mixed : Word) :
    Finishes (fun x w' => x.elim (Starves C w w' N (w.heap.lack mixed)) fun _ =>
        ∃ N' new, Grows C w w' N N' new ∧ (w'.heap.bucket w.heap.table
          (bucketOf mixed (w.heap.size w.heap.table))).isSome = true)
      (createBucket C mixed) w := by
  obtain ⟨j, -, hj, hsize⟩ := h.stores.size
  have hlt : bucketOf mixed (w.heap.size w.heap.table) < w.heap.size w.heap.table := by
    rw [hsize]
    exact bucketOf_lt (by omega)
  refine (loadTable_reads C w).bind (Finishes.access rfl rfl ?_)
  apply Exits.mono (initializeBucketAt_finishes hC h.allocates h.stores (Nat.lt_succ_self _) hlt)
  rintro (_ | _) w' hx
  · exact hx
  · obtain ⟨N', new, hg, -, hsome⟩ := hx
    exact ⟨N', new, hg, hsome⟩

/-- `reserve` stops, or it grows as far as it can. -/
theorem reserveStep_ends (target : Nat) (hs : Stores C w.heap N) :
    Ends (Solo.of Act.bounded) (fun x v =>
        (w.heap.size w.heap.table < target ∧ ∃ r, Regrows C w v N true r ∧ x = r.map Sum.inl) ∨
        (target ≤ w.heap.size w.heap.table ∧ x = some (.inr ()) ∧ v = w))
      (Container.reserveStep C target) w := by
  refine Ends.andThen bucketCount_reads ?_ (fun _ h => by cases h.1)
  rintro count v ⟨hcount, rfl⟩
  obtain rfl := Option.some.inj hcount
  split
  · next hlt =>
    refine Ends.andThen (growOnce_ends true hs) ?_ fun v hr => .inl ⟨hlt, none, hr, rfl⟩
    intro r v hr
    exact Ends.ret (.inl ⟨hlt, some (), hr, rfl⟩)
  · next hge => exact Ends.ret (.inr ⟨not_lt.mp hge, rfl, rfl⟩)

/-- A run of `reserve` that returns: the invariant `I` is kept by growth and holds at the end. -/
theorem reserve_run {target fuel : Nat} {I : World Addr Key → Prop} {x : Option Unit}
    (hI : ∀ v v' r, I v → Stores C v.heap N → Regrows C v v' N true r → I v')
    (h : I w) (hs : Stores C w.heap N)
    (hrun : (Container.reserve C target).run (fun o w => o.alone w) fuel w = some (x, w')) :
    I w' ∧ Stores C w'.heap N ∧ (x = some () → target ≤ w'.heap.size w'.heap.table) ∧
      (x = none → ∃ v, I v ∧ v.GrowthFails true) := by
  refine Ends.run_iterate Solo.of_executes (I := fun _ v => I v ∧ Stores C v.heap N)
    (T := fun x v => I v ∧ Stores C v.heap N ∧
      (x = some () → target ≤ v.heap.size v.heap.table) ∧
      (x = none → ∃ v, I v ∧ v.GrowthFails true)) ?_ ⟨h, hs⟩ hrun
  rintro ⟨⟩ v ⟨hv, hsv⟩
  apply ends_unbounded
  refine Ends.bind (reserveStep_ends target hsv) ?_
  rintro _ v' (⟨-, r, hr, rfl⟩ | ⟨hge, rfl, rfl⟩)
  · cases r with
    | none => exact Ends.ret ⟨hI v v' none hv hsv hr, hr.stores, nofun,
        fun _ => ⟨v, hv, hr.fails.mp rfl⟩⟩
    | some r => exact Ends.ret ⟨hI v v' (some r) hv hsv hr, hr.stores⟩
  · exact Ends.ret ⟨hv, hsv, fun _ => hge, nofun⟩

end Moves

/-! ## Runs -/

/-- Between two jobs, with the load factor. -/
structure Stored (C : Config Key) (s : Loaded Addr Key) : Prop where
  between : ∃ N, Between C s.world N
  threshold : s.world.heap.threshold = s.factor.threshold

section Runs

variable [DecidableEq Addr] {C : Config Key} {s s' : Loaded Addr Key} {N : List Addr}
  {fuel : Nat} {r : Option (Reply Key)} {j : Job Key}

/-- The world after the code of a job. -/
theorem code_moves (hC : C.Lawful) {f : LoadFactor} {w w' : World Addr Key} (h : Between C w N)
    (hrun : (j.code C f).run (fun o w => o.alone w) fuel w = some (r, w')) : Moves C w w' := by
  cases j with
  | call q =>
    exact Ends.of_run (Q := fun _ w' => Moves C w w') Solo.of_executes
      (ends_unbounded (call_moves hC h q)) hrun
  | bucket mixed =>
    refine Ends.of_run (Q := fun _ w' => Moves C w w') Solo.of_executes (ends_unbounded
      (Ends.andThen (createBucket_finishes hC h mixed) ?_ fun v hst => h.starves hst)) hrun
    rintro _ v ⟨N', new, hg, -⟩
    exact Ends.ret (h.moves_grows hg)
  | reserve n =>
    -- a run of `reserve` may not return, but this one has
    obtain ⟨m, x, v, k, hres, -, hrest⟩ := Prog.run_bind hrun
    have hmoves := reserve_run (I := fun v => Moves C w v ∧ Between C v N)
      (fun v v' r hv _ hr => ⟨hv.1.trans (hv.2.regrows hr), hv.2.resizes hr.toResizes hr.stores⟩)
      ⟨h.moves, h⟩ h.stores hres
    have hend : w' = v := by
      cases x with
      | none => exact (Prod.mk.inj (Prog.run_ret hrest)).2
      | some x => exact (Prod.mk.inj (Prog.run_ret hrest)).2
    rw [hend]
    exact hmoves.1.1
  | setMaxLoadFactor f =>
    obtain ⟨-, rfl⟩ := Prod.mk.inj (Prog.run_ret hrun)
    exact h.moves

/-- A job leaves a stored container. -/
theorem Stored.run (hC : C.Lawful) (h : Stored C s) (hrun : j.run C fuel s = some (r, s')) :
    Stored C s' := by
  obtain ⟨⟨r', w⟩, hcode, heq⟩ := Option.map_eq_some_iff.mp hrun
  obtain ⟨rfl, rfl⟩ := Prod.mk.inj heq
  obtain ⟨N, hN⟩ := h.between
  have hm := code_moves hC hN hcode
  cases j with
  | setMaxLoadFactor f =>
    obtain ⟨N', hs', hr, ho, ha⟩ := hm.between
    refine ⟨⟨N', ?_, hr, ho, ha⟩, rfl⟩
    exact hs'.congr (fun _ _ => rfl) (fun _ _ => rfl) (fun _ _ _ => rfl) hs'.alive
      ⟨rfl, rfl, rfl, rfl, rfl⟩
  | call q => exact ⟨hm.between, hm.scales.threshold.trans h.threshold⟩
  | bucket mixed => exact ⟨hm.between, hm.scales.threshold.trans h.threshold⟩
  | reserve n => exact ⟨hm.between, hm.scales.threshold.trans h.threshold⟩

/-- A job that is no change of the load factor. -/
theorem Stored.scales (hC : C.Lawful) (h : Stored C s) (hrun : j.run C fuel s = some (r, s'))
    (hj : ∀ f, j ≠ .setMaxLoadFactor f) :
    Scales s.world s'.world ∧ s'.factor = s.factor := by
  obtain ⟨⟨r', w⟩, hcode, heq⟩ := Option.map_eq_some_iff.mp hrun
  obtain ⟨rfl, rfl⟩ := Prod.mk.inj heq
  obtain ⟨N, hN⟩ := h.between
  have hm := code_moves hC hN hcode
  cases j with
  | setMaxLoadFactor f => exact absurd rfl (hj f)
  | call q => exact ⟨hm.scales, rfl⟩
  | bucket mixed => exact ⟨hm.scales, rfl⟩
  | reserve n => exact ⟨hm.scales, rfl⟩

omit [DecidableEq Addr] in
/-- A new container is a stored one. -/
theorem stored_new (C : Config Key) (key : Addr → Key) (head : Addr)
    {pick : Nat → Finset Addr → Addr} (hpick : ∀ n U, pick n U ∉ U) (choices : Decisions) (f : LoadFactor) :
    Stored C (Loaded.new key head pick choices f) where
  between := by
    refine ⟨[head], stores_new C key head pick _, ?_, ?_, hpick⟩
    rotate_left
    · intro a ha _
      rw [List.mem_singleton.mp ha]
      rfl
    intro b _ hb hfilled
    have hnone : (Heap.new key head pick f.threshold).bucket 0 b = none :=
      if_neg fun h => hb h.2
    replace hfilled : ((Heap.new key head pick f.threshold).bucket 0 b).isSome =
      true := hfilled
    rw [hnone] at hfilled
    cases hfilled
  threshold := rfl

/-- The states of all sequential runs. -/
theorem runJobs_stored (hC : C.Lawful) {key : Addr → Key} {head : Addr}
    {pick : Nat → Finset Addr → Addr} (hpick : ∀ n U, pick n U ∉ U) {choices : Decisions} {f : LoadFactor}
    {js : List (Job Key)} {rs : List (Option (Reply Key))}
    (hrun : runJobs C fuel js (Loaded.new key head pick choices f) = some (rs, s)) : Stored C s :=
  runJobs_induction C (fun _ _ _ _ _ h hstep => h.run hC hstep)
    (stored_new C key head hpick choices f) hrun

end Runs

end MpmcMap.Unordered
