import MpmcMap.Unordered.Walks

/-!
# Lazy buckets in one thread

`locate` creates the dummies that the bucket of its key lacks. Each of them is an allocation, which
may throw: then the dummies created before it stay, and the elements are what they were.
-/

namespace MpmcMap.Unordered

open Conc
open Prog (perform iterate)

variable {Addr Key : Type} [DecidableEq Addr] {C : Config Key}

/-! ## What the creation of dummies changes -/

/-- The heaps differ only in links, split-order keys, buckets and blocks. -/
structure Heap.Agrees (h h' : Heap Addr Key) : Prop where
  table : h'.table = h.table
  tables : h'.tables = h.tables
  size : h'.size = h.size
  key : h'.key = h.key
  pick : h'.pick = h.pick
  count : h'.count = h.count
  growing : h'.growing = h.growing
  threshold : h'.threshold = h.threshold
  cached : h'.cachedThreshold = h.cachedThreshold
  retired : h'.retired = h.retired
  retiredTables : h'.retiredTables = h.retiredTables
  freed : h'.freed = h.freed

omit [DecidableEq Addr] in
theorem Heap.agrees_refl (h : Heap Addr Key) : h.Agrees h := by
  constructor <;> rfl

omit [DecidableEq Addr] in
theorem Heap.Agrees.trans {h h' h'' : Heap Addr Key} (h1 : h.Agrees h') (h2 : h'.Agrees h'') :
    h.Agrees h'' := by
  constructor
  · exact h2.table.trans h1.table
  · exact h2.tables.trans h1.tables
  · exact h2.size.trans h1.size
  · exact h2.key.trans h1.key
  · exact h2.pick.trans h1.pick
  · exact h2.count.trans h1.count
  · exact h2.growing.trans h1.growing
  · exact h2.threshold.trans h1.threshold
  · exact h2.cached.trans h1.cached
  · exact h2.retired.trans h1.retired
  · exact h2.retiredTables.trans h1.retiredTables
  · exact h2.freed.trans h1.freed

/-- The dummies `new` have been created, without an exception. -/
structure Grows (C : Config Key) (w w' : World Addr Key) (N N' new : List Addr) : Prop where
  stores : Stores C w'.heap N'
  perm : N'.Perm (new ++ N)
  order : N.Sublist N'
  agrees : w.heap.Agrees w'.heap
  soKey : ∀ a ∈ w.heap.inUse, w'.heap.soKey a = w.heap.soKey a
  dummies : ∀ a ∈ new, isRegular (w'.heap.soKey a) = false
  /-- None of them is a second dummy of the first bucket. -/
  positive : ∀ a ∈ new, w'.heap.soKey a ≠ 0
  fresh : ∀ a ∈ new, a ∉ w.heap.inUse
  inUse : ∀ a, a ∈ w'.heap.inUse ↔ a ∈ new ∨ a ∈ w.heap.inUse
  bucket : ∀ b d, w.heap.bucket w.heap.table b = some d →
    w'.heap.bucket w.heap.table b = some d
  /-- A bucket is filled after its parent. -/
  parent : ∀ b, (w'.heap.bucket w.heap.table b).isSome = true →
    (w.heap.bucket w.heap.table b).isSome = true ∨
      (w'.heap.bucket w.heap.table (parentBucket b)).isSome = true
  log : w'.log = w.log ++ new.map .construct
  choices : w.choices.Spends new.length w'.choices

section Grows

variable {w w' w'' : World Addr Key} {N N' N'' new new' : List Addr}

omit [DecidableEq Addr] in
theorem Stores.grows_refl (hs : Stores C w.heap N) : Grows C w w N N [] where
  stores := hs
  perm := .refl _
  order := .refl _
  agrees := w.heap.agrees_refl
  soKey := fun _ _ => rfl
  dummies := by simp
  positive := by simp
  fresh := by simp
  inUse := by simp
  bucket := fun _ _ h => h
  parent := fun _ h => .inl h
  log := by simp
  choices := w.choices.spends_zero

omit [DecidableEq Addr] in
theorem Grows.trans (h : Grows C w w' N N' new) (h' : Grows C w' w'' N' N'' new') :
    Grows C w w'' N N'' (new ++ new') where
  stores := h'.stores
  perm := by
    refine h'.perm.trans ?_
    rw [List.append_assoc]
    exact (h.perm.append_left new').trans (List.perm_append_comm_assoc _ _ _)
  order := h.order.trans h'.order
  agrees := h.agrees.trans h'.agrees
  soKey := by
    intro a ha
    rw [h'.soKey a ((h.inUse a).mpr (.inr ha)), h.soKey a ha]
  dummies := by
    intro a ha
    rcases List.mem_append.mp ha with ha | ha
    · rw [h'.soKey a ((h.inUse a).mpr (.inl ha))]
      exact h.dummies a ha
    · exact h'.dummies a ha
  positive := by
    intro a ha
    rcases List.mem_append.mp ha with ha | ha
    · rw [h'.soKey a ((h.inUse a).mpr (.inl ha))]
      exact h.positive a ha
    · exact h'.positive a ha
  fresh := by
    intro a ha hw
    rcases List.mem_append.mp ha with ha | ha
    · exact h.fresh a ha hw
    · exact h'.fresh a ha ((h.inUse a).mpr (.inr hw))
  inUse := by
    intro a
    rw [h'.inUse, h.inUse, List.mem_append]
    tauto
  bucket := by
    intro b d hb
    have h1 := h.bucket b d hb
    rw [← h.agrees.table] at h1 ⊢
    exact h'.bucket b d h1
  parent := by
    intro b hb
    have hparent := h'.parent b
    rw [h.agrees.table] at hparent
    -- filled by the second part, the parent may have been filled by the first
    rcases hparent hb with hold | hnew
    · refine (h.parent b hold).imp id fun hmid => ?_
      obtain ⟨d, hd⟩ := Option.isSome_iff_exists.mp hmid
      have hkept := h'.bucket (parentBucket b) d
      rw [h.agrees.table] at hkept
      rw [hkept hd]
      rfl
    · exact .inr hnew
  log := by
    rw [h'.log, h.log, List.append_assoc, List.map_append]
  choices := by
    rw [List.length_append]
    exact h.choices.trans h'.choices

omit [DecidableEq Addr] in
/-- The elements stay. -/
theorem Grows.regular (hs : Stores C w.heap N) (h : Grows C w w' N N' new) :
    w'.heap.regular N' = w.heap.regular N := by
  have hold : w'.heap.regular N = w.heap.regular N := by
    apply List.filter_congr
    intro a ha
    rw [h.soKey a (hs.alive a ha)]
  have hnew : w'.heap.regular new = [] := by
    rw [Heap.regular, List.filter_eq_nil_iff]
    intro a ha
    rw [h.dummies a ha]
    decide
  have hperm := h.perm.filter fun a => isRegular (w'.heap.soKey a)
  rw [List.filter_append] at hperm
  have hlen := hperm.length_eq
  rw [← hold]
  refine ((h.order.filter _).eq_of_length ?_).symm
  rw [hlen, List.length_append]
  have : (new.filter fun a => isRegular (w'.heap.soKey a)).length = 0 := by
    rw [show new.filter _ = _ from hnew]
    rfl
  omega

omit [DecidableEq Addr] in
theorem Grows.lookup (hs : Stores C w.heap N) (h : Grows C w w' N N' new) (k : Key) :
    w'.heap.lookup C N' k = w.heap.lookup C N k := by
  rw [Heap.lookup, Heap.lookup, h.regular hs, h.agrees.key]

end Grows

/-! ## A new node in the list -/

section Insertion

variable {α : Type} {w : World Addr Key} {N : List Addr} {n start : Addr}

/-- `alloc_node`. -/
theorem allocNode_ends {T : Option Addr → World Addr Key → Prop}
    (hnode : w.choices.head .node = true → T none { w with choices := w.choices.next .node })
    (hblank : w.choices.head .node = false → w.choices.head .blank = true →
      T none { w with heap := w.heap.acquire.2, choices := (w.choices.next .node).next .blank })
    (hok : w.choices.head .node = false → w.choices.head .blank = false →
      T (some w.heap.acquire.1) ⟨w.heap.acquire.2.blank w.heap.acquire.1,
        (w.choices.next .node).next .blank, w.log ++ [.construct w.heap.acquire.1]⟩) :
    Ends (Solo.of Act.bounded) T allocNode w := by
  cases hn : w.choices.head .node with
  | true =>
    refine Until.perform (congrArg some (if_pos hn)) (Ends.ret (hnode hn))
  | false =>
    refine Until.perform (congrArg some (if_neg (by simp [hn]))) ?_
    have hhead : (w.choices.next .node).head .blank = w.choices.head .blank := rfl
    cases hb : w.choices.head .blank with
    | true =>
      exact Until.perform (congrArg some (if_pos (hhead.trans hb))) (Ends.ret (hblank hn hb))
    | false =>
      refine Until.perform (congrArg some (if_neg ?_)) (Ends.ret (hok hn hb))
      rw [Bool.not_eq_true]
      exact hhead.trans hb

/-- A weak compare-exchange that finds what it expects. -/
theorem casNextWeak_finishes {Q : Option α → World Addr Key → Prop} {a : Addr}
    {expected desired : Link Addr} {k : Bool → Code Addr Key α} (ha : w.heap.next a = expected)
    (hok : Finishes Q (k true)
      { w with heap := w.heap.setNext a desired, choices := w.choices.next .weak })
    (hweak : w.choices.head .weak = true →
      Finishes Q (k false) { w with choices := w.choices.next .weak }) :
    Finishes Q (.act (.casNextWeak a expected desired) k) w := by
  cases hw : w.choices.head .weak with
  | true =>
    refine .access (r := false) rfl ?_ (hweak hw)
    simp [Op.bounded, Op.alone, Heap.compareExchange, hw]
  | false =>
    refine .access (r := true) rfl ?_ hok
    simp [Op.bounded, Op.alone, Heap.compareExchange, hw, ha]

/-- The node `n` is linked behind `p`, where its key belongs. -/
structure Links (C : Config Key) (w w' : World Addr Key) (N : List Addr) (n : Addr) (A : List Addr)
    (p : Addr) (B : List Addr) : Prop where
  cut : CutAt w.heap N (w.heap.soKey n) A p B
  heap : w'.heap = { w.heap with next := w'.heap.next }
  self : w'.heap.next n = .plain B.head?
  prev : w'.heap.next p = .plain (some n)
  other : ∀ a ∈ N, a ≠ p → w'.heap.next a = w.heap.next a
  log : w'.log = w.log
  choices : w.choices.Weaker w'.choices

/-- Attempts to link `n` have changed its own link only. -/
structure Attempts (w u : World Addr Key) (n : Addr) : Prop where
  heap : u.heap = { w.heap with next := u.heap.next }
  next : ∀ a, a ≠ n → u.heap.next a = w.heap.next a
  log : u.log = w.log
  choices : w.choices.Weaker u.choices

omit [DecidableEq Addr] in
theorem attempts_refl (w : World Addr Key) (n : Addr) : Attempts w w n :=
  ⟨rfl, fun _ _ => rfl, rfl, w.choices.weaker_refl⟩

section

variable {u : World Addr Key} {A B : List Addr} {p : Addr}

omit [DecidableEq Addr] in
theorem Attempts.stores (ha : Attempts w u n) (hs : Stores C w.heap N) (hn : n ∉ N) :
    Stores C u.heap N := by
  have hnext : ∀ a ∈ N, u.heap.next a = w.heap.next a :=
    fun a hN => ha.next a fun h => hn (h ▸ hN)
  rw [ha.heap]
  exact hs.congr hnext (fun _ _ => rfl) (fun _ _ _ => rfl) hs.alive ⟨rfl, rfl, rfl, rfl, rfl⟩

/-- The last steps of an attempt: store the link of `n`, then change the link of `p`. -/
theorem Attempts.link (ha : Attempts w u n) (hn : n ∉ N)
    (hcut : CutAt w.heap N (w.heap.soKey n) A p B) :
    Links C w ⟨(u.heap.setNext n (.plain B.head?)).setNext p (.plain (some n)), u.choices.next .weak,
      u.log⟩ N n A p B where
  cut := hcut
  heap := by
    rw [ha.heap]
    rfl
  self := by
    have hne : n ≠ p := by
      rintro rfl
      exact hn (by simp [hcut.eq])
    show Function.update (Function.update _ _ _) _ _ _ = _
    rw [Function.update_of_ne hne, Function.update_self]
  prev := Function.update_self _ _ _
  other := by
    intro a haN hap
    have hne : a ≠ n := fun h => hn (h ▸ haN)
    show Function.update (Function.update _ _ _) _ _ _ = _
    rw [Function.update_of_ne hap, Function.update_of_ne hne]
    exact ha.next a hne
  log := ha.log
  choices := ha.choices.next

/-- A spurious failure: the next attempt. -/
theorem Attempts.again (ha : Attempts w u n) (l : Link Addr) :
    Attempts w ⟨u.heap.setNext n l, u.choices.next .weak, u.log⟩ n where
  heap := by
    rw [ha.heap]
    rfl
  next := by
    intro a hne
    show Function.update _ _ _ _ = _
    rw [Function.update_of_ne hne]
    exact ha.next a hne
  log := ha.log
  choices := ha.choices.next

omit [DecidableEq Addr] in
theorem weak_lt (h : u.choices.head .weak = true) :
    ((u.choices.next .weak) .weak).length < (u.choices .weak).length := by
  rw [Decisions.next_self]
  unfold Decisions.head at h
  cases hl : u.choices .weak with
  | nil => simp [hl] at h
  | cons b l => simp

end

/-- `insert_from`. -/
theorem insertFrom_finishes (hs : Stores C w.heap N) (hstart : start ∈ N)
    (hlt : w.heap.soKey start < w.heap.soKey n) (hn : n ∉ N) :
    Finishes (fun x w' => x = some () ∧ ∃ A p B, Links C w w' N n A p B)
      (insertFrom C start n) w := by
  refine .access rfl rfl ?_
  refine Exits.iterate (I := fun i _ u => Attempts w u n ∧ (u.choices .weak).length = i)
    wellFounded_lt ⟨attempts_refl w n, rfl⟩ ?_
  rintro i ⟨⟩ u ⟨ha, rfl⟩
  have hsu := ha.stores hs hn
  have hso : u.heap.soKey = w.heap.soKey := by rw [ha.heap]
  refine Exits.bind (walk_reads (x := w.heap.soKey n) hsu hstart (by rw [hso]; exact hlt)
    (Q := fun x u' => u' = u ∧ ∃ A p B, CutAt u.heap N (w.heap.soKey n) A p B ∧
      x = some (placeOf p B)) fun A p B hcut => ⟨rfl, A, p, B, hcut, rfl⟩) ?_ ?_
  · rintro _ u' ⟨rfl, A, p, B, hcut, hx⟩
    obtain rfl := Option.some.inj hx
    have hcut' : CutAt w.heap N (w.heap.soKey n) A p B := hcut.congr fun a _ => by rw [hso]
    have hp : (u'.heap.setNext n (.plain B.head?)).next p = .plain B.head? := by
      have hne : p ≠ n := by
        rintro rfl
        exact hn (by simp [hcut.eq])
      show Function.update _ _ _ _ = _
      rw [Function.update_of_ne hne]
      exact (hcut.eq ▸ hsu.linked).next_eq
    refine Finishes.access rfl rfl ?_
    show Finishes _ (if (Link.plain B.head?).marked = true then Prog.ret (Sum.inl ()) else _) _
    rw [if_neg (by simp [Link.plain])]
    refine casNextWeak_finishes hp ?_ fun hw => ?_
    · exact Exits.ret ⟨rfl, A, p, B, ha.link hn hcut'⟩
    · exact Exits.ret ⟨_, weak_lt hw, ha.again _, rfl⟩
  · rintro _ ⟨-, _, _, _, -, h⟩
    cases h

end Insertion

/-! ## The creation of dummies -/

/-- How many dummies `initialize_bucket` creates in a table of these cells. -/
def lackAt (cells : Nat → Option Addr) : Nat → Nat → Nat
  | 0, _ => 0
  | depth + 1, b => if (cells b).isSome then 0 else lackAt cells depth (parentBucket b) + 1

/-- How many dummies an operation on the hash `mixed` creates first. -/
def Heap.lack (h : Heap Addr Key) (mixed : Word) : Nat :=
  let b := bucketOf mixed (h.size h.table)
  lackAt (h.bucket h.table) (b + 1) b

/-- The allocator never gives out a block that is in use. -/
def Heap.Allocates (h : Heap Addr Key) : Prop := ∀ n U, h.pick n U ∉ U

/-- The next allocation of a node throws. If it is the default construction of the payload that
throws, the block is lost. -/
inductive Exhausts (w : World Addr Key) : World Addr Key → Prop where
  | node : w.choices.head .node = true →
      Exhausts w { w with choices := w.choices.next .node }
  | blank : w.choices.head .node = false → w.choices.head .blank = true →
      Exhausts w { w with
        heap := w.heap.acquire.2, choices := (w.choices.next .node).next .blank }

/-- An allocation throws before `m` dummies have been created. -/
structure Starves (C : Config Key) (w w' : World Addr Key) (N : List Addr) (m : Nat) : Prop where
  grown : ∃ w₁ N' new, Grows C w w₁ N N' new ∧ new.length < m ∧ Exhausts w₁ w'

section Dummies

variable {w w' w'' : World Addr Key} {N N' new : List Addr} {m n b depth : Nat} {start : Addr}

theorem Exhausts.starved (h : Exhausts w w') : w.choices.Starved 1 := by
  rw [Decisions.starved_one]
  cases h with
  | node hn => exact .inl hn
  | blank _ hb => exact .inr hb

theorem Starves.starved (h : Starves C w w' N m) : w.choices.Starved m := by
  obtain ⟨w₁, N', new, hg, hlt, he⟩ := h.grown
  exact (hg.choices.starved.mpr he.starved).mono hlt

theorem Starves.mono (h : Starves C w w' N m) (hmn : m ≤ n) : Starves C w w' N n := by
  obtain ⟨w₁, N', new, hg, hlt, he⟩ := h.grown
  exact ⟨w₁, N', new, hg, by omega, he⟩

theorem Grows.starves (hg : Grows C w w' N N' new) (h : Starves C w' w'' N' m) :
    Starves C w w'' N (new.length + m) := by
  obtain ⟨w₁, N₁, new₁, hg₁, hlt, he⟩ := h.grown
  refine ⟨w₁, N₁, new ++ new₁, hg.trans hg₁, ?_, he⟩
  rw [List.length_append]
  omega

/-- The world once the dummy `d` of the bucket `b` has its key. -/
def World.withDummy (w : World Addr Key) (d : Addr) (b : Nat) : World Addr Key where
  heap := { w.heap.acquire.2.blank d with
    soKey := Function.update (w.heap.acquire.2.blank d).soKey d (dummySplitOrderKey b) }
  choices := (w.choices.next .node).next .blank
  log := w.log ++ [.construct d]

omit [DecidableEq Addr] in
theorem Heap.setBucket_bucket (h : Heap Addr Key) (t b b' : Nat) (v : Option Addr) :
    (h.setBucket t b v).bucket t b' = if b' = b then v else h.bucket t b' := by
  simp [Heap.setBucket, Function.update_apply]

omit [DecidableEq Addr] in
/-- A dummy is published in its bucket. -/
theorem Stores.setBucket {h : Heap Addr Key} {d : Addr} (hs : Stores C h N) (hb : b ≠ 0)
    (hd : d ∈ N) (hkey : h.soKey d = dummySplitOrderKey b) :
    Stores C (h.setBucket h.table b (some d)) N where
  linked := hs.linked
  nodup := hs.nodup
  sorted := hs.sorted
  alive := hs.alive
  size := hs.size
  made := hs.made
  head := by
    obtain ⟨a, ha, hbucket⟩ := hs.head
    refine ⟨a, ha, ?_⟩
    show (h.setBucket h.table b (some d)).bucket h.table 0 = _
    rw [Heap.setBucket_bucket, if_neg hb.symm]
    exact hbucket
  filled := by
    intro b' a hlt ha
    replace ha : (h.setBucket h.table b (some d)).bucket h.table b' = some a := ha
    rw [Heap.setBucket_bucket] at ha
    split at ha
    · next hbb =>
      obtain rfl := Option.some.inj ha
      rw [hbb]
      exact ⟨hd, hkey⟩
    · exact hs.filled b' a hlt ha
  keyed := hs.keyed
  distinct := hs.distinct
  idle := hs.idle

section NewDummy

variable {d : Addr} {A B : List Addr} {p : Addr}

theorem World.withDummy_soKey (w : World Addr Key) (d : Addr) (b : Nat) :
    (w.withDummy d b).heap.soKey d = dummySplitOrderKey b := Function.update_self _ _ _

theorem World.withDummy_soKey_ne (w : World Addr Key) (b : Nat) {a : Addr} (ha : a ≠ d) :
    (w.withDummy d b).heap.soKey a = w.heap.soKey a := by
  show Function.update (Function.update w.heap.soKey d 0) d _ a = _
  rw [Function.update_of_ne ha, Function.update_of_ne ha]

/-- The new dummy is not in the list yet. -/
theorem Stores.withDummy (hs : Stores C w.heap N) (hd : d ∉ N) (b : Nat) :
    Stores C (w.withDummy d b).heap N := by
  have hne : ∀ a ∈ N, a ≠ d := fun a ha h => hd (h ▸ ha)
  refine hs.congr (fun a ha => Function.update_of_ne (hne a ha) _ _)
    (fun a ha => w.withDummy_soKey_ne b (hne a ha)) (fun _ _ _ => rfl) (fun a ha => ?_)
    ⟨rfl, rfl, rfl, rfl, rfl⟩
  exact Finset.mem_insert_of_mem (hs.alive a ha)

omit [DecidableEq Addr] in
/-- The new dummy is in the list. -/
theorem Links.stores (hC : C.Lawful) (hs : Stores C w.heap N) (hd : d ∉ N)
    (halive : d ∈ w.heap.inUse) (hdummy : isRegular (w.heap.soKey d) = false)
    (hl : Links C w w' N d A p B) : Stores C w'.heap (A ++ p :: d :: B) := by
  rw [hl.heap]
  refine hs.insert (fun _ _ => hC.toKeyEquiv.ne_symm) hl.cut hd halive (fun hr => ?_) hl.self
    hl.prev hl.other
  rw [hdummy] at hr
  cases hr

/-- The list grows by the new dummy, whoever is published in its bucket. -/
theorem grows_withDummy (hs : Stores C w.heap N) (hd : d = w.heap.acquire.1)
    (hfresh : d ∉ w.heap.inUse) (hb : b ≠ 0) (hlt : b < w.heap.size w.heap.table)
    (hn : w.choices.head .node = false) (hblank : w.choices.head .blank = false)
    (hl : Links C (w.withDummy d b) w' N d A p B) (hs' : Stores C w'.heap (A ++ p :: d :: B)) :
    Grows C w w' N (A ++ p :: d :: B) [d] := by
  have hne : ∀ a ∈ w.heap.inUse, a ≠ d := fun a ha h => hfresh (h ▸ ha)
  have hsize := hs.size_le
  constructor
  · exact hs'
  · rw [hl.cut.eq]
    exact perm_insert A B p d
  · rw [hl.cut.eq]
    exact (List.Sublist.refl A).append ((List.sublist_cons_self d B).cons_cons p)
  · rw [hl.heap]
    constructor <;> rfl
  · intro a ha
    rw [hl.heap]
    exact w.withDummy_soKey_ne b (hne a ha)
  · intro a ha
    obtain rfl := List.mem_singleton.mp ha
    rw [hl.heap]
    show isRegular ((w.withDummy a b).heap.soKey a) = false
    rw [w.withDummy_soKey a b]
    exact isRegular_dummy (by omega)
  · intro a ha
    obtain rfl := List.mem_singleton.mp ha
    rw [hl.heap]
    show (w.withDummy a b).heap.soKey a ≠ 0
    rw [w.withDummy_soKey a b]
    exact dummy_ne_zero hb (by omega)
  · intro a ha
    obtain rfl := List.mem_singleton.mp ha
    exact hfresh
  · intro a
    rw [hl.heap, List.mem_singleton, hd]
    exact Finset.mem_insert
  · intro b' a ha
    rw [hl.heap]
    exact ha
  · intro b' hb'
    rw [hl.heap] at hb'
    exact .inl hb'
  · exact hl.log
  · exact (Decisions.spends_one hn hblank).trans hl.choices.spends

omit [DecidableEq Addr] in
/-- A new dummy is published. -/
theorem Grows.setBucket (hg : Grows C w w' N N' new) (hnone : w'.heap.bucket w.heap.table b = none)
    (hparent : (w'.heap.bucket w.heap.table (parentBucket b)).isSome = true)
    (hs' : Stores C (w'.heap.setBucket w.heap.table b (some d)) N') :
    Grows C w { w' with heap := w'.heap.setBucket w.heap.table b (some d) } N N' new where
  stores := hs'
  perm := hg.perm
  order := hg.order
  agrees := hg.agrees.trans (by constructor <;> rfl)
  soKey := hg.soKey
  dummies := hg.dummies
  positive := hg.positive
  fresh := hg.fresh
  inUse := hg.inUse
  bucket := by
    intro b' a ha
    show (w'.heap.setBucket w.heap.table b (some d)).bucket w.heap.table b' = _
    rw [Heap.setBucket_bucket]
    have hold := hg.bucket b' a ha
    split
    · next hbb =>
      rw [hbb, hnone] at hold
      cases hold
    · exact hold
  parent := by
    intro b' hb'
    replace hb' : ((w'.heap.setBucket w.heap.table b (some d)).bucket w.heap.table b').isSome =
      true := hb'
    show _ ∨ ((w'.heap.setBucket w.heap.table b (some d)).bucket w.heap.table _).isSome = true
    rw [Heap.setBucket_bucket] at hb' ⊢
    split
    · exact .inr rfl
    · split at hb'
      · next hbb =>
        rw [hbb]
        exact .inr hparent
      · exact hg.parent b' hb'
  log := hg.log
  choices := hg.choices

end NewDummy

/-- The end of `initialize_bucket`: the dummy of `b`, once its parent has one. -/
theorem createDummy_finishes (hC : C.Lawful) (hpick : w.heap.Allocates) (hs : Stores C w.heap N)
    (hb : b ≠ 0) (hlt : b < w.heap.size w.heap.table)
    (hparent : w.heap.bucket w.heap.table (parentBucket b) = some start) :
    Finishes (fun x w' => x.elim (Starves C w w' N 1) fun _ => ∃ N' d, Grows C w w' N N' [d] ∧
        (w'.heap.bucket w.heap.table b).isSome = true)
      (do
        let d ← perform .allocNode
        perform (.storeSoKey d (dummySplitOrderKey b))
        match ← perform (.loadBucket w.heap.table (parentBucket b)) with
        | none => perform .fault
        | some start =>
          insertFrom C start d
          let _ ← perform (.casBucket w.heap.table b d)
          return ()) w := by
  have hsize := hs.size_le
  refine Exits.act (T := fun r u => r.elim (Exhausts w u) fun d => d = w.heap.acquire.1 ∧
      u = ⟨w.heap.acquire.2.blank d, (w.choices.next .node).next .blank,
        w.log ++ [.construct d]⟩ ∧ w.choices.head .node = false ∧
      w.choices.head .blank = false) (allocNode_ends ?_ ?_ ?_) ?_ ?_
  · exact fun hn => .node hn
  · exact fun hn hblank => .blank hn hblank
  · exact fun hn hblank => ⟨rfl, rfl, hn, hblank⟩
  · rintro d u ⟨hd, rfl, hn, hblank⟩
    -- both allocations succeed: the dummy is linked from the parent's on
    have hfresh : d ∉ w.heap.inUse := hd ▸ hpick _ _
    have hdN : d ∉ N := fun h => hfresh (hs.alive d h)
    obtain ⟨hstart, hkey⟩ := hs.filled _ _
      ((parentBucket_lt hb (by omega)).trans hlt) hparent
    have hs₁ := hs.withDummy hdN b
    have hso := w.withDummy_soKey d b
    refine Finishes.access (v := w.withDummy d b) rfl rfl (Finishes.access rfl
      (loadBucket_bounded ((parentBucket_lt hb (by omega)).trans hlt)) ?_)
    show Finishes _ (match w.heap.bucket w.heap.table (parentBucket b) with
      | none => _ | some start => _) _
    rw [hparent]
    refine Exits.bind (insertFrom_finishes hs₁ hstart ?_ hdN) ?_ (fun _ h => by cases h.1)
    · have hne : start ≠ d := fun h => hdN (h ▸ hstart)
      rw [hso, w.withDummy_soKey_ne b hne, hkey]
      exact dummy_parent_lt hb (by omega)
    · rintro _ w₁ ⟨-, A, p, B, hl⟩
      have hs₂ := hl.stores hC hs₁ hdN (by rw [hd]; exact Finset.mem_insert_self _ _)
        (by rw [hso]; exact isRegular_dummy (by omega))
      have hg := grows_withDummy hs hd hfresh hb hlt hn hblank hl hs₂
      have hlt₁ : b < w₁.heap.size w.heap.table := by
        rw [hl.heap]
        exact hlt
      -- the cell may be filled already; the dummy is then in the list without a cell
      cases hcell : w₁.heap.bucket w.heap.table b with
      | none =>
        refine Finishes.access (r := true)
          (v := { w₁ with heap := w₁.heap.setBucket w.heap.table b (some d) }) rfl ?_
          (Exits.ret ⟨_, d, hg.setBucket hcell ?_ ?_, ?_⟩)
        · simp [Op.bounded, Op.alone, Op.apply, hcell, hlt₁]
        · rw [hl.heap]
          exact Option.isSome_of_eq_some hparent
        · have hkey₁ : w₁.heap.soKey d = dummySplitOrderKey b := by
            rw [hl.heap]
            exact hso
          have := hs₂.setBucket hb (by simp) hkey₁
          rw [hg.agrees.table] at this
          exact this
        · show ((w₁.heap.setBucket w.heap.table b (some d)).bucket w.heap.table b).isSome = true
          rw [Heap.setBucket_bucket, if_pos rfl]
          rfl
      | some a =>
        refine Finishes.access (r := false) (v := w₁) rfl ?_ (Exits.ret ⟨_, d, hg, ?_⟩)
        · simp [Op.bounded, Op.alone, Op.apply, hcell, hlt₁]
        · rw [hcell]
          rfl
  · exact fun u hu => ⟨w, N, [], hs.grows_refl, by simp, hu⟩

/-- `initialize_bucket` creates the dummies that are missing on the way from the first bucket. -/
theorem initializeBucketAt_finishes (hC : C.Lawful) (hpick : w.heap.Allocates)
    (hs : Stores C w.heap N) (hdepth : b < depth) (hlt : b < w.heap.size w.heap.table) :
    Finishes (fun x w' => x.elim (Starves C w w' N (lackAt (w.heap.bucket w.heap.table) depth b)) fun _ =>
        ∃ N' new, Grows C w w' N N' new ∧ new.length = lackAt (w.heap.bucket w.heap.table) depth b ∧
          (w'.heap.bucket w.heap.table b).isSome = true)
      (initializeBucketAt C w.heap.table depth b) w := by
  have hsize := hs.size_le
  induction depth generalizing b with
  | zero => omega
  | succ depth ih =>
    unfold initializeBucketAt lackAt
    refine Finishes.access rfl (loadBucket_bounded hlt) ?_
    show Finishes _ (if (w.heap.bucket w.heap.table b).isSome = true then _ else _) _
    cases hcell : w.heap.bucket w.heap.table b with
    | some a => exact Exits.ret ⟨N, [], hs.grows_refl, rfl, by rw [hcell]; rfl⟩
    | none =>
      have hb : b ≠ 0 := by
        rintro rfl
        obtain ⟨a, -, ha⟩ := hs.head
        rw [hcell] at ha
        cases ha
      have hparent := parentBucket_lt hb (by omega)
      rw [if_neg (by simp), if_neg (by simp)]
      show Finishes _ (if b ≠ 0 then _ else _) _
      rw [if_pos hb]
      refine Exits.bind (ih (by omega) (by omega)) ?_ ?_
      · rintro _ w₁ ⟨N₁, new, hg, hlen, hsome⟩
        obtain ⟨start, hstart⟩ := Option.isSome_iff_exists.mp hsome
        have htable := hg.agrees.table
        rw [← htable] at hstart ⊢
        have hlt₁ : b < w₁.heap.size w₁.heap.table := by
          rw [hg.agrees.size, htable]
          exact hlt
        have hpick₁ : w₁.heap.Allocates := by
          unfold Heap.Allocates
          rw [hg.agrees.pick]
          exact hpick
        refine Exits.mono (createDummy_finishes hC hpick₁ hg.stores hb hlt₁ hstart) ?_
        rintro (_ | _) w₂ h
        · rw [htable, ← hlen]
          exact hg.starves h
        · obtain ⟨N₂, d, hg₂, hsome₂⟩ := h
          refine ⟨N₂, new ++ [d], hg.trans hg₂, ?_, hsome₂⟩
          rw [List.length_append, hlen, htable]
          rfl
      · exact fun w' h => h.mono (by omega)

end Dummies

/-! ## Locating a key -/

section Locate

variable {w : World Addr Key} {N : List Addr} {mixed sk : Word}

omit [DecidableEq Addr] in
theorem Heap.lack_of_isSome {h : Heap Addr Key}
    (hb : (h.bucket h.table (bucketOf mixed (h.size h.table))).isSome = true) :
    h.lack mixed = 0 := by
  unfold Heap.lack lackAt
  exact if_pos hb

/-- The bucket of `mixed` has a dummy: `locate` only reads. -/
theorem locate_reads {Q : Option (Addr × Option Addr) → World Addr Key → Prop}
    (hs : Stores C w.heap N) (hk : Suits mixed sk)
    (hb : (w.heap.bucket w.heap.table (bucketOf mixed (w.heap.size w.heap.table))).isSome = true)
    (hQ : ∀ A p B, CutAt w.heap N sk A p B → Q (some (p, B.head?)) w) :
    Finishes Q (locate C mixed sk) w := by
  obtain ⟨d, hd⟩ := Option.isSome_iff_exists.mp hb
  obtain ⟨j, -, hj, hsize⟩ := hs.size
  have hlt : bucketOf mixed (w.heap.size w.heap.table) < w.heap.size w.heap.table := by
    rw [hsize]
    exact bucketOf_lt (by omega)
  obtain ⟨hdN, hkey⟩ := hs.filled _ d hlt hd
  refine Exits.unroll ((loadTable_reads C w).bind (Finishes.access rfl rfl
    (Finishes.access rfl (loadBucket_bounded hlt) ?_)))
  show Finishes _ (match w.heap.bucket w.heap.table (bucketOf mixed (w.heap.size w.heap.table)) with
    | none => _ | some d => _) _
  rw [hd]
  refine Exits.bind (walk_reads (x := sk) hs hdN ?_
    (Q := fun x u' => u' = w ∧ ∃ A p B, CutAt w.heap N sk A p B ∧ x = some (placeOf p B))
    fun A p B hcut => ⟨rfl, A, p, B, hcut, rfl⟩) ?_ ?_
  · rw [hkey, hsize]
    exact hk.dummy_lt (by omega)
  · rintro _ u ⟨rfl, A, p, B, hcut, hx⟩
    obtain rfl := Option.some.inj hx
    exact Exits.ret (hQ A p B hcut)
  · rintro u ⟨-, _, _, _, -, h⟩
    cases h

/-- `locate` ends at the cut of the list, after it has created the dummies that its bucket lacks. -/
theorem locate_finishes (hC : C.Lawful) (hpick : w.heap.Allocates) (hs : Stores C w.heap N)
    (hk : Suits mixed sk) :
    Finishes (fun x w' => x.elim (Starves C w w' N (w.heap.lack mixed)) fun r =>
        ∃ N' new A p B, Grows C w w' N N' new ∧ new.length = w.heap.lack mixed ∧
          w'.heap.lack mixed = 0 ∧ CutAt w'.heap N' sk A p B ∧ r = (p, B.head?))
      (locate C mixed sk) w := by
  obtain ⟨j, -, hj, hsize⟩ := hs.size
  have hlt : bucketOf mixed (w.heap.size w.heap.table) < w.heap.size w.heap.table := by
    rw [hsize]
    exact bucketOf_lt (by omega)
  cases hcell : w.heap.bucket w.heap.table (bucketOf mixed (w.heap.size w.heap.table)) with
  | some d =>
    have hsome : (w.heap.bucket w.heap.table
        (bucketOf mixed (w.heap.size w.heap.table))).isSome = true := by
      rw [hcell]
      rfl
    refine locate_reads hs hk hsome fun A p B hcut => ?_
    exact ⟨N, [], A, p, B, hs.grows_refl, (Heap.lack_of_isSome hsome).symm,
      Heap.lack_of_isSome hsome, hcut, rfl⟩
  | none =>
    refine Exits.unroll ((loadTable_reads C w).bind (Finishes.access rfl rfl
      (Finishes.access rfl (loadBucket_bounded hlt) ?_)))
    show Finishes _ (match w.heap.bucket w.heap.table
      (bucketOf mixed (w.heap.size w.heap.table)) with | none => _ | some d => _) _
    rw [hcell]
    refine Exits.bind (initializeBucketAt_finishes hC hpick hs (Nat.lt_succ_self _) hlt) ?_
      fun u hu => hu
    rintro _ w₁ ⟨N₁, new, hg, hlen, hsome⟩
    have hbucket : (w₁.heap.bucket w₁.heap.table
        (bucketOf mixed (w₁.heap.size w₁.heap.table))).isSome = true := by
      rw [hg.agrees.table, hg.agrees.size]
      exact hsome
    refine Exits.ret (locate_reads hg.stores hk hbucket fun A p B hcut => ?_)
    exact ⟨N₁, new, A, p, B, hg, hlen, Heap.lack_of_isSome hbucket, hcut, rfl⟩

end Locate

end MpmcMap.Unordered
