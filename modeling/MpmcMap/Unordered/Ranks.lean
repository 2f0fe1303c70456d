import MpmcMap.Conc.Progress
import MpmcMap.Unordered.Dates

/-!
# The order of the list under any number of threads

The engine under any number of threads, without reuse of memory. All threads keep the linked nodes in
their order.

A table is known to the thread that makes it until it is published. From then on its cells are
filled, never emptied.
-/

namespace MpmcMap.Unordered

open Conc
open Prog (perform iterate)
open Function (update)

variable {Addr Key : Type} [DecidableEq Addr]

/-- The node is in the list, as far as the dummy of some bucket leads to it. -/
def Heap.Listed (h : Heap Addr Key) (a : Addr) : Prop :=
  ∃ b d, h.bucket h.table b = some d ∧ h.Reaches d a

/-- Not an access to null. -/
def Op.performs {β : Type} : Op Addr Key β → Bool
  | .fault => false
  | _ => true

namespace Ranks

/-! ## Nodes in their order -/

/-- What the thread that has set `growing_` is doing: it makes a table, or it has published one and
not retired the old one yet. -/
inductive Stage where
  | idle
  | making
  | pending
  deriving DecidableEq

/-- The container, who has the nodes that are not linked yet, when the other nodes were linked, and
who has set `growing_`. -/
structure Dated (Addr Key : Type) extends Aged Addr Key where
  lock : Option (Nat × Stage)

/-- How far the growth has come. -/
def Stands (h : Heap Addr Key) : Option Stage → Prop
  | none => h.growing = false ∧ h.tables = h.table + 1 ∧ h.retiredTables = List.range h.table
  | some .idle => h.growing = true ∧ h.tables = h.table + 1 ∧ h.retiredTables = List.range h.table
  | some .making => h.growing = true ∧ h.tables = h.table + 2 ∧ h.retiredTables = List.range h.table
  | some .pending => h.growing = true ∧ h.tables = h.table + 1 ∧ 0 < h.table ∧
      h.retiredTables = List.range (h.table - 1)

/-- Each table has twice the size of the one before, and all up to the current one are published. -/
structure Grown (h : Heap Addr Key) (stage : Option Stage) : Prop where
  stands : Stands h stage
  size : ∀ t, t < h.tables → h.size t = 2 ^ (t + 1)
  small : h.tables ≤ 30
  head : ∀ t, t ≤ h.table → (h.bucket t 0).isSome = true

/-- The nodes are in their order, and no table has a dummy for a bucket that it does not have. -/
structure Ranked (s : Dated Addr Key) : Prop extends InOrder s.toAged where
  grown : Grown s.heap (s.lock.map Prod.snd)
  bound : ∀ t i d, s.heap.bucket t i = some d → i < 2 ^ (t + 1)

/-- What a step of thread `u` may change. -/
structure Keeps (u : Nat) (s s' : Dated Addr Key) : Prop where
  linked : ∀ a, s.Linked a → s'.Linked a
  soKey : ∀ a, s.Linked a → s'.heap.soKey a = s.heap.soKey a
  date : ∀ a, s.Linked a → s'.date a = s.date a
  table : s.heap.table ≤ s'.heap.table
  bucket : ∀ t i d, t ≤ s.heap.table → s.heap.bucket t i = some d → s'.heap.bucket t i = some d
  node : ∀ v, v ≠ u → ∀ a, s.owner a = some v →
    s'.owner a = some v ∧ s'.heap.next a = s.heap.next a ∧ s'.heap.soKey a = s.heap.soKey a
  lock : ∀ v, v ≠ u → ∀ st, s.lock = some (v, st) → s'.lock = some (v, st) ∧
    s'.heap.table = s.heap.table ∧
    s'.heap.bucket (s.heap.table + 1) = s.heap.bucket (s.heap.table + 1)

variable (C : Config Key) (free : {β : Type} → Nat → Op Addr Key β → Heap Addr Key → Prop)

/-- The proof obligations of the threads. -/
def ranking : Discipline (@list Addr Key _ C) (Dated Addr Key) where
  erase s := s.heap
  inv := Ranked
  guar := Keeps
  ok _ _ _ := True

/-- What a thread may know, for as long as it likes. -/
inductive Fact (Addr : Type) where
  | linked (a : Addr)
  | before (a b : Addr)
  | keyed (a : Addr) (so : Word)
  | below (a : Addr) (so : Word)
  | above (a : Addr) (so : Word)
  | table (t : Nat)
  | filled (t i : Nat)
  | pure (φ : Prop)

def Fact.holds (s : Dated Addr Key) : Fact Addr → Prop
  | .linked a => s.Linked a
  | .before a b => s.Before a b
  | .keyed a so => s.Linked a ∧ s.heap.soKey a = so
  | .below a so => s.Linked a ∧ s.heap.soKey a < so
  | .above a so => s.Linked a ∧ so ≤ s.heap.soKey a
  | .table t => t ≤ s.heap.table
  | .filled t i => t ≤ s.heap.table ∧ (s.heap.bucket t i).isSome = true
  | .pure φ => φ

/-- What a thread has to itself, and what it has stored there, where that matters. -/
inductive Own (Addr : Type) where
  | node (a : Addr) (so : Option Word) (next : Option (Option Addr))
  /-- `growing_`, with the current table, and whether the table that is made has its first cell. -/
  | lock (st : Stage) (u : Option Nat) (begun : Bool)

def Own.id : Own Addr → Option Addr
  | .node a _ _ => some a
  | .lock _ _ _ => none

def Own.holds (t : Nat) (s : Dated Addr Key) : Own Addr → Prop
  | .node a so next => s.owner a = some t ∧ (∀ w, so = some w → s.heap.soKey a = w) ∧
      ∀ p, next = some p → s.heap.next a = .plain p
  | .lock st u begun => s.lock = some (t, st) ∧ (∀ v, u = some v → s.heap.table = v) ∧
      (begun = true → (s.heap.bucket (s.heap.table + 1) 0).isSome = true)

/-- Thread `t` owns `M` and knows the facts `l`. -/
structure Has (t : Nat) (M : List (Own Addr)) (l : List (Fact Addr)) (s : Dated Addr Key) :
    Prop where
  nodup : (M.map Own.id).Nodup
  own : ∀ x ∈ M, x.holds t s
  knows : ∀ f ∈ l, f.holds s

/-- From what it owns, `M`, and the facts `l`, the program comes to own `m r` and to know the
facts `g r`, where `r` is its result; and wherever it is left alone, it comes to its end, or to an
access that is not `free`. -/
def Spec {α : Type} (t : Nat) (M : List (Own Addr)) (l : List (Fact Addr)) (p : Code Addr Key α)
    (m : α → List (Own Addr)) (g : α → List (Fact Addr)) : Prop :=
  ∀ s, Ranked s → Has t M l s →
    (ranking C).Lives free t p (fun r s => Has t (m r) (g r) s) s

/-- Thread `t` is left alone. -/
abbrev Alone {α : Type} (t : Nat) (Q : α → Heap Addr Key → Prop) (p : Code Addr Key α)
    (h : Heap Addr Key) : Prop :=
  (list C).Alone free t Q p h

section Rules

variable {C} {free} {t : Nat} {M : List (Own Addr)} {l : List (Fact Addr)} {α β γ σ : Type}
  {m : α → List (Own Addr)} {g : α → List (Fact Addr)} {s s' : Dated Addr Key} {a b c : Addr}

omit [DecidableEq Addr] in
theorem Keeps.rfl : Keeps t s s :=
  ⟨fun _ h => h, fun _ _ => Eq.refl _, fun _ _ => Eq.refl _, Nat.le_refl _, fun _ _ _ _ h => h,
    fun _ _ _ h => ⟨h, Eq.refl _, Eq.refl _⟩, fun _ _ _ h => ⟨h, Eq.refl _, Eq.refl _⟩⟩

omit [DecidableEq Addr] in
/-- The order of linked nodes stays. -/
theorem Keeps.before (hg : Keeps t s s') (h : s.Before a b) : s'.Before a b :=
  h.keep hg.linked hg.soKey hg.date

omit [DecidableEq Addr] in
/-- What is known of linked nodes stays true. -/
theorem Fact.holds_keep (hg : Keeps t s s') {f : Fact Addr} (h : f.holds s) : f.holds s' := by
  cases f with
  | linked a => exact hg.linked a h
  | before a b => exact hg.before h
  | keyed a so => exact ⟨hg.linked a h.1, (hg.soKey a h.1).trans h.2⟩
  | below a so =>
    refine ⟨hg.linked a h.1, ?_⟩
    rw [hg.soKey a h.1]
    exact h.2
  | above a so =>
    refine ⟨hg.linked a h.1, ?_⟩
    rw [hg.soKey a h.1]
    exact h.2
  | table u => exact Nat.le_trans h hg.table
  | filled u i =>
    obtain ⟨d, hd⟩ := Option.isSome_iff_exists.mp h.2
    refine ⟨Nat.le_trans h.1 hg.table, ?_⟩
    rw [hg.bucket u i d h.1 hd]
    rfl
  | pure φ => exact h

theorem persistent_facts (l : List (Fact Addr)) :
    (ranking C).Persistent fun s => ∀ f ∈ l, f.holds s :=
  fun _ _ _ _ _ hg h f hf => Fact.holds_keep hg (h f hf)

omit [DecidableEq Addr] in
/-- What is a thread's own is left alone by the others. -/
theorem Own.holds_keep {u : Nat} (hu : t ≠ u) (hg : Keeps u s s') {x : Own Addr}
    (h : x.holds t s) : x.holds t s' := by
  cases x with
  | node a so next =>
    obtain ⟨h1, h2, h3⟩ := hg.node t hu a h.1
    refine ⟨h1, fun w hw => ?_, fun p hp => ?_⟩
    · rw [h3]
      exact h.2.1 w hw
    · rw [h2]
      exact h.2.2 p hp
  | lock st w begun =>
    obtain ⟨h1, h2, h3⟩ := hg.lock t hu st h.1
    refine ⟨h1, fun v hv => h2.trans (h.2.1 v hv), fun hb => ?_⟩
    rw [h2, h3]
    exact h.2.2 hb

/-- The steps of the others take nothing from a thread. -/
theorem stable_has : (ranking C).Stable t (Has t M l) := by
  intro u hu s s' hi hi' hg h
  refine ⟨h.nodup, fun x hx => Own.holds_keep hu.symm hg (h.own x hx), ?_⟩
  exact persistent_facts (C := C) l u s s' hi hi' hg h.knows

omit [DecidableEq Addr] in
theorem Has.learn {l' : List (Fact Addr)} (h : Has t M l s) (hl : ∀ f ∈ l', f.holds s) :
    Has t M l' s :=
  ⟨h.nodup, h.own, hl⟩

omit [DecidableEq Addr] in
theorem Has.append {l' : List (Fact Addr)} (h : Has t M l s) (h' : ∀ f ∈ l', f.holds s) :
    Has t M (l ++ l') s :=
  h.learn fun f hf => (List.mem_append.mp hf).elim (h.knows f) (h' f)

omit [DecidableEq Addr] in
theorem Has.mono {l' : List (Fact Addr)} (h : Has t M l s) (hl : l' ⊆ l) : Has t M l' s :=
  h.learn fun f hf => h.knows f (hl hf)

omit [DecidableEq Addr] in
/-- Less is said of what the thread owns. -/
theorem Has.forget {M' : List (Own Addr)} (h : Has t M l s) (hM : M'.Sublist M) : Has t M' l s :=
  ⟨(hM.map _).nodup h.nodup, fun x hx => h.own x (hM.subset hx), h.knows⟩

omit [DecidableEq Addr] in
/-- What is stored in a node does not matter any more. -/
theorem Has.blank {n : Addr} {so : Option Word} {w : Option (Option Addr)}
    (h : Has t (.node n so w :: M) l s) : Has t (.node n so none :: M) l s := by
  refine ⟨h.nodup, fun x hx => ?_, h.knows⟩
  rcases List.mem_cons.mp hx with rfl | hx
  · obtain ⟨h1, h2, -⟩ := h.own _ List.mem_cons_self
    exact ⟨h1, h2, fun p hp => by cases hp⟩
  · exact h.own x (List.mem_cons_of_mem _ hx)

theorem Spec.ret {r : α} (hm : (m r).Sublist M) (hg : g r ⊆ l) : Spec C free t M l (.ret r) m g :=
  fun _ hi h => Discipline.Lives.ret stable_has hi ((h.mono hg).forget hm)

/-- What is stored in an own node may be forgotten. -/
theorem Spec.blank {n : Addr} {so : Option Word} {w : Option (Option Addr)}
    {p : Code Addr Key α} (hp : Spec C free t (.node n so none :: M) l p m g) :
    Spec C free t (.node n so w :: M) l p m g :=
  fun s hi h => hp s hi h.blank

/-- What was known stays known. -/
theorem Spec.bind {p : Code Addr Key α} {f : α → Code Addr Key γ} {m' : γ → List (Own Addr)}
    {g' : γ → List (Fact Addr)} (hp : Spec C free t M l p m g)
    (hf : ∀ r, Spec C free t (m r) (g r ++ l) (f r) m' g') :
    Spec C free t M l (p.bind f) m' g' := by
  intro s hi h
  apply Discipline.Lives.bind fun _ _ _ _ => trivial
  apply Discipline.Lives.mono ?_ ((hp s hi h).frame (persistent_facts l) h.knows)
  intro r s hi h
  exact hf r s hi (h.1.append h.2)

/-- The facts that are known may be used. -/
theorem Spec.assume {p : Code Addr Key α} {φ : Prop} (hφ : .pure φ ∈ l)
    (hp : φ → Spec C free t M l p m g) : Spec C free t M l p m g :=
  fun s hi h => hp (h.knows _ hφ) s hi h

/-- What follows from the facts that are known is known. -/
theorem Spec.infer {p : Code Addr Key α} (l' : List (Fact Addr))
    (hl : ∀ s : Dated Addr Key, Ranked s → (∀ f ∈ l, f.holds s) → ∀ f ∈ l', f.holds s)
    (hp : Spec C free t M (l' ++ l) p m g) : Spec C free t M l p m g := by
  intro s hi h
  exact hp s hi (h.learn fun f hf => (List.mem_append.mp hf).elim (hl s hi h.knows f) (h.knows f))

/-- What the program knows when it returns, from what it has come to know. -/
theorem Spec.post {p : Code Addr Key α} {g' : α → List (Fact Addr)} (hp : Spec C free t M l p m g)
    (hg : ∀ r (s : Dated Addr Key), Ranked s → (∀ f ∈ l, f.holds s) → (∀ f ∈ g r, f.holds s) →
      ∀ f ∈ g' r, f.holds s) :
    Spec C free t M l p m g' := by
  intro s hi h
  apply Discipline.Lives.mono ?_ ((hp s hi h).frame (persistent_facts l) h.knows)
  intro r s hi h
  exact h.1.learn (hg r s hi h.2 h.1.knows)

/-- A program that the thread runs alone, and what it does there. -/
theorem Spec.alone {p : Code Addr Key α} {T : α → Heap Addr Key → Prop}
    (hp : Spec C free t M l p m g) (hi : Ranked s) (h : Has t M l s)
    (hT : Alone C free t T p s.heap) :
    Alone C free t (fun r h' => T r h' ∧ ∃ x : Dated Addr Key, x.heap = h' ∧ Ranked x ∧
      Has t (m r) (g r ++ l) x) p s.heap := by
  have hframe := (hp s hi h).frame (persistent_facts l) h.knows
  refine (hframe.wp.alone (fun _ _ _ _ => trivial) hT).mono ?_
  rintro r h' ⟨hr, x, hx, hi', hhas, hl⟩
  exact ⟨hr, x, hx, hi', hhas.append hl⟩

/-- A program that is left alone comes to its end. -/
theorem Spec.halts {p : Code Addr Key α} (hp : Spec C free t M l p m g) (hi : Ranked s)
    (h : Has t M l s) : Alone C free t (fun _ _ => True) p s.heap :=
  (hp s hi h).halts

/-- A loop; at its locals `st` the thread owns `N st` and knows the facts `I st`. -/
theorem Spec.loop {body : σ → Code Addr Key (σ ⊕ α)} {st : σ} (N : σ → List (Own Addr))
    (I : σ → List (Fact Addr)) (hN : N st = M) (hst : I st ⊆ l)
    (hbody : ∀ st, Spec C free t (N st) (I st ++ l) (body st) (Sum.elim N m) (Sum.elim I g))
    (hends : ∀ st s, Ranked s → Has t (N st) (I st ++ l) s →
      Alone C free t (fun _ _ => True) (iterate body st) s.heap) :
    Spec C free t M l (iterate body st) m g := by
  intro s hi h
  subst hN
  refine Discipline.Lives.loop (I := fun st => Has t (N st) (I st ++ l)) (fun _ _ _ _ => trivial)
    (fun _ => stable_has) hi (h.mono (List.append_subset.mpr ⟨hst, List.Subset.refl l⟩))
    (fun st s hi h => ?_) hends
  have hl : ∀ f ∈ l, f.holds s := fun f hf => h.knows f (List.mem_append_right _ hf)
  apply Discipline.Lives.mono ?_ ((hbody st s hi h).frame (persistent_facts l) hl)
  intro r s hi h
  cases r with
  | inl st => exact h.1.append h.2
  | inr r => exact Discipline.Lives.ret stable_has hi h.1

/-- An access other than to null can be made. -/
theorem enabled {o : Op Addr Key β} (ho : Op.performs o = true) (h : Heap Addr Key) :
    ∃ r, o.apply false h = some r := by
  cases o
  case fault => cases ho
  case casTable | casBucket | casGrowing => simp only [Op.apply]; split <;> exact ⟨_, rfl⟩
  all_goals exact ⟨_, rfl⟩

/-- One action. -/
theorem Spec.act {o : Op Addr Key β} {k : β → Code Addr Key α}
    (ho : ∀ h : Heap Addr Key, ∃ r, o.apply false h = some r) (M' : β → List (Own Addr))
    (l' : β → List (Fact Addr))
    (hstep : ∀ s b r h', Ranked s → Has t M l s → o.apply b s.heap = some (r, h') →
      ∃ x : Dated Addr Key, x.heap = h' ∧ Ranked x ∧ Keeps t s x ∧ Has t (M' r) (l' r) x)
    (hk : ∀ r, Spec C free t (M' r) (l' r ++ l) (k r) m g) : Spec C free t M l (.act o k) m g := by
  intro s hi h
  refine Discipline.Lives.act (fun _ _ _ _ => trivial) stable_has hi h
    (fun s _ _ _ => ho s.heap) fun s b r h' hi h _ hact => ?_
  obtain ⟨x, hx, hi', hg, hhas⟩ := hstep s b r h' hi h hact
  refine ⟨x, hx, hi', hg, hk r _ hi' (hhas.append ?_)⟩
  exact persistent_facts (C := C) l t s _ hi hi' hg h.knows

/-- An access to null. -/
theorem Spec.fault {k : Unit → Code Addr Key α} (hfree : ∀ h, ¬ free t .fault h) :
    Spec C free t M l (.act .fault k) m g := by
  intro s hi h
  refine Discipline.Lives.act (fun _ _ _ _ => trivial) stable_has hi h
    (fun s _ _ hok => (hfree _ hok).elim) fun _ _ _ _ _ _ _ hact => ?_
  cases hact

/-! ### Accesses that write no pointer -/

omit [DecidableEq Addr] in
/-- A published table has been made. -/
theorem Grown.lt_tables {h : Heap Addr Key} {stage : Option Stage} (hg : Grown h stage) {u : Nat}
    (hu : u ≤ h.table) : u < h.tables := by
  have hstands := hg.stands
  have hlt : h.table < h.tables := by
    cases stage with
    | none => rw [hstands.2.1]; exact Nat.lt_succ_self _
    | some st => cases st <;> rw [hstands.2.1] <;> omega
  exact Nat.lt_of_le_of_lt hu hlt

/-- Nothing changes that a thread may know of. -/
structure Quiet (h h' : Heap Addr Key) : Prop where
  next : h'.next = h.next
  soKey : h'.soKey = h.soKey
  bucket : h'.bucket = h.bucket
  inUse : h'.inUse = h.inUse
  pick : h'.pick = h.pick
  table : h'.table = h.table
  tables : h'.tables = h.tables
  size : h'.size = h.size
  growing : h'.growing = h.growing
  retiredTables : h'.retiredTables = h.retiredTables

/-- The accesses that write no pointer and have nothing to do with the growth. -/
def Op.quiet : Op Addr Key β → Bool
  | .storeBucket .. | .casBucket .. | .storeNext .. | .casNext .. | .casNextWeak .. | .allocNode
  | .freeNode .. | .casTable .. | .newTable .. | .storeSoKey .. | .casGrowing | .storeGrowing ..
  | .retireTable .. | .fault => false
  | _ => true

omit [DecidableEq Addr] in
theorem Op.performs_of_quiet {o : Op Addr Key β} (ho : Op.quiet o = true) :
    Op.performs o = true := by
  cases o <;> first | rfl | cases ho

omit [DecidableEq Addr] in
theorem quiet_of_reads {o : Op Addr Key β} (ho : o.Reads) : Op.quiet o = true := by
  cases o <;> first | rfl | exact ho.elim

theorem quiet_apply {o : Op Addr Key β} (ho : Op.quiet o = true) {b : Bool} {h h' : Heap Addr Key}
    {r : β} (hact : o.apply b h = some (r, h')) : Quiet h h' := by
  cases o
  all_goals first
    | (cases hact <;> exact ⟨rfl, rfl, rfl, rfl, rfl, rfl, rfl, rfl, rfl, rfl⟩)
    | cases ho

/-- The container has changed, and nothing else. -/
def Dated.withHeap (s : Dated Addr Key) (h : Heap Addr Key) : Dated Addr Key := { s with heap := h }

omit [DecidableEq Addr] in
theorem Quiet.keeps {h' : Heap Addr Key} (hq : Quiet s.heap h') : Keeps t s (s.withHeap h') := by
  constructor
  case linked => exact fun a ha => ⟨hq.inUse ▸ ha.1, ha.2⟩
  case soKey => exact fun a _ => congrFun hq.soKey a
  case date => exact fun _ _ => rfl
  case table => exact Nat.le_of_eq hq.table.symm
  case bucket =>
    intro u i d _ hd
    show h'.bucket u i = some d
    rw [hq.bucket]
    exact hd
  case node => exact fun _ _ a ha => ⟨ha, congrFun hq.next a, congrFun hq.soKey a⟩
  case lock => exact fun _ _ st hst => ⟨hst, hq.table, congrFun hq.bucket _⟩

omit [DecidableEq Addr] in
/-- The growth depends on the tables only. -/
theorem Grown.congr {h h' : Heap Addr Key} {stage : Option Stage} (hg : Grown h stage)
    (htable : h'.table = h.table ∧ h'.tables = h.tables ∧ h'.size = h.size)
    (hgrowing : h'.growing = h.growing ∧ h'.retiredTables = h.retiredTables)
    (hhead : ∀ t, t ≤ h.table → (h.bucket t 0).isSome = true → (h'.bucket t 0).isSome = true) :
    Grown h' stage := by
  obtain ⟨h1, h2, h3⟩ := htable
  obtain ⟨h4, h5⟩ := hgrowing
  refine ⟨?_, fun u hu => ?_, ?_, fun u hu => ?_⟩
  · have hstands := hg.stands
    cases stage with
    | none =>
      simp only [Stands] at hstands ⊢
      rwa [h1, h2, h4, h5]
    | some st => cases st <;> simp only [Stands] at hstands ⊢ <;> rwa [h1, h2, h4, h5]
  · rw [h3]
    exact hg.size u (h2 ▸ hu)
  · rw [h2]
    exact hg.small
  · have hu : u ≤ h.table := h1 ▸ hu
    exact hhead u hu (hg.head u hu)

omit [DecidableEq Addr] in
/-- Accesses that write no pointer keep the order. -/
theorem Quiet.ranked {h' : Heap Addr Key} (hq : Quiet s.heap h') (hi : Ranked s) :
    Ranked (s.withHeap h') := by
  have hcalm : Calm s.heap h' :=
    ⟨hq.next, fun u i d hd => by rwa [hq.bucket] at hd, hq.inUse, hq.pick⟩
  constructor
  case toInOrder => exact hi.toInOrder.calm hcalm hq.soKey
  case grown =>
    refine hi.grown.congr ⟨hq.table, hq.tables, hq.size⟩ ⟨hq.growing, hq.retiredTables⟩
      fun u _ hu => ?_
    show (h'.bucket u 0).isSome = true
    rwa [hq.bucket]
  case bound => exact fun u i d hd => hi.bound u i d (hq.bucket ▸ hd)

omit [DecidableEq Addr] in
theorem Quiet.holds {h' : Heap Addr Key} (hq : Quiet s.heap h') {x : Own Addr} (h : x.holds t s) :
    x.holds t (s.withHeap h') :=
  Own.holds_keep (u := t + 1) (Nat.succ_ne_self t).symm hq.keeps h

/-- An access that writes no pointer and answers with the facts `l' r`. -/
theorem Spec.read {o : Op Addr Key β} {k : β → Code Addr Key α} (l' : β → List (Fact Addr))
    (ho : Op.quiet o = true)
    (hl : ∀ s b r h', Ranked s → (∀ f ∈ l, f.holds s) → o.apply b s.heap = some (r, h') →
      ∀ f ∈ l' r, f.holds s)
    (hk : ∀ r, Spec C free t M (l' r ++ l) (k r) m g) : Spec C free t M l (.act o k) m g := by
  refine .act (enabled (Op.performs_of_quiet ho)) (fun _ => M) l' (fun s b r h' hi h hact => ?_) hk
  have hq := quiet_apply ho hact
  refine ⟨s.withHeap h', rfl, hq.ranked hi, hq.keeps, h.nodup,
    fun x hx => hq.holds (h.own x hx), ?_⟩
  exact fun f hf => Fact.holds_keep (hq.keeps (t := t)) (hl s b r h' hi h.knows hact f hf)

/-- An access that writes no pointer. -/
theorem Spec.skip {o : Op Addr Key β} {k : β → Code Addr Key α} (ho : Op.quiet o = true)
    (hk : ∀ r, Spec C free t M l (k r) m g) : Spec C free t M l (.act o k) m g :=
  .read (fun _ => []) ho (fun _ _ _ _ _ _ _ f hf => by cases hf) hk

/-- What comes after `a`. -/
def after (a : Addr) (p : Option Addr) : List (Fact Addr) :=
  p.toList.flatMap fun b => [.before a b, .linked b]

omit [DecidableEq Addr] in
@[simp] theorem after_none : after a (none : Option Addr) = [] := rfl

omit [DecidableEq Addr] in
@[simp] theorem after_some : after a (some b) = [.before a b, .linked b] := rfl

omit [DecidableEq Addr] in
theorem before_mem_after {p : Option Addr} (hp : p = some b) : .before a b ∈ after a p := by
  rw [hp, after_some]
  exact List.mem_cons_self

/-- A next pointer leads to a later node. -/
theorem Spec.loadNext {k : Link Addr → Code Addr Key α} (ha : .linked a ∈ l)
    (hk : ∀ r, Spec C free t M (after a r.ptr ++ l) (k r) m g) :
    Spec C free t M l (.act (.loadNext a) k) m g := by
  refine .read (fun r => after a r.ptr) rfl (fun s b r h' hi hl hact f hf => ?_) hk
  cases hact
  obtain ⟨c, hc, hf⟩ := List.mem_flatMap.mp hf
  have hbefore := hi.before a c (hl _ ha) (Option.mem_toList.mp hc)
  rcases List.mem_cons.mp hf with rfl | hf
  · exact hbefore
  · obtain rfl := List.mem_singleton.mp hf
    exact hbefore.right

/-- The key of a linked node does not change. -/
theorem Spec.loadSoKey {k : Word → Code Addr Key α} (ha : .linked a ∈ l)
    (hk : ∀ r, Spec C free t M (.keyed a r :: l) (k r) m g) :
    Spec C free t M l (.act (.loadSoKey a) k) m g := by
  refine .read (fun r => [.keyed a r]) rfl (fun s b r h' hi hl hact f hf => ?_) hk
  cases hact
  obtain rfl := List.mem_singleton.mp hf
  exact ⟨hl _ ha, rfl⟩

/-- The key of a node of the thread. -/
theorem Spec.loadOwnKey {n : Addr} {so : Word} {p : Option (Option Addr)}
    {k : Word → Code Addr Key α} (hk : Spec C free t (.node n (some so) p :: M) l (k so) m g) :
    Spec C free t (.node n (some so) p :: M) l (.act (.loadSoKey n) k) m g := by
  refine .act (enabled rfl) (fun r => .node n (some so) p :: M) (fun r => [.pure (r = so)])
    (fun s b r h' hi h hact => ?_) fun r => .assume (φ := r = so) (by simp) ?_
  · cases hact
    refine ⟨s, rfl, hi, Keeps.rfl, h.nodup, h.own, fun f hf => ?_⟩
    obtain rfl := List.mem_singleton.mp hf
    exact (h.own _ List.mem_cons_self).2.1 so rfl
  · rintro rfl s hi h
    exact hk s hi (h.mono fun f hf => List.mem_cons_of_mem _ hf)

/-- A table that has been read was published. -/
theorem Spec.loadTable {k : Nat → Code Addr Key α}
    (hk : ∀ r, Spec C free t M (.table r :: l) (k r) m g) :
    Spec C free t M l (.act .loadTable k) m g := by
  refine .read (fun r => [.table r]) rfl (fun s b r h' hi hl hact f hf => ?_) hk
  cases hact
  obtain rfl := List.mem_singleton.mp hf
  exact Nat.le_refl _

/-- The size of a table follows from its number. -/
theorem Spec.loadSize {u : Nat} {k : Nat → Code Addr Key α} (hu : .table u ∈ l)
    (hk : u < 30 → Spec C free t M l (k (2 ^ (u + 1))) m g) :
    Spec C free t M l (.act (.loadSize u) k) m g := by
  refine .read (fun r => [.pure (u < 30 ∧ r = 2 ^ (u + 1))]) rfl
    (fun s b r h' hi hl hact f hf => ?_) fun r => ?_
  · cases hact
    obtain rfl := List.mem_singleton.mp hf
    have hlt := hi.grown.lt_tables (hl _ hu)
    exact ⟨Nat.lt_of_lt_of_le hlt hi.grown.small, hi.grown.size u hlt⟩
  · refine .assume (φ := u < 30 ∧ r = 2 ^ (u + 1)) (by simp) ?_
    rintro ⟨hlt, rfl⟩ s hi h
    exact hk hlt s hi (h.mono (List.subset_append_right _ _))

/-- What a load of the bucket `i` of the table `u` tells. -/
def dummies (u i : Nat) (r : Option Addr) : List (Fact Addr) :=
  r.toList.flatMap fun d => [.keyed d (dummySplitOrderKey i), .filled u i]

omit [DecidableEq Addr] in
@[simp] theorem dummies_none {u i : Nat} : dummies u i (none : Option Addr) = [] := rfl

omit [DecidableEq Addr] in
@[simp] theorem dummies_some {u i : Nat} {d : Addr} :
    dummies u i (some d) = [.keyed d (dummySplitOrderKey i), .filled u i] := rfl

/-- What is in a cell of a published table is the dummy of the bucket; the first cell is never
empty. -/
theorem Spec.loadBucket {u i : Nat} {k : Option Addr → Code Addr Key α} (hu : .table u ∈ l)
    (hk : ∀ r : Option Addr, (i = 0 → r.isSome = true) →
      Spec C free t M (dummies u i r ++ l) (k r) m g) :
    Spec C free t M l (.act (.loadBucket u i) k) m g := by
  refine .read (fun r => .pure (i = 0 → r.isSome = true) :: dummies u i r) rfl
    (fun s b r h' hi hl hact f hf => ?_) fun r => ?_
  · cases hact
    have hpub : u ≤ s.heap.table := hl _ hu
    rcases List.mem_cons.mp hf with rfl | hf
    · rintro rfl
      exact hi.grown.head u hpub
    · obtain ⟨d, hd, hf⟩ := List.mem_flatMap.mp hf
      have hd := Option.mem_toList.mp hd
      rcases List.mem_cons.mp hf with rfl | hf
      · exact ⟨hi.bucket u i d hd, (hi.dummy u i d hd).1⟩
      · obtain rfl := List.mem_singleton.mp hf
        refine ⟨hpub, ?_⟩
        rw [hd]
        rfl
  · refine .assume (φ := i = 0 → r.isSome = true) (by simp) fun h0 s hi h => ?_
    exact hk r h0 s hi (h.mono fun f hf => List.mem_cons_of_mem _ hf)

/-- A bucket that has its dummy. -/
theorem Spec.loadFilled {u i : Nat} {k : Option Addr → Code Addr Key α} (hu : .filled u i ∈ l)
    (hk : ∀ d, Spec C free t M (.keyed d (dummySplitOrderKey i) :: l) (k (some d)) m g) :
    Spec C free t M l (.act (.loadBucket u i) k) m g := by
  refine .read (fun r => .pure (r.isSome = true) :: dummies u i r) rfl
    (fun s b r h' hi hl hact f hf => ?_) fun r => ?_
  · cases hact
    obtain ⟨hpub, hsome⟩ : u ≤ s.heap.table ∧ (s.heap.bucket u i).isSome = true := hl _ hu
    rcases List.mem_cons.mp hf with rfl | hf
    · exact hsome
    · obtain ⟨d, hd, hf⟩ := List.mem_flatMap.mp hf
      have hd := Option.mem_toList.mp hd
      rcases List.mem_cons.mp hf with rfl | hf
      · exact ⟨hi.bucket u i d hd, (hi.dummy u i d hd).1⟩
      · obtain rfl := List.mem_singleton.mp hf
        exact ⟨hpub, hsome⟩
  · refine .assume (φ := r.isSome = true) (by simp) fun hsome s hi h => ?_
    obtain ⟨d, rfl⟩ := Option.isSome_iff_exists.mp hsome
    refine hk d s hi (h.mono fun f hf => ?_)
    rcases List.mem_cons.mp hf with rfl | hf
    · simp
    · simp [hf]

/-! ### Accesses that write a pointer -/

omit [DecidableEq Addr] in
/-- A step that respects what every thread owns leaves what `t` owns. -/
theorem Own.holds_all (hg : ∀ u, Keeps u s s') {x : Own Addr} (h : x.holds t s) : x.holds t s' :=
  Own.holds_keep (Nat.succ_ne_self t).symm (hg (t + 1)) h

/-- The pointer of a linked node. -/
theorem keeps_setNext {v : Link Addr} (ha : s.Linked a) :
    Keeps t s (s.withHeap (s.heap.setNext a v)) := by
  constructor
  case linked => exact fun _ h => h
  case soKey => exact fun _ _ => rfl
  case date => exact fun _ _ => rfl
  case table => exact Nat.le_refl _
  case bucket => exact fun _ _ _ _ h => h
  case node =>
    intro u _ b hb
    refine ⟨hb, Function.update_of_ne ?_ _ _, rfl⟩
    rintro rfl
    exact Aged.not_linked hb ha
  case lock => exact fun _ _ _ h => ⟨h, rfl, rfl⟩

/-- A pointer leads to a node behind. -/
theorem Ranked.setNext {v : Link Addr} (hi : Ranked s) (ha : s.Linked a)
    (hv : ∀ b, v.ptr = some b → s.Before a b)
    (hm : v.marked = true → isRegular (s.heap.soKey a) = true) :
    Ranked (s.withHeap (s.heap.setNext a v)) :=
  ⟨hi.toInOrder.setNext ha hv hm, hi.grown.congr ⟨rfl, rfl, rfl⟩ ⟨rfl, rfl⟩ fun _ _ h => h, hi.bound⟩

/-- A compare-exchange, weak or not, on a linked node. -/
theorem Spec.compareExchange {o : Op Addr Key Bool} {e v : Link Addr} {k : Bool → Code Addr Key α}
    (ho : ∀ b h, o.apply b h = some (h.compareExchange a e v false) ∨
      o.apply b h = some (h.compareExchange a e v b))
    (ha : .linked a ∈ l)
    (hv : ∀ s : Dated Addr Key, Ranked s → (∀ f ∈ l, f.holds s) → s.heap.next a = e →
      ∀ b, v.ptr = some b → s.Before a b)
    (hm : v.marked = true → ∃ so, .keyed a so ∈ l ∧ isRegular so = true)
    (hk : ∀ r, Spec C free t M l (k r) m g) : Spec C free t M l (.act o k) m g := by
  refine .act (fun h => (ho false h).elim (⟨_, ·⟩) (⟨_, ·⟩)) (fun _ => M) (fun _ => [])
    (fun s b r h' hi h hact => ?_) hk
  have hcas : h' = s.heap ∨ (s.heap.next a = e ∧ h' = s.heap.setNext a v) := by
    rcases ho b s.heap with h1 | h1 <;> rw [h1] at hact <;>
      simp only [Heap.compareExchange] at hact <;> split at hact <;> cases hact
    · next hc => exact .inr ⟨hc.1, rfl⟩
    · exact .inl rfl
    · next hc => exact .inr ⟨hc.1, rfl⟩
    · exact .inl rfl
  rcases hcas with rfl | ⟨he, rfl⟩
  · exact ⟨s, rfl, hi, Keeps.rfl, h.mono (List.nil_subset l)⟩
  · have hlinked : s.Linked a := h.knows _ ha
    refine ⟨_, rfl, hi.setNext hlinked (hv s hi h.knows he) fun hvm => ?_,
      keeps_setNext hlinked, h.nodup,
      fun x hx => Own.holds_all (fun u => keeps_setNext hlinked) (h.own x hx),
      fun f hf => by cases hf⟩
    obtain ⟨so, hso, hreg⟩ := hm hvm
    rw [(h.knows _ hso).2]
    exact hreg

/-- A helper unlinks `cur`. -/
theorem Spec.casNextWeak {prev cur : Addr} {tagged rawNext : Link Addr} {k : Bool → Code Addr Key α}
    (hprev : .before prev cur ∈ l) (hcur : after cur rawNext.ptr ⊆ l)
    (hk : ∀ r, Spec C free t M l (k r) m g) :
    Spec C free t M l (.act (.casNextWeak prev tagged rawNext.clearMark) k) m g := by
  refine .infer [.linked prev] (fun s hi hl f hf => ?_) (.compareExchange (fun _ _ => .inr rfl)
    (by simp) (fun s hi hl _ b hb => ?_) (fun h => by cases h) fun r s hi h => ?_)
  · obtain rfl := List.mem_singleton.mp hf
    exact (hl _ hprev : s.Before prev cur).left
  · have h1 : s.Before prev cur := hl _ (List.mem_append_right _ hprev)
    exact h1.trans (hl _ (List.mem_append_right _ (hcur (before_mem_after hb))))
  · exact hk r s hi (h.mono (List.subset_append_right _ _))

/-- An attempt to unlink `target` from `prev`, weak or not. -/
theorem Spec.unlink {o : Op Addr Key Bool} {prev target : Addr} {rawNext : Link Addr}
    {k : Bool → Code Addr Key α}
    (ho : ∀ b h, o.apply b h =
        some (h.compareExchange prev (.plain (some target)) rawNext.clearMark false) ∨
      o.apply b h = some (h.compareExchange prev (.plain (some target)) rawNext.clearMark b))
    (hprev : .linked prev ∈ l) (htarget : after target rawNext.ptr ⊆ l)
    (hk : ∀ r, Spec C free t M l (k r) m g) : Spec C free t M l (.act o k) m g := by
  refine .compareExchange ho hprev (fun s hi hl he b hb => ?_) (fun h => by cases h) hk
  have h1 : s.Before prev target := hi.before prev target (hl _ hprev) (by rw [he]; rfl)
  exact h1.trans (hl _ (htarget (before_mem_after hb)))

/-- An eraser marks a node of its run. -/
theorem Spec.mark (so : Word) {e : Link Addr} {k : Bool → Code Addr Key α}
    (ha : .keyed a so ∈ l) (hso : isRegular so = true) (hk : ∀ r, Spec C free t M l (k r) m g) :
    Spec C free t M l (.act (.casNext a e e.setMarked) k) m g := by
  refine .infer [.linked a] (fun s hi hl f hf => ?_) (.compareExchange (fun _ _ => .inl rfl)
    (by simp) (fun s hi hl he b hb => ?_) (fun _ => ⟨so, by simp [ha], hso⟩) fun r s hi h => ?_)
  · obtain rfl := List.mem_singleton.mp hf
    exact (hl _ ha).1
  · refine hi.before a b (hl _ (List.mem_append_right _ ha)).1 ?_
    rw [he]
    exact hb
  · exact hk r s hi (h.mono (List.subset_append_right _ _))

/-! ### Nodes of the thread -/

omit [DecidableEq Addr] in
/-- What a thread owns besides the node `n` does not depend on that node. -/
theorem Own.holds_other {n : Addr} {x : Own Addr} (h : x.holds t s) (hx : x.id ≠ some n)
    (howner : ∀ b, b ≠ n → s'.owner b = s.owner b)
    (hnext : ∀ b, b ≠ n → s.owner b = some t → s'.heap.next b = s.heap.next b)
    (hso : ∀ b, b ≠ n → s'.heap.soKey b = s.heap.soKey b)
    (htable : s'.lock = s.lock ∧ s'.heap.table = s.heap.table ∧ s'.heap.bucket = s.heap.bucket) :
    x.holds t s' := by
  cases x with
  | node b so next =>
    have hbn : b ≠ n := fun hbn => hx (congrArg some hbn)
    refine ⟨(howner b hbn).trans h.1, fun w hw => ?_, fun p hp => ?_⟩
    · rw [hso b hbn]
      exact h.2.1 w hw
    · rw [hnext b hbn h.1]
      exact h.2.2 p hp
  | lock st u begun =>
    obtain ⟨h1, h2, h3⟩ := htable
    refine ⟨h1.trans h.1, fun v hv => h2.trans (h.2.1 v hv), fun hb => ?_⟩
    rw [h2, h3]
    exact h.2.2 hb

omit [DecidableEq Addr] in
/-- Writing to a node that is not linked. -/
theorem ranked_private {h' : Heap Addr Key} {n : Addr} (hi : Ranked s) (hn : ¬ s.Linked n)
    (hinv : Inv (s.withHeap h').toAnnotated) (hnext : ∀ a, a ≠ n → h'.next a = s.heap.next a)
    (hso : ∀ a, a ≠ n → h'.soKey a = s.heap.soKey a) (hunmarked : (h'.next n).marked = false)
    (hinUse : h'.inUse = s.heap.inUse) (hbucket : h'.bucket = s.heap.bucket)
    (hgrown : Grown h' (s.lock.map Prod.snd)) : Ranked (s.withHeap h') :=
  ⟨hi.toInOrder.aside hn hinv hnext hso hunmarked hinUse hbucket, hgrown,
    fun u i d hd => hi.bound u i d (hbucket ▸ hd)⟩

omit [DecidableEq Addr] in
/-- A write to an own node concerns nobody. -/
theorem keeps_private {h' : Heap Addr Key} {n : Addr} (hn : s.owner n = some t)
    (hnext : ∀ a, a ≠ n → h'.next a = s.heap.next a)
    (hso : ∀ a, a ≠ n → h'.soKey a = s.heap.soKey a) (hinUse : h'.inUse = s.heap.inUse)
    (hbucket : h'.bucket = s.heap.bucket) (htable : h'.table = s.heap.table) :
    Keeps t s (s.withHeap h') := by
  constructor
  case linked => exact fun a ha => ⟨hinUse ▸ ha.1, ha.2⟩
  case soKey =>
    intro a ha
    apply hso
    rintro rfl
    exact Aged.not_linked hn ha
  case date => exact fun _ _ => rfl
  case table => exact Nat.le_of_eq htable.symm
  case bucket =>
    intro u i d _ hd
    show h'.bucket u i = some d
    rw [hbucket]
    exact hd
  case node =>
    intro v hv a ha
    have han : a ≠ n := by
      rintro rfl
      rw [hn] at ha
      exact hv (Option.some.inj ha).symm
    exact ⟨ha, hnext a han, hso a han⟩
  case lock => exact fun _ _ _ h => ⟨h, htable, congrFun hbucket _⟩

omit [DecidableEq Addr] in
/-- The nodes of a thread are different ones. -/
theorem Has.ne_head {x y : Own Addr} (h : Has t (x :: M) l s) (hy : y ∈ M) : y.id ≠ x.id := by
  intro he
  exact (List.nodup_cons.mp h.nodup).1 (he ▸ List.mem_map_of_mem hy)

/-- The inserter writes the key of its node. -/
theorem Spec.storeSoKey {n : Addr} {w : Word} {so : Option Word} {p : Option (Option Addr)}
    {k : Unit → Code Addr Key α} (hk : Spec C free t (.node n (some w) p :: M) l (k ()) m g) :
    Spec C free t (.node n so p :: M) l (.act (.storeSoKey n w) k) m g := by
  refine .act (enabled rfl) (fun _ => .node n (some w) p :: M) (fun _ => [])
    (fun s b r h' hi h hact => ?_)
    fun _ => hk
  cases hact
  obtain ⟨hown, -, hstored⟩ := h.own _ List.mem_cons_self
  have hother : ∀ a, a ≠ n → update s.heap.soKey n w a = s.heap.soKey a :=
    fun a ha => Function.update_of_ne ha _ _
  have hinv : Inv (s.withHeap { s.heap with soKey := update s.heap.soKey n w }).toAnnotated :=
    ⟨hi.pick, hi.unused, hi.unmarked, hi.next, hi.bucket⟩
  have hgrown : Grown { s.heap with soKey := update s.heap.soKey n w } (s.lock.map Prod.snd) :=
    hi.grown.congr ⟨rfl, rfl, rfl⟩ ⟨rfl, rfl⟩ fun _ _ h => h
  refine ⟨_, rfl, ranked_private hi (Aged.not_linked hown) hinv (fun _ _ => rfl) hother
    (hi.unmarked n (Aged.not_linked hown)) rfl rfl hgrown,
    keeps_private hown (fun _ _ => rfl) hother rfl rfl rfl, h.nodup, fun x hx => ?_,
    fun f hf => by cases hf⟩
  rcases List.mem_cons.mp hx with rfl | hx
  · refine ⟨hown, fun w' hw => ?_, hstored⟩
    cases hw
    exact Function.update_self _ _ _
  · exact Own.holds_other (h.own x (List.mem_cons_of_mem _ hx)) (h.ne_head hx) (fun _ _ => rfl)
      (fun _ _ _ => rfl) hother ⟨rfl, rfl, rfl⟩

/-- The inserter writes the pointer of its node. -/
theorem Spec.storeNext {n : Addr} {so : Option Word} {w : Option (Option Addr)} {p : Option Addr}
    {k : Unit → Code Addr Key α} (hp : ∀ c, p = some c → .linked c ∈ l)
    (hk : Spec C free t (.node n so (some p) :: M) l (k ()) m g) :
    Spec C free t (.node n so w :: M) l (.act (.storeNext n (.plain p)) k) m g := by
  refine .act (enabled rfl) (fun _ => .node n so (some p) :: M) (fun _ => [])
    (fun s b r h' hi h hact => ?_)
    fun _ => hk
  cases hact
  obtain ⟨hown, hso, -⟩ := h.own _ List.mem_cons_self
  have hother : ∀ a, a ≠ n → (s.heap.setNext n (.plain p)).next a = s.heap.next a :=
    fun a ha => Function.update_of_ne ha _ _
  have hself : (s.heap.setNext n (.plain p)).next n = .plain p := Function.update_self _ _ _
  refine ⟨_, rfl, ranked_private hi (Aged.not_linked hown)
    (hi.toInv.setNext (fun c hc => h.knows _ (hp c hc)) (.inr rfl)) hother (fun _ _ => rfl)
    (by rw [hself]; rfl) rfl rfl (hi.grown.congr ⟨rfl, rfl, rfl⟩ ⟨rfl, rfl⟩ fun _ _ h => h),
    keeps_private hown hother (fun _ _ => rfl) rfl rfl rfl, h.nodup, fun x hx => ?_,
    fun f hf => by cases hf⟩
  rcases List.mem_cons.mp hx with rfl | hx
  · refine ⟨hown, hso, fun q hq => ?_⟩
    cases hq
    exact hself
  · exact Own.holds_other (h.own x (List.mem_cons_of_mem _ hx)) (h.ne_head hx) (fun _ _ => rfl)
      (fun a ha _ => hother a ha) (fun _ _ => rfl) ⟨rfl, rfl, rfl⟩

/-- The node `n` has been linked behind `a`, later than all others. -/
def Dated.link (s : Dated Addr Key) (a n : Addr) : Dated Addr Key where
  toAged := s.toAged.link a n
  lock := s.lock

/-- The own node comes between two neighbours. -/
theorem link_step {n : Addr} {so : Word} {p : Option Addr} (hi : Ranked s) (ha : s.Linked a)
    (hlt : s.heap.soKey a < so) (hm : (s.heap.next a).marked = false) (hn : s.owner n = some t)
    (hso : s.heap.soKey n = so) (hnext : s.heap.next n = .plain p)
    (hp : ∀ c, p = some c → s.Linked c ∧ so ≤ s.heap.soKey c) :
    Ranked (s.link a n) ∧ Keeps t s (s.link a n) := by
  obtain ⟨-, hguar, -⟩ := hi.toInv.link ha hm hn
  have hk : Keeps t s (s.link a n) := by
    constructor
    case linked => exact hguar.linked
    case soKey => exact fun _ _ => rfl
    case date => exact fun b hb => Aged.link_date hn hb
    case table => exact Nat.le_refl _
    case bucket => exact fun _ _ _ _ h => h
    case node =>
      intro v hv b hb
      have hbn : b ≠ n := by
        rintro rfl
        rw [hn] at hb
        exact hv (Option.some.inj hb).symm
      have hba : b ≠ a := by
        rintro rfl
        exact Aged.not_linked hb ha
      exact ⟨(Function.update_of_ne hbn _ _).trans hb, Function.update_of_ne hba _ _, rfl⟩
    case lock => exact fun _ _ _ h => ⟨h, rfl, rfl⟩
  exact ⟨⟨hi.toInOrder.link ha hlt hm hn hso hnext hp,
    hi.grown.congr ⟨rfl, rfl, rfl⟩ ⟨rfl, rfl⟩ fun _ _ h => h, hi.bound⟩, hk⟩

/-- The compare-exchange that links a node of the thread. -/
theorem Spec.link {n : Addr} {so : Word} {p : Option Addr} {e : Link Addr}
    {k : Bool → Code Addr Key α} (he : e.marked = false) (ha : .below a so ∈ l)
    (hp : ∀ c, p = some c → .above c so ∈ l)
    (hyes : Spec C free t M (.keyed n so :: l) (k true) m g)
    (hno : Spec C free t (.node n (some so) (some p) :: M) l (k false) m g) :
    Spec C free t (.node n (some so) (some p) :: M) l (.act (.casNextWeak a e (.plain (some n))) k)
      m g := by
  refine .act (enabled rfl) (fun r => if r then M else .node n (some so) (some p) :: M)
    (fun r => if r then [.keyed n so] else []) (fun s b r h' hi h hact => ?_)
    fun r => by cases r <;> assumption
  obtain ⟨hown, hso, hnext⟩ := h.own _ List.mem_cons_self
  replace hso := hso so rfl
  replace hnext := hnext p rfl
  obtain ⟨hlinked, hlt⟩ : s.Linked a ∧ s.heap.soKey a < so := h.knows _ ha
  simp only [Op.apply, Heap.compareExchange] at hact
  split at hact <;> cases hact
  · next hc =>
    have hm : (s.heap.next a).marked = false := by
      rw [hc.1]
      exact he
    obtain ⟨hi', hk⟩ := link_step hi hlinked hlt hm hown hso hnext fun c hc => h.knows _ (hp c hc)
    refine ⟨s.link a n, rfl, hi', hk, (List.nodup_cons.mp h.nodup).2, fun x hx => ?_,
      fun f hf => ?_⟩
    · refine Own.holds_other (n := n) (h.own x (List.mem_cons_of_mem _ hx)) (h.ne_head hx)
        (fun b hb => Function.update_of_ne hb _ _) (fun b _ hb => Function.update_of_ne ?_ _ _)
        (fun _ _ => rfl) ⟨rfl, rfl, rfl⟩
      rintro rfl
      exact Aged.not_linked hb hlinked
    · obtain rfl := List.mem_singleton.mp hf
      obtain ⟨-, -, hself⟩ := hi.toInv.link hlinked hm hown
      exact ⟨hself, hso⟩
  · exact ⟨s, rfl, hi, Keeps.rfl, h.nodup, h.own, fun f hf => by cases hf⟩

omit [DecidableEq Addr] in
/-- What a thread owns is not what is made now. -/
theorem Has.fresh_node (hi : Ranked s) (h : Has t M l s) {n : Addr} (hn : n ∉ s.heap.inUse) :
    ∀ x ∈ M, x.id ≠ some n := by
  rintro (⟨a, so, next⟩ | ⟨st, u, begun⟩) hx he
  · obtain rfl := Option.some.inj he
    have hown := (h.own _ hx).1
    rw [hi.unused a hn] at hown
    cases hown
  · cases he

/-- A new node belongs to the thread that made it. -/
theorem give_step {h' : Heap Addr Key} {n : Addr} (hi : Ranked s) (hn : n ∉ s.heap.inUse)
    (hinv : Inv ⟨h', update s.owner n (some t)⟩) (hbucket : h'.bucket = s.heap.bucket)
    (hnext : h'.next = update s.heap.next n .null) (hinUse : h'.inUse = insert n s.heap.inUse)
    (hso : ∀ a, a ≠ n → h'.soKey a = s.heap.soKey a)
    (htable : h'.table = s.heap.table) (hgrown : Grown h' (s.lock.map Prod.snd)) :
    Ranked { s with heap := h', owner := update s.owner n (some t) } ∧
      Keeps t s { s with heap := h', owner := update s.owner n (some t) } := by
  have hne : ∀ a, s.Linked a → a ≠ n := by
    rintro a ha rfl
    exact hn ha.1
  have hother : ∀ a, a ≠ n → h'.next a = s.heap.next a := fun a ha => by
    rw [hnext]
    exact Function.update_of_ne ha _ _
  have hk : Keeps t s { s with heap := h', owner := update s.owner n (some t) } := by
    constructor
    case linked =>
      intro a ha
      exact ⟨hinUse ▸ Finset.mem_insert_of_mem ha.1,
        (Function.update_of_ne (hne a ha) _ _).trans ha.2⟩
    case soKey => exact fun a ha => hso a (hne a ha)
    case date => exact fun _ _ => rfl
    case table => exact Nat.le_of_eq htable.symm
    case bucket =>
      intro u i d _ hd
      show h'.bucket u i = some d
      rw [hbucket]
      exact hd
    case node =>
      intro v _ a ha
      have han : a ≠ n := by
        rintro rfl
        rw [hi.unused a hn] at ha
        cases ha
      exact ⟨(Function.update_of_ne han _ _).trans ha, hother a han, hso a han⟩
    case lock => exact fun _ _ _ h => ⟨h, htable, congrFun hbucket _⟩
  exact ⟨⟨hi.toInOrder.give hn hinv hbucket hnext hinUse hso, hgrown,
    fun u i d hd => hi.bound u i d (hbucket ▸ hd)⟩, hk⟩

/-- A new block is the thread's own. -/
theorem Spec.allocNode {k : Addr → Code Addr Key α}
    (hk : ∀ d, Spec C free t (.node d none none :: M) l (k d) m g) :
    Spec C free t M l (.act .allocNode k) m g := by
  refine .act (enabled rfl) (fun d => .node d none none :: M) (fun _ => [])
    (fun s b d h' hi h hact => ?_) hk
  cases hact
  have hnew := hi.pick s.heap.allocs s.heap.inUse
  have hfresh := h.fresh_node hi hnew
  set n := s.heap.pick s.heap.allocs s.heap.inUse
  obtain ⟨hinv, -⟩ := hi.toInv.give (t := t) (g := s.heap.alloc.2) hnew rfl rfl rfl rfl
  obtain ⟨hi', hk⟩ := give_step (t := t) hi hnew hinv rfl rfl rfl
    (fun a ha => Function.update_of_ne ha _ _) rfl
    (hi.grown.congr ⟨rfl, rfl, rfl⟩ ⟨rfl, rfl⟩ fun _ _ h => h)
  refine ⟨_, rfl, hi', hk, List.nodup_cons.mpr ⟨fun hmem => ?_, h.nodup⟩, fun x hx => ?_,
    fun f hf => by cases hf⟩
  · obtain ⟨x, hx, he⟩ := List.mem_map.mp hmem
    exact hfresh x hx he
  · rcases List.mem_cons.mp hx with rfl | hx
    · exact ⟨Function.update_self _ _ _, fun w hw => (by cases hw), fun p hp => (by cases hp)⟩
    · exact Own.holds_other (h.own x hx) (hfresh x hx) (fun b hb => Function.update_of_ne hb _ _)
        (fun b hb _ => Function.update_of_ne hb _ _) (fun b hb => Function.update_of_ne hb _ _)
        ⟨rfl, rfl, rfl⟩

end Rules

end Ranks

end MpmcMap.Unordered
