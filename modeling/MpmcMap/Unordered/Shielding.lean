import MpmcMap.Reclaim.Shields
import MpmcMap.Unordered.BitOrder
import MpmcMap.Unordered.Marks

/-!
# The list under the hazard-pointer scheme

The engine over the reclaimer with an exact `is_protected`. Every access of a node or of a table is
a dereference. A thread may dereference what its slots hold, the nodes that it has not linked yet,
and what is never retired: the dummies and, since no table is replaced here, the tables. A node that
is retired has been linked and holds an element, so no dummy is among the retired objects.
-/

namespace MpmcMap.Unordered

open Conc
open Prog (perform iterate)
open Function (update)
open Reclaim (Shields.Code Shields.Op Shields.Client Shields.State Shields.State.Holds Shields.State.trust
  Shields.retire Shields.scan)
open Reclaim.Hazard (HAZARD_POINTERS)

variable {Addr Key : Type}

/-! ## The accesses under the scheme -/

/-- What an access dereferences. -/
def Op.target {β : Type} : Op Addr Key β → Option (Obj Addr)
  | .loadSize t | .loadBucket t _ | .storeBucket t _ _ | .casBucket t _ _ => some (.table t)
  | .loadNext a | .reloadNext a _ | .storeNext a _ | .casNext a _ _ | .casNextWeak a _ _
  | .loadSoKey a | .storeSoKey a _ | .loadKey a => some (.node a)
  | _ => none

/-- An access of the engine under the scheme; `threshold` is `MPMC_HAZARD_RETIRE_THRESHOLD`. -/
def shielded (threshold : Nat) {β : Type} (o : Op Addr Key β) :
    Shields.Code (Op Addr Key) (Obj Addr) β :=
  match o with
  | .protect slot p => perform (.own (.protect (Fin.ofNat HAZARD_POINTERS slot) p))
  | .reloadNext a l =>
    perform (.own (.validate (Fin.ofNat HAZARD_POINTERS HP_CUR) (some (.node a)) (.reloadNext a l)))
  | .reloadTable t =>
    perform (.own (.validate (Fin.ofNat HAZARD_POINTERS HP_TABLE) none (.reloadTable t)))
  | .retireNode a => do
    perform (.access (.retireNode a))
    Shields.retire threshold (.node a)
  | .retireTable t => do
    perform (.access (.retireTable t))
    Shields.retire threshold (.table t)
  | o => perform (o.target.elim (.access o) fun p => .read p o)

/-- An access of a node that a slot of the thread holds, or of one whose slot may have been given
away. -/
inductive Touch (E : Type → Type) (β : Type) where
  | kept (e : E β)
  | given (e : E β)

/-- The access itself. -/
def Touch.access {E : Type → Type} {β : Type} : Touch E β → E β
  | .kept e | .given e => e

@[simp] theorem Touch.access_kept {E : Type → Type} {β : Type} (e : E β) :
    (Touch.kept e).access = e := rfl

@[simp] theorem Touch.access_given {E : Type → Type} {β : Type} (e : E β) :
    (Touch.given e).access = e := rfl

/-- The access under the scheme. -/
def Touch.shielded (threshold : Nat) {β : Type} :
    Touch (Op Addr Key) β → Shields.Code (Op Addr Key) (Obj Addr) β
  | .kept o => Unordered.shielded threshold o
  | .given o => perform (o.target.elim (.access o) fun p => .again p o)

section Code

variable [DecidableEq Addr] (C : Config Key)

/-- `insert_node(n, mixed, sk, k)`, with the accesses marked whose node may have lost its slot: the
scan of the run publishes its own nodes in `HP_PREV`, and `prev` is read and written after it. -/
def insertTouching (n : Addr) (mixed sk : Word) (k : Key) :
    Prog (Touch (Op Addr Key)) InsertResult := do
  perform (.kept (.storeSoKey n sk))
  iterate (fun (_ : Unit) => do
    let (prev, cur) ← (locate C mixed sk).expand fun o => perform (.kept o)
    if ← (inRun C sk k prev cur).expand fun o => perform (.kept o) then
      return .inr .INSERT_DUPLICATE
    else
      perform (.kept (.storeNext n (.plain cur)))
      let expected ← perform (.given (.loadNext prev))
      if expected.marked then
        return .inl ()
      else if expected.ptr = cur then
        if ← perform (.given (.casNextWeak prev expected (.plain (some n)))) then
          perform (.kept .addCount)
          return .inr .INSERT_OK
        else
          return .inl ()
      else
        return .inl ()) ()

/-- Without the marks it is `insert_node`. -/
theorem insertTouching_access (n : Addr) (mixed sk : Word) (k : Key) :
    (insertTouching C n mixed sk k).expand (fun o => perform o.access) =
      insertNode C n mixed sk k := by
  have hkept : ∀ {α : Type} (p : Code Addr Key α),
      (p.expand fun o => perform (Touch.kept o)).expand (fun o => perform o.access) = p := by
    intro α p
    rw [Prog.expand_expand]
    exact Prog.expand_perform p
  simp only [insertTouching, insertNode, Prog.bind_eq, Prog.pure_eq, Prog.perform_bind, iterate,
    Prog.expand, Prog.expand_bind, hkept, Touch.access_kept]
  congr! with _ _ place dup
  split
  · rfl
  · simp only [Prog.expand, Prog.perform_bind, Touch.access_kept, Touch.access_given]
    congr! with _ expected
    split
    · rfl
    · split
      · simp only [Prog.expand, Prog.perform_bind, Touch.access_given]
        congr! with r
        cases r <;> rfl
      · rfl

end Code

/-- The meaning of the engine's accesses, whoever performs them. -/
abbrev access [DecidableEq Addr] {β : Type} (_ : Nat) (b : Bool) (o : Op Addr Key β)
    (h : Heap Addr Key) : Option (β × Heap Addr Key) := o.apply b h

namespace Shielding

/-! ## What is known of the list -/

/-- Buckets lead to dummies, and what is retired has been linked and holds an element. -/
structure Tidy (s : Annotated Addr Key) (submitted : List (Obj Addr)) : Prop extends Inv s where
  dummy : ∀ t i d, s.heap.bucket t i = some d → isRegular (s.heap.soKey d) = false
  size : ∀ t, ∃ j, j < 63 ∧ s.heap.size t = 2 ^ j
  submitted : ∀ p ∈ submitted, ∃ a, p = .node a ∧ s.Linked a ∧
    isRegular (s.heap.soKey a) = true ∧ a ∈ s.heap.retired

/-- What a step of thread `u` may change. -/
structure Keeping (u : Nat) (s s' : Annotated Addr Key) : Prop where
  linked : ∀ a, s.Linked a → s'.Linked a ∧ s'.heap.soKey a = s.heap.soKey a
  owner : ∀ v, v ≠ u → ∀ a, s.owner a = some v →
    s'.owner a = some v ∧ s'.heap.soKey a = s.heap.soKey a
  retired : ∀ a ∈ s.heap.retired, a ∈ s'.heap.retired

/-- The list, with the owners of the nodes that are not linked yet. -/
def linking (Addr Key : Type) : Shields.Client (Heap Addr Key) (Obj Addr) where
  Aug := Annotated Addr Key
  erase := Annotated.heap
  inv := Tidy
  guar := Keeping
  refl _ _ := ⟨fun _ h => ⟨h, rfl⟩, fun _ _ _ h => ⟨h, rfl⟩, fun _ h => h⟩

/-- The list and the slots. -/
abbrev Guarded (Addr Key : Type) := Annotated Addr Key × Shields.State (Obj Addr)

/-- What a thread may know of the nodes, for as long as its call lasts. -/
inductive Fact (Addr : Type) where
  | linked (a : Addr)
  /-- The node is an element, or a dummy. -/
  | sort (a : Addr) (regular : Bool)
  | retired (a : Addr)
  | pure (φ : Prop)

def Fact.holds (s : Annotated Addr Key) : Fact Addr → Prop
  | .linked a => s.Linked a
  | .sort a regular => s.Linked a ∧ isRegular (s.heap.soKey a) = regular
  | .retired a => a ∈ s.heap.retired
  | .pure φ => φ

/-- What a thread has to itself: nodes that are not linked yet, with their sorts, and the place that
its slots hold. -/
structure Hand (Addr : Type) where
  nodes : List (Addr × Bool)
  spot : Option (Addr × Option Addr)

/-- Some of what is in `H`. -/
structure Hand.Le (H' H : Hand Addr) : Prop where
  nodes : H'.nodes.Sublist H.nodes
  spot : ∀ a p, H'.spot = some (a, p) → ∃ q, H.spot = some (a, q) ∧ (p = none ∨ p = q)

/-- The slots of thread `t` hold the place `(prev, cur)`; a dummy needs no slot. -/
structure Stands (t : Nat) (s : Guarded Addr Key) (prev : Addr) (cur : Option Addr) : Prop where
  linked : s.1.Linked prev
  held : isRegular (s.1.heap.soKey prev) = false ∨
    s.2.trusted t (Fin.ofNat HAZARD_POINTERS HP_PREV) = some (.node prev)
  cur : ∀ a, cur = some a → s.1.Linked a ∧
    s.2.trusted t (Fin.ofNat HAZARD_POINTERS HP_CUR) = some (.node a)

/-- Thread `t` has `H` to itself and knows the facts `l`. -/
structure Has (t : Nat) (H : Hand Addr) (l : List (Fact Addr)) (s : Guarded Addr Key) : Prop where
  nodup : (H.nodes.map Prod.fst).Nodup
  own : ∀ x ∈ H.nodes, s.1.owner x.1 = some t ∧ isRegular (s.1.heap.soKey x.1) = x.2
  spot : ∀ x, H.spot = some x → Stands t s x.1 x.2
  knows : ∀ f ∈ l, f.holds s.1

variable [DecidableEq Addr] {Call Ret : Type}
  (ts : Finset Nat) (code : Call → Shields.Code (Op Addr Key) (Obj Addr) Ret)
  (invoke : Call → Heap Addr Key → Option (Heap Addr Key))
  (ok : {β : Type} → Nat → Shields.Op (Op Addr Key) (Obj Addr) β →
    Heap Addr Key × Shields.State (Obj Addr) → Prop)

/-- The proof obligations of the threads. -/
abbrev guarding := Reclaim.Shields.discipline ts access code invoke (linking Addr Key) ok

/-- The slots and the list are in order. -/
abbrev Sound (s : Guarded Addr Key) : Prop := Reclaim.Shields.Sound ts (linking Addr Key) s

/-- Where the actions meet `ok`, the successor of a node that a walk goes on with is not retired, and
what is dereferenced after its slot may have been given away is held or not retired. -/
structure Vouches : Prop where
  confirm : ∀ t src a r (s : Guarded Addr Key), Sound ts s →
    ok t (.own (.validate (Fin.ofNat HAZARD_POINTERS HP_CUR) (some (.node src))
      (.reloadNext src r))) (s.1.heap, s.2) →
    s.1.heap.next src = r → r.ptr = some a →
    s.2.hp t (Fin.ofNat HAZARD_POINTERS HP_CUR) = some (.node a) → .node a ∉ s.2.submitted
  given : ∀ {β : Type} t p (o : Op Addr Key β) (s : Guarded Addr Key), Sound ts s →
    ok t (.again p o) (s.1.heap, s.2) → s.2.Holds t p

/-- From `H` and the facts `l`, the program comes to have `h r` and to know the facts `g r`, where
`r` is its result. -/
def Spec {α : Type} (t : Nat) (H : Hand Addr) (l : List (Fact Addr))
    (p : Shields.Code (Op Addr Key) (Obj Addr) α) (h : α → Hand Addr) (g : α → List (Fact Addr)) :
    Prop :=
  ∀ s, Sound ts s → Has t H l s →
    (guarding ts code invoke ok).WP t p (fun r s => Has t (h r) (g r) s) s

section Rules

variable {ts code invoke ok} {t : Nat} {H : Hand Addr} {l : List (Fact Addr)} {α β γ σ : Type}
  {h : α → Hand Addr} {g : α → List (Fact Addr)} {s s' : Guarded Addr Key} {a b : Addr}

omit [DecidableEq Addr] in
/-- What is known of the nodes stays true. -/
theorem Fact.holds.keep {u : Nat} {s s' : Annotated Addr Key} {f : Fact Addr} (hf : f.holds s)
    (hg : Keeping u s s') : f.holds s' := by
  cases f with
  | linked a => exact (hg.linked a hf).1
  | sort a r =>
    refine ⟨(hg.linked a hf.1).1, ?_⟩
    rw [(hg.linked a hf.1).2]
    exact hf.2
  | retired a => exact hg.retired a hf
  | pure φ => exact hf

theorem persistent_facts (l : List (Fact Addr)) :
    (guarding ts code invoke ok).Persistent fun s => ∀ f ∈ l, f.holds s.1 :=
  fun _ _ _ _ _ hg h f hf => (h f hf).keep hg.2

/-- The others leave the nodes and the slots of a thread alone. -/
theorem stable_has : (guarding ts code invoke ok).Stable t (Has t H l) := by
  intro u hu s s' hi hi' hg h
  refine ⟨h.nodup, fun x hx => ?_, fun x hx => ?_, ?_⟩
  · obtain ⟨howner, hsort⟩ := h.own x hx
    obtain ⟨howner', hso⟩ := hg.2.owner t hu.symm x.1 howner
    exact ⟨howner', hso ▸ hsort⟩
  · obtain ⟨hprev, hheld, hcur⟩ := h.spot x hx
    obtain ⟨hprev', hso⟩ := hg.2.linked x.1 hprev
    have htrusted : s'.2.trusted t = s.2.trusted t := hg.1.trusted t hu.symm
    refine ⟨hprev', ?_, fun a ha => ⟨(hg.2.linked a (hcur a ha).1).1, ?_⟩⟩
    · rw [hso, htrusted]
      exact hheld
    · rw [htrusted]
      exact (hcur a ha).2
  · exact fun f hf => (h.knows f hf).keep hg.2

omit [DecidableEq Addr] in
theorem Hand.Le.refl (H : Hand Addr) : H.Le H := ⟨.refl _, fun _ p hp => ⟨p, hp, .inr rfl⟩⟩

omit [DecidableEq Addr] in
/-- The slots may be given away. -/
theorem Hand.Le.left {M M' : List (Addr × Bool)} {x : Option (Addr × Option Addr)}
    (hM : M'.Sublist M) : Hand.Le ⟨M', none⟩ ⟨M, x⟩ := ⟨hM, fun _ _ h => by cases h⟩

omit [DecidableEq Addr] in
theorem Has.mono {H' : Hand Addr} {l' : List (Fact Addr)} (hh : Has t H l s) (hle : H'.Le H)
    (hl : l' ⊆ l) : Has t H' l' s where
  nodup := (hle.nodes.map Prod.fst).nodup hh.nodup
  own x hx := hh.own x (hle.nodes.subset hx)
  spot := by
    rintro ⟨a, p⟩ hx
    obtain ⟨q, hq, hp⟩ := hle.spot a p hx
    have hstands := hh.spot _ hq
    refine ⟨hstands.linked, hstands.held, fun c hc => hstands.cur c ?_⟩
    rcases hp with rfl | rfl
    · cases hc
    · exact hc
  knows f hf := hh.knows f (hl hf)

omit [DecidableEq Addr] in
/-- A step of the thread keeps what it knew. -/
theorem Has.append {H' : Hand Addr} {l' : List (Fact Addr)} {x : Annotated Addr Key}
    (hh' : Has t H' l' (x, s.2)) (hg : Keeping t s.1 x) (hh : Has t H l s) :
    Has t H' (l' ++ l) (x, s.2) :=
  { hh' with knows := fun f hf =>
      (List.mem_append.mp hf).elim (hh'.knows f) fun hf => (hh.knows f hf).keep hg }

theorem Spec.ret {r : α} (hle : (h r).Le H) (hg : g r ⊆ l) :
    Spec ts code invoke ok t H l (.ret r) h g :=
  fun _ hi hh => Discipline.WP.ret stable_has hi (hh.mono hle hg)

/-- What was known stays known. -/
theorem Spec.bind {p : Shields.Code (Op Addr Key) (Obj Addr) α}
    {f : α → Shields.Code (Op Addr Key) (Obj Addr) γ} {h' : γ → Hand Addr}
    {g' : γ → List (Fact Addr)} (hp : Spec ts code invoke ok t H l p h g)
    (hf : ∀ r, Spec ts code invoke ok t (h r) (g r ++ l) (f r) h' g') :
    Spec ts code invoke ok t H l (p.bind f) h' g' := by
  intro s hi hh
  refine Discipline.WP.bind (((hp s hi hh).frame (persistent_facts l) hh.knows).mono ?_)
  intro r s hi hh'
  refine hf r s hi { hh'.1 with knows := fun x hx => ?_ }
  exact (List.mem_append.mp hx).elim (hh'.1.knows x) (hh'.2 x)

/-- A loop, from what it has and knows in each of its locals. -/
theorem Spec.loop {body : σ → Shields.Code (Op Addr Key) (Obj Addr) (σ ⊕ α)} {st : σ}
    (J : σ → Hand Addr) (I : σ → List (Fact Addr)) (hle : (J st).Le H) (hst : I st ⊆ l)
    (hbody : ∀ st, Spec ts code invoke ok t (J st) (I st ++ l) (body st) (Sum.elim J h)
      (Sum.elim I g)) : Spec ts code invoke ok t H l (iterate body st) h g := by
  intro s hi hh
  refine Discipline.WP.loop (I := fun st => Has t (J st) (I st ++ l)) (fun _ => stable_has) hi
    (hh.mono hle (List.append_subset.mpr ⟨hst, List.Subset.refl l⟩)) fun st s hi hh => ?_
  have hl : ∀ f ∈ l, f.holds s.1 := fun f hf => hh.knows f (List.mem_append_right _ hf)
  refine ((hbody st s hi hh).frame (persistent_facts l) hl).mono fun r s hi hh => ?_
  cases r with
  | inl st =>
    refine { hh.1 with knows := fun f hf => ?_ }
    exact (List.mem_append.mp hf).elim (hh.1.knows f) (hh.2 f)
  | inr r => exact Discipline.WP.ret stable_has hi hh.1

/-- What is known in every state may be used. -/
theorem Spec.assume {p : Shields.Code (Op Addr Key) (Obj Addr) α} {φ : Prop} (hφ : .pure φ ∈ l)
    (hp : φ → Spec ts code invoke ok t H l p h g) : Spec ts code invoke ok t H l p h g :=
  fun s hi hh => hp (hh.knows _ hφ) s hi hh

/-- What follows from what is known. -/
theorem Spec.infer {p : Shields.Code (Op Addr Key) (Obj Addr) α} (l' : List (Fact Addr))
    (hl : ∀ s : Guarded Addr Key, Has t H l s → ∀ f ∈ l', f.holds s.1)
    (hp : Spec ts code invoke ok t H (l' ++ l) p h g) : Spec ts code invoke ok t H l p h g :=
  fun s hi hh => hp s hi
    { hh with knows := fun f hf => (List.mem_append.mp hf).elim (hl s hh f) (hh.knows f) }

/-! ### What a thread may dereference -/

variable (ts) (Key) in
/-- A thread that has `H` and knows `l` may dereference `p`. -/
def Covers (t : Nat) (H : Hand Addr) (l : List (Fact Addr)) (p : Obj Addr) : Prop :=
  ∀ s : Guarded Addr Key, Sound ts s → Has t H l s → s.2.Holds t p

omit [DecidableEq Addr] in
/-- Tables are retired through `retire_table` only. -/
theorem covers_table (u : Nat) : Covers Key ts t H l (.table u) := by
  intro s hi _
  refine .inr fun hsub => ?_
  obtain ⟨a, ha, -⟩ := hi.client.submitted _ hsub
  cases ha

omit [DecidableEq Addr] in
/-- A dummy is never retired. -/
theorem covers_dummy (ha : .sort a false ∈ l) : Covers Key ts t H l (.node a) := by
  intro s hi hh
  refine .inr fun hsub => ?_
  obtain ⟨c, hc, -, hreg, -⟩ := hi.client.submitted _ hsub
  cases hc
  have hdummy : isRegular (s.1.heap.soKey a) = false := (hh.knows _ ha).2
  rw [hdummy] at hreg
  cases hreg

omit [DecidableEq Addr] in
/-- A node that is not linked yet has not been retired. -/
theorem covers_own {r : Bool} (ha : (a, r) ∈ H.nodes) : Covers Key ts t H l (.node a) := by
  intro s hi hh
  refine .inr fun hsub => ?_
  obtain ⟨c, hc, hlinked, -⟩ := hi.client.submitted _ hsub
  cases hc
  have hnone := hlinked.2
  rw [(hh.own _ ha).1] at hnone
  cases hnone

omit [DecidableEq Addr] in
/-- What is in `HP_PREV` is held, or a dummy. -/
theorem covers_prev {p : Option Addr} (hspot : H.spot = some (a, p)) :
    Covers Key ts t H l (.node a) := by
  intro s hi hh
  have hstands := hh.spot _ hspot
  rcases hstands.held with hdummy | hheld
  · have hknown : Has t H [.sort a false] s :=
      { hh with knows := fun f hf => List.mem_singleton.mp hf ▸ ⟨hstands.linked, hdummy⟩ }
    exact covers_dummy List.mem_cons_self s hi hknown
  · exact .inl ⟨_, hheld⟩

omit [DecidableEq Addr] in
/-- What is in `HP_CUR` is held. -/
theorem covers_cur (hspot : H.spot = some (b, some a)) : Covers Key ts t H l (.node a) :=
  fun _ _ hh => .inl ⟨_, ((hh.spot _ hspot).cur a rfl).2⟩

/-! ### Accesses -/

/-- With the access the thread comes to have `H'` and to know `l'`. -/
def Steps (t : Nat) (H : Hand Addr) (l : List (Fact Addr)) (o : Op Addr Key β)
    (H' : β → Hand Addr) (l' : β → List (Fact Addr)) : Prop :=
  ∀ b (s : Guarded Addr Key) r m, Tidy s.1 s.2.submitted → Has t H l s →
    o.apply b s.1.heap = some (r, m) → ∃ owner, Tidy ⟨m, owner⟩ s.2.submitted ∧
      Keeping t s.1 ⟨m, owner⟩ ∧ Has t (H' r) (l' r) (⟨m, owner⟩, s.2)

/-- After the access the program goes on with what it has come to have and to know. -/
theorem Steps.next {o : Op Addr Key β} {k : β → Shields.Code (Op Addr Key) (Obj Addr) α}
    {H' : β → Hand Addr} {l' : β → List (Fact Addr)} (hs : Steps t H l o H' l')
    (hk : ∀ r, Spec ts code invoke ok t (H' r) (l' r ++ l) (k r) h g) (b : Bool)
    (s : Guarded Addr Key) (r : β × Heap Addr Key) (hi : Sound ts s) (hh : Has t H l s)
    (hact : o.apply b s.1.heap = some r) : ∃ x : Annotated Addr Key, x.heap = r.2 ∧
      Tidy x s.2.submitted ∧ Keeping t s.1 x ∧
      (guarding ts code invoke ok).WP t (k r.1) (fun r s => Has t (h r) (g r) s) (x, s.2) := by
  obtain ⟨owner, htidy, hg, hh'⟩ := hs b s r.1 r.2 hi.client hh hact
  exact ⟨⟨r.2, owner⟩, rfl, htidy, hg, hk r.1 _ ⟨hi.slots, htidy⟩ (hh'.append hg hh)⟩

/-- An access of what the thread holds. -/
theorem Spec.act {o : Op Addr Key β} {k : β → Shields.Code (Op Addr Key) (Obj Addr) α}
    {H' : β → Hand Addr} {l' : β → List (Fact Addr)}
    (hp : ∀ p, o.target = some p → Covers Key ts t H l p) (hs : Steps t H l o H' l')
    (hk : ∀ r, Spec ts code invoke ok t (H' r) (l' r ++ l) (k r) h g) :
    Spec ts code invoke ok t H l (.act (o.target.elim (.access o) fun p => .read p o) k) h g := by
  intro s hi hh
  cases htarget : o.target with
  | none => exact Reclaim.Shields.wp_access (e := o) stable_has hi hh (hs.next hk)
  | some p => exact Reclaim.Shields.wp_read (e := o) stable_has hi hh (hp p htarget) (hs.next hk)

/-- An access of what the thread may have given away. -/
theorem Spec.given {o : Op Addr Key β} {k : β → Shields.Code (Op Addr Key) (Obj Addr) α}
    {H' : β → Hand Addr} {l' : β → List (Fact Addr)} (hok : Vouches ts ok)
    (hs : Steps t H l o H' l')
    (hk : ∀ r, Spec ts code invoke ok t (H' r) (l' r ++ l) (k r) h g) :
    Spec ts code invoke ok t H l (.act (o.target.elim (.access o) fun p => .again p o) k) h g := by
  intro s hi hh
  cases htarget : o.target with
  | none => exact Reclaim.Shields.wp_access (e := o) stable_has hi hh (hs.next hk)
  | some p =>
    exact Reclaim.Shields.wp_again (e := o) stable_has hi hh
      (fun s hi _ h => hok.given t p o s hi h) (hs.next hk)

omit [DecidableEq Addr] in
/-- A step that leaves the thread the nodes `M`. -/
theorem Has.step {M : List (Addr × Bool)} {x : Annotated Addr Key} (hh : Has t H l s)
    (hg : Keeping t s.1 x) (hnodup : (M.map Prod.fst).Nodup)
    (hown : ∀ y ∈ M, x.owner y.1 = some t ∧ isRegular (x.heap.soKey y.1) = y.2) :
    Has t { H with nodes := M } l (x, s.2) where
  nodup := hnodup
  own := hown
  spot y hy := by
    obtain ⟨hprev, hheld, hcur⟩ := hh.spot y hy
    obtain ⟨hprev', hso⟩ := hg.linked y.1 hprev
    exact ⟨hprev', hso ▸ hheld, fun a ha => ⟨(hg.linked a (hcur a ha).1).1, (hcur a ha).2⟩⟩
  knows f hf := (hh.knows f hf).keep hg

/-- An access that only reads. -/
theorem steps_look {o : Op Addr Key β} (l' : β → List (Fact Addr))
    (ho : ∀ b m r, o.apply b m = some r → r.2 = m)
    (hl : ∀ b (s : Guarded Addr Key) r, Tidy s.1 s.2.submitted → Has t H l s →
      o.apply b s.1.heap = some (r, s.1.heap) → ∀ f ∈ l' r, f.holds s.1) :
    Steps t H l o (fun _ => H) l' := by
  intro b s r m hi hh hact
  obtain rfl : m = s.1.heap := ho b _ _ hact
  exact ⟨s.1.owner, hi, (linking Addr Key).refl t s.1,
    { hh with knows := hl b s r hi hh hact }⟩

theorem steps_loadSize (u : Nat) :
    Steps t H l (.loadSize u : Op Addr Key _) (fun _ => H) fun r => [.pure (∃ j < 63, r = 2 ^ j)] := by
  refine steps_look _ (fun b m r hr => by cases hr; rfl) fun b s r hi _ hact f hf => ?_
  cases hact
  rw [List.mem_singleton.mp hf]
  exact hi.size u

/-- What is in a cell is a dummy. -/
theorem steps_loadBucket (u i : Nat) :
    Steps t H l (.loadBucket u i : Op Addr Key _) (fun _ => H) fun r => r.toList.map (.sort · false) := by
  refine steps_look _ (fun b m r hr => by cases hr; rfl) fun b s r hi _ hact f hf => ?_
  cases hact
  obtain ⟨d, hd, rfl⟩ := List.mem_map.mp hf
  have hcell : s.1.heap.bucket u i = some d := Option.mem_toList.mp hd
  exact ⟨hi.bucket u i d hcell, hi.dummy u i d hcell⟩

/-- What a next pointer leads to is linked. -/
theorem steps_loadNext (a : Addr) :
    Steps t H l (.loadNext a : Op Addr Key _) (fun _ => H) fun r => r.ptr.toList.map .linked := by
  refine steps_look _ (fun b m r hr => by cases hr; rfl) fun b s r hi _ hact f hf => ?_
  cases hact
  obtain ⟨c, hc, rfl⟩ := List.mem_map.mp hf
  exact hi.next a c (Option.mem_toList.mp hc)

/-- The key tells an element from a dummy. -/
theorem steps_loadSoKey (ha : .linked a ∈ l) :
    Steps t H l (.loadSoKey a : Op Addr Key _) (fun _ => H) fun r => [.sort a (isRegular r)] := by
  refine steps_look _ (fun b m r hr => by cases hr; rfl) fun b s r _ hh hact f hf => ?_
  cases hact
  rw [List.mem_singleton.mp hf]
  exact ⟨hh.knows _ ha, rfl⟩

theorem steps_loadKey (a : Addr) :
    Steps t H l (.loadKey a : Op Addr Key _) (fun _ => H) fun _ => [] :=
  steps_look _ (fun b m r hr => by cases hr; rfl) fun _ _ _ _ _ _ _ hf => by cases hf

omit [DecidableEq Addr] in
/-- The nodes, the buckets and the sizes are those of before. -/
theorem Tidy.calm {s : Annotated Addr Key} {sub : List (Obj Addr)} {m : Heap Addr Key}
    (hi : Tidy s sub) (hc : Calm s.heap m) (hso : m.soKey = s.heap.soKey)
    (hsize : m.size = s.heap.size) (hret : s.heap.retired ⊆ m.retired) : Tidy ⟨m, s.owner⟩ sub ∧ Keeping t s ⟨m, s.owner⟩ := by
  have hg : Guar t s ⟨m, s.owner⟩ := hc.guar
  refine ⟨⟨hc.inv hi.toInv, fun u i d hd => ?_, ?_, fun p hp => ?_⟩,
    fun a ha => ⟨hg.linked a ha, congrFun hso a⟩, fun v _ a ha => ⟨ha, congrFun hso a⟩,
    fun a ha => hret ha⟩
  · rw [hso]
    exact hi.dummy u i d (hc.bucket u i d hd)
  · rw [hsize]
    exact hi.size
  · obtain ⟨a, rfl, ha, hreg, hold⟩ := hi.submitted p hp
    refine ⟨a, rfl, hg.linked a ha, ?_, hret hold⟩
    rw [hso]
    exact hreg

/-- An access that writes to no node and no bucket. -/
theorem steps_calm {o : Op Addr Key β}
    (ho : ∀ b m r, o.apply b m = some r →
      Calm m r.2 ∧ r.2.soKey = m.soKey ∧ r.2.size = m.size ∧ m.retired ⊆ r.2.retired) :
    Steps t H l o (fun _ => H) fun _ => [] := by
  intro b s r m hi hh hact
  obtain ⟨hcalm, hso, hsize, hret⟩ := ho b _ _ hact
  obtain ⟨htidy, hg⟩ := hi.calm (t := t) hcalm hso hsize hret
  refine ⟨s.1.owner, htidy, hg, { hh.step hg hh.nodup fun y hy => ?_ with knows := by simp }⟩
  have hsame : m.soKey y.1 = s.1.heap.soKey y.1 := congrFun hso y.1
  exact ⟨(hh.own y hy).1, hsame ▸ (hh.own y hy).2⟩

theorem steps_addCount : Steps t H l (.addCount : Op Addr Key _) (fun _ => H) fun _ => [] := by
  refine steps_calm fun b m r hr => ?_
  have hcalm := calm_apply rfl hr
  cases hr
  exact ⟨hcalm, rfl, rfl, List.Subset.refl _⟩

theorem steps_subCount : Steps t H l (.subCount : Op Addr Key _) (fun _ => H) fun _ => [] := by
  refine steps_calm fun b m r hr => ?_
  have hcalm := calm_apply rfl hr
  cases hr
  exact ⟨hcalm, rfl, rfl, List.Subset.refl _⟩

/-- The node is among the retired ones from then on. -/
theorem steps_retireNode :
    Steps t H l (.retireNode a : Op Addr Key _) (fun _ => H) fun _ => [.retired a] := by
  have hcalm : Steps t H l (.retireNode a : Op Addr Key _) (fun _ => H) fun _ => [] := by
    refine steps_calm fun b m r hr => ?_
    have hcalm := calm_apply rfl hr
    cases hr
    exact ⟨hcalm, rfl, rfl, List.subset_append_left _ _⟩
  intro b s r m hi hh hact
  obtain ⟨owner, htidy, hg, hh'⟩ := hcalm b s r m hi hh hact
  refine ⟨owner, htidy, hg, { hh' with knows := fun f hf => ?_ }⟩
  cases hact
  rw [List.mem_singleton.mp hf]
  exact List.mem_append_right _ List.mem_cons_self

omit [DecidableEq Addr] in
/-- A pointer to a linked node is written. -/
theorem Tidy.setNext [DecidableEq Addr] {s : Annotated Addr Key} {sub : List (Obj Addr)}
    {v : Link Addr} (hi : Tidy s sub) (hv : ∀ b, v.ptr = some b → s.Linked b)
    (ha : s.Linked a ∨ v.marked = false) : Tidy ⟨s.heap.setNext a v, s.owner⟩ sub :=
  ⟨hi.toInv.setNext hv ha, hi.dummy, hi.size, hi.submitted⟩

/-- The pointer is written, or the access leaves all as it is. -/
theorem steps_setNext {o : Op Addr Key β} {v : Link Addr}
    (ho : ∀ b m r, o.apply b m = some r → r.2 = m ∨ r.2 = m.setNext a v)
    (hv : v.ptr.toList.map .linked ⊆ l) (ha : .linked a ∈ l ∨ v.marked = false) :
    Steps t H l o (fun _ => H) fun _ => [] := by
  intro b s r m hi hh hact
  rcases ho b _ _ hact with rfl | rfl
  · exact ⟨s.1.owner, hi, (linking Addr Key).refl t s.1,
      hh.mono (.refl H) (List.nil_subset l)⟩
  · have hg : Keeping t s.1 ⟨s.1.heap.setNext a v, s.1.owner⟩ :=
      ⟨fun _ h => ⟨h, rfl⟩, fun _ _ _ h => ⟨h, rfl⟩, fun _ h => h⟩
    exact ⟨s.1.owner, hi.setNext
      (fun c hc => hh.knows (.linked c) (hv (by simpa using hc))) (ha.imp_left (hh.knows _)), hg,
      { hh.step hg hh.nodup hh.own with knows := by simp }⟩

theorem steps_storeNext {p : Option Addr} (hp : p.toList.map .linked ⊆ l) :
    Steps t H l (.storeNext a (.plain p) : Op Addr Key _) (fun _ => H) fun _ => [] := by
  refine steps_setNext (a := a) (v := .plain p) (fun b m r hr => ?_) hp (.inr rfl)
  cases hr
  exact .inr rfl

theorem compareExchange_cases {m : Heap Addr Key} {e v : Link Addr} {fails : Bool} :
    (m.compareExchange a e v fails).2 = m ∨
      (m.compareExchange a e v fails).2 = m.setNext a v := by
  simp only [Heap.compareExchange]
  split
  · exact .inr rfl
  · exact .inl rfl

/-- A compare-exchange writes a linked node. -/
theorem steps_casNext {e v : Link Addr} (ha : .linked a ∈ l) (hv : v.ptr.toList.map .linked ⊆ l) :
    Steps t H l (.casNext a e v : Op Addr Key _) (fun _ => H) fun _ => [] := by
  refine steps_setNext (v := v) (fun b m r hr => ?_) hv (.inl ha)
  cases hr
  exact compareExchange_cases

theorem steps_casNextWeak {e v : Link Addr} (ha : .linked a ∈ l)
    (hv : v.ptr.toList.map .linked ⊆ l) :
    Steps t H l (.casNextWeak a e v : Op Addr Key _) (fun _ => H) fun _ => [] := by
  refine steps_setNext (v := v) (fun b m r hr => ?_) hv (.inl ha)
  cases hr
  exact compareExchange_cases

/-- The compare-exchange that links a node of the thread. -/
theorem steps_link {M : List (Addr × Bool)} {n : Addr} {r : Bool} {e : Link Addr}
    {x : Option (Addr × Option Addr)} (he : e.marked = false) (ha : .linked a ∈ l) :
    Steps t ⟨(n, r) :: M, x⟩ l (.casNextWeak a e (.plain (some n)) : Op Addr Key _)
      (fun linked => ⟨if linked then M else (n, r) :: M, x⟩)
      fun linked => if linked then [.sort n r] else [] := by
  intro b s v m hi hh hact
  simp only [Op.apply, Heap.compareExchange] at hact
  split at hact <;> cases hact
  · next hc =>
    obtain ⟨rfl, -⟩ := hc
    obtain ⟨hown, hsort⟩ := hh.own (n, r) List.mem_cons_self
    obtain ⟨hinv, hg, hself⟩ := hi.toInv.link (hh.knows _ ha) he hown
    have hkeep : Keeping t s.1 ⟨s.1.heap.setNext a (.plain (some n)),
        update s.1.owner n none⟩ :=
      ⟨fun c hc => ⟨hg.linked c hc, rfl⟩, fun v hv c hc => ⟨hg.owner v hv c hc, rfl⟩,
        fun _ h => h⟩
    obtain ⟨hnotin, hnodup⟩ := List.nodup_cons.mp hh.nodup
    refine ⟨_, ⟨hinv, hi.dummy, hi.size, fun p hp => ?_⟩, hkeep,
      { hh.step (M := M) hkeep hnodup fun y hy => ?_ with knows := fun f hf => ?_ }⟩
    · obtain ⟨c, rfl, hc, hreg, hret⟩ := hi.submitted p hp
      exact ⟨c, rfl, hg.linked c hc, hreg, hret⟩
    · have hne : y.1 ≠ n := fun h => hnotin (List.mem_map.mpr ⟨y, hy, h⟩)
      obtain ⟨howner, hso⟩ := hh.own y (List.mem_cons_of_mem _ hy)
      exact ⟨by simpa [hne] using howner, hso⟩
    · rw [List.mem_singleton.mp hf]
      exact ⟨hself, hsort⟩
  · exact ⟨s.1.owner, hi, (linking Addr Key).refl t s.1,
      hh.mono (.refl _) (List.nil_subset l)⟩

omit [DecidableEq Addr] in
/-- A node of the thread is not linked. -/
theorem Has.not_linked {y : Addr × Bool} (hh : Has t H l s) (hy : y ∈ H.nodes) :
    ¬ s.1.Linked y.1 := by
  intro hlinked
  have hnone := hlinked.2
  rw [(hh.own y hy).1] at hnone
  cases hnone

/-- The thread writes the key of its node. -/
theorem steps_storeSoKey {M : List (Addr × Bool)} {n : Addr} {r : Bool} {so : Word}
    {x : Option (Addr × Option Addr)} :
    Steps t ⟨(n, r) :: M, x⟩ l (.storeSoKey n so : Op Addr Key _)
      (fun _ => ⟨(n, isRegular so) :: M, x⟩) fun _ => [] := by
  intro b s v m hi hh hact
  have hcalm := calm_apply (o := .storeSoKey n so) rfl hact
  cases hact
  have hne : ∀ c, s.1.Linked c → c ≠ n := fun c hc h =>
    hh.not_linked (List.mem_cons_self (a := (n, r))) (h ▸ hc)
  have hsame : ∀ c, c ≠ n → update s.1.heap.soKey n so c = s.1.heap.soKey c :=
    fun c hc => Function.update_of_ne hc _ _
  have hg : Keeping t s.1 ⟨{ s.1.heap with soKey := update s.1.heap.soKey n so }, s.1.owner⟩ := by
    refine ⟨fun c hc => ⟨hc, hsame c (hne c hc)⟩, fun v hv c hc => ⟨hc, hsame c ?_⟩,
      fun _ h => h⟩
    rintro rfl
    rw [(hh.own (c, r) List.mem_cons_self).1] at hc
    exact hv (Option.some.inj hc).symm
  refine ⟨s.1.owner, ⟨hcalm.inv hi.toInv, fun u i d hd => ?_, hi.size, fun p hp => ?_⟩, hg,
    { hh.step (M := (n, isRegular so) :: M) hg hh.nodup fun y hy => ?_ with knows := by simp }⟩
  · show isRegular (update s.1.heap.soKey n so d) = false
    rw [hsame d (hne d (hi.bucket u i d hd))]
    exact hi.dummy u i d hd
  · obtain ⟨c, rfl, hc, hreg, hret⟩ := hi.submitted p hp
    refine ⟨c, rfl, hc, ?_, hret⟩
    show isRegular (update s.1.heap.soKey n so c) = true
    rw [hsame c (hne c hc)]
    exact hreg
  · rcases List.mem_cons.mp hy with rfl | hy
    · exact ⟨(hh.own (n, r) List.mem_cons_self).1, by simp⟩
    · have hne : y.1 ≠ n := fun h =>
        (List.nodup_cons.mp hh.nodup).1 (List.mem_map.mpr ⟨y, hy, h⟩)
      obtain ⟨howner, hso⟩ := hh.own y (List.mem_cons_of_mem _ hy)
      exact ⟨howner, (congrArg isRegular (hsame y.1 hne)).trans hso⟩

/-- A new node belongs to the thread that made it. -/
theorem Tidy.give {s : Annotated Addr Key} {sub : List (Obj Addr)} {m : Heap Addr Key} {n : Addr}
    (hi : Tidy s sub) (hn : n ∉ s.heap.inUse) (hpick : m.pick = s.heap.pick)
    (hbucket : m.bucket = s.heap.bucket) (hnext : m.next = update s.heap.next n .null)
    (hinUse : m.inUse = insert n s.heap.inUse) (hso : m.soKey = update s.heap.soKey n 0)
    (hsize : m.size = s.heap.size) (hret : m.retired = s.heap.retired) :
    Tidy ⟨m, update s.owner n (some t)⟩ sub ∧
      Keeping t s ⟨m, update s.owner n (some t)⟩ := by
  obtain ⟨hinv, hg⟩ := hi.toInv.give (t := t) hn hpick hbucket hnext hinUse
  have hsame : ∀ c, c ≠ n → m.soKey c = s.heap.soKey c := fun c hc => by
    rw [hso, Function.update_of_ne hc]
  have hlinked : ∀ c, s.Linked c → m.soKey c = s.heap.soKey c := fun c hc =>
    hsame c fun h => hn (h ▸ hc.1)
  refine ⟨⟨hinv, fun u i d hd => ?_, hsize ▸ hi.size, fun p hp => ?_⟩,
    fun c hc => ⟨hg.linked c hc, hlinked c hc⟩, fun v hv c hc => ⟨hg.owner v hv c hc, hsame c ?_⟩,
    fun _ h => hret ▸ h⟩
  · rw [hbucket] at hd
    rw [hlinked d (hi.bucket u i d hd)]
    exact hi.dummy u i d hd
  · obtain ⟨c, rfl, hc, hreg, hold⟩ := hi.submitted p hp
    refine ⟨c, rfl, hg.linked c hc, ?_, hret ▸ hold⟩
    rw [hlinked c hc]
    exact hreg
  · rintro rfl
    rw [hi.unused c hn] at hc
    cases hc

/-- A new block is the thread's own. -/
theorem steps_allocNode :
    Steps t H l (.allocNode : Op Addr Key _) (fun d => { H with nodes := (d, false) :: H.nodes })
      fun _ => [] := by
  intro b s d m hi hh hact
  cases hact
  have hnew := hi.pick s.1.heap.allocs s.1.heap.inUse
  set n := s.1.heap.pick s.1.heap.allocs s.1.heap.inUse
  obtain ⟨htidy, hg⟩ := hi.give (t := t) (m := s.1.heap.alloc.2) hnew rfl rfl rfl rfl rfl rfl rfl
  have hout : ∀ y ∈ H.nodes, y.1 ≠ n := by
    intro y hy heq
    have hnone := hi.unused n hnew
    rw [← heq, (hh.own y hy).1] at hnone
    cases hnone
  have hso : s.1.heap.alloc.2.soKey = update s.1.heap.soKey n 0 := rfl
  refine ⟨_, htidy, hg, { hh.step (M := (n, false) :: H.nodes) hg
    (List.nodup_cons.mpr ⟨fun h => ?_, hh.nodup⟩) fun y hy => ?_ with knows := by simp }⟩
  · obtain ⟨y, hy, heq⟩ := List.mem_map.mp h
    exact hout y hy heq
  · rcases List.mem_cons.mp hy with rfl | hy
    · refine ⟨Function.update_self _ _ _, ?_⟩
      show isRegular (update s.1.heap.soKey n 0 n) = false
      rw [Function.update_self]
      decide
    · obtain ⟨howner, hsort⟩ := hh.own y hy
      refine ⟨by simpa [hout y hy] using howner, ?_⟩
      show isRegular (update s.1.heap.soKey n 0 y.1) = y.2
      rw [Function.update_of_ne (hout y hy)]
      exact hsort

/-- A dummy is written to a bucket. -/
theorem steps_casBucket {u i : Nat} {d : Addr} (hd : .sort d false ∈ l) :
    Steps t H l (.casBucket u i d : Op Addr Key _) (fun _ => H) fun _ => [] := by
  intro b s r m hi hh hact
  obtain ⟨hlinked, hdummy⟩ : s.1.Linked d ∧ isRegular (s.1.heap.soKey d) = false :=
    hh.knows _ hd
  simp only [Op.apply] at hact
  split at hact <;> cases hact
  · obtain ⟨hinv, -⟩ := hi.toInv.setBucket (t := t) (u := u) (i := i) (v := some d)
      fun c hc => Option.some.inj hc ▸ hlinked
    have hg : Keeping t s.1 ⟨s.1.heap.setBucket u i (some d), s.1.owner⟩ :=
      ⟨fun _ h => ⟨h, rfl⟩, fun _ _ _ h => ⟨h, rfl⟩, fun _ h => h⟩
    refine ⟨s.1.owner, ⟨hinv, fun u' i' c hc => ?_, hi.size, hi.submitted⟩, hg,
      { hh.step hg hh.nodup hh.own with knows := by simp }⟩
    simp only [Heap.setBucket, Function.update_apply] at hc
    split at hc
    · rw [Function.update_apply] at hc
      split at hc
      · exact Option.some.inj hc ▸ hdummy
      · exact hi.dummy u i' c hc
    · exact hi.dummy u' i' c hc
  · exact ⟨s.1.owner, hi, (linking Addr Key).refl t s.1,
      hh.mono (.refl H) (List.nil_subset l)⟩

/-! ### Slots -/

/-- A slot that is written holds what another slot of the thread held already. -/
theorem trusted_protect {u : Shields.State (Obj Addr)} {slot slot' : Fin HAZARD_POINTERS}
    {o : Option (Obj Addr)} :
    (u.protect t slot o).trusted t slot' =
      if slot' = slot then (if ∃ i, u.trusted t i = o then o else none) else u.trusted t slot' := by
  simp [Reclaim.Shields.State.protect, Function.update_apply]

/-- A publication: the thread then stands at `x`. -/
theorem Spec.protect {slot : Fin HAZARD_POINTERS} {o : Option (Obj Addr)}
    {k : Unit → Shields.Code (Op Addr Key) (Obj Addr) α} {x : Option (Addr × Option Addr)}
    (hx : ∀ s : Guarded Addr Key, Has t H l s → ∀ y, x = some y →
      Stands t (s.1, s.2.protect t slot o) y.1 y.2)
    (hk : Spec ts code invoke ok t { H with spot := x } l (k ()) h g) :
    Spec ts code invoke ok t H l (.act (.own (.protect slot o)) k) h g := by
  intro s hi hh
  refine Reclaim.Shields.wp_protect stable_has hi hh fun s hh hi => ?_
  exact hk _ hi ⟨hh.nodup, hh.own, hx s hh, hh.knows⟩

/-- What `HP_CUR` holds is published in `HP_PREV`. -/
theorem Spec.handOver {p : Addr} {k : Unit → Shields.Code (Op Addr Key) (Obj Addr) α}
    (hspot : H.spot = some (p, some a))
    (hk : Spec ts code invoke ok t { H with spot := some (a, some a) } l (k ()) h g) :
    Spec ts code invoke ok t H l
      (.act (.own (.protect (Fin.ofNat HAZARD_POINTERS HP_PREV) (some (.node a)))) k) h g := by
  refine .protect (fun s hh y hy => ?_) hk
  cases hy
  obtain ⟨hlinked, hheld⟩ := (hh.spot _ hspot).cur a rfl
  refine ⟨hlinked, .inr ?_, fun c hc => ?_⟩
  · rw [trusted_protect, if_pos rfl, if_pos ⟨_, hheld⟩]
  · cases hc
    refine ⟨hlinked, ?_⟩
    rw [trusted_protect, if_neg (by decide)]
    exact hheld

/-- A dummy is published in `HP_PREV`. -/
theorem Spec.atDummy {k : Unit → Shields.Code (Op Addr Key) (Obj Addr) α} (ha : .sort a false ∈ l)
    (hk : Spec ts code invoke ok t { H with spot := some (a, none) } l (k ()) h g) :
    Spec ts code invoke ok t H l
      (.act (.own (.protect (Fin.ofNat HAZARD_POINTERS HP_PREV) (some (.node a)))) k) h g := by
  refine .protect (fun s hh y hy => ?_) hk
  cases hy
  obtain ⟨hlinked, hdummy⟩ : s.1.Linked a ∧ isRegular (s.1.heap.soKey a) = false := hh.knows _ ha
  exact ⟨hlinked, .inl hdummy, fun c hc => by cases hc⟩

/-- The successor of `src` is published in `HP_CUR` and, if it is still that, trusted. -/
theorem Spec.confirm {src : Addr} {r : Link Addr}
    {k : Bool → Shields.Code (Op Addr Key) (Obj Addr) α} (hok : Vouches ts ok) (ht : t ∈ ts)
    (hspot : H.spot = some (src, none)) (hr : r.ptr.toList.map .linked ⊆ l)
    (hyes : Spec ts code invoke ok t { H with spot := some (src, r.ptr) } l (k true) h g)
    (hno : Spec ts code invoke ok t H l (k false) h g) :
    Spec ts code invoke ok t H l
      (.act (.own (.protect (Fin.ofNat HAZARD_POINTERS HP_CUR) (r.ptr.map .node))) fun _ =>
        .act (.own (.validate (Fin.ofNat HAZARD_POINTERS HP_CUR) (some (.node src))
          (.reloadNext src r))) k) h g := by
  intro s hi hh
  refine Reclaim.Shields.wp_protect stable_has hi hh fun s hh hi => ?_
  have hprev : ∀ o, (s.2.protect t (Fin.ofNat HAZARD_POINTERS HP_CUR) o).trusted t
      (Fin.ofNat HAZARD_POINTERS HP_PREV) = s.2.trusted t (Fin.ofNat HAZARD_POINTERS HP_PREV) :=
    fun o => by rw [trusted_protect, if_neg (by decide)]
  have hh' : Has t H l (s.1, s.2.protect t (Fin.ofNat HAZARD_POINTERS HP_CUR)
      (r.ptr.map .node)) := by
    refine ⟨hh.nodup, hh.own, fun y hy => ?_, hh.knows⟩
    obtain rfl : (src, none) = y := Option.some.inj (hspot.symm.trans hy)
    have hstands := hh.spot _ hspot
    refine ⟨hstands.linked, ?_, fun c hc => by cases hc⟩
    rw [hprev]
    exact hstands.held
  refine Reclaim.Shields.wp_validate (P := fun a => Has t H l a ∧
      a.2.hp t (Fin.ofNat HAZARD_POINTERS HP_CUR) = r.ptr.map .node) ht
    (fun b y v hv => by cases hv; rfl)
    (stable_has.and (Reclaim.Shields.stable_hp _)) hi
    ⟨hh', by simp [Reclaim.Shields.State.protect]⟩
    (fun p hp s hi hh => Option.some.inj hp ▸ covers_prev hspot s hi hh.1)
    (fun b s v hi hh hvouch hact hv p hp => ?_) fun b s v hh _ hi => ?_
  · -- the slot holds what the source still leads to
    cases hact
    obtain ⟨a, hptr, rfl⟩ := Option.map_eq_some_iff.mp (hh.2.symm.trans hp)
    exact hok.confirm t src a r s hi hvouch (of_decide_eq_true hv) hptr hp
  obtain ⟨hh, hhp⟩ := hh
  cases hv : v.1 with
  | false =>
    simp only [hv, Bool.false_eq_true, if_false] at hi ⊢
    exact hno _ hi hh
  | true =>
    simp only [hv, if_true] at hi ⊢
    refine hyes _ hi ⟨hh.nodup, hh.own, fun y hy => ?_, hh.knows⟩
    cases hy
    have hstands := hh.spot _ hspot
    refine ⟨hstands.linked, ?_, fun c hc => ⟨hh.knows (.linked c) (hr (by simpa using hc)), ?_⟩⟩
    · simp only [Reclaim.Shields.State.trust, Function.update_self]
      rw [Function.update_of_ne (by decide)]
      exact hstands.held
    · simp only [Reclaim.Shields.State.trust, Function.update_self]
      rw [hhp]
      have hptr : r.ptr = some c := hc
      rw [hptr]
      rfl

/-- The table is published and, if it is still current, trusted. -/
theorem Spec.confirmTable {u : Nat} {M : List (Addr × Bool)} {x : Option (Addr × Option Addr)}
    {k : Bool → Shields.Code (Op Addr Key) (Obj Addr) α} (ht : t ∈ ts)
    (hk : ∀ v, Spec ts code invoke ok t ⟨M, none⟩ l (k v) h g) :
    Spec ts code invoke ok t ⟨M, x⟩ l
      (.act (.own (.protect (Fin.ofNat HAZARD_POINTERS HP_TABLE) (some (.table u)))) fun _ =>
        .act (.own (.validate (Fin.ofNat HAZARD_POINTERS HP_TABLE) none (.reloadTable u))) k) h g := by
  intro s hi hh
  refine Reclaim.Shields.wp_protect stable_has hi hh fun s hh hi => ?_
  refine Reclaim.Shields.wp_validate (P := fun a => Has t ⟨M, none⟩ l a ∧
      a.2.hp t (Fin.ofNat HAZARD_POINTERS HP_TABLE) = some (.table u)) ht
    (fun b y v hv => by cases hv; rfl) (stable_has.and (Reclaim.Shields.stable_hp _)) hi
    ⟨⟨hh.nodup, hh.own, fun _ h => (by cases h), hh.knows⟩, by simp [Reclaim.Shields.State.protect]⟩
    (fun p hp => by cases hp) (fun b s v hi hh _ _ _ p hp hsub => ?_) fun b s v hh _ hi => ?_
  · -- no table is retired
    obtain ⟨a, rfl, -⟩ := hi.client.submitted p hsub
    cases hh.2.symm.trans hp
  · exact hk v.1 _ hi ⟨hh.1.nodup, hh.1.own, fun _ h => (by cases h), hh.1.knows⟩

/-- An element is retired. -/
theorem Spec.retire {threshold : Nat} {k : Unit → Shields.Code (Op Addr Key) (Obj Addr) α}
    (ha : .sort a true ∈ l) (hret : .retired a ∈ l)
    (hk : Spec ts code invoke ok t ⟨[], none⟩ [] (k ()) h g) :
    Spec ts code invoke ok t H l ((Shields.retire threshold (.node a)).bind k) h g := by
  intro s hi hh
  refine Discipline.WP.bind ((Reclaim.Shields.wp_retire threshold stable_has
    (fun s hi hh => ?_) s hi hh).mono fun _ s hi _ => ?_)
  · refine { hi.client with submitted := fun p hp => ?_ }
    rcases List.mem_append.mp hp with hp | hp
    · exact hi.client.submitted p hp
    · obtain ⟨hlinked, hreg⟩ : s.1.Linked a ∧ isRegular (s.1.heap.soKey a) = true :=
        hh.knows _ ha
      exact ⟨a, List.mem_singleton.mp hp, hlinked, hreg, hh.knows _ hret⟩
  · exact hk s hi ⟨List.nodup_nil, by simp, fun _ h => (by cases h), by simp⟩

/-! ### Code of the engine -/

variable (ts code invoke ok) in
/-- `Spec` for a program whose actions `f` puts under the scheme. -/
abbrev Goes {F : Type → Type}
    (f : {β : Type} → F β → Shields.Code (Op Addr Key) (Obj Addr) β) (t : Nat) (H : Hand Addr)
    (l : List (Fact Addr)) (p : Prog F α) (h : α → Hand Addr) (g : α → List (Fact Addr)) : Prop :=
  Spec ts code invoke ok t H l (p.expand f) h g

variable {F : Type → Type} {f : {β : Type} → F β → Shields.Code (Op Addr Key) (Obj Addr) β}

theorem Goes.bind {p : Prog F α} {q : α → Prog F γ} {h' : γ → Hand Addr}
    {g' : γ → List (Fact Addr)} (hp : Goes ts code invoke ok f t H l p h g)
    (hq : ∀ r, Goes ts code invoke ok f t (h r) (g r ++ l) (q r) h' g') :
    Goes ts code invoke ok f t H l (p.bind q) h' g' := by
  unfold Goes
  rw [Prog.expand_bind]
  exact Spec.bind hp hq

theorem Goes.loop {body : σ → Prog F (σ ⊕ α)} {st : σ} (J : σ → Hand Addr)
    (I : σ → List (Fact Addr)) (hle : (J st).Le H) (hst : I st ⊆ l)
    (hbody : ∀ st, Goes ts code invoke ok f t (J st) (I st ++ l) (body st) (Sum.elim J h)
      (Sum.elim I g)) : Goes ts code invoke ok f t H l (iterate body st) h g :=
  Spec.loop J I hle hst hbody

/-- An access of what the thread holds. -/
theorem Goes.act {o : Op Addr Key β} {e : F β} {k : β → Prog F α} {H' : β → Hand Addr}
    {l' : β → List (Fact Addr)}
    (ho : f e = perform (o.target.elim (.access o) fun p => .read p o))
    (hp : ∀ p, o.target = some p → Covers Key ts t H l p) (hs : Steps t H l o H' l')
    (hk : ∀ r, Goes ts code invoke ok f t (H' r) (l' r ++ l) (k r) h g) :
    Goes ts code invoke ok f t H l (.act e k) h g := by
  show Spec ts code invoke ok t H l ((f e).bind fun r => (k r).expand f) h g
  rw [ho]
  exact Spec.act hp hs hk

/-- An access of what the thread may have given away. -/
theorem Goes.given {o : Op Addr Key β} {e : F β} {k : β → Prog F α} {H' : β → Hand Addr}
    {l' : β → List (Fact Addr)}
    (ho : f e = perform (o.target.elim (.access o) fun p => .again p o)) (hok : Vouches ts ok)
    (hs : Steps t H l o H' l')
    (hk : ∀ r, Goes ts code invoke ok f t (H' r) (l' r ++ l) (k r) h g) :
    Goes ts code invoke ok f t H l (.act e k) h g := by
  show Spec ts code invoke ok t H l ((f e).bind fun r => (k r).expand f) h g
  rw [ho]
  exact Spec.given hok hs hk

/-- The reclaimer's part follows the access of the engine. -/
theorem Goes.retireNode {threshold : Nat} {k : Unit → Code Addr Key α} (ha : .sort a true ∈ l)
    (hk : Goes ts code invoke ok (shielded threshold) t ⟨[], none⟩ [] (k ()) h g) :
    Goes ts code invoke ok (shielded threshold) t H l (.act (.retireNode a) k) h g := by
  exact Spec.act (o := .retireNode a) (fun p hp => by cases hp) steps_retireNode
    fun _ => Spec.retire (by simp [ha]) (by simp) hk

end Rules

end Shielding

end MpmcMap.Unordered
