import MpmcMap.Conc.RelyGuarantee
import MpmcMap.Unordered.Reading
import Mathlib.Data.Finset.Lattice.Fold
import Mathlib.Order.Lattice.Nat

/-!
# The marks of the list

The unordered engine under any number of threads, without reuse of memory. A node that has not been
linked yet is known to the inserting thread alone: every pointer of the list and every bucket leads
to a node that has been linked. So nobody writes to a node but its inserter before it is linked, and
from then on its next pointer changes by compare-exchange only. The one that can take a mark away
is that of a helper, which compares with all that it read from its predecessor, the mark included.
-/

namespace MpmcMap.Unordered

open Conc
open Prog (perform iterate Closed)
open Function (update)

variable {Addr Key : Type} [DecidableEq Addr]

/-- The list under any number of threads; an inserted node is new. -/
def list (C : Config Key) :
    SharedObject (Op Addr Key) (Heap Addr Key) (Request Addr Key) (Answer Addr Key) where
  action _ b o h := o.apply b h
  code := Request.code C
  invoke _ c h :=
    match c with
    | .emplace n _ | .insert n _ => if n ∈ h.inUse then none else some (c.prepare h)
    | .clear => none
    | _ => some h
  respond _ _ _ h := h

/-- No helper finds the MARKED pointer that it expects. -/
def HelpsUnmarked {β : Type} (_ : Nat) (o : Op Addr Key β) (h : Heap Addr Key) : Prop :=
  match o with
  | .casNextWeak prev expected _ => ¬ (expected.marked ∧ h.next prev = expected)
  | _ => True

/-! ## Nodes that are linked -/

/-- The container, and who has the nodes that are not linked yet. -/
structure Annotated (Addr Key : Type) where
  heap : Heap Addr Key
  owner : Addr → Option Nat

/-- The node may be known to all threads. -/
def Annotated.Linked (s : Annotated Addr Key) (a : Addr) : Prop :=
  a ∈ s.heap.inUse ∧ s.owner a = none

/-- Pointers lead to linked nodes, and no other node is marked. -/
structure Inv (s : Annotated Addr Key) : Prop where
  pick : ∀ n F, s.heap.pick n F ∉ F
  unused : ∀ a ∉ s.heap.inUse, s.owner a = none
  unmarked : ∀ a, ¬ s.Linked a → (s.heap.next a).marked = false
  next : ∀ a b, (s.heap.next a).ptr = some b → s.Linked b
  bucket : ∀ t i d, s.heap.bucket t i = some d → s.Linked d

/-- What a step of thread `u` may change. -/
structure Guar (u : Nat) (s s' : Annotated Addr Key) : Prop where
  linked : ∀ a, s.Linked a → s'.Linked a
  owner : ∀ v, v ≠ u → ∀ a, s.owner a = some v → s'.owner a = some v
  marked : ∀ a, (s.heap.next a).marked = true → s'.heap.next a = s.heap.next a

variable (C : Config Key)

/-- The proof obligations of the threads. -/
def marking : Discipline (@list Addr Key _ C) (Annotated Addr Key) where
  erase := Annotated.heap
  inv := Inv
  guar := Guar
  ok := HelpsUnmarked

/-- Thread `t` owns the nodes `M` and knows the nodes `l`. -/
def Has (t : Nat) (M l : List Addr) (s : Annotated Addr Key) : Prop :=
  M.Nodup ∧ (∀ a ∈ M, s.owner a = some t) ∧ ∀ a ∈ l, s.Linked a

/-- From the nodes `M` and `l`, the program comes to own the nodes `m r` and to know `g r`, where
`r` is its result. -/
def Spec {α : Type} (t : Nat) (M l : List Addr) (p : Code Addr Key α) (m g : α → List Addr) : Prop :=
  ∀ s, Inv s → Has t M l s → (marking C).WP t p (fun r s => Has t (m r) (g r) s) s

section Rules

variable {C} {t : Nat} {M l : List Addr} {α β γ σ : Type} {m : α → List Addr} {g : α → List Addr}

/-- A linked node stays linked. -/
theorem persistent_linked (l : List Addr) : (marking C).Persistent fun s => ∀ a ∈ l, s.Linked a :=
  fun _ _ _ _ _ hg h a ha => hg.linked a (h a ha)

/-- The steps of the others take nothing from a thread. -/
theorem stable_has : (marking C).Stable t (Has t M l) := by
  intro u hu s s' hi hi' hg h
  refine ⟨h.1, fun a ha => hg.owner t hu.symm a (h.2.1 a ha), ?_⟩
  exact persistent_linked (C := C) l u s s' hi hi' hg h.2.2

omit [DecidableEq Addr] in
/-- A thread that has something has less, too. -/
theorem Has.mono {M' l' : List Addr} {s : Annotated Addr Key} (h : Has t M l s)
    (hM : M'.Sublist M) (hl : l' ⊆ l) : Has t M' l' s :=
  ⟨hM.nodup h.1, fun a ha => h.2.1 a (hM.subset ha), fun a ha => h.2.2 a (hl ha)⟩

omit [DecidableEq Addr] in
theorem Has.append {l' : List Addr} {s : Annotated Addr Key} (h : Has t M l s)
    (h' : ∀ a ∈ l', s.Linked a) : Has t M (l ++ l') s :=
  ⟨h.1, h.2.1, fun a ha => (List.mem_append.mp ha).elim (h.2.2 a) (h' a)⟩

theorem Spec.ret {r : α} (hm : (m r).Sublist M) (hg : g r ⊆ l) : Spec C t M l (.ret r) m g :=
  fun _ hi h => Discipline.WP.ret stable_has hi (h.mono hm hg)

/-- What was known stays known. -/
theorem Spec.bind {p : Code Addr Key α} {f : α → Code Addr Key γ} {m' g' : γ → List Addr}
    (hp : Spec C t M l p m g) (hf : ∀ r, Spec C t (m r) (g r ++ l) (f r) m' g') :
    Spec C t M l (p.bind f) m' g' := by
  intro s hi h
  refine Discipline.WP.bind (((hp s hi h).frame (persistent_linked l) h.2.2).mono ?_)
  exact fun r s hi h => hf r s hi (h.1.append h.2)

/-- A loop; it knows the nodes `I st` of its locals. -/
theorem Spec.loop {body : σ → Code Addr Key (σ ⊕ α)} {st : σ} (I : σ → List Addr) (hst : I st ⊆ l)
    (hbody : ∀ st, Spec C t M (I st ++ l) (body st) (Sum.elim (fun _ => M) m) (Sum.elim I g)) :
    Spec C t M l (iterate body st) m g := by
  intro s hi h
  refine Discipline.WP.loop (I := fun st => Has t M (I st ++ l)) (fun _ => stable_has) hi
    (h.mono (List.Sublist.refl M) (List.append_subset.mpr ⟨hst, List.Subset.refl l⟩))
    fun st s hi h => ?_
  have hl : ∀ a ∈ l, s.Linked a := fun a ha => h.2.2 a (List.mem_append_right _ ha)
  refine ((hbody st s hi h).frame (persistent_linked l) hl).mono fun r s hi h => ?_
  cases r with
  | inl st => exact h.1.append h.2
  | inr r => exact Discipline.WP.ret stable_has hi h.1

/-- One action. -/
theorem Spec.act {o : Op Addr Key β} {k : β → Code Addr Key α} (M' l' : β → List Addr)
    (hstep : ∀ s b r h', Inv s → Has t M l s → HelpsUnmarked t o s.heap →
      o.apply b s.heap = some (r, h') → ∃ owner, Inv ⟨h', owner⟩ ∧ Guar t s ⟨h', owner⟩ ∧
        Has t (M' r) (l' r) ⟨h', owner⟩)
    (hk : ∀ r, Spec C t (M' r) (l' r ++ l) (k r) m g) : Spec C t M l (.act o k) m g := by
  intro s hi h
  refine Discipline.WP.act stable_has hi h fun s b r h' hi h hok hact => ?_
  obtain ⟨owner, hi', hg, hhas⟩ := hstep s b r h' hi h hok hact
  refine ⟨⟨h', owner⟩, rfl, hi', hg, hk r _ hi' (hhas.append ?_)⟩
  exact persistent_linked (C := C) l t s _ hi hi' hg h.2.2

/-! ### Actions that write no pointer -/

/-- No pointer and no block changes; a new table is empty. -/
structure Calm (h h' : Heap Addr Key) : Prop where
  next : h'.next = h.next
  bucket : ∀ t i d, h'.bucket t i = some d → h.bucket t i = some d
  inUse : h'.inUse = h.inUse
  pick : h'.pick = h.pick

/-- The accesses that write no pointer to a node. -/
def Op.calm {β : Type} : Op Addr Key β → Bool
  | .storeBucket .. | .casBucket .. | .storeNext .. | .casNext .. | .casNextWeak .. | .allocNode
  | .freeNode .. => false
  | _ => true

/-- What such an access changes. -/
theorem calm_apply {o : Op Addr Key β} (ho : o.calm = true) {b : Bool} {h h' : Heap Addr Key} {r : β}
    (hact : o.apply b h = some (r, h')) : Calm h h' := by
  cases o
  case newTable size =>
    cases hact
    refine ⟨rfl, fun t i d hd => ?_, rfl, rfl⟩
    by_cases ht : t = h.tables
    · simp [ht] at hd
    · simpa [ht] using hd
  case casTable expected desired =>
    simp only [Op.apply] at hact
    split at hact <;> cases hact <;> exact ⟨rfl, fun _ _ _ hd => hd, rfl, rfl⟩
  case casGrowing =>
    simp only [Op.apply] at hact
    split at hact <;> cases hact <;> exact ⟨rfl, fun _ _ _ hd => hd, rfl, rfl⟩
  all_goals first
    | (cases hact <;> exact ⟨rfl, fun _ _ _ hd => hd, rfl, rfl⟩)
    | cases ho

omit [DecidableEq Addr] in
/-- Where no pointer changes, the invariant stays. -/
theorem Calm.inv {s : Annotated Addr Key} {h' : Heap Addr Key} (hc : Calm s.heap h') (hi : Inv s) :
    Inv ⟨h', s.owner⟩ := by
  have hlinked : ∀ a, s.Linked a ↔ Annotated.Linked ⟨h', s.owner⟩ a := fun a => by
    simp only [Annotated.Linked, hc.inUse]
  refine ⟨?_, ?_, fun a ha => ?_, fun a b hab => ?_, fun t i d hd => ?_⟩
  · simpa only [hc.pick] using hi.pick
  · simpa only [hc.inUse] using hi.unused
  · rw [hc.next]
    exact hi.unmarked a fun h => ha ((hlinked a).mp h)
  · rw [hc.next] at hab
    exact (hlinked b).mp (hi.next a b hab)
  · exact (hlinked d).mp (hi.bucket t i d (hc.bucket t i d hd))

omit [DecidableEq Addr] in
theorem Calm.guar {s : Annotated Addr Key} {h' : Heap Addr Key} (hc : Calm s.heap h') :
    Guar t s ⟨h', s.owner⟩ :=
  ⟨fun _ ha => ⟨hc.inUse ▸ ha.1, ha.2⟩, fun _ _ _ ha => ha, fun a _ => by rw [hc.next]⟩

/-- An access that writes no pointer and answers the nodes `l' r`. -/
theorem Spec.read {o : Op Addr Key β} {k : β → Code Addr Key α} (l' : β → List Addr)
    (ho : o.calm = true)
    (hl : ∀ s b r h', Inv s → Has t M l s → o.apply b s.heap = some (r, h') →
      ∀ a ∈ l' r, s.Linked a)
    (hk : ∀ r, Spec C t M (l' r ++ l) (k r) m g) : Spec C t M l (.act o k) m g := by
  refine .act (fun _ => M) l' (fun s b r h' hi h _ hact => ?_) hk
  have hcalm := calm_apply ho hact
  refine ⟨s.owner, hcalm.inv hi, hcalm.guar, h.1, h.2.1, fun a ha => ?_⟩
  exact hcalm.guar (t := t).linked a (hl s b r h' hi h hact a ha)

omit [DecidableEq Addr] in
theorem Op.Reads.calm {o : Op Addr Key β} (ho : o.Reads) : o.calm = true := by
  cases o <;> first | rfl | exact ho.elim

/-- An access that writes no pointer. -/
theorem Spec.skip {o : Op Addr Key β} {k : β → Code Addr Key α} (ho : o.calm = true)
    (hk : ∀ r, Spec C t M l (k r) m g) : Spec C t M l (.act o k) m g :=
  .read (fun _ => []) ho (fun _ _ _ _ _ _ _ a ha => by cases ha) hk

/-- What a next pointer leads to is linked. -/
theorem Spec.loadNext {a : Addr} {k : Link Addr → Code Addr Key α}
    (hk : ∀ r, Spec C t M (r.ptr.toList ++ l) (k r) m g) : Spec C t M l (.act (.loadNext a) k) m g := by
  refine .read (fun r => r.ptr.toList) rfl (fun s b r h' hi h hact c hc => ?_) hk
  cases hact
  exact hi.next a c (Option.mem_toList.mp hc)

/-- What is in a cell is linked. -/
theorem Spec.loadBucket {u i : Nat} {k : Option Addr → Code Addr Key α}
    (hk : ∀ r, Spec C t M (r.toList ++ l) (k r) m g) :
    Spec C t M l (.act (.loadBucket u i) k) m g := by
  refine .read (fun r => r.toList) rfl (fun s b r h' hi h hact c hc => ?_) hk
  cases hact
  exact hi.bucket u i c (Option.mem_toList.mp hc)

/-! ### Actions that write a pointer -/

/-- A write to an unmarked pointer keeps the guarantee. -/
theorem setNext_guar {s : Annotated Addr Key} {a : Addr} {v : Link Addr}
    (ha : (s.heap.next a).marked = false) : Guar t s ⟨s.heap.setNext a v, s.owner⟩ := by
  refine ⟨fun _ h => h, fun _ _ _ h => h, fun b hb => Function.update_of_ne ?_ _ _⟩
  rintro rfl
  rw [ha] at hb
  cases hb

/-- Pointers to linked nodes may be written anywhere; only linked nodes may be marked. -/
theorem Inv.setNext {s : Annotated Addr Key} {a : Addr} {v : Link Addr} (hi : Inv s)
    (hv : ∀ b, v.ptr = some b → s.Linked b) (ha : s.Linked a ∨ v.marked = false) :
    Inv ⟨s.heap.setNext a v, s.owner⟩ := by
  refine ⟨hi.pick, hi.unused, fun b hb => ?_, fun b c hbc => ?_, hi.bucket⟩
  · by_cases hba : b = a
    · subst hba
      simpa [Heap.setNext] using ha.resolve_left hb
    · simpa [Heap.setNext, hba] using hi.unmarked b hb
  · by_cases hba : b = a
    · subst hba
      exact hv c (by simpa [Heap.setNext] using hbc)
    · exact hi.next b c (by simpa [Heap.setNext, hba] using hbc)

/-- The inserter writes to its node. -/
theorem Spec.storeNext {a : Addr} {p : Option Addr} {k : Unit → Code Addr Key α} (ha : a ∈ M)
    (hp : p.toList ⊆ l) (hk : Spec C t M l (k ()) m g) :
    Spec C t M l (.act (.storeNext a (.plain p)) k) m g := by
  refine .act (fun _ => M) (fun _ => []) (fun s b r h' hi h _ hact => ?_) fun _ => hk
  cases hact
  have hown : ¬ s.Linked a := fun hl => by
    have hnone := hl.2
    rw [h.2.1 a ha] at hnone
    cases hnone
  refine ⟨s.owner, hi.setNext (fun c hc => ?_) (.inr rfl), setNext_guar (hi.unmarked a hown), h.1,
    h.2.1, fun _ h => by cases h⟩
  exact h.2.2 c (hp (Option.mem_toList.mpr hc))

/-- A compare-exchange, weak or not, that takes no mark away. -/
theorem Spec.compareExchange {o : Op Addr Key Bool} {a : Addr} {e v : Link Addr}
    {k : Bool → Code Addr Key α}
    (ho : ∀ b h, o.apply b h = some (h.compareExchange a e v false) ∨
      o.apply b h = some (h.compareExchange a e v b))
    (hok : ∀ s : Heap Addr Key, HelpsUnmarked t o s → ¬ (e.marked ∧ s.next a = e)) (ha : a ∈ l)
    (hv : v.ptr.toList ⊆ l) (hk : ∀ r, Spec C t M l (k r) m g) : Spec C t M l (.act o k) m g := by
  refine .act (fun _ => M) (fun _ => []) (fun s b r h' hi h hokay hact => ?_) hk
  have hcas : (h' = s.heap) ∨ (s.heap.next a = e ∧ h' = s.heap.setNext a v) := by
    rcases ho b s.heap with h1 | h1 <;> rw [h1] at hact <;>
      simp only [Heap.compareExchange] at hact <;> split at hact <;> cases hact
    · next hc => exact .inr ⟨hc.1, rfl⟩
    · exact .inl rfl
    · next hc => exact .inr ⟨hc.1, rfl⟩
    · exact .inl rfl
  rcases hcas with rfl | ⟨he, rfl⟩
  · exact ⟨s.owner, hi, ⟨fun _ h => h, fun _ _ _ h => h, fun _ _ => rfl⟩, h.1, h.2.1,
      fun _ h => by cases h⟩
  · refine ⟨s.owner, hi.setNext (fun c hc => ?_) (.inl (h.2.2 a ha)), setNext_guar ?_, h.1,
      h.2.1, fun _ h => by cases h⟩
    · exact h.2.2 c (hv (Option.mem_toList.mpr hc))
    · rw [Bool.eq_false_iff]
      intro hm
      exact hok s.heap hokay ⟨he ▸ hm, he⟩

/-- A helper writes to a linked node. -/
theorem Spec.casNextWeak {a : Addr} {e v : Link Addr} {k : Bool → Code Addr Key α} (ha : a ∈ l)
    (hv : v.ptr.toList ⊆ l) (hk : ∀ r, Spec C t M l (k r) m g) :
    Spec C t M l (.act (.casNextWeak a e v) k) m g :=
  .compareExchange (fun _ _ => .inr rfl) (fun _ h => h) ha hv hk

/-- An exchange that expects an unmarked pointer keeps the marks. -/
theorem Spec.casNext {a : Addr} {e v : Link Addr} {k : Bool → Code Addr Key α}
    (he : e.marked = false) (ha : a ∈ l) (hv : v.ptr.toList ⊆ l)
    (hk : ∀ r, Spec C t M l (k r) m g) : Spec C t M l (.act (.casNext a e v) k) m g :=
  .compareExchange (fun _ _ => .inl rfl) (fun _ _ h => by simp [he] at h) ha hv hk

/-- A node of the thread is linked behind `a`. -/
theorem Inv.link {s : Annotated Addr Key} {a n : Addr} (hi : Inv s) (ha : s.Linked a)
    (hm : (s.heap.next a).marked = false) (hn : s.owner n = some t) :
    Inv ⟨s.heap.setNext a (.plain (some n)), update s.owner n none⟩ ∧
      Guar t s ⟨s.heap.setNext a (.plain (some n)), update s.owner n none⟩ ∧
      Annotated.Linked ⟨s.heap.setNext a (.plain (some n)), update s.owner n none⟩ n := by
  -- `n` is still owned by its inserter, so it is not linked yet
  have hne : ∀ b, s.Linked b → b ≠ n := by
    rintro b hb rfl
    rw [hb.2] at hn
    cases hn
  have hlinked : ∀ b, s.Linked b →
      Annotated.Linked ⟨s.heap.setNext a (.plain (some n)), update s.owner n none⟩ b :=
    fun b hb => ⟨hb.1, by simpa [hne b hb] using hb.2⟩
  have hnIn : n ∈ s.heap.inUse := by
    by_contra hout
    rw [hi.unused n hout] at hn
    cases hn
  have hself : Annotated.Linked ⟨s.heap.setNext a (.plain (some n)), update s.owner n none⟩ n :=
    ⟨hnIn, by simp⟩
  refine ⟨⟨hi.pick, fun b hb => ?_, fun b hb => ?_, fun b c hbc => ?_,
    fun u i d hd => hlinked d (hi.bucket u i d hd)⟩, ⟨hlinked, fun v hv b hb => ?_,
    fun b hb => ?_⟩, hself⟩
  · show update s.owner n none b = none
    by_cases hbn : b = n
    · simp [hbn]
    · simpa [hbn] using hi.unused b hb
  · have hba : b ≠ a := by
      rintro rfl
      exact hb (hlinked b ha)
    simpa [Heap.setNext, hba] using hi.unmarked b fun h => hb (hlinked b h)
  · by_cases hba : b = a
    · subst hba
      obtain rfl : n = c := by simpa [Heap.setNext, Link.plain] using hbc
      exact hself
    · exact hlinked c (hi.next b c (by simpa [Heap.setNext, hba] using hbc))
  · have hbn : b ≠ n := by
      rintro rfl
      rw [hn] at hb
      exact hv (Option.some.inj hb).symm
    simpa [hbn] using hb
  · apply Function.update_of_ne
    rintro rfl
    rw [hm] at hb
    cases hb

/-- The compare-exchange that links a node of the thread. -/
theorem Spec.link {a n : Addr} {e : Link Addr} {k : Bool → Code Addr Key α}
    (he : e.marked = false) (ha : a ∈ l) (hyes : Spec C t M (n :: l) (k true) m g)
    (hno : Spec C t (n :: M) l (k false) m g) :
    Spec C t (n :: M) l (.act (.casNextWeak a e (.plain (some n))) k) m g := by
  refine .act (fun r => if r then M else n :: M) (fun r => if r then [n] else [])
    (fun s b r h' hi h _ hact => ?_) fun r => by cases r <;> assumption
  obtain ⟨hnd, hown, hl⟩ := h
  simp only [Op.apply, Heap.compareExchange] at hact
  split at hact <;> cases hact
  · next hc =>
    obtain ⟨rfl, -⟩ := hc
    obtain ⟨hi', hg, hself⟩ := hi.link (hl a ha) he (hown n List.mem_cons_self)
    refine ⟨update s.owner n none, hi', hg, (List.nodup_cons.mp hnd).2, fun b hb => ?_,
      fun b hb => ?_⟩
    · have hbn : b ≠ n := by
        rintro rfl
        exact (List.nodup_cons.mp hnd).1 hb
      simpa [hbn] using hown b (List.mem_cons_of_mem n hb)
    · obtain rfl := List.mem_singleton.mp hb
      exact hself
  · exact ⟨s.owner, hi, ⟨fun _ h => h, fun _ _ _ h => h, fun _ _ => rfl⟩, hnd, hown,
      fun _ h => by cases h⟩

/-- A new node belongs to the thread that made it. -/
theorem Inv.give {s : Annotated Addr Key} {g : Heap Addr Key} {n : Addr} (hi : Inv s)
    (hn : n ∉ s.heap.inUse) (hpick : g.pick = s.heap.pick) (hbucket : g.bucket = s.heap.bucket)
    (hnext : g.next = update s.heap.next n .null) (hinUse : g.inUse = insert n s.heap.inUse) :
    Inv ⟨g, update s.owner n (some t)⟩ ∧ Guar t s ⟨g, update s.owner n (some t)⟩ := by
  have hlinked : ∀ b, s.Linked b → Annotated.Linked ⟨g, update s.owner n (some t)⟩ b := by
    intro b hb
    have hbn : b ≠ n := by
      rintro rfl
      exact hn hb.1
    exact ⟨by simp [hinUse, hb.1], by simpa [hbn] using hb.2⟩
  refine ⟨⟨?_, fun b hb => ?_, fun b hb => ?_, fun b c hbc => ?_, fun u i d hd => ?_⟩, hlinked,
    fun v hv b hb => ?_, fun b hb => ?_⟩
  · simpa only [hpick] using hi.pick
  · obtain ⟨hbn, hb⟩ : b ≠ n ∧ b ∉ s.heap.inUse := by simpa [hinUse] using hb
    simpa [hbn] using hi.unused b hb
  · by_cases hbn : b = n
    · subst hbn
      simp [hnext, Link.null]
    · simpa [hnext, hbn] using hi.unmarked b fun h => hb (hlinked b h)
  · by_cases hbn : b = n
    · subst hbn
      simp [hnext, Link.null] at hbc
    · exact hlinked c (hi.next b c (by simpa [hnext, hbn] using hbc))
  · exact hlinked d (hi.bucket u i d (hbucket ▸ hd))
  · have hbn : b ≠ n := by
      rintro rfl
      rw [hi.unused b hn] at hb
      cases hb
    simpa [hbn] using hb
  · have hbn : b ≠ n := by
      rintro rfl
      rw [hi.unmarked b fun h => hn h.1] at hb
      cases hb
    simp [hnext, hbn]

/-- A new block is the thread's own. -/
theorem Spec.allocNode {k : Addr → Code Addr Key α} (hk : ∀ d, Spec C t (d :: M) l (k d) m g) :
    Spec C t M l (.act .allocNode k) m g := by
  refine .act (fun d => d :: M) (fun _ => []) (fun s b d g hi h _ hact => ?_) hk
  cases hact
  have hnew := hi.pick s.heap.allocs s.heap.inUse
  set n := s.heap.pick s.heap.allocs s.heap.inUse
  obtain ⟨hi', hg⟩ := hi.give (t := t) (g := s.heap.alloc.2) hnew rfl rfl rfl rfl
  have hout : n ∉ M := by
    intro hn
    have hnone := hi.unused n hnew
    rw [h.2.1 n hn] at hnone
    cases hnone
  refine ⟨_, hi', hg, List.nodup_cons.mpr ⟨hout, h.1⟩, fun a ha => ?_, fun _ h => by cases h⟩
  rcases List.mem_cons.mp ha with rfl | ha
  · exact Function.update_self _ _ _
  · have hne : a ≠ n := fun he => hout (he ▸ ha)
    simpa [hne] using h.2.1 a ha

omit [DecidableEq Addr] in
/-- A linked node is written to a bucket. -/
theorem Inv.setBucket {s : Annotated Addr Key} {u i : Nat} {v : Option Addr} (hi : Inv s)
    (hv : ∀ d, v = some d → s.Linked d) :
    Inv ⟨s.heap.setBucket u i v, s.owner⟩ ∧ Guar t s ⟨s.heap.setBucket u i v, s.owner⟩ := by
  refine ⟨⟨hi.pick, hi.unused, hi.unmarked, hi.next, fun u' i' d hd => ?_⟩, fun _ h => h,
    fun _ _ _ h => h, fun _ _ => rfl⟩
  simp only [Heap.setBucket, Function.update_apply] at hd
  split at hd
  · rw [Function.update_apply] at hd
    split at hd
    · exact hv d hd
    · exact hi.bucket u i' d hd
  · exact hi.bucket u' i' d hd

/-- A cell is given nodes that are linked. -/
theorem Spec.storeBucket {u i : Nat} {v : Option Addr} {k : Unit → Code Addr Key α}
    (hv : v.toList ⊆ l) (hk : Spec C t M l (k ()) m g) :
    Spec C t M l (.act (.storeBucket u i v) k) m g := by
  refine .act (fun _ => M) (fun _ => []) (fun s b r g hi h _ hact => ?_) fun _ => hk
  cases hact
  obtain ⟨hi', hg⟩ := hi.setBucket (t := t) (u := u) (i := i) (v := v)
    fun d hd => h.2.2 d (hv (Option.mem_toList.mpr hd))
  exact ⟨s.owner, hi', hg, h.1, h.2.1, fun _ h => by cases h⟩

/-- A cell is given a node that is linked, or stays as it is. -/
theorem Spec.casBucket {u i : Nat} {d : Addr} {k : Bool → Code Addr Key α} (hd : d ∈ l)
    (hk : ∀ r, Spec C t M l (k r) m g) : Spec C t M l (.act (.casBucket u i d) k) m g := by
  refine .act (fun _ => M) (fun _ => []) (fun s b r g hi h _ hact => ?_) hk
  simp only [Op.apply] at hact
  split at hact <;> cases hact
  · obtain ⟨hi', hg⟩ := hi.setBucket (t := t) (u := u) (i := i) (v := some d)
      fun c hc => h.2.2 c (Option.some.inj hc ▸ hd)
    exact ⟨s.owner, hi', hg, h.1, h.2.1, fun _ h => by cases h⟩
  · exact ⟨s.owner, hi, ⟨fun _ h => h, fun _ _ _ h => h, fun _ _ => rfl⟩, h.1, h.2.1,
      fun _ h => by cases h⟩

end Rules

/-! ## The code -/

section Operations

variable {C} {t : Nat} {M l : List Addr} {α : Type}

/-- The nodes of a walk's place. -/
def Place.nodes (place : Place Addr) : List Addr :=
  place.1 :: (place.2.1.toList ++ place.2.2.ptr.toList)

/-- The program comes to know the nodes `g r`; it links none of the thread's own. -/
abbrev Finds (C : Config Key) (t : Nat) (M l : List Addr) (p : Code Addr Key α)
    (g : α → List Addr) : Prop :=
  Spec C t M l p (fun _ => M) g

/-- The program may run. -/
abbrev Runs (C : Config Key) (t : Nat) (M l : List Addr) (p : Code Addr Key α) : Prop :=
  Finds C t M l p fun _ => []

/-- A loop that links nothing and finds nothing out. -/
theorem runs_loop {σ : Type} {body : σ → Code Addr Key (σ ⊕ α)} (h : ∀ st, Runs C t M l (body st))
    (st : σ) : Runs C t M l (iterate body st) := by
  refine Spec.loop (fun _ => []) (by simp) fun st => ?_
  rw [Sum.elim_lam_const_lam_const, Sum.elim_lam_const_lam_const]
  exact h st

/-- What only reads may run. -/
theorem closed_runs : Closed (fun {β} (o : Op Addr Key β) => o.Reads) fun _ p => Runs C t M l p where
  ret _ := .ret (.refl M) (List.nil_subset l)
  act ho hk := .skip ho.calm hk
  bind hp hf := hp.bind hf

theorem runs_publish (slot : Nat) (a : Addr) : Runs C t M l (publish C slot a) :=
  Reading.publish closed_runs slot a

/-- The node that is published is linked. -/
theorem finds_protectFrom (src : Addr) (slot : Nat) :
    Finds C t M l (protectFrom C src slot) fun r => r.1.toList ++ r.2.ptr.toList := by
  unfold protectFrom
  split
  · refine .loop (fun _ => []) (by simp) fun _ => ?_
    refine .loadNext fun r => .skip rfl fun _ => .skip rfl fun b => ?_
    rw [Prog.ret_bind]
    split
    · exact .ret (.refl M) (by simp)
    · exact .ret (.refl M) (by simp)
  · exact .loadNext fun r => .ret (.refl M) (by simp)

theorem runs_loadTable : Runs C t M l (loadTable C) :=
  Reading.loadTable closed_runs fun _ hbody => runs_loop hbody ()

theorem finds_follow {prev : Addr} (hprev : prev ∈ l) :
    Finds C t M l (follow C prev) Place.nodes := by
  refine (finds_protectFrom prev HP_CUR).bind fun r => .ret (.refl M) ?_
  simp [Place.nodes, hprev]

/-- An iteration that helps comes back to the successor of the predecessor. -/
theorem finds_help {prev : Addr} {tagged rawNext : Link Addr} (hprev : prev ∈ l)
    (hnext : rawNext.ptr.toList ⊆ l) : Finds C t M l (help C prev tagged rawNext) Place.nodes :=
  .casNextWeak hprev hnext fun _ => finds_follow hprev

theorem finds_advance {cur : Addr} (hcur : cur ∈ l) :
    Finds C t M l (advance C cur) Place.nodes :=
  (runs_publish HP_PREV cur).bind fun _ => finds_follow (by simpa using hcur)

/-- A step over `cur`: it is helped away if it is marked, and else becomes the predecessor. -/
theorem finds_pass {prev cur : Addr} {tagged : Link Addr} (hprev : prev ∈ l) (hcur : cur ∈ l) :
    Finds C t M l (pass C prev cur tagged) Place.nodes := by
  refine .loadNext fun rawNext => ?_
  rw [Prog.ret_bind]
  split
  · exact finds_help (by simp [hprev]) (by simp)
  · exact finds_advance (by simp [hcur])

/-- A walk from a linked node comes to linked nodes. -/
theorem finds_walk {d : Addr} (hd : d ∈ l) (cmpKey : Word) :
    Finds C t M l (walk C d cmpKey) Place.nodes := by
  refine (runs_publish HP_PREV d).bind fun _ => ?_
  refine (finds_follow (by simpa using hd)).bind fun place => ?_
  refine .loop Place.nodes (by simp) fun place => ?_
  obtain ⟨prev, cur, tagged⟩ := place
  cases cur with
  | none => exact .ret (.refl M) (by simp)
  | some cur =>
    refine .skip rfl fun so => ?_
    rw [Prog.ret_bind]
    split
    · exact .ret (.refl M) (by simp)
    · refine (finds_pass (by simp [Place.nodes]) (by simp [Place.nodes])).bind fun place => ?_
      exact .ret (.refl M) (by simp)

/-- A node of the thread is linked. -/
theorem links_insertFrom {start n : Addr} (hstart : start ∈ l) :
    Spec C t (n :: M) l (insertFrom C start n) (fun _ => M) fun _ => [n] := by
  refine .skip rfl fun so => ?_
  rw [Prog.ret_bind]
  refine .loop (fun _ => []) (by simp) fun _ => ?_
  refine (finds_walk (by simp [hstart]) so).bind fun place => ?_
  obtain ⟨prev, cur, tagged⟩ := place
  refine .storeNext List.mem_cons_self (by simp [Place.nodes]) ?_
  rw [Prog.ret_bind]
  split
  · exact .ret (.refl _) (by simp)
  · next hm =>
    refine .link (by simpa using hm) (by simp [Place.nodes]) ?_ ?_
    · exact .ret (.refl _) (by simp)
    · exact .ret (.refl _) (by simp)

/-- The parent's dummy comes first, then the own one is linked behind it. -/
theorem runs_initializeBucketAt (u depth i : Nat) :
    Runs C t M l (initializeBucketAt C u depth i) := by
  induction depth generalizing i l with
  | zero => exact .ret (.refl M) (by simp)
  | succ depth ih =>
    refine .loadBucket fun r => ?_
    rw [Prog.ret_bind]
    split
    · exact .ret (.refl M) (by simp)
    · split
      -- first the bucket of the parent where `i` has one, then that of `i`
      case' isTrue => refine (ih (parentBucket i)).bind fun _ => ?_
      all_goals
        refine .allocNode fun d => .skip rfl fun _ => .loadBucket fun r => ?_
        cases r with
        | none => exact .skip rfl fun _ => .ret (List.sublist_cons_self d M) (by simp)
        | some start =>
          refine (links_insertFrom (by simp)).bind fun _ => ?_
          exact .casBucket (by simp) fun _ => .ret (.refl M) (by simp)

/-- Where a key belongs is between linked nodes. -/
theorem finds_locate (mixed cmpKey : Word) :
    Finds C t M l (locate C mixed cmpKey) fun r => r.1 :: r.2.toList := by
  refine .loop (fun _ => []) (by simp) fun _ => ?_
  refine runs_loadTable.bind fun u => .skip rfl fun sz => .loadBucket fun r => ?_
  cases r with
  | none => exact (runs_initializeBucketAt u _ _).bind fun _ => .ret (.refl M) (by simp)
  | some d =>
    refine (finds_walk (by simp) cmpKey).bind fun place => ?_
    exact .ret (.refl M) (by simp [Place.nodes])

/-! ### Runs of equal split-order keys -/

/-- A scan answers with a pair of linked nodes. -/
theorem finds_scanRun (sk : Word) (k : Key) {prev cur : Addr} (hprev : prev ∈ l) (hcur : cur ∈ l) :
    Finds C t M l (scanRun C sk k prev cur) fun r => r.toList.flatMap fun p => [p.1, p.2] := by
  refine .loop Place.nodes (by simp [Place.nodes, Link.null, hprev, hcur]) fun place => ?_
  obtain ⟨rprev, rcur, tagged⟩ := place
  cases rcur with
  | none => exact .ret (.refl M) (by simp)
  | some rcur =>
    refine .skip rfl fun so => ?_
    rw [Prog.ret_bind]
    split
    · exact .ret (.refl M) (by simp)
    · refine .loadNext fun rnx => ?_
      rw [Prog.ret_bind]
      split
      · refine (finds_help (by simp [Place.nodes]) (by simp)).bind fun place => ?_
        exact .ret (.refl M) (by simp)
      · refine .skip rfl fun k' => ?_
        rw [Prog.ret_bind]
        split
        · exact .ret (.refl M) (by simp [Place.nodes])
        · refine (finds_advance (by simp [Place.nodes])).bind fun place => ?_
          exact .ret (.refl M) (by simp)

theorem runs_headMatches (k : Key) (cur : Addr) (fnx : Link Addr) :
    Runs C t M l (headMatches C k cur fnx) :=
  Reading.headMatches closed_runs k cur fnx

theorem runs_inRun (sk : Word) (k : Key) {prev : Addr} {cur : Option Addr} (hprev : prev ∈ l)
    (hcur : cur.toList ⊆ l) : Runs C t M l (inRun C sk k prev cur) := by
  cases cur with
  | none => exact .ret (.refl M) (by simp)
  | some cur =>
    refine .skip rfl fun so => ?_
    rw [Prog.ret_bind]
    split
    · refine .loadNext fun fnx => (runs_headMatches k cur fnx).bind fun b => ?_
      split
      · exact .ret (.refl M) (by simp)
      · refine (finds_scanRun sk k (by simp [hprev]) ?_).bind fun r => .ret (.refl M) (by simp)
        simp [hcur (Option.mem_toList.mpr rfl)]
    · exact .ret (.refl M) (by simp)

/-! ### The calls -/

/-- The node that an insertion brings is linked by it or given up. -/
theorem runs_insertNode (n : Addr) (mixed sk : Word) (k : Key) :
    Spec C t [n] l (insertNode C n mixed sk k) (fun _ => []) fun _ => [] := by
  refine .skip rfl fun _ => ?_
  rw [Prog.ret_bind]
  refine .loop (fun _ => []) (by simp) fun _ => ?_
  refine (finds_locate mixed sk).bind fun place => ?_
  obtain ⟨prev, cur⟩ := place
  refine (runs_inRun sk k (by simp) (by simp)).bind fun dup => ?_
  split
  · exact .ret (List.nil_sublist _) (by simp)
  · refine .storeNext (by simp) (by simp) (.loadNext fun e => ?_)
    rw [Prog.ret_bind]
    split
    · exact .ret (.refl _) (by simp)
    · next hm =>
      split
      · refine .link (by simpa using hm) (by simp) ?_ ?_
        · exact .skip rfl fun _ => .ret (.refl _) (by simp)
        · exact .ret (.refl _) (by simp)
      · exact .ret (.refl _) (by simp)

theorem runs_findNode (k : Key) (mixed sk : Word) : Runs C t M l (findNode C k mixed sk) := by
  refine (finds_locate mixed sk).bind fun place => ?_
  obtain ⟨prev, cur⟩ := place
  cases cur with
  | none => exact .ret (.refl M) (by simp)
  | some cur =>
    refine .skip rfl fun so => ?_
    rw [Prog.ret_bind]
    split
    · exact .ret (.refl M) (by simp)
    · refine .loadNext fun rnx => (runs_headMatches k cur rnx).bind fun b => ?_
      split
      · exact .ret (.refl M) (by simp)
      · exact (finds_scanRun sk k (by simp) (by simp)).bind fun r => .ret (.refl M) (by simp)

/-- The second path looks for the predecessor of an erased node. -/
theorem runs_relocate (target : Addr) (mixed sk : Word) :
    Runs C t M l (relocate C target mixed sk) := by
  refine .loop (fun _ => []) (by simp) fun _ => ?_
  refine (finds_locate mixed sk).bind fun place => ?_
  obtain ⟨p, c⟩ := place
  have hscan : Finds C t M (p :: c.toList ++ ([] ++ l)) (iterate (pointerStep C target sk) (p, c))
      Option.toList := by
    refine .loop (fun st => st.1 :: st.2.toList) (by simp) fun st => ?_
    obtain ⟨rp, rc⟩ := st
    cases rc with
    | none => exact .ret (.refl M) (by simp)
    | some rc =>
      refine .skip rfl fun so => ?_
      rw [Prog.ret_bind]
      split
      · exact .ret (.refl M) (by simp)
      · split
        · exact .ret (.refl M) (by simp)
        · refine (finds_advance (by simp)).bind fun place => ?_
          exact .ret (.refl M) (by simp [Place.nodes])
  refine hscan.bind fun r => ?_
  cases r with
  | none => exact .ret (.refl M) (by simp)
  | some rp =>
    refine .loadNext fun repl => .casNextWeak (by simp) (by simp [Link.clearMark]) fun b => ?_
    rw [Prog.ret_bind]
    split
    · exact .ret (.refl M) (by simp)
    · exact .ret (.refl M) (by simp)

/-- An erased node is unlinked at the first attempt, or on the second path, and retired. -/
theorem runs_finishErase {prev : Addr} (hprev : prev ∈ l) (cur : Addr) (mixed sk : Word) :
    Runs C t M l (finishErase C prev cur mixed sk) := by
  have hunlink : Runs C t M l (unlinkMarked C prev cur mixed sk) := by
    refine .loadNext fun tnext => ?_
    refine .casNext rfl (by simp [hprev]) (by simp [Link.clearMark]) fun b => ?_
    rw [Prog.ret_bind]
    split
    · exact .ret (.refl M) (by simp)
    · exact runs_relocate cur mixed sk
  exact hunlink.bind fun _ => .skip rfl fun _ => .skip rfl fun _ => .ret (.refl M) (by simp)

/-- An erasure marks the head of the run or a node behind it, and then takes it out. -/
theorem runs_eraseNode (k : Key) (mixed sk : Word) : Runs C t M l (eraseNode C k mixed sk) := by
  refine .loop (fun _ => []) (by simp) fun _ => ?_
  refine (finds_locate mixed sk).bind fun place => ?_
  obtain ⟨prev, cur⟩ := place
  cases cur with
  | none => exact .ret (.refl M) (by simp)
  | some cur =>
    refine .skip rfl fun so => ?_
    rw [Prog.ret_bind]
    split
    · exact .ret (.refl M) (by simp)
    have hmark : Runs C t M (prev :: (some cur).toList ++ ([] ++ l)) (markHead C k cur) := by
      refine .loadNext fun fnx => ?_
      unfold headMatches
      rw [Prog.ret_bind]
      split
      · exact .ret (.refl M) (by simp)
      · next hm =>
        refine .skip rfl fun k' => ?_
        simp only [Prog.pure_eq, Prog.ret_bind]
        split
        · refine .casNext (by simpa using hm) (by simp) (by simp [Link.setMarked]) fun b => ?_
          exact .ret (.refl M) (by simp)
        · exact .ret (.refl M) (by simp)
    refine hmark.bind fun b => ?_
    split
    · exact (runs_finishErase (by simp) _ mixed sk).bind fun _ => .ret (.refl M) (by simp)
    · refine (finds_scanRun sk k (by simp) (by simp)).bind fun r => ?_
      cases r with
      | none => exact .ret (.refl M) (by simp)
      | some p =>
        obtain ⟨rprev, rcur⟩ := p
        refine .loadNext fun tnext => ?_
        rw [Prog.ret_bind]
        split
        · exact .ret (.refl M) (by simp)
        · next hm =>
          refine .casNext (by simpa using hm) (by simp) (by simp [Link.setMarked]) fun b => ?_
          rw [Prog.ret_bind]
          split
          · refine (runs_finishErase (by simp) _ mixed sk).bind fun _ => ?_
            exact .ret (.refl M) (by simp)
          · exact .ret (.refl M) (by simp)

/-! ### Growth and iteration -/

theorem runs_roomyUnless (force : Bool) (u : Nat) :
    Runs C t M l (if force then return false else isRoomy u) :=
  Reading.roomyUnless closed_runs force u

/-- A growth copies cells of the published table. -/
theorem runs_growOnce (force : Bool) : Runs C t M l (growOnce C force) := by
  refine .skip rfl fun b => ?_
  rw [Prog.ret_bind]
  split
  · refine Spec.bind (m := fun _ => M) (g := fun _ => []) (.loop (fun _ => []) (by simp) fun _ => ?_)
      fun _ => .skip rfl fun _ => .ret (.refl M) (by simp)
    refine runs_loadTable.bind fun u => .skip rfl fun sz => ?_
    refine (runs_roomyUnless force u).bind fun roomy => ?_
    split
    · exact .ret (.refl M) (by simp)
    · split
      · exact .ret (.refl M) (by simp)
      · refine .skip rfl fun nt => ?_
        have hcopy : ∀ l, Runs C t M l (copyCells u nt sz : Code Addr Key Unit) := by
          intro l
          refine .loop (fun _ => []) (by simp) fun i => ?_
          simp only [Prog.bind_eq, Prog.pure_eq]
          split
          · exact .loadBucket fun d => .storeBucket (by simp) (.ret (.refl M) (by simp))
          · exact .ret (.refl M) (by simp)
        refine (hcopy _).bind fun _ => .skip rfl fun b => ?_
        rw [Prog.ret_bind]
        split
        · exact .skip rfl fun _ => .ret (.refl M) (by simp)
        · exact .skip rfl fun _ => .ret (.refl M) (by simp)
  · exact .ret (.refl M) (by simp)

theorem runs_maybeGrow : Runs C t M l (maybeGrow C) :=
  Reading.maybeGrow closed_runs (runs_growOnce false)

theorem runs_describe (a : Addr) : Runs C t M l (describe a : Code Addr Key (NodeInfo Key)) :=
  Reading.describe closed_runs a

theorem runs_firstNode : Runs C t M l (firstNode C) := by
  refine runs_loadTable.bind fun u => .loadBucket fun r => ?_
  cases r with
  | none => exact .ret (.refl M) (by simp)
  | some d =>
    refine (runs_publish HP_PREV d).bind fun _ => (finds_follow (by simp)).bind fun place => ?_
    refine .loop Place.nodes (by simp) fun place => ?_
    obtain ⟨prev, cur, tagged⟩ := place
    cases cur with
    | none => exact .ret (.refl M) (by simp)
    | some cur =>
      refine .loadNext fun rawNext => ?_
      rw [Prog.ret_bind]
      split
      · refine (finds_help (by simp [Place.nodes]) (by simp)).bind fun place => ?_
        exact .ret (.refl M) (by simp)
      · refine .skip rfl fun so => ?_
        rw [Prog.ret_bind]
        split
        · exact (runs_describe cur).bind fun _ => .ret (.refl M) (by simp)
        · refine (finds_advance (by simp [Place.nodes])).bind fun place => ?_
          exact .ret (.refl M) (by simp)

/-- The first loop of `next_node` passes the run of its key. -/
theorem finds_skip (sk : Word) (k : Key) {place : Place Addr} (hplace : place.nodes ⊆ l) :
    Finds C t M l (iterate (skipStep C sk k) place) fun r => r.toList.flatMap Place.nodes := by
  refine .loop Place.nodes hplace fun place => ?_
  obtain ⟨prev, cur, tagged⟩ := place
  cases cur with
  | none => exact .ret (.refl M) (by simp)
  | some cur =>
    refine .skip rfl fun so => ?_
    rw [Prog.ret_bind]
    split
    · exact .ret (.refl M) (by simp)
    · refine .loadNext fun rawNext => (runs_headMatches k cur rawNext).bind fun b => ?_
      split
      · exact .ret (.refl M) (by simp)
      · split
        · refine (finds_help (by simp [Place.nodes]) (by simp)).bind fun place => ?_
          exact .ret (.refl M) (by simp)
        · refine (finds_advance (by simp [Place.nodes])).bind fun place => ?_
          exact .ret (.refl M) (by simp)

theorem runs_nextNode (mixed sk : Word) (k : Key) : Runs C t M l (nextNode C mixed sk k) := by
  refine (finds_locate mixed sk).bind fun r => ?_
  obtain ⟨prev, cur⟩ := r
  refine (finds_skip sk k (by simp [Place.nodes, Link.null])).bind fun r => ?_
  cases r with
  | none => exact .ret (.refl M) (by simp)
  | some place =>
    refine .loop Place.nodes (by simp) fun place => ?_
    obtain ⟨prev, cur, tagged⟩ := place
    cases cur with
    | none => exact .skip rfl fun _ => .ret (.refl M) (by simp)
    | some cur =>
      refine .loadNext fun rawNext => ?_
      rw [Prog.ret_bind]
      split
      · refine (finds_help (by simp [Place.nodes]) (by simp)).bind fun place => ?_
        exact .ret (.refl M) (by simp)
      · refine (finds_advance (by simp [Place.nodes])).bind fun place => ?_
        obtain ⟨prev, nxt, tagged⟩ := place
        cases nxt with
        | none => exact .ret (.refl M) (by simp)
        | some a =>
          refine .skip rfl fun so => ?_
          rw [Prog.ret_bind]
          split
          · exact (runs_describe a).bind fun _ => .ret (.refl M) (by simp)
          · exact .ret (.refl M) (List.subset_append_left _ _)

end Operations

/-! ## Marks are permanent -/

section Marks

variable {C} {t : Nat}

/-- The nodes that the caller hands to a call. -/
def Request.brings : Request Addr Key → List Addr
  | .emplace n _ | .insert n _ => [n]
  | _ => []

/-- Every call but `clear` runs, with the node that it brings. -/
theorem runs_code {c : Request Addr Key} (hc : c ≠ .clear) :
    Spec C t c.brings [] (c.code C) (fun _ => []) fun _ => [] := by
  cases c with
  | emplace n k =>
    refine (runs_insertNode n _ _ k).bind fun r => ?_
    split
    · exact runs_maybeGrow.bind fun _ => .ret (.refl _) (by simp)
    · exact .ret (.refl _) (by simp)
  | insert n k => exact (runs_insertNode n _ _ k).bind fun r => .ret (.refl _) (by simp)
  | erase k => exact (runs_eraseNode k _ _).bind fun r => .ret (.refl _) (by simp)
  | find k => exact (runs_findNode k _ _).bind fun r => .ret (.refl _) (by simp)
  | size => exact .skip rfl fun _ => .ret (.refl _) (by simp)
  | clear => exact absurd rfl hc
  | grow force => exact (runs_growOnce force).bind fun r => .ret (.refl _) (by simp)
  | first => exact runs_firstNode.bind fun r => .ret (.refl _) (by simp)
  | next mixed sk k => exact (runs_nextNode mixed sk k).bind fun r => .ret (.refl _) (by simp)

omit [DecidableEq Addr] in
theorem Guar.rfl {s : Annotated Addr Key} : Guar t s s :=
  ⟨fun _ h => h, fun _ _ _ h => h, fun _ _ => Eq.refl _⟩

/-- The calls keep the marks. -/
theorem marking_covers : (@marking Addr Key _ C).Covers fun _ _ _ _ => True where
  respond t c r s hi _ := ⟨s, rfl, hi, Guar.rfl⟩
  invoke t c s g hi hinvoke := by
    have hrun : ∀ a, c ≠ .clear → Inv a → Has t c.brings [] a →
        (marking C).WP t (c.code C) (fun _ _ => True) a := fun a hc hi h =>
      (runs_code hc a hi h).mono fun _ _ _ _ => trivial
    have hcreate : ∀ n k, c.brings = [n] → c ≠ .clear → n ∉ s.heap.inUse →
        g = s.heap.create n k → ∃ a, a.heap = g ∧ Guar t s a ∧
          (marking C).WP t (c.code C) (fun _ _ => True) a := by
      rintro n k hb hc hn rfl
      obtain ⟨hi', hg⟩ := hi.give (t := t) (g := s.heap.create n k) hn rfl rfl rfl rfl
      refine ⟨_, rfl, hg, hrun _ hc hi' ?_⟩
      rw [hb]
      exact ⟨by simp, by simp, by simp⟩
    have hsame : c.brings = [] → c ≠ .clear → g = s.heap → ∃ a, a.heap = g ∧ Guar t s a ∧
        (marking C).WP t (c.code C) (fun _ _ => True) a := by
      rintro hb hc rfl
      refine ⟨s, rfl, Guar.rfl, hrun s hc hi ?_⟩
      rw [hb]
      exact ⟨by simp, by simp, by simp⟩
    cases c with
    | emplace n k =>
      simp only [list, marking] at hinvoke
      split at hinvoke <;> cases hinvoke
      next hn => exact hcreate n k rfl (by simp) hn rfl
    | insert n k =>
      simp only [list, marking] at hinvoke
      split at hinvoke <;> cases hinvoke
      next hn => exact hcreate n k rfl (by simp) hn rfl
    | clear => cases hinvoke
    | _ =>
      cases hinvoke
      exact hsame rfl (by simp) rfl

omit [DecidableEq Addr] in
/-- An empty container. -/
theorem Inv.new (key : Addr → Key) (head : Addr) {pick : Nat → Finset Addr → Addr}
    (threshold : Nat → Nat) (hpick : ∀ n F, pick n F ∉ F) :
    Inv ⟨Heap.new key head pick threshold, fun _ => none⟩ := by
  refine ⟨hpick, fun _ _ => rfl, fun _ _ => rfl, fun _ _ h => (by cases h), fun u i d hd => ?_⟩
  simp only [Heap.new] at hd
  split at hd
  · obtain rfl := Option.some.inj hd
    exact ⟨by simp [Heap.new], rfl⟩
  · cases hd

/-- In every run in which no helper finds the MARKED pointer that it expects, a next pointer that is
marked never changes again. -/
theorem marked_permanent (C : Config Key) (key : Addr → Key) (head : Addr)
    (pick : Nat → Finset Addr → Addr) (threshold : Nat → Nat) (hpick : ∀ n F, pick n F ∉ F)
    (c c' : Conc.Config (Op Addr Key) (Heap Addr Key) (Request Addr Key) (Answer Addr Key))
    (hc : (list C).Reach HelpsUnmarked (Heap.new key head pick threshold) c)
    (hlater : (list C).Later HelpsUnmarked c c') (a : Addr)
    (ha : (c.shared.next a).marked = true) : c'.shared.next a = c.shared.next a := by
  obtain ⟨s, s', hs, hs', hR⟩ := Discipline.reach_later marking_covers
    (Inv.new key head threshold hpick) (R := fun s s' =>
      ∀ a, (s.heap.next a).marked = true → s'.heap.next a = s.heap.next a)
    (fun _ _ _ => rfl)
    (fun s s' s'' h g a ha => (g a (by rw [h a ha, ha])).trans (h a ha))
    (fun _ _ _ _ _ hg => hg.marked) hc hlater
  have hs : s.heap = c.shared := hs
  have hs' : s'.heap = c'.shared := hs'
  rw [← hs] at ha ⊢
  rw [← hs']
  exact hR a ha

end Marks

/-! ## A helper that clears a mark -/

open Label (whole)

/-- Keys are numbers that hash to themselves, under the epoch scheme. -/
def epochal : Config Nat := ⟨false, BitVec.ofNat 64, fun a b => a = b⟩

/-- A block above all that are in use. -/
def nextBlock (_ : Nat) (inUse : Finset Nat) : Nat := inUse.sup id + 1

/-- The block after the last one is not in use. -/
theorem nextBlock_notMem (n : Nat) (F : Finset Nat) : nextBlock n F ∉ F :=
  fun h => Nat.not_succ_le_self _ (Finset.le_sup (f := id) h)

/-- Nodes 1, 2 and 3 are inserted, in this order in the list. Thread 0 looks for the last one and
steps onto node 1; thread 2 marks node 2, and then thread 1 node 1. -/
def bothMarked : List (Label (Request Nat Nat)) :=
  whole 0 (.insert 1 0) 13 ++ whole 0 (.insert 2 11) 17 ++ whole 0 (.insert 3 1) 21 ++
    .call 0 (.find 1) :: List.replicate 9 (.step 0 false) ++
    .call 2 (.erase 11) :: List.replicate 17 (.step 2 false) ++
    .call 1 (.erase 0) :: List.replicate 13 (.step 1 false)

/-- Thread 0 reads the marked pointer of node 1 and helps to unlink node 2. -/
def helped : List (Label (Request Nat Nat)) := List.replicate 5 (.step 0 false)

/-- The helper's compare-exchange makes node 1 unmarked again. -/
theorem helper_clears_mark :
    ¬ ∀ (C : Config Nat) (key : Nat → Nat) (head : Nat) (pick : Nat → Finset Nat → Nat)
      (threshold : Nat → Nat), (∀ n F, pick n F ∉ F) →
      ∀ c c' : Conc.Config (Op Nat Nat) (Heap Nat Nat) (Request Nat Nat) (Answer Nat Nat),
        (list C).Reachable (Heap.new key head pick threshold) c →
        (list C).Later SharedObject.anyAction c c' →
        ∀ a, (c.shared.next a).marked = true → c'.shared.next a = c.shared.next a := by
  intro hall
  have hrun : (((list epochal).exec (SharedObject.start (Heap.new id 0 nextBlock id))
      bothMarked).bind fun c => ((list epochal).exec c helped).map fun c' =>
        (c.shared.next 1, c'.shared.next 1)) = some (⟨some 2, true⟩, ⟨some 3, false⟩) := by
    decide +kernel
  obtain ⟨c, hc, hrest⟩ := Option.bind_eq_some_iff.mp hrun
  obtain ⟨c', hc', hval⟩ := Option.map_eq_some_iff.mp hrest
  simp only [Prod.mk.injEq] at hval
  have hsame := hall epochal id 0 nextBlock id nextBlock_notMem c c'
    ((list epochal).reachable_exec _ hc)
    ((list epochal).later_execIf (fun _ _ _ _ => trivial) helped hc') 1 (by rw [hval.1])
  rw [hval.1, hval.2] at hsame
  cases hsame

/-- `HelpsUnmarked` as a test. -/
def helpsUnmarkedTest {β : Type} (_ : Nat) (o : Op Nat Nat β) (h : Heap Nat Nat) : Bool :=
  match o with
  | .casNextWeak prev expected _ => !(expected.marked && h.next prev = expected)
  | _ => true

theorem helpsUnmarkedTest_sound {β : Type} (t : Nat) (o : Op Nat Nat β) (h : Heap Nat Nat)
    (ho : helpsUnmarkedTest t o h = true) : HelpsUnmarked t o h := by
  cases o
  case casNextWeak prev expected desired =>
    intro hc
    simp [helpsUnmarkedTest, hc] at ho
  all_goals trivial

/-- The erasers go on instead: both nodes are unlinked, and node 1 keeps its mark. -/
theorem marked_permanent_run :
    ∃ c c' : Conc.Config (Op Nat Nat) (Heap Nat Nat) (Request Nat Nat) (Answer Nat Nat),
      (list epochal).Reach HelpsUnmarked (Heap.new id 0 nextBlock id) c ∧
      (list epochal).Later HelpsUnmarked c c' ∧ c'.shared.retired = [1] ∧
      (c.shared.next 1).marked = true ∧ c'.shared.next 1 = c.shared.next 1 := by
  have hrun : (((list epochal).execIf helpsUnmarkedTest
      (SharedObject.start (Heap.new id 0 nextBlock id)) bothMarked).bind fun c =>
        ((list epochal).execIf helpsUnmarkedTest c (List.replicate 3 (.step 1 false))).map fun c' =>
          (c'.shared.retired, (c.shared.next 1).marked)) = some ([1], true) := by
    decide +kernel
  obtain ⟨c, hc, hrest⟩ := Option.bind_eq_some_iff.mp hrun
  obtain ⟨c', hc', hval⟩ := Option.map_eq_some_iff.mp hrest
  simp only [Prod.mk.injEq] at hval
  have hreach := (list epochal).reach_execIf helpsUnmarkedTest_sound _ .start hc
  have hlater := (list epochal).later_execIf helpsUnmarkedTest_sound _ hc'
  exact ⟨c, c', hreach, hlater, hval.1, hval.2,
    marked_permanent epochal id 0 nextBlock id nextBlock_notMem c c' hreach hlater 1 hval.2⟩

end MpmcMap.Unordered
