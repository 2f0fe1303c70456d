import MpmcMap.Conc.Reaches
import MpmcMap.Unordered.Marks

/-!
# Unlinked nodes

A node that is not marked is reached from the dummy of bucket 0. So nobody reads a pointer to a node
that is unlinked, except from a marked predecessor, and that pointer is written to the place of the
predecessor only if it is still in the list. A helper that has not read the pointer of its own
predecessor expects null there. It may find null after all, when the list has become shorter; what
it then writes behind the last node may have been unlinked in the meantime.
-/

namespace MpmcMap.Unordered

open Conc
open Prog (perform iterate Closed)
open Function (update)

variable {Addr Key : Type} [DecidableEq Addr]

/-- The node that a next pointer leads to. -/
def Heap.succ (h : Heap Addr Key) (a : Addr) : Option Addr := (h.next a).ptr

/-- The next pointers lead from `r` to `a`. -/
abbrev Heap.Reaches (h : Heap Addr Key) (r a : Addr) : Prop := Conc.Reaches h.succ r a

/-- No helper finds the MARKED pointer that it expects, or null where it expects null and writes a
pointer to a marked node. -/
def HelpsListed {β : Type} (t : Nat) (o : Op Addr Key β) (h : Heap Addr Key) : Prop :=
  HelpsUnmarked t o h ∧
  match o with
  | .casNextWeak prev expected desired => expected.ptr = none → h.next prev = expected →
      ∀ b, desired.ptr = some b → (h.next b).marked = false
  | _ => True

namespace Unlinked

/-- A write to a next pointer changes one successor. -/
@[simp] theorem succ_setNext (h : Heap Addr Key) (a : Addr) (v : Link Addr) :
    (h.setNext a v).succ = update h.succ a v.ptr := by
  funext b
  simp only [Heap.succ, Heap.setNext]
  by_cases hb : b = a
  · simp [hb]
  · simp [hb, Heap.succ]

/-- What is not marked is reached from the dummy `head`. -/
structure Reached (head : Addr) (s : Annotated Addr Key) : Prop extends Inv s where
  rooted : s.Linked head
  live : ∀ a, s.Linked a → (s.heap.next a).marked = false → s.heap.Reaches head a

/-- What a step of thread `u` may change: it reaches no old node that was not reached before. -/
structure Lasting (head : Addr) (u : Nat) (s s' : Annotated Addr Key) : Prop
    extends Guar u s s' where
  mine : ∀ v, v ≠ u → ∀ a, s.owner a = some v → s'.heap.next a = s.heap.next a
  back : ∀ a, s.Linked a → s'.heap.Reaches head a → s.heap.Reaches head a

variable (C : Config Key) (head : Addr)

/-- The proof obligations of the threads. -/
def unlinking : Discipline (@list Addr Key _ C) (Annotated Addr Key) where
  erase := Annotated.heap
  inv := Reached head
  guar := Lasting head
  ok := HelpsListed

/-- What a thread may know, for as long as it likes. -/
inductive Fact (Addr : Type) where
  | linked (a : Addr)
  /-- The next pointer that was read, if it was marked. -/
  | seen (a : Addr) (r : Link Addr)
  | erased (a : Addr)
  | pure (φ : Prop)

def Fact.holds (s : Annotated Addr Key) : Fact Addr → Prop
  | .linked a => s.Linked a
  | .seen a r => r.marked = true → s.heap.next a = r
  | .erased a => (s.heap.next a).marked = true
  | .pure φ => φ

/-- A pointer to a linked node, if it is one. -/
def links (p : Option Addr) : List (Fact Addr) := p.toList.map .linked

omit [DecidableEq Addr] in
@[simp] theorem links_none : links (none : Option Addr) = [] := rfl

omit [DecidableEq Addr] in
@[simp] theorem links_some (a : Addr) : links (some a) = [.linked a] := rfl

omit [DecidableEq Addr] in
@[simp] theorem mem_links {p : Option Addr} {f : Fact Addr} :
    f ∈ links p ↔ ∃ a, p = some a ∧ f = .linked a := by
  cases p <;> simp

omit [DecidableEq Addr] in
@[simp] theorem links_subset {p : Option Addr} {l : List (Fact Addr)} :
    links p ⊆ l ↔ ∀ a, p = some a → .linked a ∈ l := by
  cases p <;> simp

/-- A node of a thread, and what the thread has stored in it, where that matters. -/
abbrev Own (Addr : Type) := Addr × Option (Option Addr)

/-- Thread `t` owns the nodes `M` and knows the facts `l`. -/
structure Has (t : Nat) (M : List (Own Addr)) (l : List (Fact Addr)) (s : Annotated Addr Key) :
    Prop where
  nodup : (M.map Prod.fst).Nodup
  own : ∀ x ∈ M, s.owner x.1 = some t
  stored : ∀ x ∈ M, ∀ p, x.2 = some p → s.heap.next x.1 = .plain p
  knows : ∀ f ∈ l, f.holds s

/-- From the nodes `M` and the facts `l`, the program comes to own the nodes `m r` and to know the
facts `g r`, where `r` is its result. -/
def Spec {α : Type} (t : Nat) (M : List (Own Addr)) (l : List (Fact Addr)) (p : Code Addr Key α)
    (m : α → List (Own Addr)) (g : α → List (Fact Addr)) : Prop :=
  ∀ s, Reached head s → Has t M l s → (unlinking C head).WP t p (fun r s => Has t (m r) (g r) s) s

/-- Fewer nodes, or less about what is stored in them. -/
structure Forgets (M' M : List (Own Addr)) : Prop where
  sublist : (M'.map Prod.fst).Sublist (M.map Prod.fst)
  stored : ∀ x ∈ M', x.2 = none ∨ x ∈ M

section Rules

variable {C} {head} {t : Nat} {M : List (Own Addr)} {l : List (Fact Addr)} {α β γ σ : Type}
  {m : α → List (Own Addr)} {g : α → List (Fact Addr)} {s s' : Annotated Addr Key}

omit [DecidableEq Addr] in
/-- What the head reaches is linked. -/
theorem Reached.linked_of_reaches (hi : Reached head s) {a : Addr} (ha : s.heap.Reaches head a) :
    s.Linked a :=
  ha.closed hi.rooted hi.next

omit [DecidableEq Addr] in
theorem Lasting.rfl : Lasting head t s s :=
  ⟨Guar.rfl, fun _ _ _ _ => Eq.refl _, fun _ _ h => h⟩

/-- What is known of the nodes stays true, whoever moves. -/
theorem persistent_facts (l : List (Fact Addr)) :
    (unlinking C head).Persistent fun s => ∀ f ∈ l, f.holds s := by
  intro u s s' hi hi' hg h f hf
  cases f with
  | linked a => exact hg.linked a (h _ hf)
  | seen a r =>
    intro hr
    have ha : s.heap.next a = r := h _ hf hr
    rw [← ha]
    exact hg.marked a (ha ▸ hr)
  | erased a =>
    have ha : (s.heap.next a).marked = true := h _ hf
    show (s'.heap.next a).marked = true
    rw [hg.marked a ha]
    exact ha
  | pure φ => exact h _ hf

/-- The steps of the others take nothing from a thread. -/
theorem stable_has : (unlinking C head).Stable t (Has t M l) := by
  intro u hu s s' hi hi' hg h
  constructor
  case nodup => exact h.nodup
  case own =>
    intro x hx
    exact hg.owner t hu.symm x.1 (h.own x hx)
  case stored =>
    intro x hx p hp
    rw [hg.mine t hu.symm x.1 (h.own x hx)]
    exact h.stored x hx p hp
  case knows => exact persistent_facts (C := C) l u s s' hi hi' hg h.knows

omit [DecidableEq Addr] in
theorem Forgets.refl (M : List (Own Addr)) : Forgets M M := ⟨.refl _, fun _ h => .inr h⟩

omit [DecidableEq Addr] in
theorem Forgets.drop (x : Own Addr) (M : List (Own Addr)) : Forgets M (x :: M) :=
  ⟨List.sublist_cons_self _ _, fun _ h => .inr (List.mem_cons_of_mem x h)⟩

omit [DecidableEq Addr] in
theorem Forgets.blank (n : Addr) (w : Option (Option Addr)) (M : List (Own Addr)) :
    Forgets ((n, none) :: M) ((n, w) :: M) := by
  refine ⟨.refl _, fun x hx => ?_⟩
  rcases List.mem_cons.mp hx with rfl | hx
  · exact .inl rfl
  · exact .inr (List.mem_cons_of_mem _ hx)

omit [DecidableEq Addr] in
/-- A thread that has something has less, too. -/
theorem Has.mono {M' : List (Own Addr)} {l' : List (Fact Addr)} (h : Has t M l s)
    (hM : Forgets M' M) (hl : ∀ f ∈ l', f.holds s) : Has t M' l' s := by
  constructor
  case nodup => exact hM.sublist.nodup h.nodup
  case own =>
    intro x hx
    obtain ⟨y, hy, hyx⟩ := List.mem_map.mp (hM.sublist.subset (List.mem_map_of_mem hx))
    rw [← hyx]
    exact h.own y hy
  case stored =>
    intro x hx p hp
    rcases hM.stored x hx with hnone | hmem
    · rw [hnone] at hp
      cases hp
    · exact h.stored x hmem p hp
  case knows => exact hl

omit [DecidableEq Addr] in
/-- A step that leaves the thread's nodes alone. -/
theorem Has.keep {l' : List (Fact Addr)} (h : Has t M l s)
    (hown : ∀ a, s.owner a = some t → s'.owner a = some t ∧ s'.heap.next a = s.heap.next a)
    (hl : ∀ f ∈ l', f.holds s') : Has t M l' s' := by
  constructor
  case nodup => exact h.nodup
  case own =>
    intro x hx
    exact (hown x.1 (h.own x hx)).1
  case stored =>
    intro x hx p hp
    rw [(hown x.1 (h.own x hx)).2]
    exact h.stored x hx p hp
  case knows => exact hl

omit [DecidableEq Addr] in
theorem Has.append {l' : List (Fact Addr)} (h : Has t M l s) (h' : ∀ f ∈ l', f.holds s) :
    Has t M (l ++ l') s :=
  h.mono (.refl M) fun f hf => (List.mem_append.mp hf).elim (h.knows f) (h' f)

theorem Spec.ret {r : α} (hm : Forgets (m r) M) (hg : g r ⊆ l) : Spec C head t M l (.ret r) m g :=
  fun _ hi h => Discipline.WP.ret stable_has hi (h.mono hm fun f hf => h.knows f (hg hf))

/-- What was known stays known. -/
theorem Spec.bind {p : Code Addr Key α} {f : α → Code Addr Key γ} {m' : γ → List (Own Addr)}
    {g' : γ → List (Fact Addr)} (hp : Spec C head t M l p m g)
    (hf : ∀ r, Spec C head t (m r) (g r ++ l) (f r) m' g') :
    Spec C head t M l (p.bind f) m' g' := by
  intro s hi h
  apply Discipline.WP.bind
  apply Discipline.WP.mono ?_ ((hp s hi h).frame (persistent_facts l) h.knows)
  intro r s hi h
  exact hf r s hi (h.1.append h.2)

/-- The facts that are known may be used. -/
theorem Spec.assume {p : Code Addr Key α} {φ : Prop} (hφ : .pure φ ∈ l)
    (hp : φ → Spec C head t M l p m g) : Spec C head t M l p m g :=
  fun s hi h => hp (h.knows _ hφ) s hi h

/-- What is true is known. -/
theorem Spec.learn {p : Code Addr Key α} {φ : Prop} (hφ : φ)
    (hp : Spec C head t M (.pure φ :: l) p m g) : Spec C head t M l p m g := by
  intro s hi h
  apply hp s hi
  apply h.mono (.refl M)
  intro f hf
  rcases List.mem_cons.mp hf with rfl | hf
  · exact hφ
  · exact h.knows f hf

/-- The program may know less when it returns. -/
theorem Spec.post {p : Code Addr Key α} {g' : α → List (Fact Addr)} (hp : Spec C head t M l p m g)
    (hg : ∀ r (s : Annotated Addr Key), (∀ f ∈ g r, f.holds s) → ∀ f ∈ g' r, f.holds s) :
    Spec C head t M l p m g' := by
  intro s hi h
  apply Discipline.WP.mono ?_ (hp s hi h)
  intro r s hi h
  exact h.mono (.refl _) (hg r s h.knows)

/-- A loop; it knows the facts `I st` of its locals. -/
theorem Spec.loop {body : σ → Code Addr Key (σ ⊕ α)} {st : σ} (I : σ → List (Fact Addr))
    (hst : I st ⊆ l)
    (hbody : ∀ st, Spec C head t M (I st ++ l) (body st) (Sum.elim (fun _ => M) m)
      (Sum.elim I g)) :
    Spec C head t M l (iterate body st) m g := by
  intro s hi h
  refine Discipline.WP.loop (I := fun st => Has t M (I st ++ l)) (fun _ => stable_has) hi
    (h.mono (.refl M) fun f hf => (List.mem_append.mp hf).elim (fun hf => h.knows f (hst hf))
      (h.knows f)) fun st s hi h => ?_
  have hl : ∀ f ∈ l, f.holds s := fun f hf => h.knows f (List.mem_append_right _ hf)
  apply Discipline.WP.mono ?_ ((hbody st s hi h).frame (persistent_facts l) hl)
  intro r s hi h
  cases r with
  | inl st => exact h.1.append h.2
  | inr r => exact Discipline.WP.ret stable_has hi h.1

/-- One action. -/
theorem Spec.act {o : Op Addr Key β} {k : β → Code Addr Key α} (M' : β → List (Own Addr))
    (l' : β → List (Fact Addr))
    (hstep : ∀ s b r h', Reached head s → Has t M l s → HelpsListed t o s.heap →
      o.apply b s.heap = some (r, h') → ∃ owner, Reached head ⟨h', owner⟩ ∧
        Lasting head t s ⟨h', owner⟩ ∧ Has t (M' r) (l' r) ⟨h', owner⟩)
    (hk : ∀ r, Spec C head t (M' r) (l' r ++ l) (k r) m g) : Spec C head t M l (.act o k) m g := by
  intro s hi h
  refine Discipline.WP.act stable_has hi h fun s b r h' hi h hok hact => ?_
  obtain ⟨owner, hi', hg, hhas⟩ := hstep s b r h' hi h hok hact
  refine ⟨⟨h', owner⟩, rfl, hi', hg, hk r _ hi' (hhas.append ?_)⟩
  exact persistent_facts (C := C) l t s _ hi hi' hg h.knows

/-! ### Actions that write no pointer -/

omit [DecidableEq Addr] in
/-- An access that writes no pointer keeps the list and what lasts of it. -/
theorem calm_step {h' : Heap Addr Key} (hc : Calm s.heap h') (hi : Reached head s) :
    Reached head ⟨h', s.owner⟩ ∧ Lasting head t s ⟨h', s.owner⟩ := by
  have hsucc : h'.succ = s.heap.succ := by
    funext a
    simp only [Heap.succ, hc.next]
  have hguar := hc.guar (t := t)
  constructor
  · refine ⟨hc.inv hi.toInv, hguar.linked _ hi.rooted, fun a ha hm => ?_⟩
    rw [hc.next] at hm
    show Reaches h'.succ head a
    rw [hsucc]
    exact hi.live a ⟨hc.inUse ▸ ha.1, ha.2⟩ hm
  · refine ⟨hguar, fun v _ a _ => by rw [hc.next], fun a _ ha => ?_⟩
    show Reaches s.heap.succ head a
    rw [← hsucc]
    exact ha

/-- An access that writes no pointer and answers with the facts `l' r`. -/
theorem Spec.read {o : Op Addr Key β} {k : β → Code Addr Key α} (l' : β → List (Fact Addr))
    (ho : o.calm = true)
    (hl : ∀ s b r h', Reached head s → Has t M l s → o.apply b s.heap = some (r, h') →
      ∀ f ∈ l' r, f.holds s)
    (hk : ∀ r, Spec C head t M (l' r ++ l) (k r) m g) : Spec C head t M l (.act o k) m g := by
  apply Spec.act (fun _ => M) l' ?_ hk
  intro s b r h' hi h _ hact
  have hcalm := calm_apply ho hact
  obtain ⟨hi', hg⟩ := calm_step (t := t) hcalm hi
  refine ⟨s.owner, hi', hg, h.keep (fun a ha => ⟨ha, ?_⟩) ?_⟩
  · show h'.next a = s.heap.next a
    rw [hcalm.next]
  · exact persistent_facts (C := C) (l' r) t s _ hi hi' hg (hl s b r h' hi h hact)

/-- An access that writes no pointer. -/
theorem Spec.skip {o : Op Addr Key β} {k : β → Code Addr Key α} (ho : o.calm = true)
    (hk : ∀ r, Spec C head t M l (k r) m g) : Spec C head t M l (.act o k) m g :=
  .read (fun _ => []) ho (fun _ _ _ _ _ _ _ f hf => by cases hf) hk

/-- What a load of the next pointer of `a` tells. -/
def loaded (a : Addr) (r : Link Addr) : List (Fact Addr) :=
  .seen a r :: links r.ptr

omit [DecidableEq Addr] in
/-- What has been read from a next pointer is so. -/
theorem holds_loaded (hi : Reached head s) (a : Addr) :
    ∀ f ∈ loaded a (s.heap.next a), f.holds s := by
  intro f hf
  rcases List.mem_cons.mp hf with rfl | hf
  · intro _
    rfl
  · obtain ⟨b, hb, rfl⟩ := List.mem_map.mp hf
    exact hi.next a b (Option.mem_toList.mp hb)

/-- A load of a next pointer tells the link, and where it leads. -/
theorem Spec.loadNext {a : Addr} {k : Link Addr → Code Addr Key α}
    (hk : ∀ r, Spec C head t M (loaded a r ++ l) (k r) m g) :
    Spec C head t M l (.act (.loadNext a) k) m g := by
  apply Spec.read (loaded a) rfl ?_ hk
  intro s b r h' hi h hact
  cases hact
  exact holds_loaded hi a

/-- The next pointer of an erased node is marked. -/
theorem Spec.loadErased {a : Addr} {k : Link Addr → Code Addr Key α} (ha : .erased a ∈ l)
    (hk : ∀ r, r.marked = true → Spec C head t M (loaded a r ++ l) (k r) m g) :
    Spec C head t M l (.act (.loadNext a) k) m g := by
  apply Spec.read (fun r => .pure (r.marked = true) :: loaded a r) rfl
  · intro s b r h' hi h hact f hf
    cases hact
    rcases List.mem_cons.mp hf with rfl | hf
    · have hmarked : (s.heap.next a).marked = true := h.knows _ ha
      exact hmarked
    · exact holds_loaded hi a f hf
  · intro r
    apply Spec.assume List.mem_cons_self
    intro hr s hi h
    exact hk r hr s hi (h.mono (.refl M) fun f hf => h.knows f (List.mem_cons_of_mem _ hf))

/-- What is in a cell is linked. -/
theorem Spec.loadBucket {u i : Nat} {k : Option Addr → Code Addr Key α}
    (hk : ∀ r, Spec C head t M (links r ++ l) (k r) m g) :
    Spec C head t M l (.act (.loadBucket u i) k) m g := by
  apply Spec.read (fun r => links r) rfl ?_ hk
  intro s b r h' hi h hact f hf
  cases hact
  obtain ⟨c, hc, rfl⟩ := List.mem_map.mp hf
  exact hi.bucket u i c (Option.mem_toList.mp hc)

/-! ### Actions that write a pointer -/

/-- A linked node that is not marked gets another pointer; nothing is lost and nothing comes back. -/
theorem swing_step {a : Addr} {v : Link Addr} (hi : Reached head s) (ha : s.Linked a)
    (hm : (s.heap.next a).marked = false) (hv : ∀ b, v.ptr = some b → s.Linked b)
    (hback : ∀ x, Reaches (update s.heap.succ a v.ptr) head x → s.heap.Reaches head x)
    (hlive : ∀ x, (s.heap.next x).marked = false → s.heap.Reaches head x →
      Reaches (update s.heap.succ a v.ptr) head x) :
    Reached head ⟨s.heap.setNext a v, s.owner⟩ ∧
      Lasting head t s ⟨s.heap.setNext a v, s.owner⟩ := by
  constructor
  · refine ⟨hi.toInv.setNext hv (.inl ha), hi.rooted, fun x hx hxm => ?_⟩
    show Reaches (s.heap.setNext a v).succ head x
    rw [succ_setNext]
    have hold : (s.heap.next x).marked = false := by
      by_cases hxa : x = a
      · rw [hxa]
        exact hm
      · simpa [Heap.setNext, hxa] using hxm
    exact hlive x hold (hi.live x hx hold)
  · refine ⟨setNext_guar hm, fun u hu x hx => ?_, fun x _ hx => ?_⟩
    · -- another thread's node is not linked
      apply Function.update_of_ne
      rintro rfl
      rw [ha.2] at hx
      cases hx
    · apply hback
      rw [← succ_setNext]
      exact hx

/-- Marking a node changes no successor. -/
theorem mark_step {a : Addr} (hi : Reached head s) (ha : s.Linked a)
    (hm : (s.heap.next a).marked = false) :
    Reached head ⟨s.heap.setNext a (s.heap.next a).setMarked, s.owner⟩ ∧
      Lasting head t s ⟨s.heap.setNext a (s.heap.next a).setMarked, s.owner⟩ := by
  have hsame : update s.heap.succ a (s.heap.next a).setMarked.ptr = s.heap.succ :=
    Function.update_eq_self a s.heap.succ
  apply swing_step hi ha hm
  · exact fun b hb => hi.next a b hb
  · intro x hx
    rwa [hsame] at hx
  · intro x _ hx
    rwa [hsame]

/-- Unlinking the erased node `cur`, whose next pointer is `rawNext`. Where `prev` has become the
last node, only a node that is not marked may be linked behind it. -/
theorem unlink_step {prev cur : Addr} {tagged rawNext : Link Addr} (hi : Reached head s)
    (hprev : s.Linked prev) (hcur : s.heap.next cur = rawNext) (hr : rawNext.marked = true)
    (he : s.heap.next prev = tagged) (hm : tagged.marked = false)
    (hptr : tagged.ptr = some cur ∨ tagged.ptr = none ∧
      ∀ b, rawNext.ptr = some b → (s.heap.next b).marked = false) :
    Reached head ⟨s.heap.setNext prev rawNext.clearMark, s.owner⟩ ∧
      Lasting head t s ⟨s.heap.setNext prev rawNext.clearMark, s.owner⟩ := by
  subst hcur he
  apply swing_step hi hprev hm
  · exact fun b hb => hi.next cur b hb
  · intro x hx
    rcases hptr with hptr | ⟨hptr, hnew⟩
    · exact hx.of_cut hptr
    · cases hb : (s.heap.next cur).ptr with
      | none =>
        apply hx.congr
        intro a _
        by_cases ha : a = prev
        · rw [ha, Function.update_self]
          exact hptr.trans hb.symm
        · rw [Function.update_of_ne ha]
      | some b =>
        have hx : Reaches (update s.heap.succ prev (some b)) head x := hb ▸ hx
        exact Reaches.of_extend (hi.live b (hi.next cur b hb) (hnew b hb)) hx
  · intro x hxm hx
    rcases hptr with hptr | ⟨hptr, -⟩
    · rcases hx.cut hptr with hx | rfl
      · exact hx
      · rw [hr] at hxm
        cases hxm
    · exact hx.extend hptr _

/-- A compare-exchange, weak or not, on a linked node. -/
theorem Spec.compareExchange {o : Op Addr Key Bool} {a : Addr} {e v : Link Addr}
    {k : Bool → Code Addr Key α} (gives : List (Fact Addr))
    (ho : ∀ b h, o.apply b h = some (h.compareExchange a e v false) ∨
      o.apply b h = some (h.compareExchange a e v b))
    (ha : .linked a ∈ l)
    (hstep : ∀ s, Reached head s → (∀ f ∈ l, f.holds s) → HelpsListed t o s.heap →
      s.heap.next a = e → (Reached head ⟨s.heap.setNext a v, s.owner⟩ ∧
        Lasting head t s ⟨s.heap.setNext a v, s.owner⟩) ∧
        ∀ f ∈ gives, Fact.holds ⟨s.heap.setNext a v, s.owner⟩ f)
    (hyes : Spec C head t M (gives ++ l) (k true) m g) (hno : Spec C head t M l (k false) m g) :
    Spec C head t M l (.act o k) m g := by
  apply Spec.act (fun _ => M) (fun r => if r then gives else [])
  · intro s b r h' hi h hok hact
    have hcas : (r = false ∧ h' = s.heap) ∨
        (r = true ∧ s.heap.next a = e ∧ h' = s.heap.setNext a v) := by
      rcases ho b s.heap with h1 | h1 <;> rw [h1] at hact <;>
        simp only [Heap.compareExchange] at hact <;> split at hact <;> cases hact
      · next hc => exact .inr ⟨rfl, hc.1, rfl⟩
      · exact .inl ⟨rfl, rfl⟩
      · next hc => exact .inr ⟨rfl, hc.1, rfl⟩
      · exact .inl ⟨rfl, rfl⟩
    rcases hcas with ⟨rfl, rfl⟩ | ⟨rfl, he, rfl⟩
    · exact ⟨s.owner, hi, Lasting.rfl, h.mono (.refl M) fun f hf => by cases hf⟩
    · obtain ⟨⟨hi', hg⟩, hgives⟩ := hstep s hi h.knows hok he
      refine ⟨s.owner, hi', hg, h.keep (fun c hc => ⟨hc, ?_⟩) hgives⟩
      -- the thread's own nodes are not linked
      apply Function.update_of_ne
      rintro rfl
      have hlinked : s.Linked c := h.knows _ ha
      rw [hlinked.2] at hc
      cases hc
  · intro r
    cases r
    · exact hno
    · exact hyes

/-- An eraser marks a node. -/
theorem Spec.mark {a : Addr} {e : Link Addr} {k : Bool → Code Addr Key α}
    (he : e.marked = false) (ha : .linked a ∈ l)
    (hyes : Spec C head t M (.erased a :: l) (k true) m g)
    (hno : Spec C head t M l (k false) m g) :
    Spec C head t M l (.act (.casNext a e e.setMarked) k) m g := by
  apply Spec.compareExchange [.erased a] (fun _ _ => .inl rfl) ha ?_ hyes hno
  rintro s hi hl - rfl
  refine ⟨mark_step hi (hl _ ha) he, fun f hf => ?_⟩
  obtain rfl := List.mem_singleton.mp hf
  show (update s.heap.next a _ a).marked = true
  rw [Function.update_self]
  rfl

/-- A helper unlinks a node that it has found marked. -/
theorem Spec.casNextWeak {prev cur : Addr} {tagged rawNext : Link Addr}
    {k : Bool → Code Addr Key α} (hr : rawNext.marked = true) (hprev : .linked prev ∈ l)
    (hcur : .seen cur rawNext ∈ l) (hptr : tagged.ptr = none ∨ tagged.ptr = some cur)
    (hk : ∀ r, Spec C head t M l (k r) m g) :
    Spec C head t M l (.act (.casNextWeak prev tagged rawNext.clearMark) k) m g := by
  apply Spec.compareExchange [] (fun _ _ => .inr rfl) hprev ?_ (hk true) (hk false)
  intro s hi hl hok he
  refine ⟨unlink_step hi (hl _ hprev) (hl _ hcur hr) hr he ?_ ?_, fun f hf => by cases hf⟩
  · rw [Bool.eq_false_iff]
    intro hm
    exact hok.1 ⟨hm, he⟩
  · rcases hptr with hptr | hptr
    · exact .inr ⟨hptr, hok.2 hptr he⟩
    · exact .inl hptr

/-- An eraser unlinks its node. -/
theorem Spec.casNext {prev cur : Addr} {rawNext : Link Addr} {k : Bool → Code Addr Key α}
    (hr : rawNext.marked = true) (hprev : .linked prev ∈ l) (hcur : .seen cur rawNext ∈ l)
    (hk : ∀ r, Spec C head t M l (k r) m g) :
    Spec C head t M l (.act (.casNext prev (.plain (some cur)) rawNext.clearMark) k) m g := by
  apply Spec.compareExchange [] (fun _ _ => .inl rfl) hprev ?_ (hk true) (hk false)
  intro s hi hl _ he
  exact ⟨unlink_step hi (hl _ hprev) (hl _ hcur hr) hr he rfl (.inl rfl), fun f hf => by cases hf⟩

omit [DecidableEq Addr] in
/-- A node of a thread is not reached. -/
theorem Reached.own_not_reaches (hi : Reached head s) {n : Addr} {u : Nat}
    (hn : s.owner n = some u) : ¬ s.heap.Reaches head n := by
  intro h
  have hlinked := hi.linked_of_reaches h
  rw [hlinked.2] at hn
  cases hn

/-- Writing to a node that is not reached. -/
theorem reaches_write {h h' : Heap Addr Key} {n a : Addr} {v : Link Addr}
    (hn : ¬ h.Reaches head n) (hnext : h'.next = update h.next n v) :
    h'.Reaches head a ↔ h.Reaches head a := by
  have hsucc : h'.succ = update h.succ n v.ptr := by
    rw [← succ_setNext]
    funext b
    simp only [Heap.succ, Heap.setNext, hnext]
  show Reaches h'.succ head a ↔ _
  rw [hsucc]
  exact ⟨fun ha => ha.of_write hn, fun ha => ha.write hn _⟩

/-- The inserter writes to its node. -/
theorem Spec.storeNext {n : Addr} {w : Option (Option Addr)} {p : Option Addr}
    {k : Unit → Code Addr Key α} (hp : links p ⊆ l)
    (hk : Spec C head t ((n, some p) :: M) l (k ()) m g) :
    Spec C head t ((n, w) :: M) l (.act (.storeNext n (.plain p)) k) m g := by
  apply Spec.act (fun _ => (n, some p) :: M) (fun _ => []) ?_ fun _ => hk
  intro s b r h' hi h _ hact
  cases hact
  have hown : s.owner n = some t := h.own _ List.mem_cons_self
  have hnot : ¬ s.Linked n := fun hl => by
    rw [hl.2] at hown
    cases hown
  have hreaches : ∀ a, (s.heap.setNext n (.plain p)).Reaches head a ↔ s.heap.Reaches head a :=
    fun a => reaches_write (hi.own_not_reaches hown) rfl
  have hother : ∀ a, a ≠ n → (s.heap.setNext n (.plain p)).next a = s.heap.next a :=
    fun a ha => Function.update_of_ne ha _ _
  refine ⟨s.owner, ⟨hi.toInv.setNext (fun c hc => ?_) (.inr rfl), hi.rooted, fun a ha hm => ?_⟩,
    ⟨setNext_guar (hi.unmarked n hnot), fun v hv a ha => ?_, fun a _ ha => (hreaches a).mp ha⟩,
    ⟨h.nodup, fun x hx => ?_, fun x hx q hq => ?_, fun f hf => by cases hf⟩⟩
  · exact h.knows _ (hp (List.mem_map_of_mem (Option.mem_toList.mpr hc)))
  · have han : a ≠ n := by
      rintro rfl
      exact hnot ha
    apply (hreaches a).mpr
    exact hi.live a ha (by rwa [← hother a han])
  · apply hother
    rintro rfl
    rw [hown] at ha
    exact hv (Option.some.inj ha).symm
  · rcases List.mem_cons.mp hx with rfl | hx
    · exact hown
    · exact h.own x (List.mem_cons_of_mem _ hx)
  · rcases List.mem_cons.mp hx with rfl | hx
    · cases hq
      exact Function.update_self _ _ _
    · have hxn : x.1 ≠ n := by
        intro he
        exact (List.nodup_cons.mp h.nodup).1 (List.mem_map.mpr ⟨x, hx, he⟩)
      rw [hother x.1 hxn]
      exact h.stored x (List.mem_cons_of_mem _ hx) q hq

/-- A linked node gets a new successor, which has been its inserter's and points to the old one. -/
theorem link_step {a n : Addr} (hi : Reached head s) (ha : s.Linked a)
    (hm : (s.heap.next a).marked = false) (hown : s.owner n = some t)
    (hn : s.heap.next n = .plain (s.heap.next a).ptr) :
    Reached head ⟨s.heap.setNext a (.plain (some n)), update s.owner n none⟩ ∧
      Lasting head t s ⟨s.heap.setNext a (.plain (some n)), update s.owner n none⟩ ∧
      Annotated.Linked ⟨s.heap.setNext a (.plain (some n)), update s.owner n none⟩ n := by
  obtain ⟨hi', hg, hself⟩ := hi.toInv.link ha hm hown
  have hne : ∀ b, s.Linked b → b ≠ n := by
    rintro b hb rfl
    rw [hb.2] at hown
    cases hown
  have hsucc : s.heap.succ n = s.heap.succ a := by
    simp only [Heap.succ, hn, Link.plain]
  have hna : n ≠ a := (hne a ha).symm
  have hreaches : ∀ b, s.heap.Reaches head b →
      (s.heap.setNext a (.plain (some n))).Reaches head b := by
    intro b hb
    show Reaches (s.heap.setNext a (.plain (some n))).succ head b
    rw [succ_setNext]
    exact hb.splice hsucc hna
  refine ⟨⟨hi', hg.linked _ hi.rooted, fun b hb hbm => ?_⟩, ⟨hg, fun v hv b hb => ?_,
    fun b hb hreach => ?_⟩, hself⟩
  · by_cases hbn : b = n
    · -- the new node comes right after `a`
      subst hbn
      refine (hreaches a (hi.live a ha hm)).tail ?_
      rw [succ_setNext]
      exact Function.update_self _ _ _
    · apply hreaches
      have hold : s.Linked b := ⟨hb.1, by simpa [hbn] using hb.2⟩
      apply hi.live b hold
      by_cases hba : b = a
      · rw [hba]
        exact hm
      · simpa [Heap.setNext, hba] using hbm
  · apply Function.update_of_ne
    rintro rfl
    rw [ha.2] at hb
    cases hb
  · have hreach : Reaches (update s.heap.succ a (some n)) head b :=
      succ_setNext s.heap a (.plain (some n)) ▸ hreach
    exact (hreach.of_splice hsucc hna).resolve_right (hne b hb)

/-- The compare-exchange that links a node of the thread. -/
theorem Spec.link {a n : Addr} {e : Link Addr} {k : Bool → Code Addr Key α}
    (he : e.marked = false) (ha : .linked a ∈ l)
    (hyes : Spec C head t M (.linked n :: l) (k true) m g)
    (hno : Spec C head t ((n, some e.ptr) :: M) l (k false) m g) :
    Spec C head t ((n, some e.ptr) :: M) l
      (.act (.casNextWeak a e (.plain (some n))) k) m g := by
  apply Spec.act (fun r => if r then M else (n, some e.ptr) :: M)
    (fun r => if r then [.linked n] else []) ?_ fun r => by cases r <;> assumption
  intro s b r h' hi h _ hact
  have hown : s.owner n = some t := h.own _ List.mem_cons_self
  simp only [Op.apply, Heap.compareExchange] at hact
  split at hact <;> cases hact
  · next hc =>
    obtain ⟨rfl, -⟩ := hc
    obtain ⟨hi', hg, hself⟩ :=
      link_step hi (h.knows _ ha) he hown (h.stored _ List.mem_cons_self _ rfl)
    have hne : ∀ x ∈ M, x.1 ≠ n := by
      intro x hx hxn
      exact (List.nodup_cons.mp h.nodup).1 (List.mem_map.mpr ⟨x, hx, hxn⟩)
    refine ⟨update s.owner n none, hi', hg, (List.nodup_cons.mp h.nodup).2, fun x hx => ?_,
      fun x hx p hp => ?_, fun f hf => ?_⟩
    · have hown' := h.own x (List.mem_cons_of_mem _ hx)
      simpa [hne x hx] using hown'
    · have hxa : x.1 ≠ a := by
        intro hxa
        have hlinked : s.Linked a := h.knows _ ha
        have hown' := h.own x (List.mem_cons_of_mem _ hx)
        rw [hxa, hlinked.2] at hown'
        cases hown'
      show update s.heap.next a _ x.1 = _
      rw [Function.update_of_ne hxa]
      exact h.stored x (List.mem_cons_of_mem _ hx) p hp
    · obtain rfl := List.mem_singleton.mp hf
      exact hself
  · exact ⟨s.owner, hi, Lasting.rfl, h.mono (.refl _) fun f hf => by cases hf⟩

/-- A new node belongs to the thread that made it. -/
theorem give_step {h : Heap Addr Key} {n : Addr} (hi : Reached head s)
    (hn : n ∉ s.heap.inUse) (hpick : h.pick = s.heap.pick) (hbucket : h.bucket = s.heap.bucket)
    (hnext : h.next = update s.heap.next n .null) (hinUse : h.inUse = insert n s.heap.inUse) :
    Reached head ⟨h, update s.owner n (some t)⟩ ∧
      Lasting head t s ⟨h, update s.owner n (some t)⟩ := by
  obtain ⟨hi', hg⟩ := hi.toInv.give (t := t) hn hpick hbucket hnext hinUse
  have hreaches : ∀ a, h.Reaches head a ↔ s.heap.Reaches head a := fun a =>
    reaches_write (fun hr => hn (hi.linked_of_reaches hr).1) hnext
  refine ⟨⟨hi', hg.linked _ hi.rooted, fun a ha hm => (hreaches a).mpr ?_⟩,
    ⟨hg, fun v hv a ha => ?_, fun a _ ha => (hreaches a).mp ha⟩⟩
  · obtain ⟨hin, hfree⟩ := ha
    have han : a ≠ n := by
      rintro rfl
      simp at hfree
    apply hi.live a
    · constructor
      · simpa [hinUse, han] using hin
      · simpa [han] using hfree
    · simpa [hnext, han] using hm
  · have han : a ≠ n := by
      rintro rfl
      rw [hi.unused a hn] at ha
      cases ha
    show h.next a = s.heap.next a
    rw [hnext]
    exact Function.update_of_ne han _ _

/-- A new block is the thread's own. -/
theorem Spec.allocNode {k : Addr → Code Addr Key α}
    (hk : ∀ d, Spec C head t ((d, none) :: M) l (k d) m g) :
    Spec C head t M l (.act .allocNode k) m g := by
  apply Spec.act (fun d => (d, none) :: M) (fun _ => []) ?_ hk
  intro s b d h' hi h _ hact
  cases hact
  have hnew := hi.pick s.heap.allocs s.heap.inUse
  set n := s.heap.pick s.heap.allocs s.heap.inUse
  obtain ⟨hi', hg⟩ := give_step (t := t) (h := s.heap.alloc.2) hi hnew rfl rfl rfl rfl
  have hne : ∀ x ∈ M, x.1 ≠ n := by
    intro x hx hxn
    have hown := h.own x hx
    rw [hxn, hi.unused n hnew] at hown
    cases hown
  refine ⟨_, hi', hg, List.nodup_cons.mpr ⟨fun hn => ?_, h.nodup⟩, fun x hx => ?_,
    fun x hx p hp => ?_, fun f hf => by cases hf⟩
  · obtain ⟨x, hx, hxn⟩ := List.mem_map.mp hn
    exact hne x hx hxn
  · rcases List.mem_cons.mp hx with rfl | hx
    · exact Function.update_self _ _ _
    · simpa [hne x hx] using h.own x hx
  · rcases List.mem_cons.mp hx with rfl | hx
    · cases hp
    · show update s.heap.next n .null x.1 = .plain p
      rw [Function.update_of_ne (hne x hx)]
      exact h.stored x hx p hp

omit [DecidableEq Addr] in
/-- A linked node is written to a bucket. -/
theorem setBucket_step {u i : Nat} {v : Option Addr} (hi : Reached head s)
    (hv : ∀ d, v = some d → s.Linked d) :
    Reached head ⟨s.heap.setBucket u i v, s.owner⟩ ∧
      Lasting head t s ⟨s.heap.setBucket u i v, s.owner⟩ := by
  obtain ⟨hi', hg⟩ := hi.toInv.setBucket (t := t) (u := u) (i := i) hv
  exact ⟨⟨hi', hi.rooted, hi.live⟩, ⟨hg, fun _ _ _ _ => rfl, fun _ _ ha => ha⟩⟩

/-- A cell is given nodes that are linked. -/
theorem Spec.storeBucket {u i : Nat} {v : Option Addr} {k : Unit → Code Addr Key α}
    (hv : links v ⊆ l) (hk : Spec C head t M l (k ()) m g) :
    Spec C head t M l (.act (.storeBucket u i v) k) m g := by
  apply Spec.act (fun _ => M) (fun _ => []) ?_ fun _ => hk
  intro s b r h' hi h _ hact
  cases hact
  obtain ⟨hi', hg⟩ := setBucket_step (t := t) (u := u) (i := i) (v := v) hi
    fun d hd => h.knows _ (hv (List.mem_map_of_mem (Option.mem_toList.mpr hd)))
  exact ⟨s.owner, hi', hg, h.keep (fun a ha => ⟨ha, rfl⟩) fun f hf => by cases hf⟩

/-- A cell is given a node that is linked, or stays as it is. -/
theorem Spec.casBucket {u i : Nat} {d : Addr} {k : Bool → Code Addr Key α} (hd : .linked d ∈ l)
    (hk : ∀ r, Spec C head t M l (k r) m g) : Spec C head t M l (.act (.casBucket u i d) k) m g := by
  apply Spec.act (fun _ => M) (fun _ => []) ?_ hk
  intro s b r h' hi h _ hact
  simp only [Op.apply] at hact
  split at hact <;> cases hact
  · obtain ⟨hi', hg⟩ := setBucket_step (t := t) (u := u) (i := i) (v := some d) hi
      fun c hc => Option.some.inj hc ▸ h.knows _ hd
    exact ⟨s.owner, hi', hg, h.keep (fun a ha => ⟨ha, rfl⟩) fun f hf => by cases hf⟩
  · exact ⟨s.owner, hi, Lasting.rfl, h.mono (.refl M) fun f hf => by cases hf⟩

end Rules

/-! ## The code -/

section Operations

variable {C} {head} {t : Nat} {M : List (Own Addr)} {l : List (Fact Addr)} {α : Type}

/-- What is known of a walk's place: `tagged` has been read from `prev`, and `cur` is its pointer. -/
def Place.facts (place : Place Addr) : List (Fact Addr) :=
  .linked place.1 :: .pure (place.2.2.ptr = place.2.1) :: links place.2.1

/-- What is known of a scan's place: `tagged` may still be null. -/
def Place.lax (place : Place Addr) : List (Fact Addr) :=
  .linked place.1 :: .pure (place.2.2.ptr = none ∨ place.2.2.ptr = place.2.1) ::
    links place.2.1

/-- The program comes to know the facts `g r`; it links none of the thread's own nodes. -/
abbrev Finds (C : Config Key) (head : Addr) (t : Nat) (M : List (Own Addr)) (l : List (Fact Addr))
    (p : Code Addr Key α) (g : α → List (Fact Addr)) : Prop :=
  Spec C head t M l p (fun _ => M) g

/-- The program may run. -/
abbrev Runs (C : Config Key) (head : Addr) (t : Nat) (M : List (Own Addr)) (l : List (Fact Addr))
    (p : Code Addr Key α) : Prop :=
  Finds C head t M l p fun _ => []

/-- A place of a walk is a place of a scan. -/
theorem Finds.lax {p : Code Addr Key (Place Addr)} (h : Finds C head t M l p Place.facts) :
    Finds C head t M l p Place.lax := by
  apply Spec.post h
  intro place s hs f hf
  simp only [Place.lax, List.mem_cons] at hf
  rcases hf with rfl | rfl | hf
  · exact hs _ (by simp [Place.facts])
  · have hptr : place.2.2.ptr = place.2.1 := hs (.pure _) (by simp [Place.facts])
    exact .inr hptr
  · exact hs f (by simp [Place.facts, hf])

/-- What only reads may run. -/
theorem closed_runs :
    Closed (fun {β} (o : Op Addr Key β) => o.Reads) fun _ p => Runs C head t M l p where
  ret _ := .ret (.refl M) (List.nil_subset l)
  act ho hk := .skip ho.calm hk
  bind hp hf := hp.bind hf

theorem runs_publish (slot : Nat) (a : Addr) : Runs C head t M l (publish C slot a) :=
  Reading.publish closed_runs slot a

/-- The pointer that is published is the one that has been read. -/
theorem finds_protectFrom (src : Addr) (slot : Nat) :
    Finds C head t M l (protectFrom C src slot) fun r =>
      .pure (r.2.ptr = r.1) :: links r.1 := by
  unfold protectFrom
  split
  · apply Spec.loop (fun _ => []) (by simp)
    intro _
    refine .loadNext fun r => .skip rfl fun _ => .skip rfl fun b => ?_
    rw [Prog.ret_bind]
    split
    · exact .learn (Eq.refl r.ptr) (.ret (.refl M) (by simp +contextual [loaded]))
    · exact .ret (.refl M) (by simp)
  · exact .loadNext fun r => .learn (Eq.refl r.ptr) (.ret (.refl M) (by simp +contextual [loaded]))

theorem runs_loadTable : Runs C head t M l (loadTable C) := by
  refine Reading.loadTable closed_runs fun body hbody => Spec.loop (fun _ => []) (by simp) fun x => ?_
  rw [Sum.elim_lam_const_lam_const, Sum.elim_lam_const_lam_const]
  exact hbody x

theorem finds_follow {prev : Addr} (hprev : .linked prev ∈ l) :
    Finds C head t M l (follow C prev) Place.facts := by
  refine (finds_protectFrom prev HP_CUR).bind fun r => .ret (.refl M) ?_
  simp [Place.facts, hprev]

/-- An iteration that helps comes back to the successor of the predecessor. -/
theorem finds_help {prev cur : Addr} {tagged rawNext : Link Addr} (hr : rawNext.marked = true)
    (hprev : .linked prev ∈ l) (hcur : .seen cur rawNext ∈ l)
    (hptr : tagged.ptr = none ∨ tagged.ptr = some cur) :
    Finds C head t M l (help C prev tagged rawNext) Place.facts :=
  .casNextWeak hr hprev hcur hptr fun _ => finds_follow hprev

theorem finds_advance {cur : Addr} (hcur : .linked cur ∈ l) :
    Finds C head t M l (advance C cur) Place.facts :=
  (runs_publish HP_PREV cur).bind fun _ => finds_follow (by simpa using hcur)

/-- A step over `cur`: it is helped away if it is marked, and else becomes the predecessor. -/
theorem finds_pass {prev cur : Addr} {tagged : Link Addr} (hprev : .linked prev ∈ l)
    (hcur : .linked cur ∈ l) (hptr : tagged.ptr = some cur) :
    Finds C head t M l (pass C prev cur tagged) Place.facts := by
  apply Spec.loadNext
  intro rawNext
  rw [Prog.ret_bind]
  split
  · next hr => exact finds_help hr (by simp [hprev]) (by simp [loaded]) (.inr hptr)
  · exact finds_advance (by simp [hcur])

/-- A walk from a linked node comes to linked nodes. -/
theorem finds_walk {d : Addr} (hd : .linked d ∈ l) (cmpKey : Word) :
    Finds C head t M l (walk C d cmpKey) Place.facts := by
  refine (runs_publish HP_PREV d).bind fun _ => ?_
  refine (finds_follow (by simpa using hd)).bind fun place => ?_
  apply Spec.loop Place.facts (by simp)
  intro place
  obtain ⟨prev, cur, tagged⟩ := place
  cases cur with
  | none => exact .ret (.refl M) (by simp)
  | some cur =>
    apply Spec.skip rfl
    intro so
    rw [Prog.ret_bind]
    split
    · exact .ret (.refl M) (by simp)
    · apply Spec.assume (φ := tagged.ptr = some cur) (by simp [Place.facts])
      intro hptr
      refine (finds_pass (by simp [Place.facts]) (by simp [Place.facts]) hptr).bind fun place => ?_
      exact .ret (.refl M) (by simp)

/-- A node of the thread is linked. -/
theorem links_insertFrom {start n : Addr} (hstart : .linked start ∈ l) :
    Spec C head t ((n, none) :: M) l (insertFrom C start n) (fun _ => M) fun _ => [.linked n] := by
  apply Spec.skip rfl
  intro so
  rw [Prog.ret_bind]
  apply Spec.loop (fun _ => []) (by simp)
  intro _
  refine (finds_walk (by simp [hstart]) so).bind fun place => ?_
  obtain ⟨prev, cur, tagged⟩ := place
  apply Spec.assume (φ := tagged.ptr = cur) (by simp [Place.facts])
  rintro rfl
  apply Spec.storeNext (by simp +contextual [Place.facts])
  rw [Prog.ret_bind]
  split
  · exact .ret (.blank ..) (by simp)
  · next hm =>
    apply Spec.link (by simpa using hm) (by simp [Place.facts])
    · exact .ret (.refl _) (by simp)
    · exact .ret (.blank ..) (by simp)

/-- The parent's dummy comes first, then the own one is linked behind it. -/
theorem runs_initializeBucketAt (u depth i : Nat) :
    Runs C head t M l (initializeBucketAt C u depth i) := by
  induction depth generalizing i l with
  | zero => exact .ret (.refl M) (by simp)
  | succ depth ih =>
    apply Spec.loadBucket
    intro r
    rw [Prog.ret_bind]
    split
    · exact .ret (.refl M) (by simp)
    · split
      -- first the bucket of the parent where `i` has one, then that of `i`
      case' isTrue => refine (ih (parentBucket i)).bind fun _ => ?_
      all_goals
        refine .allocNode fun d => .skip rfl fun _ => .loadBucket fun r => ?_
        cases r with
        | none => exact .skip rfl fun _ => .ret (.drop _ M) (by simp)
        | some start =>
          refine (links_insertFrom (by simp)).bind fun _ => ?_
          exact .casBucket (by simp) fun _ => .ret (.refl M) (by simp)

/-- Where a key belongs is between linked nodes. -/
theorem finds_locate (mixed cmpKey : Word) :
    Finds C head t M l (locate C mixed cmpKey) fun r => .linked r.1 :: links r.2 := by
  apply Spec.loop (fun _ => []) (by simp)
  intro _
  refine runs_loadTable.bind fun u => .skip rfl fun sz => .loadBucket fun r => ?_
  cases r with
  | none => exact (runs_initializeBucketAt u _ _).bind fun _ => .ret (.refl M) (by simp)
  | some d =>
    refine (finds_walk (by simp) cmpKey).bind fun place => ?_
    exact .ret (.refl M) (by simp +contextual [Place.facts])

/-! ### Runs of equal split-order keys -/

/-- A scan answers with a pair of linked nodes. -/
theorem finds_scanRun (sk : Word) (k : Key) {prev cur : Addr} (hprev : .linked prev ∈ l)
    (hcur : .linked cur ∈ l) :
    Finds C head t M l (scanRun C sk k prev cur) fun r =>
      r.toList.flatMap fun p => [.linked p.1, .linked p.2] := by
  -- `tagged` is null at first
  have hnull : (Link.null : Link Addr).ptr = none ∨ (Link.null : Link Addr).ptr = some cur := .inl rfl
  apply Spec.learn hnull
  apply Spec.loop Place.lax (by simp [Place.lax, hprev, hcur])
  intro place
  obtain ⟨rprev, rcur, tagged⟩ := place
  cases rcur with
  | none => exact .ret (.refl M) (by simp)
  | some rcur =>
    apply Spec.skip rfl
    intro so
    rw [Prog.ret_bind]
    split
    · exact .ret (.refl M) (by simp)
    · apply Spec.assume (φ := tagged.ptr = none ∨ tagged.ptr = some rcur) (by simp [Place.lax])
      intro hptr
      apply Spec.loadNext
      intro rnx
      rw [Prog.ret_bind]
      split
      · next hr =>
        refine (finds_help hr (by simp [Place.lax]) (by simp [loaded]) hptr).lax.bind
          fun place => ?_
        exact .ret (.refl M) (by simp)
      · apply Spec.skip rfl
        intro k'
        rw [Prog.ret_bind]
        split
        · exact .ret (.refl M) (by simp [Place.lax])
        · refine (finds_advance (by simp [Place.lax])).lax.bind fun place => ?_
          exact .ret (.refl M) (by simp)

theorem runs_headMatches (k : Key) (cur : Addr) (fnx : Link Addr) :
    Runs C head t M l (headMatches C k cur fnx) :=
  Reading.headMatches closed_runs k cur fnx

theorem runs_inRun (sk : Word) (k : Key) {prev : Addr} {cur : Option Addr}
    (hprev : .linked prev ∈ l) (hcur : links cur ⊆ l) :
    Runs C head t M l (inRun C sk k prev cur) := by
  cases cur with
  | none => exact .ret (.refl M) (by simp)
  | some cur =>
    apply Spec.skip rfl
    intro so
    rw [Prog.ret_bind]
    split
    · refine .loadNext fun fnx => (runs_headMatches k cur fnx).bind fun b => ?_
      split
      · exact .ret (.refl M) (by simp)
      · have hcur : .linked cur ∈ l := by simpa using hcur
        exact (finds_scanRun sk k (by simp [hprev]) (by simp [hcur])).bind fun r =>
          .ret (.refl M) (by simp)
    · exact .ret (.refl M) (by simp)

/-! ### The calls -/

/-- The node that an insertion brings is linked by it or given up. -/
theorem runs_insertNode (n : Addr) (mixed sk : Word) (k : Key) :
    Spec C head t [(n, none)] l (insertNode C n mixed sk k) (fun _ => []) fun _ => [] := by
  apply Spec.skip rfl
  intro _
  rw [Prog.ret_bind]
  apply Spec.loop (fun _ => []) (by simp)
  intro _
  refine (finds_locate mixed sk).bind fun place => ?_
  obtain ⟨prev, cur⟩ := place
  refine (runs_inRun sk k (by simp) (by simp +contextual)).bind fun dup => ?_
  split
  · exact .ret (.drop _ _) (by simp)
  · apply Spec.storeNext (by simp +contextual)
    apply Spec.loadNext
    intro e
    rw [Prog.ret_bind]
    split
    · exact .ret (.blank ..) (by simp)
    · next hm =>
      split
      · next hptr =>
        subst hptr
        apply Spec.link (by simpa using hm) (by simp)
        · exact .skip rfl fun _ => .ret (.refl _) (by simp)
        · exact .ret (.blank ..) (by simp)
      · exact .ret (.blank ..) (by simp)

theorem runs_findNode (k : Key) (mixed sk : Word) : Runs C head t M l (findNode C k mixed sk) := by
  refine (finds_locate mixed sk).bind fun place => ?_
  obtain ⟨prev, cur⟩ := place
  cases cur with
  | none => exact .ret (.refl M) (by simp)
  | some cur =>
    apply Spec.skip rfl
    intro so
    rw [Prog.ret_bind]
    split
    · exact .ret (.refl M) (by simp)
    · refine .loadNext fun rnx => (runs_headMatches k cur rnx).bind fun b => ?_
      split
      · exact .ret (.refl M) (by simp)
      · exact (finds_scanRun sk k (by simp) (by simp)).bind fun r => .ret (.refl M) (by simp)

/-- The second path looks for the predecessor of an erased node and unlinks it there. -/
theorem runs_relocate {target : Addr} (htarget : .erased target ∈ l) (mixed sk : Word) :
    Runs C head t M l (relocate C target mixed sk) := by
  apply Spec.loop (fun _ => []) (by simp)
  intro _
  refine (finds_locate mixed sk).bind fun place => ?_
  obtain ⟨p, c⟩ := place
  have hscan : Finds C head t M (.linked p :: links c ++ ([] ++ l))
      (iterate (pointerStep C target sk) (p, c)) links := by
    apply Spec.loop (fun st => .linked st.1 :: links st.2) (by simp +contextual)
    intro st
    obtain ⟨rp, rc⟩ := st
    cases rc with
    | none => exact .ret (.refl M) (by simp)
    | some rc =>
      apply Spec.skip rfl
      intro so
      rw [Prog.ret_bind]
      split
      · exact .ret (.refl M) (by simp)
      · split
        · exact .ret (.refl M) (by simp)
        · refine (finds_advance (by simp)).bind fun place => ?_
          exact .ret (.refl M) (by simp +contextual [Place.facts])
  refine hscan.bind fun r => ?_
  cases r with
  | none => exact .ret (.refl M) (by simp)
  | some rp =>
    apply Spec.loadErased (by simp [htarget])
    intro repl hrepl
    apply Spec.casNextWeak hrepl (by simp) (by simp [loaded]) (.inr rfl)
    intro b
    rw [Prog.ret_bind]
    split
    · exact .ret (.refl M) (by simp)
    · exact .ret (.refl M) (by simp)

/-- An erased node is unlinked at the first attempt, or on the second path, and retired. -/
theorem runs_finishErase {prev cur : Addr} (hprev : .linked prev ∈ l) (hcur : .erased cur ∈ l)
    (mixed sk : Word) : Runs C head t M l (finishErase C prev cur mixed sk) := by
  have hunlink : Runs C head t M l (unlinkMarked C prev cur mixed sk) := by
    apply Spec.loadErased hcur
    intro tnext htnext
    apply Spec.casNext htnext (by simp [hprev]) (by simp [loaded])
    intro b
    rw [Prog.ret_bind]
    split
    · exact .ret (.refl M) (by simp)
    · exact runs_relocate (by simp [hcur]) mixed sk
  exact hunlink.bind fun _ => .skip rfl fun _ => .skip rfl fun _ => .ret (.refl M) (by simp)

/-- If the mark is set, the node is erased. -/
theorem finds_markHead (k : Key) {cur : Addr} (hcur : .linked cur ∈ l) :
    Finds C head t M l (markHead C k cur) fun b => if b then [.erased cur] else [] := by
  apply Spec.loadNext
  intro fnx
  unfold headMatches
  rw [Prog.ret_bind]
  split
  · exact .ret (.refl M) (by simp)
  · next hm =>
    apply Spec.skip rfl
    intro k'
    simp only [Prog.pure_eq, Prog.ret_bind]
    split
    · apply Spec.mark (by simpa using hm) (by simp [hcur])
      · exact .ret (.refl M) (by simp)
      · exact .ret (.refl M) (by simp)
    · exact .ret (.refl M) (by simp)

/-- An erasure marks the head of the run or a node behind it, and then takes it out. -/
theorem runs_eraseNode (k : Key) (mixed sk : Word) : Runs C head t M l (eraseNode C k mixed sk) := by
  apply Spec.loop (fun _ => []) (by simp)
  intro _
  refine (finds_locate mixed sk).bind fun place => ?_
  obtain ⟨prev, cur⟩ := place
  cases cur with
  | none => exact .ret (.refl M) (by simp)
  | some cur =>
    apply Spec.skip rfl
    intro so
    rw [Prog.ret_bind]
    split
    · exact .ret (.refl M) (by simp)
    · refine (finds_markHead k (by simp)).bind fun b => ?_
      split
      · exact (runs_finishErase (by simp) (by simp) mixed sk).bind fun _ =>
          .ret (.refl M) (by simp)
      · refine (finds_scanRun sk k (by simp) (by simp)).bind fun r => ?_
        cases r with
        | none => exact .ret (.refl M) (by simp)
        | some p =>
          obtain ⟨rprev, rcur⟩ := p
          apply Spec.loadNext
          intro tnext
          rw [Prog.ret_bind]
          split
          · exact .ret (.refl M) (by simp)
          · next hm =>
            apply Spec.mark (by simpa using hm) (by simp)
            · rw [Prog.ret_bind, if_pos rfl]
              exact (runs_finishErase (by simp) (by simp) mixed sk).bind fun _ =>
                .ret (.refl M) (by simp)
            · exact .ret (.refl M) (by simp)

/-! ### Growth and iteration -/

theorem runs_roomyUnless (force : Bool) (u : Nat) :
    Runs C head t M l (if force then return false else isRoomy u) :=
  Reading.roomyUnless closed_runs force u

/-- What is copied from a cell is linked. -/
theorem runs_copyCells (u nt sz : Nat) : Runs C head t M l (copyCells u nt sz) := by
  apply Spec.loop (fun _ => []) (by simp)
  intro i
  simp only [Prog.bind_eq, Prog.pure_eq]
  split
  · exact .loadBucket fun d => .storeBucket (by simp +contextual) (.ret (.refl M) (by simp))
  · exact .ret (.refl M) (by simp)

/-- A growth copies cells of the published table. -/
theorem runs_growOnce (force : Bool) : Runs C head t M l (growOnce C force) := by
  apply Spec.skip rfl
  intro b
  rw [Prog.ret_bind]
  split
  · refine Spec.bind (m := fun _ => M) (g := fun _ => []) (.loop (fun _ => []) (by simp) fun _ => ?_)
      fun _ => .skip rfl fun _ => .ret (.refl M) (by simp)
    refine runs_loadTable.bind fun u => .skip rfl fun sz => ?_
    refine (runs_roomyUnless force u).bind fun roomy => ?_
    split
    · exact .ret (.refl M) (by simp)
    · split
      · exact .ret (.refl M) (by simp)
      · refine .skip rfl fun nt => (runs_copyCells u nt sz).bind fun _ => .skip rfl fun b => ?_
        rw [Prog.ret_bind]
        split
        · exact .skip rfl fun _ => .ret (.refl M) (by simp)
        · exact .skip rfl fun _ => .ret (.refl M) (by simp)
  · exact .ret (.refl M) (by simp)

theorem runs_maybeGrow : Runs C head t M l (maybeGrow C) :=
  Reading.maybeGrow closed_runs (runs_growOnce false)

theorem runs_describe (a : Addr) : Runs C head t M l (describe a : Code Addr Key (NodeInfo Key)) :=
  Reading.describe closed_runs a

theorem runs_firstNode : Runs C head t M l (firstNode C) := by
  refine runs_loadTable.bind fun u => .loadBucket fun r => ?_
  cases r with
  | none => exact .ret (.refl M) (by simp)
  | some d =>
    refine (runs_publish HP_PREV d).bind fun _ => (finds_follow (by simp)).bind fun place => ?_
    apply Spec.loop Place.facts (by simp)
    intro place
    obtain ⟨prev, cur, tagged⟩ := place
    cases cur with
    | none => exact .ret (.refl M) (by simp)
    | some cur =>
      apply Spec.assume (φ := tagged.ptr = some cur) (by simp [Place.facts])
      intro hptr
      apply Spec.loadNext
      intro rawNext
      rw [Prog.ret_bind]
      split
      · next hr =>
        refine (finds_help hr (by simp [Place.facts]) (by simp [loaded]) (.inr hptr)).bind
          fun place => ?_
        exact .ret (.refl M) (by simp)
      · apply Spec.skip rfl
        intro so
        rw [Prog.ret_bind]
        split
        · exact (runs_describe cur).bind fun _ => .ret (.refl M) (by simp)
        · refine (finds_advance (by simp [Place.facts])).bind fun place => ?_
          exact .ret (.refl M) (by simp)

/-- The first loop of `next_node` passes the run of its key. -/
theorem finds_skip (sk : Word) (k : Key) {place : Place Addr} (hplace : Place.lax place ⊆ l) :
    Finds C head t M l (iterate (skipStep C sk k) place) fun r => r.toList.flatMap Place.lax := by
  apply Spec.loop Place.lax hplace
  intro place
  obtain ⟨prev, cur, tagged⟩ := place
  cases cur with
  | none => exact .ret (.refl M) (by simp)
  | some cur =>
    apply Spec.assume (φ := tagged.ptr = none ∨ tagged.ptr = some cur) (by simp [Place.lax])
    intro hptr
    apply Spec.skip rfl
    intro so
    rw [Prog.ret_bind]
    split
    · exact .ret (.refl M) (by simp)
    · refine .loadNext fun rawNext => (runs_headMatches k cur rawNext).bind fun b => ?_
      split
      · exact .ret (.refl M) (by simp)
      · split
        · next hr =>
          refine (finds_help hr (by simp [Place.lax]) (by simp [loaded]) hptr).lax.bind
            fun place => ?_
          exact .ret (.refl M) (by simp)
        · refine (finds_advance (by simp [Place.lax])).lax.bind fun place => ?_
          exact .ret (.refl M) (by simp)

theorem runs_nextNode (mixed sk : Word) (k : Key) : Runs C head t M l (nextNode C mixed sk k) := by
  refine (finds_locate mixed sk).bind fun r => ?_
  obtain ⟨prev, cur⟩ := r
  have hnull : (Link.null : Link Addr).ptr = none ∨ (Link.null : Link Addr).ptr = cur := .inl rfl
  apply Spec.learn hnull
  refine (finds_skip sk k (by simp +contextual [Place.lax])).bind fun r => ?_
  cases r with
  | none => exact .ret (.refl M) (by simp)
  | some place =>
    apply Spec.loop Place.lax (by simp)
    intro place
    obtain ⟨prev, cur, tagged⟩ := place
    cases cur with
    | none => exact .skip rfl fun _ => .ret (.refl M) (by simp)
    | some cur =>
      apply Spec.assume (φ := tagged.ptr = none ∨ tagged.ptr = some cur) (by simp [Place.lax])
      intro hptr
      apply Spec.loadNext
      intro rawNext
      rw [Prog.ret_bind]
      split
      · next hr =>
        refine (finds_help hr (by simp [Place.lax]) (by simp [loaded]) hptr).lax.bind
          fun place => ?_
        exact .ret (.refl M) (by simp)
      · refine (finds_advance (by simp [Place.lax])).lax.bind fun place => ?_
        obtain ⟨prev, nxt, tagged⟩ := place
        cases nxt with
        | none => exact .ret (.refl M) (by simp)
        | some a =>
          apply Spec.skip rfl
          intro so
          rw [Prog.ret_bind]
          split
          · exact (runs_describe a).bind fun _ => .ret (.refl M) (by simp)
          · exact .ret (.refl M) (List.subset_append_left _ _)

end Operations

/-! ## Unlinked nodes stay unlinked -/

section Coverage

variable {C} {head} {t : Nat}

/-- Every call but `clear` runs, with the node that it brings. -/
theorem runs_code {c : Request Addr Key} (hc : c ≠ .clear) :
    Spec C head t (c.brings.map fun n => (n, none)) [] (c.code C) (fun _ => []) fun _ => [] := by
  cases c with
  | emplace n k =>
    refine (runs_insertNode n _ _ k).bind fun r => ?_
    split
    · exact runs_maybeGrow.bind fun _ => .ret (.refl _) (by simp)
    · exact .ret (.refl _) (by simp)
  | insert n k => exact (runs_insertNode n _ _ k).bind fun r => .ret (.refl _) (by simp)
  | erase k => exact (runs_eraseNode k _ _).bind fun r => .ret (.refl _) (by simp)
  | find k => exact (runs_findNode k _ _).bind fun r => .ret (.refl _) (by simp)
  | size => exact .skip rfl fun _ => .ret (.refl _) (by simp)
  | clear => exact absurd rfl hc
  | grow force => exact (runs_growOnce force).bind fun r => .ret (.refl _) (by simp)
  | first => exact runs_firstNode.bind fun r => .ret (.refl _) (by simp)
  | next mixed sk k => exact (runs_nextNode mixed sk k).bind fun r => .ret (.refl _) (by simp)

/-- The calls keep the list in order. -/
theorem unlinking_covers : (@unlinking Addr Key _ C head).Covers fun _ _ _ _ => True where
  respond t c r s hi _ := ⟨s, rfl, hi, Lasting.rfl⟩
  invoke t c s h hi hinvoke := by
    have hrun : ∀ a, c ≠ .clear → Reached head a →
        Has t (c.brings.map fun n => (n, none)) [] a →
        (unlinking C head).WP t (c.code C) (fun _ _ => True) a := fun a hc hi h =>
      (runs_code hc a hi h).mono fun _ _ _ _ => trivial
    have hcreate : ∀ n k, c.brings = [n] → c ≠ .clear → n ∉ s.heap.inUse →
        h = s.heap.create n k → ∃ a, a.heap = h ∧ Lasting head t s a ∧
          (unlinking C head).WP t (c.code C) (fun _ _ => True) a := by
      rintro n k hb hc hn rfl
      obtain ⟨hi', hg⟩ := give_step (t := t) (h := s.heap.create n k) hi hn rfl rfl rfl rfl
      refine ⟨_, rfl, hg, hrun _ hc hi' ?_⟩
      rw [hb]
      exact ⟨by simp, by simp, by simp, by simp⟩
    have hsame : c.brings = [] → c ≠ .clear → h = s.heap → ∃ a, a.heap = h ∧ Lasting head t s a ∧
        (unlinking C head).WP t (c.code C) (fun _ _ => True) a := by
      rintro hb hc rfl
      refine ⟨s, rfl, Lasting.rfl, hrun s hc hi ?_⟩
      rw [hb]
      exact ⟨by simp, by simp, by simp, by simp⟩
    cases c with
    | emplace n k =>
      simp only [list, unlinking] at hinvoke
      split at hinvoke <;> cases hinvoke
      next hn => exact hcreate n k rfl (by simp) hn rfl
    | insert n k =>
      simp only [list, unlinking] at hinvoke
      split at hinvoke <;> cases hinvoke
      next hn => exact hcreate n k rfl (by simp) hn rfl
    | clear => cases hinvoke
    | _ =>
      cases hinvoke
      exact hsame rfl (by simp) rfl

omit [DecidableEq Addr] in
/-- In an empty container the dummy is the only node. -/
theorem Reached.new (key : Addr → Key) (head : Addr) {pick : Nat → Finset Addr → Addr}
    (threshold : Nat → Nat) (hpick : ∀ n F, pick n F ∉ F) :
    Reached head ⟨Heap.new key head pick threshold, fun _ => none⟩ := by
  refine ⟨Inv.new key head threshold hpick, ⟨by simp [Heap.new], rfl⟩, fun a ha _ => ?_⟩
  obtain rfl : a = head := by simpa [Heap.new] using ha.1
  exact .refl

end Coverage

end Unlinked

open Unlinked in
/-- In every run in which no helper finds the MARKED pointer that it expects, or null where it
expects null and writes a pointer to a marked node, a marked node that is not reached from the dummy
of bucket 0 is never reached again. -/
theorem unlinked_permanent (C : Config Key) (key : Addr → Key) (head : Addr)
    (pick : Nat → Finset Addr → Addr) (threshold : Nat → Nat) (hpick : ∀ n F, pick n F ∉ F)
    (c c' : Conc.Config (Op Addr Key) (Heap Addr Key) (Request Addr Key) (Answer Addr Key))
    (hc : (list C).Reach HelpsListed (Heap.new key head pick threshold) c)
    (hlater : (list C).Later HelpsListed c c') (a : Addr)
    (ha : (c.shared.next a).marked = true) (hout : ¬ c.shared.Reaches head a) :
    ¬ c'.shared.Reaches head a := by
  let R (s s' : Annotated Addr Key) : Prop := ∀ a, (s.heap.next a).marked = true →
    (s'.heap.next a).marked = true ∧ (s'.heap.Reaches head a → s.heap.Reaches head a)
  have hguar : ∀ u s s', Reached head s → Reached head s' → Lasting head u s s' → R s s' := by
    intro u s s' hi _ hg a ha
    have hlinked : s.Linked a := by
      by_contra hnot
      rw [hi.unmarked a hnot] at ha
      cases ha
    exact ⟨hg.marked a ha ▸ ha, hg.back a hlinked⟩
  have htrans : ∀ s s' s'', R s s' → R s' s'' → R s s'' := by
    intro s s' s'' h h' a ha
    obtain ⟨ha', hback⟩ := h a ha
    obtain ⟨ha'', hback'⟩ := h' a ha'
    exact ⟨ha'', fun hr => hback (hback' hr)⟩
  obtain ⟨s, s', hs, hs', hR⟩ := Discipline.reach_later (D := unlinking C head) unlinking_covers
    (Reached.new key head threshold hpick) (fun s a ha => ⟨ha, id⟩) htrans hguar hc hlater
  have hs : s.heap = c.shared := hs
  have hs' : s'.heap = c'.shared := hs'
  rw [← hs] at ha hout
  rw [← hs']
  intro hr
  exact hout ((hR a ha).2 hr)

/-! ## A helper that links an unlinked node -/

open Label (whole)

/-- Nodes 1 and 2 are inserted. Thread 1 marks node 1; thread 0, which looks for it, finds the mark
and reads the pointer to node 2. Then thread 1 unlinks node 1, and thread 2 erases node 2. -/
def bothUnlinked : List (Label (Request Nat Nat)) :=
  whole 0 (.insert 1 0) 13 ++ whole 0 (.insert 2 11) 17 ++
    .call 1 (.erase 0) :: List.replicate 13 (.step 1 false) ++
    .call 0 (.find 0) :: List.replicate 13 (.step 0 false) ++ List.replicate 4 (.step 1 false) ++
    .call 2 (.erase 11) :: List.replicate 17 (.step 2 false)

/-- The helper expects null behind the dummy, finds it there, and links node 2 again. -/
theorem helper_links_unlinked :
    ¬ ∀ (C : Config Nat) (key : Nat → Nat) (head : Nat) (pick : Nat → Finset Nat → Nat)
      (threshold : Nat → Nat), (∀ n F, pick n F ∉ F) →
      ∀ c c' : Conc.Config (Op Nat Nat) (Heap Nat Nat) (Request Nat Nat) (Answer Nat Nat),
        (list C).Reachable (Heap.new key head pick threshold) c →
        (list C).Later SharedObject.anyAction c c' →
        ∀ a, (c.shared.next a).marked = true → ¬ c.shared.Reaches head a →
          ¬ c'.shared.Reaches head a := by
  intro hall
  have hrun : (((list epochal).exec (SharedObject.start (Heap.new id 0 nextBlock id))
      bothUnlinked).bind fun c => ((list epochal).exec c [.step 0 false]).map fun c' =>
        (c.shared.next 0, (c.shared.next 2).marked, c'.shared.next 0)) =
      some (.null, true, .plain (some 2)) := by
    decide +kernel
  obtain ⟨c, hc, hrest⟩ := Option.bind_eq_some_iff.mp hrun
  obtain ⟨c', hc', hval⟩ := Option.map_eq_some_iff.mp hrest
  simp only [Prod.mk.injEq] at hval
  obtain ⟨hfirst, hmarked, hlast⟩ := hval
  have hout : ¬ c.shared.Reaches 0 2 := by
    intro h
    have heq := h.eq_of_none (congrArg Link.ptr hfirst)
    cases heq
  apply hall epochal id 0 nextBlock id nextBlock_notMem c c' ((list epochal).reachable_exec _ hc)
    ((list epochal).later_execIf (fun _ _ _ _ => trivial) _ hc') 2 hmarked hout
  exact .single (congrArg Link.ptr hlast)

/-- `HelpsListed` as a test. -/
def helpsListedTest {β : Type} (t : Nat) (o : Op Nat Nat β) (h : Heap Nat Nat) : Bool :=
  helpsUnmarkedTest t o h &&
  match o with
  | .casNextWeak prev expected desired => !(expected.ptr = none && h.next prev = expected) ||
      desired.ptr.all fun b => !(h.next b).marked
  | _ => true

theorem helpsListedTest_sound {β : Type} (t : Nat) (o : Op Nat Nat β) (h : Heap Nat Nat)
    (ho : helpsListedTest t o h = true) : HelpsListed t o h := by
  obtain ⟨hunmarked, ho⟩ := Bool.and_eq_true_iff.mp ho
  refine ⟨helpsUnmarkedTest_sound t o h hunmarked, ?_⟩
  cases o
  case casNextWeak prev expected desired =>
    intro hnone hprev b hb
    simpa [hnone, hprev, hb] using ho
  all_goals trivial

/-- Both nodes are unlinked; the next node that is inserted comes right after the dummy. -/
theorem unlinked_permanent_run :
    ∃ c c' : Conc.Config (Op Nat Nat) (Heap Nat Nat) (Request Nat Nat) (Answer Nat Nat),
      (list epochal).Reach HelpsListed (Heap.new id 0 nextBlock id) c ∧
      (list epochal).Later HelpsListed c c' ∧ c'.shared.Reaches 0 3 ∧
      (c.shared.next 2).marked = true ∧ ¬ c.shared.Reaches 0 2 ∧ ¬ c'.shared.Reaches 0 2 := by
  have hrun : (((list epochal).execIf helpsListedTest
      (SharedObject.start (Heap.new id 0 nextBlock id)) bothUnlinked).bind fun c =>
        ((list epochal).execIf helpsListedTest c (.ret 1 :: whole 1 (.insert 3 1) 13)).map fun c' =>
          (c.shared.next 0, (c.shared.next 2).marked, c'.shared.next 0)) =
      some (.null, true, .plain (some 3)) := by
    decide +kernel
  obtain ⟨c, hc, hrest⟩ := Option.bind_eq_some_iff.mp hrun
  obtain ⟨c', hc', hval⟩ := Option.map_eq_some_iff.mp hrest
  simp only [Prod.mk.injEq] at hval
  obtain ⟨hfirst, hmarked, hlast⟩ := hval
  have hout : ¬ c.shared.Reaches 0 2 := by
    intro h
    have heq := h.eq_of_none (congrArg Link.ptr hfirst)
    cases heq
  have hreach := (list epochal).reach_execIf helpsListedTest_sound _ .start hc
  have hlater := (list epochal).later_execIf helpsListedTest_sound _ hc'
  exact ⟨c, c', hreach, hlater, .single (congrArg Link.ptr hlast), hmarked, hout,
    unlinked_permanent epochal id 0 nextBlock id nextBlock_notMem c c' hreach hlater 2 hmarked hout⟩

end MpmcMap.Unordered
