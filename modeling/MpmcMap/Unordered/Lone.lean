import Mathlib.Algebra.Order.BigOperators.Group.Finset
import MpmcMap.Unordered.Ranks

/-!
# Walks of a thread that is left alone

Pointers lead down the ranks of a finite set of nodes. A walk that finds the place where it stands
as it has read it steps onto the next node, or unlinks it if it is marked. Both bring it closer to
the end of the list, and unlinking makes the sum of the ranks of all successors smaller. A walk that
is resumed may stand at a place that has changed; after one step it does not.
-/

namespace MpmcMap.Unordered

open Conc
open Prog (perform iterate)
open Function (update)

variable {Addr Key : Type} [DecidableEq Addr]

/-- A walk that stands at `prev` and has just read its pointer. -/
def Heap.placeAt (h : Heap Addr Key) (prev : Addr) : Place Addr :=
  (prev, (h.next prev).ptr, h.next prev)

omit [DecidableEq Addr] in
/-- What comes after a listed node is listed. -/
theorem Heap.Listed.succ {h : Heap Addr Key} {a b : Addr} (ha : h.Listed a)
    (hb : h.succ a = some b) : h.Listed b := by
  obtain ⟨i, d, hd, hreach⟩ := ha
  exact ⟨i, d, hd, hreach.tail hb⟩

/-- A helper has tried to unlink the node whose pointer is `rawNext`. -/
def Heap.helped (h : Heap Addr Key) (prev : Addr) (tagged rawNext : Link Addr) : Heap Addr Key :=
  (h.compareExchange prev tagged rawNext.clearMark false).2

namespace Ranks

/-! ## Ranks -/

/-- The pointers of the nodes `L` lead to nodes of `L` of a smaller rank. -/
def Falls (L : Finset Addr) (r : Addr → Nat) (h : Heap Addr Key) : Prop :=
  ∀ a ∈ L, ∀ b, h.succ a = some b → b ∈ L ∧ r b < r a

/-- How many steps of the ranks there are from a node to the end of the list. -/
def depth (r : Addr → Nat) (p : Option Addr) : Nat := p.elim 0 (r · + 1)

/-- What each node of `L` has behind it, together. -/
def weight (L : Finset Addr) (r : Addr → Nat) (h : Heap Addr Key) : Nat :=
  ∑ a ∈ L, depth r (h.succ a)

open Classical in
/-- The nodes that are linked. -/
noncomputable def Dated.nodes (s : Dated Addr Key) : Finset Addr := s.heap.inUse.filter s.Linked

open Classical in
/-- How many linked nodes come after `a`. -/
noncomputable def Dated.rank (s : Dated Addr Key) (a : Addr) : Nat :=
  (s.nodes.filter (s.Before a)).card

variable {C : Config Key} {free : {β : Type} → Nat → Op Addr Key β → Heap Addr Key → Prop}
  {t : Nat} {s : Dated Addr Key} {L : Finset Addr} {r : Addr → Nat}
  {h h' h'' : Heap Addr Key} {a b d : Addr} {β : Type}

omit [DecidableEq Addr] in
theorem Dated.mem_nodes : a ∈ s.nodes ↔ s.Linked a := by
  simp only [Dated.nodes, Finset.mem_filter]
  exact ⟨And.right, fun ha => ⟨ha.1, ha⟩⟩

omit [DecidableEq Addr] in
/-- A later node has a smaller rank. -/
theorem Dated.rank_lt (hab : s.Before a b) : s.rank b < s.rank a := by
  classical
  apply Finset.card_lt_card
  rw [Finset.ssubset_iff_of_subset fun c hc => ?_]
  · refine ⟨b, Finset.mem_filter.mpr ⟨Dated.mem_nodes.mpr hab.right, hab⟩, fun hb => ?_⟩
    exact (Finset.mem_filter.mp hb).2.irrefl
  · obtain ⟨hc, hbc⟩ := Finset.mem_filter.mp hc
    exact Finset.mem_filter.mpr ⟨hc, hab.trans hbc⟩

omit [DecidableEq Addr] in
theorem Ranked.falls (hi : Ranked s) : Falls s.nodes s.rank s.heap := by
  intro a ha b hb
  have hbefore := hi.before a b (Dated.mem_nodes.mp ha) hb
  exact ⟨Dated.mem_nodes.mpr hbefore.right, Dated.rank_lt hbefore⟩

/-! ## One step -/

theorem lone_publish (slot : Nat) (a : Addr) :
    Alone C free t (fun _ h' => h' = h) (publish C slot a) h := by
  unfold publish
  split
  · exact .act rfl (.ret rfl)
  · exact .ret rfl

/-- Left alone, the pointer is still the one that was read. -/
theorem lone_protectFrom (src : Addr) (slot : Nat) :
    Alone C free t (fun x h' => h' = h ∧ x = ((h.next src).ptr, h.next src))
      (protectFrom C src slot) h := by
  unfold protectFrom
  split
  · refine .last (.act rfl (.act rfl (.act rfl ?_)))
    simp only [decide_true]
    exact .ret ⟨_, rfl, rfl, rfl⟩
  · exact .act rfl (.ret ⟨rfl, rfl⟩)

/-- Left alone, the table is still the one that was read. -/
theorem lone_loadTable : Alone C free t (fun x h' => h' = h ∧ x = h.table) (loadTable C) h := by
  refine .last (.act rfl ?_)
  rw [Prog.ret_bind]
  split
  · refine .act rfl (.act rfl ?_)
    simp only [decide_true]
    exact .ret ⟨_, rfl, rfl, rfl⟩
  · exact .ret ⟨_, rfl, rfl, rfl⟩

theorem lone_follow (prev : Addr) :
    Alone C free t (fun x h' => h' = h ∧ x = h.placeAt prev) (follow C prev) h := by
  refine (lone_protectFrom prev HP_CUR).bind ?_
  rintro _ _ ⟨rfl, rfl⟩
  exact .ret ⟨rfl, rfl⟩

/-- Left alone, the help unlinks the node if the pointer is the one that was read. -/
theorem lone_help (prev : Addr) (tagged rawNext : Link Addr) :
    Alone C free t (fun x h' => h' = h.helped prev tagged rawNext ∧ x = h'.placeAt prev)
      (help C prev tagged rawNext) h := by
  refine .act (x := h.helped prev tagged rawNext) rfl ((lone_follow prev).mono ?_)
  rintro _ _ ⟨rfl, rfl⟩
  exact ⟨rfl, rfl⟩

theorem lone_advance (cur : Addr) :
    Alone C free t (fun x h' => h' = h ∧ x = h.placeAt cur) (advance C cur) h := by
  refine (lone_publish HP_PREV cur).bind ?_
  rintro _ _ rfl
  exact lone_follow cur

/-- The walk goes on from `place` in `h` to `place'` in `h'`. -/
def Goes (h : Heap Addr Key) (place : Place Addr) (h' : Heap Addr Key) (place' : Place Addr) :
    Prop :=
  ∃ cur, place.2.1 = some cur ∧
    ((h.next cur).marked = false ∧ h' = h ∧ place' = h.placeAt cur ∨
      (h.next cur).marked = true ∧ h' = h.helped place.1 place.2.2 (h.next cur) ∧
        place' = h'.placeAt place.1)

/-- Left alone, a step over a node goes on or tidies up. -/
theorem lone_pass (prev cur : Addr) (tagged : Link Addr) :
    Alone C free t (fun x h' => Goes h (prev, some cur, tagged) h' x) (pass C prev cur tagged)
      h := by
  refine .act rfl ?_
  rw [Prog.ret_bind]
  split
  · next hm =>
    refine (lone_help prev tagged _).mono ?_
    rintro _ _ ⟨rfl, rfl⟩
    exact ⟨cur, rfl, .inr ⟨hm, rfl, rfl⟩⟩
  · next hm =>
    refine (lone_advance cur).mono ?_
    rintro _ _ ⟨rfl, rfl⟩
    exact ⟨cur, rfl, .inl ⟨by simpa using hm, rfl, rfl⟩⟩

/-- The loop goes through the list; it ends with `T`. -/
def Strolls (C : Config Key) (free : {β : Type} → Nat → Op Addr Key β → Heap Addr Key → Prop)
    (t : Nat) (body : Place Addr → Code Addr Key (Place Addr ⊕ β))
    (T : Place Addr → Heap Addr Key → β → Prop) : Prop :=
  ∀ place h, Alone C free t (fun x h' => Sum.elim (fun place' => Goes h place h' place')
    (fun b => h' = h ∧ T place h b) x) (body place) h

/-! ## What a walk changes -/

/-- Marked nodes have been unlinked from `L`. -/
structure Tidied (L : Finset Addr) (r : Addr → Nat) (h h' : Heap Addr Key) : Prop where
  rest : h' = { h with next := h'.next }
  outside : ∀ a, a ∉ L → h'.next a = h.next a
  unmarked : ∀ a, (h.next a).marked = false → (h'.next a).marked = false
  weight : h' = h ∨ weight L r h' < weight L r h

omit [DecidableEq Addr] in
theorem Tidied.rfl : Tidied L r h h :=
  ⟨Eq.refl h, fun _ _ => Eq.refl _, fun _ hm => hm, .inl (Eq.refl h)⟩

omit [DecidableEq Addr] in
/-- Tidying up twice. -/
theorem Tidied.trans (h1 : Tidied L r h h') (h2 : Tidied L r h' h'') : Tidied L r h h'' := by
  refine ⟨?_, fun a ha => (h2.outside a ha).trans (h1.outside a ha),
    fun a hm => h2.unmarked a (h1.unmarked a hm), ?_⟩
  · have hrest := h2.rest
    rw [h1.rest] at hrest
    exact hrest
  · rcases h2.weight with rfl | hlt
    · exact h1.weight
    · rcases h1.weight with rfl | hlt'
      · exact .inr hlt
      · exact .inr (Nat.lt_trans hlt hlt')

/-- The walk stands on nodes of `L`; under `φ` its predecessor is not marked, and is reached from
`d`. -/
structure OnWay (L : Finset Addr) (r : Addr → Nat) (d : Addr) (φ : Prop) (h : Heap Addr Key)
    (place : Place Addr) : Prop where
  falls : Falls L r h
  prev : place.1 ∈ L
  fresh : place = h.placeAt place.1
  known : φ → (h.next place.1).marked = false ∧ h.Reaches d place.1

variable {φ : Prop} {place place' : Place Addr} {v : Link Addr}

omit [DecidableEq Addr] in
theorem OnWay.start (hf : Falls L r h) (ha : a ∈ L) (hm : φ → (h.next a).marked = false) :
    OnWay L r a φ h (h.placeAt a) :=
  ⟨hf, ha, rfl, fun hφ => ⟨hm hφ, .refl⟩⟩

/-- A pointer to a node of smaller rank. -/
theorem Falls.setNext (hf : Falls L r h) (hv : ∀ b, v.ptr = some b → b ∈ L ∧ r b < r a) :
    Falls L r (h.setNext a v) := by
  intro c hc b hb
  rw [Unlinked.succ_setNext] at hb
  by_cases hca : c = a
  · rw [hca, Function.update_self] at hb
    exact hca ▸ hv b hb
  · rw [Function.update_of_ne hca] at hb
    exact hf c hc b hb

/-- A pointer that leads further makes the list lighter. -/
theorem weight_setNext (ha : a ∈ L) (hv : depth r v.ptr < depth r (h.succ a)) :
    weight L r (h.setNext a v) < weight L r h := by
  have hle : ∀ c, depth r ((h.setNext a v).succ c) ≤ depth r (h.succ c) := by
    intro c
    rw [Unlinked.succ_setNext]
    by_cases hca : c = a
    · rw [hca, Function.update_self]
      exact Nat.le_of_lt hv
    · rw [Function.update_of_ne hca]
  refine Finset.sum_lt_sum (fun c _ => hle c) ⟨a, ha, ?_⟩
  rw [Unlinked.succ_setNext, Function.update_self]
  exact hv

omit [DecidableEq Addr] in
theorem Falls.depth_lt (hf : Falls L r h) (ha : a ∈ L) : depth r (h.succ a) < depth r (some a) := by
  cases hb : h.succ a with
  | none => exact Nat.succ_pos _
  | some b => exact Nat.succ_lt_succ (hf a ha b hb).2

/-- Unlinking a marked node. -/
theorem helped_step {cur : Addr} (hf : Falls L r h) (hprev : a ∈ L) (hcur : h.succ a = some cur) :
    Falls L r (h.setNext a (h.next cur).clearMark) ∧
      Tidied L r h (h.setNext a (h.next cur).clearMark) := by
  obtain ⟨hcurL, hlt⟩ := hf a hprev cur hcur
  refine ⟨hf.setNext fun b hb => ?_, rfl, fun b hb => Function.update_of_ne ?_ _ _, fun b hb => ?_,
    .inr (weight_setNext hprev ?_)⟩
  · obtain ⟨hbL, hlt'⟩ := hf cur hcurL b hb
    exact ⟨hbL, Nat.lt_trans hlt' hlt⟩
  · rintro rfl
    exact hb hprev
  · show (update h.next a _ b).marked = false
    by_cases hba : b = a
    · rw [hba, Function.update_self]
      rfl
    · rw [Function.update_of_ne hba]
      exact hb
  · rw [hcur]
    exact hf.depth_lt hcurL

omit [DecidableEq Addr] in
theorem OnWay.succ {cur : Addr} (hw : OnWay L r d φ h place) (hcur : place.2.1 = some cur) :
    h.succ place.1 = some cur := by
  rw [hw.fresh] at hcur
  exact hcur

/-- A helper that has just read the pointer of its predecessor writes it. -/
theorem OnWay.helped (hw : OnWay L r d φ h place) (rawNext : Link Addr) :
    h.helped place.1 place.2.2 rawNext = h.setNext place.1 rawNext.clearMark := by
  have htagged : h.next place.1 = place.2.2 := by
    rw [hw.fresh]
    rfl
  rw [Heap.helped, Heap.compareExchange, if_pos ⟨htagged, rfl⟩]

/-- From a place that is as it was read the walk comes closer to the end. -/
theorem OnWay.goes (hw : OnWay L r d φ h place) (hg : Goes h place h' place') :
    OnWay L r d φ h' place' ∧ Tidied L r h h' ∧ depth r place'.2.1 < depth r place.2.1 := by
  obtain ⟨cur, hcur, hg⟩ := hg
  have hsucc := hw.succ hcur
  obtain ⟨hcurL, -⟩ := hw.falls place.1 hw.prev cur hsucc
  rw [hcur]
  rcases hg with ⟨hm, rfl, rfl⟩ | ⟨-, rfl, rfl⟩
  · refine ⟨⟨hw.falls, hcurL, rfl, fun hφ => ⟨hm, ?_⟩⟩, .rfl, hw.falls.depth_lt hcurL⟩
    exact (hw.known hφ).2.tail hsucc
  · obtain ⟨hf, htidied⟩ := helped_step hw.falls hw.prev hsucc
    rw [hw.helped]
    refine ⟨⟨hf, hw.prev, rfl, fun hφ => ⟨htidied.unmarked _ (hw.known hφ).1, ?_⟩⟩, htidied, ?_⟩
    · show Reaches (h.setNext place.1 (h.next cur).clearMark).succ d place.1
      rw [Unlinked.succ_setNext]
      exact (hw.known hφ).2.to_write _
    · show depth r (update h.next place.1 _ place.1).ptr < _
      rw [Function.update_self]
      exact hw.falls.depth_lt hcurL

variable {body : Place Addr → Code Addr Key (Place Addr ⊕ β)}
  {T : Place Addr → Heap Addr Key → β → Prop}

/-- A loop that goes on or tidies up comes to its end. -/
theorem stroll (hbody : Strolls C free t body T) (hw : OnWay L r d φ h place) :
    Alone C free t (fun b h' => ∃ place', T place' h' b ∧ OnWay L r d φ h' place' ∧ Tidied L r h h')
      (iterate body place) h := by
  refine SharedObject.Alone.iterate Nat.lt_wfRel.wf (I := fun i place h' =>
    depth r place.2.1 = i ∧ OnWay L r d φ h' place ∧ Tidied L r h h') ⟨rfl, hw, .rfl⟩ ?_
  rintro _ place h₁ ⟨rfl, hw, htidied⟩
  refine (hbody place h₁).mono fun x h₂ hx => ?_
  cases x with
  | inl place' =>
    obtain ⟨hw', htidied', hlt⟩ := hw.goes hx
    exact ⟨_, hlt, rfl, hw', htidied.trans htidied'⟩
  | inr b =>
    obtain ⟨rfl, hT⟩ := hx
    exact ⟨place, hT, hw, htidied⟩

/-- A walk that comes to such a place with its first step. -/
theorem stroll_from (hbody : Strolls C free t body T)
    (hfirst : ∀ h' place', Goes h place h' place' → OnWay L r d φ h' place' ∧ Tidied L r h h') :
    Alone C free t (fun b h' => (h' = h ∧ T place h b) ∨
      ∃ place', T place' h' b ∧ OnWay L r d φ h' place' ∧ Tidied L r h h')
      (iterate body place) h := by
  refine .unroll ((hbody place h).mono fun x h₁ hx => ?_)
  cases x with
  | inl place' =>
    obtain ⟨hw, htidied⟩ := hfirst h₁ place' hx
    refine (stroll hbody hw).mono ?_
    rintro b h₂ ⟨place'', hT, hw', htidied'⟩
    exact .inr ⟨place'', hT, hw', htidied.trans htidied'⟩
  | inr b => exact .inl hx

/-- A walk that is resumed anywhere ends. -/
theorem stroll_anywhere (hbody : Strolls C free t body T) (hf : Falls L r h) (hprev : place.1 ∈ L)
    (hcur : ∀ c, place.2.1 = some c → c ∈ L ∧ r c < r place.1) :
    Alone C free t (fun b h' => ∃ place', T place' h' b) (iterate body place) h := by
  refine .unroll ((hbody place h).mono fun x h₁ hx => ?_)
  cases x with
  | inr b =>
    obtain ⟨rfl, hT⟩ := hx
    exact ⟨place, hT⟩
  | inl place' =>
    obtain ⟨cur, hplace, hx⟩ := hx
    obtain ⟨hcurL, hlt⟩ := hcur cur hplace
    have hstart : ∀ a ∈ L, ∀ h', Falls L r h' →
        Alone C free t (fun b h' => ∃ place', T place' h' b) (iterate body (h'.placeAt a)) h' := by
      intro a ha h' hf
      refine (stroll hbody (OnWay.start (φ := False) hf ha False.elim)).mono ?_
      rintro b h'' ⟨place', hT, -, -⟩
      exact ⟨place', hT⟩
    rcases hx with ⟨-, rfl, rfl⟩ | ⟨-, rfl, rfl⟩
    · exact hstart cur hcurL h₁ hf
    · refine hstart place.1 hprev _ ?_
      simp only [Heap.helped, Heap.compareExchange]
      split
      · refine hf.setNext fun b hb => ?_
        obtain ⟨hbL, hlt'⟩ := hf cur hcurL b hb
        exact ⟨hbL, Nat.lt_trans hlt' hlt⟩
      · exact hf

/-! ## The loops of the walks -/

/-- A walk stops at the first node that is not below the key. -/
theorem strolls_walk (so : Word) :
    Strolls C free t (walkStep C so : Place Addr → Code Addr Key _) fun place h x => x = place ∧
      ∀ c, place.2.1 = some c → so ≤ h.soKey c := by
  rintro ⟨prev, cur, tagged⟩ h
  cases cur with
  | none => exact .ret ⟨rfl, rfl, fun _ hc => by cases hc⟩
  | some cur =>
    refine .act rfl ?_
    rw [Prog.ret_bind]
    split
    · next hle =>
      refine .ret ⟨rfl, rfl, fun c hc => ?_⟩
      cases hc
      exact hle
    · refine (lone_pass prev cur tagged).bind ?_
      intro x h' hx
      exact .ret hx

theorem lone_headMatches (k : Key) (cur : Addr) (fnx : Link Addr) :
    Alone C free t (fun x h' => h' = h ∧ (x = true → fnx.marked = false))
      (headMatches C k cur fnx) h := by
  unfold headMatches
  split
  · exact .ret ⟨rfl, fun hx => by cases hx⟩
  · next hm => exact .act rfl (.ret ⟨rfl, fun _ => by simpa using hm⟩)

/-- A scan that answers has found a node that is not marked. -/
theorem strolls_scan (sk : Word) (k : Key) :
    Strolls C free t (scanStep C sk k : Place Addr → Code Addr Key _) fun _ h x =>
      ∀ y, x = some y → (h.next y.2).marked = false := by
  rintro ⟨prev, cur, tagged⟩ h
  cases cur with
  | none => exact .ret ⟨rfl, fun _ hy => by cases hy⟩
  | some cur =>
    refine .act rfl ?_
    rw [Prog.ret_bind]
    split
    · exact .ret ⟨rfl, fun _ hy => by cases hy⟩
    · refine .act rfl ?_
      rw [Prog.ret_bind]
      split
      · next hm =>
        refine (lone_help prev tagged _).bind ?_
        rintro _ _ ⟨rfl, rfl⟩
        exact .ret ⟨cur, rfl, .inr ⟨hm, rfl, rfl⟩⟩
      · next hm =>
        refine .act rfl ?_
        rw [Prog.ret_bind]
        split
        · refine .ret ⟨rfl, fun y hy => ?_⟩
          cases hy
          simpa using hm
        · refine (lone_advance cur).bind ?_
          rintro _ _ ⟨rfl, rfl⟩
          exact .ret ⟨cur, rfl, .inl ⟨by simpa using hm, rfl, rfl⟩⟩

theorem lone_describe (a : Addr) :
    Alone C free t (fun _ h' => h' = h) (describe a : Code Addr Key (NodeInfo Key)) h :=
  .act rfl (.act rfl (.ret rfl))

/-- The search for the first element. -/
theorem strolls_first :
    Strolls C free t (firstStep C : Place Addr → Code Addr Key _) fun _ _ _ => True := by
  rintro ⟨prev, cur, tagged⟩ h
  cases cur with
  | none => exact .ret ⟨rfl, trivial⟩
  | some cur =>
    refine .act rfl ?_
    rw [Prog.ret_bind]
    split
    · next hm =>
      refine (lone_help prev tagged _).bind ?_
      rintro _ _ ⟨rfl, rfl⟩
      exact .ret ⟨cur, rfl, .inr ⟨hm, rfl, rfl⟩⟩
    · next hm =>
      refine .act rfl ?_
      rw [Prog.ret_bind]
      split
      · exact (lone_describe cur).bind fun _ _ hh => .ret ⟨hh, trivial⟩
      · refine (lone_advance cur).bind ?_
        rintro _ _ ⟨rfl, rfl⟩
        exact .ret ⟨cur, rfl, .inl ⟨by simpa using hm, rfl, rfl⟩⟩

/-- The first loop of `next_node`. -/
theorem strolls_skip (sk : Word) (k : Key) :
    Strolls C free t (skipStep C sk k : Place Addr → Code Addr Key _) fun _ _ _ => True := by
  rintro ⟨prev, cur, tagged⟩ h
  cases cur with
  | none => exact .ret ⟨rfl, trivial⟩
  | some cur =>
    refine .act rfl ?_
    rw [Prog.ret_bind]
    split
    · exact .ret ⟨rfl, trivial⟩
    · refine .act rfl ?_
      refine (lone_headMatches k cur _).bind ?_
      rintro b _ ⟨rfl, -⟩
      split
      · exact .ret ⟨rfl, trivial⟩
      · split
        · next hm =>
          refine (lone_help prev tagged _).bind ?_
          rintro _ _ ⟨rfl, rfl⟩
          exact .ret ⟨cur, rfl, .inr ⟨hm, rfl, rfl⟩⟩
        · next hm =>
          refine (lone_advance cur).bind ?_
          rintro _ _ ⟨rfl, rfl⟩
          exact .ret ⟨cur, rfl, .inl ⟨by simpa using hm, rfl, rfl⟩⟩

/-- The second loop of `next_node`. -/
theorem strolls_next (hfree : ∀ h : Heap Addr Key, ¬ free t .fault h) (sk : Word) :
    Strolls C free t (nextStep C sk : Place Addr → Code Addr Key _) fun _ _ _ => True := by
  rintro ⟨prev, cur, tagged⟩ h
  cases cur with
  | none => exact .barred (hfree h)
  | some cur =>
    refine .act rfl ?_
    rw [Prog.ret_bind]
    split
    · next hm =>
      refine (lone_help prev tagged _).bind ?_
      rintro _ _ ⟨rfl, rfl⟩
      exact .ret ⟨cur, rfl, .inr ⟨hm, rfl, rfl⟩⟩
    · next hm =>
      refine (lone_advance cur).bind ?_
      rintro ⟨prev', nxt, tagged'⟩ h' ⟨rfl, hplace⟩
      cases nxt with
      | none => exact .ret ⟨rfl, trivial⟩
      | some a =>
        refine .act rfl ?_
        rw [Prog.ret_bind]
        split
        · exact (lone_describe a).bind fun _ _ hh => .ret ⟨hh, trivial⟩
        · exact .ret ⟨cur, rfl, .inl ⟨by simpa using hm, rfl, hplace⟩⟩

/-- A walk from a dummy. -/
theorem lone_walk (so : Word) (hf : Falls L r h) (hd : d ∈ L) (hm : (h.next d).marked = false) :
    Alone C free t (fun place h' => OnWay L r d True h' place ∧ Tidied L r h h' ∧
      ∀ c, place.2.1 = some c → so ≤ h'.soKey c) (walk C d so) h := by
  refine (lone_publish HP_PREV d).bind ?_
  rintro _ _ rfl
  refine (lone_follow d).bind ?_
  rintro _ h ⟨rfl, rfl⟩
  refine (stroll (strolls_walk so) (OnWay.start (φ := True) hf hd fun _ => hm)).mono ?_
  rintro _ h' ⟨place, ⟨rfl, habove⟩, hw, htidied⟩
  exact ⟨hw, htidied, habove⟩

/-- The bucket of the hash has its dummy, which is in `L` and not marked. -/
def Rooted (L : Finset Addr) (mixed : Word) (h : Heap Addr Key) : Prop :=
  ∃ d ∈ L, h.bucket h.table (bucketOf mixed (h.size h.table)) = some d ∧ (h.next d).marked = false

/-- What a walk to a key has found. -/
structure Located (L : Finset Addr) (r : Addr → Nat) (so : Word) (h : Heap Addr Key)
    (x : Addr × Option Addr) : Prop where
  falls : Falls L r h
  prev : x.1 ∈ L
  next : h.next x.1 = .plain x.2
  listed : h.Listed x.1
  above : ∀ c, x.2 = some c → so ≤ h.soKey c

omit [DecidableEq Addr] in
/-- The dummies stay where they are. -/
theorem Tidied.rooted {mixed : Word} (ht : Tidied L r h h') (hr : Rooted L mixed h) :
    Rooted L mixed h' := by
  obtain ⟨d, hd, hbucket, hm⟩ := hr
  refine ⟨d, hd, ?_, ht.unmarked d hm⟩
  rw [ht.rest]
  exact hbucket

omit [DecidableEq Addr] in
theorem Tidied.listed (ht : Tidied L r h h') {b : Nat} (hd : h.bucket h.table b = some d)
    (ha : h'.Reaches d a) : h'.Listed a := by
  refine ⟨b, d, ?_, ha⟩
  rw [ht.rest]
  exact hd

/-- Left alone, `locate` finds the place of the key. -/
theorem lone_locate {mixed so : Word} (hf : Falls L r h) (hr : Rooted L mixed h) :
    Alone C free t (fun x h' => Located L r so h' x ∧ Tidied L r h h') (locate C mixed so) h := by
  obtain ⟨d, hd, hbucket, hm⟩ := hr
  refine .last (lone_loadTable.bind ?_)
  rintro _ h ⟨rfl, rfl⟩
  refine .act rfl (.act rfl ?_)
  simp only [hbucket]
  refine (lone_walk so hf hd hm).bind ?_
  rintro ⟨prev, cur, tagged⟩ h' ⟨hw, htidied, habove⟩
  obtain ⟨hunmarked, hreached⟩ := hw.known trivial
  have hcur : cur = (h'.next prev).ptr := congrArg (fun p => p.2.1) hw.fresh
  refine .ret ⟨_, rfl, ⟨hw.falls, hw.prev, ?_, htidied.listed hbucket hreached, habove⟩, htidied⟩
  rw [hcur, Link.plain, ← hunmarked]

/-! ## The scans of a run -/

/-- A scan of a run that begins where a walk to its key has ended. -/
theorem lone_scanRun {sk so : Word} {k : Key} {prev cur : Addr}
    (hl : Located L r so h (prev, some cur)) :
    Alone C free t (fun x h' => Falls L r h' ∧ Tidied L r h h' ∧
      ∀ y, x = some y → (h'.next y.2).marked = false) (scanRun C sk k prev cur) h := by
  have hnext : h.next prev = .plain (some cur) := hl.next
  have hfirst : ∀ h' place', Goes h (prev, some cur, .null) h' place' →
      OnWay L r prev False h' place' ∧ Tidied L r h h' := by
    rintro h' place' ⟨c, hc, hg⟩
    cases hc
    obtain ⟨hcurL, -⟩ := hl.falls prev hl.prev cur (congrArg Link.ptr hnext)
    rcases hg with ⟨-, rfl, rfl⟩ | ⟨-, rfl, rfl⟩
    · exact ⟨⟨hl.falls, hcurL, rfl, False.elim⟩, .rfl⟩
    · -- the pointer of the predecessor is not null, so the first help fails
      have hhelped : h.helped prev .null (h.next cur) = h := by
        rw [Heap.helped, Heap.compareExchange, if_neg]
        rintro ⟨heq, -⟩
        rw [hnext] at heq
        cases heq
      simp only [hhelped]
      exact ⟨⟨hl.falls, hl.prev, rfl, False.elim⟩, .rfl⟩
  refine (stroll_from (strolls_scan sk k) hfirst).mono ?_
  rintro x h' (⟨rfl, hx⟩ | ⟨place', hx, hw, htidied⟩)
  · exact ⟨hl.falls, .rfl, hx⟩
  · exact ⟨hw.falls, htidied, hx⟩

/-- Where a scan by pointer stands: either it has come here from a walk, or `rp` has the key of the
run. -/
structure Scans (sk : Word) (h : Heap Addr Key) (rp : Addr) (rc : Option Addr) : Prop where
  next : h.succ rp = rc
  listed : h.Listed rp
  unmarked : (h.next rp).marked = false ∨ h.soKey rp = sk

/-- Left alone, a scan by pointer ends and changes nothing. -/
theorem lone_pointerScan {sk : Word} {target rp : Addr} {rc : Option Addr} (hf : Falls L r h)
    (hc : ∀ c, rc = some c → c ∈ L) :
    Alone C free t (fun x h' => h' = h ∧ (Scans sk h rp rc → ∀ y, x = some y →
      Scans sk h y (some target) ∧ h.soKey target = sk))
      (iterate (pointerStep C target sk) (rp, rc)) h := by
  refine SharedObject.Alone.iterate Nat.lt_wfRel.wf (I := fun i st h' => depth r st.2 = i ∧ h' = h ∧
    (∀ c, st.2 = some c → c ∈ L) ∧ (Scans sk h rp rc → Scans sk h st.1 st.2))
    ⟨rfl, rfl, hc, id⟩ ?_
  rintro _ ⟨rp, rc⟩ _ ⟨rfl, rfl, hc, hscans⟩
  cases rc with
  | none => exact .ret ⟨rfl, fun _ y hy => by cases hy⟩
  | some rc =>
    refine .act rfl ?_
    rw [Prog.ret_bind]
    split
    · exact .ret ⟨rfl, fun _ y hy => by cases hy⟩
    · next hso =>
      replace hso := not_not.mp hso
      split
      · next heq =>
        refine .ret ⟨rfl, fun hs y hy => ?_⟩
        cases hy
        exact ⟨heq ▸ hscans hs, heq ▸ hso⟩
      · refine (lone_advance rc).bind ?_
        rintro _ h' ⟨rfl, rfl⟩
        have hrc := hc rc rfl
        refine .ret ⟨_, hf.depth_lt hrc, rfl, rfl, fun c hc => (hf rc hrc c hc).1, fun hs => ?_⟩
        exact ⟨rfl, (hscans hs).listed.succ (hscans hs).next, .inr hso⟩

end Ranks

end MpmcMap.Unordered
