import MpmcMap.Conc.Linear
import MpmcMap.Unordered.Entries

/-!
# The engine beside the record of its calls

All threads keep the list in order and the books right: a marked node is retired once, by the thread
that has marked it and after it has been unlinked, and the counter is the number of the entries but
for the threads that have not counted yet. Every call changes the entries at most once.

Where the split-order key of a key determines the key, all nodes but the first of their key are
marked, since an insertion has read the mark of the node before.
-/

namespace MpmcMap.Unordered

open Conc
open Function (update)

variable {Addr Key : Type}

namespace Entries

/-- The container with what is recorded of its calls: the nodes that are not linked yet and the
dates of the others, what the calls have seen and changed, the node that a thread has marked and not
retired yet, and the threads that have linked or marked an entry and not counted it yet. -/
structure Followed (Addr Key : Type) extends Aged Addr Key where
  moments : Moments (Request Addr Key) (Contents Addr Key)
  right : Nat → Option Addr
  credit : Finset Nat
  debit : Finset Nat

variable (C : Config Key) (head : Addr)

/-- What is in the list is in order, each node where its key is looked for, and the call of every
thread has made at most one change. -/
structure Told (s : Followed Addr Key) : Prop extends Shaped head s.toAged where
  size : ∀ t, ∃ j, j ≤ 30 ∧ s.heap.size t = 2 ^ j
  hashed : ∀ a, s.Linked a → isRegular (s.heap.soKey a) = true →
    s.heap.soKey a = C.splitKey (s.heap.key a)
  stale : C.Separates → ∀ a b, s.Before a b → isRegular (s.heap.soKey a) = true →
    s.heap.soKey a = s.heap.soKey b → (s.heap.next b).marked = true
  now : ∀ t, s.heap.entries head ∈ s.moments.seen t
  pending : C.Separates → ∀ t op, s.moments.call t = some op → s.moments.changes t = [] ∨
    ∃ x x' r, s.moments.changes t = [(x, x')] ∧ op.Does C x x' r

/-- Every marked node has been retired once, and is unlinked then, or is its eraser's to retire; and
the counter is right but for the threads that have not counted yet. -/
structure Booked (s : Followed Addr Key) : Prop where
  right : ∀ t a, s.right t = some a → (s.heap.next a).marked = true ∧ a ∉ s.heap.retired ∧
    ∀ u, s.right u = some a → u = t
  retired : ∀ a ∈ s.heap.retired, (s.heap.next a).marked = true ∧ ¬ s.heap.Reaches head a
  nodup : s.heap.retired.Nodup
  settled : ∀ a, (s.heap.next a).marked = true → a ∈ s.heap.retired ∨ ∃ t, s.right t = some a
  count : s.heap.count + s.credit.card = (s.heap.entries head).ncard + s.debit.card

/-- What a step of thread `u` may change. -/
structure Follows (u : Nat) (s s' : Followed Addr Key) : Prop
    extends Moves head u s.toAged s'.toAged where
  /-- A step does not both mark a node and add an entry. -/
  one : (∀ a, (s'.heap.next a).marked = true → (s.heap.next a).marked = true) ∨
    s'.heap.entries head ⊆ s.heap.entries head
  calls : ∀ v, v ≠ u → s.moments.seen v ⊆ s'.moments.seen v ∧
    s'.moments.changes v = s.moments.changes v ∧ s'.moments.call v = s.moments.call v
  books : ∀ v, v ≠ u → s'.right v = s.right v ∧ (v ∈ s'.credit ↔ v ∈ s.credit) ∧
    (v ∈ s'.debit ↔ v ∈ s.debit)

variable {C} {head} {s s' : Followed Addr Key} {a b n : Addr} {t : Nat}

theorem Follows.rfl : Follows head t s s :=
  ⟨Moves.rfl, .inl fun _ h => h, fun _ _ => ⟨subset_rfl, Eq.refl _, Eq.refl _⟩,
    fun _ _ => ⟨Eq.refl _, Iff.rfl, Iff.rfl⟩⟩

/-- A thread that has nothing to settle. -/
structure Idle (t : Nat) (s : Followed Addr Key) : Prop where
  right : s.right t = none
  credit : t ∉ s.credit
  debit : t ∉ s.debit

/-! ## Nodes of one key -/

/-- Of two live nodes the one with the smaller key leads to the other. -/
theorem Shaped.reaches_of_lt {s : Aged Addr Key} (hi : Shaped head s) (ha : s.Linked a)
    (ham : (s.heap.next a).marked = false) (hb : s.heap.Reaches head b)
    (hlt : s.heap.soKey a < s.heap.soKey b) : s.heap.Reaches a b :=
  hi.reaches_of_before ⟨ha, hi.linked_of_reaches hb, .inl hlt⟩ (hi.live a ha ham) hb

/-- Behind a node of a run all nodes of the run are marked. -/
theorem Told.marked_of_reaches (hi : Told C head s) (hC : C.Separates) (ha : s.Linked a)
    (hab : s.heap.Reaches a b) (hne : a ≠ b) (hreg : isRegular (s.heap.soKey a) = true)
    (hso : s.heap.soKey a = s.heap.soKey b) : (s.heap.next b).marked = true :=
  hi.stale hC a b ((hi.toInOrder.after ha hab).resolve_left hne) hreg hso

/-- Only one node of a run is live. -/
theorem Told.unique (hi : Told C head s) (hC : C.Separates) (ha : Live s.toAnnotated a)
    (hb : Live s.toAnnotated b) (hso : s.heap.soKey a = s.heap.soKey b) : a = b := by
  by_contra hne
  rcases reaches_total (hi.live a ha.linked ha.unmarked) (hi.live b hb.linked hb.unmarked) with
    hab | hba
  · have hm := hi.marked_of_reaches hC ha.linked hab hne ha.regular hso
    rw [hb.unmarked] at hm
    cases hm
  · have hm := hi.marked_of_reaches hC hb.linked hba (Ne.symm hne) hb.regular hso.symm
    rw [ha.unmarked] at hm
    cases hm

/-- The books stay right where no node is marked or retired. -/
theorem Booked.keep (hb : Booked head s) (hi : Shaped head s.toAged)
    (hg : Moves head t s.toAged s'.toAged)
    (hmarks : ∀ a, (s'.heap.next a).marked = (s.heap.next a).marked)
    (hretired : s'.heap.retired = s.heap.retired) (hright : s'.right = s.right)
    (hcount : s'.heap.count + s'.credit.card = (s'.heap.entries head).ncard + s'.debit.card) :
    Booked head s' := by
  constructor
  case right =>
    intro u a hu
    rw [hright] at hu
    obtain ⟨hm, hout, hone⟩ := hb.right u a hu
    rw [hretired, hright]
    exact ⟨(hmarks a).trans hm, hout, hone⟩
  case retired =>
    intro a ha
    rw [hretired] at ha
    obtain ⟨hm, hout⟩ := hb.retired a ha
    refine ⟨(hmarks a).trans hm, fun hreach => hout (hg.back a ?_ hreach)⟩
    by_contra hnot
    rw [hi.unmarked a hnot] at hm
    cases hm
  case nodup =>
    rw [hretired]
    exact hb.nodup
  case settled =>
    intro a ha
    rw [hretired, hright]
    exact hb.settled a ((hmarks a).symm.trans ha)
  case count => exact hcount

/-! ## Steps that leave the entries alone -/

/-- A step of thread `t` to `s'` marks no node and links at most dummies. -/
structure Still (head : Addr) (t : Nat) (s : Followed Addr Key) (s' : Aged Addr Key) : Prop where
  shaped : Shaped head s'
  moves : Moves head t s.toAged s'
  marks : ∀ a, (s'.heap.next a).marked = (s.heap.next a).marked
  fresh : ∀ a, s'.Linked a → s.Linked a ∨ isRegular (s'.heap.soKey a) = false
  size : ∀ t, ∃ j, j ≤ 30 ∧ s'.heap.size t = 2 ^ j

namespace Still

variable {s' : Aged Addr Key} {r : Nat → Option Addr} {c d : Finset Nat}

theorem entries (h : Still head t s s') (hi : Told C head s) :
    s'.heap.entries head = s.heap.entries head :=
  h.moves.entries_eq hi.toShaped h.shaped h.marks h.fresh

theorem moments (h : Still head t s s') (hi : Told C head s) :
    s.moments = s.moments.step t (s.heap.entries head) (s'.heap.entries head) := by
  rw [h.entries hi, Moments.step_now hi.now]

theorem told (h : Still head t s s') (hi : Told C head s) :
    Told C head ⟨s', s.moments, r, c, d⟩ := by
  have hold : ∀ a, s'.Linked a → isRegular (s'.heap.soKey a) = true → s.Linked a := by
    intro a ha hreg
    refine (h.fresh a ha).resolve_right fun hdummy => ?_
    rw [hreg] at hdummy
    cases hdummy
  constructor
  case toShaped => exact h.shaped
  case size => exact h.size
  case hashed =>
    intro a ha hreg
    have ha := hold a ha hreg
    have hso : s'.heap.soKey a = s.heap.soKey a := h.moves.soKey a ha
    have hkey : s'.heap.key a = s.heap.key a := (h.moves.inUse a ha.1).2
    show s'.heap.soKey a = C.splitKey (s'.heap.key a)
    rw [hso, hkey]
    exact hi.hashed a ha (hso ▸ hreg)
  case stale =>
    intro hC a b hab hreg hso
    have hab : s'.Before a b := hab
    have ha := hold a hab.left hreg
    have hb := hold b hab.right (by rw [← hso]; exact hreg)
    have hsoa : s'.heap.soKey a = s.heap.soKey a := h.moves.soKey a ha
    have hsob : s'.heap.soKey b = s.heap.soKey b := h.moves.soKey b hb
    show (s'.heap.next b).marked = true
    rw [h.marks]
    exact hi.stale hC a b (h.moves.of_before ha hb hab) (hsoa ▸ hreg)
      (by rw [← hsoa, ← hsob]; exact hso)
  case now =>
    intro u
    show s'.heap.entries head ∈ s.moments.seen u
    rw [h.entries hi]
    exact hi.now u
  case pending => exact hi.pending

theorem follows (h : Still head t s s')
    (hbooks : ∀ v, v ≠ t → r v = s.right v ∧ (v ∈ c ↔ v ∈ s.credit) ∧ (v ∈ d ↔ v ∈ s.debit)) :
    Follows head t s ⟨s', s.moments, r, c, d⟩ := by
  refine ⟨h.moves, .inl fun a ha => ?_, fun v _ => ⟨subset_rfl, Eq.refl _, Eq.refl _⟩, hbooks⟩
  rw [← h.marks a]
  exact ha

theorem booked (h : Still head t s s') (hb : Booked head s) (hi : Told C head s)
    (hretired : s'.heap.retired = s.heap.retired) (hcount : s'.heap.count = s.heap.count) :
    Booked head ⟨s', s.moments, s.right, s.credit, s.debit⟩ := by
  refine hb.keep hi.toShaped h.moves h.marks hretired rfl ?_
  show s'.heap.count + _ = ((s'.heap.entries head).ncard : Int) + _
  rw [hcount, h.entries hi]
  exact hb.count

/-- An access that writes no pointer and no key; tables may be made. -/
theorem of_calm {h' : Heap Addr Key} (hi : Told C head s) (hc : Calm s.heap h')
    (hso : h'.soKey = s.heap.soKey) (hkey : h'.key = s.heap.key)
    (hsize : ∀ t, ∃ j, j ≤ 30 ∧ h'.size t = 2 ^ j) : Still head t s (s.withHeap h') := by
  obtain ⟨hi', hg⟩ := calm_moves (t := t) hi.toShaped hc hso hkey
  exact ⟨hi', hg, fun a => congrArg Link.marked (congrFun hc.next a),
    fun a ha => .inl ⟨hc.inUse ▸ ha.1, ha.2⟩, hsize⟩

end Still

/-! ## Steps that change the entries -/

section Changes

variable {op : Request Addr Key} {x' : Contents Addr Key} {r : Answer Addr Key}

theorem changes_step {m : Moments (Request Addr Key) (Contents Addr Key)} {x : Contents Addr Key}
    (hne : x ≠ x') (hnone : m.changes t = []) : (m.step t x x').changes t = [(x, x')] := by
  rw [m.step_changes t hne, Function.update_self, hnone]
  rfl

/-- The change is the first of its call, and what the call does. -/
theorem Told.pending_step (hi : Told C head s) (hne : s.heap.entries head ≠ x')
    (hcall : s.moments.call t = some op) (hnone : C.Separates → s.moments.changes t = [])
    (hdoes : C.Separates → op.Does C (s.heap.entries head) x' r) (hC : C.Separates) (u : Nat)
    (op' : Request Addr Key)
    (hu : (s.moments.step t (s.heap.entries head) x').call u = some op') :
    (s.moments.step t (s.heap.entries head) x').changes u = [] ∨
      ∃ y y' r, (s.moments.step t (s.heap.entries head) x').changes u = [(y, y')] ∧
        op'.Does C y y' r := by
  by_cases hut : u = t
  · subst hut
    have hop : some op = some op' := hcall.symm.trans hu
    cases hop
    exact .inr ⟨_, _, r, changes_step hne (hnone hC), hdoes hC⟩
  · rw [s.moments.step_other _ _ hut]
    exact hi.pending hC u op' hu

theorem calls_step {m : Moments (Request Addr Key) (Contents Addr Key)} {x : Contents Addr Key}
    (v : Nat) (hv : v ≠ t) : m.seen v ⊆ (m.step t x x').seen v ∧
      (m.step t x x').changes v = m.changes v ∧ (m.step t x x').call v = m.call v :=
  ⟨Set.subset_insert _ _, m.step_other _ _ hv, rfl⟩

variable [DecidableEq Addr]

theorem entries_mark (hi : Shaped head s.toAged) (ha : Live s.toAnnotated a) :
    (s.heap.setNext a (s.heap.next a).setMarked).entries head =
      s.heap.entries head \ {(a, s.heap.key a)} := by
  obtain ⟨hshaped, -⟩ := mark_moves (t := 0) hi ha.linked ha.unmarked ha.regular
  ext e
  rw [Set.mem_sdiff, Set.mem_singleton_iff, mem_entries hi.toReached]
  refine (mem_entries (e := e) hshaped.toReached).trans ?_
  constructor
  · rintro ⟨⟨hlinked, hm, hreg⟩, hk⟩
    have hea : e.1 ≠ a := by
      rintro rfl
      have hm : (update s.heap.next e.1 (s.heap.next e.1).setMarked e.1).marked = false := hm
      rw [Function.update_self] at hm
      cases hm
    have hm : (update s.heap.next a (s.heap.next a).setMarked e.1).marked = false := hm
    rw [Function.update_of_ne hea] at hm
    refine ⟨⟨⟨hlinked, hm, hreg⟩, hk⟩, ?_⟩
    rintro rfl
    exact hea rfl
  · rintro ⟨⟨⟨hlinked, hm, hreg⟩, hk⟩, hne⟩
    have hea : e.1 ≠ a := by
      rintro rfl
      exact hne (Prod.ext rfl hk.symm)
    refine ⟨⟨hlinked, ?_, hreg⟩, hk⟩
    show (update s.heap.next a (s.heap.next a).setMarked e.1).marked = false
    rw [Function.update_of_ne hea]
    exact hm

/-- Thread `t` has marked the node `a`. -/
noncomputable def Followed.mark (head : Addr) (s : Followed Addr Key) (t : Nat) (a : Addr) :
    Followed Addr Key where
  toAged := s.withHeap (s.heap.setNext a (s.heap.next a).setMarked)
  moments := s.moments.step t (s.heap.entries head)
    ((s.heap.setNext a (s.heap.next a).setMarked).entries head)
  right := update s.right t (some a)
  credit := s.credit
  debit := insert t s.debit

theorem marked_iff {e : Addr} : ((s.mark head t a).heap.next e).marked = true ↔
    e = a ∨ (s.heap.next e).marked = true := by
  show (update s.heap.next a (s.heap.next a).setMarked e).marked = true ↔ _
  by_cases hea : e = a
  · rw [hea, Function.update_self]
    exact iff_of_true rfl (.inl rfl)
  · rw [Function.update_of_ne hea, or_iff_right hea]

omit [DecidableEq Addr] in
theorem entry_of_live (hi : Shaped head s.toAged) (ha : Live s.toAnnotated a) :
    (a, s.heap.key a) ∈ s.heap.entries head :=
  (mem_entries hi.toReached).mpr ⟨ha, rfl⟩

theorem mark_told (hi : Told C head s) (ha : Live s.toAnnotated a)
    (hcall : s.moments.call t = some op) (hnone : C.Separates → s.moments.changes t = [])
    (hdoes : C.Separates → op.Does C (s.heap.entries head)
      (s.heap.entries head \ {(a, s.heap.key a)}) r) :
    Told C head (s.mark head t a) := by
  obtain ⟨hshaped, hg⟩ := mark_moves (t := t) hi.toShaped ha.linked ha.unmarked ha.regular
  have hx := entries_mark hi.toShaped ha
  have hne : s.heap.entries head ≠ s.heap.entries head \ {(a, s.heap.key a)} := by
    intro he
    have hmem := entry_of_live hi.toShaped ha
    rw [he] at hmem
    exact hmem.2 rfl
  constructor
  case toShaped => exact hshaped
  case size => exact hi.size
  case hashed => exact hi.hashed
  case stale =>
    rintro hC b c ⟨hl, hr, hlt⟩ hreg hso
    exact marked_iff.mpr (.inr (hi.stale hC b c ⟨hl, hr, hlt⟩ hreg hso))
  case now => exact fun u => .inl rfl
  case pending =>
    intro hC u op' hu
    have hpending := hi.pending_step hne hcall hnone hdoes hC u op'
    rw [← hx] at hpending
    exact hpending hu

theorem mark_follows (hi : Told C head s) (ha : Live s.toAnnotated a) :
    Follows head t s (s.mark head t a) := by
  obtain ⟨-, hg⟩ := mark_moves (t := t) hi.toShaped ha.linked ha.unmarked ha.regular
  refine ⟨hg, .inr ?_, fun v hv => calls_step v hv, fun v hv => ⟨Function.update_of_ne hv _ _,
    Iff.rfl, ?_⟩⟩
  · show (s.heap.setNext a _).entries head ⊆ _
    rw [entries_mark hi.toShaped ha]
    exact Set.sdiff_subset
  · show v ∈ insert t s.debit ↔ _
    rw [Finset.mem_insert, or_iff_right hv]

theorem mark_booked (hb : Booked head s) (hi : Told C head s) (ha : Live s.toAnnotated a)
    (hidle : Idle t s) : Booked head (s.mark head t a) := by
  obtain ⟨-, hg⟩ := mark_moves (t := t) hi.toShaped ha.linked ha.unmarked ha.regular
  -- `a` is unmarked, and what is retired or owed for is marked
  have hnot : a ∉ s.heap.retired := by
    intro hmem
    have hm := (hb.retired a hmem).1
    rw [ha.unmarked] at hm
    cases hm
  have hright : ∀ u, s.right u ≠ some a := by
    intro u hu
    have hm := (hb.right u a hu).1
    rw [ha.unmarked] at hm
    cases hm
  constructor
  case right =>
    intro u e hu
    replace hu : update s.right t (some a) u = some e := hu
    by_cases hut : u = t
    -- the marker itself: nobody else has the right to `a`
    · rw [hut, Function.update_self] at hu
      obtain rfl := Option.some.inj hu
      refine ⟨marked_iff.mpr (.inl rfl), hnot, fun v hv => ?_⟩
      replace hv : update s.right t (some a) v = some a := hv
      by_contra hne
      rw [Function.update_of_ne (hut ▸ hne)] at hv
      exact hright v hv
    · rw [Function.update_of_ne hut] at hu
      obtain ⟨hm, hout, hone⟩ := hb.right u e hu
      refine ⟨marked_iff.mpr (.inr hm), hout, fun v hv => ?_⟩
      replace hv : update s.right t (some a) v = some e := hv
      by_cases hvt : v = t
      · rw [hvt, Function.update_self] at hv
        exact absurd (hu.trans hv.symm) (hright u)
      · rw [Function.update_of_ne hvt] at hv
        exact hone v hv
  case retired =>
    intro e he
    obtain ⟨hm, hout⟩ := hb.retired e he
    refine ⟨marked_iff.mpr (.inr hm), fun hreach => hout (hg.back e ?_ hreach)⟩
    by_contra hlinked
    rw [hi.unmarked e hlinked] at hm
    cases hm
  case nodup => exact hb.nodup
  case settled =>
    intro e he
    show _ ∨ ∃ u, update s.right t (some a) u = some e
    rcases marked_iff.mp he with rfl | hm
    · exact .inr ⟨t, Function.update_self _ _ _⟩
    · refine (hb.settled e hm).imp_right ?_
      rintro ⟨u, hu⟩
      refine ⟨u, (Function.update_of_ne ?_ _ _).trans hu⟩
      rintro rfl
      rw [hidle.right] at hu
      cases hu
  case count =>
    -- one entry fewer in the list, one debit more: the count stands still
    have hcard := Set.ncard_sdiff_singleton_add_one (entry_of_live hi.toShaped ha)
      (finite_entries hi.toReached)
    have hcount := hb.count
    show s.heap.count + (s.credit.card : Int) =
      (((s.heap.setNext a _).entries head).ncard : Int) + ((insert t s.debit).card : Int)
    rw [entries_mark hi.toShaped ha, Finset.card_insert_of_notMem hidle.debit]
    omega

/-! ### Linking -/

omit [DecidableEq Addr] in
/-- No node of the run is live if the pointer of a live node before it leads past the run or to a
marked node of it. -/
theorem Told.no_live {so : Word} {p : Option Addr} (hi : Told C head s) (hC : C.Separates)
    (ha : s.Linked a) (hlt : s.heap.soKey a < so) (hap : s.heap.next a = .plain p)
    (hp : ∀ c, p = some c →
      so < s.heap.soKey c ∨ s.heap.soKey c = so ∧ (s.heap.next c).marked = true)
    (hb : Live s.toAnnotated b) : s.heap.soKey b ≠ so := by
  rintro rfl
  have hm : (s.heap.next a).marked = false := by
    rw [hap]
    rfl
  have hab := hi.toShaped.reaches_of_lt ha hm (hi.live b hb.linked hb.unmarked) hlt
  rcases Relation.ReflTransGen.cases_head hab with rfl | ⟨c, hc, hcb⟩
  · exact BitVec.lt_irrefl _ hlt
  · have hac : (s.heap.next a).ptr = some c := hc
    have hlinked := hi.next a c hac
    rw [hap] at hac
    rcases hp c hac with hgt | ⟨heq, hcm⟩
    · rcases hi.toInOrder.after hlinked hcb with rfl | hbefore
      · exact BitVec.lt_irrefl _ hgt
      · exact absurd hgt (BitVec.not_lt.mpr hbefore.key_le)
    · have hcb' : c ≠ b := by
        rintro rfl
        rw [hb.unmarked] at hcm
        cases hcm
      have hbm := hi.marked_of_reaches hC hlinked hcb hcb' (heq ▸ hb.regular) heq
      rw [hb.unmarked] at hbm
      cases hbm

theorem linked_link {s : Aged Addr Key} (hi : Shaped head s) (hn : s.owner n = some t) :
    (s.link a n).Linked b ↔ b = n ∨ s.Linked b := by
  by_cases hbn : b = n
  · subst hbn
    refine iff_of_true ⟨?_, Function.update_self _ _ _⟩ (.inl rfl)
    by_contra hout
    rw [hi.unused b hout] at hn
    cases hn
  · rw [or_iff_right hbn]
    refine and_congr_right fun _ => ?_
    rw [show (s.link a n).owner b = s.owner b from Function.update_of_ne hbn _ _]

theorem marked_link {s : Aged Addr Key} {p : Option Addr} (hap : s.heap.next a = .plain p)
    (b : Addr) : ((s.link a n).heap.next b).marked = (s.heap.next b).marked := by
  show (update s.heap.next a (.plain (some n)) b).marked = _
  by_cases hba : b = a
  · rw [hba, Function.update_self, hap]
    rfl
  · rw [Function.update_of_ne hba]

/-- Thread `t` has linked its node `n` behind `a`. -/
noncomputable def Followed.linkNode (head : Addr) (s : Followed Addr Key) (t : Nat) (a n : Addr) :
    Followed Addr Key where
  toAged := s.toAged.link a n
  moments := s.moments.step t (s.heap.entries head)
    ((s.heap.setNext a (.plain (some n))).entries head)
  right := s.right
  credit := insert t s.credit
  debit := s.debit

/-- The node `n` of thread `t` belongs between `a` and `p`, and there is no entry of its key. -/
structure Fits (C : Config Key) (s : Followed Addr Key) (t : Nat) (a n : Addr) (p : Option Addr) :
    Prop where
  linked : s.Linked a
  lt : s.heap.soKey a < s.heap.soKey n
  next : s.heap.next a = .plain p
  owner : s.owner n = some t
  stored : s.heap.next n = .plain p
  above : ∀ c, p = some c → s.Linked c ∧ s.heap.soKey n ≤ s.heap.soKey c
  hashed : s.heap.soKey n = C.splitKey (s.heap.key n)
  passed : C.Separates → ∀ c, p = some c → s.heap.soKey n < s.heap.soKey c ∨
    s.heap.soKey c = s.heap.soKey n ∧ (s.heap.next c).marked = true

variable {p : Option Addr}

theorem Fits.moves (h : Fits C s t a n p) (hi : Shaped head s.toAged) :
    Shaped head (s.toAged.link a n) ∧ Moves head t s.toAged (s.toAged.link a n) :=
  link_moves hi h.linked h.lt h.next h.owner rfl h.stored h.above

omit [DecidableEq Addr] in
theorem Fits.regular (h : Fits C s t a n p) : isRegular (s.heap.soKey n) = true := by
  rw [h.hashed]
  exact isRegular_soKeyOf _

theorem entries_link (hi : Shaped head s.toAged) (h : Fits C s t a n p) :
    (s.heap.setNext a (.plain (some n))).entries head =
      s.heap.entries head ∪ {(n, s.heap.key n)} := by
  obtain ⟨hshaped, -⟩ := h.moves hi
  have hnot := Aged.not_linked h.owner
  ext e
  rw [Set.mem_union, Set.mem_singleton_iff, mem_entries hi.toReached]
  refine (mem_entries (e := e) hshaped.toReached).trans ?_
  constructor
  · rintro ⟨⟨hlinked, hm, hreg⟩, hk⟩
    rcases (linked_link hi h.owner).mp hlinked with hen | hold
    · exact .inr (Prod.ext hen (hen ▸ hk.symm))
    · exact .inl ⟨⟨hold, (marked_link h.next e.1).symm.trans hm, hreg⟩, hk⟩
  · rintro (⟨⟨hlinked, hm, hreg⟩, hk⟩ | rfl)
    · exact ⟨⟨(linked_link hi h.owner).mpr (.inr hlinked), (marked_link h.next e.1).trans hm, hreg⟩,
        hk⟩
    · exact ⟨⟨(linked_link hi h.owner).mpr (.inl rfl),
        (marked_link h.next n).trans (hi.unmarked n hnot), h.regular⟩, rfl⟩

omit [DecidableEq Addr] in
theorem Fits.not_entry (h : Fits C s t a n p) (hi : Shaped head s.toAged) (k : Key) :
    (n, k) ∉ s.heap.entries head := fun hmem =>
  Aged.not_linked h.owner ((mem_entries hi.toReached).mp hmem).1.linked

theorem link_told (hi : Told C head s) (h : Fits C s t a n p)
    (hcall : s.moments.call t = some op) (hnone : C.Separates → s.moments.changes t = [])
    (hdoes : C.Separates → op.Does C (s.heap.entries head)
      (s.heap.entries head ∪ {(n, s.heap.key n)}) r) :
    Told C head (s.linkNode head t a n) := by
  obtain ⟨hshaped, hg⟩ := h.moves hi.toShaped
  have hx := entries_link hi.toShaped h
  have hne : s.heap.entries head ≠ s.heap.entries head ∪ {(n, s.heap.key n)} := by
    intro he
    apply h.not_entry hi.toShaped (s.heap.key n)
    rw [he]
    exact .inr rfl
  have hlinked : ∀ b, (s.toAged.link a n).Linked b ↔ b = n ∨ s.Linked b := fun b =>
    linked_link hi.toShaped h.owner
  constructor
  case toShaped => exact hshaped
  case size => exact hi.size
  case hashed =>
    intro b hb hreg
    rcases (hlinked b).mp hb with rfl | hold
    · exact h.hashed
    · exact hi.hashed b hold hreg
  case stale =>
    intro hC b c hbc hreg hso
    replace hbc : (s.toAged.link a n).Before b c := hbc
    replace hso : s.heap.soKey b = s.heap.soKey c := hso
    refine (marked_link h.next c).trans ?_
    rcases (hlinked c).mp hbc.right with rfl | hc
    · -- the new node is the first of its run
      have hb := ((hlinked b).mp hbc.left).resolve_left hbc.ne
      rcases hbc.lt with hlt | ⟨-, hlt⟩
      · have hlt : s.heap.soKey b < s.heap.soKey c := hlt
        exact absurd hso (BitVec.ne_of_lt hlt)
      · rw [Aged.link_date h.owner hb] at hlt
        have hdate : (s.toAged.link a c).date c = s.heap.inUse.sup s.date + 1 :=
          Function.update_self _ _ _
        have hle : s.date b ≤ s.heap.inUse.sup s.date := Finset.le_sup hb.1
        omega
    · rcases (hlinked b).mp hbc.left with rfl | hb
      · by_contra hm
        have hlive : Live s.toAnnotated c :=
          ⟨hc, Bool.eq_false_iff.mpr hm, hso ▸ h.regular⟩
        exact hi.no_live hC h.linked h.lt h.next (h.passed hC) hlive hso.symm
      · exact hi.stale hC b c (hg.of_before hb hc hbc) hreg hso
  case now => exact fun u => .inl rfl
  case pending =>
    intro hC u op' hu
    have hpending := hi.pending_step hne hcall hnone hdoes hC u op'
    rw [← hx] at hpending
    exact hpending hu

theorem link_follows (hi : Told C head s) (h : Fits C s t a n p) :
    Follows head t s (s.linkNode head t a n) := by
  obtain ⟨-, hg⟩ := h.moves hi.toShaped
  refine ⟨hg, .inl fun b hb => ?_, fun v hv => calls_step v hv, fun v hv => ⟨rfl, ?_, Iff.rfl⟩⟩
  · exact (marked_link h.next b).symm.trans hb
  · show v ∈ insert t s.credit ↔ _
    rw [Finset.mem_insert, or_iff_right hv]

theorem link_booked (hb : Booked head s) (hi : Told C head s) (h : Fits C s t a n p)
    (hidle : Idle t s) : Booked head (s.linkNode head t a n) := by
  obtain ⟨-, hg⟩ := h.moves hi.toShaped
  refine hb.keep hi.toShaped hg (marked_link h.next) rfl rfl ?_
  have hcount := hb.count
  show s.heap.count + ((insert t s.credit).card : Int) =
    (((s.heap.setNext a _).entries head).ncard : Int) + (s.debit.card : Int)
  rw [entries_link hi.toShaped h, Finset.card_insert_of_notMem hidle.credit, Set.union_singleton,
    Set.ncard_insert_of_notMem (h.not_entry hi.toShaped _) (finite_entries hi.toReached)]
  omega

end Changes

/-! ## Counting and retiring -/

section Books

theorem still_count (hi : Told C head s) (n : Int) :
    Still head t s (s.withHeap { s.heap with count := n }) :=
  .of_calm hi ⟨rfl, fun _ _ _ h => h, rfl, rfl⟩ rfl rfl hi.size

theorem still_retire (hi : Told C head s) (l : List Addr) :
    Still head t s (s.withHeap { s.heap with retired := l }) :=
  .of_calm hi ⟨rfl, fun _ _ _ h => h, rfl, rfl⟩ rfl rfl hi.size

/-- Thread `t` counts the entry that it has linked. -/
theorem addCount_booked (hb : Booked head s) (hi : Told C head s) (ht : t ∈ s.credit) :
    Booked head ⟨s.withHeap { s.heap with count := s.heap.count + 1 }, s.moments, s.right,
      s.credit.erase t, s.debit⟩ := by
  have hstill := still_count (t := t) hi (s.heap.count + 1)
  refine hb.keep hi.toShaped hstill.moves hstill.marks rfl rfl ?_
  have hcard := Finset.card_erase_add_one ht
  have hcount := hb.count
  show s.heap.count + 1 + ((s.credit.erase t).card : Int) =
    ((Heap.entries head (s.withHeap { s.heap with count := s.heap.count + 1 }).heap).ncard : Int) +
      (s.debit.card : Int)
  rw [hstill.entries hi]
  omega

/-- Thread `t` counts the entry that it has marked. -/
theorem subCount_booked (hb : Booked head s) (hi : Told C head s) (ht : t ∈ s.debit) :
    Booked head ⟨s.withHeap { s.heap with count := s.heap.count - 1 }, s.moments, s.right,
      s.credit, s.debit.erase t⟩ := by
  have hstill := still_count (t := t) hi (s.heap.count - 1)
  refine hb.keep hi.toShaped hstill.moves hstill.marks rfl rfl ?_
  have hcard := Finset.card_erase_add_one ht
  have hcount := hb.count
  show s.heap.count - 1 + (s.credit.card : Int) =
    ((Heap.entries head (s.withHeap { s.heap with count := s.heap.count - 1 }).heap).ncard : Int) +
      ((s.debit.erase t).card : Int)
  rw [hstill.entries hi]
  omega

/-- Thread `t` retires the node that it has marked. -/
theorem retire_booked (hb : Booked head s) (hi : Told C head s) (ht : s.right t = some a)
    (hout : ¬ s.heap.Reaches head a) :
    Booked head ⟨s.withHeap { s.heap with retired := s.heap.retired ++ [a] }, s.moments,
      update s.right t none, s.credit, s.debit⟩ := by
  have hstill := still_retire (t := t) hi (s.heap.retired ++ [a])
  obtain ⟨hm, hnew, hone⟩ := hb.right t a ht
  -- the rights that are left are of other threads and to other nodes
  have hother : ∀ u b, update s.right t none u = some b → s.right u = some b ∧ b ≠ a := by
    intro u b hu
    have hut : u ≠ t := by
      rintro rfl
      rw [Function.update_self] at hu
      cases hu
    rw [Function.update_of_ne hut] at hu
    refine ⟨hu, ?_⟩
    rintro rfl
    exact hut (hone u hu)
  constructor
  case right =>
    intro u b hu
    obtain ⟨hub, hba⟩ := hother u b hu
    obtain ⟨hbm, hbout, hbone⟩ := hb.right u b hub
    refine ⟨hbm, fun hmem => ?_, fun v hv => hbone v (hother v b hv).1⟩
    rcases List.mem_append.mp hmem with hmem | hmem
    · exact hbout hmem
    · exact hba (List.mem_singleton.mp hmem)
  case retired =>
    intro b hmem
    rcases List.mem_append.mp hmem with hmem | hmem
    · exact hb.retired b hmem
    · rw [List.mem_singleton.mp hmem]
      exact ⟨hm, hout⟩
  case nodup =>
    refine List.nodup_append.mpr ⟨hb.nodup, List.nodup_singleton a, fun b hmem c hc => ?_⟩
    rw [List.mem_singleton.mp hc]
    rintro rfl
    exact hnew hmem
  case settled =>
    intro b hbm
    show b ∈ s.heap.retired ++ [a] ∨ ∃ u, update s.right t none u = some b
    rcases hb.settled b hbm with hmem | ⟨u, hu⟩
    · exact .inl (List.mem_append_left _ hmem)
    · by_cases hut : u = t
      · rw [hut, ht] at hu
        rw [Option.some.inj hu]
        exact .inl (List.mem_append_right _ (List.mem_singleton_self b))
      · exact .inr ⟨u, (Function.update_of_ne hut _ _).trans hu⟩
  case count =>
    show s.heap.count + _ = ((Heap.entries head (s.withHeap { s.heap with
      retired := s.heap.retired ++ [a] }).heap).ncard : Int) + _
    rw [hstill.entries hi]
    exact hb.count

end Books

/-! ## Calls -/

section Calls

variable {op : Request Addr Key}

/-- Thread `t` has called `op`. -/
def Followed.enter (head : Addr) (s : Followed Addr Key) (t : Nat) (op : Request Addr Key) :
    Followed Addr Key :=
  { s with moments := s.moments.enter t op (s.heap.entries head) }

theorem enter_told (hi : Told C head s) : Told C head (s.enter head t op) := by
  constructor
  case toShaped => exact hi.toShaped
  case size => exact hi.size
  case hashed => exact hi.hashed
  case stale => exact hi.stale
  case now =>
    intro u
    show s.heap.entries head ∈ update s.moments.seen t {s.heap.entries head} u
    by_cases hut : u = t
    · rw [hut, Function.update_self]
      exact rfl
    · rw [Function.update_of_ne hut]
      exact hi.now u
  case pending =>
    intro hC u op' hu
    show update s.moments.changes t [] u = [] ∨ ∃ x x' r, update s.moments.changes t [] u = _ ∧ _
    by_cases hut : u = t
    · rw [hut, Function.update_self]
      exact .inl rfl
    · replace hu : update s.moments.call t (some op) u = some op' := hu
      rw [Function.update_of_ne hut] at hu ⊢
      exact hi.pending hC u op' hu

theorem enter_booked (hb : Booked head s) : Booked head (s.enter head t op) :=
  ⟨hb.right, hb.retired, hb.nodup, hb.settled, hb.count⟩

theorem enter_follows {s' : Followed Addr Key} (hg : Follows head t s s') :
    Follows head t s (s'.enter head t op) := by
  refine ⟨hg.toMoves, hg.one, fun v hv => ?_, hg.books⟩
  obtain ⟨h1, h2, h3⟩ := hg.calls v hv
  exact ⟨h1.trans (Function.update_of_ne hv _ _).symm.subset,
    (Function.update_of_ne hv _ _).trans h2, (Function.update_of_ne hv _ _).trans h3⟩

end Calls

end Entries

end MpmcMap.Unordered
