import MpmcMap.Reclaim.DrainAll
import Mathlib.Data.Finset.Prod

/-!
# What a scan keeps

While the registry and the hazards stay as they are, `scan` keeps exactly the objects that slots in
the registry publish. There are at most as many of these as there are hazards, so the list of a
thread stays short.
-/

namespace MpmcMap.Reclaim.Hazard

open Conc SharedObject Account
open Function (update)
open Handover (Publishes)

variable {t n : Nat} {s s₀ : State}

/-! ## Counting -/

/-- The slots in use that the registry leads to. -/
def registeredSlots (s : State) : Finset Nat :=
  ((List.range s.count).filterMap s.entries).toFinset.filter fun i => s.owner i ≠ 0

theorem mem_registeredSlots {i : Nat} :
    i ∈ registeredSlots s ↔ (∃ k < s.count, s.entries k = some i) ∧ s.owner i ≠ 0 := by
  simp [registeredSlots]

/-- Distinct objects need as many hazards to be published. -/
theorem length_le_of_guarded {ps : List Ptr} (hnd : ps.Nodup) (hg : ∀ p ∈ ps, Guarded s p) :
    ps.length ≤ HAZARD_POINTERS * (registeredSlots s).card := by
  let hazards := registeredSlots s ×ˢ Finset.range HAZARD_POINTERS
  have hsub : ps.toFinset.image some ⊆ hazards.image fun x => s.hp x.1 x.2 := by
    intro q hq
    obtain ⟨p, hp, rfl⟩ := Finset.mem_image.mp hq
    obtain ⟨k, hk, i, hi, hown, j, hj, hpub⟩ := hg p (List.mem_toFinset.mp hp)
    refine Finset.mem_image.mpr ⟨(i, j), ?_, hpub⟩
    exact Finset.mem_product.mpr
      ⟨mem_registeredSlots.mpr ⟨⟨k, hk, hi⟩, hown⟩, Finset.mem_range.mpr hj⟩
  calc ps.length = (ps.toFinset.image some).card := by
        rw [Finset.card_image_of_injective _ (Option.some_injective _),
          List.toFinset_card_of_nodup hnd]
    _ ≤ (hazards.image fun x => s.hp x.1 x.2).card := Finset.card_le_card hsub
    _ ≤ hazards.card := Finset.card_image_le
    _ = HAZARD_POINTERS * (registeredSlots s).card := by
        rw [Finset.card_product, Finset.card_range, Nat.mul_comm]

/-! ## The compaction -/

/-- The two vectors of a thread. -/
abbrev lists (s : State) (t : Nat) : Lists := ((s.tls t).retired, (s.tls t).retiredActions)

/-- Of the vectors `ts` the first `l.1` entries have been dealt with, and those of them that `keep`
holds of stand in front. -/
structure Compacting (keep : Entry → Bool) (ts : Lists) (l : Nat × Nat) (ts' : Lists) : Prop where
  scanning : Scanning ts.1.length l ts'
  kept : (listed ts').take l.2 = ((listed ts).take l.1).filter keep
  rest : (listed ts').drop l.1 = (listed ts).drop l.1

section Compacting

variable {keep : Entry → Bool} {ts ts' : Lists} {i kept : Nat}

theorem Compacting.start (hal : ts.1.length = ts.2.length) : Compacting keep ts (0, 0) ts :=
  ⟨⟨rfl, hal.symm, Nat.le_refl _, Nat.zero_le _⟩, rfl, rfl⟩

/-- The entry that comes next. -/
theorem Compacting.next (h : Compacting keep ts (i, kept) ts') (hal : ts.1.length = ts.2.length)
    (hlt : i < ts.1.length) :
    (listed ts).take (i + 1) = (listed ts).take i ++ [(ts'.1.getD i 0, ts'.2.getD i ⟨0⟩)] := by
  have hlen : ts'.1.length = ts'.2.length := h.scanning.left.trans h.scanning.right.symm
  have hrest := h.rest
  simp only [listed] at hrest ⊢
  rw [drop_zip hlen (h.scanning.left.symm ▸ hlt), drop_zip hal hlt] at hrest
  have hz : i < (ts.1.zip ts.2).length := by
    rw [List.length_zip, ← hal, Nat.min_self]
    exact hlt
  rw [List.take_succ_eq_append_getElem hz, (List.cons.inj hrest).1]
  congr 2
  simp [List.getD, List.getElem?_eq_getElem hlt, List.getElem?_eq_getElem (hal ▸ hlt)]

/-- The next entry is kept. -/
theorem Compacting.keep_next (h : Compacting keep ts (i, kept) ts')
    (hal : ts.1.length = ts.2.length) (hlt : i < ts.1.length)
    (hkeep : keep (ts'.1.getD i 0, ts'.2.getD i ⟨0⟩) = true) :
    Compacting keep ts (i + 1, kept + 1)
      (ts'.1.set kept (ts'.1.getD i 0), ts'.2.set kept (ts'.2.getD i ⟨0⟩)) := by
  have hnext := h.next hal hlt
  obtain ⟨⟨hl, hr, hk, hle⟩, hkept, hrest⟩ := h
  simp only at hl hr hk hle hkept hrest
  have hz : kept < (ts'.1.zip ts'.2).length := by
    rw [List.length_zip, hl, hr, Nat.min_self]
    omega
  refine ⟨⟨by simpa using hl, by simpa using hr, Nat.succ_le_succ hk, hlt⟩, ?_, ?_⟩
  · rw [hnext, List.filter_append, List.filter_cons_of_pos hkeep, List.filter_nil, ← hkept]
    simp only [listed, set_zip]
    rw [List.take_succ_eq_append_getElem (by simpa using hz), List.take_set_of_le (Nat.le_refl _),
      List.getElem_set_self]
  · simp only [listed, set_zip] at hrest ⊢
    rw [List.drop_set_of_lt (by omega), ← List.drop_drop, hrest, List.drop_drop]

/-- The next entry is freed. -/
theorem Compacting.free_next (h : Compacting keep ts (i, kept) ts')
    (hal : ts.1.length = ts.2.length) (hlt : i < ts.1.length)
    (hkeep : keep (ts'.1.getD i 0, ts'.2.getD i ⟨0⟩) = false) :
    Compacting keep ts (i + 1, kept) ts' := by
  have hnext := h.next hal hlt
  obtain ⟨⟨hl, hr, hk, hle⟩, hkept, hrest⟩ := h
  refine ⟨⟨hl, hr, Nat.le_succ_of_le hk, hlt⟩, ?_, ?_⟩
  · rw [hnext, List.filter_append, List.filter_cons_of_neg (ne_true_of_eq_false hkeep),
      List.filter_nil, List.append_nil]
    exact hkept
  · simp only at hrest ⊢
    rw [← List.drop_drop, hrest, List.drop_drop]

/-- The vectors are cut after the entries that are kept. -/
theorem Compacting.finish (h : Compacting keep ts (i, kept) ts') (hge : ts.1.length ≤ i) :
    listed (ts'.1.take kept, ts'.2.take kept) = (listed ts).filter keep := by
  have htake : (listed ts).take i = listed ts := by
    apply List.take_of_length_le
    simp only [listed, List.length_zip]
    omega
  have hcut : listed (ts'.1.take kept, ts'.2.take kept) = (listed ts').take kept :=
    (List.take_zipWith (f := Prod.mk)).symm
  have hkept := h.kept
  simp only at hkept
  rw [hcut, hkept, htake]

end Compacting

/-! ## A scan while nobody else moves -/

/-- What a scan of thread `t` leaves of its own list and of the late chain `L`: what is guarded, the
list in its order, the chain in the reverse order. -/
structure Scanned (t : Nat) (L : List (Nat × Entry)) (s₀ s : State) : Prop where
  slots : SameSlots s₀ s
  others : ∀ u, u ≠ t → s.tls u = s₀.tls u
  aligned : (s.tls t).retired.length = (s.tls t).retiredActions.length
  own : listed (lists s t) = (listed (lists s₀ t)).filter fun x => Guarded s₀ x.1
  chain : Chain (books s).orphan s.late (L.filter fun x => Guarded s₀ x.2.1).reverse none
  freed : Scheme.Freed (books s₀) (books s) ((L.filter fun x => ¬Guarded s₀ x.2.1).map Prod.snd ++
    (listed (lists s₀ t)).filter fun x => ¬Guarded s₀ x.1)

/-- The compaction of the list that thread `t` has in `s₁`, at `l`. -/
structure Compacted (t : Nat) (s₀ s₁ : State) (xs : List Entry) (l : Nat × Nat) (s : State) :
    Prop where
  slots : SameSlots s₀ s
  others : ∀ u, u ≠ t → s.tls u = s₁.tls u
  own : Compacting (fun x => Guarded s₀ x.1) (lists s₁ t) l (lists s t)
  late : s.late = s₁.late
  orphan : (books s).orphan = (books s₁).orphan
  freed : Scheme.Freed (books s₀) (books s)
    (xs ++ ((listed (lists s₁ t)).take l.1).filter fun x => ¬Guarded s₀ x.1)

theorem ends_scanStep {s₁ : State} {xs : List Entry} {i kept : Nat}
    (hal : (s₁.tls t).retired.length = (s₁.tls t).retiredActions.length)
    (h : Compacted t s₀ s₁ xs (i, kept) s) : Ends (accounts.alone t)
      (fun r s' => Sum.elim
        (fun l => l.1 = i + 1 ∧ i < (s₁.tls t).retired.length ∧ Compacted t s₀ s₁ xs l s'.1)
        (fun m => (s₁.tls t).retired.length ≤ i ∧ m = kept ∧ s'.1 = s) r)
      (scanStep (s₁.tls t).retired.length (i, kept)) (s, n) := by
  unfold scanStep
  simp only [Prog.bind_eq, Prog.perform_bind, Prog.pure_eq]
  split
  · next hlt =>
    refine alone_act ⟨_, rfl⟩ fun _ ts s₂ m hact _ => ?_
    cases hact
    refine Ends.bind (ends_isProtected ⟨.refl s, rfl, rfl⟩) fun b s₂ hb => ?_
    obtain ⟨hb, hw⟩ := hb
    obtain ⟨s₂, n₂⟩ := s₂
    rw [h.slots.guarded] at hb
    have hslots : SameSlots s₀ s₂ := h.slots.trans hw.slots
    have hlate : s₂.late = s₁.late := (congrArg Books.late hw.books).trans h.late
    have horphan : (books s₂).orphan = (books s₁).orphan :=
      (congrArg Books.orphan hw.books).trans h.orphan
    have hnext := h.own.next hal hlt
    have htls : s₂.tls = s.tls := hw.tls
    have hfreed : Scheme.Freed (books s₀) (books s₂)
        (xs ++ ((listed (lists s₁ t)).take i).filter fun x => ¬Guarded s₀ x.1) := by
      rw [hw.books]
      exact h.freed
    cases b with
    | true =>
      -- kept: the entry moves down to `kept`
      have hg := hb.mp rfl
      rw [if_pos rfl]
      refine alone_act ⟨_, rfl⟩ fun _ _ s₃ m hact _ => ?_
      cases hact
      refine Ends.ret ⟨rfl, hlt, hslots.trans ⟨rfl, rfl, rfl, rfl⟩, fun u hu => ?_, ?_, hlate,
        horphan, ?_⟩
      · simp only [Function.update_of_ne hu, htls, h.others u hu]
      · have hkeep := h.own.keep_next hal hlt (decide_eq_true hg)
        simp only [lists, Function.update_self]
        exact hkeep
      · rw [hnext, List.filter_append, List.filter_cons_of_neg (by simpa using hg), List.filter_nil,
          List.append_nil]
        exact hfreed
    | false =>
      -- freed: its action runs, and the list stays as it is
      have hg : ¬Guarded s₀ ((lists s t).1.getD i 0) := fun hg => Bool.noConfusion (hb.mpr hg)
      rw [if_neg Bool.false_ne_true]
      refine alone_act ⟨_, rfl⟩ fun _ _ s₃ m hact _ => ?_
      cases hact
      refine alone_act ⟨_, rfl⟩ fun _ _ s₃ m hact _ => ?_
      cases hact
      refine Ends.ret ⟨rfl, hlt, hslots.trans ⟨rfl, rfl, rfl, rfl⟩, fun u hu => ?_, ?_, hlate,
        horphan, ?_⟩
      · simp only [htls, h.others u hu]
      · have hfree := h.own.free_next hal hlt (decide_eq_false hg)
        simp only [lists, htls]
        exact hfree
      · rw [hnext, List.filter_append, List.filter_cons_of_pos (by simpa using hg), List.filter_nil,
          ← List.append_assoc]
        exact hfreed.append rfl rfl rfl rfl
  · next hge =>
    exact Ends.ret ⟨Nat.le_of_not_lt hge, rfl, rfl⟩

theorem ends_scan {L : List (Nat × Entry)}
    (hal : (s.tls t).retired.length = (s.tls t).retiredActions.length)
    (hL : Chain (books s).orphan s.late L none) :
    Ends (accounts.alone t) (fun _ s' => Scanned t L s s'.1) scan (s, n) := by
  unfold scan
  simp only [Prog.bind_eq, Prog.perform_bind]
  refine Ends.bind (ends_drainLateRetire hL) fun _ s₁ h₁ => ?_
  obtain ⟨s₁, n₁⟩ := s₁
  have htls : s₁.tls = s.tls := h₁.tls
  have hal₁ : (s₁.tls t).retired.length = (s₁.tls t).retiredActions.length := by
    rw [htls, hal]
  refine alone_act ⟨_, rfl⟩ fun _ ts s₂ m hact _ => ?_
  cases hact
  -- what the late chain has given is freed before the own list
  let xs := (L.filter fun x => ¬Guarded s x.2.1).map Prod.snd
  let I : Nat → Nat × Nat → State × Nat → Prop := fun v l s' =>
    v = (s₁.tls t).retired.length - l.1 ∧ Compacted t s s₁ xs l s'.1
  have hstart : Compacted t s s₁ xs (0, 0) s₁ := by
    refine ⟨h₁.slots, fun _ _ => rfl, .start hal₁, rfl, rfl, ?_⟩
    rw [List.take_zero, List.filter_nil, List.append_nil]
    exact h₁.books.freed
  refine Ends.bind (Q := fun kept s' => ∃ i, (s₁.tls t).retired.length ≤ i ∧
    Compacted t s s₁ xs (i, kept) s'.1) (Ends.iterate wellFounded_lt (I := I) ⟨rfl, hstart⟩
    fun v l s' hI => ?_) fun kept s' hs => ?_
  · obtain ⟨rfl, hI⟩ := hI
    obtain ⟨i, kept⟩ := l
    refine (ends_scanStep hal₁ hI).mono fun r s₂ hr => ?_
    cases r with
    | inl l =>
      obtain ⟨hl, hlt, hI'⟩ := hr
      exact ⟨_, by simp only [hl]; omega, rfl, hI'⟩
    | inr m =>
      obtain ⟨hge, rfl, heq⟩ := hr
      exact ⟨i, hge, heq ▸ hI⟩
  · obtain ⟨i, hge, hc⟩ := hs
    obtain ⟨s', n'⟩ := s'
    refine alone_act ⟨_, rfl⟩ fun _ ts s₂ m hact _ => ?_
    cases hact
    refine alone_act ⟨_, rfl⟩ fun _ _ s₂ m hact _ => ?_
    cases hact
    -- the loop has come to the end of the list
    have htake : (listed (lists s₁ t)).take i = listed (lists s₁ t) := by
      apply List.take_of_length_le
      simp only [listed, List.length_zip]
      omega
    have hfreed := hc.freed
    rw [htake] at hfreed
    have hown : listed (lists s₁ t) = listed (lists s t) := by
      rw [lists, htls]
    refine Ends.ret ⟨hc.slots.trans ⟨rfl, rfl, rfl, rfl⟩, fun u hu => ?_, ?_, ?_, ?_, ?_⟩
    · simp only [Function.update_of_ne hu]
      rw [show s'.tls u = s₁.tls u from hc.others u hu, htls]
    · simp only [Function.update_self, List.length_take]
      rw [show (s'.tls t).retired.length = _ from hc.own.scanning.left,
        show (s'.tls t).retiredActions.length = _ from hc.own.scanning.right]
    · have hfinish := hc.own.finish hge
      simp only [lists, Function.update_self] at hfinish ⊢
      rw [hfinish, ← hown]
    · have hchain := h₁.books.chain
      rw [show (books (s₁, n₁).1).late = s₁.late from rfl, ← show s'.late = s₁.late from hc.late,
        ← show (books s').orphan = (books s₁).orphan from hc.orphan] at hchain
      exact hchain
    · rw [← hown]
      exact hfreed

theorem map_fst_listed {ts : Lists} (hal : ts.1.length = ts.2.length) :
    (listed ts).map Prod.fst = ts.1 :=
  List.map_fst_zip (Nat.le_of_eq hal)

/-- The list that a scan leaves is short. -/
theorem Scanned.length_le {L : List (Nat × Entry)} (h : Scanned t L s₀ s)
    (hal : (s₀.tls t).retired.length = (s₀.tls t).retiredActions.length)
    (hnd : (s₀.tls t).retired.Nodup) :
    (s.tls t).retired.length ≤ HAZARD_POINTERS * (registeredSlots s₀).card := by
  have hptrs : (lists s t).1 = (lists s₀ t).1.filter fun p => Guarded s₀ p := by
    have hal : (lists s₀ t).1.length = (lists s₀ t).2.length := hal
    rw [← map_fst_listed h.aligned, h.own, ← map_fst_listed hal, List.filter_map]
    rfl
  rw [show (s.tls t).retired = _ from hptrs]
  refine length_le_of_guarded (hnd.filter _) fun p hp => ?_
  simpa using (List.mem_filter.mp hp).2

/-! ## A scan among other threads -/

/-- Every thread leaves the lists of the others alone. -/
def ownLists : Discipline accounts State where
  erase := id
  inv _ := True
  guar u s s' := ∀ v, v ≠ u → s'.tls v = s.tls v
  ok := anyAction

theorem action_tls {β : Type} {o : Op β} {b : Bool} {r : β} {s s' : State}
    (h : action t b o s = some (r, s')) (v : Nat) (hv : v ≠ t) : s'.tls v = s.tls v := by
  cases o <;> simp only [action] at h
  case setSlot | setRetired =>
    cases h
    exact Function.update_of_ne hv _ _
  case pushRetired | pushAction =>
    split at h
    · cases h
      rfl
    · cases h
      exact Function.update_of_ne hv _ _
  case casOwner | casLate | newOrphan | reloadCell | casCell =>
    split at h <;> cases h <;> rfl
  all_goals
    cases h
    rfl

theorem covers_ownLists : ownLists.CoversIdle (fun _ _ => True) fun _ _ _ _ => True where
  stable _ := Discipline.Stable.const
  invoke u cl s s' _ _ hinv := by
    refine ⟨s', rfl, fun v _ => ?_, fun _ _ => True, fun p s _ => ?_, trivial⟩
    · cases cl with
      | retire x f =>
        simp only [accounts, Account.invoke] at hinv
        split at hinv
        · cases hinv
        · cases hinv
          rfl
      | _ =>
        cases hinv
        rfl
    · refine ⟨trivial, fun _ _ _ _ _ => trivial, ?_⟩
      cases p with
      | ret a => trivial
      | act e k =>
        intro b r s' _ hact
        exact ⟨s', rfl, trivial, action_tls hact, trivial⟩
      | loop body st k => trivial
  respond u cl r s _ _ := by
    refine ⟨_, rfl, trivial, fun v _ => ?_, trivial⟩
    cases cl with
    | retire x f => cases r <;> rfl
    | _ => rfl

/-- The actions that change neither the registry and the hazards nor the thread's own state. -/
def Harmless {β : Type} : Op β → Prop
  | .casOwner .. | .releaseOwner _ | .storeHp .. | .addCount | .subCount | .storeEntry ..
  | .setSlot _ | .setRetired .. | .pushRetired _ | .pushAction _ => False
  | _ => True

theorem action_harmless {β : Type} {o : Op β} {b : Bool} {r : β} {s s' : State} (ho : Harmless o)
    (h : action t b o s = some (r, s')) : SameSlots s s' ∧ s'.tls = s.tls := by
  cases o <;> simp only [Harmless] at ho <;> simp only [action] at h
  case casLate | newOrphan | reloadCell | casCell =>
    split at h <;> cases h <;> exact ⟨⟨rfl, rfl, rfl, rfl⟩, rfl⟩
  all_goals
    cases h
    exact ⟨⟨rfl, rfl, rfl, rfl⟩, rfl⟩

theorem harmless_isProtected (p : Ptr) : (isProtected p).Uses Harmless :=
  (Account.looks_isProtected p).mono fun o ho => by cases o <;> first | exact ho.elim | trivial

theorem harmless_drainLateRetire : drainLateRetire.Uses Harmless := by
  unfold drainLateRetire pushAll pushLate
  simp only [Prog.bind_eq, Prog.perform_bind, Prog.iterate_bind, Prog.pure_eq]
  refine .act trivial fun head => .loop (fun l => ?_) fun l => ?_
  · obtain ⟨head, keptHead, keptTail⟩ := l
    split
    · exact .ret _
    · refine .act trivial fun o => (harmless_isProtected _).bind fun b => ?_
      split
      · split
        · exact .ret _
        · exact .act trivial fun _ => .ret _
      · exact .act trivial fun _ => .act trivial fun _ => .act trivial fun _ => .ret _
  · split
    · exact .ret _
    · refine .act trivial fun _ => .loop (fun cur => ?_) fun _ => .ret _
      split
      · exact .ret _
      · refine .act trivial fun o => .act trivial fun e => .loop (fun e => ?_) fun _ => .ret _
        refine .act trivial fun _ => .act trivial fun r => ?_
        split <;> exact .ret _

namespace ownLists

variable {ts : ThreadState} {α β : Type} {Q : α → State → Prop}

theorem stable_tls (P : ThreadState → Prop) :
    (ownLists.assuming (SameSlots s₀)).Stable t fun s => P (s.tls t) := by
  intro u hu s s' _ _ hg h
  rw [show s'.tls t = s.tls t from hg t hu.symm]
  exact h

theorem wp_ret {x : α} (P : ThreadState → Prop) (hi : SameSlots s₀ s) (h : P (s.tls t)) :
    (ownLists.assuming (SameSlots s₀)).WP t (.ret x) (fun _ s => P (s.tls t)) s :=
  Discipline.WP.ret (stable_tls P) ⟨trivial, hi⟩ h

theorem wp_harmless {o : Op β} {k : β → Code α} (ho : Harmless o) (hi : SameSlots s₀ s)
    (h : s.tls t = ts)
    (hk : ∀ b r s s', SameSlots s₀ s → SameSlots s₀ s' → s'.tls t = ts → s.tls t = ts →
      action t b o s = some (r, s') → (ownLists.assuming (SameSlots s₀)).WP t (k r) Q s') :
    (ownLists.assuming (SameSlots s₀)).WP t (.act o k) Q s := by
  refine Discipline.WP.act (stable_tls (· = ts)) ⟨trivial, hi⟩ h fun s b r s' hi h _ hact => ?_
  obtain ⟨hsame, htls⟩ := action_harmless ho hact
  have hi' : SameSlots s₀ s' := hi.2.trans hsame
  have h' : s'.tls t = ts := (congrFun htls t).trans h
  exact ⟨s', rfl, ⟨trivial, hi'⟩, fun v _ => congrFun htls v, hk b r s s' hi.2 hi' h' h hact⟩

/-- An access to the thread's own state. -/
theorem wp_own {o : Op β} {k : β → Code α} {R : β → ThreadState → Prop} (hi : SameSlots s₀ s)
    (h : s.tls t = ts)
    (hlaw : ∀ {b r s s'}, s.tls t = ts → action t b o s = some (r, s') →
      SameSlots s s' ∧ R r (s'.tls t))
    (hk : ∀ r s, SameSlots s₀ s → R r (s.tls t) →
      (ownLists.assuming (SameSlots s₀)).WP t (k r) Q s) :
    (ownLists.assuming (SameSlots s₀)).WP t (.act o k) Q s := by
  refine Discipline.WP.act (stable_tls (· = ts)) ⟨trivial, hi⟩ h fun s b r s' hi h _ hact => ?_
  obtain ⟨hsame, hR⟩ := hlaw h hact
  have hi' : SameSlots s₀ s' := hi.2.trans hsame
  exact ⟨s', rfl, ⟨trivial, hi'⟩, action_tls hact, hk r s' hi' hR⟩

theorem wp_setRetired (ps : List Ptr) (fs : List RetireAction) {k : Unit → Code α}
    (hi : SameSlots s₀ s) (h : s.tls t = ts)
    (hk : ∀ s, SameSlots s₀ s → s.tls t = { ts with retired := ps, retiredActions := fs } →
      (ownLists.assuming (SameSlots s₀)).WP t (k ()) Q s) :
    (ownLists.assuming (SameSlots s₀)).WP t (.act (.setRetired ps fs) k) Q s := by
  refine wp_own (R := fun _ ts' => ts' = { ts with retired := ps, retiredActions := fs }) hi h
    (fun hts hact => ?_) fun _ s hi hR => hk s hi hR
  cases hact
  refine ⟨⟨rfl, rfl, rfl, rfl⟩, ?_⟩
  simp only [Function.update_self, hts]

theorem wp_getTls {k : ThreadState → Code α} (hi : SameSlots s₀ s) (h : s.tls t = ts)
    (hk : ∀ s, SameSlots s₀ s → s.tls t = ts →
      (ownLists.assuming (SameSlots s₀)).WP t (k ts) Q s) :
    (ownLists.assuming (SameSlots s₀)).WP t (.act .getTls k) Q s := by
  refine wp_own (R := fun r ts' => r = ts ∧ ts' = ts) hi h (fun hts hact => ?_)
    fun r s hi hR => ?_
  · cases hact
    exact ⟨.refl _, hts, hts⟩
  · obtain ⟨rfl, hs⟩ := hR
    exact hk s hi hs

theorem wp_uses {p : Code α} (hp : p.Uses Harmless) (hi : SameSlots s₀ s) (h : s.tls t = ts) :
    (ownLists.assuming (SameSlots s₀)).WP t p (fun _ s => s.tls t = ts) s := by
  refine Discipline.Keeps.of_uses (stable_tls (· = ts)) ?_ hp s ⟨trivial, hi⟩ h
  intro β o ho s b r s' hi h _ hact
  obtain ⟨hsame, htls⟩ := action_harmless ho hact
  exact ⟨s', rfl, ⟨trivial, hi.2.trans hsame⟩, fun v _ => congrFun htls v,
    (congrFun htls t).trans h⟩

/-- The walk over the pointers of slot `i`. -/
theorem wp_publishes {p : Ptr} (i : Nat) (hi : SameSlots s₀ s) (h : s.tls t = ts) :
    (ownLists.assuming (SameSlots s₀)).WP t (publishes i p)
      (fun r s => s.tls t = ts ∧ (r = true → Publishes i p s₀)) s := by
  refine Discipline.WP.loop (I := fun _ s => s.tls t = ts) (fun _ => stable_tls (· = ts))
    ⟨trivial, hi⟩ h fun h s hi hs => ?_
  simp only [Prog.bind_eq, Prog.perform_bind, Prog.pure_eq]
  split
  · next hlt =>
    refine wp_harmless trivial hi.2 hs fun b v s s' hi hi' hs' _ hact => ?_
    cases hact
    split
    · next heq =>
      refine Discipline.WP.ret (Discipline.WP.stable _ _) ⟨trivial, hi'⟩ ?_
      refine Discipline.WP.ret ((stable_tls (· = ts)).and .const) ⟨trivial, hi'⟩ ⟨hs', fun _ => ?_⟩
      rw [hi.hp] at heq
      exact ⟨h, hlt, heq⟩
    · exact Discipline.WP.ret (stable_tls (· = ts)) ⟨trivial, hi'⟩ hs'
  · refine Discipline.WP.ret (Discipline.WP.stable _ _) hi ?_
    exact Discipline.WP.ret ((stable_tls (· = ts)).and .const) hi
      ⟨hs, fun hr => Bool.noConfusion hr⟩

/-- What a walk over the registry finds is published. -/
theorem wp_isProtected {p : Ptr} (hi : SameSlots s₀ s) (h : s.tls t = ts) :
    (ownLists.assuming (SameSlots s₀)).WP t (isProtected p)
      (fun r s => s.tls t = ts ∧ (r = true → Guarded s₀ p)) s := by
  have hpost : ∀ r : Bool, (ownLists.assuming (SameSlots s₀)).Stable t fun s =>
      s.tls t = ts ∧ (r = true → Guarded s₀ p) := fun r => (stable_tls (· = ts)).and .const
  unfold isProtected
  simp only [Prog.bind_eq, Prog.perform_bind, Prog.pure_eq]
  refine wp_harmless trivial hi h fun b c s s' hi hi' hs' _ hact => ?_
  cases hact
  have hcount := hi.count
  refine Discipline.WP.loop (I := fun _ s => s.tls t = ts) (fun _ => stable_tls (· = ts))
    ⟨trivial, hi'⟩ hs' fun k s hi₁ hs => ?_
  split
  · next hlt =>
    refine wp_harmless trivial hi₁.2 hs fun b e s₁ s' hi₁ hi' hs' _ hact => ?_
    cases hact
    split
    · exact Discipline.WP.ret (stable_tls (· = ts)) ⟨trivial, hi'⟩ hs'
    · next i he =>
      refine wp_harmless trivial hi' hs' fun b owner s s' hi hi' hs' _ hact => ?_
      cases hact
      split
      · exact Discipline.WP.ret (stable_tls (· = ts)) ⟨trivial, hi'⟩ hs'
      · next hown =>
        refine Discipline.WP.bind ((wp_publishes i hi' hs').mono fun r s hi hr => ?_)
        split
        · next hyes =>
          refine Discipline.WP.ret (Discipline.WP.stable _ _) hi ?_
          refine Discipline.WP.ret (hpost true) hi ⟨hr.1, fun _ => ⟨k, ?_, i, ?_, ?_, hr.2 hyes⟩⟩
          · rw [← hcount]
            exact hlt
          · rw [← hi₁.entries]
            exact he
          · rw [← hi'.owner]
            exact hown
        · exact Discipline.WP.ret (stable_tls (· = ts)) hi hr.1
  · refine Discipline.WP.ret (Discipline.WP.stable _ _) hi₁ ?_
    exact Discipline.WP.ret (hpost false) hi₁ ⟨hs, fun hr => Bool.noConfusion hr⟩

/-- What a scan keeps is guarded. -/
theorem wp_scan (hi : SameSlots s₀ s) (h : s.tls t = ts) :
    (ownLists.assuming (SameSlots s₀)).WP t scan
      (fun _ s => ∀ p ∈ (s.tls t).retired, Guarded s₀ p) s := by
  unfold scan
  simp only [Prog.bind_eq, Prog.perform_bind, Prog.iterate_bind]
  refine Discipline.WP.bind ((wp_uses harmless_drainLateRetire hi h).mono fun _ s hi h => ?_)
  refine wp_getTls hi.2 h fun s hi h => ?_
  -- the entries in front are guarded
  let I : Nat × Nat → ThreadState → Prop := fun l ts' =>
    ts'.retired.length = ts.retired.length ∧ l.2 ≤ l.1 ∧ ∀ p ∈ ts'.retired.take l.2, Guarded s₀ p
  refine Discipline.WP.loop (I := fun l s => I l (s.tls t)) (fun l => stable_tls (I l))
    ⟨trivial, hi⟩ ?_ fun l s hi hI => ?_
  · rw [h]
    exact ⟨rfl, Nat.le_refl _, by simp⟩
  · obtain ⟨i, kept⟩ := l
    obtain ⟨hlen, hle, hg⟩ := hI
    simp only at hle hg
    unfold scanStep
    simp only [Prog.bind_eq, Prog.perform_bind, Prog.pure_eq]
    split
    · next hlt =>
      refine wp_getTls hi.2 rfl fun s₁ hi h => ?_
      refine Discipline.WP.bind ((wp_isProtected hi h).mono fun r s₂ hi hr => ?_)
      obtain ⟨hs₂, hyes⟩ := hr
      have hstay : I (i + 1, kept) (s.tls t) := ⟨hlen, Nat.le_succ_of_le hle, hg⟩
      split
      · next hr =>
        refine wp_setRetired _ _ hi.2 hs₂ fun s₃ hi h => ?_
        refine Discipline.WP.ret (stable_tls (I (i + 1, kept + 1))) ⟨trivial, hi⟩ ?_
        rw [h]
        refine ⟨by simpa using hlen, Nat.succ_le_succ hle, fun p hp => ?_⟩
        have hk : kept < (s.tls t).retired.length := by omega
        rw [List.take_succ_eq_append_getElem (by simpa using hk),
          List.take_set_of_le (Nat.le_refl _), List.getElem_set_self, List.mem_append,
          List.mem_singleton] at hp
        rcases hp with hp | rfl
        · exact hg p hp
        · exact hyes hr
      · refine wp_harmless trivial hi.2 hs₂ fun _ _ s₂ s₃ _ hi hs₃ _ _ => ?_
        refine wp_harmless trivial hi hs₃ fun _ _ s₃ s₄ _ hi hs₄ _ _ => ?_
        refine Discipline.WP.ret (stable_tls (I (i + 1, kept))) ⟨trivial, hi⟩ ?_
        rw [hs₄]
        exact hstay
    · refine Discipline.WP.ret (Discipline.WP.stable _ _) hi ?_
      refine wp_getTls hi.2 rfl fun s₁ hi h => ?_
      refine wp_setRetired _ _ hi h fun s₂ hi h => ?_
      refine wp_ret (fun ts => ∀ p ∈ ts.retired, Guarded s₀ p) hi ?_
      rw [h]
      exact hg

/-- The list is short, or all of it is guarded. -/
def Short (s₀ : State) (ts : ThreadState) : Prop :=
  ts.retired.length ≤ RETIRE_THRESHOLD ∨ ∀ p ∈ ts.retired, Guarded s₀ p

/-- What a retirement that does not throw leaves. -/
theorem wp_retire (x : Ptr) (f : RetireAction) (hi : SameSlots s₀ s) :
    (ownLists.assuming (SameSlots s₀)).WP t (retire x f)
      (fun r s => r = true → Short s₀ (s.tls t)) s := by
  have hpost : ∀ r : Bool, (ownLists.assuming (SameSlots s₀)).Stable t fun s =>
      r = true → Short s₀ (s.tls t) := fun r => .imp fun _ => stable_tls (Short s₀)
  have hthrow : ∀ s, SameSlots s₀ s → (ownLists.assuming (SameSlots s₀)).WP t
      (.act .decOutstanding fun _ => .ret false : Code Bool)
      (fun r s => r = true → Short s₀ (s.tls t)) s := by
    intro s hi
    refine wp_harmless trivial hi rfl fun _ _ _ s' _ hi _ _ _ => ?_
    exact Discipline.WP.ret (hpost false) ⟨trivial, hi⟩ fun h => Bool.noConfusion h
  -- the two ways in which `retire` throws, after one `push_back` or after none
  have hundo : ∀ s, SameSlots s₀ s → (ownLists.assuming (SameSlots s₀)).WP t
      (.act .getTls fun ts =>
        if ts.retiredActions.length < ts.retired.length then
          .act (.setRetired ts.retired.dropLast ts.retiredActions) fun _ =>
            .act .decOutstanding fun _ => .ret false
        else .act .decOutstanding fun _ => .ret false : Code Bool)
      (fun r s => r = true → Short s₀ (s.tls t)) s := by
    intro s hi
    refine wp_getTls hi rfl fun s₁ hi h => ?_
    split
    · exact wp_setRetired _ _ hi h fun s₂ hi _ => hthrow s₂ hi
    · exact hthrow s₁ hi
  unfold retire
  simp only [Prog.bind_eq, Prog.perform_bind, Prog.pure_eq]
  refine wp_harmless trivial hi rfl fun _ _ _ s₁ _ hi _ _ _ => ?_
  refine wp_own (R := fun _ _ => True) hi rfl (fun _ hact => ?_) fun pushed s₂ hi _ => ?_
  · simp only [action] at hact
    split at hact <;> cases hact <;> exact ⟨⟨rfl, rfl, rfl, rfl⟩, trivial⟩
  split
  · refine wp_own (R := fun _ _ => True) hi rfl (fun _ hact => ?_) fun both s₃ hi _ => ?_
    · simp only [action] at hact
      split at hact <;> cases hact <;> exact ⟨⟨rfl, rfl, rfl, rfl⟩, trivial⟩
    split
    · refine wp_getTls hi rfl fun s₄ hi h => ?_
      split
      · refine Discipline.WP.bind ((wp_scan hi h).mono fun _ s₅ hi hg => ?_)
        exact Discipline.WP.ret (hpost true) hi fun _ => .inr hg
      · next hle =>
        refine Discipline.WP.ret (hpost true) ⟨trivial, hi⟩ fun _ => .inl ?_
        rw [h]
        exact Nat.le_of_not_lt hle
    · exact hundo s₃ hi
  · rw [Prog.ret_bind, if_neg Bool.false_ne_true]
    exact hundo s₂ hi

end ownLists

/-- The objects of a thread are distinct. -/
theorem nodup_of_ready {claim : Option Ptr} {due : Option Entry} {a : Scheme.Aug State}
    (hi : (scheme.ledger a).Ok) (h : Ready t claim due a) : (a.st.tls t).retired.Nodup := by
  obtain ⟨ts, hlen, htls, hown⟩ := h
  obtain ⟨hnd, hmem⟩ := hown.held
  have hretired : (a.st.tls t).retired = ts.1 := congrArg Prod.fst htls
  rw [hretired, ← map_fst_listed hlen]
  have hacc : ∀ x ∈ listed ts, x ∈ (scheme.ledger a).books.accepted := fun x hx =>
    ((hmem x).mp hx).1
  refine List.Nodup.map_on (fun x hx y hy heq => ?_) hnd
  exact hi.entry_unique (hacc x hx) (hacc y hy) heq

section Calls

variable {address : Nat → Nat} {c : Config Op State Account.Call Bool}

/-- What is left in the list of a thread by a call during which the slots stay as they are. -/
theorem during_nodup {P : State → Prop} {op : Account.Call}
    (hc : accounts.During anyAction { State.init with address := address } P t op c) {r : Bool}
    (hr : c.thread t = some (op, .ret r)) : (c.shared.tls t).retired.Nodup := by
  let start : Scheme.Aug State := ⟨{ State.init with address := address }, .init⟩
  have hidle : ∀ t, Ready t none none start := fun t =>
    ⟨([], []), rfl, rfl, Ledger.owned_init _ _ rfl⟩
  obtain ⟨a, ha, -⟩ := Discipline.reach_idle covers
    (Ledger.ok_init (books start.st) rfl rfl rfl rfl (fun _ => rfl) rfl rfl) hidle hc.reach
  have hpost := (ha.covered t op _ hr).step.2.2
  have hst : a.st = c.shared := ha.erase
  rw [← hst]
  cases op with
  | retire x f => exact nodup_of_ready ha.inv hpost
  | _ => exact nodup_of_ready ha.inv hpost

theorem during_reclaim
    (hc : accounts.During anyAction { State.init with address := address } (SameSlots s₀) t .reclaim
      c) {r : Bool} (hr : c.thread t = some (.reclaim, .ret r)) :
    (c.shared.tls t).retired.length ≤ HAZARD_POINTERS * (registeredSlots s₀).card := by
  have hop : ∀ s s', ownLists.inv s → True → accounts.invoke t .reclaim s = some s' →
      SameSlots s₀ s' → ∃ a, a = s' ∧ ownLists.guar t s a ∧
        (ownLists.assuming (SameSlots s₀)).WP t (accounts.code .reclaim)
          (fun _ s => ∀ p ∈ (s.tls t).retired, Guarded s₀ p) a := by
    intro s s' _ _ hinv hP
    cases hinv
    refine ⟨s, rfl, fun _ _ => rfl, Discipline.WP.bind ?_⟩
    refine (ownLists.wp_scan hP rfl).mono fun _ s hi h => ?_
    exact ownLists.wp_ret (fun ts => ∀ p ∈ ts.retired, Guarded s₀ p) hi.2 h
  obtain ⟨s, rfl, -, -, hg⟩ := Discipline.during_ret (D := ownLists) covers_ownLists hop trivial
    (fun _ => trivial) hc hr
  exact length_le_of_guarded (during_nodup hc hr) hg

theorem during_retire {x : Ptr} {f : RetireAction}
    (hc : accounts.During anyAction { State.init with address := address } (SameSlots s₀) t
      (.retire x f) c) (hr : c.thread t = some (.retire x f, .ret true))
    (hcard : (registeredSlots s₀).card ≤ MAX_THREADS) :
    (c.shared.tls t).retired.length ≤ RETIRE_THRESHOLD := by
  have hop : ∀ s s', ownLists.inv s → True → accounts.invoke t (.retire x f) s = some s' →
      SameSlots s₀ s' → ∃ a, a = s' ∧ ownLists.guar t s a ∧
        (ownLists.assuming (SameSlots s₀)).WP t (accounts.code (.retire x f))
          (fun r s => r = true → ownLists.Short s₀ (s.tls t)) a := by
    intro s s' _ _ hinv hP
    simp only [accounts, Account.invoke] at hinv
    split at hinv
    · cases hinv
    · cases hinv
      exact ⟨_, rfl, fun _ _ => rfl, ownLists.wp_retire x f hP⟩
  obtain ⟨s, rfl, -, -, hshort⟩ := Discipline.during_ret (D := ownLists) covers_ownLists hop trivial
    (fun _ => trivial) hc hr
  rcases hshort rfl with hle | hg
  · exact hle
  · calc (c.shared.tls t).retired.length
        ≤ HAZARD_POINTERS * (registeredSlots s₀).card :=
          length_le_of_guarded (during_nodup hc hr) hg
      _ ≤ HAZARD_POINTERS * MAX_THREADS := Nat.mul_le_mul_left _ hcard
      _ ≤ RETIRE_THRESHOLD := by decide

end Calls

/-- A scan while nobody else moves frees exactly the objects, of the caller's list and of the late
chain, that no slot in the registry publishes. It keeps the others with their actions, the list in
its order, and there are at most as many in the list as there are hazards in the registered slots.

Among other threads, if the registry and the hazards stay as they are during the call: a list is as
short after a scan, and after a retirement it is not longer than the threshold. -/
theorem scan_keeps_guarded (address : Nat → Nat) :
    (∀ (t : Nat) (c : Config Op State Account.Call Bool) (L : List (Nat × Entry)),
      c.thread t = none →
      (c.shared.tls t).retired.length = (c.shared.tls t).retiredActions.length →
      Chain (books c.shared).orphan c.shared.late L none →
      (∀ bs c', accounts.exec c (Label.run t .reclaim bs) = some c' →
        Scanned t L c.shared c'.shared ∧ ((c.shared.tls t).retired.Nodup →
          (c'.shared.tls t).retired.length ≤
            HAZARD_POINTERS * (registeredSlots c.shared).card)) ∧
      ∃ k c', accounts.exec c (Label.run t .reclaim (List.replicate k false)) = some c') ∧
    (∀ (s₀ : State) (t : Nat) (c : Config Op State Account.Call Bool),
      accounts.During anyAction { State.init with address := address } (SameSlots s₀) t .reclaim
        c → c.thread t = some (.reclaim, .ret true) →
      (c.shared.tls t).retired.length ≤ HAZARD_POINTERS * (registeredSlots s₀).card) ∧
    ∀ (s₀ : State) (t : Nat) (x : Ptr) (f : RetireAction)
      (c : Config Op State Account.Call Bool),
      accounts.During anyAction { State.init with address := address } (SameSlots s₀) t
        (.retire x f) c → c.thread t = some (.retire x f, .ret true) →
      (registeredSlots s₀).card ≤ MAX_THREADS →
      (c.shared.tls t).retired.length ≤ RETIRE_THRESHOLD := by
  refine ⟨fun t c L hidle hal hL => ?_, fun s₀ t c hc hr => during_reclaim hc hr,
    fun s₀ t x f c hc hr hcard => during_retire hc hr hcard⟩
  have hends : ∀ n, Ends (accounts.alone t) (fun _ s' => Scanned t L c.shared s'.1)
      (accounts.code .reclaim) (c.shared, n) :=
    fun n => Ends.bind (ends_scan hal hL) fun _ _ hs => Ends.ret hs
  obtain ⟨hall, hreturns⟩ := exec_run (Q := fun _ s' => Scanned t L c.shared s') hidle rfl hends
  refine ⟨fun bs c' hrun => ?_, hreturns⟩
  obtain ⟨r, s', hs, rfl⟩ := hall bs c' hrun
  exact ⟨hs, hs.length_le hal⟩

/-- The test for the actions that leave the registry and the hazards as they are. -/
def slotsKeptTest {β : Type} (_ : Nat) (o : Op β) (_ : State) : Bool :=
  match o with
  | .casOwner .. | .releaseOwner _ | .storeHp .. | .addCount | .subCount | .storeEntry .. => false
  | _ => true

theorem action_slotsKept {β : Type} {o : Op β} {b : Bool} {r : β} {s s' s₀ : State}
    (ho : slotsKeptTest t o s₀ = true) (h : action t b o s = some (r, s')) : SameSlots s s' := by
  cases o <;> simp only [slotsKeptTest, Bool.false_eq_true] at ho <;> simp only [action] at h
  case pushRetired | pushAction | casLate | newOrphan | reloadCell | casCell =>
    split at h <;> cases h <;> exact ⟨rfl, rfl, rfl, rfl⟩
  all_goals
    cases h
    exact ⟨rfl, rfl, rfl, rfl⟩

theorem next_slotsKept {c d : Config Op State Account.Call Bool} {l : Label Account.Call}
    (hl : permits slotsKeptTest c l = true) (h : accounts.next c l = some d) :
    SameSlots c.shared d.shared := by
  cases l with
  | call u op =>
    simp only [next] at h
    split at h
    · cases h
    · obtain ⟨s, hs, rfl⟩ := Option.map_eq_some_iff.mp h
      simp only [accounts, Account.invoke] at hs
      split at hs
      · split at hs <;> cases hs
        exact ⟨rfl, rfl, rfl, rfl⟩
      · cases hs
        exact .refl _
  | ret u =>
    simp only [next] at h
    split at h
    · next op r _ =>
      cases h
      cases op with
      | retire x f => cases r <;> exact ⟨rfl, rfl, rfl, rfl⟩
      | _ => exact .refl _
    · cases h
  | step u b =>
    simp only [next] at h
    split at h
    · cases h
    · next op p heq =>
      obtain ⟨⟨q, s⟩, hstep, rfl⟩ := Option.map_eq_some_iff.mp h
      cases p with
      | ret a => cases hstep
      | loop body st k =>
        cases hstep
        exact .refl _
      | act o k =>
        simp only [permits, heq] at hl
        obtain ⟨r, hact, hr⟩ := Option.map_eq_some_iff.mp hstep
        cases hr
        exact action_slotsKept hl hact

/-- The call that thread `t` makes after the schedule `ls`, while the schedule `ms` runs. -/
theorem during_slotsKept {op : Account.Call} {ls ms : List (Label Account.Call)} {γ : Type}
    {f : Config Op State Account.Call Bool → Config Op State Account.Call Bool → γ} {v : γ}
    (h : ((accounts.exec (start State.init) ls).bind fun c =>
      (accounts.next c (.call t op)).bind fun d =>
        (accounts.execDuring slotsKeptTest (fun _ => true) t d ms).map (f c)) = some v) :
    ∃ c c', accounts.During anyAction State.init (SameSlots c.shared) t op c' ∧ f c c' = v := by
  obtain ⟨c, hc, h⟩ := Option.bind_eq_some_iff.mp h
  obtain ⟨d, hd, h⟩ := Option.bind_eq_some_iff.mp h
  obtain ⟨c', hc', hv⟩ := Option.map_eq_some_iff.mp h
  have hcall : accounts.During anyAction State.init (SameSlots c.shared) t op d :=
    .call (accounts.reachable_exec ls hc) (.refl _) hd (next_slotsKept rfl hd)
  exact ⟨c, c', accounts.during_execDuring (fun _ _ _ _ => trivial)
    (fun hs hl hnext _ => hs.trans (next_slotsKept hl hnext)) ms hcall hc', hv⟩

/-- Thread 1 publishes 7; thread 0 retires 7 and 8. -/
def publishedOne : List (Label Account.Call) :=
  Label.whole 1 (.protect 0 (some 7)) 8 ++ Label.whole 0 (.retire 8 ⟨1⟩) 4 ++
    Label.whole 0 (.retire 7 ⟨2⟩) 4

/-- Thread 0 is at its entry of 7 when thread 1 retires 9. -/
def scannedAmong : List (Label Account.Call) :=
  List.replicate 17 (.step 0 false) ++ Label.whole 1 (.retire 9 ⟨3⟩) 4 ++
    List.replicate 16 (.step 0 false)

/-- Thread 1 retires 9 before thread 0 has pushed 10. -/
def retiredAmong : List (Label Account.Call) :=
  .step 0 false :: Label.whole 1 (.retire 9 ⟨3⟩) 4 ++ List.replicate 3 (.step 0 false)

/-- Alone, a reclaim frees 8 and keeps 7. While thread 1 retires 9, a reclaim of thread 0 leaves one
entry, and a retirement of 10 leaves three. -/
theorem scan_keeps_guarded_run :
    (∃ c c', accounts.exec (start State.init) publishedOne = some c ∧
      accounts.exec c (Label.run 0 .reclaim (List.replicate 33 false)) = some c' ∧
      (c'.shared.ran, lists c'.shared 0) = ([(8, ⟨1⟩)], ([7], [⟨2⟩])) ∧
      Scanned 0 [] c.shared c'.shared ∧ (c'.shared.tls 0).retired.length ≤
        HAZARD_POINTERS * (registeredSlots c.shared).card) ∧
    (∃ s₀ c, accounts.During anyAction State.init (SameSlots s₀) 0 .reclaim c ∧
      c.thread 0 = some (.reclaim, .ret true) ∧
      ((c.shared.tls 0).retired, (c.shared.tls 1).retired) = ([7], [9]) ∧
      (registeredSlots s₀).card = 1 ∧
      (c.shared.tls 0).retired.length ≤ HAZARD_POINTERS * (registeredSlots s₀).card) ∧
    ∃ s₀ c, accounts.During anyAction State.init (SameSlots s₀) 0 (.retire 10 ⟨4⟩) c ∧
      c.thread 0 = some (.retire 10 ⟨4⟩, .ret true) ∧
      ((c.shared.tls 0).retired, (c.shared.tls 1).retired) = ([8, 7, 10], [9]) ∧
      (registeredSlots s₀).card = 1 ∧ (c.shared.tls 0).retired.length ≤ RETIRE_THRESHOLD := by
  refine ⟨?_, ?_, ?_⟩
  · have hrun : ((accounts.exec (start State.init) publishedOne).bind fun c =>
        (accounts.exec c (Label.run 0 .reclaim (List.replicate 33 false))).map fun c' =>
          (((c.thread 0).isNone, c.shared.late, lists c.shared 0),
            (c'.shared.ran, lists c'.shared 0))) =
        some ((true, none, [8, 7], [⟨1⟩, ⟨2⟩]), ([(8, ⟨1⟩)], ([7], [⟨2⟩]))) := by rfl
    obtain ⟨c, hc, hrest⟩ := Option.bind_eq_some_iff.mp hrun
    obtain ⟨c', hc', hval⟩ := Option.map_eq_some_iff.mp hrest
    simp only [Prod.mk.injEq, Option.isNone_iff_eq_none] at hval
    obtain ⟨⟨hidle, hlate, hps, hfs⟩, hran, hps', hfs'⟩ := hval
    obtain ⟨hscan, hle⟩ := ((scan_keeps_guarded id).1 0 c [] hidle (by rw [hps, hfs]; rfl) hlate).1
      _ c' hc'
    refine ⟨c, c', hc, hc', ?_, hscan, hle ?_⟩
    · rw [hran, lists, hps', hfs']
    · rw [hps]
      decide
  · have hrun : ((accounts.exec (start State.init) publishedOne).bind fun c =>
        (accounts.next c (.call 0 .reclaim)).bind fun d =>
          (accounts.execDuring slotsKeptTest (fun _ => true) 0 d scannedAmong).map fun c' =>
            ((registeredSlots c.shared).card, c'.answered 0, (c'.shared.tls 0).retired,
              (c'.shared.tls 1).retired)) = some (1, some (.reclaim, true), [7], [9]) := by rfl
    obtain ⟨c, c', hduring, hval⟩ := during_slotsKept hrun
    simp only [Prod.mk.injEq] at hval
    obtain ⟨hcard, hans, hown, hother⟩ := hval
    have hret := Config.thread_of_answered hans
    refine ⟨c.shared, c', hduring, hret, by rw [hown, hother], hcard, ?_⟩
    exact (scan_keeps_guarded id).2.1 c.shared 0 c' hduring hret
  · have hrun : ((accounts.exec (start State.init) publishedOne).bind fun c =>
        (accounts.next c (.call 0 (.retire 10 ⟨4⟩))).bind fun d =>
          (accounts.execDuring slotsKeptTest (fun _ => true) 0 d retiredAmong).map fun c' =>
            ((registeredSlots c.shared).card, c'.answered 0, (c'.shared.tls 0).retired,
              (c'.shared.tls 1).retired)) =
        some (1, some (.retire 10 ⟨4⟩, true), [8, 7, 10], [9]) := by rfl
    obtain ⟨c, c', hduring, hval⟩ := during_slotsKept hrun
    simp only [Prod.mk.injEq] at hval
    obtain ⟨hcard, hans, hown, hother⟩ := hval
    have hret := Config.thread_of_answered hans
    refine ⟨c.shared, c', hduring, hret, by rw [hown, hother], hcard, ?_⟩
    exact (scan_keeps_guarded id).2.2 c.shared 0 10 ⟨4⟩ c' hduring hret (by rw [hcard]; decide)

end MpmcMap.Reclaim.Hazard
