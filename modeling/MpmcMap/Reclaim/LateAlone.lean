import MpmcMap.Conc.Alone
import MpmcMap.Reclaim.Late

/-!
# The late-retire chain while one thread runs alone

What a drain does while nobody else moves: the orphans that are not kept are freed in their order,
and the kept ones are on the chain again, the last one first. The reclaimer says which orphans are
kept, by a predicate `P` on their addresses and entries, and names with `F` what the code of the
chain does not change.
-/

namespace MpmcMap.Reclaim.Scheme

open Conc SharedObject
open Function (update)

variable {E : Type → Type} {S Call Ret : Type} {Y : SharedObject E S Call Ret} {O T : Type}
  {Z : Scheme Y O T} {t n : Nat} {F : S → Prop} {s s' : S}

/-! ## The actions -/

/-- The actions of a drain. -/
inductive IsStep (Z : Scheme Y O T) : {β : Type} → E β → Prop where
  | run (f : RetireAction) (p : Ptr) : IsStep Z (Z.run f p)
  | decOutstanding : IsStep Z Z.decOutstanding
  | loadLate : IsStep Z Z.loadLate
  | exchangeLate (v : Option Nat) : IsStep Z (Z.exchangeLate v)
  | casLate (e d : Option Nat) : IsStep Z (Z.casLate e d)
  | readOrphan (o : Nat) : IsStep Z (Z.readOrphan o)
  | setOrphanNext (o : Nat) (v : Option Nat) : IsStep Z (Z.setOrphanNext o v)
  | deleteOrphan (o : Nat) : IsStep Z (Z.deleteOrphan o)

variable (Z) in
/-- Thread `t` can always perform these actions, they keep `F`, and only the scheduler makes a
compare-exchange with the right value fail. -/
structure Prompt (t : Nat) (F : S → Prop) : Prop where
  enabled : ∀ {β : Type} {e : E β}, Z.IsStep e → ∀ s, ∃ r, Y.action t false e s = some r
  frame : ∀ {β : Type} {e : E β}, Z.IsStep e → ∀ {b s r s'}, F s → Y.action t b e s = some (r, s') →
    F s'
  loads : ∀ {b s r s'}, Y.action t b Z.loadLate s = some (r, s') → r = (Z.books s).late
  fails : ∀ {e d b s seen s'}, Y.action t b (Z.casLate e d) s = some ((false, seen), s') →
    seen = (Z.books s).late ∧ ((Z.books s).late = e → b = true)

/-- One action of a drain. -/
theorem Prompt.act {α β : Type} {X : Prog E α → S × Nat → Prop} {e : E β} {k : β → Prog E α}
    (hS : Z.Prompt t F) (he : Z.IsStep e) (hF : F s)
    (h : ∀ b r s' m, Y.action t b e s = some (r, s') → F s' → m + b.toNat = n →
      Until (Y.alone t) X (k r) (s', m)) :
    Until (Y.alone t) X (.act e k) (s, n) :=
  alone_act (hS.enabled he s) fun b r s' m hact hm => h b r s' m hact (hS.frame he hF hact) hm

/-! ## Pushing -/

/-- The orphan `o` has been pushed on the chain. -/
def pushed (o : Nat) (b : Books) : Books :=
  { b with late := some o, orphan := update b.orphan o ((b.orphan o).map fun x => (b.late, x.2)) }

/-- While nobody else moves, a push fails only spuriously. -/
theorem ends_pushLate (hZ : Z.Lawful) (hS : Z.Prompt t F) (o : Nat) (hF : F s) :
    Ends (Y.alone t) (fun _ s' => Z.books s'.1 = pushed o (Z.books s) ∧ F s'.1) (Z.pushLate o)
      (s, n) := by
  unfold pushLate
  simp only [Prog.bind_eq, Prog.perform_bind, Prog.pure_eq]
  refine hS.act .loadLate hF fun _ expected s₁ m hact hF _ => ?_
  obtain rfl := hS.loads hact
  obtain rfl := hZ.loadLate hact
  -- until it succeeds only the link of the orphan changes
  let linked (f : Option Nat × Entry → Option Nat) : Books := { Z.books s₁ with
    orphan := update (Z.books s₁).orphan o (((Z.books s₁).orphan o).map fun x => (f x, x.2)) }
  let I : Nat → Option Nat → S × Nat → Prop := fun v expected s' =>
    v = s'.2 ∧ expected = (Z.books s₁).late ∧ F s'.1 ∧ ∃ f, Z.books s'.1 = linked f
  have hstart : Z.books s₁ = linked Prod.fst := by
    have hid : (fun x : Option Nat × Entry => (x.1, x.2)) = id := rfl
    simp only [linked, hid, Option.map_id, id, Function.update_eq_self]
  refine Ends.iterate wellFounded_lt (I := I) ⟨rfl, rfl, hF, _, hstart⟩ fun v expected s' hI => ?_
  obtain ⟨rfl, rfl, hF, f, hbooks⟩ := hI
  obtain ⟨s', n'⟩ := s'
  refine hS.act (.setOrphanNext _ _) hF fun _ _ s₂ m hact hF hm => ?_
  have hbooks₂ : Z.books s₂ = linked fun _ => (Z.books s₁).late := by
    rw [(hZ.setOrphanNext hact).1, hbooks]
    simp only [linked, Function.update_self, Option.map_map, Function.comp_def,
      Function.update_idem]
  refine hS.act (.casLate _ _) hF fun b r s₃ m' hact hF hm' => ?_
  obtain ⟨ok, seen⟩ := r
  cases ok with
  | true =>
    rcases hZ.casLate hact with ⟨-, -, hbooks₃, -⟩ | ⟨hr, -⟩
    · refine Ends.ret ⟨?_, hF⟩
      rw [hbooks₃, hbooks₂]
      rfl
    · cases hr
  | false =>
    obtain ⟨hseen, hspurious⟩ := hS.fails hact
    rcases hZ.casLate hact with ⟨hr, -⟩ | ⟨-, rfl⟩
    · cases hr
    · rw [hbooks₂] at hseen hspurious
      obtain rfl := hspurious rfl
      simp only [Bool.toNat_true] at hm'
      exact Ends.ret ⟨m', by simp only; omega, rfl, hseen, hF, _, hbooks₂⟩

/-- Nothing but the chain differs. -/
def Relinked (b₀ b : Books) : Prop := b = { b₀ with late := b.late, orphan := b.orphan }

/-- The orphans of `K` are pushed on the chain `M`, the first one first. -/
theorem ends_pushAll (hZ : Z.Lawful) (hS : Z.Prompt t F) {K M : List (Nat × Entry)}
    {head : Option Nat} (hF : F s) (hK : Chain (Z.books s).orphan head K none)
    (hM : Chain (Z.books s).orphan (Z.books s).late M none)
    (hnd : ((K ++ M).map Prod.fst).Nodup) :
    Ends (Y.alone t) (fun _ s' => Relinked (Z.books s) (Z.books s'.1) ∧ F s'.1 ∧
      Chain (Z.books s'.1).orphan (Z.books s'.1).late (K.reverse ++ M) none)
      (Z.pushAll head) (s, n) := by
  -- at each turn the rest of the chain is still to come, and what has been pushed is there in
  -- reverse
  let I : Nat → Option Nat → S × Nat → Prop := fun v head s' =>
    ∃ K' M', K.reverse ++ M = K'.reverse ++ M' ∧ Chain (Z.books s'.1).orphan head K' none ∧
      Chain (Z.books s'.1).orphan (Z.books s'.1).late M' none ∧ ((K' ++ M').map Prod.fst).Nodup ∧
      Relinked (Z.books s) (Z.books s'.1) ∧ F s'.1 ∧ v = K'.length
  refine Ends.iterate wellFounded_lt (I := I) ⟨K, M, rfl, hK, hM, hnd, rfl, hF, rfl⟩
    fun v head s' hI => ?_
  obtain ⟨K', M', heq, hK', hM', hnd', hre, hF, rfl⟩ := hI
  obtain ⟨s', n'⟩ := s'
  cases K' with
  | nil =>
    obtain rfl := hK'
    refine Ends.ret ⟨hre, hF, ?_⟩
    rw [heq]
    exact hM'
  | cons c K' =>
    obtain ⟨a, e⟩ := c
    obtain ⟨rfl, next, hnext, hrest⟩ := hK'
    simp only [Prog.bind_eq, Prog.perform_bind, Prog.pure_eq]
    refine hS.act (.readOrphan _) hF fun _ o s₁ m hact hF _ => ?_
    obtain ⟨rfl, ho⟩ := hZ.readOrphan hact
    obtain ⟨rfl, rfl⟩ := Prod.mk.inj (ho _ hnext)
    refine Ends.bind (ends_pushLate hZ hS a hF) fun _ s₂ hs => ?_
    obtain ⟨hbooks, hF⟩ := hs
    have horphan : (Z.books s₂.1).orphan =
        update (Z.books s₁).orphan a (some ((Z.books s₁).late, Z.entry o)) := by
      rw [hbooks, pushed, hnext, Option.map_some]
    have hlate : (Z.books s₂.1).late = some a := by rw [hbooks, pushed]
    rw [List.cons_append, List.map_cons, List.nodup_cons, List.map_append, List.mem_append,
      not_or] at hnd'
    obtain ⟨⟨hnotK, hnotM⟩, hnd'⟩ := hnd'
    refine Ends.ret ⟨K'.length, by simp, K', (a, Z.entry o) :: M', ?_, ?_, ?_, ?_, ?_, hF, rfl⟩
    · rw [heq, List.reverse_cons, List.append_assoc, List.singleton_append]
    · rw [horphan]
      exact hrest.update_of_notMem hnotK _
    · rw [horphan, hlate]
      exact hM'.push hnotM
    · rw [List.map_append, List.map_cons]
      refine List.nodup_middle.mpr (List.nodup_cons.mpr ⟨?_, hnd'⟩)
      rw [List.mem_append, not_or]
      exact ⟨hnotK, hnotM⟩
    · unfold Relinked at hre ⊢
      rw [hbooks, hre]
      rfl

/-! ## Draining -/

/-- Besides the chain, the actions of the objects `xs` have run and these have been counted out. -/
structure Freed (b₀ b : Books) (xs : List Entry) : Prop where
  ran : b.ran = b₀.ran ++ xs
  outstanding : b.outstanding = b₀.outstanding - xs.length
  submitted : b.submitted = b₀.submitted
  accepted : b.accepted = b₀.accepted

theorem Freed.append {b₀ b b' : Books} {xs : List Entry} {x : Entry} (h : Freed b₀ b xs)
    (hran : b'.ran = b.ran ++ [x]) (hout : b'.outstanding = b.outstanding - 1)
    (hsub : b'.submitted = b.submitted) (hacc : b'.accepted = b.accepted) :
    Freed b₀ b' (xs ++ [x]) := by
  refine ⟨?_, ?_, hsub.trans h.submitted, hacc.trans h.accepted⟩
  · rw [hran, h.ran, List.append_assoc]
  · rw [hout, h.outstanding, List.length_append, List.length_singleton, Nat.sub_sub]

theorem Freed.relinked {b₀ b b' : Books} {xs : List Entry} (h : Freed b₀ b xs)
    (hb : Relinked b b') : Freed b₀ b' xs := by
  unfold Relinked at hb
  rw [hb]
  exact ⟨h.ran, h.outstanding, h.submitted, h.accepted⟩

variable {P : Nat × Entry → Prop} [DecidablePred P] {L : List (Nat × Entry)}

/-- The drain of the chain `L`: `D` is dealt with, `L'` is still to come. -/
structure Sorting (P : Nat × Entry → Prop) [DecidablePred P] (b₀ : Books) (L : List (Nat × Entry))
    (c : Nat → Option (Option Nat × Entry)) (l : Option Nat × Option Nat × Option Nat)
    (L' : List (Nat × Entry)) (b : Books) : Prop where
  late : b.late = none
  kept : ∃ D, L = D ++ L' ∧ Freed b₀ b ((D.filter fun x => ¬P x).map Prod.snd) ∧
    Draining c l L' (D.filter fun x => P x) b.orphan

/-- The chain `L` has been drained: the orphans of `P` are on the chain again, the last one first,
and the others have been freed. -/
structure Sifted (P : Nat × Entry → Prop) [DecidablePred P] (b₀ : Books) (L : List (Nat × Entry))
    (b : Books) : Prop where
  chain : Chain b.orphan b.late (L.filter fun x => P x).reverse none
  freed : Freed b₀ b ((L.filter fun x => ¬P x).map Prod.snd)

variable (Z P) in
/-- `keep` decides `P` of the orphan that has been read, and does nothing else. -/
def Decides (t : Nat) (F : S → Prop) (keep : O → Prog E Bool) : Prop :=
  ∀ i o b s n, F s → (Z.books s).orphan i ≠ none → Y.action t b (Z.readOrphan i) s = some (o, s) →
    Ends (Y.alone t) (fun r s' => (r = true ↔ P (i, Z.entry o)) ∧ F s'.1 ∧
      Z.books s'.1 = Z.books s) (keep o) (s, n)

theorem ends_drainStep {keep : O → Prog E Bool} (hZ : Z.Lawful) (hS : Z.Prompt t F)
    (hkeep : Z.Decides P t F keep) {b₀ : Books} {c : Nat → Option (Option Nat × Entry)}
    {l : Option Nat × Option Nat × Option Nat} {L' : List (Nat × Entry)} (hF : F s)
    (h : Sorting P b₀ L c l L' (Z.books s)) :
    Ends (Y.alone t) (fun r s' => F s'.1 ∧ Sum.elim
      (fun l => ∃ L'', L''.length < L'.length ∧ Sorting P b₀ L c l L'' (Z.books s'.1))
      (fun k => Sorting P b₀ L c (none, k.1, k.2) [] (Z.books s'.1)) r)
      (Z.drainStep keep l) (s, n) := by
  obtain ⟨head, kh, kt⟩ := l
  obtain ⟨hlate, D, hDL, hfreed, hd⟩ := h
  cases L' with
  | nil =>
    obtain rfl : head = none := hd.chain
    exact Ends.ret ⟨hF, hlate, D, hDL, hfreed, hd⟩
  | cons x L' =>
    obtain ⟨o, e⟩ := x
    obtain ⟨hhead, next, hnext, -⟩ := hd.chain
    obtain rfl : head = some o := hhead
    have hDL' : L = D ++ [(o, e)] ++ L' := by
      rw [hDL, List.append_assoc, List.singleton_append]
    unfold drainStep
    simp only [Prog.bind_eq, Prog.perform_bind, Prog.pure_eq]
    refine hS.act (.readOrphan _) hF fun _ r s₁ m hact hF _ => ?_
    obtain ⟨rfl, hr⟩ := hZ.readOrphan hact
    obtain ⟨rfl, rfl⟩ := Prod.mk.inj (hr _ hnext)
    have hne : (Z.books s₁).orphan o ≠ none := by
      rw [hnext]
      exact Option.some_ne_none _
    refine Ends.bind (hkeep o r _ s₁ m hF hne hact) fun b s₂ hb => ?_
    obtain ⟨hb, hF, hbooks⟩ := hb
    obtain ⟨s₂, n₂⟩ := s₂
    rw [← hbooks] at hlate hfreed hd hnext
    cases b with
    -- kept: the orphan is put at the end of the kept ones
    | true =>
      have hP : P (o, Z.entry r) := hb.mp rfl
      have hkept : (D ++ [(o, Z.entry r)]).filter (fun x => P x) =
          D.filter (fun x => P x) ++ [(o, Z.entry r)] := by simp [hP]
      have hfree : (D ++ [(o, Z.entry r)]).filter (fun x => ¬P x) = D.filter fun x => ¬P x := by
        simp [hP]
      rw [← hfree] at hfreed
      rw [if_pos rfl]
      cases kt with
      | none =>
        exact Ends.ret ⟨hF, L', by simp, hlate, _, hDL', hfreed, hkept ▸ hd.keepFirst hnext⟩
      | some k =>
        obtain ⟨m, y, hm, hd'⟩ := hd.keepNext hnext
        refine hS.act (.setOrphanNext _ _) hF fun _ _ s₃ m hact hF _ => ?_
        have hbooks₃ := (hZ.setOrphanNext hact).1
        simp only [hm, Option.map_some] at hbooks₃
        refine Ends.ret ⟨hF, L', by simp, ?_, _, hDL', ?_, ?_⟩
        · rw [hbooks₃]
          exact hlate
        · rw [hbooks₃]
          exact ⟨hfreed.ran, hfreed.outstanding, hfreed.submitted, hfreed.accepted⟩
        · rw [hbooks₃, hkept]
          exact hd'
    -- freed: its action runs, and its orphan is deleted
    | false =>
      have hP : ¬P (o, Z.entry r) := fun hP => Bool.noConfusion (hb.mpr hP)
      have hkept : (D ++ [(o, Z.entry r)]).filter (fun x => P x) = D.filter fun x => P x := by
        simp [hP]
      have hfree : ((D ++ [(o, Z.entry r)]).filter fun x => ¬P x).map Prod.snd =
          (D.filter fun x => ¬P x).map Prod.snd ++ [Z.entry r] := by simp [hP]
      rw [if_neg Bool.false_ne_true]
      refine hS.act (.run _ _) hF fun _ _ s₃ m hact hF _ => ?_
      have hbooks₃ := (hZ.run hact).1
      refine hS.act .decOutstanding hF fun _ _ s₄ m hact hF _ => ?_
      have hbooks₄ := (hZ.decOutstanding hact).1
      refine hS.act (.deleteOrphan _) hF fun _ _ s₅ m hact hF _ => ?_
      have hbooks₅ := (hZ.deleteOrphan hact).1
      rw [hbooks₄, hbooks₃] at hbooks₅
      refine Ends.ret ⟨hF, L', by simp, ?_, _, hDL', ?_, ?_⟩
      · rw [hbooks₅]
        exact hlate
      · rw [hfree, hbooks₅]
        exact hfreed.append rfl rfl rfl rfl
      · rw [hbooks₅, hkept]
        exact hd.free hnext

theorem ends_drain {keep : O → Prog E Bool} (hZ : Z.Lawful) (hS : Z.Prompt t F)
    (hkeep : Z.Decides P t F keep) (hF : F s)
    (hL : Chain (Z.books s).orphan (Z.books s).late L none) :
    Ends (Y.alone t) (fun _ s' => F s'.1 ∧ Sifted P (Z.books s) L (Z.books s'.1)) (Z.drain keep)
      (s, n) := by
  unfold drain
  simp only [Prog.bind_eq, Prog.perform_bind, Prog.pure_eq]
  refine hS.act (.exchangeLate _) hF fun _ head s₁ m hact hF _ => ?_
  obtain ⟨rfl, hbooks, -⟩ := hZ.exchangeLate hact
  -- the orphans that do not belong to the chain
  let c : Nat → Option (Option Nat × Entry) :=
    fun o => if o ∈ L.map Prod.fst then none else (Z.books s).orphan o
  let I : Nat → Option Nat × Option Nat × Option Nat → S × Nat → Prop := fun v l s' =>
    ∃ L', F s'.1 ∧ Sorting P (Z.books s) L c l L' (Z.books s'.1) ∧ v = L'.length
  have hstart : Sorting P (Z.books s) L c ((Z.books s).late, none, none) L (Z.books s₁) := by
    rw [hbooks]
    refine ⟨rfl, [], rfl, ⟨(List.append_nil _).symm, rfl, rfl, rfl⟩, hL, .inl ⟨rfl, rfl⟩, ?_, ?_⟩
    · simpa using hL.nodup
    · rw [List.filter_nil, List.append_nil]
      exact ⟨fun o ho => if_pos ho, fun o ho => (if_neg ho).symm⟩
  refine Ends.bind (Q := fun k s' => F s'.1 ∧
      Sorting P (Z.books s) L c (none, k.1, k.2) [] (Z.books s'.1))
    (Ends.iterate wellFounded_lt (I := I) ⟨L, hF, hstart, rfl⟩ fun v l s' hI => ?_)
    fun k s' hk => ?_
  · obtain ⟨L', hF, hsort, rfl⟩ := hI
    refine (ends_drainStep hZ hS hkeep hF hsort).mono fun r s₂ hr => ?_
    obtain ⟨hF, hr⟩ := hr
    cases r with
    | inl l =>
      obtain ⟨L'', hlt, hsort⟩ := hr
      exact ⟨L''.length, hlt, L'', hF, hsort, rfl⟩
    | inr k => exact ⟨hF, hr⟩
  · obtain ⟨kh, kt⟩ := k
    obtain ⟨hF, hlate, D, hDL, hfreed, hd⟩ := hk
    obtain ⟨s', n'⟩ := s'
    obtain rfl : L = D := by simpa using hDL
    rcases hd.kept with ⟨hkt, hnil⟩ | ⟨K', k, y, e, hkt, hK, hkept⟩
    · obtain rfl : kt = none := hkt
      refine Ends.ret ⟨hF, ?_, hfreed⟩
      rw [hnil]
      exact hlate
    · obtain rfl : kt = some k := hkt
      have hnd := hd.nodup
      rw [List.nil_append, hK] at hnd
      rw [hK] at hkept
      -- the last kept orphan still points to what came after it: its link is cut before the push
      have hkK : k ∉ K'.map Prod.fst := by
        rw [List.map_append, List.nodup_append] at hnd
        exact fun hm => hnd.2.2 k hm k (by simp) rfl
      obtain ⟨m, hm⟩ := hkept.cell (a := k) (b := y) (by simp)
      refine hS.act (.setOrphanNext _ _) hF fun _ _ s₃ m hact hF _ => ?_
      have hbooks₃ := (hZ.setOrphanNext hact).1
      simp only [hm, Option.map_some] at hbooks₃
      have hfreed₃ : Freed (Z.books s) (Z.books s₃) ((L.filter fun x => ¬P x).map Prod.snd) := by
        rw [hbooks₃]
        exact ⟨hfreed.ran, hfreed.outstanding, hfreed.submitted, hfreed.accepted⟩
      refine (ends_pushAll hZ hS (K := K' ++ [(k, y)]) (M := []) hF ?_ ?_ ?_).mono
        fun _ s₄ hs₄ => ?_
      · rw [hbooks₃]
        exact hkept.redirect hkK none
      · rw [hbooks₃]
        exact hlate
      · rw [List.append_nil]
        exact hnd
      · obtain ⟨hre, hF, hchain⟩ := hs₄
        refine ⟨hF, ?_, hfreed₃.relinked hre⟩
        rw [hK]
        rw [List.append_nil] at hchain
        exact hchain

end MpmcMap.Reclaim.Scheme
