import MpmcMap.Reclaim.HazardFixed

/-!
# Handing a node over between two hazards

`locate` publishes a node in `HP_CUR`, copies it to `HP_PREV` and only then overwrites `HP_CUR`, so
that the node is published at every moment. `is_protected` reads the hazards of a slot in the order
of their indices, and `HP_PREV` comes before `HP_CUR`: it can read `HP_PREV` before the copy and
`HP_CUR` after the overwrite (`missed_handover`). `isProtected_of_published` shows that this is the
only way to miss a node that is published at every moment.
-/

namespace MpmcMap.Reclaim.Hazard

open Conc Prog
open Function (update)

namespace Handover

/-! ## Threads that walk a list -/

/-- What `locate` does with its hazards. -/
inductive Move where
  /-- `protect(HP_TABLE, t)`. -/
  | table (t : Ptr)
  /-- `protect(HP_PREV, d)` for the dummy of the bucket. -/
  | bucket (d : Ptr)
  /-- `protect(HP_CUR, c)` in `protect_from`. -/
  | publish (c : Option Ptr)
  /-- `protect(HP_PREV, cur)` when the walk steps onto `cur`. -/
  | advance
  deriving DecidableEq, Repr

/-- The hazard accesses of a walk; the local is `cur`. -/
def walk (ms : List Move) : Code Unit :=
  iterate (fun (l : Option Ptr × List Move) => do
    let (cur, ms) := l
    match ms with
    | [] => return .inr ()
    | .table t :: ms =>
      protect HP_TABLE (some t)
      return .inl (cur, ms)
    | .bucket d :: ms =>
      protect HP_PREV (some d)
      return .inl (cur, ms)
    | .publish c :: ms =>
      protect HP_CUR c
      return .inl (c, ms)
    | .advance :: ms =>
      protect HP_PREV cur
      return .inl (cur, ms)) (none, ms)

inductive Call where
  | walk (ms : List Move)
  | isProtected (p : Ptr)

def code : Call → Code Bool
  | .walk ms => do walk ms; return true
  | .isProtected p => isProtected p

/-- The bucket tables among the objects. -/
structure Tables where
  isTable : Ptr → Bool

/-- The moves publish tables in `HP_TABLE` only. -/
def WellTyped (T : Tables) (ms : List Move) : Bool :=
  ms.all fun
    | .table t => T.isTable t
    | .bucket d => !T.isTable d
    | .publish (some c) => !T.isTable c
    | _ => true

/-- Only threads of `ts` walk, and `is_protected` is asked about nodes. -/
def invoke (T : Tables) (ts : Finset Nat) (t : Nat) (c : Call) (s : State) : Option State :=
  match c with
  | .walk ms => if t ∈ ts ∧ WellTyped T ms then some s else none
  | .isProtected p =>
    if T.isTable p then none
    else some { s with scanners := insert t s.scanners, scanned := update s.scanned t p }

def respond (t : Nat) (c : Call) (_ : Bool) (s : State) : State :=
  match c with
  | .isProtected _ => { s with scanners := s.scanners.erase t }
  | _ => s

/-- Walks and scans over a fixed registry. -/
def walkers (T : Tables) (ts : Finset Nat) : SharedObject Op State Call Bool where
  action := action
  code := code
  invoke := invoke T ts
  respond := respond

/-- The threads of `ts` are registered, no thread is leaving, and the hazards are those of walks:
tables in `HP_TABLE`, nothing in the fourth. -/
structure Ready (T : Tables) (ts : Finset Nat) (s : State) : Prop where
  members : Members ts s
  phase : ∀ t, s.phase t ≠ .released
  table : ∀ i p, s.hp i HP_TABLE = some p → T.isTable p = true
  spare : ∀ i, s.hp i 3 = none

/-- Slot `i` publishes `x`. -/
def Publishes (i : Nat) (x : Ptr) (s : State) : Prop := ∃ h < HAZARD_POINTERS, s.hp i h = some x

instance (i : Nat) (x : Ptr) (s : State) : Decidable (Publishes i x s) :=
  inferInstanceAs (Decidable (∃ h < HAZARD_POINTERS, s.hp i h = some x))

/-- No thread overwrites a node in its `HP_CUR` while a scan for the node has read its `HP_PREV`
and not yet its `HP_CUR`. -/
def Careful {β : Type} (_ : Nat) (o : Op β) (s : State) : Prop :=
  match o with
  | .storeHp i h v => h = HP_CUR → ∀ u ∈ s.scanners, s.reading u = some (i, HP_PREV) →
      s.hp i h = some (s.scanned u) → v = some (s.scanned u)
  | _ => True

/-! ## The proof obligations -/

section Obligations

variable (T : Tables) (ts : Finset Nat) (s₀ : State)

structure Inv (s : State) : Prop where
  frozen : Frozen s₀ s
  table : ∀ i p, s.hp i HP_TABLE = some p → T.isTable p = true
  spare : ∀ i, s.hp i 3 = none

structure Guar (u : Nat) (s s' : State) : Prop where
  scanned : ∀ v, v ≠ u → s'.scanned v = s.scanned v
  scanners : ∀ v, v ≠ u → (v ∈ s'.scanners ↔ v ∈ s.scanners)
  reading : ∀ v, v ≠ u → s'.reading v = s.reading v
  keep : ∀ v, v ≠ u → v ∈ s.scanners → ∀ i, s.reading v = some (i, HP_PREV) →
    s.hp i HP_CUR = some (s.scanned v) → s'.hp i HP_CUR = some (s.scanned v)

/-- The proof obligations of the threads. -/
def handover : Discipline (walkers T ts) State where
  erase := id
  inv := Inv T s₀
  guar := Guar
  ok := Careful

variable {T ts s₀} {t : Nat} {s s' : State}

theorem Guar.refl (u : Nat) (s : State) : Guar u s s :=
  ⟨fun _ _ => rfl, fun _ _ => Iff.rfl, fun _ _ => rfl, fun _ _ _ _ _ h => h⟩

theorem WalkStep.guar (h : WalkStep t s s') : Guar t s s' := by
  have hhp : s'.hp = s.hp := by rw [h.same]
  refine ⟨fun v _ => by rw [h.same], fun v _ => by rw [h.same], h.reading,
    fun v _ _ i _ hcur => by rw [hhp, hcur]⟩

theorem WalkStep.inv (h : WalkStep t s s') (hi : Inv T s₀ s) : Inv T s₀ s' := by
  have hhp : s'.hp = s.hp := by rw [h.same]
  exact ⟨h.frozen hi.frozen, by rw [hhp]; exact hi.table, by rw [hhp]; exact hi.spare⟩

/-! ### Walks -/

/-- A step of the walk publishes one pointer. -/
theorem keeps_protect (hs₀ : Ready T ts s₀) (ht : t ∈ ts) (idx : Nat) (v : Option Ptr)
    (hidx : idx ≠ 3) (htab : idx = HP_TABLE → ∀ p, v = some p → T.isTable p = true) :
    (handover T ts s₀).Keeps t (fun _ => True) (protect idx v) := by
  obtain ⟨i, hslot, -⟩ := hs₀.members.slot t ht
  intro s hi _
  refine wp_atSlot (i := i) (P := fun _ => True) (fun _ _ _ => rfl) (Guar.refl t)
    (fun s hi => (hi.frozen.slot t).trans hslot) Discipline.Stable.const hi trivial fun s hi _ => ?_
  refine Discipline.WP.act (P := fun _ => True) Discipline.Stable.const hi trivial
    fun s b r s' hi _ hok hact => ?_
  simp only [walkers, action, handover, id, Option.some.injEq, Prod.mk.injEq] at hact
  obtain ⟨-, rfl⟩ := hact
  have hi' : Inv T s₀ { s with
      hp := update s.hp i (update (s.hp i) idx v)
      validated := if idx = 0 then update s.validated t none else s.validated } := by
    refine ⟨⟨hi.frozen.owner, hi.frozen.count, hi.frozen.entries, hi.frozen.phase,
      hi.frozen.slot⟩, fun j p hp => ?_, fun j => ?_⟩
    · by_cases hj : j = i
      · subst hj
        by_cases hx : HP_TABLE = idx
        · simp only [Function.update_self, ← hx] at hp
          exact htab hx.symm p hp
        · simp only [Function.update_self, Function.update_of_ne hx] at hp
          exact hi.table j p hp
      · simp only [Function.update_of_ne hj] at hp
        exact hi.table j p hp
    · by_cases hj : j = i
      · subst hj
        simp only [Function.update_self, Function.update_of_ne (Ne.symm hidx)]
        exact hi.spare j
      · simp only [Function.update_of_ne hj]
        exact hi.spare j
  refine ⟨_, rfl, hi', ⟨fun _ _ => rfl, fun _ _ => Iff.rfl, fun _ _ => rfl,
    fun u _ hmem j hread hcur => ?_⟩, Discipline.WP.ret Discipline.Stable.const hi' trivial⟩
  -- what a scan has still to find in `HP_CUR` is not overwritten: that is the condition of the run
  by_cases hj : j = i
  · subst hj
    by_cases hx : HP_CUR = idx
    · subst hx
      simp only [Function.update_self]
      exact hok rfl u hmem hread hcur
    · simp only [Function.update_self, Function.update_of_ne hx]
      exact hcur
  · simp only [Function.update_of_ne hj]
    exact hcur

theorem keeps_walk (hs₀ : Ready T ts s₀) (ht : t ∈ ts) (ms : List Move)
    (hms : WellTyped T ms = true) : (handover T ts s₀).Keeps t (fun _ => True) (walk ms) := by
  intro s hi _
  refine Discipline.WP.loop (I := fun l _ => WellTyped T l.2 = true)
    (fun _ => Discipline.Stable.const) hi hms fun l s hi hl => ?_
  obtain ⟨cur, ms⟩ := l
  have hone : ∀ (m : Code Unit) (l : Option Ptr × List Move), WellTyped T l.2 = true →
      (handover T ts s₀).Keeps t (fun _ => True) m →
      (handover T ts s₀).WP t (m.bind fun _ => .ret (.inl l : (Option Ptr × List Move) ⊕ Unit))
        (fun r s => Sum.elim (fun l => WellTyped T l.2 = true)
          (fun b => (handover T ts s₀).WP t (.ret b) (fun _ _ => True) s) r) s := by
    intro m l hl hm
    refine Discipline.WP.bind ((hm s hi trivial).mono fun _ s hi _ => ?_)
    exact Discipline.WP.ret (Discipline.Stable.const (P := WellTyped T l.2 = true)) hi hl
  cases ms with
  | nil =>
    exact Discipline.WP.ret (Discipline.WP.stable _ _) hi
      (Discipline.WP.ret Discipline.Stable.const hi trivial)
  | cons m ms =>
    obtain ⟨hm, hrest⟩ := Bool.and_eq_true_iff.mp hl
    cases m with
    | table p =>
      exact hone _ (cur, ms) hrest (keeps_protect hs₀ ht HP_TABLE (some p) (by decide)
        fun _ q hq => by cases hq; exact hm)
    | bucket d =>
      exact hone _ (cur, ms) hrest (keeps_protect hs₀ ht HP_PREV (some d) (by decide)
        fun h => absurd h (by decide))
    | publish c =>
      exact hone _ (c, ms) hrest (keeps_protect hs₀ ht HP_CUR c (by decide)
        fun h => absurd h (by decide))
    | advance =>
      exact hone _ (cur, ms) hrest (keeps_protect hs₀ ht HP_PREV cur (by decide)
        fun h => absurd h (by decide))

/-! ### Scans -/

/-- A scan that is not to find anything in particular. -/
theorem scanner_none (hs₀ : Ready T ts s₀) (cur : Ptr) : Scanner (handover T ts s₀) s₀ t cur
    (fun _ => True) (fun _ _ => False) (fun _ _ _ => True) fun _ s => s where
  action _ _ _ := rfl
  phase := hs₀.phase t
  frozen _ hi := hi.frozen
  erase_lift _ _ := rfl
  lift_erase _ := rfl
  walk _ _ hi _ hw := ⟨WalkStep.inv hw hi, WalkStep.guar hw, trivial, fun _ => id⟩
  stable := Discipline.Stable.const
  due_stable _ _ _ _ _ _ _ _ _ := id
  ahead_stable _ _ _ _ _ _ _ _ _ _ hd := hd.elim
  owned _ _ _ hd := hd.elim
  listed _ _ _ hd := hd.elim
  ahead_zero _ _ _ _ hd := hd.elim
  ahead_next _ _ _ _ _ hd := hd.elim
  ahead_end _ _ _ _ hd := hd.elim

/-- A scan of thread `t` for `x`. -/
def Scanning (t : Nat) (x : Ptr) (s : State) : Prop := t ∈ s.scanners ∧ s.scanned t = x

/-- `x` is seen at hazard `h` of slot `i` or later: until `HP_PREV` has been read it may still move,
afterwards it stays in `HP_CUR`. -/
def Ahead (t : Nat) (x : Ptr) (s : State) (i h : Nat) : Prop :=
  h ≤ HP_PREV ∨ (h = HP_CUR ∧ s.reading t = some (i, HP_PREV) ∧ s.hp i HP_CUR = some x)

/-- A scan for a node that slot `i` publishes at every moment. -/
theorem scanner_published (hs₀ : Ready T ts s₀) {u i : Nat} (hu : u ∈ ts)
    (hslot : (s₀.tls u).slot = some i) {x : Ptr} (hx : T.isTable x = false) :
    Scanner ((handover T ts s₀).assuming (Publishes i x)) s₀ t x (Scanning t x) (fun _ j => j = i)
      (Ahead t x) fun _ s => s where
  action _ _ _ := rfl
  phase := hs₀.phase t
  frozen _ hi := hi.1.frozen
  erase_lift _ _ := rfl
  lift_erase _ := rfl
  walk s s' hi hsc hw := by
    have hhp : s'.hp = s.hp := by
      rw [hw.same]
      rfl
    refine ⟨⟨WalkStep.inv hw hi.1, ?_⟩, WalkStep.guar hw, ?_, fun _ => id⟩
    · obtain ⟨h, hlt, hp⟩ := hi.2
      exact ⟨h, hlt, (congrFun (congrFun hhp i) h).trans hp⟩
    · rw [hw.same]
      exact hsc
  stable v hv s s' _ _ hg hsc :=
    ⟨(hg.scanners t hv.symm).mpr hsc.1, (hg.scanned t hv.symm).trans hsc.2⟩
  due_stable _ _ _ _ _ _ _ _ _ := id
  ahead_stable v hv s s' _ _ hg hsc j h _ := by
    refine Or.imp_right fun ⟨hh, hread, hcur⟩ => ⟨hh, ?_, ?_⟩
    · rw [hg.reading t hv.symm, hread]
    · rw [← hsc.2] at hcur ⊢
      exact hg.keep t hv.symm hsc.1 j hread hcur
  owned s j _ hj := by
    subst hj
    obtain ⟨k, hk, howner, -⟩ := hs₀.members.slot u hu
    rw [hslot] at hk
    cases hk
    exact howner
  listed s j _ hj := by
    subst hj
    obtain ⟨k, hk, -, hlist⟩ := hs₀.members.slot u hu
    rw [hslot] at hk
    cases hk
    exact hlist
  ahead_zero _ _ _ _ _ := .inl (Nat.zero_le _)
  ahead_next s j h hi _ hj ha hlt hne := by
    subst hj
    rcases ha with hle | ⟨rfl, -, hcur⟩
    · rcases Nat.lt_or_eq_of_le hle with hlt | rfl
      · exact .inl hlt
      · -- `HP_PREV` does not hold `x`, and no other hazard than `HP_CUR` can
        refine .inr ⟨rfl, by simp, ?_⟩
        obtain ⟨l, hl, hp⟩ := hi.2
        have hcases : l = HP_TABLE ∨ l = HP_PREV ∨ l = HP_CUR ∨ l = 3 := by
          simp only [HAZARD_POINTERS, HP_TABLE, HP_PREV, HP_CUR] at hl ⊢
          omega
        rcases hcases with rfl | rfl | rfl | rfl
        · rw [hi.1.table j x hp] at hx
          cases hx
        · exact absurd hp hne
        · exact hp
        · exact absurd ((hi.1.spare j).symm.trans hp) (by simp)
    · exact absurd hcur hne
  ahead_end s j _ _ _ ha := by
    rcases ha with hle | ⟨he, -⟩
    · exact absurd hle (by decide)
    · exact absurd he (by decide)

/-! ### Every run -/

theorem covers_handover (hs₀ : Ready T ts s₀) :
    (handover T ts s₀).CoversIdle (fun _ _ => True) fun _ _ _ _ => True where
  stable _ := Discipline.Stable.const
  invoke t c s s' hi _ h := by
    cases c with
    | walk ms =>
      simp only [walkers, invoke, handover, id] at h
      split at h
      · next hpre =>
        cases h
        refine ⟨s, rfl, Guar.refl t s, ?_⟩
        refine Discipline.WP.bind ((keeps_walk hs₀ hpre.1 ms hpre.2 s hi trivial).mono
          fun _ s hi _ => ?_)
        exact Discipline.WP.ret Discipline.Stable.const hi trivial
      · cases h
    | isProtected p =>
      simp only [walkers, invoke, handover, id] at h
      split at h
      · cases h
      · cases h
        have hi' : Inv T s₀ { s with
            scanners := insert t s.scanners, scanned := update s.scanned t p } :=
          ⟨⟨hi.frozen.owner, hi.frozen.count, hi.frozen.entries, hi.frozen.phase, hi.frozen.slot⟩,
            hi.table, hi.spare⟩
        refine ⟨_, rfl, ⟨fun v hv => Function.update_of_ne hv _ _, fun v hv => by simp [hv],
          fun _ _ => rfl, fun _ _ _ _ _ h => h⟩, ?_⟩
        exact ((scanner_none hs₀ p).wp_isProtected hi' trivial).mono fun _ _ _ _ => trivial
  respond t c r s hi _ := by
    cases c with
    | walk ms => exact ⟨s, rfl, hi, Guar.refl t s, trivial⟩
    | isProtected p =>
      exact ⟨{ s with scanners := s.scanners.erase t }, rfl,
        ⟨⟨hi.frozen.owner, hi.frozen.count, hi.frozen.entries, hi.frozen.phase, hi.frozen.slot⟩,
          hi.table, hi.spare⟩, ⟨fun _ _ => rfl, fun v hv => by simp [hv], fun _ _ => rfl,
            fun _ _ _ _ _ h => h⟩, trivial⟩

end Obligations

/-- Over a fixed registry, in runs in which no thread overwrites a node in its `HP_CUR` between a
scan's reads of its `HP_PREV` and its `HP_CUR`, a call of `is_protected(x)` during which a
registered thread publishes `x` at every moment answers true. -/
theorem isProtected_of_published (T : Tables) (ts : Finset Nat) (s₀ : State)
    (hs₀ : Ready T ts s₀) (t u i : Nat) (hu : u ∈ ts) (hslot : (s₀.tls u).slot = some i) (x : Ptr)
    (r : Bool) (c : Config Op State Call Bool)
    (hc : (walkers T ts).During Careful s₀ (Publishes i x) t (.isProtected x) c)
    (hr : c.thread t = some (.isProtected x, .ret r)) : r = true := by
  have hop : ∀ s s', (handover T ts s₀).inv s → True →
      (walkers T ts).invoke t (.isProtected x) ((handover T ts s₀).erase s) = some s' →
      Publishes i x s' → ∃ b, (handover T ts s₀).erase b = s' ∧ (handover T ts s₀).guar t s b ∧
        ((handover T ts s₀).assuming (Publishes i x)).WP t ((walkers T ts).code (.isProtected x))
          (fun r _ => r = true) b := by
    intro s s' hi _ hinv hP
    have hx : T.isTable x = false := by
      simp only [walkers, invoke, handover, id] at hinv
      split at hinv
      · cases hinv
      · next h => simpa using h
    obtain ⟨s', rfl, hg, hw⟩ := (covers_handover hs₀).invoke t (.isProtected x) s s' hi trivial hinv
    refine ⟨s', rfl, hg, ?_⟩
    have hsc : Scanning t x s' := by
      simp only [walkers, invoke, handover, id, hx, Bool.false_eq_true, if_false,
        Option.some.injEq] at hinv
      rw [← hinv]
      exact ⟨by simp, by simp⟩
    refine ((scanner_published hs₀ hu hslot hx).wp_isProtected ⟨hw.inv, hP⟩ hsc).mono
      fun r s _ h => ?_
    cases r with
    | true => rfl
    | false => exact absurd rfl (h.2 rfl i)
  obtain ⟨a, -, -, -, hQ⟩ := Discipline.during_ret (D := handover T ts s₀) (covers_handover hs₀) hop
    ⟨⟨rfl, rfl, rfl, rfl, fun _ => rfl⟩, hs₀.table, hs₀.spare⟩ (fun _ => trivial) hc hr
  exact hQ

/-! ## A run that misses a node -/

/-- Node 7 is published in `HP_CUR`, copied to `HP_PREV`, and `HP_CUR` goes on to node 8. -/
def oneStep : List Move := [.publish (some 7), .advance, .publish (some 8)]

/-- No object is a table. -/
def noTables : Tables := ⟨fun _ => false⟩

theorem ready_one : Ready noTables {0} (.registered 1) where
  members := members_registered 1
  phase t := by
    simp only [State.registered]
    split <;> simp
  table _ _ h := by cases h
  spare _ := rfl

/-- Thread 1 reads `HP_PREV` of thread 0, thread 0 copies node 7 there and goes on, thread 1 reads
`HP_CUR`. -/
def crossed : List (Label Call) :=
  List.replicate 8 (.step 1 false) ++ List.replicate 6 (.step 0 false) ++
    List.replicate 6 (.step 1 false)

/-- A scan can miss a node that a walking thread publishes at every moment. -/
theorem missed_handover :
    ¬ ∀ (T : Tables) (ts : Finset Nat) (s₀ : State), Ready T ts s₀ →
      ∀ (t u i : Nat), u ∈ ts → (s₀.tls u).slot = some i → ∀ (x : Ptr) (r : Bool)
        (c : Config Op State Call Bool),
        (walkers T ts).During SharedObject.anyAction s₀ (Publishes i x) t (.isProtected x) c →
        c.thread t = some (.isProtected x, .ret r) → r = true := by
  intro hall
  have hrun : (((walkers noTables {0}).exec (SharedObject.start (.registered 1))
      ([.call 0 (.walk oneStep)] ++ List.replicate 3 (.step 0 false))).bind fun c =>
      ((walkers noTables {0}).next c (.call 1 (.isProtected 7))).bind fun d =>
        ((walkers noTables {0}).execDuring (fun _ _ _ => true)
          (fun s => decide (Publishes 0 7 s)) 1 d crossed).map fun e =>
            (decide (Publishes 0 7 c.shared), decide (Publishes 0 7 d.shared),
              e.answered 1)) = some (true, true, some (.isProtected 7, false)) := by rfl
  obtain ⟨c, hc, hrun⟩ := Option.bind_eq_some_iff.mp hrun
  obtain ⟨d, hd, hrun⟩ := Option.bind_eq_some_iff.mp hrun
  obtain ⟨e, he, hval⟩ := Option.map_eq_some_iff.mp hrun
  simp only [Prod.mk.injEq, decide_eq_true_eq] at hval
  obtain ⟨hPc, hPd, hret⟩ := hval
  have hduring := (walkers noTables {0}).during_execDuring (fun _ _ _ _ => trivial)
    (fun _ _ _ hs => of_decide_eq_true hs) crossed
    (.call ((walkers noTables {0}).reachable_exec _ hc) hPc hd hPd) he
  have hthread := Config.thread_of_answered hret
  cases hall noTables {0} (.registered 1) ready_one 1 0 0 (by simp) rfl 7 false e hduring hthread

/-- `Careful` as a test. -/
def carefulTest {β : Type} (_ : Nat) (o : Op β) (s : State) : Bool :=
  match o with
  | .storeHp i h v => h ≠ HP_CUR ∨ ∀ u ∈ s.scanners, s.reading u ≠ some (i, HP_PREV) ∨
      s.hp i h ≠ some (s.scanned u) ∨ v = some (s.scanned u)
  | _ => true

theorem carefulTest_sound {β : Type} (t : Nat) (o : Op β) (s : State)
    (ho : carefulTest t o s = true) : Careful t o s := by
  cases o
  case storeHp i h v =>
    intro hh u hu hread hcur
    simp only [carefulTest, decide_eq_true_eq] at ho
    have hv := (ho.resolve_left (not_not.mpr hh)) u hu
    exact (hv.resolve_left (not_not.mpr hread)).resolve_left (not_not.mpr hcur)
  all_goals trivial

/-- Thread 0 hands the node over before thread 1 comes to its hazards. -/
def handedOver : List (Label Call) :=
  List.replicate 4 (.step 1 false) ++ List.replicate 6 (.step 0 false) ++
    List.replicate 4 (.step 1 false)

/-- The scan finds the node in the slot that it has been handed over to. -/
theorem isProtected_of_published_run :
    ∃ c r, (walkers noTables {0}).During Careful (.registered 1) (Publishes 0 7) 1
      (.isProtected 7) c ∧ c.thread 1 = some (.isProtected 7, .ret r) ∧ r = true := by
  have hrun : (((walkers noTables {0}).execIf carefulTest (SharedObject.start (.registered 1))
      ([.call 0 (.walk oneStep)] ++ List.replicate 3 (.step 0 false))).bind fun c =>
      ((walkers noTables {0}).next c (.call 1 (.isProtected 7))).bind fun d =>
        ((walkers noTables {0}).execDuring carefulTest
          (fun s => decide (Publishes 0 7 s)) 1 d handedOver).map fun e =>
            (decide (Publishes 0 7 c.shared), decide (Publishes 0 7 d.shared),
              e.answered 1)) = some (true, true, some (.isProtected 7, true)) := by rfl
  obtain ⟨c, hc, hrun⟩ := Option.bind_eq_some_iff.mp hrun
  obtain ⟨d, hd, hrun⟩ := Option.bind_eq_some_iff.mp hrun
  obtain ⟨e, he, hval⟩ := Option.map_eq_some_iff.mp hrun
  simp only [Prod.mk.injEq, decide_eq_true_eq] at hval
  obtain ⟨hPc, hPd, hret⟩ := hval
  have hduring := (walkers noTables {0}).during_execDuring carefulTest_sound
    (fun _ _ _ hs => of_decide_eq_true hs) handedOver
    (.call ((walkers noTables {0}).reach_execIf carefulTest_sound _ .start hc) hPc hd hPd) he
  have hthread := Config.thread_of_answered hret
  exact ⟨e, true, hduring, hthread, isProtected_of_published noTables {0} (.registered 1) ready_one
    1 0 0 (by simp) rfl 7 true e hduring hthread⟩

end Handover

end MpmcMap.Reclaim.Hazard
