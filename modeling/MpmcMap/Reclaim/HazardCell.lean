import MpmcMap.Reclaim.HazardFixed

/-!
# The protocol on one shared cell

Readers load the cell, publish what they read and reload the cell before they use the object;
replacers exchange the object by a fresh one under the same protection and retire the old one. The
registry is fixed. `cell_safe` shows that no scan frees an object between the successful reload of
a reader and the next overwrite of its hazard, and that no object is freed twice.

Every object has a place: the cell, a replacer that holds it, the retired list of a thread, or the
freed ones. Only the cell can be validated; an object that has left the cell cannot be validated
any more, so that a scan that has found no publication of it may free it.
-/

namespace MpmcMap.Reclaim.Hazard

open Conc
open Prog (perform iterate)
open Function (update)

namespace Cell

/-! ## Readers and replacers -/

/-- A reader: the object is used after the successful reload. -/
def read : Code Bool := do
  let p ← perform .loadCell
  if p = none then
    return false
  else
    protect 0 p
    perform (.reloadCell p)

/-- A replacer: exchange the object of the cell by `fresh` and retire it. -/
def replace (fresh : Ptr) (act : RetireAction) : Code Unit :=
  iterate (fun (_ : Unit) => do
    let old ← perform .loadCell
    protect 0 old
    if ← perform (.reloadCell old) then
      if ← perform (.casCell old fresh) then
        match old with
        | none => return .inr ()
        | some p =>
          let _ ← retire p act
          return .inr ()
      else return .inl ()
    else return .inl ()) ()

inductive Call where
  | read
  | replace (fresh : Ptr) (act : RetireAction)
  | clear
  | reclaim

def code : Call → Code Bool
  | .read => read
  | .replace x act => do replace x act; return true
  | .clear => do clear 0; return true
  | .reclaim => do scan; return true

/-- The threads are those of `ts`, and an object is brought into the cell once. -/
def invoke (ts : Finset Nat) (t : Nat) (c : Call) (s : State) : Option State :=
  match c with
  | .replace x _ =>
    if t ∈ ts ∧ x ∉ s.made then some { s with made := insert x s.made } else none
  | _ => if t ∈ ts then some s else none

/-- Readers and replacers over a fixed registry. -/
def cell (ts : Finset Nat) : SharedObject Op State Call Bool where
  action := action
  code := code
  invoke := invoke ts
  respond _ _ _ s := s

/-- The threads of `ts` are registered, no thread is leaving, nothing has been retired or read. -/
structure Ready (ts : Finset Nat) (s : State) : Prop where
  members : Members ts s
  phase : ∀ t, s.phase t ≠ .released
  late : s.late = none
  retired : ∀ t, (s.tls t).retired = []
  made : ∀ x, s.cell = some x → x ∈ s.made
  validated : ∀ t, s.validated t = none
  ran : s.ran = []

/-! ## Places -/

inductive Place where
  /-- Not made, or lost by a failed retirement. -/
  | nowhere
  | cell
  | held (t : Nat)
  | pending (t : Nat)
  | freed
  deriving DecidableEq

structure Aug where
  st : State
  place : Ptr → Place
  /-- The retirements of a thread that it has not freed, also in the middle of a scan. -/
  pending : Nat → List Ptr

section Obligations

variable (ts : Finset Nat) (s₀ : State)

structure Inv (a : Aug) : Prop where
  frozen : Frozen s₀ a.st
  late : a.st.late = none
  made : ∀ x, x ∉ a.st.made → a.place x = .nowhere
  cell : ∀ x, a.st.cell = some x → a.place x = .cell
  pending : ∀ t, ∀ x ∈ a.pending t, a.place x = .pending t
  pending_nodup : ∀ t, (a.pending t).Nodup
  ran : ∀ x ∈ a.st.ran.map Prod.fst, a.place x = .freed
  ran_nodup : (a.st.ran.map Prod.fst).Nodup
  validated : ∀ u p, a.st.validated u = some p → u ∈ ts ∧ a.place p ≠ .freed ∧
    ∃ i, (s₀.tls u).slot = some i ∧ a.st.hp i 0 = some p

structure Guar (u : Nat) (a b : Aug) : Prop where
  tls : ∀ v, v ≠ u → b.st.tls v = a.st.tls v
  pending : ∀ v, v ≠ u → b.pending v = a.pending v
  place : ∀ v, v ≠ u → ∀ x, a.place x = .held v ∨ a.place x = .pending v → b.place x = a.place x
  hp : ∀ v, v ≠ u → v ∈ ts → ∀ i, (s₀.tls v).slot = some i → b.st.hp i = a.st.hp i
  unpublished : ∀ v, v ≠ u → ∀ x, a.place x = .pending v → ∀ w, b.st.validated w = some x →
    a.st.validated w = some x

/-- The proof obligations of the threads. -/
def protocol : Discipline (cell ts) Aug where
  erase := Aug.st
  inv := Inv ts s₀
  guar := Guar ts s₀
  ok := SharedObject.anyAction

end Obligations

section Steps

variable {ts : Finset Nat} {s₀ : State} {t i : Nat} {a : Aug} {s' : State} {x : Ptr}
  {ps qs : List Ptr}

theorem Guar.refl (u : Nat) (a : Aug) : Guar ts s₀ u a a :=
  ⟨fun _ _ => rfl, fun _ _ => rfl, fun _ _ _ _ => rfl, fun _ _ _ _ _ => rfl,
    fun _ _ _ _ _ h => h⟩

/-- The others leave a thread's own state alone. -/
theorem stable_tls (P : ThreadState → List Ptr → Prop) :
    (protocol ts s₀).Stable t fun a => P (a.st.tls t) (a.pending t) := by
  intro u hu a b _ _ hg h
  rw [hg.tls t hu.symm, hg.pending t hu.symm]
  exact h

/-- What a thread holds is its own. -/
theorem stable_held : (protocol ts s₀).Stable t fun a => a.place x = .held t :=
  fun _ hu _ _ _ _ hg h => (hg.place t hu.symm x (.inl h)).trans h

theorem stable_pending : (protocol ts s₀).Stable t fun a => a.place x = .pending t :=
  fun _ hu _ _ _ _ hg h => (hg.place t hu.symm x (.inr h)).trans h

/-- A slot is written by its owner only. -/
theorem stable_hp (ht : t ∈ ts) (hslot : (s₀.tls t).slot = some i) (v : Option Ptr) :
    (protocol ts s₀).Stable t fun a => a.st.hp i 0 = v := by
  intro u hu a b _ _ hg h
  rw [hg.hp t hu.symm ht i hslot, h]

/-- A step that only changes fields the invariant does not mention. -/
structure Silent (s s' : State) : Prop where
  owner : s'.owner = s.owner
  count : s'.count = s.count
  entries : s'.entries = s.entries
  phase : s'.phase = s.phase
  tls : s'.tls = s.tls
  late : s'.late = s.late
  made : s'.made = s.made
  cell : s'.cell = s.cell
  ran : s'.ran = s.ran
  validated : s'.validated = s.validated
  hp : s'.hp = s.hp

/-- A step that leaves hazards and places alone keeps the invariant. -/
theorem Silent.inv (h : Silent a.st s') (hi : Inv ts s₀ a) : Inv ts s₀ { a with st := s' } where
  frozen := ⟨by simp only [h.owner, hi.frozen.owner], by simp only [h.count, hi.frozen.count],
    by simp only [h.entries, hi.frozen.entries], by simp only [h.phase, hi.frozen.phase],
    fun t => by simp only [h.tls, hi.frozen.slot]⟩
  late := by simp only [h.late, hi.late]
  made := by
    simp only [h.made]
    exact hi.made
  cell := by
    simp only [h.cell]
    exact hi.cell
  pending := hi.pending
  pending_nodup := hi.pending_nodup
  ran := by
    simp only [h.ran]
    exact hi.ran
  ran_nodup := by
    simp only [h.ran]
    exact hi.ran_nodup
  validated := by
    simp only [h.validated, h.hp]
    exact hi.validated

theorem Silent.guar (h : Silent a.st s') : Guar ts s₀ t a { a with st := s' } where
  tls _ _ := by simp only [h.tls]
  pending _ _ := rfl
  place _ _ _ _ := rfl
  hp _ _ _ _ _ := by simp only [h.hp]
  unpublished _ _ _ _ _ hw := by simpa only [h.validated] using hw

/-- A step of a scan changes no more than the scan. -/
theorem WalkStep.silent {s : State} (h : WalkStep t s s') : Silent s s' := by
  rw [h.same]
  constructor <;> rfl

/-- The thread overwrites its hazard. -/
theorem Inv.store (hi : Inv ts s₀ a) (hs₀ : Ready ts s₀) (ht : t ∈ ts)
    (hslot : (s₀.tls t).slot = some i) (v : Option Ptr) :
    Inv ts s₀ { a with st := { a.st with
      hp := update a.st.hp i (update (a.st.hp i) 0 v)
      validated := update a.st.validated t none } } :=
  { hi with
    frozen := ⟨hi.frozen.owner, hi.frozen.count, hi.frozen.entries, hi.frozen.phase,
      hi.frozen.slot⟩
    validated := fun u p hp => by
      have hut : u ≠ t := by
        rintro rfl
        simp at hp
      simp only [Function.update_of_ne hut] at hp
      obtain ⟨hu, hplace, j, hj, hhp⟩ := hi.validated u p hp
      have hji : j ≠ i := by
        rintro rfl
        exact hut (hs₀.members.inj u hu t ht (hj.trans hslot.symm))
      exact ⟨hu, hplace, j, hj, by simpa only [Function.update_of_ne hji] using hhp⟩ }

/-- A thread may write its own hazard. -/
theorem Guar.store (hs₀ : Ready ts s₀) (ht : t ∈ ts) (hslot : (s₀.tls t).slot = some i)
    (v : Option Ptr) :
    Guar ts s₀ t a { a with st := { a.st with
      hp := update a.st.hp i (update (a.st.hp i) 0 v)
      validated := update a.st.validated t none } } where
  tls _ _ := rfl
  pending _ _ := rfl
  place _ _ _ _ := rfl
  hp u hut hu j hj := by
    have hji : j ≠ i := by
      rintro rfl
      exact hut (hs₀.members.inj u hu t ht (hj.trans hslot.symm))
    exact Function.update_of_ne hji _ _
  unpublished _ _ y _ w hw := by
    by_cases hwt : w = t
    · subst hwt
      simp at hw
    · simpa only [Function.update_of_ne hwt] using hw

/-- The reload finds the published object still in the cell. -/
theorem Inv.validate (hi : Inv ts s₀ a) (ht : t ∈ ts) (hslot : (s₀.tls t).slot = some i)
    {p : Option Ptr} (hhp : a.st.hp i 0 = p) (hcell : a.st.cell = p) :
    Inv ts s₀ { a with st := { a.st with validated := update a.st.validated t p } } :=
  { hi with
    frozen := ⟨hi.frozen.owner, hi.frozen.count, hi.frozen.entries, hi.frozen.phase,
      hi.frozen.slot⟩
    validated := fun u q hq => by
      by_cases hut : u = t
      · subst hut
        simp only [Function.update_self] at hq
        subst hq
        refine ⟨ht, ?_, i, hslot, hhp⟩
        rw [hi.cell q hcell]
        simp
      · simp only [Function.update_of_ne hut] at hq
        exact hi.validated u q hq }

/-- The reload of the cell validates the object. -/
theorem Guar.validate (hi : Inv ts s₀ a) {p : Option Ptr} (hcell : a.st.cell = p) :
    Guar ts s₀ t a { a with st := { a.st with validated := update a.st.validated t p } } where
  tls _ _ := rfl
  pending _ _ := rfl
  place _ _ _ _ := rfl
  hp _ _ _ _ _ := rfl
  unpublished v _ y hy w hw := by
    by_cases hwt : w = t
    · subst hwt
      simp only [Function.update_self] at hw
      rw [hi.cell y (hcell.trans hw)] at hy
      cases hy
    · simpa only [Function.update_of_ne hwt] using hw

/-- The exchange: `x` goes into the cell, what was there is held by the thread. -/
def Aug.exchange (a : Aug) (t : Nat) (x : Ptr) : Aug :=
  { a with
    st := { a.st with cell := some x }
    place := fun y => if y = x then .cell else if a.st.cell = some y then .held t else a.place y }

/-- The cell is given an object that the writer holds. -/
theorem Inv.exchange (hi : Inv ts s₀ a) (hx : a.place x = .held t) :
    Inv ts s₀ (a.exchange t x) where
  frozen := ⟨hi.frozen.owner, hi.frozen.count, hi.frozen.entries, hi.frozen.phase, hi.frozen.slot⟩
  late := hi.late
  made y hy := by
    have h1 := hi.made y hy
    have h2 := hi.cell y
    simp only [Aug.exchange]
    grind
  cell y hy := by
    simp only [Aug.exchange, Option.some.injEq] at hy ⊢
    rw [if_pos hy.symm]
  pending u y hy := by
    have h1 := hi.pending u y hy
    have h2 := hi.cell y
    simp only [Aug.exchange]
    grind
  pending_nodup := hi.pending_nodup
  ran y hy := by
    have h1 := hi.ran y hy
    have h2 := hi.cell y
    simp only [Aug.exchange]
    grind
  ran_nodup := hi.ran_nodup
  validated u p hp := by
    obtain ⟨hu, hplace, hslot⟩ := hi.validated u p hp
    refine ⟨hu, ?_, hslot⟩
    simp only [Aug.exchange]
    grind

theorem Guar.exchange (hi : Inv ts s₀ a) (hx : a.place x = .held t) :
    Guar ts s₀ t a (a.exchange t x) :=
  { Guar.refl t a with
    place := fun v hv y hy => by
      have h2 := hi.cell y
      simp only [Aug.exchange]
      grind }

/-- The thread moves an object that it holds to its list, or drops it. -/
theorem Inv.move (hi : Inv ts s₀ a) {pl : Place} {ps : List Ptr} (ss : ThreadState)
    (hss : ss.slot = (a.st.tls t).slot) (hx : a.place x = .held t ∨ a.place x = .pending t)
    (hpl : pl = .held t ∨ pl = .pending t) (hnd : ps.Nodup)
    (hps : ∀ y ∈ ps, (y = x ∧ pl = .pending t) ∨ (y ≠ x ∧ y ∈ a.pending t)) :
    Inv ts s₀ { a with
      st := { a.st with tls := update a.st.tls t ss }
      place := update a.place x pl
      pending := update a.pending t ps } where
  frozen := ⟨hi.frozen.owner, hi.frozen.count, hi.frozen.entries, hi.frozen.phase, fun u => by
    have := hi.frozen.slot u
    simp only [Function.update_apply]
    grind⟩
  late := hi.late
  made y hy := by
    have := hi.made y hy
    simp only [Function.update_apply]
    grind
  cell y hy := by
    have := hi.cell y hy
    simp only [Function.update_apply]
    grind
  pending u y hy := by
    simp only [Function.update_apply] at hy ⊢
    by_cases hut : u = t
    · subst hut
      rcases hps y (by simpa using hy) with ⟨rfl, rfl⟩ | ⟨hyx, hm⟩
      · simp
      · rw [if_neg hyx]
        exact hi.pending u y hm
    · rw [if_neg hut] at hy
      have := hi.pending u y hy
      grind
  pending_nodup u := by
    by_cases hut : u = t
    · subst hut
      simpa using hnd
    · simpa only [Function.update_of_ne hut] using hi.pending_nodup u
  ran y hy := by
    have := hi.ran y hy
    simp only [Function.update_apply]
    grind
  ran_nodup := hi.ran_nodup
  validated u p hp := by
    obtain ⟨hu, hplace, hslot⟩ := hi.validated u p hp
    refine ⟨hu, ?_, hslot⟩
    simp only [Function.update_apply]
    grind

/-- Objects move between a thread's own places. -/
theorem Guar.move {pl : Place} {ps : List Ptr} {ss : ThreadState}
    (hx : a.place x = .held t ∨ a.place x = .pending t) :
    Guar ts s₀ t a { a with
      st := { a.st with tls := update a.st.tls t ss }
      place := update a.place x pl
      pending := update a.pending t ps } where
  tls v hv := Function.update_of_ne hv _ _
  pending v hv := Function.update_of_ne hv _ _
  place v hv y hy := by
    simp only [Function.update_apply]
    grind
  hp _ _ _ _ _ := rfl
  unpublished _ _ _ _ _ h := h

/-- The action of an object that nobody uses is run. -/
theorem Inv.free (hi : Inv ts s₀ a) (hx : a.place x = .pending t) (act : RetireAction)
    (hps : a.pending t = ps ++ x :: qs) (hfree : ∀ u, a.st.validated u ≠ some x) :
    Inv ts s₀ { a with
      st := { a.st with ran := a.st.ran ++ [(x, act)] }
      place := update a.place x .freed
      pending := update a.pending t (ps ++ qs) } where
  frozen := ⟨hi.frozen.owner, hi.frozen.count, hi.frozen.entries, hi.frozen.phase, hi.frozen.slot⟩
  late := hi.late
  made y hy := by
    have := hi.made y hy
    simp only [Function.update_apply]
    grind
  cell y hy := by
    have := hi.cell y hy
    simp only [Function.update_apply]
    grind
  pending u y hy := by
    have hnd := hi.pending_nodup t
    rw [hps] at hnd
    by_cases hut : u = t
    · subst hut
      simp only [Function.update_self] at hy
      have hyx : y ≠ x := by
        rintro rfl
        exact (List.nodup_middle.mp hnd).notMem hy
      simp only [Function.update_of_ne hyx]
      refine hi.pending u y ?_
      rw [hps]
      simp only [List.mem_append, List.mem_cons] at hy ⊢
      tauto
    · simp only [Function.update_of_ne hut] at hy
      have := hi.pending u y hy
      simp only [Function.update_apply]
      grind
  pending_nodup u := by
    have hnd := hi.pending_nodup t
    rw [hps] at hnd
    by_cases hut : u = t
    · subst hut
      simp only [Function.update_self]
      exact (List.nodup_middle.mp hnd).of_cons
    · simpa only [Function.update_of_ne hut] using hi.pending_nodup u
  ran y hy := by
    simp only [List.map_append, List.map_cons, List.map_nil, List.mem_append,
      List.mem_singleton] at hy
    have h1 := hi.ran y
    simp only [Function.update_apply]
    grind
  ran_nodup := by
    simp only [List.map_append, List.map_cons, List.map_nil]
    refine List.Nodup.append hi.ran_nodup (List.nodup_singleton x) ?_
    rw [List.disjoint_singleton]
    intro hm
    rw [hi.ran x hm] at hx
    cases hx
  validated u p hp := by
    obtain ⟨hu, hplace, hslot⟩ := hi.validated u p hp
    refine ⟨hu, ?_, hslot⟩
    -- a validated object is another one, as nobody has validated `x`
    have hpx : p ≠ x := by
      rintro rfl
      exact hfree u hp
    simpa only [Function.update_of_ne hpx] using hplace

/-- A thread frees what is pending in its own list. -/
theorem Guar.free (hx : a.place x = .pending t) (act : RetireAction) (ps : List Ptr) :
    Guar ts s₀ t a { a with
      st := { a.st with ran := a.st.ran ++ [(x, act)] }
      place := update a.place x .freed
      pending := update a.pending t ps } where
  tls _ _ := rfl
  pending v hv := Function.update_of_ne hv _ _
  place v hv y hy := by
    simp only [Function.update_apply]
    grind
  hp _ _ _ _ _ := rfl
  unpublished _ _ _ _ _ h := h

end Steps

/-! ## Scans -/

section Scan

variable {ts : Finset Nat} {s₀ : State} {t i : Nat} {a : Aug} {α β : Type} {P : Aug → Prop}
  {Q : α → Aug → Prop} {x : Ptr}

/-- An assertion that silent steps and other threads keep. -/
structure Kept (ts : Finset Nat) (s₀ : State) (t : Nat) (P : Aug → Prop) : Prop where
  stable : (protocol ts s₀).Stable t P
  silent : ∀ a s', P a → Silent a.st s' → P { a with st := s' }

theorem kept_tls (P : ThreadState → List Ptr → Prop) :
    Kept ts s₀ t fun a => P (a.st.tls t) (a.pending t) where
  stable := stable_tls P
  silent a s' h hs := by
    simp only [hs.tls]
    exact h

theorem kept_held : Kept ts s₀ t fun a => a.place x = .held t := ⟨stable_held, fun _ _ h _ => h⟩

theorem kept_pending : Kept ts s₀ t fun a => a.place x = .pending t :=
  ⟨stable_pending, fun _ _ h _ => h⟩

theorem Kept.and {R : Aug → Prop} (hP : Kept ts s₀ t P) (hR : Kept ts s₀ t R) :
    Kept ts s₀ t fun a => P a ∧ R a :=
  ⟨hP.stable.and hR.stable, fun a s' h hs => ⟨hP.silent a s' h.1 hs, hR.silent a s' h.2 hs⟩⟩

/-- The actions that change nothing the invariant mentions. -/
def Op.silent {β : Type} : Op β → Bool
  | .getTls | .incOutstanding | .decOutstanding | .loadCell => true
  | _ => false

/-- An access that leaves hazards and places alone. -/
theorem wp_silent {o : Op β} {f : β → Code α} (ho : Op.silent o = true) (hP : Kept ts s₀ t P)
    (hi : Inv ts s₀ a) (h : P a)
    (hf : ∀ a r, Inv ts s₀ a → P a → (∃ b s', action t b o a.st = some (r, s')) →
      (protocol ts s₀).WP t (f r) Q a) : (protocol ts s₀).WP t (.act o f) Q a := by
  refine Discipline.WP.act hP.stable hi h fun a b r s' hi h _ hact => ?_
  have hs : Silent a.st s' := by
    cases o <;> simp only [Op.silent, Bool.false_eq_true] at ho <;> cases hact <;>
      constructor <;> rfl
  refine ⟨{ a with st := s' }, rfl, hs.inv hi, hs.guar, ?_⟩
  refine hf _ r (hs.inv hi) (hP.silent a s' h hs) ?_
  cases o <;> simp only [Op.silent, Bool.false_eq_true] at ho <;> cases hact <;>
    exact ⟨true, _, rfl⟩

/-- A thread reads its own state. -/
theorem wp_getTls {f : ThreadState → Code α} (hP : Kept ts s₀ t P) (hi : Inv ts s₀ a) (h : P a)
    (hf : ∀ a, Inv ts s₀ a → P a → (protocol ts s₀).WP t (f (a.st.tls t)) Q a) :
    (protocol ts s₀).WP t (.act .getTls f) Q a := by
  refine wp_silent rfl hP hi h fun a r hi h hr => ?_
  obtain ⟨b, s', hact⟩ := hr
  cases hact
  exact hf a hi h

/-- The late-retire chain is empty: no thread exits. -/
theorem wp_drainLateRetire (hP : Kept ts s₀ t P) (hi : Inv ts s₀ a) (h : P a) :
    (protocol ts s₀).WP t drainLateRetire (fun _ a => P a) a := by
  refine Discipline.WP.act hP.stable hi h fun a b r s' hi h _ hact => ?_
  simp only [cell, action, protocol, Option.some.injEq, Prod.mk.injEq] at hact
  obtain ⟨rfl, rfl⟩ := hact
  have hs : Silent a.st { a.st with late := none } := by
    constructor <;> first | rfl | exact hi.late.symm
  refine ⟨{ a with st := { a.st with late := none } }, rfl, hs.inv hi, hs.guar, ?_⟩
  rw [Prog.ret_bind, hi.late]
  refine Discipline.WP.loop (I := fun l a => l = (none, none, none) ∧ P a)
    (fun l => Discipline.Stable.const.and hP.stable) (hs.inv hi) ⟨rfl, hP.silent a _ h hs⟩
    fun l a hi hl => ?_
  obtain ⟨rfl, h⟩ := hl
  exact Discipline.WP.ret (Discipline.WP.stable _ _) hi (Discipline.WP.ret hP.stable hi h)

/-- Slot `i` publishes `cur` for a reader that has validated it. -/
def Due (s₀ : State) (cur : Ptr) (a : Aug) (i : Nat) : Prop :=
  ∃ u, a.st.validated u = some cur ∧ (s₀.tls u).slot = some i

/-- A scan for an object that the thread has retired. -/
theorem scanner_retired (hs₀ : Ready ts s₀) (cur : Ptr) (hP : Kept ts s₀ t P) :
    Scanner (protocol ts s₀) s₀ t cur (fun a => a.place cur = .pending t ∧ P a) (Due s₀ cur)
      (fun _ _ h => h = 0) fun a s => { a with st := s } where
  action _ _ _ := rfl
  phase := hs₀.phase t
  frozen _ hi := hi.frozen
  erase_lift _ _ := rfl
  lift_erase _ := rfl
  walk a s' hi h hw := by
    have hs : Silent a.st s' := WalkStep.silent hw
    refine ⟨hs.inv hi, hs.guar, (kept_pending.and hP).silent a s' h hs, fun i ⟨u, hu, hslot⟩ => ?_⟩
    exact ⟨u, by simpa only [hs.validated] using hu, hslot⟩
  stable := (kept_pending.and hP).stable
  due_stable u hut a b _ _ hg h i := by
    rintro ⟨v, hv, hslot⟩
    exact ⟨v, hg.unpublished t hut.symm cur h.1 v hv, hslot⟩
  ahead_stable _ _ _ _ _ _ _ _ _ _ _ h := h
  -- a thread that validates is one of `ts`, and its slot stays registered
  owned a i hi := by
    rintro ⟨u, hu, hslot⟩
    obtain ⟨j, hj, howner, -⟩ := hs₀.members.slot u (hi.validated u cur hu).1
    rw [hslot] at hj
    cases hj
    exact howner
  listed a i hi := by
    rintro ⟨u, hu, hslot⟩
    obtain ⟨j, hj, -, hlist⟩ := hs₀.members.slot u (hi.validated u cur hu).1
    rw [hslot] at hj
    cases hj
    exact hlist
  ahead_zero _ _ _ _ _ := rfl
  ahead_next a i h hi _ hd hh _ hne := by
    obtain ⟨u, hu, hslot⟩ := hd
    obtain ⟨-, -, j, hj, hhp⟩ := hi.validated u cur hu
    rw [hslot] at hj
    cases hj
    subst hh
    exact absurd hhp hne
  ahead_end _ _ _ _ _ h := absurd h (by decide)

/-- An object that no slot protects may be freed, since the cell does not hold it any more. -/
theorem wp_isProtected (hs₀ : Ready ts s₀) {cur : Ptr} (hP : Kept ts s₀ t P) (hi : Inv ts s₀ a)
    (hcur : a.place cur = .pending t) (h : P a) :
    (protocol ts s₀).WP t (isProtected cur) (fun r a => (a.place cur = .pending t ∧ P a) ∧
      (r = false → ∀ u, a.st.validated u ≠ some cur)) a := by
  refine ((scanner_retired hs₀ cur hP).wp_isProtected hi ⟨hcur, h⟩).mono fun r a hi hr => ?_
  refine ⟨hr.1, fun he u hu => ?_⟩
  obtain ⟨-, -, i, hslot, -⟩ := hi.validated u cur hu
  exact hr.2 he i ⟨u, hu, hslot⟩

/-- Between two calls, what a thread has retired and not freed is its list. -/
def Idle (t : Nat) (a : Aug) : Prop := a.pending t = (a.st.tls t).retired

theorem kept_idle : Kept ts s₀ t (Idle t) := kept_tls fun ss ps => ps = ss.retired

/-- In the middle of a scan: the first `kept` entries stay, those from `i` on are still to be
tested. -/
def Compacting (n i kept : Nat) (ss : ThreadState) (ps : List Ptr) : Prop :=
  ss.retired.length = n ∧ kept ≤ i ∧ i ≤ n ∧ ps = ss.retired.take kept ++ ss.retired.drop i

/-- The object that comes next is moved down or freed. -/
theorem Compacting.next {n i kept : Nat} {ss : ThreadState} {ps : List Ptr}
    (h : Compacting n i kept ss ps) (hlt : i < n) :
    ps = ss.retired.take kept ++ ss.retired.getD i 0 :: ss.retired.drop (i + 1) := by
  obtain ⟨hlen, -, -, rfl⟩ := h
  have hi : i < ss.retired.length := by omega
  have hget : ss.retired.getD i 0 = ss.retired[i] := by
    simp [hi]
  rw [List.drop_eq_getElem_cons hi, hget]

/-- An entry that is kept moves to the front. -/
theorem Compacting.keep {n i kept : Nat} {ss : ThreadState} {ps : List Ptr}
    (h : Compacting n i kept ss ps) (hlt : i < n) (acts : List RetireAction) :
    Compacting n (i + 1) (kept + 1)
      { ss with retired := ss.retired.set kept (ss.retired.getD i 0), retiredActions := acts }
      ps := by
  have hps := h.next hlt
  obtain ⟨hlen, hki, -, -⟩ := h
  refine ⟨by simp [hlen], by omega, by omega, ?_⟩
  have hk : kept < (ss.retired.set kept (ss.retired.getD i 0)).length := by
    simp only [List.length_set]
    omega
  rw [hps, List.take_succ_eq_append_getElem hk, List.getElem_set_self,
    List.drop_set_of_lt (by omega), List.take_set, List.set_eq_of_length_le (by simp)]
  simp

/-- The caller's list changes and nothing else. -/
theorem Inv.setTls (hi : Inv ts s₀ a) (ss : ThreadState) (hss : ss.slot = (a.st.tls t).slot) :
    Inv ts s₀ { a with st := { a.st with tls := update a.st.tls t ss } } :=
  { hi with
    frozen := ⟨hi.frozen.owner, hi.frozen.count, hi.frozen.entries, hi.frozen.phase, fun u => by
      have := hi.frozen.slot u
      simp only [Function.update_apply]
      grind⟩ }

/-- A thread writes its own state. -/
theorem Guar.setTls (ss : ThreadState) :
    Guar ts s₀ t a { a with st := { a.st with tls := update a.st.tls t ss } } where
  tls _ hv := Function.update_of_ne hv _ _
  pending _ _ := rfl
  place _ _ _ _ := rfl
  hp _ _ _ _ _ := rfl
  unpublished _ _ _ _ _ h := h

theorem Inv.accept (hi : Inv ts s₀ a) (ac : List (Ptr × RetireAction)) :
    Inv ts s₀ { a with st := { a.st with accepted := ac } } :=
  { hi with
    frozen := ⟨hi.frozen.owner, hi.frozen.count, hi.frozen.entries, hi.frozen.phase,
      hi.frozen.slot⟩ }

/-- One element of the scan. -/
theorem wp_scanStep (hs₀ : Ready ts s₀) {n i kept : Nat} (hi : Inv ts s₀ a)
    (h : Compacting n i kept (a.st.tls t) (a.pending t)) :
    (protocol ts s₀).WP t (scanStep n (i, kept)) (fun r a => Sum.elim
      (fun l => Compacting n l.1 l.2 (a.st.tls t) (a.pending t))
      (fun kept => Compacting n n kept (a.st.tls t) (a.pending t)) r) a := by
  have hstable : ∀ r : Nat × Nat ⊕ Nat, (protocol ts s₀).Stable t fun a => Sum.elim
      (fun l => Compacting n l.1 l.2 (a.st.tls t) (a.pending t))
      (fun kept => Compacting n n kept (a.st.tls t) (a.pending t)) r := by
    rintro (l | kept)
    · exact stable_tls (Compacting n l.1 l.2)
    · exact stable_tls (Compacting n n kept)
  unfold scanStep
  simp only [Prog.bind_eq, Prog.perform_bind, Prog.pure_eq]
  split
  · next hlt =>
    refine wp_getTls (kept_tls (Compacting n i kept)) hi h fun a hi h => ?_
    generalize hss : a.st.tls t = ss at h
    generalize hps : a.pending t = ps at h
    have hnext := h.next hlt
    -- what is tested next is still in the own list, so its action has not run
    have hcur : a.place (ss.retired.getD i 0) = .pending t := by
      refine hi.pending t _ ?_
      rw [hps, hnext]
      simp
    refine Discipline.WP.bind ((wp_isProtected hs₀ (kept_tls fun x y => x = ss ∧ y = ps) hi hcur
      ⟨hss, hps⟩).mono fun r a hi hr => ?_)
    obtain ⟨⟨hcur, hss, hps⟩, hfree⟩ := hr
    cases r with
    | true =>
      rw [if_pos rfl]
      refine Discipline.WP.act (stable_tls fun x y => x = ss ∧ y = ps) hi ⟨hss, hps⟩
        fun a b r s' hi h' _ hact => ?_
      obtain ⟨hss, hps⟩ := h'
      cases hact
      have hi' := hi.setTls (t := t) { a.st.tls t with
        retired := ss.retired.set kept (ss.retired.getD i 0)
        retiredActions := ss.retiredActions.set kept (ss.retiredActions.getD i ⟨0⟩) } rfl
      refine ⟨_, rfl, hi', Guar.setTls _, ?_⟩
      refine Discipline.WP.ret (hstable _) hi' ?_
      show Compacting n (i + 1) (kept + 1) (update a.st.tls t _ t) (a.pending t)
      rw [Function.update_self, hps, hss]
      exact h.keep hlt _
    | false =>
      rw [if_neg (by simp)]
      -- that nobody validates the object stays true: the cell does not hold it any more
      have hunused : (protocol ts s₀).Stable t fun a => (a.place (ss.retired.getD i 0) = .pending t ∧
          a.st.tls t = ss ∧ a.pending t = ps) ∧
          ∀ u, a.st.validated u ≠ some (ss.retired.getD i 0) := by
        intro u hu a b hi hi' hg h'
        refine ⟨(kept_pending.and (kept_tls fun x y => x = ss ∧ y = ps)).stable u hu a b hi hi' hg
          h'.1, fun w hw => h'.2 w (hg.unpublished t hu.symm _ h'.1.1 w hw)⟩
      refine Discipline.WP.act hunused hi ⟨⟨hcur, hss, hps⟩, hfree rfl⟩
        fun a b r s' hi h' _ hact => ?_
      obtain ⟨⟨hcur, hss, hps⟩, hfree⟩ := h'
      cases hact
      have hi' := hi.free hcur (ss.retiredActions.getD i ⟨0⟩) (hps.trans hnext) hfree
      refine ⟨_, rfl, hi', Guar.free hcur _ _, ?_⟩
      have hC : Compacting n (i + 1) kept ss (ss.retired.take kept ++ ss.retired.drop (i + 1)) :=
        ⟨h.1, by have := h.2.1; omega, hlt, rfl⟩
      refine wp_silent rfl (kept_tls (Compacting n (i + 1) kept)) hi' ?_ fun a r hi h _ =>
        Discipline.WP.ret (hstable _) hi h
      show Compacting n (i + 1) kept (a.st.tls t) (update a.pending t _ t)
      rw [Function.update_self, hss]
      exact hC
  · next hge =>
    refine Discipline.WP.ret (hstable _) hi ?_
    obtain rfl : i = n := Nat.le_antisymm h.2.2.1 (Nat.not_lt.mp hge)
    exact h

/-- A scan frees objects that are validated by nobody. -/
theorem wp_scan (hs₀ : Ready ts s₀) (hi : Inv ts s₀ a) (h : Idle t a) :
    (protocol ts s₀).WP t scan (fun _ a => Idle t a) a := by
  refine Discipline.WP.bind ((wp_drainLateRetire kept_idle hi h).mono fun _ a hi h => ?_)
  simp only [Prog.bind_eq, Prog.perform_bind]
  refine wp_getTls kept_idle hi h fun a hi h => ?_
  generalize hn : (a.st.tls t).retired.length = n
  refine Discipline.WP.loop (I := fun l a => Compacting n l.1 l.2 (a.st.tls t) (a.pending t))
    (fun l => stable_tls (Compacting n l.1 l.2)) hi ⟨hn, le_rfl, Nat.zero_le n, h⟩
    fun l a hi h => ?_
  obtain ⟨i, kept⟩ := l
  refine (wp_scanStep hs₀ hi h).mono fun r a hi hr => ?_
  cases r with
  | inl l => exact hr
  | inr kept =>
    refine wp_getTls (kept_tls (Compacting n n kept)) hi hr fun a hi h => ?_
    generalize hss : a.st.tls t = ss at h ⊢
    refine Discipline.WP.act (stable_tls fun x y => x = ss ∧ Compacting n n kept ss y) hi ⟨hss, h⟩
      fun a b r s' hi h _ hact => ?_
    obtain ⟨hss, hlen, -, -, hps⟩ := h
    cases hact
    have hi' := hi.setTls (t := t) { a.st.tls t with
      retired := ss.retired.take kept, retiredActions := ss.retiredActions.take kept } rfl
    refine ⟨_, rfl, hi', Guar.setTls _, ?_⟩
    refine Discipline.WP.ret kept_idle.stable hi' ?_
    show a.pending t = (update a.st.tls t _ t).retired
    rw [Function.update_self, hps, ← hlen]
    simp

end Scan

/-! ## Readers and replacers keep the invariant -/

section Clients

variable {ts : Finset Nat} {s₀ : State} {t i : Nat} {a : Aug} {α : Type} {P : Aug → Prop}
  {x : Ptr}

/-- Publishing in the first hazard. -/
theorem wp_protect (hs₀ : Ready ts s₀) (ht : t ∈ ts) (hslot : (s₀.tls t).slot = some i)
    (v : Option Ptr) (hP : Kept ts s₀ t P)
    (hstore : ∀ a h w, P a → P { a with st := { a.st with hp := h, validated := w } })
    (hi : Inv ts s₀ a) (h : P a) :
    (protocol ts s₀).WP t (protect 0 v) (fun _ a => a.st.hp i 0 = v ∧ P a) a := by
  refine wp_atSlot (fun _ _ _ => rfl) (Guar.refl t) (fun a hi => (hi.frozen.slot t).trans hslot)
    hP.stable hi h fun a hi h => ?_
  refine Discipline.WP.act hP.stable hi h fun a b r s' hi h _ hact => ?_
  cases hact
  refine ⟨_, rfl, hi.store hs₀ ht hslot v, Guar.store hs₀ ht hslot v, ?_⟩
  refine Discipline.WP.ret ((stable_hp ht hslot v).and hP.stable) (hi.store hs₀ ht hslot v)
    ⟨?_, hstore a _ _ h⟩
  simp

/-- Retiring an object that the thread holds. -/
theorem wp_retire (hs₀ : Ready ts s₀) (act : RetireAction) (hi : Inv ts s₀ a)
    (hx : a.place x = .held t) (h : Idle t a) :
    (protocol ts s₀).WP t (retire x act) (fun _ a => Idle t a) a := by
  have hidle : (protocol ts s₀).Stable t (Idle t) := kept_idle.stable
  have hundo : ∀ a, Inv ts s₀ a → Idle t a → (protocol ts s₀).WP t
      (.act .getTls fun ss => if ss.retiredActions.length < ss.retired.length then
        .act (.setRetired ss.retired.dropLast ss.retiredActions) fun _ =>
          .act .decOutstanding fun _ => .ret false
      else .act .decOutstanding fun _ => .ret false) (fun _ a => Idle t a) a := by
    intro a hi h
    have hlast : ∀ a, Inv ts s₀ a → Idle t a → (protocol ts s₀).WP t
        (.act .decOutstanding fun _ => .ret false : Code Bool) (fun _ a => Idle t a) a :=
      fun a hi h => wp_silent rfl kept_idle hi h fun a _ hi h _ => Discipline.WP.ret hidle hi h
    refine wp_getTls kept_idle hi h fun a hi h => ?_
    generalize hss : a.st.tls t = ss at h ⊢
    split
    · next hlen =>
      refine Discipline.WP.act (stable_tls fun y z => y = ss ∧ z = ss.retired) hi
        ⟨hss, h.trans (by rw [hss])⟩ fun a b r s' hi h _ hact => ?_
      obtain ⟨hss, hps⟩ := h
      cases hact
      -- the last retirement is taken back
      have hne : ss.retired ≠ [] := by
        rintro he
        simp [he] at hlen
      have hmem : ss.retired.getLast hne ∈ a.pending t := by
        rw [hps]
        exact List.getLast_mem hne
      have hlastp := hi.pending t _ hmem
      have hnd := hi.pending_nodup t
      rw [hps, ← List.dropLast_append_getLast hne] at hnd
      have hsub : ∀ y ∈ ss.retired.dropLast, (y = ss.retired.getLast hne ∧
          Place.held t = .pending t) ∨ (y ≠ ss.retired.getLast hne ∧ y ∈ a.pending t) := by
        intro y hy
        refine .inr ⟨?_, ?_⟩
        · rintro rfl
          exact List.disjoint_of_nodup_append hnd hy (List.mem_singleton_self _)
        · rw [hps]
          exact List.dropLast_subset _ hy
      have hi' := hi.move { a.st.tls t with
        retired := ss.retired.dropLast, retiredActions := ss.retiredActions } rfl
        (.inr hlastp) (.inl rfl) (List.Nodup.of_append_left hnd) hsub
      exact ⟨_, rfl, hi', Guar.move (.inr hlastp), hlast _ hi' (by simp [Idle])⟩
    · exact hlast a hi h
  unfold retire
  simp only [Prog.bind_eq, Prog.perform_bind, Prog.pure_eq, Prog.ret_bind]
  refine wp_silent rfl (kept_held.and kept_idle) hi ⟨hx, h⟩ fun a _ hi h _ => ?_
  refine Discipline.WP.act (kept_held.and kept_idle).stable hi h fun a b r s' hi h _ hact => ?_
  obtain ⟨hx, h⟩ := h
  simp only [cell, action, protocol] at hact
  split at hact
  · -- the allocation fails
    simp only [Option.some.injEq, Prod.mk.injEq] at hact
    obtain ⟨rfl, rfl⟩ := hact
    exact ⟨a, rfl, hi, Guar.refl t a, hundo a hi h⟩
  · simp only [Option.some.injEq, Prod.mk.injEq] at hact
    obtain ⟨rfl, rfl⟩ := hact
    have hnew : x ∉ a.pending t := fun hm => by
      rw [hi.pending t x hm] at hx
      cases hx
    have hsub : ∀ y ∈ a.pending t ++ [x], (y = x ∧ Place.pending t = .pending t) ∨
        (y ≠ x ∧ y ∈ a.pending t) := by
      intro y hy
      rcases List.mem_append.mp hy with hy | hy
      · exact .inr ⟨fun he => hnew (he ▸ hy), hy⟩
      · exact .inl ⟨List.mem_singleton.mp hy, rfl⟩
    have hi' := hi.move { a.st.tls t with retired := (a.st.tls t).retired ++ [x] } rfl (.inl hx)
      (.inr rfl) (List.Nodup.append (hi.pending_nodup t) (List.nodup_singleton x)
        (List.disjoint_singleton.mpr hnew)) hsub
    refine ⟨_, rfl, hi', Guar.move (.inl hx), ?_⟩
    rw [if_pos rfl]
    refine Discipline.WP.act hidle hi' (by simpa [Idle] using h) fun a b r s' hi h _ hact => ?_
    simp only [cell, action, protocol] at hact
    split at hact
    · simp only [Option.some.injEq, Prod.mk.injEq] at hact
      obtain ⟨rfl, rfl⟩ := hact
      exact ⟨a, rfl, hi, Guar.refl t a, hundo a hi h⟩
    · simp only [Option.some.injEq, Prod.mk.injEq] at hact
      obtain ⟨rfl, rfl⟩ := hact
      have hi' := (hi.setTls (t := t) { a.st.tls t with
        retiredActions := (a.st.tls t).retiredActions ++ [act] } rfl).accept
        (a.st.accepted ++ ((a.st.tls t).retired.getLast?.map fun p => (p, act)).toList)
      refine ⟨{ a with st := _ }, rfl, hi', ⟨fun v hv => Function.update_of_ne hv _ _,
        fun _ _ => rfl, fun _ _ _ _ => rfl, fun _ _ _ _ _ => rfl, fun _ _ _ _ _ h => h⟩, ?_⟩
      rw [if_pos rfl]
      refine wp_getTls kept_idle hi' (by simpa [Idle] using h) fun a hi h => ?_
      split
      · refine Discipline.WP.bind ((wp_scan hs₀ hi h).mono fun _ a hi h => ?_)
        exact Discipline.WP.ret hidle hi h
      · exact Discipline.WP.ret hidle hi h

theorem kept_heldIdle : Kept ts s₀ t fun a => a.place x = .held t ∧ Idle t a :=
  kept_held.and kept_idle

/-- A reader validates what it has published. -/
theorem wp_read (hs₀ : Ready ts s₀) (ht : t ∈ ts) (hi : Inv ts s₀ a) (h : Idle t a) :
    (protocol ts s₀).WP t read (fun _ a => Idle t a) a := by
  obtain ⟨i, hslot, -⟩ := hs₀.members.slot t ht
  have hidle : (protocol ts s₀).Stable t (Idle t) := kept_idle.stable
  unfold read
  simp only [Prog.bind_eq, Prog.perform_bind, Prog.pure_eq]
  refine wp_silent rfl kept_idle hi h fun a p hi h _ => ?_
  split
  · exact Discipline.WP.ret hidle hi h
  · refine Discipline.WP.bind ((wp_protect hs₀ ht hslot p kept_idle (fun _ _ _ h => h) hi h).mono
      fun _ a hi h => ?_)
    refine Discipline.WP.act ((stable_hp ht hslot p).and hidle) hi h fun a b r s' hi h _ hact => ?_
    simp only [cell, action, protocol] at hact
    split at hact
    · next hcell =>
      cases hact
      exact ⟨_, rfl, hi.validate ht hslot h.1 hcell, Guar.validate hi hcell,
        Discipline.WP.ret hidle (hi.validate ht hslot h.1 hcell) h.2⟩
    · cases hact
      exact ⟨a, rfl, hi, Guar.refl t a, Discipline.WP.ret hidle hi h.2⟩

/-- A writer retires what it has taken out of the cell. -/
theorem wp_replace (hs₀ : Ready ts s₀) (ht : t ∈ ts) (act : RetireAction) (hi : Inv ts s₀ a)
    (hx : a.place x = .held t) (h : Idle t a) :
    (protocol ts s₀).WP t (replace x act) (fun _ a => Idle t a) a := by
  obtain ⟨i, hslot, -⟩ := hs₀.members.slot t ht
  have hidle : (protocol ts s₀).Stable t (Idle t) := kept_idle.stable
  have hheld : (protocol ts s₀).Stable t fun a => a.place x = .held t ∧ Idle t a :=
    kept_heldIdle.stable
  refine Discipline.WP.loop (I := fun _ a => a.place x = .held t ∧ Idle t a) (fun _ => hheld) hi
    ⟨hx, h⟩ fun _ a hi h => ?_
  have hretry : ∀ a, Inv ts s₀ a → (a.place x = .held t ∧ Idle t a) → (protocol ts s₀).WP t
      (.ret (.inl ()) : Code (Unit ⊕ Unit)) (fun r s => Sum.elim
        (fun _ => s.place x = .held t ∧ Idle t s)
        (fun b => (protocol ts s₀).WP t (.ret b) (fun _ a => Idle t a) s) r) a :=
    fun a hi h => Discipline.WP.ret hheld hi h
  have hdone : ∀ a, Inv ts s₀ a → Idle t a → (protocol ts s₀).WP t
      (.ret (.inr ()) : Code (Unit ⊕ Unit)) (fun r s => Sum.elim
        (fun _ => s.place x = .held t ∧ Idle t s)
        (fun b => (protocol ts s₀).WP t (.ret b) (fun _ a => Idle t a) s) r) a :=
    fun a hi h => Discipline.WP.ret (Discipline.WP.stable _ _) hi (Discipline.WP.ret hidle hi h)
  simp only [Prog.bind_eq, Prog.perform_bind, Prog.pure_eq]
  refine wp_silent rfl kept_heldIdle hi h fun a old hi h _ => ?_
  refine Discipline.WP.bind ((wp_protect hs₀ ht hslot old kept_heldIdle (fun _ _ _ h => h) hi
    h).mono fun _ a hi h => ?_)
  refine Discipline.WP.act ((stable_hp ht hslot old).and hheld) hi h fun a b r s' hi h _ hact => ?_
  simp only [cell, action, protocol] at hact
  split at hact
  · next hcell =>
    cases hact
    refine ⟨_, rfl, hi.validate ht hslot h.1 hcell, Guar.validate hi hcell, ?_⟩
    rw [if_pos rfl]
    refine Discipline.WP.act hheld (hi.validate ht hslot h.1 hcell) h.2
      fun a b r s' hi hx _ hact => ?_
    simp only [cell, action, protocol] at hact
    split at hact
    · -- the exchange
      next hcas =>
      cases hact
      have hi' := hi.exchange hx.1
      refine ⟨a.exchange t x, rfl, hi', Guar.exchange hi hx.1, ?_⟩
      rw [if_pos rfl]
      cases old with
      | none => exact hdone _ hi' hx.2
      | some p =>
        have hp : (a.exchange t x).place p = .held t := by
          have hpx : p ≠ x := by
            rintro rfl
            have := hi.cell p hcas.1
            rw [hx.1] at this
            cases this
          simp only [Aug.exchange, if_neg hpx, hcas.1, if_pos]
        exact Discipline.WP.bind ((wp_retire hs₀ act hi' hp hx.2).mono fun _ a hi h => hdone a hi h)
    · cases hact
      exact ⟨a, rfl, hi, Guar.refl t a, hretry a hi hx⟩
  · cases hact
    exact ⟨a, rfl, hi, Guar.refl t a, hretry a hi h.2⟩

/-- An object that was not there before is held by the thread that made it. -/
theorem Inv.make (hi : Inv ts s₀ a) (hx : x ∉ a.st.made) :
    Inv ts s₀ { a with
      st := { a.st with made := insert x a.st.made }
      place := update a.place x (.held t) } := by
  have hnew := hi.made x hx
  exact {
    frozen := ⟨hi.frozen.owner, hi.frozen.count, hi.frozen.entries, hi.frozen.phase,
      hi.frozen.slot⟩
    late := hi.late
    made := fun y hy => by
      simp only [Finset.mem_insert, not_or] at hy
      simp only [Function.update_of_ne hy.1]
      exact hi.made y hy.2
    cell := fun y hy => by
      have := hi.cell y hy
      simp only [Function.update_apply]
      grind
    pending := fun u y hy => by
      have := hi.pending u y hy
      simp only [Function.update_apply]
      grind
    pending_nodup := hi.pending_nodup
    ran := fun y hy => by
      have := hi.ran y hy
      simp only [Function.update_apply]
      grind
    ran_nodup := hi.ran_nodup
    validated := fun u p hp => by
      obtain ⟨hu, hplace, hslot⟩ := hi.validated u p hp
      refine ⟨hu, ?_, hslot⟩
      simp only [Function.update_apply]
      grind }

/-- A new object is nobody's yet. -/
theorem Guar.make (hi : Inv ts s₀ a) (hx : x ∉ a.st.made) :
    Guar ts s₀ t a { a with
      st := { a.st with made := insert x a.st.made }
      place := update a.place x (.held t) } where
  tls _ _ := rfl
  pending _ _ := rfl
  place v hv y hy := by
    have := hi.made x hx
    simp only [Function.update_apply]
    grind
  hp _ _ _ _ _ := rfl
  unpublished _ _ _ _ _ h := h

end Clients

/-! ## Every run -/

section Runs

variable {ts : Finset Nat} {s₀ : State}

/-- The calls keep the protocol. -/
theorem covers_protocol (hs₀ : Ready ts s₀) :
    (protocol ts s₀).CoversIdle Idle fun t _ _ a => Idle t a where
  stable _ := kept_idle.stable
  invoke t c a s' hi h hinv := by
    have hidle : (protocol ts s₀).Stable t (Idle t) := kept_idle.stable
    have hdone : ∀ p : Code Unit, (protocol ts s₀).WP t p (fun _ a => Idle t a) a →
        (protocol ts s₀).WP t (p.bind fun _ => .ret true) (fun _ a => Idle t a) a := fun p hp =>
      Discipline.WP.bind (hp.mono fun _ a hi h => Discipline.WP.ret hidle hi h)
    cases c with
    | read =>
      simp only [cell, invoke, protocol] at hinv
      split at hinv
      · next ht =>
        cases hinv
        exact ⟨a, rfl, Guar.refl t a, wp_read hs₀ ht hi h⟩
      · cases hinv
    | replace x act =>
      simp only [cell, invoke, protocol] at hinv
      split at hinv
      · next ht =>
        cases hinv
        -- the new object is nowhere else
        have hi' := hi.make (t := t) ht.2
        refine ⟨_, rfl, Guar.make hi ht.2, ?_⟩
        refine Discipline.WP.bind ((wp_replace hs₀ ht.1 act hi' (by simp) h).mono
          fun _ a hi h => ?_)
        exact Discipline.WP.ret hidle hi h
      · cases hinv
    | clear =>
      simp only [cell, invoke, protocol] at hinv
      split at hinv
      · next ht =>
        cases hinv
        obtain ⟨i, hslot, -⟩ := hs₀.members.slot t ht
        refine ⟨a, rfl, Guar.refl t a, hdone _ ?_⟩
        exact (wp_protect hs₀ ht hslot none kept_idle (fun _ _ _ h => h) hi h).mono
          fun _ a _ h => h.2
      · cases hinv
    | reclaim =>
      simp only [cell, invoke, protocol] at hinv
      split at hinv
      · cases hinv
        exact ⟨a, rfl, Guar.refl t a, hdone _ (wp_scan hs₀ hi h)⟩
      · cases hinv
  respond t c r a hi h := ⟨a, rfl, hi, Guar.refl t a, h⟩

/-- The initial state with its ghosts. -/
def Aug.start (s₀ : State) : Aug where
  st := s₀
  place x := if s₀.cell = some x then .cell else .nowhere
  pending _ := []

/-- Registered threads may start. -/
theorem inv_start (hs₀ : Ready ts s₀) : Inv ts s₀ (.start s₀) where
  frozen := ⟨rfl, rfl, rfl, rfl, fun _ => rfl⟩
  late := hs₀.late
  made x hx := if_neg fun he => hx (hs₀.made x he)
  cell x hx := if_pos hx
  pending t x hx := absurd hx List.not_mem_nil
  pending_nodup _ := List.nodup_nil
  ran x hx := by simp [Aug.start, hs₀.ran] at hx
  ran_nodup := by simp [Aug.start, hs₀.ran]
  validated u p hp := by simp [Aug.start, hs₀.validated] at hp

/-- In every run of readers and replacers over a fixed registry, no object that a reader has
validated is freed before the reader overwrites its hazard, and no object is freed twice. -/
theorem cell_safe (ts : Finset Nat) (s₀ : State) (hs₀ : Ready ts s₀)
    (c : Config Op State Call Bool) (h : (cell ts).Reachable s₀ c) :
    (∀ u p, c.shared.validated u = some p → p ∉ c.shared.ran.map Prod.fst) ∧
      (c.shared.ran.map Prod.fst).Nodup := by
  have hidle : ∀ t, Idle t (.start s₀) := fun t => (hs₀.retired t).symm
  obtain ⟨a, ha, -⟩ := Discipline.reach_idle (D := protocol ts s₀) (covers_protocol hs₀)
    (inv_start hs₀) hidle h
  rw [← ha.erase]
  refine ⟨fun u p hp hm => ?_, ha.inv.ran_nodup⟩
  exact (ha.inv.validated u p hp).2.1 (ha.inv.ran p hm)

/-- Any number of registered threads may start. -/
theorem ready_registered (n : Nat) : Ready (Finset.range n) (.registered n) where
  members := members_registered n
  phase t := by
    simp only [State.registered]
    split <;> decide
  late := rfl
  retired t := by
    simp only [State.registered]
    split <;> rfl
  made x hx := by cases hx
  validated _ := rfl
  ran := rfl

/-- The steps of one thread in a row. -/
def alone (t n : Nat) : List (Label Call) := List.replicate n (.step t false)

/-- Thread 1 validates 7, thread 0 replaces it and scans, and scans again once 7 is released. -/
def replaced : List (Label Call) :=
  [.call 0 (.replace 7 ⟨1⟩)] ++ alone 0 6 ++ [.ret 0] ++ [.call 1 .read] ++ alone 1 4 ++ [.ret 1] ++
  [.call 0 (.replace 8 ⟨2⟩)] ++ alone 0 10 ++ [.ret 0] ++ [.call 0 .clear] ++ alone 0 2 ++
  [.ret 0, .call 0 .reclaim] ++ alone 0 27 ++ [.ret 0] ++ [.call 1 .clear] ++ alone 1 2 ++
  [.ret 1, .call 0 .reclaim] ++ alone 0 36 ++ [.ret 0]

/-- The first object is freed in that run, after thread 1 has let go of it. -/
theorem cell_safe_run :
    ∃ c, (cell (Finset.range 2)).Reachable (.registered 2) c ∧ c.shared.ran = [(7, ⟨2⟩)] ∧
      (∀ u p, c.shared.validated u = some p → p ∉ c.shared.ran.map Prod.fst) ∧
      (c.shared.ran.map Prod.fst).Nodup := by
  have hrun : ((cell (Finset.range 2)).exec (SharedObject.start (.registered 2)) replaced).map
      (fun c => c.shared.ran) = some [(7, ⟨2⟩)] := by rfl
  obtain ⟨c, hc, hran⟩ := Option.map_eq_some_iff.mp hrun
  have hreach := (cell (Finset.range 2)).reachable_exec replaced hc
  exact ⟨c, hreach, hran, cell_safe (Finset.range 2) (.registered 2) (ready_registered 2) c hreach⟩

end Runs

end Cell

end MpmcMap.Reclaim.Hazard
