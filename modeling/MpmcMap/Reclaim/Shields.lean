import MpmcMap.Conc.RelyGuarantee
import MpmcMap.Reclaim.Hazard

/-!
# Traversals under an exact is_protected

A data structure whose traversals publish what they read in hazard slots, over a fixed set of
registered threads. Here `is_protected` is one access that answers whether some slot holds the
object at that instant; the rest of `retire` and `scan` is as in the reclaimer, with the late-retire
chain as a list. A slot *trusts* its object from the moment at which the traversal goes on with it.
Every dereference of a freed object is recorded.

`safe` says what this protocol gives: where no object is retired before it is trusted, programs that
dereference only what they trust, and what is never retired, dereference no freed object. What the
programs know about the data structure is a parameter, the `Client`.
-/

namespace MpmcMap.Reclaim.Shields

open Conc
open Prog (perform iterate)
open Hazard (HAZARD_POINTERS)
open Function (update)

instance : NeZero HAZARD_POINTERS := ⟨by decide⟩

/-- The hazard slots and the retired objects. -/
structure State (Obj : Type) where
  /-- The slots of each thread. -/
  hp : Nat → Fin HAZARD_POINTERS → Option Obj
  /-- `tls_.retired` of each thread. -/
  retired : Nat → List Obj
  /-- The late-retire chain. -/
  late : List Obj
  /-- The objects passed to `retire`. -/
  submitted : List Obj
  /-- The objects freed by a scan, oldest first. -/
  freed : List Obj
  /-- The object that the thread goes on with under this slot, until the slot is overwritten. -/
  trusted : Nat → Fin HAZARD_POINTERS → Option Obj
  /-- The freed objects that a traversal has dereferenced, oldest first. -/
  stale : List Obj

/-- Nothing published, nothing retired. -/
def State.init {Obj : Type} : State Obj where
  hp := fun _ _ => none
  retired := fun _ => []
  late := []
  submitted := []
  freed := []
  trusted := fun _ _ => none
  stale := []

/-- The accesses of the reclaimer. -/
inductive Own (E : Type → Type) (Obj : Type) : Type → Type where
  /-- The re-read of the source of what was published in slot `h`: is it unchanged? The source is in
  the object `src`, if in any. -/
  | validate (h : Fin HAZARD_POINTERS) (src : Option Obj) (e : E Bool) : Own E Obj Bool
  | protect (h : Fin HAZARD_POINTERS) (p : Option Obj) : Own E Obj Unit
  /-- A publication with which the traversal goes on at once. -/
  | protectTrusted (h : Fin HAZARD_POINTERS) (p : Option Obj) : Own E Obj Unit
  | isProtected (p : Obj) : Own E Obj Bool
  | getRetired : Own E Obj (List Obj)
  | setRetired (l : List Obj) : Own E Obj Unit
  | pushRetired (p : Obj) : Own E Obj Unit
  /-- The object's action. -/
  | run (p : Obj) : Own E Obj Unit
  | exchangeLate : Own E Obj (List Obj)
  | pushLate (p : Obj) : Own E Obj Unit

/-- The accesses `E` of the data structure and those of the reclaimer. -/
inductive Op (E : Type → Type) (Obj β : Type) : Type where
  | access (e : E β)
  /-- An access that dereferences `p`. -/
  | read (p : Obj) (e : E β)
  /-- An access that dereferences `p` although its slot may have been given away. -/
  | again (p : Obj) (e : E β)
  | own (o : Own E Obj β)

section

variable {E : Type → Type} {S Obj : Type} [DecidableEq Obj]

namespace State

variable (s : State Obj) (t : Nat) (h : Fin HAZARD_POINTERS) (p : Option Obj)

/-- Dereference an object. -/
def visit (q : Obj) : State Obj := if q ∈ s.freed then { s with stale := s.stale ++ [q] } else s

/-- Publish `p`; it stays trusted if another slot of the thread trusts it. -/
def protect : State Obj :=
  { s with
    hp := update s.hp t (update (s.hp t) h p)
    trusted := update s.trusted t (update (s.trusted t) h
      (if ∃ h', s.trusted t h' = p then p else none)) }

/-- Slot `h` trusts what it holds. -/
def trust : State Obj :=
  { s with trusted := update s.trusted t (update (s.trusted t) h (s.hp t h)) }

end State

variable (ts : Finset Nat) (access : {β : Type} → Nat → Bool → E β → S → Option (β × S))

/-- The meaning of the reclaimer's accesses over the threads `ts`; `access` is that of the accesses
of the data structure. -/
def Own.action {β : Type} (t : Nat) (b : Bool) (o : Own E Obj β) (s : S × State Obj) :
    Option (β × S × State Obj) :=
  match o with
  | .validate h src e => (access t b e s.1).map fun r =>
      (r.1, r.2, if r.1 then (src.elim s.2 s.2.visit).trust t h else src.elim s.2 s.2.visit)
  | .protect h p => some ((), s.1, s.2.protect t h p)
  | .protectTrusted h p => some ((), s.1, (s.2.protect t h p).trust t h)
  | .isProtected p => some (decide (∃ u ∈ ts, ∃ h, s.2.hp u h = some p), s)
  | .getRetired => some (s.2.retired t, s)
  | .setRetired l => some ((), s.1, { s.2 with retired := update s.2.retired t l })
  | .pushRetired p => some ((), s.1, { s.2 with
      retired := update s.2.retired t (s.2.retired t ++ [p])
      submitted := s.2.submitted ++ [p] })
  | .run p => some ((), s.1, { s.2 with freed := s.2.freed ++ [p] })
  | .exchangeLate => some (s.2.late, s.1, { s.2 with late := [] })
  | .pushLate p => some ((), s.1, { s.2 with late := p :: s.2.late })

/-- The meaning of the actions. -/
def action {β : Type} (t : Nat) (b : Bool) (o : Op E Obj β) (s : S × State Obj) :
    Option (β × S × State Obj) :=
  match o with
  | .access e => (access t b e s.1).map fun r => (r.1, r.2, s.2)
  | .read p e | .again p e => (access t b e s.1).map fun r => (r.1, r.2, s.2.visit p)
  | .own o => o.action ts access t b s

/-! ## The code of the reclaimer -/

abbrev Code (E : Type → Type) (Obj : Type) := Prog (Op E Obj)

omit [DecidableEq Obj]

/-- `drain_late_retire()`: free the orphans that are not protected, push the others back. -/
def drainLateRetire : Code E Obj Unit := do
  let head ← perform (.own .exchangeLate)
  let kept ← iterate (fun (l : List Obj × List Obj) => do
    match l with
    | ([], kept) => return .inr kept
    | (o :: rest, kept) =>
      if ← perform (.own (.isProtected o)) then
        return .inl (rest, kept ++ [o])
      else
        perform (.own (.run o))
        return .inl (rest, kept)) (head, [])
  iterate (fun (l : List Obj) => do
    match l with
    | [] => return .inr ()
    | o :: rest =>
      perform (.own (.pushLate o))
      return .inl rest) kept

/-- One element of the loop of `scan`, from `(i, kept)`. -/
def scanStep (n : Nat) : Nat × Nat → Code E Obj (Nat × Nat ⊕ Nat)
  | (i, kept) => do
    if i < n then
      let l ← perform (.own .getRetired)
      match l[i]? with
      | none => return .inr kept
      | some cur =>
        if ← perform (.own (.isProtected cur)) then
          perform (.own (.setRetired (l.set kept cur)))
          return .inl (i + 1, kept + 1)
        else
          perform (.own (.run cur))
          return .inl (i + 1, kept)
    else return .inr kept

/-- `scan()`. -/
def scan : Code E Obj Unit := do
  drainLateRetire
  let l ← perform (.own .getRetired)
  let kept ← iterate (scanStep l.length) (0, 0)
  let l ← perform (.own .getRetired)
  perform (.own (.setRetired (l.take kept)))

/-- `retire(p, action)`; `threshold` is `MPMC_HAZARD_RETIRE_THRESHOLD`. -/
def retire (threshold : Nat) (p : Obj) : Code E Obj Unit := do
  perform (.own (.pushRetired p))
  let l ← perform (.own .getRetired)
  if threshold < l.length then
    scan

/-- The accesses of the reclaimer other than the re-reads. -/
def Own.Blind {β : Type} : Own E Obj β → Prop
  | .validate .. => False
  | _ => True

/-- The accesses that do not concern the data structure. -/
def Op.Blind {β : Type} : Op E Obj β → Prop
  | .own o => o.Blind
  | _ => False

theorem blind_drainLateRetire : (drainLateRetire : Code E Obj Unit).Uses Op.Blind := by
  unfold drainLateRetire
  simp only [Prog.bind_eq, Prog.perform_bind, Prog.iterate_bind, Prog.pure_eq]
  refine .act trivial fun head => .loop (fun l => ?_) fun kept => .loop (fun l => ?_) fun _ => .ret _
  · obtain ⟨_ | ⟨o, rest⟩, kept⟩ := l
    · exact .ret _
    · refine .act trivial fun b => ?_
      split
      · exact .ret _
      · exact .act trivial fun _ => .ret _
  · cases l with
    | nil => exact .ret _
    | cons o rest => exact .act trivial fun _ => .ret _

theorem blind_scan : (scan : Code E Obj Unit).Uses Op.Blind := by
  unfold scan scanStep
  simp only [Prog.bind_eq, Prog.perform_bind, Prog.iterate_bind, Prog.pure_eq]
  refine blind_drainLateRetire.bind fun _ => .act trivial fun l => .loop (fun st => ?_)
    fun kept => .act trivial fun l => .act trivial fun _ => .ret _
  obtain ⟨i, kept⟩ := st
  split
  · refine .act trivial fun l => ?_
    cases l[i]? with
    | none => exact .ret _
    | some cur =>
      refine .act trivial fun b => ?_
      split
      · exact .act trivial fun _ => .ret _
      · exact .act trivial fun _ => .ret _
  · exact .ret _

theorem blind_retire (threshold : Nat) (p : Obj) :
    (retire threshold p : Code E Obj Unit).Uses Op.Blind := by
  unfold retire
  simp only [Prog.bind_eq, Prog.perform_bind, Prog.pure_eq]
  refine .act trivial fun _ => .act trivial fun l => ?_
  split
  · exact blind_scan
  · exact .ret _

variable {ts access} in
theorem action_blind [DecidableEq Obj] {β : Type} {t : Nat} {b : Bool} {o : Op E Obj β}
    {s s' : S × State Obj} {r : β} (ho : o.Blind) (h : action ts access t b o s = some (r, s')) :
    s'.1 = s.1 := by
  cases o with
  | own o =>
    cases o with
    | validate h src e => exact ho.elim
    | _ =>
      cases h
      rfl
  | _ => exact ho.elim

end

/-! ## The system -/

section

variable {E : Type → Type} {S Obj Call Ret : Type} [DecidableEq Obj]

/-- A data structure under the protocol; its threads are those of `ts`. -/
def system (ts : Finset Nat) (access : {β : Type} → Nat → Bool → E β → S → Option (β × S))
    (code : Call → Code E Obj Ret) (invoke : Call → S → Option S) :
    SharedObject (Op E Obj) (S × State Obj) Call Ret where
  action := action ts access
  code := code
  invoke t c s := if t ∈ ts then (invoke c s.1).map fun x => (x, s.2) else none
  respond _ _ _ s := s

/-- `Timely` for the accesses of the reclaimer. -/
def Own.Timely (access : {β : Type} → Nat → Bool → E β → S → Option (β × S)) {β : Type} (t : Nat)
    (o : Own E Obj β) (s : S × State Obj) : Prop :=
  match o with
  | .validate h _ e => ∀ b r, access t b e s.1 = some r → r.1 = true →
      ∀ p, s.2.hp t h = some p → p ∉ s.2.submitted
  | .protectTrusted _ p => ∀ q, p = some q → q ∉ s.2.submitted
  | _ => True

/-- What thread `t` may dereference: what it trusts and what is not retired. -/
def State.Holds (s : State Obj) (t : Nat) (p : Obj) : Prop :=
  (∃ h, s.trusted t h = some p) ∨ p ∉ s.submitted

instance (s : State Obj) (t : Nat) (p : Obj) : Decidable (s.Holds t p) :=
  inferInstanceAs (Decidable (_ ∨ _))

/-- An object that becomes trusted is not retired yet, and what is dereferenced without its slot is
not retired either. -/
def Timely (access : {β : Type} → Nat → Bool → E β → S → Option (β × S)) {β : Type} (t : Nat)
    (o : Op E Obj β) (s : S × State Obj) : Prop :=
  match o with
  | .own o => o.Timely access t s
  | .again p _ => s.2.Holds t p
  | _ => True

/-- No slot trusts `p`. -/
def Untrusted (s : State Obj) (p : Obj) : Prop := ∀ u h, s.trusted u h ≠ some p

structure Inv (ts : Finset Nat) (s : State Obj) : Prop where
  freed : ∀ p ∈ s.freed, p ∈ s.submitted
  retired : ∀ t, ∀ p ∈ s.retired t, p ∈ s.submitted
  late : ∀ p ∈ s.late, p ∈ s.submitted
  trusted : ∀ t h p, s.trusted t h = some p → t ∈ ts ∧ s.hp t h = some p ∧ p ∉ s.freed
  stale : s.stale = []

structure Guar (t : Nat) (a b : State Obj) : Prop where
  hp : ∀ u, u ≠ t → b.hp u = a.hp u
  trusted : ∀ u, u ≠ t → b.trusted u = a.trusted u
  retired : ∀ u, u ≠ t → b.retired u = a.retired u
  submitted : ∀ p ∈ a.submitted, p ∈ b.submitted
  untrusted : ∀ p ∈ a.submitted, Untrusted a p → Untrusted b p

/-- The data structure with history variables: what holds of it and of the objects passed to
`retire`, and what a step of each thread may change. -/
structure Client (S Obj : Type) where
  Aug : Type
  erase : Aug → S
  inv : Aug → List Obj → Prop
  guar : Nat → Aug → Aug → Prop
  refl : ∀ t x, guar t x x

/-- Nothing is known about the data structure. -/
def Client.unknown (S Obj : Type) : Client S Obj :=
  ⟨S, id, fun _ _ => True, fun _ _ _ => True, fun _ _ => trivial⟩

/-- The invariant of the whole system. -/
structure Sound (ts : Finset Nat) (K : Client S Obj) (a : K.Aug × State Obj) : Prop where
  slots : Inv ts a.2
  client : K.inv a.1 a.2.submitted

variable {ts : Finset Nat} {access : {β : Type} → Nat → Bool → E β → S → Option (β × S)}
  {code : Call → Code E Obj Ret} {invoke : Call → S → Option S} {K : Client S Obj}
  {ok : {β : Type} → Nat → Op E Obj β → S × State Obj → Prop} {t : Nat} {s : State Obj} {h : Fin HAZARD_POINTERS} {p q : Obj}

omit [DecidableEq Obj] in
theorem Guar.refl (t : Nat) (s : State Obj) : Guar t s s :=
  ⟨fun _ _ => rfl, fun _ _ => rfl, fun _ _ => rfl, fun _ h => h, fun _ _ h => h⟩

omit [DecidableEq Obj] in
theorem Guar.trans {a b c : State Obj} (h₁ : Guar t a b) (h₂ : Guar t b c) : Guar t a c where
  hp u hu := (h₂.hp u hu).trans (h₁.hp u hu)
  trusted u hu := (h₂.trusted u hu).trans (h₁.trusted u hu)
  retired u hu := (h₂.retired u hu).trans (h₁.retired u hu)
  submitted p hp := h₂.submitted p (h₁.submitted p hp)
  untrusted p hp hu := h₂.untrusted p (h₁.submitted p hp) (h₁.untrusted p hp hu)

/-! ### Publications -/

theorem trusted_protect {u : Nat} {h' : Fin HAZARD_POINTERS} {o : Option Obj}
    (hq : (s.protect t h o).trusted u h' = some q) :
    (∃ h'', s.trusted u h'' = some q) ∧ (s.protect t h o).hp u h' =
      if u = t ∧ h' = h then some q else s.hp u h' := by
  simp only [State.protect] at hq ⊢
  by_cases hut : u = t
  · subst hut
    rw [Function.update_self] at hq ⊢
    by_cases hh : h' = h
    · subst hh
      rw [Function.update_self] at hq ⊢
      split at hq
      · next hex =>
        subst hq
        exact ⟨hex, by simp⟩
      · cases hq
    · rw [Function.update_of_ne hh] at hq ⊢
      exact ⟨⟨h', hq⟩, by simp [hh]⟩
  · rw [Function.update_of_ne hut] at hq ⊢
    exact ⟨⟨h', hq⟩, by simp [hut]⟩

theorem Inv.protect (hi : Inv ts s) (h : Fin HAZARD_POINTERS) (o : Option Obj) :
    Inv ts (s.protect t h o) where
  freed := hi.freed
  retired := hi.retired
  late := hi.late
  trusted u h' q hq := by
    obtain ⟨⟨h'', hold⟩, hhp⟩ := trusted_protect hq
    obtain ⟨hu, -, hf⟩ := hi.trusted u h'' q hold
    refine ⟨hu, ?_, hf⟩
    rw [hhp]
    split
    · rfl
    · next hne =>
      have hkeep : s.trusted u h' = some q := by
        simp only [State.protect] at hq
        by_cases hut : u = t
        · subst hut
          rwa [Function.update_self, Function.update_of_ne fun he => hne ⟨rfl, he⟩] at hq
        · rwa [Function.update_of_ne hut] at hq
      exact (hi.trusted u h' q hkeep).2.1
  stale := hi.stale

theorem Guar.protect (h : Fin HAZARD_POINTERS) (o : Option Obj) :
    Guar t s (s.protect t h o) where
  hp u hu := Function.update_of_ne hu _ _
  trusted u hu := Function.update_of_ne hu _ _
  retired _ _ := rfl
  submitted _ hp := hp
  untrusted p _ hun u h' hq := by
    obtain ⟨⟨h'', hold⟩, -⟩ := trusted_protect hq
    exact hun u h'' hold

omit [DecidableEq Obj] in
theorem trusted_trust {u : Nat} {h' : Fin HAZARD_POINTERS}
    (hq : (s.trust t h).trusted u h' = some q) :
    s.trusted u h' = some q ∨ (u = t ∧ h' = h ∧ s.hp t h = some q) := by
  simp only [State.trust] at hq
  by_cases hut : u = t
  · subst hut
    rw [Function.update_self] at hq
    by_cases hh : h' = h
    · subst hh
      rw [Function.update_self] at hq
      exact .inr ⟨rfl, rfl, hq⟩
    · rw [Function.update_of_ne hh] at hq
      exact .inl hq
  · rw [Function.update_of_ne hut] at hq
    exact .inl hq

omit [DecidableEq Obj] in
theorem Inv.trust (hi : Inv ts s) (ht : t ∈ ts) (hp : ∀ p, s.hp t h = some p → p ∉ s.submitted) :
    Inv ts (s.trust t h) where
  freed := hi.freed
  retired := hi.retired
  late := hi.late
  trusted u h' q hq := by
    rcases trusted_trust hq with hold | ⟨rfl, rfl, hq⟩
    · exact hi.trusted u h' q hold
    · exact ⟨ht, hq, fun hf => hp q hq (hi.freed q hf)⟩
  stale := hi.stale

omit [DecidableEq Obj] in
theorem Guar.trust (hp : ∀ p, s.hp t h = some p → p ∉ s.submitted) : Guar t s (s.trust t h) where
  hp _ _ := rfl
  trusted u hu := Function.update_of_ne hu _ _
  retired _ _ := rfl
  submitted _ h := h
  untrusted p hs hun u h' hq := by
    rcases trusted_trust hq with hold | ⟨rfl, rfl, hq⟩
    · exact hun u h' hold
    · exact hp p hq hs

/-! ### Reclamation -/

omit [DecidableEq Obj] in
theorem Inv.free (hi : Inv ts s) (hp : p ∈ s.submitted) (hu : Untrusted s p) :
    Inv ts { s with freed := s.freed ++ [p] } where
  freed q hq := by
    rcases List.mem_append.mp hq with hq | hq
    · exact hi.freed q hq
    · rw [List.mem_singleton.mp hq]
      exact hp
  retired := hi.retired
  late := hi.late
  trusted u h' q hq := by
    obtain ⟨h1, h2, h3⟩ := hi.trusted u h' q hq
    refine ⟨h1, h2, fun hf => ?_⟩
    rcases List.mem_append.mp hf with hf | hf
    · exact h3 hf
    · rw [List.mem_singleton.mp hf] at hq
      exact hu u h' hq
  stale := hi.stale

omit [DecidableEq Obj] in
/-- The thread's list changes, and more may be retired. -/
theorem Inv.setRetired (hi : Inv ts s) (t : Nat) {l sub : List Obj}
    (hsub : ∀ p ∈ s.submitted, p ∈ sub) (hl : ∀ p ∈ l, p ∈ sub) :
    Inv ts { s with retired := update s.retired t l, submitted := sub } where
  freed p hp := hsub p (hi.freed p hp)
  retired u p (hp : p ∈ update s.retired t l u) := by
    by_cases hut : u = t
    · rw [hut, Function.update_self] at hp
      exact hl p hp
    · rw [Function.update_of_ne hut] at hp
      exact hsub p (hi.retired u p hp)
  late p hp := hsub p (hi.late p hp)
  trusted := hi.trusted
  stale := hi.stale

theorem Inv.visit (hi : Inv ts s) (hp : s.Holds t p) : s.visit p = s := by
  apply if_neg
  intro hf
  rcases hp with ⟨h, htrust⟩ | hnot
  · exact (hi.trusted t h p htrust).2.2 hf
  · exact hnot (hi.freed p hf)

variable (ts access code invoke K ok) in
/-- The proof obligations of the threads in the runs all of whose actions meet `ok`. -/
def discipline : Discipline (system ts access code invoke) (K.Aug × State Obj) where
  erase a := (K.erase a.1, a.2)
  inv := Sound ts K
  guar t a b := Guar t a.2 b.2 ∧ K.guar t a.1 b.1
  ok := ok

theorem stable_submitted (l : List Obj) :
    (discipline ts access code invoke K ok).Stable t fun s => ∀ p ∈ l, p ∈ s.2.submitted :=
  fun _ _ _ _ _ _ hg hl p hp => hg.1.submitted p (hl p hp)

theorem stable_untrusted :
    (discipline ts access code invoke K ok).Stable t fun s =>
      p ∈ s.2.submitted ∧ Untrusted s.2 p :=
  fun _ _ _ _ _ _ hg h => ⟨hg.1.submitted p h.1, hg.1.untrusted p h.1 h.2⟩

theorem stable_trusted (P : (Fin HAZARD_POINTERS → Option Obj) → Prop) :
    (discipline ts access code invoke K ok).Stable t fun s => P (s.2.trusted t) := by
  intro u hu a b _ _ hg h
  rwa [hg.1.trusted t hu.symm]

theorem stable_hp (o : Option Obj) :
    (discipline ts access code invoke K ok).Stable t fun s => s.2.hp t h = o := by
  intro u hu a b _ _ hg hhp
  rwa [hg.1.hp t hu.symm]

/-- An assertion about the lists of the thread that the thread itself keeps. -/
abbrev Listed (l : List Obj) (s : K.Aug × State Obj) : Prop := ∀ p ∈ l, p ∈ s.2.submitted

variable {α : Type} {Q : α → K.Aug × State Obj → Prop} {a : K.Aug × State Obj}

/-- An access of the reclaimer that leaves the data structure alone. -/
theorem wp_own {β : Type} {o : Own E Obj β} {k : β → Code E Obj α} {P : K.Aug × State Obj → Prop}
    (hP : (discipline ts access code invoke K ok).Stable t P) (hi : Sound ts K a) (h : P a)
    (hk : ∀ s b r x s', Sound ts K s → P s → ok t (.own o) (K.erase s.1, s.2) →
      o.action ts access t b (K.erase s.1, s.2) = some (r, x, s') → x = K.erase s.1 ∧
        Sound ts K (s.1, s') ∧ Guar t s.2 s' ∧
        (discipline ts access code invoke K ok).WP t (k r) Q (s.1, s')) :
    (discipline ts access code invoke K ok).WP t (.act (.own o) k) Q a := by
  refine Discipline.WP.act hP hi h fun s b r s' hi h hok hact => ?_
  obtain ⟨hx, hi', hg, hw⟩ := hk s b r s'.1 s'.2 hi h hok hact
  exact ⟨(s.1, s'.2), Prod.ext hx.symm rfl, hi', ⟨hg, K.refl t s.1⟩, hw⟩

/-- `is_protected` of a retired object: what it does not find is not trusted, now and later. -/
theorem wp_isProtected {k : Bool → Code E Obj α} {l : List Obj} (hi : Sound ts K a)
    (hl : Listed l a)
    (hk : ∀ r a, Sound ts K a → Listed l a → (r = false → Untrusted a.2 p) →
      (discipline ts access code invoke K ok).WP t (k r) Q a) :
    (discipline ts access code invoke K ok).WP t (.act (.own (.isProtected p)) k) Q a := by
  refine wp_own (stable_submitted l) hi hl fun s b r x s' hi hl _ hact => ?_
  cases hact
  refine ⟨rfl, hi, Guar.refl t s.2, hk _ s hi hl fun hr u h' hq => ?_⟩
  obtain ⟨hu, hhp, -⟩ := hi.slots.trusted u h' p hq
  exact of_decide_eq_false hr ⟨u, hu, h', hhp⟩

/-- Freeing an object that is retired and not trusted. -/
theorem wp_run {k : Unit → Code E Obj α} {l : List Obj} (hi : Sound ts K a) (hl : Listed l a)
    (hp : p ∈ l) (hu : Untrusted a.2 p)
    (hk : ∀ a, Sound ts K a → Listed l a →
      (discipline ts access code invoke K ok).WP t (k ()) Q a) :
    (discipline ts access code invoke K ok).WP t (.act (.own (.run p)) k) Q a := by
  refine wp_own ((stable_submitted l).and stable_untrusted) hi ⟨hl, hl p hp, hu⟩
    fun s b r x s' hi hlu _ hact => ?_
  obtain ⟨hl, hp, hu⟩ := hlu
  cases hact
  have hi' : Sound ts K (s.1, { s.2 with freed := s.2.freed ++ [p] }) :=
    ⟨hi.slots.free hp hu, hi.client⟩
  exact ⟨rfl, hi', ⟨fun _ _ => rfl, fun _ _ => rfl, fun _ _ => rfl, fun _ h => h,
    fun _ _ h => h⟩, hk _ hi' hl⟩

/-- The first loop of `drain_late_retire`. -/
theorem wp_drainLateRetire :
    (discipline ts access code invoke K ok).Keeps t (fun _ => True) drainLateRetire := by
  intro a hi _
  unfold drainLateRetire
  simp only [Prog.bind_eq, Prog.perform_bind, Prog.iterate_bind, Prog.pure_eq]
  refine wp_own .const hi trivial fun a b r x s' hi _ _ hact => ?_
  cases hact
  have hempty : Sound ts K (a.1, { a.2 with late := [] }) :=
    ⟨{ hi.slots with late := fun _ hp => by cases hp }, hi.client⟩
  refine ⟨rfl, hempty, ⟨fun _ _ => rfl, fun _ _ => rfl, fun _ _ => rfl, fun _ h => h,
    fun _ _ h => h⟩, ?_⟩
  refine Discipline.WP.loop (I := fun l => Listed (l.1 ++ l.2)) (fun l => stable_submitted _)
    hempty (fun p hp => hi.slots.late p ?_) fun l a hi hl => ?_
  · rwa [List.append_nil] at hp
  obtain ⟨head, kept⟩ := l
  cases head with
  | nil =>
    refine Discipline.WP.ret ((Discipline.WP.stable _ _)) hi ?_
    -- push the others back
    refine Discipline.WP.loop (I := fun l => Listed l) (fun l => stable_submitted _) hi hl
      fun l a hi hl => ?_
    cases l with
    | nil => exact Discipline.WP.ret (Discipline.WP.stable _ _) hi (Discipline.WP.ret .const hi trivial)
    | cons o rest =>
      refine wp_own (stable_submitted _) hi hl fun a b r x s' hi hl _ hact => ?_
      cases hact
      have hi' : Sound ts K (a.1, { a.2 with late := o :: a.2.late }) := ⟨{ hi.slots with
        late := fun p hp => by
          rcases List.mem_cons.mp hp with rfl | hp
          · exact hl p List.mem_cons_self
          · exact hi.slots.late p hp }, hi.client⟩
      refine ⟨rfl, hi', ⟨fun _ _ => rfl, fun _ _ => rfl, fun _ _ => rfl, fun _ h => h,
        fun _ _ h => h⟩, ?_⟩
      exact Discipline.WP.ret (stable_submitted rest) hi' fun p hp => hl p (List.mem_cons_of_mem _ hp)
  | cons o rest =>
    refine wp_isProtected hi hl fun r a hi hl hr => ?_
    cases r with
    | true =>
      refine Discipline.WP.ret (stable_submitted _) hi fun p hp => hl p ?_
      simp only [List.mem_append, List.mem_cons, List.not_mem_nil, or_false] at hp ⊢
      tauto
    | false =>
      refine wp_run hi hl (by simp) (hr rfl) fun a hi hl => ?_
      refine Discipline.WP.ret (stable_submitted _) hi fun p hp => hl p ?_
      simp only [List.mem_append, List.mem_cons] at hp ⊢
      tauto

theorem wp_setRetired {k : Unit → Code E Obj α} {l : List Obj} (hi : Sound ts K a)
    (hl : Listed l a)
    (hk : ∀ a, Sound ts K a → (discipline ts access code invoke K ok).WP t (k ()) Q a) :
    (discipline ts access code invoke K ok).WP t (.act (.own (.setRetired l)) k) Q a := by
  refine wp_own (stable_submitted l) hi hl fun s b r x s' hi hl _ hact => ?_
  cases hact
  have hi' : Sound ts K (s.1, { s.2 with retired := update s.2.retired t l }) :=
    ⟨hi.slots.setRetired t (fun _ h => h) hl, hi.client⟩
  exact ⟨rfl, hi', ⟨fun _ _ => rfl, fun _ _ => rfl, fun u hu => Function.update_of_ne hu _ _,
    fun _ h => h, fun _ _ h => h⟩, hk _ hi'⟩

theorem wp_getRetired {k : List Obj → Code E Obj α} (hi : Sound ts K a)
    (hk : ∀ l a, Sound ts K a → Listed l a →
      (discipline ts access code invoke K ok).WP t (k l) Q a) :
    (discipline ts access code invoke K ok).WP t (.act (.own .getRetired) k) Q a := by
  refine wp_own .const hi trivial fun s b r x s' hi _ _ hact => ?_
  cases hact
  exact ⟨rfl, hi, Guar.refl t s.2, hk _ s hi (hi.slots.retired t)⟩

theorem wp_scan : (discipline ts access code invoke K ok).Keeps t (fun _ => True) scan := by
  unfold scan
  simp only [Prog.bind_eq, Prog.perform_bind, Prog.iterate_bind]
  refine Discipline.Keeps.bind wp_drainLateRetire fun _ a hi _ => ?_
  refine wp_getRetired hi fun l a hi hl => ?_
  refine Discipline.WP.loop (I := fun _ _ => True) (fun _ => .const) hi trivial
    fun st a hi _ => ?_
  obtain ⟨i, kept⟩ := st
  have hdone : ∀ (a : K.Aug × State Obj) (kept : Nat), Sound ts K a →
      (discipline ts access code invoke K ok).WP t
        (Prog.act (.own .getRetired) fun l => Prog.perform (.own (.setRetired (l.take kept))))
        (fun _ _ => True) a := by
    intro a kept hi
    refine wp_getRetired hi fun l a hi hl => ?_
    refine wp_setRetired hi (fun p hp => hl p (List.mem_of_mem_take hp)) fun a hi => ?_
    exact Discipline.WP.ret .const hi trivial
  unfold scanStep
  simp only [Prog.bind_eq, Prog.perform_bind, Prog.pure_eq]
  split
  · refine wp_getRetired hi fun l a hi hl => ?_
    cases hcur : l[i]? with
    | none => exact Discipline.WP.ret (Discipline.WP.stable _ _) hi (hdone a kept hi)
    | some cur =>
      have hmem : cur ∈ l := List.mem_of_getElem? hcur
      refine wp_isProtected hi hl fun r a hi hl hr => ?_
      cases r with
      | true =>
        refine wp_setRetired hi (fun p hp => ?_) fun a hi => Discipline.WP.ret .const hi trivial
        rcases List.mem_or_eq_of_mem_set hp with hp | rfl
        · exact hl p hp
        · exact hl p hmem
      | false =>
        exact wp_run hi hl hmem (hr rfl) fun a hi _ => Discipline.WP.ret .const hi trivial
  · exact Discipline.WP.ret (Discipline.WP.stable _ _) hi (hdone a kept hi)

/-- `retire` of an object that the invariant of the data structure allows to be retired. -/
theorem wp_retire (threshold : Nat) {p : Obj} {P : K.Aug × State Obj → Prop}
    (hP : (discipline ts access code invoke K ok).Stable t P)
    (hsub : ∀ a, Sound ts K a → P a → K.inv a.1 (a.2.submitted ++ [p])) :
    ∀ a, Sound ts K a → P a →
      (discipline ts access code invoke K ok).WP t (retire threshold p) (fun _ _ => True) a := by
  intro a hi h
  unfold retire
  simp only [Prog.bind_eq, Prog.perform_bind, Prog.pure_eq]
  refine wp_own hP hi h fun s b r x s' hi h _ hact => ?_
  cases hact
  have hmore : ∀ q ∈ s.2.submitted, q ∈ s.2.submitted ++ [p] :=
    fun q hq => List.mem_append_left [p] hq
  have hi' : Sound ts K (s.1, { s.2 with
      retired := update s.2.retired t (s.2.retired t ++ [p])
      submitted := s.2.submitted ++ [p] }) := by
    refine ⟨hi.slots.setRetired t hmore fun q hq => ?_, hsub s hi h⟩
    rw [List.mem_append] at hq ⊢
    exact hq.imp_left (hi.slots.retired t q)
  refine ⟨rfl, hi', ⟨fun _ _ => rfl, fun _ _ => rfl, fun u hu => Function.update_of_ne hu _ _,
    fun q hq => hmore q hq, fun _ _ h => h⟩, ?_⟩
  refine wp_getRetired hi' fun l a hi _ => ?_
  split
  · exact wp_scan a hi trivial
  · exact Discipline.WP.ret .const hi trivial

/-! ### Accesses of the data structure -/

/-- An access that dereferences nothing. -/
theorem wp_access {β : Type} {e : E β} {k : β → Code E Obj α} {P : K.Aug × State Obj → Prop}
    (hP : (discipline ts access code invoke K ok).Stable t P) (hi : Sound ts K a) (h : P a)
    (hk : ∀ b s r, Sound ts K s → P s → access t b e (K.erase s.1) = some r →
      ∃ x, K.erase x = r.2 ∧ K.inv x s.2.submitted ∧ K.guar t s.1 x ∧
        (discipline ts access code invoke K ok).WP t (k r.1) Q (x, s.2)) :
    (discipline ts access code invoke K ok).WP t (.act (.access e) k) Q a := by
  refine Discipline.WP.act hP hi h fun s b r s' hi h _ hact => ?_
  obtain ⟨y, hy, heq⟩ := Option.map_eq_some_iff.mp hact
  obtain ⟨x, hx, hinv, hg, hw⟩ := hk b s y hi h hy
  cases heq
  exact ⟨(x, s.2), Prod.ext hx rfl, ⟨hi.slots, hinv⟩, ⟨Guar.refl t s.2, hg⟩, hw⟩

/-- A dereference of what the thread holds. -/
theorem wp_read {β : Type} {e : E β} {k : β → Code E Obj α} {P : K.Aug × State Obj → Prop}
    (hP : (discipline ts access code invoke K ok).Stable t P) (hi : Sound ts K a) (h : P a)
    (hp : ∀ s, Sound ts K s → P s → s.2.Holds t p)
    (hk : ∀ b s r, Sound ts K s → P s → access t b e (K.erase s.1) = some r →
      ∃ x, K.erase x = r.2 ∧ K.inv x s.2.submitted ∧ K.guar t s.1 x ∧
        (discipline ts access code invoke K ok).WP t (k r.1) Q (x, s.2)) :
    (discipline ts access code invoke K ok).WP t (.act (.read p e) k) Q a := by
  refine Discipline.WP.act hP hi h fun s b r s' hi h _ hact => ?_
  obtain ⟨y, hy, heq⟩ := Option.map_eq_some_iff.mp hact
  obtain ⟨x, hx, hinv, hg, hw⟩ := hk b s y hi h hy
  cases heq
  refine ⟨(x, s.2), Prod.ext hx (hi.slots.visit (hp s hi h)).symm, ⟨hi.slots, hinv⟩,
    ⟨Guar.refl t s.2, hg⟩, hw⟩

/-- A dereference that is in time. -/
theorem wp_again {β : Type} {e : E β} {k : β → Code E Obj α} {P : K.Aug × State Obj → Prop}
    (hP : (discipline ts access code invoke K ok).Stable t P) (hi : Sound ts K a) (h : P a)
    (hp : ∀ s, Sound ts K s → P s → ok t (.again p e) (K.erase s.1, s.2) → s.2.Holds t p)
    (hk : ∀ b s r, Sound ts K s → P s → access t b e (K.erase s.1) = some r →
      ∃ x, K.erase x = r.2 ∧ K.inv x s.2.submitted ∧ K.guar t s.1 x ∧
        (discipline ts access code invoke K ok).WP t (k r.1) Q (x, s.2)) :
    (discipline ts access code invoke K ok).WP t (.act (.again p e) k) Q a := by
  refine Discipline.WP.act hP hi h fun s b r s' hi h hok hact => ?_
  obtain ⟨y, hy, heq⟩ := Option.map_eq_some_iff.mp hact
  obtain ⟨x, hx, hinv, hg, hw⟩ := hk b s y hi h hy
  cases heq
  exact ⟨(x, s.2), Prod.ext hx (hi.slots.visit (hp s hi h hok)).symm, ⟨hi.slots, hinv⟩,
    ⟨Guar.refl t s.2, hg⟩, hw⟩

/-- A publication with which the thread goes on. -/
theorem wp_protectTrusted {k : Unit → Code E Obj α} {o : Option Obj} (ht : t ∈ ts)
    (hi : Sound ts K a)
    (ho : ∀ s, Sound ts K s → ok t (.own (.protectTrusted h o)) (K.erase s.1, s.2) →
      ∀ q, o = some q → q ∉ s.2.submitted)
    (hk : ∀ a, Sound ts K a → a.2.trusted t h = o →
      (discipline ts access code invoke K ok).WP t (k ()) Q a) :
    (discipline ts access code invoke K ok).WP t (.act (.own (.protectTrusted h o)) k) Q a := by
  refine wp_own .const hi trivial fun s b r x s' hi _ hok hact => ?_
  cases hact
  have hhp : (s.2.protect t h o).hp t h = o := by simp [State.protect]
  have hnew : ∀ p, (s.2.protect t h o).hp t h = some p → p ∉ (s.2.protect t h o).submitted :=
    fun p hp => ho s hi hok p (hhp.symm.trans hp)
  have hi' : Sound ts K (s.1, (s.2.protect t h o).trust t h) :=
    ⟨(hi.slots.protect h o).trust ht hnew, hi.client⟩
  refine ⟨rfl, hi', (Guar.protect h o).trans (Guar.trust hnew), hk _ hi' ?_⟩
  simp only [State.trust, Function.update_self]
  exact hhp

/-- A publication. -/
theorem wp_protect {k : Unit → Code E Obj α} {o : Option Obj} {P : K.Aug × State Obj → Prop}
    (hP : (discipline ts access code invoke K ok).Stable t P) (hi : Sound ts K a) (ha : P a)
    (hk : ∀ s, P s → Sound ts K (s.1, s.2.protect t h o) →
      (discipline ts access code invoke K ok).WP t (k ()) Q (s.1, s.2.protect t h o)) :
    (discipline ts access code invoke K ok).WP t (.act (.own (.protect h o)) k) Q a := by
  refine wp_own hP hi ha fun s b r x s' hi ha _ hact => ?_
  cases hact
  have hi' : Sound ts K (s.1, s.2.protect t h o) := ⟨hi.slots.protect h o, hi.client⟩
  exact ⟨rfl, hi', Guar.protect h o, hk s ha hi'⟩

/-- A re-read that succeeds in time: its slot trusts what it holds. -/
theorem wp_validate {k : Bool → Code E Obj α} {e : E Bool} {src : Option Obj}
    {P : K.Aug × State Obj → Prop} (ht : t ∈ ts)
    (hlook : ∀ b y r, access t b e y = some r → r.2 = y)
    (hP : (discipline ts access code invoke K ok).Stable t P) (hi : Sound ts K a) (ha : P a)
    (hsrc : ∀ p, src = some p → ∀ s, Sound ts K s → P s → s.2.Holds t p)
    (hp : ∀ b s r, Sound ts K s → P s → ok t (.own (.validate h src e)) (K.erase s.1, s.2) →
      access t b e (K.erase s.1) = some r → r.1 = true →
        ∀ p, s.2.hp t h = some p → p ∉ s.2.submitted)
    (hk : ∀ b s r, P s → access t b e (K.erase s.1) = some r →
      Sound ts K (s.1, if r.1 then s.2.trust t h else s.2) →
      (discipline ts access code invoke K ok).WP t (k r.1) Q
        (s.1, if r.1 then s.2.trust t h else s.2)) :
    (discipline ts access code invoke K ok).WP t (.act (.own (.validate h src e)) k) Q a := by
  refine wp_own hP hi ha fun s b v x s' hi ha hok hact => ?_
  obtain ⟨r, hr, heq⟩ := Option.map_eq_some_iff.mp hact
  have hvisit : src.elim s.2 s.2.visit = s.2 := by
    cases src with
    | none => rfl
    | some p => exact hi.slots.visit (hsrc p rfl s hi ha)
  have hsame : r.2 = K.erase s.1 := hlook b _ r hr
  simp only [hvisit] at heq
  cases heq
  have htimely := hp b s r hi ha hok hr
  have hi' : Sound ts K (s.1, if r.1 then s.2.trust t h else s.2) := by
    cases hv : r.1 with
    | false => exact hi
    | true => exact ⟨hi.slots.trust ht (htimely hv), hi.client⟩
  have hg : Guar t s.2 (if r.1 then s.2.trust t h else s.2) := by
    cases hv : r.1 with
    | false => exact Guar.refl t s.2
    | true => exact Guar.trust (htimely hv)
  exact ⟨hsame, hi', hg, hk b s r ha hr hi'⟩

/-- If every program of the data structure keeps the protocol, the invariants hold in every state
reached. -/
theorem safe {x₀ : K.Aug} (h₀ : K.inv x₀ [])
    (hcode : ∀ t ∈ ts, ∀ cl s y, Sound ts K s → invoke cl (K.erase s.1) = some y →
      ∃ x, K.erase x = y ∧ K.guar t s.1 x ∧
        (discipline ts access code invoke K ok).WP t (code cl) (fun _ _ => True) (x, s.2))
    {c : Config (Op E Obj) (S × State Obj) Call Ret}
    (hc : (system ts access code invoke).Reach ok (K.erase x₀, .init) c) :
    Inv ts c.shared.2 := by
  have hcov : (discipline ts access code invoke K ok).Covers fun _ _ _ _ => True := by
    constructor
    · intro t cl s s' hi hinv
      simp only [system] at hinv
      split at hinv
      · next ht =>
        obtain ⟨y, hy, rfl⟩ := Option.map_eq_some_iff.mp hinv
        obtain ⟨x, hx, hg, hw⟩ := hcode t ht cl s y hi hy
        exact ⟨(x, s.2), Prod.ext hx rfl, ⟨Guar.refl t s.2, hg⟩, hw⟩
      · cases hinv
    · exact fun t cl r s hi _ => ⟨s, rfl, hi, Guar.refl t s.2, K.refl t s.1⟩
  have h₀ : (discipline ts access code invoke K ok).inv (x₀, .init) := by
    refine ⟨?_, h₀⟩
    constructor <;> simp [State.init]
  obtain ⟨a, ha, hi⟩ := Discipline.reach_inv hcov h₀ hc
  have hstate : a.2 = c.shared.2 := congrArg Prod.snd ha
  exact hstate ▸ hi.slots

/-! ## Tests -/

/-- `Own.Timely` as a test. -/
def Own.timelyTest (access : {β : Type} → Nat → Bool → E β → S → Option (β × S)) {β : Type}
    (t : Nat) (o : Own E Obj β) (s : S × State Obj) : Bool :=
  match o with
  | .validate h _ e => [false, true].all fun b =>
      ((access t b e s.1).all fun r => !r.1) || (s.2.hp t h).all fun p => p ∉ s.2.submitted
  | .protectTrusted _ p => p.all fun q => q ∉ s.2.submitted
  | _ => true

/-- `Timely` as a test. -/
def timelyTest (access : {β : Type} → Nat → Bool → E β → S → Option (β × S)) {β : Type} (t : Nat)
    (o : Op E Obj β) (s : S × State Obj) : Bool :=
  match o with
  | .own o => o.timelyTest access t s
  | .again p _ => decide (s.2.Holds t p)
  | _ => true

theorem Own.timelyTest_sound {β : Type} (t : Nat) (o : Own E Obj β) (s : S × State Obj)
    (ho : o.timelyTest access t s = true) : o.Timely access t s := by
  cases o with
  | validate h src e =>
    intro b r hr htrue p hp
    simp only [timelyTest, List.all_eq_true] at ho
    have hb := ho b (by cases b <;> simp)
    rw [show access t b e s.1 = some r from hr, hp] at hb
    simpa [htrue] using hb
  | protectTrusted h p =>
    rintro q rfl
    simpa [timelyTest] using ho
  | _ => trivial

theorem timelyTest_sound {β : Type} (t : Nat) (o : Op E Obj β) (s : S × State Obj)
    (ho : timelyTest access t o s = true) : Timely access t o s := by
  cases o with
  | own o => exact o.timelyTest_sound t s ho
  | again p e =>
    have hheld : s.2.Holds t p := of_decide_eq_true ho
    exact hheld
  | _ => trivial

end

end MpmcMap.Reclaim.Shields
