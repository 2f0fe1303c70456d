import MpmcMap.Conc.RelyGuarantee
import MpmcMap.Reclaim.Ledger

/-!
# The late-retire chain

The code that both reclaimers share: pushing an orphan on the late-retire chain, pushing a private
chain orphan by orphan, and draining the chain. A `Scheme` names the actions that a reclaimer has
for this and says what they do to its books. The rules below reason about one thread in terms of
its private state `Priv`: its own `tls_`, the objects it answers for and the orphans it may write.
Nobody else changes these, so the proofs about the code are sequential.
-/

namespace MpmcMap.Reclaim

open Conc
open Function (update)

/-- A reclaimer with its thread states `T` and orphans `O`. -/
structure Scheme {E : Type → Type} {S Call Ret : Type} (Y : SharedObject E S Call Ret)
    (O T : Type) where
  books : S → Books
  tls : S → Nat → T
  link : O → Option Nat
  entry : O → Entry
  incOutstanding : E Unit
  decOutstanding : E Unit
  run : RetireAction → Ptr → E Unit
  loadLate : E (Option Nat)
  exchangeLate : Option Nat → E (Option Nat)
  casLate : Option Nat → Option Nat → E (Bool × Option Nat)
  newOrphan : O → E Nat
  readOrphan : Nat → E O
  setOrphanNext : Nat → Option Nat → E Unit
  deleteOrphan : Nat → E Unit

namespace Scheme

variable {E : Type → Type} {S Call Ret : Type} {Y : SharedObject E S Call Ret} {O T : Type}
variable (Z : Scheme Y O T) {α β : Type} {t : Nat}

/-! ## The code -/

/-- Push one orphan on the chain. -/
def pushLate (cur : Nat) : Prog E Unit := do
  let expected ← Prog.perform Z.loadLate
  Prog.iterate (fun expected => do
    .perform (Z.setOrphanNext cur expected)
    let (ok, seen) ← Prog.perform (Z.casLate expected (some cur))
    if ok then return .inr () else return .inl seen) expected

/-- Push the orphans of a private chain one by one. -/
def pushAll (head : Option Nat) : Prog E Unit :=
  Prog.iterate (fun cur => do
    match cur with
    | none => return .inr ()
    | some c =>
      let o ← Prog.perform (Z.readOrphan c)
      Z.pushLate c
      return .inl (Z.link o)) head

/-- One orphan of a detached chain, from `(head, keptHead, keptTail)`: keep it or free it. -/
def drainStep (keep : O → Prog E Bool) (l : Option Nat × Option Nat × Option Nat) :
    Prog E (Option Nat × Option Nat × Option Nat ⊕ Option Nat × Option Nat) := do
  let (head, keptHead, keptTail) := l
  match head with
  | none => return .inr (keptHead, keptTail)
  | some h =>
    let o ← Prog.perform (Z.readOrphan h)
    if ← keep o then
      match keptTail with
      | none => return .inl (Z.link o, some h, some h)
      | some k =>
        .perform (Z.setOrphanNext k (some h))
        return .inl (Z.link o, keptHead, some h)
    else
      .perform (Z.run (Z.entry o).2 (Z.entry o).1)
      .perform Z.decOutstanding
      .perform (Z.deleteOrphan h)
      return .inl (Z.link o, keptHead, keptTail)

/-- Free the orphans that need not be kept, push the others back. -/
def drain (keep : O → Prog E Bool) : Prog E Unit := do
  let head ← Prog.perform (Z.exchangeLate none)
  let (keptHead, keptTail) ← Prog.iterate (Z.drainStep keep) (head, none, none)
  match keptTail with
  | none => return ()
  | some k =>
    .perform (Z.setOrphanNext k none)
    Z.pushAll keptHead

/-! ## What the actions do -/

/-- The step changes the books by `f` and no thread state. -/
def Effect (f : Books → Books) (s s' : S) : Prop :=
  Z.books s' = f (Z.books s) ∧ Z.tls s' = Z.tls s

structure Lawful : Prop where
  incOutstanding : ∀ {t b s r s'}, Y.action t b Z.incOutstanding s = some (r, s') →
    Z.Effect (fun k => { k with outstanding := k.outstanding + 1 }) s s'
  decOutstanding : ∀ {t b s r s'}, Y.action t b Z.decOutstanding s = some (r, s') →
    Z.Effect (fun k => { k with outstanding := k.outstanding - 1 }) s s'
  run : ∀ {f p t b s r s'}, Y.action t b (Z.run f p) s = some (r, s') →
    Z.Effect (fun k => { k with ran := k.ran ++ [(p, f)] }) s s'
  loadLate : ∀ {t b s r s'}, Y.action t b Z.loadLate s = some (r, s') → s' = s
  exchangeLate : ∀ {v t b s r s'}, Y.action t b (Z.exchangeLate v) s = some (r, s') →
    r = (Z.books s).late ∧ Z.Effect (fun k => { k with late := v }) s s'
  casLate : ∀ {e d t b s r s'}, Y.action t b (Z.casLate e d) s = some (r, s') →
    (r.1 = true ∧ (Z.books s).late = e ∧ Z.Effect (fun k => { k with late := d }) s s') ∨
      (r.1 = false ∧ s' = s)
  newOrphan : ∀ {o t b s r s'}, Y.action t b (Z.newOrphan o) s = some (r, s') →
    (Z.books s).orphan r = none ∧
      Z.Effect (fun k => { k with orphan := update k.orphan r (some (Z.link o, Z.entry o)) }) s s'
  readOrphan : ∀ {i t b s r s'}, Y.action t b (Z.readOrphan i) s = some (r, s') →
    s' = s ∧ ∀ x, (Z.books s).orphan i = some x → x = (Z.link r, Z.entry r)
  setOrphanNext : ∀ {i v t b s r s'}, Y.action t b (Z.setOrphanNext i v) s = some (r, s') →
    Z.Effect (fun k =>
      { k with orphan := update k.orphan i ((k.orphan i).map fun x => (v, x.2)) }) s s'
  deleteOrphan : ∀ {i t b s r s'}, Y.action t b (Z.deleteOrphan i) s = some (r, s') →
    Z.Effect (fun k => { k with orphan := update k.orphan i none }) s s'

/-- The view of an updated heap of orphans. -/
theorem map_update {α β : Type} (f : Nat → Option α) (g : α → β) (i : Nat) (v : Option α) :
    (fun o => (update f i v o).map g) = update (fun o => (f o).map g) i (v.map g) := by
  funext o
  simp only [Function.update_apply]
  split <;> rfl

/-! ## The thread's view -/

/-- The state with the ghost of its accounting. -/
structure Aug (S : Type) where
  st : S
  ghost : Ghost

def ledger (a : Aug S) : Ledger where
  books := Z.books a.st
  ghost := a.ghost

/-- The accounting is right and every thread leaves the others' affairs alone. -/
def discipline : Discipline Y (Aug S) where
  erase a := a.st
  inv a := (Z.ledger a).Ok
  guar u a b := Ledger.Guar u (Z.ledger a) (Z.ledger b) ∧
    ∀ v, v ≠ u → Z.tls b.st v = Z.tls a.st v
  ok := SharedObject.anyAction

/-- Beyond the orphans of `c` the thread has those of `L`. -/
structure Extends (c cells : Nat → Option (Option Nat × Entry)) (L : List (Nat × Entry)) :
    Prop where
  fresh : ∀ o ∈ L.map Prod.fst, c o = none
  rest : ∀ o, o ∉ L.map Prod.fst → cells o = c o

/-- The orphans that a drain has kept: a private chain whose last link is not yet set. -/
def Kept (cells : Nat → Option (Option Nat × Entry)) (head tail : Option Nat)
    (K : List (Nat × Entry)) : Prop :=
  (tail = none ∧ K = []) ∨
    ∃ K' k y e, tail = some k ∧ K = K' ++ [(k, y)] ∧ Chain cells head K e

/-- The thread state of `t` is `ts` and its share of the ledger is `σ`. -/
def Owns (t : Nat) (ts : T) (σ : Ledger.Share) (a : Aug S) : Prop :=
  Z.tls a.st t = ts ∧ (Z.ledger a).Owned t σ

variable {Z} {ts : T} {σ : Ledger.Share} {a : Aug S} {Q : α → Aug S → Prop}

theorem guar_refl (u : Nat) (a : Aug S) : Z.discipline.guar u a a :=
  ⟨Ledger.Guar.refl u _, fun _ _ => rfl⟩

theorem stable_owns : Z.discipline.Stable t (Z.Owns t ts σ) := by
  intro u hu a b _ _ hg h
  obtain ⟨hg, htls⟩ := hg
  exact ⟨by rw [htls t hu.symm, h.1], h.2.guar hg hu⟩

theorem wp_ret {x : α} (hi : (Z.ledger a).Ok) (h : Z.Owns t ts σ a) :
    Z.discipline.WP t (.ret x) (fun _ a => Z.Owns t ts σ a) a :=
  Discipline.WP.ret stable_owns hi h

/-! ## Rules -/

/-- One step, from the move it makes on the ledger and on the thread's own state. -/
theorem wp_move {o : E β} {k : β → Prog E α} (hi : (Z.ledger a).Ok) (h : Z.Owns t ts σ a)
    (hstep : ∀ a b r s', (Z.ledger a).Ok → Z.Owns t ts σ a → Y.action t b o a.st = some (r, s') →
      ∃ l ts' σ', Z.books s' = l.books ∧ l.Ok ∧ Ledger.Guar t (Z.ledger a) l ∧ l.Owned t σ' ∧
        Z.tls s' = update (Z.tls a.st) t ts' ∧
        ∀ a, (Z.ledger a).Ok → Z.Owns t ts' σ' a → Z.discipline.WP t (k r) Q a) :
    Z.discipline.WP t (.act o k) Q a := by
  refine Discipline.WP.act stable_owns hi h fun a b r s' hi h _ hact => ?_
  obtain ⟨l, ts', σ', hbooks, hok, hg, hown, htls, hk⟩ := hstep a b r s' hi h hact
  have hl : Z.ledger ⟨s', l.ghost⟩ = l := by simp only [ledger, hbooks]
  refine ⟨⟨s', l.ghost⟩, rfl, hl ▸ hok, ⟨hl ▸ hg, fun v hv => ?_⟩, hk _ (hl ▸ hok) ⟨?_, hl ▸ hown⟩⟩
  · rw [htls, Function.update_of_ne hv]
  · rw [htls, Function.update_self]

/-- A step of the bookkeeping at the start or the end of a call. -/
theorem exists_step (s' : S) (l : Ledger) {σ' : Ledger.Share} (h : Z.Owns t ts σ a)
    (hbooks : Z.books s' = l.books) (htls : Z.tls s' = Z.tls a.st) (hok : l.Ok)
    (hg : Ledger.Guar t (Z.ledger a) l) (hown : l.Owned t σ') :
    ∃ a', Z.discipline.erase a' = s' ∧ (Z.ledger a').Ok ∧ Z.discipline.guar t a a' ∧
      Z.Owns t ts σ' a' := by
  have hl : Z.ledger ⟨s', l.ghost⟩ = l := by simp only [ledger, hbooks]
  exact ⟨⟨s', l.ghost⟩, rfl, hl ▸ hok, ⟨hl ▸ hg, fun v _ => by rw [htls]⟩,
    (congrFun htls t).trans h.1, hl ▸ hown⟩

/-- An action that leaves the books alone. -/
theorem wp_local {o : E β} {k : β → Prog E α} {R : β → T → Prop}
    (hlaw : ∀ {b s r s'}, Y.action t b o s = some (r, s') → Z.tls s t = ts →
      ∃ ts', Z.books s' = Z.books s ∧ Z.tls s' = update (Z.tls s) t ts' ∧ R r ts')
    (hi : (Z.ledger a).Ok) (h : Z.Owns t ts σ a)
    (hk : ∀ a r ts', R r ts' → (Z.ledger a).Ok → Z.Owns t ts' σ a →
      Z.discipline.WP t (k r) Q a) :
    Z.discipline.WP t (.act o k) Q a := by
  refine wp_move hi h fun a b r s' hi h hact => ?_
  obtain ⟨ts', hbooks, htls, hr⟩ := hlaw hact h.1
  exact ⟨Z.ledger a, ts', σ, hbooks, hi, Ledger.Guar.refl t _, h.2, htls, fun a => hk a r ts' hr⟩

/-- An action that changes nothing of the accounting. -/
theorem wp_silent {o : E β} {k : β → Prog E α}
    (hlaw : ∀ {b s r s'}, Y.action t b o s = some (r, s') →
      Z.books s' = Z.books s ∧ Z.tls s' = Z.tls s)
    (hi : (Z.ledger a).Ok) (h : Z.Owns t ts σ a)
    (hk : ∀ a r, (Z.ledger a).Ok → Z.Owns t ts σ a → Z.discipline.WP t (k r) Q a) :
    Z.discipline.WP t (.act o k) Q a := by
  refine wp_local (R := fun _ ts' => ts' = ts) (fun hact hts => ?_) hi h fun a r ts' hr => ?_
  · obtain ⟨hbooks, htls⟩ := hlaw hact
    refine ⟨ts, hbooks, ?_, rfl⟩
    rw [htls, ← hts, Function.update_eq_self]
  · subst hr
    exact hk a r

/-- The second push of a retirement: with it the object is accepted. -/
theorem wp_accept {o : E Bool} {k : Bool → Prog E α} {x : Entry} (ts' : T)
    (hlaw : ∀ {b s r s'}, Y.action t b o s = some (r, s') → Z.tls s t = ts →
      (r = true ∧ Z.books s' = { Z.books s with accepted := (Z.books s).accepted ++ [x] } ∧
        Z.tls s' = update (Z.tls s) t ts') ∨ (r = false ∧ s' = s))
    (hi : (Z.ledger a).Ok) (h : Z.Owns t ts σ a) (hclaim : σ.claim = some x.1)
    (htok : σ.token = true) (hdue : σ.due = none)
    (hyes : ∀ a, (Z.ledger a).Ok → Z.Owns t ts' { σ with
      held := x ::ₘ σ.held, token := false, claim := none, due := some x } a →
      Z.discipline.WP t (k true) Q a)
    (hno : ∀ a, (Z.ledger a).Ok → Z.Owns t ts σ a → Z.discipline.WP t (k false) Q a) :
    Z.discipline.WP t (.act o k) Q a := by
  refine wp_move hi h fun a b r s' hi h hact => ?_
  rcases hlaw hact h.1 with ⟨rfl, hbooks, htls⟩ | ⟨rfl, rfl⟩
  · have hplace := h.2.claim _ hclaim
    exact ⟨(Z.ledger a).accept t x, ts', _, hbooks,
      hi.accept hplace (h.2.token.mpr htok) (h.2.due.trans hdue), Ledger.Guar.accept hplace,
      h.2.toAccept hi hclaim htok hdue, htls, hyes⟩
  · refine ⟨Z.ledger a, ts, σ, rfl, hi, Ledger.Guar.refl t _, h.2, ?_, hno⟩
    rw [← h.1, Function.update_eq_self]

section Lawful

variable (hZ : Z.Lawful) {x : Entry} {M : Multiset Entry} {i : Nat} {n : Option Nat}

/-- The rules for the actions of the chain: the move and what becomes of the share. -/
theorem wp_effect {f : Books → Books} {o : E β} {k : β → Prog E α} (hi : (Z.ledger a).Ok)
    (h : Z.Owns t ts σ a)
    (hlaw : ∀ {b s r s'}, Y.action t b o s = some (r, s') → Z.Effect f s s')
    (hmove : ∀ a b r s', Y.action t b o a.st = some (r, s') → (Z.ledger a).Ok →
      (Z.ledger a).Owned t σ → ∃ l σ', f (Z.books a.st) = l.books ∧ l.Ok ∧
        Ledger.Guar t (Z.ledger a) l ∧ l.Owned t σ' ∧
        ∀ a, (Z.ledger a).Ok → Z.Owns t ts σ' a → Z.discipline.WP t (k r) Q a) :
    Z.discipline.WP t (.act o k) Q a := by
  refine wp_move hi h fun a b r s' hi h hact => ?_
  obtain ⟨hbooks, htls⟩ := hlaw hact
  obtain ⟨l, σ', hf, hok, hg, hown, hk⟩ := hmove a b r s' hact hi h.2
  refine ⟨l, ts, σ', hbooks.trans hf, hok, hg, hown, ?_, hk⟩
  rw [htls, ← h.1, Function.update_eq_self]

include hZ

theorem wp_count {k : Unit → Prog E α} (hi : (Z.ledger a).Ok) (h : Z.Owns t ts σ a)
    (htok : σ.token = false)
    (hk : ∀ a, (Z.ledger a).Ok → Z.Owns t ts { σ with token := true } a →
      Z.discipline.WP t (k ()) Q a) :
    Z.discipline.WP t (.act Z.incOutstanding k) Q a := by
  refine wp_effect hi h hZ.incOutstanding fun a _ _ _ _ hi h => ?_
  have hnot : t ∉ (Z.ledger a).ghost.tokens := by simp [h.token, htok]
  exact ⟨(Z.ledger a).count t, _, rfl, hi.count hnot, Ledger.Guar.count, h.toCount, hk⟩

theorem wp_discount {k : Unit → Prog E α} (hi : (Z.ledger a).Ok) (h : Z.Owns t ts σ a)
    (htok : σ.token = true)
    (hk : ∀ a, (Z.ledger a).Ok → Z.Owns t ts { σ with token := false } a →
      Z.discipline.WP t (k ()) Q a) :
    Z.discipline.WP t (.act Z.decOutstanding k) Q a := by
  refine wp_effect hi h hZ.decOutstanding fun a _ _ _ _ hi h => ?_
  exact ⟨(Z.ledger a).discount t, _, rfl, hi.discount (h.token.mpr htok), Ledger.Guar.discount,
    h.toDiscount, hk⟩

/-- Run the action of an object and count it out. -/
theorem wp_free {k : Unit → Prog E α} (hi : (Z.ledger a).Ok) (h : Z.Owns t ts σ a)
    (htok : σ.token = false) (hx : σ.held = x ::ₘ M)
    (hk : ∀ a, (Z.ledger a).Ok → Z.Owns t ts { σ with held := M } a →
      Z.discipline.WP t (k ()) Q a) :
    Z.discipline.WP t (.act (Z.run x.2 x.1) fun _ => .act Z.decOutstanding k) Q a := by
  refine wp_effect hi h hZ.run fun a _ _ _ _ hi h => ?_
  have hnot : t ∉ (Z.ledger a).ghost.tokens := by simp [h.token, htok]
  obtain ⟨hacc, hplace⟩ := (h.held.2 x).mp (by simp [hx])
  refine ⟨(Z.ledger a).run t x, _, rfl, hi.run hacc hplace hnot, Ledger.Guar.run hplace,
    h.toRun hi hx, fun a hi h => ?_⟩
  refine wp_discount hZ hi h rfl fun a hi h => hk a hi ?_
  simpa only [htok] using h

/-- Detach the whole chain. -/
theorem wp_detach {k : Option Nat → Prog E α} (hi : (Z.ledger a).Ok) (h : Z.Owns t ts σ a)
    (hk : ∀ a head L cells, Chain cells head L none → Extends σ.cells cells L → (Z.ledger a).Ok →
      Z.Owns t ts { σ with held := σ.held + (L.map Prod.snd : List Entry), cells := cells } a →
      Z.discipline.WP t (k head) Q a) :
    Z.discipline.WP t (.act (Z.exchangeLate none) k) Q a := by
  refine wp_effect hi h (fun hact => (hZ.exchangeLate hact).2) fun a _ r _ hact hi h => ?_
  obtain rfl := (hZ.exchangeLate hact).1
  obtain ⟨L, cells, hown, hchain, hfresh, hrest⟩ := h.toDetach hi
  exact ⟨(Z.ledger a).detach t, _, rfl, hi.detach, Ledger.Guar.detach, hown,
    fun a => hk a _ L cells hchain ⟨hfresh, hrest⟩⟩

theorem wp_readOrphan {k : O → Prog E α} (hi : (Z.ledger a).Ok) (h : Z.Owns t ts σ a)
    (hc : σ.cells i = some (n, x))
    (hk : ∀ a o, Z.link o = n → Z.entry o = x → (Z.ledger a).Ok → Z.Owns t ts σ a →
      Z.discipline.WP t (k o) Q a) :
    Z.discipline.WP t (.act (Z.readOrphan i) k) Q a := by
  refine wp_move hi h fun a b r s' hi h hact => ?_
  obtain ⟨rfl, hr⟩ := hZ.readOrphan hact
  have heq := hr _ ((h.2.cells i _).mp hc).2
  simp only [Prod.mk.injEq] at heq
  refine ⟨Z.ledger a, ts, σ, rfl, hi, Ledger.Guar.refl t _, h.2, ?_, fun a =>
    hk a r heq.1.symm heq.2.symm⟩
  rw [← h.1, Function.update_eq_self]

theorem wp_setOrphanNext {k : Unit → Prog E α} {v : Option Nat} (hi : (Z.ledger a).Ok)
    (h : Z.Owns t ts σ a) (hc : σ.cells i = some (n, x))
    (hk : ∀ a, (Z.ledger a).Ok → Z.Owns t ts { σ with
      cells := update σ.cells i (some (v, x)) } a → Z.discipline.WP t (k ()) Q a) :
    Z.discipline.WP t (.act (Z.setOrphanNext i v) k) Q a := by
  refine wp_effect hi h hZ.setOrphanNext fun a _ _ _ _ hi h => ?_
  obtain ⟨hkeep, hor⟩ := (h.cells i _).mp hc
  refine ⟨(Z.ledger a).write t i (some (v, x)), _, ?_, hi.write (by simp [hkeep]) _,
    Ledger.Guar.write (.inl hkeep) _, h.toWrite _, hk⟩
  have hor : (Z.books a.st).orphan i = some (n, x) := hor
  simp only [Ledger.write, ledger, hor, Option.map_some]

theorem wp_deleteOrphan {k : Unit → Prog E α} (hi : (Z.ledger a).Ok) (h : Z.Owns t ts σ a)
    (hc : σ.cells i = some (n, x))
    (hk : ∀ a, (Z.ledger a).Ok → Z.Owns t ts { σ with cells := update σ.cells i none } a →
      Z.discipline.WP t (k ()) Q a) :
    Z.discipline.WP t (.act (Z.deleteOrphan i) k) Q a := by
  refine wp_effect hi h hZ.deleteOrphan fun a _ _ _ _ hi h => ?_
  have hkeep := ((h.cells i _).mp hc).1
  exact ⟨(Z.ledger a).write t i none, _, rfl, hi.write (by simp [hkeep]) _,
    Ledger.Guar.write (.inl hkeep) _, h.toWrite _, hk⟩

theorem wp_newOrphan {o : O} {k : Nat → Prog E α} (hi : (Z.ledger a).Ok) (h : Z.Owns t ts σ a)
    (hk : ∀ a i, σ.cells i = none → (Z.ledger a).Ok → Z.Owns t ts { σ with
      cells := update σ.cells i (some (Z.link o, Z.entry o)) } a → Z.discipline.WP t (k i) Q a) :
    Z.discipline.WP t (.act (Z.newOrphan o) k) Q a := by
  refine wp_move hi h fun a b r s' hi h hact => ?_
  obtain ⟨hnone, hbooks, htls⟩ := hZ.newOrphan hact
  have hkeep := (hi.orphan r).mpr hnone
  refine ⟨(Z.ledger a).write t r (some (Z.link o, Z.entry o)), ts, _, hbooks,
    hi.write (by simp [hkeep]) _, Ledger.Guar.write (.inr hkeep) _, h.2.toWrite _, ?_, fun a =>
    hk a r (Option.eq_none_iff_forall_ne_some.mpr fun x hx => ?_)⟩
  · rw [htls, ← h.1, Function.update_eq_self]
  · have := ((h.2.cells r x).mp hx).1
    rw [hkeep] at this
    cases this

/-- The compare-exchange of a push: the orphan leaves the thread, or nothing happens. -/
theorem wp_casLate {k : Bool × Option Nat → Prog E α} (hi : (Z.ledger a).Ok)
    (h : Z.Owns t ts σ a) (hc : σ.cells i = some (n, x)) (hx : σ.held = x ::ₘ M)
    (hyes : ∀ a seen, (Z.ledger a).Ok → Z.Owns t ts { σ with
      held := M, cells := update σ.cells i none } a → Z.discipline.WP t (k (true, seen)) Q a)
    (hno : ∀ a seen, (Z.ledger a).Ok → Z.Owns t ts σ a →
      Z.discipline.WP t (k (false, seen)) Q a) :
    Z.discipline.WP t (.act (Z.casLate n (some i)) k) Q a := by
  refine wp_move hi h fun a b r s' hi h hact => ?_
  obtain ⟨ok, seen⟩ := r
  rcases hZ.casLate hact with ⟨rfl, hlate, hbooks, htls⟩ | ⟨rfl, rfl⟩
  · obtain ⟨hkeep, hor⟩ := (h.2.cells i _).mp hc
    obtain ⟨hacc, hplace⟩ := (h.2.held.2 x).mp (by simp [hx])
    rw [← hlate] at hor
    refine ⟨(Z.ledger a).push i x, ts, _, hbooks, hi.push hacc hplace hkeep hor,
      Ledger.Guar.push hplace hkeep, h.2.toPush hi hx hc, ?_, fun a => hyes a seen⟩
    rw [htls, ← h.1, Function.update_eq_self]
  · refine ⟨Z.ledger a, ts, σ, rfl, hi, Ledger.Guar.refl t _, h.2, ?_, fun a => hno a seen⟩
    rw [← h.1, Function.update_eq_self]

/-! ## The code keeps the accounts -/

theorem wp_pushLate (hi : (Z.ledger a).Ok) (h : Z.Owns t ts σ a) (hc : σ.cells i = some (n, x))
    (hx : σ.held = x ::ₘ M) :
    Z.discipline.WP t (Z.pushLate i)
      (fun _ a => Z.Owns t ts { σ with held := M, cells := update σ.cells i none } a) a := by
  unfold pushLate
  simp only [Prog.bind_eq, Prog.perform_bind, Prog.pure_eq]
  refine wp_silent (fun hact => ?_) hi h fun a expected hi h => ?_
  · rw [hZ.loadLate hact]
    exact ⟨rfl, rfl⟩
  -- while the orphan is not linked, its own link is what the last attempt left
  let I : Option Nat → Aug S → Prop := fun _ a => ∃ n,
    Z.Owns t ts { σ with cells := update σ.cells i (some (n, x)) } a
  have hI : ∀ e, Z.discipline.Stable t (I e) := fun _ => .exist fun _ => stable_owns
  refine Discipline.WP.loop hI hi ⟨n, ?_⟩ fun expected a hi h => ?_
  · rw [← hc, Function.update_eq_self]
    exact h
  · obtain ⟨n, h⟩ := h
    refine wp_setOrphanNext hZ hi h (n := n) (x := x) (by simp) fun a hi h => ?_
    simp only [Function.update_idem] at h
    refine wp_casLate hZ hi h (by simp) hx (fun a seen hi h => ?_) fun a seen hi h => ?_
    · simp only [Function.update_idem] at h
      exact Discipline.WP.ret (Discipline.WP.stable _ _) hi (wp_ret hi h)
    · exact Discipline.WP.ret (hI seen) hi ⟨expected, h⟩

omit hZ in
theorem Extends.tail {c cells : Nat → Option (Option Nat × Entry)} {o : Nat}
    {L : List (Nat × Entry)} (h : Extends c cells ((o, x) :: L)) :
    Extends c (update cells o none) L := by
  refine ⟨fun q hq => h.fresh q (List.mem_cons_of_mem _ hq), fun q hq => ?_⟩
  by_cases hqo : q = o
  · subst hqo
    rw [Function.update_self, h.fresh q List.mem_cons_self]
  · rw [Function.update_of_ne hqo]
    exact h.rest q (by simp [hqo, hq])

theorem wp_pushAll {L : List (Nat × Entry)} {head : Option Nat}
    {cells : Nat → Option (Option Nat × Entry)} (hi : (Z.ledger a).Ok)
    (hchain : Chain cells head L none) (hext : Extends σ.cells cells L)
    (h : Z.Owns t ts { σ with
      held := σ.held + (L.map Prod.snd : List Entry), cells := cells } a) :
    Z.discipline.WP t (Z.pushAll head) (fun _ a => Z.Owns t ts σ a) a := by
  let I : Option Nat → Aug S → Prop := fun head a => ∃ L cells,
    (Chain cells head L none ∧ Extends σ.cells cells L) ∧
      Z.Owns t ts { σ with held := σ.held + (L.map Prod.snd : List Entry), cells := cells } a
  have hI : ∀ e, Z.discipline.Stable t (I e) :=
    fun _ => .exist fun _ => .exist fun _ => Discipline.Stable.const.and stable_owns
  refine Discipline.WP.loop hI hi ⟨L, cells, ⟨hchain, hext⟩, h⟩ fun cur a hi h => ?_
  obtain ⟨L, cells, ⟨hchain, hext⟩, h⟩ := h
  cases L with
  | nil =>
    obtain rfl := hchain
    refine Discipline.WP.ret (Discipline.WP.stable _ _) hi (wp_ret hi ?_)
    have hcells : cells = σ.cells := funext fun o => hext.rest o List.not_mem_nil
    simpa [hcells] using h
  | cons c L =>
    obtain ⟨o, x⟩ := c
    have hnd := hchain.nodup
    obtain ⟨rfl, n, hn, hrest⟩ := hchain
    simp only [Prog.bind_eq, Prog.perform_bind, Prog.pure_eq]
    refine wp_readOrphan hZ hi h hn fun a r hlink _ hi h => ?_
    have hheld : σ.held + ((((o, x) :: L).map Prod.snd : List Entry) : Multiset Entry) =
        x ::ₘ (σ.held + (L.map Prod.snd : List Entry)) := by
      rw [List.map_cons, ← Multiset.cons_coe, Multiset.add_cons]
    refine Discipline.WP.bind ((wp_pushLate hZ hi h hn hheld).mono fun _ a hi h => ?_)
    have hnot : o ∉ L.map Prod.fst := (List.nodup_cons.mp hnd).1
    refine Discipline.WP.ret (hI _) hi ⟨L, _, ⟨?_, hext.tail⟩, h⟩
    rw [hlink]
    exact hrest.update_of_notMem hnot none

omit hZ in
theorem Kept.update {cells : Nat → Option (Option Nat × Entry)} {head tail : Option Nat}
    {K : List (Nat × Entry)} {o : Nat} (h : Kept cells head tail K) (ho : o ∉ K.map Prod.fst)
    (v : Option (Option Nat × Entry)) : Kept (update cells o v) head tail K := by
  rcases h with h | ⟨K', k, y, e, ht, hK, hchain⟩
  · exact .inl h
  · exact .inr ⟨K', k, y, e, ht, hK, hchain.update_of_notMem ho v⟩

/-- The orphans of a drain in progress: `L` is still to come, `K` is kept. -/
structure Draining (c : Nat → Option (Option Nat × Entry)) (l : Option Nat × Option Nat × Option Nat)
    (L K : List (Nat × Entry)) (cells : Nat → Option (Option Nat × Entry)) : Prop where
  chain : Chain cells l.1 L none
  kept : Kept cells l.2.1 l.2.2 K
  nodup : ((L ++ K).map Prod.fst).Nodup
  ext : Extends c cells (L ++ K)

section Draining

variable {c cells : Nat → Option (Option Nat × Entry)} {L K : List (Nat × Entry)} {o : Nat}
  {kh kt : Option Nat}

omit hZ in
/-- The next orphan is neither among those to come nor among the kept ones. -/
theorem Draining.next (h : Draining c (some o, kh, kt) ((o, x) :: L) K cells) :
    o ∉ L.map Prod.fst ∧ o ∉ K.map Prod.fst ∧ ((L ++ K).map Prod.fst).Nodup := by
  have hnd := h.nodup
  rw [List.cons_append, List.map_cons, List.nodup_cons, List.map_append, List.mem_append] at hnd
  rw [List.map_append]
  exact ⟨fun hm => hnd.1 (.inl hm), fun hm => hnd.1 (.inr hm), hnd.2⟩

omit hZ in
/-- The next orphan is deleted. -/
theorem Draining.free (h : Draining c (some o, kh, kt) ((o, x) :: L) K cells)
    (hn : cells o = some (n, x)) : Draining c (n, kh, kt) L K (update cells o none) := by
  obtain ⟨hL, hK, hnd⟩ := h.next
  obtain ⟨-, m, hm, hrest⟩ := h.chain
  rw [hn] at hm
  obtain ⟨rfl, -⟩ : n = m ∧ x = x := by simpa using hm
  exact ⟨hrest.update_of_notMem hL none, h.kept.update hK none, hnd, h.ext.tail⟩

omit hZ in
theorem Extends.perm {L' : List (Nat × Entry)} (h : Extends c cells L) (hp : L.Perm L') :
    Extends c cells L' := by
  have hmem : ∀ o, o ∈ L'.map Prod.fst ↔ o ∈ L.map Prod.fst := fun o =>
    ((hp.map Prod.fst).mem_iff).symm
  exact ⟨fun o ho => h.fresh o ((hmem o).mp ho), fun o ho => h.rest o fun hm => ho ((hmem o).mpr hm)⟩

omit hZ in
/-- The next orphan is the first that is kept. -/
theorem Draining.keepFirst (h : Draining c (some o, kh, none) ((o, x) :: L) K cells)
    (hn : cells o = some (n, x)) : Draining c (n, some o, some o) L (K ++ [(o, x)]) cells := by
  obtain ⟨-, m, hm, hrest⟩ := h.chain
  rw [hn] at hm
  obtain ⟨rfl, -⟩ : n = m ∧ x = x := by simpa using hm
  have hK : K = [] := by
    rcases h.kept with ⟨-, hK⟩ | ⟨_, _, _, _, ht, -⟩
    · exact hK
    · cases ht
  subst hK
  have hp : ((o, x) :: L ++ []).Perm (L ++ ([] ++ [(o, x)])) := by
    simpa using (List.perm_append_singleton (o, x) L).symm
  exact ⟨hrest, .inr ⟨[], o, x, n, rfl, rfl, rfl, n, hn, rfl⟩,
    ((hp.map Prod.fst).nodup_iff).mp h.nodup, h.ext.perm hp⟩

omit hZ in
/-- The next orphan is linked behind the last one that was kept. -/
theorem Draining.keepNext {k : Nat} (h : Draining c (some o, kh, some k) ((o, x) :: L) K cells)
    (hn : cells o = some (n, x)) : ∃ m y, cells k = some (m, y) ∧
      Draining c (n, kh, some o) L (K ++ [(o, x)]) (update cells k (some (some o, y))) := by
  obtain ⟨hoL, hoK, hnd⟩ := h.next
  obtain ⟨-, m, hm, hrest⟩ := h.chain
  rw [hn] at hm
  obtain ⟨rfl, -⟩ : n = m ∧ x = x := by simpa using hm
  rcases h.kept with ⟨ht, -⟩ | ⟨K', k', y, e, ht, rfl, hchain⟩
  · cases ht
  obtain rfl : k = k' := Option.some.inj ht
  obtain ⟨m, hm⟩ := hchain.cell (a := k) (b := y) (by simp)
  refine ⟨m, y, hm, ?_⟩
  -- the last kept orphan is another cell than all the others
  simp only [List.map_append, List.map_cons, List.map_nil, List.mem_append, List.mem_singleton,
    not_or] at hoK
  rw [List.map_append, List.map_append, List.nodup_append, List.nodup_append] at hnd
  have hkL : k ∉ L.map Prod.fst := fun hm => hnd.2.2 k hm k (by simp) rfl
  have hkK : k ∉ K'.map Prod.fst := fun hm => hnd.2.1.2.2 k hm k (by simp) rfl
  have hp : ((o, x) :: L ++ (K' ++ [(k, y)])).Perm (L ++ (K' ++ [(k, y)] ++ [(o, x)])) := by
    rw [← List.append_assoc L]
    simpa using (List.perm_append_singleton (o, x) (L ++ (K' ++ [(k, y)]))).symm
  refine ⟨hrest.update_of_notMem hkL _, .inr ⟨K' ++ [(k, y)], o, x, n, rfl, rfl, ?_⟩,
    ((hp.map Prod.fst).nodup_iff).mp h.nodup, ?_⟩
  · refine Chain.append.mpr ⟨some o, hchain.redirect hkK (some o), rfl, n, ?_, rfl⟩
    rw [Function.update_of_ne hoK.2, hn]
  · have hext := h.ext.perm hp
    refine ⟨hext.fresh, fun q hq => ?_⟩
    rw [Function.update_of_ne, hext.rest q hq]
    rintro rfl
    exact hq (by simp)

end Draining

/-- A drain leaves the thread what it had: what it takes from the chain it frees or pushes back. -/
theorem wp_drain {keep : O → Prog E Bool}
    (hkeep : ∀ o σ, Z.discipline.Keeps t (Z.Owns t ts σ) (keep o)) (htok : σ.token = false)
    (hi : (Z.ledger a).Ok) (h : Z.Owns t ts σ a) :
    Z.discipline.WP t (Z.drain keep) (fun _ a => Z.Owns t ts σ a) a := by
  unfold drain
  simp only [Prog.bind_eq, Prog.perform_bind, Prog.iterate_bind, Prog.pure_eq]
  refine wp_detach hZ hi h fun a head L cells hchain hext hi h => ?_
  let share : List (Nat × Entry) → (Nat → Option (Option Nat × Entry)) → Ledger.Share :=
    fun M cells => { σ with held := σ.held + (M.map Prod.snd : List Entry), cells := cells }
  let I : Option Nat × Option Nat × Option Nat → Aug S → Prop := fun l a => ∃ L K cells,
    Draining σ.cells l L K cells ∧ Z.Owns t ts (share (L ++ K) cells) a
  have hI : ∀ l, Z.discipline.Stable t (I l) := fun _ =>
    .exist fun _ => .exist fun _ => .exist fun _ => Discipline.Stable.const.and stable_owns
  have hshare : ∀ {M M' : List (Nat × Entry)} {cells}, M.Perm M' →
      ∀ {a}, Z.Owns t ts (share M cells) a → Z.Owns t ts (share M' cells) a := by
    intro M M' cells hp a h
    have hcoe : (M.map Prod.snd : Multiset Entry) = (M'.map Prod.snd : List Entry) :=
      Multiset.coe_eq_coe.mpr (hp.map Prod.snd)
    simpa only [share, hcoe] using h
  have hstart : Draining σ.cells (head, none, none) L [] cells :=
    ⟨hchain, .inl ⟨rfl, rfl⟩, by simpa using hchain.nodup, by simpa using hext⟩
  refine Discipline.WP.loop hI hi ⟨L, [], cells, hstart, by simpa [share] using h⟩
    fun l a hi h => ?_
  obtain ⟨L, K, cells, hd, h⟩ := h
  obtain ⟨head, kh, kt⟩ := l
  cases L with
  | nil =>
    -- the detached chain is used up
    obtain rfl : head = none := hd.chain
    refine Discipline.WP.ret (Discipline.WP.stable _ _) hi ?_
    rcases hd.kept with ⟨hkt, hK⟩ | ⟨K', k, y, e, hkt, hK, hkept⟩
    · obtain rfl : kt = none := hkt
      subst hK
      have hcells : cells = σ.cells := funext fun o => hd.ext.rest o (by simp)
      refine wp_ret hi ?_
      simpa [share, hcells] using h
    · obtain rfl : kt = some k := hkt
      subst hK
      obtain ⟨m, hm⟩ := hkept.cell (a := k) (b := y) (by simp)
      have hnd := hd.nodup
      rw [List.nil_append, List.map_append, List.nodup_append] at hnd
      have hkK : k ∉ K'.map Prod.fst := fun hm => hnd.2.2 k hm k (by simp) rfl
      refine wp_setOrphanNext hZ hi h hm fun a hi h => ?_
      refine wp_pushAll hZ hi (hkept.redirect hkK none) ⟨hd.ext.fresh, fun q hq => ?_⟩ h
      have hq' : q ∉ (K' ++ [(k, y)]).map Prod.fst := hq
      rw [Function.update_of_ne, hd.ext.rest q hq']
      rintro rfl
      exact hq' (by simp)
  | cons c L =>
    obtain ⟨o, x⟩ := c
    obtain ⟨hhead, n, hn, -⟩ := hd.chain
    obtain rfl : head = some o := hhead
    unfold drainStep
    simp only [Prog.bind_eq, Prog.perform_bind, Prog.pure_eq]
    refine wp_readOrphan hZ hi h hn fun a r hlink hentry hi h => ?_
    refine Discipline.WP.bind ((hkeep r _ a hi h).mono fun b a hi h => ?_)
    subst hlink
    cases b with
    | false =>
      rw [if_neg Bool.false_ne_true, hentry]
      have hheld : (share ((o, x) :: L ++ K) cells).held = x ::ₘ (share (L ++ K) cells).held := by
        simp only [share, List.cons_append, List.map_cons, ← Multiset.cons_coe, Multiset.add_cons]
      refine wp_free hZ hi h htok hheld fun a hi h => ?_
      refine wp_deleteOrphan hZ hi h hn fun a hi h => ?_
      refine Discipline.WP.ret (hI _) hi ⟨L, K, _, hd.free hn, ?_⟩
      simpa [share] using h
    | true =>
      rw [if_pos rfl]
      have hp : ((o, x) :: L ++ K).Perm (L ++ (K ++ [(o, x)])) := by
        rw [← List.append_assoc]
        exact (List.perm_append_singleton (o, x) (L ++ K)).symm
      cases kt with
      | none =>
        exact Discipline.WP.ret (hI _) hi ⟨L, _, cells, hd.keepFirst hn, hshare hp h⟩
      | some k =>
        obtain ⟨m, y, hm, hd'⟩ := hd.keepNext hn
        refine wp_setOrphanNext hZ hi h hm fun a hi h => ?_
        exact Discipline.WP.ret (hI _) hi ⟨L, _, _, hd', hshare hp h⟩

omit hZ in
/-- A new orphan in front of a private chain. -/
theorem Extends.push {c cells : Nat → Option (Option Nat × Entry)} {L : List (Nat × Entry)}
    {o : Nat} (h : Extends c cells L) (ho : cells o = none) (hc : c o = none)
    (v : Option (Option Nat × Entry)) : Extends c (update cells o v) ((o, x) :: L) := by
  refine ⟨fun q hq => ?_, fun q hq => ?_⟩
  · rcases List.mem_cons.mp hq with rfl | hq
    · exact hc
    · exact h.fresh q hq
  · simp only [List.map_cons, List.mem_cons, not_or] at hq
    rw [Function.update_of_ne hq.1]
    exact h.rest q hq.2

end Lawful

end Scheme

end MpmcMap.Reclaim
