import MpmcMap.Conc.Linked
import MpmcMap.Reclaim.Epoch
import Mathlib.Data.Finset.Card

/-!
# The accounting of a reclaimer

What both reclaimers keep of the objects they were given: a counter of the outstanding ones, the
late-retire chain with its orphans, and the history of accepted retirements and of actions run. The
ghost says where each object is and who answers for each orphan. `Ledger.Ok` is the invariant, the
*moves* are what the steps of a reclaimer do to a ledger, and `Guar` is what a move of thread `t`
leaves of the other threads' affairs. Nothing here depends on how the objects are freed.
-/

namespace MpmcMap.Reclaim

open Conc
open Function (update update_self update_of_ne)

/-- An object and the action that frees it. -/
abbrev Entry := Ptr × RetireAction

/-- The entry at a position of two aligned vectors. -/
theorem drop_zip {ps : List Ptr} {fs : List RetireAction} (hlen : ps.length = fs.length) {i : Nat}
    (hi : i < ps.length) :
    (ps.zip fs).drop i = (ps.getD i 0, fs.getD i ⟨0⟩) :: (ps.zip fs).drop (i + 1) := by
  have hz : i < (ps.zip fs).length := by simp [List.length_zip, ← hlen, hi]
  rw [List.drop_eq_getElem_cons hz]
  simp [List.getD, List.getElem?_eq_getElem hi, List.getElem?_eq_getElem (hlen ▸ hi)]

/-- Both lists are written at the same position. -/
theorem set_zip (ps : List Ptr) (fs : List RetireAction) (i : Nat) (p : Ptr) (f : RetireAction) :
    (ps.set i p).zip (fs.set i f) = (ps.zip fs).set i (p, f) := by
  induction ps generalizing fs i with
  | nil => rfl
  | cons q ps ih =>
    cases fs with
    | nil => cases i <;> rfl
    | cons g fs =>
      cases i with
      | zero => rfl
      | succ i => simp [ih]

/-- What the accounting sees of the state of a reclaimer. -/
structure Books where
  outstanding : Nat
  late : Option Nat
  orphan : Nat → Option (Option Nat × Entry)
  submitted : Finset Ptr
  accepted : List Entry
  /-- The retirements whose call has returned without a throw, with the arguments of the call. -/
  returned : List Entry
  ran : List Entry

/-- Where an object is. -/
inductive Place where
  | nowhere
  /-- A call of `retire` is in progress, or its caller lost it. -/
  | claimed (t : Nat)
  /-- Accepted, and thread `t` answers for it. -/
  | thread (t : Nat)
  | late
  | done
  deriving DecidableEq

/-- Who may change an orphan. -/
inductive Keeper where
  | free
  | thread (t : Nat)
  | late
  deriving DecidableEq

structure Ghost where
  place : Ptr → Place
  keeper : Nat → Keeper
  chain : List (Nat × Entry)
  /-- The threads that have counted an object in before they hold it, or not yet counted it out. -/
  tokens : Finset Nat
  /-- What the thread has retired in a call that has not returned. -/
  due : Nat → Option Entry

/-- Nothing has been retired. -/
def Ghost.init : Ghost where
  place := fun _ => .nowhere
  keeper := fun _ => .free
  chain := []
  tokens := ∅
  due := fun _ => none

/-- What the calls of `retire` that have returned have to do with the accepted objects: all accepted
objects are theirs, except those that a thread is about to answer for. -/
structure Answered (returned accepted : List Entry) (due : Nat → Option Entry) : Prop where
  nodup : returned.Nodup
  returned : ∀ x, x ∈ returned ↔ x ∈ accepted ∧ ∀ t, due t ≠ some x
  due : ∀ t x, due t = some x → x ∈ accepted ∧ ∀ u, due u = some x → u = t

namespace Answered

variable {returned accepted : List Entry} {due : Nat → Option Entry} {t : Nat} {x : Entry}

/-- An object is accepted that was not. -/
theorem accept (h : Answered returned accepted due) (hx : x ∉ accepted) (ht : due t = none) :
    Answered returned (accepted ++ [x]) (update due t (some x)) where
  nodup := h.nodup
  returned y := by
    rw [h.returned y, List.mem_append, List.mem_singleton]
    constructor
    · rintro ⟨hy, hdue⟩
      refine ⟨.inl hy, fun u => ?_⟩
      by_cases hu : u = t
      · rw [hu, update_self]
        rintro ⟨⟩
        exact hx hy
      · rw [update_of_ne hu]
        exact hdue u
    · rintro ⟨hy, hdue⟩
      rcases hy with hy | rfl
      · refine ⟨hy, fun u hu => ?_⟩
        have hut : u ≠ t := by
          rintro rfl
          rw [ht] at hu
          cases hu
        exact hdue u (by rw [update_of_ne hut, hu])
      · exact absurd (update_self t _ due) (hdue t)
  due u y hu := by
    -- the dues of the other threads are as before, and `x` was none of them
    have hother : ∀ v z, v ≠ t → update due t (some x) v = some z → due v = some z :=
      fun v z hv h => by rwa [update_of_ne hv] at h
    have hne : ∀ v, v ≠ t → update due t (some x) v ≠ some x := fun v hv h' =>
      hx (h.due v x (hother v x hv h')).1
    by_cases hut : u = t
    · subst hut
      rw [update_self] at hu
      cases hu
      refine ⟨List.mem_append_right _ (List.mem_singleton_self x), fun v hv => ?_⟩
      by_contra hvu
      exact hne v hvu hv
    · obtain ⟨hy, huniq⟩ := h.due u y (hother u y hut hu)
      refine ⟨List.mem_append_left _ hy, fun v hv => ?_⟩
      by_cases hvt : v = t
      · subst hvt
        rw [update_self] at hv
        cases hv
        exact absurd hy hx
      · exact huniq v (hother v y hvt hv)

/-- The call answers. -/
theorem answer (h : Answered returned accepted due) (ht : due t = some x) :
    Answered (returned ++ [x]) accepted (update due t none) where
  nodup := by
    refine h.nodup.append (List.nodup_singleton x) (List.disjoint_singleton.mpr fun hx => ?_)
    exact ((h.returned x).mp hx).2 t ht
  returned y := by
    rw [List.mem_append, List.mem_singleton, h.returned y]
    constructor
    · rintro (⟨hy, hdue⟩ | rfl)
      · refine ⟨hy, fun u => ?_⟩
        by_cases hu : u = t
        · rw [hu, update_self]
          nofun
        · rw [update_of_ne hu]
          exact hdue u
      · obtain ⟨hy, huniq⟩ := h.due t y ht
        refine ⟨hy, fun u => ?_⟩
        by_cases hu : u = t
        · rw [hu, update_self]
          nofun
        · rw [update_of_ne hu]
          exact fun he => hu (huniq u he)
    · rintro ⟨hy, hdue⟩
      by_cases hyx : y = x
      · exact .inr hyx
      · refine .inl ⟨hy, fun u hu => ?_⟩
        have hut : u ≠ t := by
          rintro rfl
          rw [ht] at hu
          exact hyx (Option.some.inj hu).symm
        exact hdue u (by rw [update_of_ne hut, hu])
  due u y hu := by
    have hold : ∀ v z, update due t none v = some z → v ≠ t ∧ due v = some z := by
      intro v z hv
      by_cases hvt : v = t
      · rw [hvt, update_self] at hv
        cases hv
      · rw [update_of_ne hvt] at hv
        exact ⟨hvt, hv⟩
    obtain ⟨hy, huniq⟩ := h.due u y (hold u y hu).2
    exact ⟨hy, fun v hv => huniq v (hold v y hv).2⟩

/-- When every call has returned, the accepted objects are those of the calls that have. -/
theorem perm (h : Answered returned accepted due) (hacc : accepted.Nodup) (hdue : ∀ t, due t = none) :
    returned.Perm accepted := by
  refine (List.perm_ext_iff_of_nodup h.nodup hacc).mpr fun x => ?_
  rw [h.returned x]
  exact and_iff_left fun t ht => by rw [hdue t] at ht; cases ht

end Answered

structure Ledger where
  books : Books
  ghost : Ghost

namespace Ledger

variable (l : Ledger) {t u v : Nat} {p : Ptr} {x y : Entry} {M : Multiset Entry} {o : Nat}

/-- The accepted objects in one place are those of `M`. -/
def Held (pl : Place) (M : Multiset Entry) : Prop :=
  M.Nodup ∧ ∀ x, x ∈ M ↔ x ∈ l.books.accepted ∧ l.ghost.place x.1 = pl

structure Ok : Prop where
  submitted : ∀ p, l.ghost.place p = .nowhere ↔ p ∉ l.books.submitted
  accepted_nodup : (l.books.accepted.map Prod.fst).Nodup
  accepted : ∀ p, p ∈ l.books.accepted.map Prod.fst ↔
    l.ghost.place p ≠ .nowhere ∧ ∀ t, l.ghost.place p ≠ .claimed t
  ran : l.Held .done l.books.ran
  late : l.Held .late (l.ghost.chain.map Prod.snd)
  chain : Chain l.books.orphan l.books.late l.ghost.chain none
  keeper : ∀ o, l.ghost.keeper o = .late ↔ o ∈ l.ghost.chain.map Prod.fst
  orphan : ∀ o, l.ghost.keeper o = .free ↔ l.books.orphan o = none
  balance : l.books.outstanding + l.books.ran.length =
    l.books.accepted.length + l.ghost.tokens.card
  answered : Answered l.books.returned l.books.accepted l.ghost.due

/-- What a step of thread `u` leaves alone. -/
structure Guar (u : Nat) (l l' : Ledger) : Prop where
  claimed : ∀ v, v ≠ u → ∀ p, l.ghost.place p = .claimed v → l'.ghost.place p = .claimed v
  held : ∀ v, v ≠ u → ∀ M, l.Held (.thread v) M → l'.Held (.thread v) M
  keeper : ∀ v, v ≠ u → ∀ o, l'.ghost.keeper o = .thread v ↔ l.ghost.keeper o = .thread v
  orphan : ∀ v, v ≠ u → ∀ o, l.ghost.keeper o = .thread v → l'.books.orphan o = l.books.orphan o
  tokens : ∀ v, v ≠ u → (v ∈ l'.ghost.tokens ↔ v ∈ l.ghost.tokens)
  due : ∀ v, v ≠ u → l'.ghost.due v = l.ghost.due v

theorem Guar.refl (u : Nat) (l : Ledger) : Guar u l l :=
  ⟨fun _ _ _ h => h, fun _ _ _ h => h, fun _ _ _ => Iff.rfl, fun _ _ _ _ => rfl,
    fun _ _ => Iff.rfl, fun _ _ => rfl⟩

/-- What only the thread itself changes of a ledger: the objects it answers for, whether it holds a
token, its orphans, the object it is retiring, and the one that it has retired in this call. -/
structure Share where
  held : Multiset Entry
  token : Bool
  cells : Nat → Option (Option Nat × Entry)
  claim : Option Ptr
  due : Option Entry

/-- The share of thread `t` is `σ`. -/
structure Owned (t : Nat) (σ : Share) : Prop where
  held : l.Held (.thread t) σ.held
  token : t ∈ l.ghost.tokens ↔ σ.token = true
  cells : ∀ o r, σ.cells o = some r ↔ l.ghost.keeper o = .thread t ∧ l.books.orphan o = some r
  claim : ∀ p, σ.claim = some p → l.ghost.place p = .claimed t
  due : l.ghost.due t = σ.due

variable {l} {σ : Share}

/-- Before the first call nothing is outstanding. -/
theorem ok_init (b : Books) (hout : b.outstanding = 0) (hacc : b.accepted = []) (hran : b.ran = [])
    (hsub : b.submitted = ∅) (hor : ∀ o, b.orphan o = none) (hlate : b.late = none)
    (hret : b.returned = []) : (Ledger.mk b .init).Ok where
  submitted p := by simp [Ghost.init, hsub]
  accepted_nodup := by simp [hacc]
  accepted p := by simp [Ghost.init, hacc]
  ran := by simp [Held, hacc, hran]
  late := by simp [Held, Ghost.init, hacc]
  chain := hlate
  keeper o := by simp [Ghost.init]
  orphan o := by simp [Ghost.init, hor]
  balance := by simp [Ghost.init, hout, hacc, hran]
  answered := by
    rw [hret, hacc]
    exact ⟨List.nodup_nil, by simp, nofun⟩

/-- A thread that holds nothing. -/
theorem owned_init (b : Books) (t : Nat) (hacc : b.accepted = []) :
    (Ledger.mk b .init).Owned t ⟨0, false, fun _ => none, none, none⟩ where
  held := by simp [Held, hacc]
  token := by simp [Ghost.init]
  cells o r := by simp [Ghost.init]
  claim p hp := by cases hp
  due := rfl

/-- The other threads do not change it. -/
theorem Owned.guar {l' : Ledger} (h : l.Owned t σ) (hg : Guar u l l') (hu : u ≠ t) :
    l'.Owned t σ := by
  have hne : t ≠ u := hu.symm
  refine ⟨hg.held t hne _ h.held, (hg.tokens t hne).trans h.token, fun o r => ?_,
    fun p hp => hg.claimed t hne p (h.claim p hp), (hg.due t hne).trans h.due⟩
  rw [h.cells o r, hg.keeper t hne o]
  exact and_congr_right fun hk => by rw [hg.orphan t hne o hk]

/-- A place holds what it held if the same objects are there. -/
theorem Held.congr {l' : Ledger} {pl : Place} (h : l.Held pl M)
    (hx : ∀ x, (x ∈ l'.books.accepted ∧ l'.ghost.place x.1 = pl) ↔
      (x ∈ l.books.accepted ∧ l.ghost.place x.1 = pl)) : l'.Held pl M :=
  ⟨h.1, fun x => (h.2 x).trans (hx x).symm⟩

/-- Two accepted entries of one object are the same. -/
theorem Ok.entry_unique (hl : l.Ok) (hx : x ∈ l.books.accepted) (hy : y ∈ l.books.accepted)
    (h : x.1 = y.1) : x = y :=
  List.inj_on_of_nodup_map hl.accepted_nodup hx hy h

/-- At most as many actions have run as there are accepted objects. -/
theorem Ok.ran_le (hl : l.Ok) : l.books.ran.length ≤ l.books.accepted.length := by
  have hsub : l.books.ran ⊆ l.books.accepted := fun x hx => ((hl.ran.2 x).mp hx).1
  have hnd : l.books.ran.Nodup := Multiset.coe_nodup.mp hl.ran.1
  exact (hnd.subperm hsub).length_le

/-! ## Moves -/

/-- A call of `retire` starts. -/
def claim (l : Ledger) (t : Nat) (p : Ptr) : Ledger where
  books := { l.books with submitted := insert p l.books.submitted }
  ghost := { l.ghost with place := update l.ghost.place p (.claimed t) }

/-- A call of `retire` has thrown. -/
def disclaim (l : Ledger) (p : Ptr) : Ledger where
  books := { l.books with submitted := l.books.submitted.erase p }
  ghost := { l.ghost with place := update l.ghost.place p .nowhere }

/-- One more is outstanding. -/
def count (l : Ledger) (t : Nat) : Ledger where
  books := { l.books with outstanding := l.books.outstanding + 1 }
  ghost := { l.ghost with tokens := insert t l.ghost.tokens }

def discount (l : Ledger) (t : Nat) : Ledger where
  books := { l.books with outstanding := l.books.outstanding - 1 }
  ghost := { l.ghost with tokens := l.ghost.tokens.erase t }

/-- Both vectors have the object. -/
def accept (l : Ledger) (t : Nat) (x : Entry) : Ledger where
  books := { l.books with accepted := l.books.accepted ++ [x] }
  ghost := { l.ghost with
    place := update l.ghost.place x.1 (.thread t)
    tokens := l.ghost.tokens.erase t
    due := update l.ghost.due t (some x) }

/-- A call of `retire` returns. -/
def answer (l : Ledger) (t : Nat) (x : Entry) : Ledger where
  books := { l.books with returned := l.books.returned ++ [x] }
  ghost := { l.ghost with due := update l.ghost.due t none }

def run (l : Ledger) (t : Nat) (x : Entry) : Ledger where
  books := { l.books with ran := l.books.ran ++ [x] }
  ghost := { l.ghost with
    place := update l.ghost.place x.1 .done
    tokens := insert t l.ghost.tokens }

/-- Detach the whole chain. -/
def detach (l : Ledger) (t : Nat) : Ledger where
  books := { l.books with late := none }
  ghost := { l.ghost with
    place := fun p => if l.ghost.place p = .late then .thread t else l.ghost.place p
    keeper := fun o => if l.ghost.keeper o = .late then .thread t else l.ghost.keeper o
    chain := [] }

/-- Link an orphan in front of the chain. -/
def push (l : Ledger) (o : Nat) (x : Entry) : Ledger where
  books := { l.books with late := some o }
  ghost := { l.ghost with
    place := update l.ghost.place x.1 .late
    keeper := update l.ghost.keeper o .late
    chain := (o, x) :: l.ghost.chain }

/-- Write an orphan of thread `t`, or give it back. -/
def write (l : Ledger) (t o : Nat) (v : Option (Option Nat × Entry)) : Ledger where
  books := { l.books with orphan := update l.books.orphan o v }
  ghost := { l.ghost with keeper := update l.ghost.keeper o (if v = none then .free else .thread t) }

/-! ### One object changes its place -/

/-- From `l` to `l'` the object `p` goes to the place `dst`. -/
structure Moves (l l' : Ledger) (p : Ptr) (dst : Place) : Prop where
  place : l'.ghost.place = update l.ghost.place p dst
  accepted : ∀ x, x.1 ≠ p → (x ∈ l'.books.accepted ↔ x ∈ l.books.accepted)

namespace Moves

variable {l' : Ledger} {pl dst : Place}

/-- The other places are as before. -/
theorem held (h : Moves l l' p dst) (hM : l.Held pl M) (hfrom : l.ghost.place p ≠ pl)
    (hto : dst ≠ pl) : l'.Held pl M := by
  refine hM.congr fun x => ?_
  by_cases hx : x.1 = p
  · subst hx
    rw [h.place, Function.update_self]
    exact ⟨fun hx => absurd hx.2 hto, fun hx => absurd hx.2 hfrom⟩
  · rw [h.place, Function.update_of_ne hx, h.accepted x hx]

/-- What moves away from a place is not among what the place holds any more. -/
theorem leave (h : Moves l l' x.1 dst) (hl : l.Ok) (hM : l.Held pl (x ::ₘ M)) (hto : dst ≠ pl) :
    l'.Held pl M := by
  obtain ⟨hnot, hnd⟩ := Multiset.nodup_cons.mp hM.1
  have hx := (hM.2 x).mp (Multiset.mem_cons_self x M)
  refine ⟨hnd, fun y => ?_⟩
  have hy := hM.2 y
  rw [Multiset.mem_cons] at hy
  by_cases hyx : y.1 = x.1
  · rw [hyx, h.place, Function.update_self]
    refine ⟨fun hm => ?_, fun hm => absurd hm.2 hto⟩
    obtain rfl := hl.entry_unique (hy.mp (.inr hm)).1 hx.1 hyx
    exact absurd hm hnot
  · rw [h.place, Function.update_of_ne hyx, h.accepted y hyx, ← hy]
    exact ⟨.inr, fun hm => hm.resolve_left fun he => hyx (by rw [he])⟩

/-- What moves to a place is among what the place holds. -/
theorem enter (h : Moves l l' x.1 dst) (hnd : (l'.books.accepted.map Prod.fst).Nodup)
    (hx : x ∈ l'.books.accepted) (hM : l.Held dst M) (hfrom : l.ghost.place x.1 ≠ dst) :
    l'.Held dst (x ::ₘ M) := by
  have hout : ∀ y ∈ M, y.1 ≠ x.1 := by
    rintro y hy he
    exact hfrom (he ▸ ((hM.2 y).mp hy).2)
  refine ⟨Multiset.nodup_cons.mpr ⟨fun hm => hout x hm rfl, hM.1⟩, fun y => ?_⟩
  rw [Multiset.mem_cons]
  by_cases hyx : y.1 = x.1
  · rw [hyx, h.place, Function.update_self]
    constructor
    · rintro (rfl | hy)
      · exact ⟨hx, rfl⟩
      · exact absurd hyx (hout y hy)
    · exact fun hy => .inl (List.inj_on_of_nodup_map hnd hy.1 hx hyx)
  · rw [h.place, Function.update_of_ne hyx, h.accepted y hyx, ← hM.2 y]
    exact ⟨fun hy => hy.resolve_left fun he => hyx (by rw [he]), .inr⟩

/-- A move that concerns no other thread's places keeps the guarantee. -/
theorem guar (h : Moves l l' p dst) (hfrom : ∀ v, v ≠ t → l.ghost.place p ≠ .claimed v ∧
      l.ghost.place p ≠ .thread v) (hto : ∀ v, v ≠ t → dst ≠ .thread v)
    (hkeeper : ∀ v, v ≠ t → ∀ o, l'.ghost.keeper o = .thread v ↔ l.ghost.keeper o = .thread v)
    (horphan : l'.books.orphan = l.books.orphan)
    (htokens : ∀ v, v ≠ t → (v ∈ l'.ghost.tokens ↔ v ∈ l.ghost.tokens))
    (hdue : ∀ v, v ≠ t → l'.ghost.due v = l.ghost.due v) : Guar t l l' where
  claimed v hv q hq := by
    rw [h.place, Function.update_of_ne, hq]
    rintro rfl
    exact (hfrom v hv).1 hq
  held v hv M hM := h.held hM (hfrom v hv).2 (hto v hv)
  keeper := hkeeper
  orphan _ _ _ _ := by rw [horphan]
  tokens := htokens
  due := hdue

end Moves

theorem moves_claim : Moves l (l.claim t p) p (.claimed t) := ⟨rfl, fun _ _ => Iff.rfl⟩

theorem moves_disclaim : Moves l (l.disclaim p) p .nowhere := ⟨rfl, fun _ _ => Iff.rfl⟩

theorem moves_accept : Moves l (l.accept t x) x.1 (.thread t) where
  place := rfl
  accepted y hy := by
    have hne : y ≠ x := fun h => hy (h ▸ rfl)
    simp [accept, hne]

theorem moves_run : Moves l (l.run t x) x.1 .done := ⟨rfl, fun _ _ => Iff.rfl⟩

theorem moves_push : Moves l (l.push o x) x.1 .late := ⟨rfl, fun _ _ => Iff.rfl⟩

/-- The list of accepted objects and the places agree after a move that accepts nothing. -/
theorem Ok.accepted_of_moves {l' : Ledger} {dst : Place} (hl : l.Ok) (h : Moves l l' p dst)
    (heq : l'.books.accepted = l.books.accepted)
    (hto : (dst ≠ .nowhere ∧ ∀ t, dst ≠ .claimed t) ↔
      (l.ghost.place p ≠ .nowhere ∧ ∀ t, l.ghost.place p ≠ .claimed t)) (q : Ptr) :
    q ∈ l'.books.accepted.map Prod.fst ↔
      l'.ghost.place q ≠ .nowhere ∧ ∀ t, l'.ghost.place q ≠ .claimed t := by
  rw [heq, hl.accepted q, h.place]
  by_cases hq : q = p
  · subst hq
    rw [Function.update_self, hto]
  · rw [Function.update_of_ne hq]

/-- An object may be claimed once. -/
theorem Ok.claim (hl : l.Ok) (hp : p ∉ l.books.submitted) : (l.claim t p).Ok := by
  have hnow := (hl.submitted p).mpr hp
  refine ⟨fun q => ?_, hl.accepted_nodup, hl.accepted_of_moves moves_claim rfl (by simp [hnow]),
    moves_claim.held hl.ran (by simp [hnow]) (by simp),
    moves_claim.held hl.late (by simp [hnow]) (by simp), hl.chain, hl.keeper, hl.orphan, hl.balance,
    hl.answered⟩
  by_cases hq : q = p
  · subst hq
    simp [Ledger.claim]
  · simp [Ledger.claim, hq, hl.submitted q]

theorem Guar.claim (hl : l.Ok) (hp : p ∉ l.books.submitted) : Guar t l (l.claim t p) := by
  have hnow := (hl.submitted p).mpr hp
  exact moves_claim.guar (by simp [hnow]) (by simp) (fun _ _ _ => Iff.rfl) rfl
    (fun _ _ => Iff.rfl) fun _ _ => rfl

/-- A claim is taken back where the retirement is refused. -/
theorem Ok.disclaim (hl : l.Ok) (hp : l.ghost.place p = .claimed t) : (l.disclaim p).Ok := by
  refine ⟨fun q => ?_, hl.accepted_nodup, hl.accepted_of_moves moves_disclaim rfl (by simp [hp]),
    moves_disclaim.held hl.ran (by simp [hp]) (by simp),
    moves_disclaim.held hl.late (by simp [hp]) (by simp), hl.chain, hl.keeper, hl.orphan,
    hl.balance, hl.answered⟩
  by_cases hq : q = p
  · subst hq
    simp [Ledger.disclaim]
  · simp [Ledger.disclaim, hq, hl.submitted q]

theorem Guar.disclaim (hp : l.ghost.place p = .claimed t) : Guar t l (l.disclaim p) := by
  refine moves_disclaim.guar (fun v hv => ?_) (by simp) (fun _ _ _ => Iff.rfl) rfl
    (fun _ _ => Iff.rfl) fun _ _ => rfl
  rw [hp]
  simp [Ne.symm hv]

/-- What is accepted was claimed, and is held by the thread from then on. -/
theorem Ok.accept (hl : l.Ok) (hx : l.ghost.place x.1 = .claimed t) (ht : t ∈ l.ghost.tokens)
    (hdue : l.ghost.due t = none) : (l.accept t x).Ok := by
  have hnot : x.1 ∉ l.books.accepted.map Prod.fst := fun hm =>
    ((hl.accepted x.1).mp hm).2 t hx
  refine ⟨fun q => ?_, ?_, fun q => ?_, moves_accept.held hl.ran (by simp [hx]) (by simp),
    moves_accept.held hl.late (by simp [hx]) (by simp), hl.chain, hl.keeper, hl.orphan, ?_,
    hl.answered.accept (fun hm => hnot (List.mem_map_of_mem hm)) hdue⟩
  · by_cases hq : q = x.1
    · subst hq
      have := (hl.submitted x.1).not.mp (by simp [hx])
      simpa [Ledger.accept] using this
    · simp [Ledger.accept, hq, hl.submitted q]
  · simp only [Ledger.accept, List.map_append, List.map_cons, List.map_nil]
    exact hl.accepted_nodup.append (List.nodup_singleton _) (List.disjoint_singleton.mpr hnot)
  · by_cases hq : q = x.1
    · subst hq
      simp [Ledger.accept]
    · have hin : q ∈ (l.accept t x).books.accepted.map Prod.fst ↔
          q ∈ l.books.accepted.map Prod.fst := by
        simp only [Ledger.accept, List.map_append, List.mem_append, List.map_cons, List.map_nil,
          List.mem_singleton, hq, or_false]
      rw [hin, hl.accepted q]
      simp only [Ledger.accept, Function.update_of_ne hq]
  · have hcard := Finset.card_pos.mpr ⟨t, ht⟩
    have := hl.balance
    simp only [Ledger.accept, List.length_append, List.length_singleton,
      Finset.card_erase_of_mem ht]
    omega

theorem Guar.accept (hx : l.ghost.place x.1 = .claimed t) : Guar t l (l.accept t x) := by
  refine moves_accept.guar (fun v hv => ?_) (fun v hv => ?_) (fun _ _ _ => Iff.rfl) rfl
    (fun v hv => ?_) fun v hv => update_of_ne hv _ _
  · rw [hx]
    simp [Ne.symm hv]
  · simp [Ne.symm hv]
  · simp [Ledger.accept, hv]

/-- What a thread runs the action of was held by it. -/
theorem Ok.run (hl : l.Ok) (hx : x ∈ l.books.accepted) (hp : l.ghost.place x.1 = .thread t)
    (ht : t ∉ l.ghost.tokens) : (l.run t x).Ok := by
  refine ⟨fun q => ?_, hl.accepted_nodup, hl.accepted_of_moves moves_run rfl (by simp [hp]), ?_,
    moves_run.held hl.late (by simp [hp]) (by simp), hl.chain, hl.keeper, hl.orphan, ?_,
    hl.answered⟩
  · by_cases hq : q = x.1
    · subst hq
      have := (hl.submitted x.1).not.mp (by simp [hp])
      simpa [Ledger.run] using this
    · simp [Ledger.run, hq, hl.submitted q]
  · have h := (moves_run (t := t)).enter hl.accepted_nodup hx hl.ran (by simp [hp])
    have hperm : ((l.run t x).books.ran : Multiset Entry) = x ::ₘ (l.books.ran : Multiset Entry) :=
      Multiset.coe_eq_coe.mpr (List.perm_append_singleton x l.books.ran)
    rwa [hperm]
  · have := hl.balance
    simp only [Ledger.run, List.length_append, List.length_singleton,
      Finset.card_insert_of_notMem ht]
    omega

theorem Guar.run (hp : l.ghost.place x.1 = .thread t) : Guar t l (l.run t x) := by
  refine moves_run.guar (fun v hv => ?_) (by simp) (fun _ _ _ => Iff.rfl) rfl (fun v hv => ?_)
    fun _ _ => rfl
  · rw [hp]
    simp [Ne.symm hv]
  · simp [Ledger.run, hv]

/-- What is pushed to the late list was held by the thread. -/
theorem Ok.push (hl : l.Ok) (hx : x ∈ l.books.accepted) (hp : l.ghost.place x.1 = .thread t)
    (hk : l.ghost.keeper o = .thread t) (ho : l.books.orphan o = some (l.books.late, x)) :
    (l.push o x).Ok := by
  refine ⟨fun q => ?_, hl.accepted_nodup, hl.accepted_of_moves moves_push rfl (by simp [hp]),
    moves_push.held hl.ran (by simp [hp]) (by simp), ?_, ⟨rfl, l.books.late, ho, hl.chain⟩,
    fun q => ?_, fun q => ?_, hl.balance, hl.answered⟩
  · by_cases hq : q = x.1
    · subst hq
      have := (hl.submitted x.1).not.mp (by simp [hp])
      simpa [Ledger.push] using this
    · simp [Ledger.push, hq, hl.submitted q]
  · exact (moves_push (o := o)).enter hl.accepted_nodup hx hl.late (by simp [hp])
  · by_cases hq : q = o
    · subst hq
      simp [Ledger.push]
    · have := hl.keeper q
      simp only [Ledger.push, Function.update_of_ne hq, List.map_cons, List.mem_cons, hq, false_or]
      exact this
  · by_cases hq : q = o
    · subst hq
      simp [Ledger.push, ho]
    · simp only [Ledger.push, Function.update_of_ne hq]
      exact hl.orphan q

theorem Guar.push (hp : l.ghost.place x.1 = .thread t) (hk : l.ghost.keeper o = .thread t) :
    Guar t l (l.push o x) := by
  refine moves_push.guar (fun v hv => ?_) (by simp) (fun v hv q => ?_) rfl (fun _ _ => Iff.rfl)
    fun _ _ => rfl
  · rw [hp]
    simp [Ne.symm hv]
  · by_cases hq : q = o
    · subst hq
      simp [Ledger.push, hk, Ne.symm hv]
    · simp [Ledger.push, hq]

/-! ### The counter, the chain and the orphans -/

/-- A thread counts one object at a time. -/
theorem Ok.count (hl : l.Ok) (ht : t ∉ l.ghost.tokens) : (l.count t).Ok := by
  refine ⟨hl.submitted, hl.accepted_nodup, hl.accepted, hl.ran, hl.late, hl.chain, hl.keeper,
    hl.orphan, ?_, hl.answered⟩
  have := hl.balance
  simp only [Ledger.count, Finset.card_insert_of_notMem ht]
  omega

theorem Guar.count : Guar t l (l.count t) := by
  refine ⟨fun _ _ _ h => h, fun _ _ _ h => h, fun _ _ _ => Iff.rfl, fun _ _ _ _ => rfl,
    fun v hv => ?_, fun _ _ => rfl⟩
  simp [Ledger.count, hv]

/-- A thread counts down what it has counted. -/
theorem Ok.discount (hl : l.Ok) (ht : t ∈ l.ghost.tokens) : (l.discount t).Ok := by
  refine ⟨hl.submitted, hl.accepted_nodup, hl.accepted, hl.ran, hl.late, hl.chain, hl.keeper,
    hl.orphan, ?_, hl.answered⟩
  have := hl.balance
  have hle := hl.ran_le
  have hcard := Finset.card_pos.mpr ⟨t, ht⟩
  simp only [Ledger.discount, Finset.card_erase_of_mem ht]
  omega

theorem Guar.discount : Guar t l (l.discount t) := by
  refine ⟨fun _ _ _ h => h, fun _ _ _ h => h, fun _ _ _ => Iff.rfl, fun _ _ _ _ => rfl,
    fun v hv => ?_, fun _ _ => rfl⟩
  simp [Ledger.discount, hv]

theorem detach_place (q : Ptr) : (l.detach t).ghost.place q =
    if l.ghost.place q = .late then .thread t else l.ghost.place q := rfl

theorem detach_keeper (o : Nat) : (l.detach t).ghost.keeper o =
    if l.ghost.keeper o = .late then .thread t else l.ghost.keeper o := rfl

/-- The objects of the chain join those of the thread. -/
theorem Held.detach (hl : l.Ok) (hM : l.Held (.thread t) M) :
    (l.detach t).Held (.thread t) (M + (l.ghost.chain.map Prod.snd : List Entry)) := by
  refine ⟨Multiset.nodup_add.mpr ⟨hM.1, hl.late.1, ?_⟩, fun x => ?_⟩
  · refine Multiset.disjoint_left.mpr fun {x} hx hx' => ?_
    have h1 := ((hM.2 x).mp hx).2
    rw [((hl.late.2 x).mp hx').2] at h1
    cases h1
  · rw [Multiset.mem_add, hM.2 x, hl.late.2 x, detach_place]
    show _ ↔ x ∈ l.books.accepted ∧ _
    split
    · next h => simp [h]
    · next h => simp [h]

/-- The late list as a whole comes to the thread that takes it. -/
theorem Ok.detach (hl : l.Ok) : (l.detach t).Ok := by
  have hplace : ∀ q pl, pl ≠ .late → pl ≠ .thread t →
      ((l.detach t).ghost.place q = pl ↔ l.ghost.place q = pl) := by
    intro q pl h1 h2
    rw [detach_place]
    split
    · next h => simp [h, h1.symm, h2.symm]
    · rfl
  refine ⟨fun q => ?_, hl.accepted_nodup, fun q => ?_, ?_, ?_, rfl, fun q => ?_, fun q => ?_,
    hl.balance, hl.answered⟩
  · rw [hplace q .nowhere (by simp) (by simp)]
    exact hl.submitted q
  · rw [Ne, hplace q .nowhere (by simp) (by simp)]
    simp only [Ne, hplace q (.claimed _) (by simp) (by simp)]
    exact hl.accepted q
  · exact hl.ran.congr fun x => and_congr_right fun _ => hplace x.1 .done (by simp) (by simp)
  · refine ⟨Multiset.nodup_zero, fun x => ⟨fun h => absurd h (Multiset.notMem_zero x), ?_⟩⟩
    rintro ⟨-, h⟩
    rw [detach_place] at h
    split at h
    · cases h
    · contradiction
  · rw [detach_keeper]
    split
    · simp [Ledger.detach]
    · next h => simpa [Ledger.detach] using h
  · rw [detach_keeper]
    split
    · next h =>
      have := (hl.orphan q).not.mp (by simp [h])
      exact ⟨fun hf => (by cases hf), fun hf => absurd hf this⟩
    · exact hl.orphan q

theorem Guar.detach : Guar t l (l.detach t) := by
  refine ⟨fun v _ q hq => ?_, fun v hv M hM => ?_, fun v hv o => ?_, fun _ _ _ _ => rfl,
    fun _ _ => Iff.rfl, fun _ _ => rfl⟩
  · simp [detach_place, hq]
  · refine hM.congr fun x => and_congr_right fun _ => ?_
    rw [detach_place]
    split
    · next h => simp [h, Ne.symm hv]
    · rfl
  · rw [detach_keeper]
    split
    · next h => simp [h, Ne.symm hv]
    · rfl

/-- An orphan that is not in the late list may be written. -/
theorem Ok.write (hl : l.Ok) (ho : l.ghost.keeper o ≠ .late) (v : Option (Option Nat × Entry)) :
    (l.write t o v).Ok := by
  have hnot : o ∉ l.ghost.chain.map Prod.fst := (hl.keeper o).not.mp ho
  refine ⟨hl.submitted, hl.accepted_nodup, hl.accepted, hl.ran, hl.late,
    hl.chain.update_of_notMem hnot v, fun q => ?_, fun q => ?_, hl.balance, hl.answered⟩
  · by_cases hq : q = o
    · subst hq
      simp only [Ledger.write, Function.update_self]
      refine ⟨fun h => ?_, fun h => absurd h hnot⟩
      split at h <;> cases h
    · simp only [Ledger.write, Function.update_of_ne hq]
      exact hl.keeper q
  · by_cases hq : q = o
    · subst hq
      simp only [Ledger.write, Function.update_self]
      split <;> simp_all
    · simp only [Ledger.write, Function.update_of_ne hq]
      exact hl.orphan q

theorem Guar.write (ho : l.ghost.keeper o = .thread t ∨ l.ghost.keeper o = .free)
    (w : Option (Option Nat × Entry)) : Guar t l (l.write t o w) := by
  refine ⟨fun _ _ _ h => h, fun _ _ _ h => h, fun v hv q => ?_, fun v hv q hq => ?_,
    fun _ _ => Iff.rfl, fun _ _ => rfl⟩
  · by_cases hq : q = o
    · subst hq
      simp only [Ledger.write, Function.update_self]
      rcases ho with ho | ho <;> split <;> simp [ho, Ne.symm hv]
    · simp only [Ledger.write, Function.update_of_ne hq]
  · refine Function.update_of_ne ?_ _ _
    rintro rfl
    rcases ho with ho | ho <;> simp [ho, Ne.symm hv] at hq

/-- `retire` answers `true` for the object that it is due to answer for. -/
theorem Ok.answer (hl : l.Ok) (ht : l.ghost.due t = some x) : (l.answer t x).Ok :=
  ⟨hl.submitted, hl.accepted_nodup, hl.accepted, hl.ran, hl.late, hl.chain, hl.keeper, hl.orphan,
    hl.balance, hl.answered.answer ht⟩

theorem Guar.answer : Guar t l (l.answer t x) :=
  ⟨fun _ _ _ h => h, fun _ _ _ h => h, fun _ _ _ => Iff.rfl, fun _ _ _ _ => rfl,
    fun _ _ => Iff.rfl, fun _ hv => update_of_ne hv _ _⟩

/-! ## The share of the thread that moves -/

/-- A thread that claims an object has the claim. -/
theorem Owned.toClaim (hl : l.Ok) (h : l.Owned t σ) (hp : p ∉ l.books.submitted) :
    (l.claim t p).Owned t { σ with claim := some p } := by
  have hnow := (hl.submitted p).mpr hp
  refine ⟨moves_claim.held h.held (by simp [hnow]) (by simp), h.token, h.cells, fun q hq => ?_,
    h.due⟩
  cases hq
  simp [Ledger.claim]

theorem Owned.toDisclaim (h : l.Owned t σ) (hp : σ.claim = some p) :
    (l.disclaim p).Owned t { σ with claim := none } := by
  have hnow := h.claim p hp
  exact ⟨moves_disclaim.held h.held (by simp [hnow]) (by simp), h.token, h.cells,
    fun q hq => (by cases hq), h.due⟩

theorem Owned.toCount (h : l.Owned t σ) : (l.count t).Owned t { σ with token := true } :=
  ⟨h.held, by simp [count], h.cells, h.claim, h.due⟩

theorem Owned.toDiscount (h : l.Owned t σ) : (l.discount t).Owned t { σ with token := false } :=
  ⟨h.held, by simp [discount], h.cells, h.claim, h.due⟩

/-- What the thread has claimed it holds, and owes the answer. -/
theorem Owned.toAccept (hl : l.Ok) (h : l.Owned t σ) (hp : σ.claim = some x.1)
    (ht : σ.token = true) (hdue : σ.due = none) : (l.accept t x).Owned t
      { σ with held := x ::ₘ σ.held, token := false, claim := none, due := some x } := by
  have hnow := h.claim _ hp
  have hok := hl.accept hnow (h.token.mpr ht) (h.due.trans hdue)
  exact ⟨moves_accept.enter hok.accepted_nodup (by simp [accept]) h.held (by simp [hnow]),
    by simp [accept], h.cells, fun q hq => (by cases hq), update_self _ _ _⟩

theorem Owned.toAnswer (h : l.Owned t σ) : (l.answer t x).Owned t { σ with due := none } :=
  ⟨h.held, h.token, h.cells, h.claim, update_self _ _ _⟩

/-- An object that the thread answers for is not one that it is about to retire. -/
theorem Owned.ne_claim (h : l.Owned t σ) (hx : x ∈ σ.held) (hp : σ.claim = some p) : p ≠ x.1 := by
  rintro rfl
  have := ((h.held.2 x).mp hx).2
  rw [h.claim _ hp] at this
  cases this

/-- With its action run the object is spent; it is still counted. -/
theorem Owned.toRun (hl : l.Ok) (h : l.Owned t σ) (hx : σ.held = x ::ₘ M) :
    (l.run t x).Owned t { σ with held := M, token := true } := by
  refine ⟨moves_run.leave hl (hx ▸ h.held) (by simp), by simp [run], h.cells, fun q hq => ?_,
    h.due⟩
  have hne := h.ne_claim (x := x) (by simp [hx]) hq
  simpa only [run, Function.update_of_ne hne] using h.claim q hq

/-- Writing an orphan of the thread, or a new one. -/
theorem Owned.toWrite (h : l.Owned t σ) (v : Option (Option Nat × Entry)) :
    (l.write t o v).Owned t { σ with cells := update σ.cells o v } := by
  refine ⟨h.held, h.token, fun q r => ?_, h.claim, h.due⟩
  by_cases hq : q = o
  · subst hq
    cases v <;> simp [write]
  · simp only [write, Function.update_of_ne hq]
    exact h.cells q r

/-- What the thread pushes it holds no more. -/
theorem Owned.toPush {n : Option Nat} (hl : l.Ok) (h : l.Owned t σ) (hx : σ.held = x ::ₘ M)
    (ho : σ.cells o = some (n, x)) :
    (l.push o x).Owned t { σ with held := M, cells := update σ.cells o none } := by
  refine ⟨moves_push.leave hl (hx ▸ h.held) (by simp), h.token, fun q r => ?_, fun q hq => ?_,
    h.due⟩
  · by_cases hq : q = o
    · subst hq
      simp [push]
    · simp only [push, Function.update_of_ne hq]
      exact h.cells q r
  · have hne := h.ne_claim (x := x) (by simp [hx]) hq
    simpa only [push, Function.update_of_ne hne] using h.claim q hq

/-- The thread takes over the chain. -/
theorem Owned.toDetach (hl : l.Ok) (h : l.Owned t σ) :
    ∃ L cells, (l.detach t).Owned t
        { σ with held := σ.held + (L.map Prod.snd : List Entry), cells := cells } ∧
      Chain cells l.books.late L none ∧ (∀ o ∈ L.map Prod.fst, σ.cells o = none) ∧
      ∀ o, o ∉ L.map Prod.fst → cells o = σ.cells o := by
  have hmem : ∀ o, o ∈ l.ghost.chain.map Prod.fst → ∀ r, σ.cells o ≠ some r := by
    intro o ho r hr
    have hk := ((h.cells o r).mp hr).1
    rw [(hl.keeper o).mpr ho] at hk
    cases hk
  refine ⟨l.ghost.chain, fun o => if o ∈ l.ghost.chain.map Prod.fst then l.books.orphan o else
    σ.cells o, ⟨h.held.detach hl, h.token, fun o r => ?_, fun p hp => ?_, h.due⟩, ?_, fun o ho => ?_,
    fun o ho => if_neg ho⟩
  · rw [detach_keeper]
    split
    · next hk => simp [(hl.keeper o).mp hk, detach]
    · next hk =>
      have ho : o ∉ l.ghost.chain.map Prod.fst := fun ho => hk ((hl.keeper o).mpr ho)
      simp only [if_neg ho]
      exact h.cells o r
  · rw [detach_place, if_neg]
    · exact h.claim p hp
    · rw [h.claim p hp]
      simp
  · exact hl.chain.congr fun c hc => if_pos (List.mem_map_of_mem hc)
  · exact Option.eq_none_iff_forall_ne_some.mpr (hmem o ho)

end Ledger

/-! ## What the accounts say -/

/-- No action has run twice, and each has run on the object it was retired with. -/
structure Books.RunOnce (b : Books) : Prop where
  nodup : (b.ran.map Prod.fst).Nodup
  accepted : ∀ x ∈ b.ran, x ∈ b.accepted

/-- The objects of thread `t` for `some t`, those of the late chain for `none`. -/
def holding (lists : Nat → List Entry) (late : List (Nat × Entry)) : Option Nat → List Entry
  | none => late.map Prod.snd
  | some t => lists t

/-- The counter is right, the late chain is acyclic, and every accepted object whose action has not
run is once in one list or once on the late chain. -/
structure Books.Balanced (b : Books) (lists : Nat → List Entry) : Prop where
  outstanding : b.outstanding = (b.accepted.filter fun x => decide (x ∉ b.ran)).length
  places : ∃ late, Chain b.orphan b.late late none ∧ (late.map Prod.fst).Nodup ∧
    (∀ h, (holding lists late h).Nodup) ∧
    (∀ x, (x ∈ b.accepted ∧ x ∉ b.ran) ↔ ∃ h, x ∈ holding lists late h) ∧
    ∀ x h h', x ∈ holding lists late h → x ∈ holding lists late h' → h = h'

namespace Ledger

variable {l : Ledger} {lists : Nat → List Entry}

/-- Each action runs once at most, and only that of an accepted object. -/
theorem Ok.runOnce (hl : l.Ok) : l.books.RunOnce := by
  have hmem : ∀ x ∈ l.books.ran, x ∈ l.books.accepted := fun x hx => ((hl.ran.2 x).mp hx).1
  refine ⟨?_, hmem⟩
  refine List.Nodup.map_on (fun x hx y hy => hl.entry_unique (hmem x hx) (hmem y hy)) ?_
  exact Multiset.coe_nodup.mp hl.ran.1

/-- The object of every call of `retire` that has returned is accepted with the action of that
call. -/
theorem Ok.returned_subset (hl : l.Ok) : ∀ x ∈ l.books.returned, x ∈ l.books.accepted :=
  fun x hx => ((hl.answered.returned x).mp hx).1

/-- When no answer is due, the calls that answered `true` are those that were accepted. -/
theorem Ok.returned_perm (hl : l.Ok) (hdue : ∀ t, l.ghost.due t = none) :
    l.books.returned.Perm l.books.accepted :=
  hl.answered.perm (List.Nodup.of_map _ hl.accepted_nodup) hdue

/-- When no thread holds anything but its lists, the books are balanced. -/
theorem Ok.balanced (hl : l.Ok)
    (hidle : ∀ t, l.Held (.thread t) (lists t) ∧ t ∉ l.ghost.tokens) : l.books.Balanced lists := by
  constructor
  case outstanding =>
    have htokens : l.ghost.tokens = ∅ := Finset.eq_empty_of_forall_notMem fun t => (hidle t).2
    have hbal := hl.balance
    rw [htokens, Finset.card_empty] at hbal
    -- the accepted objects are those that have run and those that have not
    have hsplit := List.length_eq_length_filter_add (l := l.books.accepted)
      (fun x => decide (x ∈ l.books.ran))
    have hperm : (l.books.accepted.filter fun x => decide (x ∈ l.books.ran)).Perm l.books.ran := by
      refine (List.perm_ext_iff_of_nodup ?_ (Multiset.coe_nodup.mp hl.ran.1)).mpr fun x => ?_
      · exact (List.Nodup.of_map _ hl.accepted_nodup).filter _
      · rw [List.mem_filter, decide_eq_true_eq]
        exact ⟨fun h => h.2, fun h => ⟨((hl.ran.2 x).mp h).1, h⟩⟩
    have hlen := hperm.length_eq
    simp only [decide_not]
    omega
  case places =>
    have hplace : ∀ x h, x ∈ holding lists (l.ghost.chain) h ↔ x ∈ l.books.accepted ∧
        l.ghost.place x.1 = (match h with | none => .late | some t => .thread t) := by
      intro x h
      cases h with
      | none => exact hl.late.2 x
      | some t => exact (hidle t).1.2 x
    refine ⟨l.ghost.chain, hl.chain, hl.chain.nodup, fun h => ?_, fun x => ?_, fun x h h' hx hx' => ?_⟩
    · cases h with
      | none => exact Multiset.coe_nodup.mp hl.late.1
      | some t => exact Multiset.coe_nodup.mp (hidle t).1.1
    · constructor
      · rintro ⟨hacc, hran⟩
        obtain ⟨hnow, hclaim⟩ := (hl.accepted x.1).mp (List.mem_map_of_mem hacc)
        -- an accepted object is at one of five places, of which three are excluded
        cases hp : l.ghost.place x.1 with
        | nowhere => exact absurd hp hnow
        | claimed t => exact absurd hp (hclaim t)
        | thread t => exact ⟨some t, (hplace x _).mpr ⟨hacc, hp⟩⟩
        | late => exact ⟨none, (hplace x _).mpr ⟨hacc, hp⟩⟩
        | done => exact absurd ((hl.ran.2 x).mpr ⟨hacc, hp⟩) hran
      · rintro ⟨h, hx⟩
        obtain ⟨hacc, hp⟩ := (hplace x h).mp hx
        refine ⟨hacc, fun hran => ?_⟩
        rw [((hl.ran.2 x).mp hran).2] at hp
        cases h <;> cases hp
    · have h1 := ((hplace x h).mp hx).2
      have h2 := ((hplace x h').mp hx').2
      rw [h1] at h2
      cases h <;> cases h' <;> cases h2 <;> rfl

end Ledger

end MpmcMap.Reclaim
