import MpmcMap.Unordered.BitOrder
import MpmcMap.Unordered.Unlinked

/-!
# The order of the linked nodes

A node that is linked has its place in an order that never changes: nodes come in the order of their
split-order keys, and among equal keys the one that was linked later comes first. Every pointer of a
linked node leads to a node behind it, also where marks have been lost and where unlinked nodes have
been linked again.
-/

namespace MpmcMap.Unordered

open Conc
open Function (update)

variable {Addr Key : Type}

/-- The container, who has the nodes that are not linked yet, and when the others were linked. -/
structure Aged (Addr Key : Type) extends Annotated Addr Key where
  date : Addr → Nat

/-- The linked node `a` comes before the linked node `b`. -/
structure Aged.Before (s : Aged Addr Key) (a b : Addr) : Prop where
  left : s.Linked a
  right : s.Linked b
  lt : s.heap.soKey a < s.heap.soKey b ∨
    s.heap.soKey a = s.heap.soKey b ∧ s.date b < s.date a

/-- Pointers lead on in the order of the list, and no dummy is marked. -/
structure InOrder (s : Aged Addr Key) : Prop extends Inv s.toAnnotated where
  dummy : ∀ t i d, s.heap.bucket t i = some d →
    s.heap.soKey d = dummySplitOrderKey i ∧ i < 2 ^ 63
  regular : ∀ a, (s.heap.next a).marked = true → isRegular (s.heap.soKey a) = true
  before : ∀ a b, s.Linked a → (s.heap.next a).ptr = some b → s.Before a b

namespace Aged

variable {s s' : Aged Addr Key} {a b c n : Addr} {t : Nat}

theorem Before.trans (h : s.Before a b) (h' : s.Before b c) : s.Before a c := by
  refine ⟨h.left, h'.right, ?_⟩
  rcases h.lt with h1 | ⟨h1, h2⟩ <;> rcases h'.lt with h3 | ⟨h3, h4⟩
  · exact .inl (BitVec.lt_trans h1 h3)
  · exact .inl (h3 ▸ h1)
  · exact .inl (h1 ▸ h3)
  · exact .inr ⟨h1.trans h3, h4.trans h2⟩

theorem Before.irrefl (h : s.Before a a) : False := by
  rcases h.lt with h | ⟨-, h⟩
  · exact BitVec.lt_irrefl _ h
  · exact Nat.lt_irrefl _ h

theorem Before.key_le (hab : s.Before a b) : s.heap.soKey a ≤ s.heap.soKey b := by
  rcases hab.lt with h | ⟨h, -⟩
  · exact BitVec.le_of_lt h
  · exact BitVec.le_of_eq h

theorem Before.ne (hab : s.Before a b) : a ≠ b := by
  rintro rfl
  exact hab.irrefl

/-- A step that changes neither key nor date of a linked node leaves the order as it is. -/
theorem Before.keep (hlinked : ∀ a, s.Linked a → s'.Linked a)
    (hso : ∀ a, s.Linked a → s'.heap.soKey a = s.heap.soKey a)
    (hdate : ∀ a, s.Linked a → s'.date a = s.date a) (h : s.Before a b) : s'.Before a b := by
  refine ⟨hlinked a h.left, hlinked b h.right, ?_⟩
  rw [hso a h.left, hso b h.right, hdate a h.left, hdate b h.right]
  exact h.lt

theorem not_linked {s : Annotated Addr Key} (ha : s.owner a = some t) : ¬ s.Linked a := by
  intro h
  rw [h.2] at ha
  cases ha

/-- The container has changed, and nothing else. -/
def withHeap (s : Aged Addr Key) (h : Heap Addr Key) : Aged Addr Key := { s with heap := h }

variable [DecidableEq Addr]

/-- The node `n` has been linked behind `a`, later than all others. -/
def link (s : Aged Addr Key) (a n : Addr) : Aged Addr Key where
  heap := s.heap.setNext a (.plain (some n))
  owner := update s.owner n none
  date := update s.date n (s.heap.inUse.sup s.date + 1)

theorem link_date (hn : s.owner n = some t) (hb : s.Linked b) : (s.link a n).date b = s.date b := by
  apply Function.update_of_ne
  rintro rfl
  exact not_linked hn hb

end Aged

theorem bucket_setBucket {h : Heap Addr Key} {v : Option Addr} {u i w j : Nat} :
    (h.setBucket u i v).bucket w j = if w = u ∧ j = i then v else h.bucket w j := by
  simp only [Heap.setBucket, Function.update_apply]
  by_cases hw : w = u
  · subst hw
    by_cases hj : j = i <;> simp [hj]
  · simp [hw]

namespace InOrder

variable {s : Aged Addr Key} {a b n : Addr} {t u i : Nat} {h' : Heap Addr Key}

/-- All that is reached from a linked node comes after it. -/
theorem after (hi : InOrder s) (ha : s.Linked a) (hab : s.heap.Reaches a b) :
    a = b ∨ s.Before a b := by
  induction hab with
  | refl => exact .inl rfl
  | @tail b c _ hbc ih =>
    rcases ih with rfl | hab
    · exact .inr (hi.before a c ha hbc)
    · exact .inr (hab.trans (hi.before b c hab.right hbc))

/-- A node with the key of a dummy is not marked. -/
theorem unmarked_dummy (hi : InOrder s) (hlt : i < 2 ^ 63)
    (hd : s.heap.soKey a = dummySplitOrderKey i) : (s.heap.next a).marked = false := by
  by_contra hm
  have hreg := hi.regular a (Bool.not_eq_false _ ▸ hm)
  rw [hd, isRegular_dummy hlt] at hreg
  cases hreg

/-! ### What keeps the order -/

/-- A step that writes no pointer and no key; tables may be made. -/
theorem calm (hi : InOrder s) (hc : Calm s.heap h') (hso : h'.soKey = s.heap.soKey) :
    InOrder (s.withHeap h') := by
  constructor
  case toInv => exact hc.inv hi.toInv
  case dummy =>
    intro u i d hd
    show h'.soKey d = _ ∧ _
    rw [hso]
    exact hi.dummy u i d (hc.bucket u i d hd)
  case regular =>
    intro a ha
    show isRegular (h'.soKey a) = true
    rw [hso]
    exact hi.regular a (hc.next ▸ ha)
  case before =>
    intro a b ha hb
    have hb : (h'.next a).ptr = some b := hb
    rw [hc.next] at hb
    have hold : s.Before a b := hi.before a b ⟨hc.inUse ▸ ha.1, ha.2⟩ hb
    exact hold.keep (fun c hlinked => ⟨hc.inUse ▸ hlinked.1, hlinked.2⟩)
      (fun c _ => congrFun hso c) fun _ _ => rfl

/-- A step that writes to one node, which is not linked. -/
theorem aside (hi : InOrder s) (hn : ¬ s.Linked n) (hinv : Inv (s.withHeap h').toAnnotated)
    (hnext : ∀ a, a ≠ n → h'.next a = s.heap.next a)
    (hso : ∀ a, a ≠ n → h'.soKey a = s.heap.soKey a) (hunmarked : (h'.next n).marked = false)
    (hinUse : h'.inUse = s.heap.inUse) (hbucket : h'.bucket = s.heap.bucket) :
    InOrder (s.withHeap h') := by
  have hlinked : ∀ a, (s.withHeap h').Linked a ↔ s.Linked a := fun a => by
    show a ∈ h'.inUse ∧ _ ↔ _
    rw [hinUse]
    rfl
  have hne : ∀ a, s.Linked a → a ≠ n := by
    rintro a ha rfl
    exact hn ha
  constructor
  case toInv => exact hinv
  case dummy =>
    intro u i d hd
    have hd : s.heap.bucket u i = some d := by
      rw [← hbucket]
      exact hd
    show h'.soKey d = _ ∧ _
    rw [hso d (hne d (hi.bucket u i d hd))]
    exact hi.dummy u i d hd
  case regular =>
    intro a ha
    have han : a ≠ n := by
      rintro rfl
      rw [show ((s.withHeap h').heap.next a).marked = false from hunmarked] at ha
      cases ha
    show isRegular (h'.soKey a) = true
    rw [hso a han]
    refine hi.regular a ?_
    rw [← hnext a han]
    exact ha
  case before =>
    intro a b ha hb
    have ha := (hlinked a).mp ha
    have hb : (h'.next a).ptr = some b := hb
    rw [hnext a (hne a ha)] at hb
    exact (hi.before a b ha hb).keep (fun c hc => (hlinked c).mpr hc)
      (fun c hc => hso c (hne c hc)) fun _ _ => rfl

/-- A dummy is written to a cell. -/
theorem setBucket {v : Option Addr} (hi : InOrder s)
    (hv : ∀ d, v = some d → s.Linked d ∧ s.heap.soKey d = dummySplitOrderKey i ∧ i < 2 ^ 63) :
    InOrder (s.withHeap (s.heap.setBucket u i v)) := by
  constructor
  case toInv =>
    obtain ⟨hinv, -⟩ := hi.toInv.setBucket (t := 0) (u := u) (i := i) (v := v)
      fun d hd => (hv d hd).1
    exact hinv
  case dummy =>
    intro w j d hd
    have hd : (s.heap.setBucket u i v).bucket w j = some d := hd
    rw [bucket_setBucket] at hd
    split at hd
    · next hwj =>
      rw [hwj.2]
      exact (hv d hd).2
    · exact hi.dummy w j d hd
  case regular => exact hi.regular
  case before =>
    intro a b ha hb
    obtain ⟨hl, hr, hlt⟩ := hi.before a b ha hb
    exact ⟨hl, hr, hlt⟩

/-- The container is empty at first. -/
theorem new (key : Addr → Key) (head : Addr) {pick : Nat → Finset Addr → Addr}
    (threshold : Nat → Nat) (hpick : ∀ n F, pick n F ∉ F) :
    InOrder (Aged.mk ⟨Heap.new key head pick threshold, fun _ => none⟩ fun _ => 0) := by
  constructor
  case toInv => exact Inv.new key head threshold hpick
  case dummy =>
    intro u i d hd
    have hd : (if u = 0 ∧ i = 0 then some head else none) = some d := hd
    split at hd
    · next h =>
      rw [h.2]
      exact ⟨(by decide : (0 : Word) = dummySplitOrderKey 0), Nat.two_pow_pos _⟩
    · cases hd
  case regular => exact fun a ha => by cases ha
  case before => exact fun a b _ hb => by cases hb

variable [DecidableEq Addr]

/-- A pointer leads to a node behind. -/
theorem setNext {v : Link Addr} (hi : InOrder s) (ha : s.Linked a)
    (hv : ∀ b, v.ptr = some b → s.Before a b)
    (hm : v.marked = true → isRegular (s.heap.soKey a) = true) :
    InOrder (s.withHeap (s.heap.setNext a v)) := by
  constructor
  case toInv => exact hi.toInv.setNext (fun b hb => (hv b hb).right) (.inl ha)
  case dummy => exact hi.dummy
  case regular =>
    intro b hb
    have hb : (update s.heap.next a v b).marked = true := hb
    by_cases hba : b = a
    · rw [hba, Function.update_self] at hb
      rw [hba]
      exact hm hb
    · rw [Function.update_of_ne hba] at hb
      exact hi.regular b hb
  case before =>
    intro b c hb hc
    have hc : (update s.heap.next a v b).ptr = some c := hc
    by_cases hba : b = a
    · subst hba
      rw [Function.update_self] at hc
      obtain ⟨hl, hr, hlt⟩ := hv c hc
      exact ⟨hl, hr, hlt⟩
    · rw [Function.update_of_ne hba] at hc
      obtain ⟨hl, hr, hlt⟩ := hi.before b c hb hc
      exact ⟨hl, hr, hlt⟩

/-- A node is linked behind `a` and before all nodes with keys that are not below its own. -/
theorem link {so : Word} {p : Option Addr} (hi : InOrder s) (ha : s.Linked a)
    (hlt : s.heap.soKey a < so) (hm : (s.heap.next a).marked = false) (hn : s.owner n = some t)
    (hso : s.heap.soKey n = so) (hnext : s.heap.next n = .plain p)
    (hp : ∀ c, p = some c → s.Linked c ∧ so ≤ s.heap.soKey c) : InOrder (s.link a n) := by
  obtain ⟨hinv, hguar, hself⟩ := hi.toInv.link ha hm hn
  replace hself : (s.link a n).Linked n := hself
  have hkeep : ∀ {b c}, s.Before b c → (s.link a n).Before b c := fun h =>
    h.keep hguar.linked (fun _ _ => rfl) fun _ hb => Aged.link_date hn hb
  constructor
  case toInv => exact hinv
  case dummy => exact hi.dummy
  case regular =>
    intro b hb
    have hb : (update s.heap.next a (.plain (some n)) b).marked = true := hb
    by_cases hba : b = a
    · rw [hba, Function.update_self] at hb
      cases hb
    · rw [Function.update_of_ne hba] at hb
      exact hi.regular b hb
  case before =>
    intro b c hb hc
    replace hc : (update s.heap.next a (.plain (some n)) b).ptr = some c := hc
    by_cases hba : b = a
    · -- the predecessor
      rw [hba, Function.update_self] at hc
      cases hc
      refine ⟨hb, hself, .inl ?_⟩
      show s.heap.soKey b < s.heap.soKey n
      rw [hba, hso]
      exact hlt
    · rw [Function.update_of_ne hba] at hc
      by_cases hbn : b = n
      · -- the new node
        subst hbn
        rw [hnext] at hc
        obtain ⟨hlc, hle⟩ := hp c hc
        refine ⟨hself, hguar.linked c hlc, ?_⟩
        show s.heap.soKey b < s.heap.soKey c ∨ s.heap.soKey b = s.heap.soKey c ∧
          (s.link a b).date c < (s.link a b).date b
        rw [hso]
        by_cases heq : so = s.heap.soKey c
        · refine .inr ⟨heq, ?_⟩
          rw [Aged.link_date hn hlc]
          show s.date c < update s.date b _ b
          rw [Function.update_self]
          exact Nat.lt_succ_of_le (Finset.le_sup hlc.1)
        · exact .inl (BitVec.lt_of_le_ne hle heq)
      · refine hkeep (hi.before b c ⟨hb.1, ?_⟩ hc)
        have hfree : update s.owner n none b = none := hb.2
        rwa [Function.update_of_ne hbn] at hfree

/-- A node is given to a thread. -/
theorem give (hi : InOrder s) (hn : n ∉ s.heap.inUse)
    (hinv : Inv ⟨h', update s.owner n (some t)⟩) (hbucket : h'.bucket = s.heap.bucket)
    (hnext : h'.next = update s.heap.next n .null) (hinUse : h'.inUse = insert n s.heap.inUse)
    (hso : ∀ a, a ≠ n → h'.soKey a = s.heap.soKey a) :
    InOrder { s with heap := h', owner := update s.owner n (some t) } := by
  have hne : ∀ a, s.Linked a → a ≠ n := by
    rintro a ha rfl
    exact hn ha.1
  have hlinked : ∀ a, s.Linked a → Annotated.Linked ⟨h', update s.owner n (some t)⟩ a := by
    intro a ha
    refine ⟨?_, (Function.update_of_ne (hne a ha) _ _).trans ha.2⟩
    show a ∈ h'.inUse
    rw [hinUse]
    exact Finset.mem_insert_of_mem ha.1
  -- no linked node is written: `n` is not in use
  have hother : ∀ a, a ≠ n → h'.next a = s.heap.next a := fun a ha => by
    rw [hnext]
    exact Function.update_of_ne ha _ _
  constructor
  case toInv => exact hinv
  case dummy =>
    intro u i d hd
    have hd : s.heap.bucket u i = some d := by
      rw [← hbucket]
      exact hd
    show h'.soKey d = _ ∧ _
    rw [hso d (hne d (hi.bucket u i d hd))]
    exact hi.dummy u i d hd
  case regular =>
    intro a ha
    have ha : (h'.next a).marked = true := ha
    have han : a ≠ n := by
      rintro rfl
      rw [hnext, Function.update_self] at ha
      cases ha
    show isRegular (h'.soKey a) = true
    rw [hso a han]
    exact hi.regular a (hother a han ▸ ha)
  case before =>
    intro a b ha hb
    have hb : (h'.next a).ptr = some b := hb
    have han : a ≠ n := by
      rintro rfl
      rw [hnext, Function.update_self] at hb
      cases hb
    rw [hother a han] at hb
    obtain ⟨hin, hfree⟩ := ha
    have hin : a ∈ insert n s.heap.inUse := hinUse ▸ hin
    have hfree : s.owner a = none := (Function.update_of_ne han _ _).symm.trans hfree
    exact (hi.before a b ⟨(Finset.mem_insert.mp hin).resolve_left han, hfree⟩ hb).keep hlinked
      (fun c hc => hso c (hne c hc)) fun _ _ => rfl

end InOrder

end MpmcMap.Unordered
