import MpmcMap.Unordered.Dates
import Mathlib.Data.Set.Card

/-!
# The entries of the container

The abstract value of the engine is the set of its entries: the regular nodes that are reached from
the dummy of bucket 0 and are not marked, with their keys. A node enters this set with the
compare-exchange that links it and leaves it with the one that marks it; nothing else changes it, as
long as no helper brings back an erased node.
-/

namespace MpmcMap.Unordered

open Conc
open Function (update)

variable {Addr Key : Type}

/-- The values of the abstract map: its entries, each with the node that holds it. -/
abbrev Contents (Addr Key : Type) := Set (Addr × Key)

/-- The entries of the list behind the dummy `head` of bucket 0. -/
def Heap.entries (head : Addr) (h : Heap Addr Key) : Contents Addr Key :=
  {e | h.Reaches head e.1 ∧ (h.next e.1).marked = false ∧ isRegular (h.soKey e.1) = true ∧
    h.key e.1 = e.2}

/-- The split-order key of the nodes of a key. -/
abbrev Config.splitKey (C : Config Key) (k : Key) : Word := soKeyOf (C.mixedHash k)

/-- Two keys are equal if they have the same split-order key, and only then. -/
def Config.Separates (C : Config Key) : Prop :=
  ∀ k k', C.eq k k' = true ↔ C.splitKey k = C.splitKey k'

/-- No entry has the key `k`. -/
def Config.Absent (C : Config Key) (x : Contents Addr Key) (k : Key) : Prop :=
  ∀ e ∈ x, C.eq e.2 k = false

/-- What a call does to a map that nobody else uses, from the entries `x` to `x'`, and what it
answers. Nothing is said of what the iteration, `size` and the growth answer. -/
def Request.Does (C : Config Key) :
    Request Addr Key → Contents Addr Key → Contents Addr Key → Answer Addr Key → Prop
  | .emplace n k, x, x', r | .insert n k, x, x', r =>
    (r = .inserted .INSERT_OK ∧ C.Absent x k ∧ x' = x ∪ {(n, k)}) ∨
      (r = .inserted .INSERT_DUPLICATE ∧ x' = x ∧ ∃ e ∈ x, C.eq e.2 k = true)
  | .erase k, x, x', r =>
    (r = .flag true ∧ ∃ e ∈ x, C.eq e.2 k = true ∧ x' = x \ {e}) ∨
      (r = .flag false ∧ x' = x ∧ C.Absent x k)
  | .find k, x, x', r =>
    x' = x ∧ ((∃ e ∈ x, C.eq e.2 k = true ∧ r = .node (some e.1)) ∨
      (r = .node none ∧ C.Absent x k))
  | .clear, _, _, _ => False
  | _, x, x', _ => x' = x

namespace Entries

open Unlinked (Reached Lasting)

/-! ## Lists in order -/

/-- The node holds an entry. -/
structure Live (s : Annotated Addr Key) (a : Addr) : Prop where
  linked : s.Linked a
  unmarked : (s.heap.next a).marked = false
  regular : isRegular (s.heap.soKey a) = true

variable (head : Addr)

/-- All that is not marked is reached from the dummy `head`, in order. -/
structure Shaped (s : Aged Addr Key) : Prop extends Reached head s.toAnnotated, InOrder s

/-- What a step of thread `u` may change in the container. -/
structure Moves (u : Nat) (s s' : Aged Addr Key) : Prop
    extends Lasting head u s.toAnnotated s'.toAnnotated where
  inUse : ∀ a ∈ s.heap.inUse, a ∈ s'.heap.inUse ∧ s'.heap.key a = s.heap.key a
  soKey : ∀ a, s.Linked a → s'.heap.soKey a = s.heap.soKey a
  date : ∀ a, s.Linked a → s'.date a = s.date a
  own : ∀ v, v ≠ u → ∀ a, s.owner a = some v → s'.heap.soKey a = s.heap.soKey a
  /-- What is still in the list is still reached from where it was reached. -/
  course : ∀ a b, s.Linked a → s.heap.Reaches a b → s'.heap.Reaches head b → s'.heap.Reaches a b

variable {head} {s s' : Aged Addr Key} {a b c n : Addr} {t u i : Nat} {h' : Heap Addr Key}

theorem shaped (hi : Reached head s.toAnnotated) (ho : InOrder s) : Shaped head s :=
  ⟨hi, ho.dummy, ho.regular, ho.before⟩

theorem mem_entries {s : Annotated Addr Key} (hi : Reached head s) {e : Addr × Key} :
    e ∈ s.heap.entries head ↔ Live s e.1 ∧ s.heap.key e.1 = e.2 := by
  constructor
  · rintro ⟨hreach, hm, hreg, hk⟩
    exact ⟨⟨hi.linked_of_reaches hreach, hm, hreg⟩, hk⟩
  · rintro ⟨⟨hlinked, hm, hreg⟩, hk⟩
    exact ⟨hi.live e.1 hlinked hm, hm, hreg, hk⟩

theorem finite_entries {s : Annotated Addr Key} (hi : Reached head s) :
    (s.heap.entries head).Finite := by
  refine (s.heap.inUse.finite_toSet.image fun a => (a, s.heap.key a)).subset fun e he => ?_
  obtain ⟨hlive, hk⟩ := (mem_entries hi).mp he
  exact ⟨e.1, hlive.linked.1, Prod.ext rfl hk⟩

/-- Of two nodes that are reached one is reached from the other. -/
theorem reaches_total {h : Heap Addr Key} (ha : h.Reaches head a) (hb : h.Reaches head b) :
    h.Reaches a b ∨ h.Reaches b a :=
  Relation.ReflTransGen.total_of_right_unique
    (fun _ _ _ h1 h2 => Option.some.inj (h1.symm.trans h2)) ha hb

/-- What comes before leads to what is reached. -/
theorem Shaped.reaches_of_before (hi : Shaped head s) (hab : s.Before a b)
    (ha : s.heap.Reaches head a) (hb : s.heap.Reaches head b) : s.heap.Reaches a b := by
  refine (reaches_total ha hb).resolve_right fun hba => ?_
  rcases hi.toInOrder.after hab.right hba with rfl | hbefore
  · exact hab.irrefl
  · exact (hab.trans hbefore).irrefl

/-- A node that is cut out of the list is not reached any more. -/
theorem Shaped.not_reaches_cut (hi : Shaped head s) {v : Link Addr}
    (hnext : s.heap.next a = v) (hcut : ∀ c, v.ptr = some c → s.Before b c)
    (ha : s.heap.Reaches head a) (hab : s.Before a b) : ¬ s.heap.Reaches head b := by
  intro hb
  have hreach := hi.reaches_of_before hab ha hb
  rcases Relation.ReflTransGen.cases_head hreach with rfl | ⟨c, hc, hcb⟩
  · exact hab.irrefl
  · have hac : (s.heap.next a).ptr = some c := hc
    rw [hnext] at hac
    rcases hi.toInOrder.after (hcut c hac).right hcb with rfl | hbefore
    · exact (hcut c hac).irrefl
    · exact ((hcut c hac).trans hbefore).irrefl

/-! ## What the accesses do to the list -/

namespace Moves

theorem rfl : Moves head t s s :=
  ⟨Lasting.rfl, fun _ h => ⟨h, Eq.refl _⟩, fun _ _ => Eq.refl _, fun _ _ => Eq.refl _,
    fun _ _ _ _ => Eq.refl _, fun _ _ _ h _ => h⟩

theorem before (hg : Moves head t s s') (h : s.Before a b) : s'.Before a b :=
  h.keep hg.linked hg.soKey hg.date

theorem of_before (hg : Moves head t s s') (ha : s.Linked a) (hb : s.Linked b)
    (h : s'.Before a b) : s.Before a b := by
  refine ⟨ha, hb, ?_⟩
  rw [← hg.soKey a ha, ← hg.soKey b hb, ← hg.date a ha, ← hg.date b hb]
  exact h.lt

/-- The entries stay the same where no node is marked and only dummies are linked. -/
theorem entries_eq (hg : Moves head t s s') (hi : Shaped head s) (hi' : Shaped head s')
    (hmarks : ∀ a, (s'.heap.next a).marked = (s.heap.next a).marked)
    (hfresh : ∀ a, s'.Linked a → s.Linked a ∨ isRegular (s'.heap.soKey a) = false) :
    s'.heap.entries head = s.heap.entries head := by
  ext e
  rw [mem_entries hi.toReached, mem_entries hi'.toReached]
  constructor
  · rintro ⟨⟨hlinked, hm, hreg⟩, hk⟩
    have hold : s.Linked e.1 := by
      refine (hfresh e.1 hlinked).resolve_right fun hdummy => ?_
      rw [hreg] at hdummy
      cases hdummy
    refine ⟨⟨hold, ?_, ?_⟩, ?_⟩
    · rw [← hmarks]
      exact hm
    · rw [← hg.soKey e.1 hold]
      exact hreg
    · rw [← (hg.inUse e.1 hold.1).2]
      exact hk
  · rintro ⟨⟨hlinked, hm, hreg⟩, hk⟩
    refine ⟨⟨hg.linked e.1 hlinked, ?_, ?_⟩, ?_⟩
    · rw [hmarks]
      exact hm
    · rw [hg.soKey e.1 hlinked]
      exact hreg
    · rw [(hg.inUse e.1 hlinked.1).2]
      exact hk

end Moves

/-- An access that writes no pointer and no key; tables may be made. -/
theorem calm_moves (hi : Shaped head s) (hc : Calm s.heap h') (hso : h'.soKey = s.heap.soKey)
    (hkey : h'.key = s.heap.key) :
    Shaped head (s.withHeap h') ∧ Moves head t s (s.withHeap h') := by
  have hsucc : h'.succ = s.heap.succ := by
    funext a
    simp only [Heap.succ, hc.next]
  have hguar := hc.guar (t := t)
  refine ⟨shaped ⟨hc.inv hi.toInv, hguar.linked _ hi.rooted, fun a ha hm => ?_⟩
    (hi.toInOrder.calm hc hso), ⟨hguar, fun v _ a _ => congrFun hc.next a, fun a _ ha => ?_⟩,
    fun a ha => ?_, fun a _ => congrFun hso a, fun _ _ => rfl, fun _ _ a _ => congrFun hso a,
    fun a b _ hab _ => ?_⟩
  · show Reaches h'.succ head a
    rw [hsucc]
    refine hi.live a ⟨hc.inUse ▸ ha.1, ha.2⟩ ?_
    rw [← hc.next]
    exact hm
  · show Reaches s.heap.succ head a
    rw [← hsucc]
    exact ha
  · exact ⟨hc.inUse.symm ▸ ha, congrFun hkey a⟩
  · show Reaches h'.succ a b
    rw [hsucc]
    exact hab

/-- What is written to a node that is not linked does not lead anywhere from a linked one. -/
theorem reaches_aside [DecidableEq Addr] (hi : Shaped head s) (hn : ¬ s.Linked n) {v : Link Addr}
    (hnext : h'.next = update s.heap.next n v) (ha : s.Linked a) :
    h'.Reaches a b ↔ s.heap.Reaches a b := by
  have hout : ¬ s.heap.Reaches a n := fun h => hn (h.closed ha hi.next)
  exact Unlinked.reaches_write hout hnext

variable [DecidableEq Addr]

/-- The inserter writes the pointer of its node. -/
theorem storeNext_moves {p : Option Addr} (hi : Shaped head s) (hn : s.owner n = some t)
    (hp : ∀ c, p = some c → s.Linked c) :
    Shaped head (s.withHeap (s.heap.setNext n (.plain p))) ∧
      Moves head t s (s.withHeap (s.heap.setNext n (.plain p))) := by
  have hnot := Aged.not_linked hn
  have hother : ∀ a, a ≠ n → (s.heap.setNext n (.plain p)).next a = s.heap.next a :=
    fun a ha => Function.update_of_ne ha _ _
  have hself : (s.heap.setNext n (.plain p)).next n = .plain p := Function.update_self _ _ _
  have hinv := hi.toInv.setNext (a := n) (v := .plain p) hp (.inr rfl)
  have hreaches : ∀ {a b}, s.Linked a →
      ((s.heap.setNext n (.plain p)).Reaches a b ↔ s.heap.Reaches a b) :=
    fun ha => reaches_aside hi hnot (v := .plain p) rfl ha
  refine ⟨shaped ⟨hinv, hi.rooted, fun a ha hm => ?_⟩ (hi.toInOrder.aside hnot hinv hother
    (fun _ _ => rfl) (by rw [hself]; rfl) rfl rfl), ⟨setNext_guar (hi.unmarked n hnot),
    fun v hv a ha => hother a ?_, fun a _ ha => (hreaches hi.rooted).mp ha⟩, fun a ha => ⟨ha, rfl⟩,
    fun _ _ => rfl, fun _ _ => rfl, fun _ _ _ _ => rfl, fun a b ha hab _ => (hreaches ha).mpr hab⟩
  · have han : a ≠ n := by
      rintro rfl
      exact hnot ha
    apply (hreaches hi.rooted).mpr
    refine hi.live a ha ?_
    rw [← hother a han]
    exact hm
  · rintro rfl
    rw [hn] at ha
    exact hv (Option.some.inj ha).symm

/-- The inserter writes the key of its node. -/
theorem storeSoKey_moves {w : Word} (hi : Shaped head s) (hn : s.owner n = some t) :
    Shaped head (s.withHeap { s.heap with soKey := update s.heap.soKey n w }) ∧
      Moves head t s (s.withHeap { s.heap with soKey := update s.heap.soKey n w }) := by
  have hnot := Aged.not_linked hn
  have hother : ∀ a, a ≠ n → update s.heap.soKey n w a = s.heap.soKey a :=
    fun a ha => Function.update_of_ne ha _ _
  have hinv : Inv (s.withHeap { s.heap with soKey := update s.heap.soKey n w }).toAnnotated :=
    ⟨hi.pick, hi.unused, hi.unmarked, hi.next, hi.bucket⟩
  refine ⟨shaped ⟨hinv, hi.rooted, hi.live⟩ (hi.toInOrder.aside hnot hinv (fun _ _ => rfl) hother
    (hi.unmarked n hnot) rfl rfl), ⟨⟨fun _ h => h, fun _ _ _ h => h, fun _ _ => rfl⟩,
    fun _ _ _ _ => rfl, fun _ _ h => h⟩, fun a ha => ⟨ha, rfl⟩, fun a ha => hother a ?_,
    fun _ _ => rfl, fun v hv a ha => hother a ?_, fun _ _ _ h _ => h⟩
  · rintro rfl
    exact hnot ha
  · rintro rfl
    rw [hn] at ha
    exact hv (Option.some.inj ha).symm

omit [DecidableEq Addr] in
/-- A dummy is written to a cell. -/
theorem setBucket_moves {v : Option Addr} (hi : Shaped head s)
    (hv : ∀ d, v = some d → s.Linked d ∧ s.heap.soKey d = dummySplitOrderKey i ∧ i < 2 ^ 63) :
    Shaped head (s.withHeap (s.heap.setBucket u i v)) ∧
      Moves head t s (s.withHeap (s.heap.setBucket u i v)) := by
  obtain ⟨hi', hg⟩ := Unlinked.setBucket_step (t := t) (u := u) (i := i) hi.toReached
    fun d hd => (hv d hd).1
  exact ⟨shaped hi' (hi.toInOrder.setBucket hv), hg, fun a ha => ⟨ha, rfl⟩, fun _ _ => rfl,
    fun _ _ => rfl, fun _ _ _ _ => rfl, fun _ _ _ h _ => h⟩

/-- A new node belongs to the thread that made it. -/
theorem give_moves (hi : Shaped head s) (hn : n ∉ s.heap.inUse) (hpick : h'.pick = s.heap.pick)
    (hbucket : h'.bucket = s.heap.bucket) (hnext : h'.next = update s.heap.next n .null)
    (hinUse : h'.inUse = insert n s.heap.inUse) (hso : h'.soKey = update s.heap.soKey n 0)
    (hkey : ∀ a, a ≠ n → h'.key a = s.heap.key a) :
    Shaped head { s with heap := h', owner := update s.owner n (some t) } ∧
      Moves head t s { s with heap := h', owner := update s.owner n (some t) } := by
  obtain ⟨hi', hg⟩ := Unlinked.give_step (t := t) hi.toReached hn hpick hbucket hnext hinUse
  have hother : ∀ a, a ≠ n → h'.soKey a = s.heap.soKey a := fun a ha => by
    rw [hso]
    exact Function.update_of_ne ha _ _
  refine ⟨shaped hi' (hi.toInOrder.give hn hi'.toInv hbucket hnext hinUse hother), hg,
    fun a ha => ?_, fun a ha => hother a ?_, fun _ _ => rfl, fun v _ a ha => hother a ?_,
    fun a b ha hab _ => ?_⟩
  · refine ⟨?_, hkey a ?_⟩
    · show a ∈ h'.inUse
      rw [hinUse]
      exact Finset.mem_insert_of_mem ha
    · rintro rfl
      exact hn ha
  · rintro rfl
    exact hn ha.1
  · rintro rfl
    rw [hi.unused a hn] at ha
    cases ha
  · exact (reaches_aside hi (fun h => hn h.1) hnext ha).mpr hab

/-- An eraser marks a node. -/
theorem mark_moves (hi : Shaped head s) (ha : s.Linked a)
    (hm : (s.heap.next a).marked = false) (hreg : isRegular (s.heap.soKey a) = true) :
    Shaped head (s.withHeap (s.heap.setNext a (s.heap.next a).setMarked)) ∧
      Moves head t s (s.withHeap (s.heap.setNext a (s.heap.next a).setMarked)) := by
  obtain ⟨hi', hg⟩ := Unlinked.mark_step (t := t) hi.toReached ha hm
  have horder := hi.toInOrder.setNext (v := (s.heap.next a).setMarked) ha
    (fun b hb => hi.before a b ha hb) fun _ => hreg
  refine ⟨shaped hi' horder, hg,
    fun a ha => ⟨ha, rfl⟩, fun _ _ => rfl, fun _ _ => rfl, fun _ _ _ _ => rfl,
    fun b c _ hbc _ => ?_⟩
  have hsame : update s.heap.succ a (s.heap.next a).setMarked.ptr = s.heap.succ :=
    Function.update_eq_self a s.heap.succ
  show Reaches (s.heap.setNext a (s.heap.next a).setMarked).succ b c
  rw [Unlinked.succ_setNext, hsame]
  exact hbc

/-- The erased node `c` is cut out of the list behind `a`, and is not reached any more. -/
theorem cut_moves (hi : Shaped head s) (ha : s.Linked a) (hac : s.heap.next a = .plain (some c))
    (hc : (s.heap.next c).marked = true) :
    (Shaped head (s.withHeap (s.heap.setNext a (s.heap.next c).clearMark)) ∧
      Moves head t s (s.withHeap (s.heap.setNext a (s.heap.next c).clearMark))) ∧
    ¬ (s.heap.setNext a (s.heap.next c).clearMark).Reaches head c := by
  have hm : (s.heap.next a).marked = false := by
    rw [hac]
    rfl
  have hptr : s.heap.succ a = some c := congrArg Link.ptr hac
  have hbefore : s.Before a c := hi.before a c ha hptr
  obtain ⟨hi', hg⟩ := Unlinked.unlink_step (t := t) hi.toReached ha rfl hc hac rfl (.inl rfl)
  have horder := hi.toInOrder.setNext (v := (s.heap.next c).clearMark) ha
    (fun b hb => hbefore.trans (hi.before c b hbefore.right hb)) fun h => by cases h
  have hshaped : Shaped head (s.withHeap (s.heap.setNext a (s.heap.next c).clearMark)) :=
    shaped hi' horder
  have hkeep : ∀ {x y}, s.Before x y →
      (s.withHeap (s.heap.setNext a (s.heap.next c).clearMark)).Before x y := by
    rintro x y ⟨hl, hr, hlt⟩
    exact ⟨hl, hr, hlt⟩
  have hsucc : (s.heap.setNext a (s.heap.next c).clearMark).succ =
      update s.heap.succ a (s.heap.succ c) := Unlinked.succ_setNext _ _ _
  have hout : ¬ (s.heap.setNext a (s.heap.next c).clearMark).Reaches head c := by
    refine hshaped.not_reaches_cut (a := a) (Function.update_self _ _ _) (fun d hd => ?_) ?_
      (hkeep hbefore)
    · exact hkeep (hi.before c d hbefore.right hd)
    · show Reaches (s.heap.setNext a _).succ head a
      rw [hsucc]
      exact (hi.live a ha hm).to_write _
  refine ⟨⟨hshaped, hg, fun a ha => ⟨ha, rfl⟩, fun _ _ => rfl, fun _ _ => rfl,
    fun _ _ _ _ => rfl, fun x y _ hxy hy => ?_⟩, hout⟩
  show Reaches (s.heap.setNext a _).succ x y
  rw [hsucc]
  refine (Reaches.cut hptr hxy).resolve_right ?_
  rintro rfl
  exact hout hy

/-- A node of the thread is linked behind `a`, before all nodes with keys that are not below its
own. -/
theorem link_moves {so : Word} {p : Option Addr} (hi : Shaped head s) (ha : s.Linked a)
    (hlt : s.heap.soKey a < so) (hap : s.heap.next a = .plain p) (hn : s.owner n = some t)
    (hso : s.heap.soKey n = so) (hnext : s.heap.next n = .plain p)
    (hp : ∀ c, p = some c → s.Linked c ∧ so ≤ s.heap.soKey c) :
    Shaped head (s.link a n) ∧ Moves head t s (s.link a n) := by
  have hm : (s.heap.next a).marked = false := by
    rw [hap]
    rfl
  have hsame : s.heap.next n = .plain (s.heap.next a).ptr := by
    rw [hnext, hap]
    rfl
  obtain ⟨hi', hg, -⟩ := Unlinked.link_step hi.toReached ha hm hn hsame
  refine ⟨shaped hi' (hi.toInOrder.link ha hlt hm hn hso hnext hp), hg, fun a ha => ⟨ha, rfl⟩,
    fun _ _ => rfl, fun b hb => Aged.link_date hn hb, fun _ _ _ _ => rfl, fun b c _ hbc _ => ?_⟩
  have hsucc : s.heap.succ n = s.heap.succ a := by
    simp only [Heap.succ, hsame, Link.plain]
  have hna : n ≠ a := by
    rintro rfl
    exact Aged.not_linked hn ha
  show Reaches (s.heap.setNext a (.plain (some n))).succ b c
  rw [Unlinked.succ_setNext]
  exact hbc.splice hsucc hna

end Entries

end MpmcMap.Unordered
