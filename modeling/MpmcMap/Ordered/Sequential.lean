import MpmcMap.Ordered.Queries
import MpmcMap.Ordered.InsertSpec
import MpmcMap.Ordered.EraseSpec
import Mathlib.Analysis.SpecialFunctions.Log.Base
import Mathlib.Data.Fintype.Card

/-!
# Sequential refinement

The operations of the engine run one after another by one thread, against a strictly sorted map from
keys to nodes.
-/

namespace MpmcMap.Ordered

open Conc RedBlack Maps

variable {Addr Key : Type} [DecidableEq Addr]

/-! ## Between two operations -/

/-- The heap stores the tree `t` and no lock is held; `t` is balanced, up to the color of its
root. -/
structure Rest (h : Heap Addr Key) (t : PtrTree Addr) : Prop where
  root : h.root = t.ptr
  fits : t.Fits h.child
  nodup : t.addrs.Nodup
  unlocked : ∀ a, h.locked a = none
  sound : Sound h.color t

/-- The heap stores the map `m`. -/
structure Quiet {cmp : Key → Key → Bool} (m : SortedMap cmp Addr) (h : Heap Addr Key)
    (t : PtrTree Addr) : Prop where
  rest : Rest h t
  dark : Dark h.color t
  entries : entriesOf h.key t = m.entries
  count : h.count = t.addrs.length

namespace Heap

/-- The root made black. -/
def blacken (h : Heap Addr Key) : Heap Addr Key :=
  match h.root with
  | none => h
  | some r => h.setColor r .BLACK

variable (h : Heap Addr Key)

@[simp] theorem blacken_root : h.blacken.root = h.root := by
  unfold blacken
  split <;> rfl

@[simp] theorem blacken_child : h.blacken.child = h.child := by
  unfold blacken
  split <;> rfl

@[simp] theorem blacken_locked : h.blacken.locked = h.locked := by
  unfold blacken
  split <;> rfl

@[simp] theorem blacken_count : h.blacken.count = h.count := by
  unfold blacken
  split <;> rfl

end Heap

/-- The payloads and the nodes given back are the same. -/
structure Keeps (h h' : Heap Addr Key) : Prop where
  key : h'.key = h.key
  retired : h'.retired = h.retired
  freed : h'.freed = h.freed

omit [DecidableEq Addr] in
theorem Keeps.trans {h h' h'' : Heap Addr Key} (h1 : Keeps h h') (h2 : Keeps h' h'') : Keeps h h'' :=
  ⟨h2.key.trans h1.key, h2.retired.trans h1.retired, h2.freed.trans h1.freed⟩

theorem keeps_blacken (h : Heap Addr Key) : Keeps h h.blacken := by
  unfold Heap.blacken
  split <;> exact ⟨rfl, rfl, rfl⟩

/-- The root of the tree is made black, which keeps it balanced. -/
theorem sound_blacken {h : Heap Addr Key} {t : PtrTree Addr} (hroot : h.root = t.ptr)
    (hn : t.addrs.Nodup) (hs : Sound h.color t) :
    Sound h.blacken.color t ∧ Dark h.blacken.color t := by
  unfold Heap.blacken
  split
  · next hr =>
    rw [hr] at hroot
    obtain rfl := PtrTree.eq_nil_of_ptr hroot.symm
    exact ⟨hs, dark_nil⟩
  · next r hr =>
    rw [hr] at hroot
    constructor
    · refine hs.congr (fun b _ hb => Heap.setColor_ne _ _ ?_) hn
      rintro rfl
      exact hb hroot.symm
    · intro a ha
      rw [← hroot] at ha
      cases ha
      exact Heap.setColor_same _ _ _

theorem Rest.blacken {h : Heap Addr Key} {t : PtrTree Addr} (hR : Rest h t) : Rest h.blacken t where
  root := by
    rw [Heap.blacken_root]
    exact hR.root
  fits := by
    rw [Heap.blacken_child]
    exact hR.fits
  nodup := hR.nodup
  unlocked := by
    rw [Heap.blacken_locked]
    exact hR.unlocked
  sound := (sound_blacken hR.root hR.nodup hR.sound).1

section Tails

variable {α : Type} {X : Code Addr Key α → Heap Addr Key → Prop} {h : Heap Addr Key}
  {t : PtrTree Addr} {target : Addr}

/-- Locking, blackening and unlocking a node of a heap without locks. -/
theorem blackenLocked_seq {kont : Unit → Code Addr Key α} {r : Addr}
    (hu : h.locked r = none) (hk : Until orderly X (kont ()) (h.setColor r .BLACK)) :
    Until orderly X ((blackenLocked r).bind kont) h := by
  have hlock : (Op.lock r : Op Addr Key Unit).perform h = some ((), h.setLocked r (some 0)) := by
    simp [Op.perform, Op.inBounds, Op.apply, hu]
  have hback : ((h.setLocked r (some 0)).setColor r .BLACK).setLocked r none
      = h.setColor r .BLACK := by
    simp only [Heap.setLocked, Heap.setColor, Function.update_idem]
    rw [← hu, Function.update_eq_self]
  refine orderly_act hu hlock (orderly_act trivial rfl ?_)
  refine orderly_act (Heap.setLocked_same _ _ _) rfl ?_
  rw [hback]
  exact hk

/-- The closing blackening, with an empty path. -/
theorem blackenRoot_seq {kont : Unit → Code Addr Key α}
    (hu : ∀ a, h.root = some a → h.locked a = none)
    (hk : Until orderly X (kont ()) h.blacken) :
    Until orderly X ((blackenRoot []).bind kont) h := by
  refine orderly_act trivial rfl ?_
  unfold Heap.blacken at hk
  cases hr : h.root with
  | none =>
    rw [hr] at hk
    exact hk
  | some r =>
    rw [hr] at hk
    exact blackenLocked_seq (hu r hr) hk

/-- The end of `fixup_delete` beyond the root. -/
theorem fixupDelete_root {kont : List Addr → Code Addr Key α} {x : Option Addr} {d : Side}
    (hu : ∀ a, h.root = some a → h.locked a = none)
    (hk : Until orderly X (kont []) h.blacken) :
    Until orderly X (.loop fixupDeleteStep ([], x, d) kont) h := by
  refine .loop (orderly_act trivial rfl ?_)
  unfold Heap.blacken at hk
  cases hr : h.root with
  | none =>
    rw [hr] at hk
    exact hk
  | some r =>
    rw [hr] at hk
    show Until orderly X (Prog.bind (Prog.bind (blackenLocked r) _) _) h
    rw [Prog.bind_assoc]
    exact blackenLocked_seq (hu r hr) hk

/-- The end of `erase_node` with an empty path, up to the retirement. -/
theorem finishErase_seq {kont : Unit → Code Addr Key α}
    (hu : ∀ a, h.root = some a → h.locked a = none)
    (hk : Until orderly X (.act (.retire target) fun _ => .act .subCount kont) h.blacken) :
    Until orderly X ((finishErase target []).bind kont) h := by
  show Until orderly X (Prog.bind (Prog.bind (blackenRoot []) _) kont) h
  rw [Prog.bind_assoc]
  exact blackenRoot_seq hu hk

end Tails

/-! ## Insertion and removal -/

/-- The section of a single thread that has locked the root `r`. -/
def loneWriter (h : Heap Addr Key) (r : Addr) : Writer Addr Key where
  tid := 0
  known := fun _ => True
  start := h.setLocked r (some 0)
  exact := True
  alone := True
  full := False
  exact_of_alone := fun h => h

section Updates

variable {h h' : Heap Addr Key} {t t' : PtrTree Addr} {r n target : Addr} {cmp : Key → Key → Bool}
  {m : SortedMap cmp Addr} {k : Key} {A B : List Addr}

theorem Rest.writer (hR : Rest h t) (r : Addr) :
    (loneWriter h r).At (loneWriter h r).start t [] [r] where
  fits := hR.fits
  hole := hR.root
  apart := Ctx.apart_nil.mpr hR.nodup
  held := by
    refine ⟨fun _ _ => trivial, ?_, fun _ a ha => ?_⟩
    · intro a ha
      rw [List.mem_singleton.mp ha]
      exact Heap.setLocked_same _ _ _
    · rw [List.mem_singleton] at ha
      exact (Heap.setLocked_ne _ _ ha).trans (hR.unlocked a)
  known := fun _ _ => trivial
  key := rfl
  count := rfl
  retired := rfl
  freed := rfl

/-- After the release of the root's lock nothing is locked. -/
theorem Writer.At.rest (hA : (loneWriter h r).At h' t' [] [n]) (hs : Sound h'.color t') :
    Rest (h'.setLocked n none) t' where
  root := hA.hole
  fits := hA.fits
  nodup := Ctx.apart_nil.mp hA.apart
  unlocked := fun a => by
    by_cases ha : a = n
    · rw [ha]
      exact Heap.setLocked_same _ _ _
    · exact (Heap.setLocked_ne _ _ ha).trans (hA.held.only trivial a (by simpa using ha))
  sound := hs

omit [DecidableEq Addr] in
theorem Quiet.sorted (hq : Quiet m h t) :
    t.addrs.Pairwise fun a b => cmp (h.key a) (h.key b) = true := by
  have hs := m.sorted
  rw [← hq.entries, Sorted, entriesOf, List.pairwise_map] at hs
  exact hs

omit [DecidableEq Addr] in
/-- The map changes as the nodes do. -/
theorem Quiet.linked [StrictWeakOrder cmp] (hq : Quiet m h t) (ht : t.addrs = A ++ B)
    (hA : ∀ a ∈ A, cmp (h.key a) k = true) (hB : ∀ a ∈ B, cmp k (h.key a) = true)
    (hk : h.key n = k) {u : PtrTree Addr} (hu : u.addrs = A ++ n :: B) :
    (m.insert k n).1 = true ∧ entriesOf h.key u = (m.insert k n).2.entries := by
  have he : m.entries = A.map (fun a => (h.key a, a)) ++ B.map fun a => (h.key a, a) := by
    rw [← hq.entries, entriesOf, ht, List.map_append]
  obtain ⟨h1, h2⟩ := SortedMap.insert_absent (v := n) (k := k) he
    (by simpa using hA) (by simpa using hB)
  refine ⟨h1, ?_⟩
  rw [h2, entriesOf, hu, List.map_append, List.map_cons, hk]

omit [DecidableEq Addr] in
theorem Quiet.unlinked [StrictWeakOrder cmp] (hq : Quiet m h t)
    (ht : t.addrs = A ++ target :: B) (h1 : cmp k (h.key target) = false)
    (h2 : cmp (h.key target) k = false) (ht' : t'.addrs = A ++ B) :
    (m.erase k).1 = true ∧ entriesOf h.key t' = (m.erase k).2.entries := by
  have he : m.entries = A.map (fun a => (h.key a, a)) ++
      (h.key target, target) :: B.map fun a => (h.key a, a) := by
    rw [← hq.entries, entriesOf, ht, List.map_append, List.map_cons]
  obtain ⟨h3, h4⟩ := SortedMap.erase_present (k := k) he h2 h1
  refine ⟨h3, ?_⟩
  rw [h4, entriesOf, ht', List.map_append]

omit [DecidableEq Addr] in
theorem Quiet.present [StrictWeakOrder cmp] (hq : Quiet m h t) (hn : target ∈ t.addrs)
    (h1 : cmp k (h.key target) = false) (h2 : cmp (h.key target) k = false) :
    m.insert k n = (false, m) := by
  obtain ⟨A, B, hAB⟩ := List.append_of_mem hn
  have he : m.entries = A.map (fun a => (h.key a, a)) ++
      (h.key target, target) :: B.map fun a => (h.key a, a) := by
    rw [← hq.entries, entriesOf, hAB, List.map_append, List.map_cons]
  exact SortedMap.insert_present he h2 h1

omit [DecidableEq Addr] in
theorem Quiet.absent [StrictWeakOrder cmp] (hq : Quiet m h t)
    (ha : ∀ a ∈ t.addrs, cmp (h.key a) k = true ∨ cmp k (h.key a) = true) :
    m.erase k = (false, m) := by
  refine SortedMap.erase_absent fun e he => ?_
  rw [← hq.entries] at he
  obtain ⟨a, hat, rfl⟩ := List.mem_map.mp he
  exact ha a hat

/-- An operation that has not changed the tree. -/
theorem Quiet.unchanged (hq : Quiet m h t) (hA : (loneWriter h r).At h' t [] [n])
    (hc : h'.color = h.color) : Quiet m (h'.setLocked n none) t where
  rest := hA.rest (hc ▸ hq.rest.sound)
  dark := by
    rw [Heap.setLocked_color, hc]
    exact hq.dark
  entries := by
    rw [Heap.setLocked_key, hA.key]
    exact hq.entries
  count := hA.count.trans hq.count

/-- A section of a single thread changes no payload and gives no node back. -/
theorem Writer.At.keeps {S : List Addr} {c : Ctx Addr} (hA : (loneWriter h r).At h' t' c S) :
    Keeps h h' :=
  ⟨hA.key, hA.retired, hA.freed⟩

/-- `insert_node`, run alone. -/
theorem insertNode_orderly [StrictWeakOrder cmp] (hs : Small Addr) (hq : Quiet m h t)
    (hn : n ∉ t.addrs) (hc : ∀ d, h.child n d = none) (hk : h.key n = k) :
    Ends orderly (fun b h' => b = (m.insert k n).1 ∧ Keeps h h' ∧ ∃ t', Quiet (m.insert k n).2 h' t')
      (insertNode cmp n k) h := by
  refine .loop (.loop (orderly_act trivial rfl ?_))
  cases hp : t.ptr with
  | none =>
    -- the empty tree: the node becomes the root
    obtain rfl := PtrTree.eq_nil_of_ptr hp
    rw [hq.rest.root, hp]
    have hcas : (Op.casRoot none (some n)).perform h = some (true, h.setRoot (some n)) := by
      simp [Op.perform, Op.inBounds, Op.apply, hq.rest.root, hp]
    refine orderly_act trivial hcas (orderly_act trivial rfl (orderly_act trivial rfl ?_))
    obtain ⟨h1, h2⟩ := hq.linked (A := []) (B := []) (u := .node n .nil .nil) rfl (by simp)
      (by simp) hk rfl
    refine Ends.ret ⟨h1.symm, ⟨rfl, rfl, rfl⟩, .node n .nil .nil,
      ⟨rfl, ?_, by simp [PtrTree.addrs], ?_, ?_⟩, ?_, h2, ?_⟩
    · exact ⟨hc .left, hc .right, trivial, trivial⟩
    · exact hq.rest.unlocked
    · exact ⟨0, rfl, rfl⟩
    · exact fun a ha => Option.some.inj ha ▸ Heap.setColor_same _ _ _
    · show h.count + 1 = _
      rw [hq.count]
      rfl
  | some cur =>
    rw [hq.rest.root, hp]
    have hlock : (Op.lock cur : Op Addr Key Unit).perform h = some ((), h.setLocked cur (some 0)) := by
      simp [Op.perform, Op.inBounds, Op.apply, hq.rest.unlocked cur]
    -- the root is locked and, as nobody else runs, is still the root
    refine orderly_act (hq.rest.unlocked cur) hlock (orderly_act trivial rfl ?_)
    have hroot : (h.setLocked cur (some 0)).root = some cur := hq.rest.root.trans hp
    rw [hroot]
    show Until orderly _ (Prog.bind (if (some cur : Option Addr) = some cur then _
      else _ : Code Addr Key (Unit ⊕ LockResult Addr)) _) _
    rw [if_pos rfl]
    have hheld : (loneWriter h cur).RootHeld (loneWriter h cur).start :=
      ⟨cur, hroot, Heap.setLocked_same _ _ _⟩
    -- what follows is the section of a writer that holds its root, which ends in one of three ways
    refine (Writer.orderly trivial rfl hheld (Writer.insert_section hs
      (hq.rest.writer cur) hp hq.sorted (fun _ => hq.rest.sound) hn trivial hc)).trans ?_
    intro p h' hexit
    cases hexit with
    | found hA _ hcol ha h1 h2 =>
      rw [hA.key] at h1 h2
      rw [hq.present ha h1 h2]
      refine orderly_act (hA.held.mem _ (by simp)) rfl (Ends.ret ?_)
      exact ⟨rfl, hA.keeps.trans ⟨rfl, rfl, rfl⟩, t, hq.unchanged hA hcol⟩
    | @linked h' r t' A B hA _ hcol hdark ht ht' hlt hgt =>
      rw [hA.key] at hlt hgt
      obtain ⟨h1, h2⟩ := hq.linked ht hlt hgt hk ht'
      have hR := hA.rest (hcol trivial)
      refine orderly_act (hA.held.mem r (by simp)) rfl (orderly_act trivial rfl ?_)
      refine (Ends.ret ⟨h1.symm, hA.keeps.trans ⟨rfl, rfl, rfl⟩, t',
        ⟨hR.root, hR.fits, hR.nodup, hR.unlocked, hR.sound⟩, hdark, ?_, ?_⟩)
      · rw [← h2]
        exact congrArg (fun key => entriesOf key t') hA.key
      · show h'.count + 1 = _
        rw [hA.count]
        show h.count + 1 = _
        rw [hq.count, ht, ht']
        simp
        omega
    | full _ _ _ hf => exact hf.elim

theorem insertNode_seq [StrictWeakOrder cmp] (hs : Small Addr) (hq : Quiet m h t)
    (hn : n ∉ t.addrs) (hc : ∀ d, h.child n d = none) (hk : h.key n = k) :
    Ends steady (fun b h' => b = (m.insert k n).1 ∧ Keeps h h' ∧ ∃ t', Quiet (m.insert k n).2 h' t')
      (insertNode cmp n k) h := (insertNode_orderly hs hq hn hc hk).of_strict

/-- An erase of the key `k` that is over, or the last thing before its node is retired: the node is
unlinked but still counted. -/
inductive Unlinks {cmp : Key → Key → Bool} [StrictWeakOrder cmp] (m : SortedMap cmp Addr)
    (h : Heap Addr Key) (t : PtrTree Addr) (k : Key) : Code Addr Key Bool → Heap Addr Key → Prop where
  | absent {h' : Heap Addr Key} : m.erase k = (false, m) → Keeps h h' → Quiet m h' t →
      Unlinks m h t k (.ret false) h'
  | present {h' : Heap Addr Key} {t' : PtrTree Addr} {target : Addr} {A B : List Addr} :
      (m.erase k).1 = true → Keeps h h' → h'.count = h.count → t.addrs = A ++ target :: B →
      t'.addrs = A ++ B → Quiet (m.erase k).2 { h' with count := h'.count - 1 } t' →
      Unlinks m h t k (.act (.retire target) fun _ => .act .subCount fun _ => .ret true) h'

/-- A heap without locks, once the node is unlinked and the tree sound. -/
theorem Quiet.unlinks [StrictWeakOrder cmp] (hq : Quiet m h t) (hR : Rest h' t')
    (hd : Dark h'.color t') (hkeep : Keeps h h') (hcount : h'.count = h.count)
    (ht : t.addrs = A ++ target :: B) (ht' : t'.addrs = A ++ B)
    (h1 : cmp k (h.key target) = false) (h2 : cmp (h.key target) k = false) :
    Until orderly (Unlinks m h t k) (.act (.retire target) fun _ => .act .subCount fun _ => .ret true)
      h' := by
  obtain ⟨he1, he2⟩ := hq.unlinked ht h1 h2 ht'
  refine .stop (.present he1 hkeep hcount ht ht'
    ⟨⟨hR.root, hR.fits, hR.nodup, hR.unlocked, hR.sound⟩, hd, ?_, ?_⟩)
  · rw [← he2]
    exact congrArg (fun key => entriesOf key t') hkeep.key
  · show h'.count - 1 = _
    rw [hcount, hq.count, ht, ht']
    simp
    omega

/-- `finish_erase`, run alone with an empty path. -/
theorem Quiet.finishErase [StrictWeakOrder cmp] (hq : Quiet m h t) (hR : Rest h' t')
    (hkeep : Keeps h h') (hcount : h'.count = h.count)
    (ht : t.addrs = A ++ target :: B) (ht' : t'.addrs = A ++ B)
    (h1 : cmp k (h.key target) = false) (h2 : cmp (h.key target) k = false) :
    Until orderly (Unlinks m h t k) ((finishErase target []).bind fun _ => .ret true) h' := by
  refine finishErase_seq (fun a _ => hR.unlocked a) (hq.unlinks hR.blacken
    (sound_blacken hR.root hR.nodup hR.sound).2 (hkeep.trans (keeps_blacken h')) ?_ ht ht' h1 h2)
  rw [Heap.blacken_count]
  exact hcount

/-- `erase_node` up to the retirement, run alone. -/
theorem eraseNode_orderly [StrictWeakOrder cmp] (hs : Small Addr) (hq : Quiet m h t) :
    Until orderly (Unlinks m h t k) (eraseNode cmp k) h := by
  refine .loop (.loop (orderly_act trivial rfl ?_))
  cases hp : t.ptr with
  | none =>
    obtain rfl := PtrTree.eq_nil_of_ptr hp
    rw [hq.rest.root, hp]
    exact .stop (.absent (hq.absent (by simp [PtrTree.addrs])) ⟨rfl, rfl, rfl⟩ hq)
  | some cur =>
    rw [hq.rest.root, hp]
    have hlock : (Op.lock cur : Op Addr Key Unit).perform h = some ((), h.setLocked cur (some 0)) := by
      simp [Op.perform, Op.inBounds, Op.apply, hq.rest.unlocked cur]
    refine orderly_act (hq.rest.unlocked cur) hlock (orderly_act trivial rfl ?_)
    have hroot : (h.setLocked cur (some 0)).root = some cur := hq.rest.root.trans hp
    rw [hroot]
    show Until orderly _ (Prog.bind (if (some cur : Option Addr) = some cur then _
      else _ : Code Addr Key (Unit ⊕ LockResult Addr)) _) _
    rw [if_pos rfl]
    have hheld : (loneWriter h cur).RootHeld (loneWriter h cur).start :=
      ⟨cur, hroot, Heap.setLocked_same _ _ _⟩
    -- from here on the section of a writer that holds its root, which ends in one of five ways
    refine (Writer.orderly trivial rfl hheld (Writer.erase_section hs
      (hq.rest.writer cur) hp hq.sorted (fun _ => hq.rest.sound))).trans ?_
    intro p h' hexit
    cases hexit with
    | absent hA _ hcol ha =>
      rw [hA.key] at ha
      refine orderly_act (hA.held.mem _ (by simp)) rfl (.stop (.absent (hq.absent ha) ?_ ?_))
      · exact hA.keeps.trans ⟨rfl, rfl, rfl⟩
      · exact hq.unchanged hA hcol
    | @done h' t' r target A B hA _ hcol hdark ht ht' h1 h2 =>
      rw [hA.key] at h1 h2
      refine orderly_act (hA.held.mem r (by simp)) rfl ?_
      exact hq.unlinks (hA.rest (hcol trivial)) hdark (hA.keeps.trans ⟨rfl, rfl, rfl⟩)
        hA.count ht ht' h1 h2
    | @climbed h' t' p target d A B E hA hp hcol hE ht ht' h1 h2 =>
      rw [hA.key] at h1 h2
      -- the fixup has come up to the root with no parent above it
      have hset : Keeps h (h'.setLocked p none) := hA.keeps.trans ⟨rfl, rfl, rfl⟩
      have hkeep := hset.trans (keeps_blacken _)
      refine orderly_act (hA.held.mem p (by simp)) rfl (fixupDelete_root (fun a ha => ?_) ?_)
      · obtain rfl := Option.some.inj ((hA.hole.trans hp).symm.trans ha)
        exact Heap.setLocked_same _ _ _
      · rcases hE with rfl | rfl
        · refine hq.finishErase (hA.rest (hcol trivial)).blacken hkeep ?_ ht ht' h1 h2
          rw [Heap.blacken_count]
          exact hA.count
        -- the target is still locked as well: it is not `p`, which is in the tree that is left
        · have hne : target ≠ p := by
            rintro rfl
            have hnodup := hq.rest.nodup
            rw [ht, List.nodup_middle, List.nodup_cons, ← ht'] at hnodup
            exact hnodup.1 (PtrTree.mem_of_ptr hp)
          have hheld : (h'.setLocked p none).blacken.locked target = some 0 := by
            rw [Heap.blacken_locked, Heap.setLocked_ne _ _ hne]
            exact hA.held.mem target (by simp)
          refine orderly_act hheld rfl
            (hq.finishErase ?_ (hkeep.trans ⟨rfl, rfl, rfl⟩) ?_ ht ht' h1 h2)
          · refine ⟨?_, ?_, Ctx.apart_nil.mp hA.apart, fun a => ?_, ?_⟩
            · rw [Heap.setLocked_root, Heap.blacken_root]
              exact hA.hole
            · rw [Heap.setLocked_child, Heap.blacken_child]
              exact hA.fits
            · by_cases hat : a = target
              · rw [hat]
                exact Heap.setLocked_same _ _ _
              · rw [Heap.setLocked_ne _ _ hat, Heap.blacken_locked]
                by_cases hap : a = p
                · rw [hap]
                  exact Heap.setLocked_same _ _ _
                · rw [Heap.setLocked_ne _ _ hap]
                  exact hA.held.only trivial a (by simp [hap, hat])
            · rw [Heap.setLocked_color]
              exact (sound_blacken (h := h'.setLocked p none) hA.hole
                (Ctx.apart_nil.mp hA.apart) (hcol trivial)).1
          · show (Heap.blacken _).count = _
            rw [Heap.blacken_count]
            exact hA.count
    | @root h' t' target d ht hA hcol h1 h2 =>
      rw [hA.key] at h1 h2
      -- the target was the root and had one child at most, which replaces it
      have hsound := hq.rest.sound
      rw [ht, sound_mk] at hsound
      obtain ⟨b, hb, -⟩ := hsound
      have hfits := hA.fits
      rw [ht, PtrTree.fits_mk] at hfits
      have hnodup := hq.rest.nodup
      rw [ht, PtrTree.nodup_mk] at hnodup
      have hR : Rest ((h'.setRoot t'.ptr).setLocked target none) t' := by
        refine ⟨rfl, hfits.2.2.1, hnodup.2.2.1, fun a => ?_, ?_⟩
        · exact (hA.rest (hcol ▸ hq.rest.sound)).unlocked a
        · show Sound h'.color t'
          rw [hcol]
          exact hb.sound
      obtain ⟨A, B, hAB, hAB'⟩ : ∃ A B, t.addrs = A ++ target :: B ∧ t'.addrs = A ++ B := by
        rw [ht]
        cases d with
        | left => exact ⟨t'.addrs, [], rfl, (List.append_nil _).symm⟩
        | right => exact ⟨[], t'.addrs, rfl, rfl⟩
      have hkeep : Keeps h ((h'.setRoot t'.ptr).setLocked target none) :=
        hA.keeps.trans ⟨rfl, rfl, rfl⟩
      have hheld : h'.locked target = some 0 := hA.held.mem target (by simp)
      have hok : (Op.storeRoot t'.ptr : Op Addr Key Unit).orderly h' := by
        unfold Op.orderly
        rw [show h'.root = some target from hA.hole.trans (by rw [ht, PtrTree.ptr_mk])]
        exact hheld
      refine orderly_act hok rfl (orderly_act hheld rfl (orderly_act trivial rfl ?_))
      show Until orderly _ (Prog.bind (Prog.bind (if _ = Color.BLACK then _ else _) _) _) _
      rw [Prog.bind_assoc]
      split
      · refine fixupDelete_root (fun a _ => hR.unlocked a) ?_
        refine hq.finishErase hR.blacken (hkeep.trans (keeps_blacken _)) ?_ hAB hAB' h1 h2
        rw [Heap.blacken_count]
        exact hA.count
      · exact hq.finishErase hR hkeep hA.count hAB hAB' h1 h2
    | full _ _ _ hf => exact hf.elim

theorem eraseNode_until [StrictWeakOrder cmp] (hs : Small Addr) (hq : Quiet m h t) :
    Until steady (Unlinks m h t k) (eraseNode cmp k) h := (eraseNode_orderly hs hq).of_strict

/-- `erase_node`, run alone. -/
theorem eraseNode_seq [StrictWeakOrder cmp] (hs : Small Addr) (hq : Quiet m h t) :
    Ends sequential (fun b h' => b = (m.erase k).1 ∧ ∃ t', Quiet (m.erase k).2 h' t')
      (eraseNode cmp k) h := by
  refine (steady_sequential (eraseNode_until hs hq)).trans ?_
  intro p h' hexit
  cases hexit with
  | absent he _ hq' =>
    rw [he]
    exact Ends.ret ⟨rfl, t, hq'⟩
  | present he _ _ _ _ hq' =>
    refine .act rfl ?_
    rintro _ _ ⟨⟩
    refine .act rfl ?_
    rintro _ _ ⟨⟩
    have hR := hq'.rest
    exact Ends.ret ⟨he.symm, _, ⟨hR.root, hR.fits, hR.nodup, hR.unlocked, hR.sound⟩, hq'.dark,
      hq'.entries, hq'.count⟩

end Updates

/-! ## Requests -/

/-- A call of the engine. A node is inserted together with its key, as `alloc_node` and the
construction of its payload leave it. -/
inductive Request (Addr Key : Type) where
  | insert (n : Addr) (k : Key)
  | erase (k : Key)
  | find (k : Key)
  | bound (k : Key) (strict : Bool)
  | first
  | next (k : Key)
  | size
  | clear

/-- The result of a call. -/
inductive Answer (Addr Key : Type) where
  | done
  | flag (b : Bool)
  | node (a : Option Addr)
  | key (k : Option Key)
  | count (n : Nat)
  deriving DecidableEq, Repr

/-- `alloc_node`, with a payload of key `k`. -/
def Heap.create (h : Heap Addr Key) (n : Addr) (k : Key) : Heap Addr Key :=
  { h with
    child := Function.update h.child n fun _ => none
    locked := Function.update h.locked n none
    color := Function.update h.color n .RED
    key := Function.update h.key n k }

namespace Request

open Prog (perform)

/-- What the caller does before the call. -/
def prepare (h : Heap Addr Key) : Request Addr Key → Heap Addr Key
  | .insert n k => h.create n k
  | _ => h

/-- The code of a call. -/
def code (cmp : Key → Key → Bool) : Request Addr Key → Code Addr Key (Answer Addr Key)
  | .insert n k => do return .flag (← insertNode cmp n k)
  | .erase k => do return .flag (← eraseNode cmp k)
  | .find k => do return .node (← findNode cmp k)
  | .bound k strict => do return .key (← boundNode cmp k strict)
  | .first => do return .key (← firstNode)
  | .next k => do return .key (← nextNode cmp k)
  | .size => do return .count (← Ordered.size)
  | .clear => do
    clearImpl
    return .done

variable {cmp : Key → Key → Bool} [StrictWeakOrder cmp]

/-- The call on a strictly sorted map from keys to nodes. -/
def onMap (m : SortedMap cmp Addr) : Request Addr Key → Answer Addr Key × SortedMap cmp Addr
  | .insert n k => (.flag (m.insert k n).1, (m.insert k n).2)
  | .erase k => (.flag (m.erase k).1, (m.erase k).2)
  | .find k => (.node (m.find k), m)
  | .bound k strict => (.key (m.bound k strict), m)
  | .first => (.key m.first, m)
  | .next k => (.key (m.bound k true), m)
  | .size => (.count m.size, m)
  | .clear => (.done, SortedMap.empty)

/-- A node that is inserted is not a node of the map. -/
def Fresh (m : SortedMap cmp Addr) : Request Addr Key → Prop
  | .insert n _ => ∀ e ∈ m.entries, e.2 ≠ n
  | _ => True

instance (m : SortedMap cmp Addr) (q : Request Addr Key) : Decidable (q.Fresh m) :=
  match q with
  | .insert n _ => inferInstanceAs (Decidable (∀ e ∈ m.entries, e.2 ≠ n))
  | .erase _ | .find _ | .bound _ _ | .first | .next _ | .size | .clear =>
    inferInstanceAs (Decidable True)

end Request

/-- Run calls one after another, each for at most `fuel` steps. -/
def runCalls (cmp : Key → Key → Bool) (fuel : Nat) :
    List (Request Addr Key) → Heap Addr Key → Option (List (Answer Addr Key) × Heap Addr Key)
  | [], h => some ([], h)
  | q :: qs, h => do
    let (a, h) ← (q.code cmp).run (fun o h => o.perform h) fuel (q.prepare h)
    let (as, h) ← runCalls cmp fuel qs h
    return (a :: as, h)

section

variable {cmp : Key → Key → Bool} [StrictWeakOrder cmp]

omit [DecidableEq Addr] in
/-- The calls on a map. -/
def onMap (m : SortedMap cmp Addr) :
    List (Request Addr Key) → List (Answer Addr Key) × SortedMap cmp Addr
  | [] => ([], m)
  | q :: qs => ((q.onMap m).1 :: (onMap (q.onMap m).2 qs).1, (onMap (q.onMap m).2 qs).2)

omit [DecidableEq Addr] in
/-- Every node is inserted while it is not linked. -/
def Fresh (m : SortedMap cmp Addr) : List (Request Addr Key) → Prop
  | [] => True
  | q :: qs => q.Fresh m ∧ Fresh (q.onMap m).2 qs

instance decidableFresh (m : SortedMap cmp Addr) :
    (qs : List (Request Addr Key)) → Decidable (Fresh m qs)
  | [] => inferInstanceAs (Decidable True)
  | q :: qs =>
    have := decidableFresh (q.onMap m).2 qs
    inferInstanceAs (Decidable (q.Fresh m ∧ Fresh (q.onMap m).2 qs))

end

/-! ## Refinement -/

section Refinement

variable {h : Heap Addr Key} {t : PtrTree Addr} {n : Addr} {cmp : Key → Key → Bool}
  {m : SortedMap cmp Addr} {k : Key}

omit [DecidableEq Addr] in
theorem Quiet.fresh (hq : Quiet m h t) (hf : ∀ e ∈ m.entries, e.2 ≠ n) : n ∉ t.addrs := by
  intro hn
  rw [← hq.entries] at hf
  exact hf (h.key n, n) (List.mem_map_of_mem hn) rfl

/-- A new node is outside the tree. -/
theorem Quiet.create (hq : Quiet m h t) (hn : n ∉ t.addrs) : Quiet m (h.create n k) t := by
  have hne : ∀ a ∈ t.addrs, a ≠ n := fun a ha he => hn (he ▸ ha)
  have hcolor : ∀ a ∈ t.addrs, (h.create n k).color a = h.color a :=
    fun a ha => Function.update_of_ne (hne a ha) _ _
  refine ⟨⟨hq.rest.root, ?_, hq.rest.nodup, fun a => ?_, ?_⟩, ?_, ?_, hq.count⟩
  · exact hq.rest.fits.congr fun a ha => Function.update_of_ne (hne a ha) _ _
  · show Function.update h.locked n none a = none
    by_cases ha : a = n
    · rw [ha, Function.update_self]
    · rw [Function.update_of_ne ha]
      exact hq.rest.unlocked a
  · exact hq.rest.sound.congr (fun a ha _ => hcolor a ha) hq.rest.nodup
  · exact hq.dark.congr hcolor
  · rw [← hq.entries]
    refine List.map_congr_left fun a ha => ?_
    rw [show (h.create n k).key a = h.key a from Function.update_of_ne (hne a ha) _ _]

omit [DecidableEq Addr] in
theorem Quiet.length (hq : Quiet m h t) : m.entries.length = t.addrs.length := by
  rw [← hq.entries, entriesOf, List.length_map]

/-- The number of keys is less than the range of the counter. -/
theorem size_seq (hs : Small Addr) (hq : Quiet m h t) :
    Ends steady (fun r h' => r = m.size ∧ h' = h) Ordered.size h := by
  refine seq_act rfl (Ends.ret ⟨?_, rfl⟩)
  have hlt := hs _ hq.rest.nodup
  rw [hq.count, SortedMap.size, hq.length]
  omega

variable [StrictWeakOrder cmp]

/-- Every call answers as the map does and leaves the tree of the new map. -/
theorem code_seq (hs : Small Addr) (hq : Quiet m h t) {q : Request Addr Key} (hf : q.Fresh m) :
    Ends sequential (fun a h' => a = (q.onMap m).1 ∧ ∃ t', Quiet (q.onMap m).2 h' t')
      (q.code cmp) (q.prepare h) := by
  have hsorted : Sorted cmp (entriesOf h.key t) := hq.entries ▸ m.sorted
  cases q with
  | insert n k =>
    have hn := hq.fresh hf
    refine Ends.bind (steady_sequential (insertNode_seq hs (hq.create hn) hn ?_ ?_)) ?_
    · intro d
      show Function.update h.child n (fun _ => none) n d = none
      rw [Function.update_self]
    · exact Function.update_self _ _ _
    · rintro b h' ⟨rfl, -, hq'⟩
      exact Ends.ret ⟨rfl, hq'⟩
  | erase k =>
    refine Ends.bind (eraseNode_seq hs hq) ?_
    rintro b h' ⟨rfl, hq'⟩
    exact Ends.ret ⟨rfl, hq'⟩
  | find k =>
    refine Ends.bind (steady_sequential (findNode_spec hq.rest.unlocked hq.rest.root hq.rest.fits hsorted)) ?_
    rintro r h' ⟨rfl, rfl⟩
    exact Ends.ret ⟨congrArg (fun L => Answer.node ((lookup cmp k L).map Prod.snd)) hq.entries,
      t, hq⟩
  | bound k strict =>
    refine Ends.bind (steady_sequential (boundNode_spec hq.rest.unlocked hq.rest.root hq.rest.fits hsorted)) ?_
    rintro r h' ⟨rfl, rfl⟩
    exact Ends.ret ⟨congrArg (fun L => Answer.key ((L.find? (isBound cmp k strict)).map Prod.fst))
      hq.entries, t, hq⟩
  | first =>
    refine Ends.bind (steady_sequential (firstNode_spec hq.rest.unlocked hq.rest.root hq.rest.fits)) ?_
    rintro r h' ⟨rfl, rfl⟩
    exact Ends.ret ⟨congrArg (fun L => Answer.key (L.head?.map Prod.fst)) hq.entries, t, hq⟩
  | next k =>
    refine Ends.bind (steady_sequential (boundNode_spec hq.rest.unlocked hq.rest.root hq.rest.fits hsorted)) ?_
    rintro r h' ⟨rfl, rfl⟩
    exact Ends.ret ⟨congrArg (fun L => Answer.key ((L.find? (isBound cmp k true)).map Prod.fst))
      hq.entries, t, hq⟩
  | size =>
    refine Ends.bind (steady_sequential (size_seq hs hq)) ?_
    rintro r h' ⟨rfl, rfl⟩
    exact Ends.ret ⟨rfl, t, hq⟩
  | clear =>
    refine Ends.bind (steady_sequential (clearImpl_spec hq.rest.root hq.rest.fits)) ?_
    rintro r h' rfl
    exact Ends.ret ⟨rfl, .nil, ⟨⟨rfl, trivial, List.nodup_nil, hq.rest.unlocked, trivial⟩,
      dark_nil, rfl, rfl⟩⟩

/-- With enough fuel the calls return, answer as the map does and leave its tree. -/
theorem runCalls_spec (hs : Small Addr) (qs : List (Request Addr Key)) (hq : Quiet m h t)
    (hf : Fresh m qs) :
    ∃ N, ∀ fuel, N ≤ fuel → ∃ h' t', runCalls cmp fuel qs h = some ((onMap m qs).1, h') ∧
      Quiet (onMap m qs).2 h' t' := by
  induction qs generalizing m h t with
  | nil => exact ⟨0, fun _ _ => ⟨h, t, rfl, hq⟩⟩
  | cons q qs ih =>
    obtain ⟨hfq, hfqs⟩ := hf
    obtain ⟨n₁, a, h₁, hrun, rfl, t₁, hq₁⟩ := Ends.runs sequential_executes (code_seq hs hq hfq)
    obtain ⟨n₂, hrest⟩ := ih hq₁ hfqs
    refine ⟨max n₁ n₂, fun fuel hfuel => ?_⟩
    obtain ⟨h₂, t₂, hrun₂, hq₂⟩ := hrest fuel (by omega)
    refine ⟨h₂, t₂, ?_, hq₂⟩
    rw [runCalls, Prog.run_le (by omega : n₁ ≤ fuel) hrun]
    show (runCalls cmp fuel qs h₁).bind _ = _
    rw [hrun₂]
    rfl

end Refinement

/-! ## Trees of nodes with 64-bit addresses -/

/-- The addresses a node may have. -/
abbrev Ptr := { a : BitVec 64 // a ≠ 0 }

theorem small_ptr : Small Ptr := by
  intro l hl
  have hinj : Function.Injective fun a : Ptr => a.1.toFin :=
    fun a b h => Subtype.ext (BitVec.eq_of_toFin_eq h)
  have hcons : ((0 : Fin (2 ^ 64)) :: l.map fun a => a.1.toFin).Nodup := by
    rw [List.nodup_cons]
    refine ⟨fun h => ?_, hl.map hinj⟩
    obtain ⟨a, -, ha⟩ := List.mem_map.mp h
    exact a.2 (BitVec.eq_of_toFin_eq ha)
  have hle := hcons.length_le_card
  rw [Fintype.card_fin, List.length_cons, List.length_map] at hle
  exact hle

/-- The tree after its construction; `key` is what the memory of the nodes contains. -/
def Heap.new (key : Addr → Key) : Heap Addr Key where
  root := none
  child := fun _ _ => none
  locked := fun _ => none
  color := fun _ => .RED
  key := key
  count := 0
  retired := []
  freed := []

omit [DecidableEq Addr] in
theorem quiet_new (cmp : Key → Key → Bool) (key : Addr → Key) :
    Quiet (SortedMap.empty : SortedMap cmp Addr) (Heap.new key) .nil :=
  ⟨⟨rfl, trivial, List.nodup_nil, fun _ => rfl, trivial⟩, dark_nil, rfl, rfl⟩

/-- The pointers of the heap are those of the tree `t`. -/
def Heap.Stores (h : Heap Addr Key) (t : PtrTree Addr) : Prop := h.root = t.ptr ∧ t.Fits h.child

/-- The engine refines the strictly sorted map: every result is the map's, and the tree has the
keys of the map in order. -/
theorem runCalls_refines {Key : Type} (cmp : Key → Key → Bool) [StrictWeakOrder cmp]
    (key : Ptr → Key) (qs : List (Request Ptr Key))
    (hf : Fresh (SortedMap.empty : SortedMap cmp Ptr) qs) :
    ∃ N, ∀ fuel, N ≤ fuel → ∃ h t,
      runCalls cmp fuel qs (Heap.new key) =
        some ((onMap (SortedMap.empty : SortedMap cmp Ptr) qs).1, h) ∧
      h.Stores t ∧
      entriesOf h.key t = (onMap (SortedMap.empty : SortedMap cmp Ptr) qs).2.entries := by
  obtain ⟨N, hN⟩ := runCalls_spec small_ptr qs (quiet_new cmp key) hf
  refine ⟨N, fun fuel hfuel => ?_⟩
  obtain ⟨h, t, hrun, hq⟩ := hN fuel hfuel
  exact ⟨h, t, hrun, ⟨hq.rest.root, hq.rest.fits⟩, hq.entries⟩

/-- The comparison of natural numbers. -/
def natLess (a b : Nat) : Bool := a < b

instance : StrictWeakOrder natLess where
  irrefl := by simp [natLess]
  trans := by
    simp only [natLess, decide_eq_true_eq]
    omega
  incomp_trans := by
    simp only [natLess, decide_eq_false_iff_not]
    omega

/-- The node at a small address. -/
def ptr (i : Nat) : Ptr :=
  if h : BitVec.ofNat 64 i ≠ 0 then ⟨BitVec.ofNat 64 i, h⟩ else ⟨1, by decide⟩

/-- Two keys, one of them inserted twice, the other one erased. -/
def fewCalls : List (Request Ptr Nat) :=
  [.insert (ptr 1) 5, .insert (ptr 2) 3, .insert (ptr 3) 5, .bound 4 false, .erase 5, .find 3,
    .size]

/-- What these calls answer, and the entry that is left. -/
theorem runCalls_refines_run :
    ∃ N, ∀ fuel, N ≤ fuel → ∃ h t,
      runCalls natLess fuel fewCalls (Heap.new fun _ : Ptr => 0) =
        some ([.flag true, .flag true, .flag false, .key (some 5), .flag true,
          .node (some (ptr 2)), .count 1], h) ∧
      h.Stores t ∧ entriesOf h.key t = [(3, ptr 2)] :=
  runCalls_refines natLess (fun _ => 0) fewCalls (by decide)

theorem depth_le_log {n d : Nat} (h : 2 ^ d ≤ (n + 1) ^ 2) :
    (d : ℝ) ≤ 2 * Real.logb 2 (n + 1) := by
  have h2 : ((2 : ℝ)) ^ d ≤ ((n : ℝ) + 1) ^ 2 := by exact_mod_cast h
  have hlog := Real.logb_le_logb_of_le (b := 2) (by norm_num) (by positivity) h2
  rw [Real.logb_pow, Real.logb_pow, Real.logb_self_eq_one (by norm_num)] at hlog
  simpa using hlog

/-- After any calls the tree is a red-black tree. -/
theorem runCalls_redBlack {Key : Type} (cmp : Key → Key → Bool) [StrictWeakOrder cmp]
    (key : Ptr → Key) (qs : List (Request Ptr Key))
    (hf : Fresh (SortedMap.empty : SortedMap cmp Ptr) qs) :
    ∃ N, ∀ fuel, N ≤ fuel → ∃ answers h t,
      runCalls cmp fuel qs (Heap.new key) = some (answers, h) ∧ h.Stores t ∧
      IsRedBlack h.color t ∧ (t.depth : ℝ) ≤ 2 * Real.logb 2 (t.addrs.length + 1) := by
  obtain ⟨N, hN⟩ := runCalls_spec small_ptr qs (quiet_new cmp key) hf
  refine ⟨N, fun fuel hfuel => ?_⟩
  obtain ⟨h, t, hrun, hq⟩ := hN fuel hfuel
  exact ⟨_, h, t, hrun, ⟨hq.rest.root, hq.rest.fits⟩, hq.rest.sound.isRedBlack hq.dark,
    depth_le_log hq.rest.sound.two_pow_depth_le⟩

/-- The tree that these calls leave. -/
theorem runCalls_redBlack_run :
    ∃ N, ∀ fuel, N ≤ fuel → ∃ answers h t,
      runCalls natLess fuel fewCalls (Heap.new fun _ : Ptr => 0) = some (answers, h) ∧
      h.Stores t ∧ IsRedBlack h.color t ∧
      (t.depth : ℝ) ≤ 2 * Real.logb 2 (t.addrs.length + 1) :=
  runCalls_redBlack natLess (fun _ => 0) fewCalls (by decide)

end MpmcMap.Ordered
