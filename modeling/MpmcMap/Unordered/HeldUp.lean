import MpmcMap.Unordered.Progress
import MpmcMap.Unordered.Sequential

/-!
# An eraser that is held up

`unlink_marked` looks for the predecessor of its node by pointer and passes marked nodes of the run
as it passes others, but its compare-exchange expects a pointer without a mark. So an eraser whose
node comes after a marked node of the same run finds that node again each time, and goes round until
somebody else unlinks it. If the thread that has marked it has stopped, and nobody else walks
through the run to help, the eraser never returns.
-/

namespace MpmcMap.Unordered

open Conc
open Prog (perform iterate)
open Function (update)

variable {Addr Key : Type} [DecidableEq Addr]

namespace Ranks

variable {C : Config Key} {free : {β : Type} → Nat → Op Addr Key β → Heap Addr Key → Prop}
  {t : Nat} {s : Dated Addr Key} {L : Finset Addr} {r : Addr → Nat} {h h' : Heap Addr Key}
  {a b d held target : Addr} {mixed sk : Word}

/-- The eraser's node `target` comes after the marked node `held` of the same run, which is in the
list behind the dummy of the bucket. -/
structure Held (mixed sk : Word) (d held target : Addr) (h : Heap Addr Key) : Prop where
  bucket : h.bucket h.table (bucketOf mixed (h.size h.table)) = some d
  reached : h.Reaches d held
  next : h.next held = ⟨some target, true⟩
  key : h.soKey held = sk
  targetKey : h.soKey target = sk

/-- A walk to a key changes nothing from this key on. -/
theorem lone_walk_below (hf : Falls L r h) (hd : d ∈ L) (hm : (h.next d).marked = false)
    (hlt : h.soKey d < sk) (hkey : h.soKey held = sk) (hreached : h.Reaches d held) :
    Alone C free t (fun place h' => OnWay L r d True h' place ∧ Tidied L r h h' ∧
      h'.next held = h.next held ∧ h'.Reaches d held ∧ h.soKey place.1 < sk ∧
      ∀ c, place.2.1 = some c → sk ≤ h.soKey c) (walk C d sk) h := by
  refine (lone_publish HP_PREV d).bind ?_
  rintro _ _ rfl
  refine (lone_follow d).bind ?_
  rintro _ h ⟨rfl, rfl⟩
  refine SharedObject.Alone.iterate Nat.lt_wfRel.wf (I := fun i place h' => depth r place.2.1 = i ∧
    OnWay L r d True h' place ∧ Tidied L r h h' ∧ h'.next held = h.next held ∧ h'.Reaches d held ∧
      h.soKey place.1 < sk)
    ⟨rfl, OnWay.start hf hd fun _ => hm, .rfl, rfl, hreached, hlt⟩ ?_
  rintro _ ⟨prev, cur, tagged⟩ h₁ ⟨rfl, hw, htidied, hnext, hreach, hprev⟩
  cases cur with
  | none => exact .ret ⟨hw, htidied, hnext, hreach, hprev, fun c hc => by cases hc⟩
  | some cur =>
    refine .act rfl ?_
    rw [Prog.ret_bind]
    split
    · next hcur =>
      rw [htidied.rest] at hcur
      refine .ret ⟨hw, htidied, hnext, hreach, hprev, fun c hc => ?_⟩
      cases hc
      exact hcur
    · next hcur =>
      replace hcur : h.soKey cur < sk := by
        rw [htidied.rest] at hcur
        exact BitVec.not_le.mp hcur
      refine (lone_pass prev cur tagged).bind ?_
      rintro place' h₂ hgoes
      obtain ⟨hw', htidied', hdepth⟩ := hw.goes hgoes
      have hsucc : h₁.succ prev = some cur := hw.succ rfl
      obtain ⟨_, hc, hgoes⟩ := hgoes
      cases hc
      rcases hgoes with ⟨-, rfl, rfl⟩ | ⟨-, rfl, rfl⟩
      · exact .ret ⟨_, hdepth, rfl, hw', htidied.trans htidied', hnext, hreach, hcur⟩
      · -- neither the predecessor nor the node that is unlinked has the key of the run
        have hhelped : h₁.helped prev tagged (h₁.next cur) =
            h₁.setNext prev (h₁.next cur).clearMark := hw.helped _
        have hne : held ≠ prev := by
          rintro rfl
          exact BitVec.lt_irrefl _ (hkey ▸ hprev)
        have hne' : held ≠ cur := by
          rintro rfl
          exact BitVec.lt_irrefl _ (hkey ▸ hcur)
        refine .ret ⟨_, hdepth, rfl, hw', htidied.trans htidied', ?_, ?_, hprev⟩
        · rw [hhelped]
          exact (Function.update_of_ne hne _ _).trans hnext
        · rw [hhelped]
          show Reaches (h₁.setNext prev (h₁.next cur).clearMark).succ d held
          rw [Unlinked.succ_setNext]
          exact (hreach.cut hsucc).resolve_right hne'

/-- The scan by pointer passes the marked node, and finds its own node behind it. -/
theorem lone_scan_held (hb : h.Reaches b held) (hnext : h.succ held = some target)
    (hrun : ∀ a, h.Reaches b a → h.Reaches a held → h.soKey a = sk ∧ a ≠ target)
    (htarget : h.soKey target = sk) (rp : Addr) :
    Alone C free t (fun x h' => h' = h ∧ x = some held)
      (iterate (pointerStep C target sk) (rp, some b)) h := by
  have hadvance : ∀ a rp c, h.soKey a = sk → a ≠ target → h.succ a = c →
      Alone C free t (fun x h' => h' = h ∧ x = some held)
        (iterate (pointerStep C target sk) (a, c)) h →
      Alone C free t (fun x h' => h' = h ∧ x = some held)
        (iterate (pointerStep C target sk) (rp, some a)) h := by
    rintro a rp _ hkey hne rfl hrest
    refine .unroll (.act rfl ?_)
    rw [Prog.ret_bind, if_neg (not_not.mpr hkey), if_neg hne]
    refine (lone_advance a).bind ?_
    rintro _ _ ⟨rfl, rfl⟩
    exact .ret hrest
  induction hb using Relation.ReflTransGen.head_induction_on generalizing rp with
  | refl =>
    obtain ⟨hkey, hne⟩ := hrun held .refl .refl
    refine hadvance held rp _ hkey hne hnext (.last (.act rfl ?_))
    rw [Prog.ret_bind, if_neg (not_not.mpr htarget), if_pos rfl]
    exact .ret ⟨_, rfl, rfl, rfl⟩
  | @head a c hac hc ih =>
    obtain ⟨hkey, hne⟩ := hrun a .refl (.head hac hc)
    exact hadvance a rp _ hkey hne hac (ih (fun x hx => hrun x (.head hac hx)) a)

omit [DecidableEq Addr] in
theorem Held.linked (hheld : Held mixed sk d held target s.heap) (hi : Ranked s)
    (ha : s.heap.Reaches d a) : s.Linked a := by
  have hd := hi.bucket _ _ _ hheld.bucket
  rcases hi.after hd ha with rfl | hda
  · exact hd
  · exact hda.right

omit [DecidableEq Addr] in
/-- The marked node comes after all nodes below the key. -/
theorem Held.behind {p : Addr} {c : Option Addr} (hheld : Held mixed sk d held target s.heap)
    (hi : Ranked s) (hp : s.heap.Reaches d p) (hpc : s.heap.succ p = c)
    (hkey : s.heap.soKey p < sk) :
    ∃ b, c = some b ∧ s.heap.Reaches b held := by
  have hne : p ≠ held := by
    rintro rfl
    exact BitVec.lt_irrefl _ (hheld.key ▸ hkey)
  rcases Relation.ReflTransGen.total_of_right_unique
    (fun _ _ _ h1 h2 => Option.some.inj (h1.symm.trans h2)) hp hheld.reached with h | h
  · rcases Relation.ReflTransGen.cases_head h with heq | ⟨b, hpb, hb⟩
    · exact absurd heq hne
    · exact ⟨b, hpc.symm.trans hpb, hb⟩
  · rcases hi.after (hheld.linked hi hheld.reached) h with heq | hbefore
    · exact absurd heq.symm hne
    · exact absurd hkey (BitVec.not_lt.mpr (hheld.key ▸ hbefore.key_le))

omit [DecidableEq Addr] in
/-- The nodes up to the marked one are of the run, and none of them is the eraser's. -/
theorem Held.run (hheld : Held mixed sk d held target s.heap) (hi : Ranked s)
    (hb : s.heap.Reaches d b) (hkey : sk ≤ s.heap.soKey b) (x : Addr) (hx : s.heap.Reaches b x)
    (hheld' : s.heap.Reaches x held) : s.heap.soKey x = sk ∧ x ≠ target := by
  have hle : ∀ {a b}, s.heap.Reaches d a → s.heap.Reaches a b →
      s.heap.soKey a ≤ s.heap.soKey b := by
    intro a b ha hab
    rcases hi.after (hheld.linked hi ha) hab with rfl | h
    · exact BitVec.le_refl _
    · exact h.key_le
  constructor
  · refine BitVec.le_antisymm ?_ (BitVec.le_trans hkey (hle hb hx))
    exact hheld.key ▸ hle (hb.trans hx) hheld'
  · rintro rfl
    have hbefore := hi.before held x (hheld.linked hi hheld.reached) (congrArg Link.ptr hheld.next)
    rcases hi.after hbefore.right hheld' with rfl | h
    · exact hbefore.irrefl
    · exact (hbefore.trans h).irrefl

/-- One attempt of the slow path of `unlink_marked`. -/
def unlinkAttempt (C : Config Key) (target : Addr) (mixed sk : Word) :
    Code Addr Key (Unit ⊕ Unit) := do
  let (p, c) ← locate C mixed sk
  match ← iterate (pointerStep C target sk) (p, c) with
  | none => return .inr ()
  | some rp =>
    let repl ← perform (.loadNext target)
    if ← perform (.casNextWeak rp (.plain (some target)) repl.clearMark) then
      return .inr ()
    else
      return .inl ()

theorem relocate_eq : (relocate C target mixed sk : Code Addr Key Unit) =
    iterate (fun _ => unlinkAttempt C target mixed sk) () := rfl

/-- Alone, the eraser finds its node behind the marked one, and its compare-exchange fails. -/
theorem lone_unlinkAttempt (hs : Suits mixed sk) (hi : Ranked s)
    (hheld : Held mixed sk d held target s.heap) :
    Alone C free t (fun x h' => x = .inl () ∧
      ∃ y : Dated Addr Key, y.heap = h' ∧ Ranked y ∧ Held mixed sk d held target y.heap)
      (unlinkAttempt C target mixed sk) s.heap := by
  have hlinked := hi.bucket _ _ _ hheld.bucket
  have hsmall := hi.grown.small
  have htable := hi.grown.lt_tables (Nat.le_refl _)
  obtain ⟨hdummy, hlt⟩ := hi.dummy _ _ _ hheld.bucket
  have hdkey : s.heap.soKey d < sk := by
    rw [hdummy, hi.grown.size _ htable]
    exact hs.dummy_lt (by omega)
  have hunmarked : (s.heap.next d).marked = false := hi.unmarked_dummy hlt hdummy
  have hknow : Has t [] [.linked d] s :=
    ⟨List.nodup_nil, by simp, fun f hf => List.mem_singleton.mp hf ▸ hlinked⟩
  -- `locate` ends below the key, so the run is scanned from its front
  have hlocate : Alone C free t (fun x h' => ∃ y : Dated Addr Key, y.heap = h' ∧ Ranked y ∧
      Held mixed sk d held target h' ∧ h'.Reaches d x.1 ∧ h'.succ x.1 = x.2 ∧ h'.soKey x.1 < sk ∧
      ∀ c, x.2 = some c → sk ≤ h'.soKey c)
      (locate C mixed sk) s.heap := by
    refine .last (lone_loadTable.bind ?_)
    rintro _ h ⟨rfl, rfl⟩
    refine .act rfl (.act rfl ?_)
    simp only [hheld.bucket]
    have hwalk : Alone C free t _ (walk C d sk) s.heap := lone_walk_below hi.falls
      (Dated.mem_nodes.mpr hlinked) hunmarked hdkey hheld.key hheld.reached
    refine ((finds_walk false sk List.mem_cons_self (by simp [lower])).alone hi hknow hwalk).bind ?_
    rintro ⟨prev, cur, tagged⟩ _ ⟨⟨hw, htidied, hnext, hreach, hprev, habove⟩, y, rfl, hy, -⟩
    have hkeys : y.heap.soKey = s.heap.soKey := by rw [htidied.rest]
    refine .ret ⟨_, rfl, y, rfl, hy, ⟨?_, hreach, hnext.trans hheld.next, ?_, ?_⟩,
      (hw.known trivial).2, ?_, ?_, fun c hc => ?_⟩
    · rw [htidied.rest]
      exact hheld.bucket
    · rw [hkeys]
      exact hheld.key
    · rw [hkeys]
      exact hheld.targetKey
    · exact (congrArg (fun p => p.2.1) hw.fresh).symm
    · rw [hkeys]
      exact hprev
    · rw [hkeys]
      exact habove c hc
  refine hlocate.bind ?_
  rintro ⟨p, c⟩ _ ⟨y, rfl, hy, hheld, hp, hpc, hpkey, habove⟩
  obtain ⟨b, rfl, hb⟩ := hheld.behind hy hp hpc hpkey
  refine (lone_scan_held hb (congrArg Link.ptr hheld.next)
    (hheld.run hy (hp.tail hpc) (habove b rfl)) hheld.targetKey p).bind ?_
  rintro _ _ ⟨rfl, rfl⟩
  -- the scan has ended on `held`, whose link is marked: the compare-exchange fails
  refine .act rfl (.act (r := false) (x := y.heap) ?_ (.ret ⟨rfl, y, rfl, hy, hheld⟩))
  show some (Heap.compareExchange _ _ _ _ _) = _
  rw [Heap.compareExchange, if_neg]
  rintro ⟨heq, -⟩
  rw [hheld.next] at heq
  cases heq

end Ranks

open Label (whole)

/-- Node 2 comes before node 1, and they have the same hash. Thread 2 has come to node 1, which it
shall erase; thread 1 marks node 2 and stops; thread 2 marks node 1 and cannot unlink it. -/
def behindMarked : List (Label (Request Nat Nat)) :=
  whole 0 (.insert 1 0) 13 ++ whole 0 (.insert 2 1) 23 ++
    .call 2 (.erase 0) :: List.replicate 22 (.step 2 false) ++
    .call 1 (.erase 1) :: List.replicate 13 (.step 1 false) ++ List.replicate 3 (.step 2 false)

end MpmcMap.Unordered
