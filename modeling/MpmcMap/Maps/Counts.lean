import MpmcMap.Conc.Throw
import MpmcMap.Ordered.Values
import MpmcMap.Unordered.Values
import Mathlib.Data.Set.Card

/-!
# `count_` after an erase that throws

Both engines unlink a node, hand it to the reclaimer and count it out, in this order. `retire` is
the only one of the three that may throw, and then the node is gone and still counted.
-/

namespace MpmcMap

open Conc
open Prog (perform)

/-- The elements of a list without repetitions, counted. -/
theorem ncard_mem {α : Type} [DecidableEq α] {l : List α} (hl : l.Nodup) :
    { a | a ∈ l }.ncard = l.length := by
  rw [← List.coe_toFinset, Set.ncard_coe_finset, List.toFinset_card_of_nodup hl]

/-! ## The tree -/

namespace Ordered

open RedBlack Maps

variable {Key : Type}

/-- `find_node(k)` answers the node `a`. -/
def Heap.Finds (cmp : Key → Key → Bool) (h : Heap Ptr Key) (k : Key) (a : Ptr) : Prop :=
  ∃ fuel h', (findNode cmp k).run (fun o h => o.perform h) fuel h = some (some a, h')

/-- `count_` is the number of elements that `find_node` reports. -/
def Heap.CountExact (cmp : Key → Key → Bool) (h : Heap Ptr Key) : Prop :=
  h.count = { a | ∃ k, h.Finds cmp k a }.ncard

/-- The accesses of the engine, where `retire` throws if it `fails`. -/
def throwing (fails : Bool) {β : Type} (o : Op Ptr Key β) : Code Ptr Key (Option β) :=
  match o with
  | .retire a => if fails then .ret none else (perform (.retire a)).bind fun r => .ret (some r)
  | o => (perform o).bind fun r => .ret (some r)

/-- `erase_node(k)`; the answer `none` is an exception. -/
def eraseThrowing (cmp : Key → Key → Bool) (fails : Bool) (k : Key) (h : Heap Ptr Key)
    (fuel : Nat) : Option (Option Bool × Heap Ptr Key) :=
  ((eraseNode cmp k).attempt (throwing fails)).run (fun o h => o.perform h) fuel h

section Tree

variable {cmp : Key → Key → Bool} [StrictWeakOrder cmp] {h : Heap Ptr Key} {t : PtrTree Ptr}
  {k : Key} {a : Ptr} {fails : Bool}

theorem Rest.finds_iff (hR : Rest h t) (hs : Sorted cmp (entriesOf h.key t)) :
    h.Finds cmp k a ↔ (lookup cmp k (entriesOf h.key t)).map Prod.snd = some a := by
  have hfind := steady_sequential (findNode_spec (k := k) hR.unlocked hR.root hR.fits hs)
  constructor
  · intro hf
    obtain ⟨fuel, h', hrun⟩ := hf
    exact (Ends.of_run sequential_executes hfind hrun).1.symm
  · intro hlook
    obtain ⟨fuel, r, h', hrun, rfl, -⟩ := Ends.runs sequential_executes hfind
    exact ⟨fuel, h', hlook ▸ hrun⟩

/-- Every node is found by its own key. -/
theorem Rest.found_eq (hR : Rest h t) (hs : Sorted cmp (entriesOf h.key t)) :
    { a | ∃ k, h.Finds cmp k a } = { a | a ∈ t.addrs } := by
  ext a
  constructor
  · intro hf
    obtain ⟨k, hk⟩ := hf
    obtain ⟨e, he, rfl⟩ := Option.map_eq_some_iff.mp ((hR.finds_iff hs).mp hk)
    obtain ⟨b, hb, rfl⟩ := List.mem_map.mp (List.mem_of_find?_eq_some he)
    exact hb
  · intro ha
    obtain ⟨A, B, hAB⟩ := List.append_of_mem ha
    refine ⟨h.key a, (hR.finds_iff hs).mpr ?_⟩
    have hentries : entriesOf h.key t =
        A.map (fun b => (h.key b, b)) ++ (h.key a, a) :: B.map fun b => (h.key b, b) := by
      rw [entriesOf, hAB, List.map_append, List.map_cons]
    rw [hentries] at hs ⊢
    rw [hs.lookup_here (StrictWeakOrder.irrefl _) (StrictWeakOrder.irrefl _)]
    rfl

theorem Rest.countExact_iff (hR : Rest h t) (hs : Sorted cmp (entriesOf h.key t)) :
    h.CountExact cmp ↔ h.count = t.addrs.length := by
  unfold Heap.CountExact
  rw [hR.found_eq hs, ncard_mem hR.nodup]

omit [StrictWeakOrder cmp] in
theorem Quiet.sorted_entries {m : SortedMap cmp Ptr} (hq : Quiet m h t) :
    Sorted cmp (entriesOf h.key t) := hq.entries ▸ m.sorted

/-- An access that is not `retire` does not throw. -/
theorem throwing_ends {β : Type} {o : Op Ptr Key β} (hc : (o.certain h).isSome = true) :
    Ends sequential (fun x h' => ∃ r, x = some r ∧ o.certain h = some (r, h'))
      (throwing fails o) h := by
  obtain ⟨⟨r, h'⟩, hr⟩ := Option.isSome_iff_exists.mp hc
  have hsame : throwing fails o = (perform o).bind fun r => .ret (some r) := by
    cases o with
    | retire a => cases hr
    | _ => rfl
  rw [hsame]
  apply Until.act (Op.isSome_of_certain hc)
  intro r' h'' hstep
  exact Ends.ret ⟨r', rfl, Op.certain_of_perform hc hstep⟩

/-- The end of an erasure that has unlinked the node `target`. -/
theorem retiring_ends {target : Ptr} {X : Option Bool × Heap Ptr Key → Prop}
    (hthrow : fails = true → X (none, h))
    (hdone : fails = false → X (some true, { h with
      retired := h.retired ++ [target], count := h.count - 1 })) :
    Ends sequential (fun x h' => X (x, h')) ((Prog.act (.retire target) fun _ =>
      .act .subCount fun _ => .ret true : Code Ptr Key Bool).attempt (throwing fails)) h := by
  cases fails with
  | true => exact Ends.ret (hthrow rfl)
  | false =>
    refine .act rfl ?_
    rintro _ _ ⟨⟩
    refine .act rfl ?_
    rintro _ _ ⟨⟩
    exact Ends.ret (hdone rfl)

/-- `erase_node` loses count of the elements exactly where it finds its node and `retire` throws. -/
theorem eraseThrowing_returns (hr : Reached cmp h) (k : Key) (fails : Bool) :
    Returns (eraseThrowing cmp fails k h) fun r =>
      r.2.CountExact cmp ↔ ¬ (fails = true ∧ ∃ a, h.Finds cmp k a) := by
  obtain ⟨m, t, hq⟩ := hr.quiet
  have hfound : (∃ a, h.Finds cmp k a) ↔ (m.erase k).1 = true := by
    show _ ↔ (lookup cmp k m.entries).isSome = true
    rw [← hq.entries, ← Option.isSome_map (f := Prod.snd), Option.isSome_iff_exists]
    exact exists_congr fun a => hq.rest.finds_iff hq.sorted_entries
  have hends : Ends sequential (fun (_ : Option Bool) (h' : Heap Ptr Key) =>
      h'.CountExact cmp ↔ ¬ (fails = true ∧ ∃ a, h.Finds cmp k a))
      ((eraseNode cmp k).attempt (throwing fails)) h := by
    refine (Until.attempt (R := Eq) ?_ (eraseNode_until (k := k) small_ptr hq) rfl).trans ?_
    · rintro β o h _ hpre rfl
      apply Ends.mono (throwing_ends hpre)
      intro x h' hx
      obtain ⟨r, rfl, hstep⟩ := hx
      exact ⟨r, h', rfl, hstep, rfl⟩
    · intro q _ hexit
      obtain ⟨p, h', rfl, hexit, rfl⟩ := hexit
      rw [hfound]
      cases hexit with
      | absent hm _ hq' =>
        rw [hm]
        refine Ends.ret (iff_of_true ?_ (by simp))
        exact (hq'.rest.countExact_iff hq'.sorted_entries).mpr hq'.count
      | @present h' t' target A B hm _ hcount ht ht' hq' =>
        have hs := hq'.sorted_entries
        obtain ⟨hroot, hfits, hnodup, hfree, hsound⟩ := hq'.rest
        have hR : Rest h' t' := ⟨hroot, hfits, hnodup, hfree, hsound⟩
        have hR' : Rest { h' with retired := h'.retired ++ [target], count := h'.count - 1 } t' :=
          ⟨hroot, hfits, hnodup, hfree, hsound⟩
        rw [hm]
        refine retiring_ends (X := fun r => r.2.CountExact cmp ↔ ¬ (fails = true ∧ true = true))
          (fun hf => ?_) fun hf => ?_
        · -- the node is unlinked and counted
          refine iff_of_false ?_ (by simp [hf])
          have hcount' : h'.count - 1 = t'.addrs.length := hq'.count
          intro hexact'
          have := (hR.countExact_iff hs).mp hexact'
          omega
        · refine iff_of_true ?_ (by simp [hf])
          exact (hR'.countExact_iff hs).mpr hq'.count
  exact Ends.returns sequential_executes hends

end Tree

end Ordered

/-! ## The list -/

namespace Unordered

variable {Addr Key : Type} [DecidableEq Addr]

/-- `find_node(k)` answers the node `a`, where nothing throws. -/
def Heap.Finds (C : Config Key) (h : Heap Addr Key) (k : Key) (a : Addr) : Prop :=
  ∃ fuel w, ((findNode C k (C.mixedHash k) (soKeyOf (C.mixedHash k))).attempt throwing).run
    (fun o w => o.alone w) fuel ⟨h, fun _ => [], []⟩ = some (some (some a), w)

/-- `count_` is the number of elements that `find_node` reports. -/
def Heap.CountExact (C : Config Key) (h : Heap Addr Key) : Prop :=
  h.count = { a | ∃ k, h.Finds C k a }.ncard

/-- `erase_node(k)`; the answer `none` is an exception. -/
def eraseThrowing (C : Config Key) (k : Key) (w : World Addr Key) (fuel : Nat) :
    Option (Option Bool × World Addr Key) :=
  ((eraseNode C k (C.mixedHash k) (soKeyOf (C.mixedHash k))).attempt throwing).run
    (fun o w => o.alone w) fuel w

section List

variable {C : Config Key} {h h' : Heap Addr Key} {w w' : World Addr Key} {N N' : List Addr} {k : Key}
  {a : Addr} {m : Nat}

theorem Stores.finds_iff (hC : C.Lawful) (hs : Stores C h N) (hpick : h.Allocates) :
    h.Finds C k a ↔ h.lookup C N k = some a := by
  have hfind := ends_unbounded (findNode_finishes (w := ⟨h, fun _ => [], []⟩) hC hpick hs k)
  have hcalm : Decisions.Calm fun _ => [] := fun _ _ => List.not_mem_nil
  constructor
  · intro hf
    obtain ⟨fuel, w', hrun⟩ := hf
    obtain ⟨N', new, -, hr⟩ := Ends.of_run Solo.of_executes hfind hrun
    exact hr.symm
  · intro hlook
    obtain ⟨fuel, r, w', hrun, hr⟩ := Ends.runs Solo.of_executes hfind
    cases r with
    | none => exact absurd hr.starved hcalm.not_starved
    | some r =>
      obtain ⟨N', new, -, rfl⟩ := hr
      exact ⟨fuel, w', hlook ▸ hrun⟩

/-- Every regular node is found by its own key. -/
theorem Stores.found_eq (hC : C.Lawful) (hs : Stores C h N) (hpick : h.Allocates) :
    { a | ∃ k, h.Finds C k a } = { a | a ∈ h.regular N } := by
  ext a
  constructor
  · intro hf
    obtain ⟨k, hk⟩ := hf
    have hlook := lookup_some ((hs.finds_iff hC hpick).mp hk)
    exact Heap.mem_regular.mpr ⟨hlook.1, hlook.2.1⟩
  · intro ha
    obtain ⟨hN, hr⟩ := Heap.mem_regular.mp ha
    exact ⟨h.key a, (hs.finds_iff hC hpick).mpr (hs.lookup_eq hC hN hr (hC.refl _))⟩

theorem Stores.countExact_iff (hC : C.Lawful) (hs : Stores C h N) (hpick : h.Allocates) :
    h.CountExact C ↔ h.count = (h.regular N).length := by
  unfold Heap.CountExact
  have hnodup : (h.regular N).Nodup := hs.nodup.filter _
  rw [hs.found_eq hC hpick, ncard_mem hnodup]

/-- An allocation that throws leaves the elements and their number. -/
theorem Starves.elements (hst : Starves C w w' N m) (hs : Stores C w.heap N) :
    ∃ N', Stores C w'.heap N' ∧ w'.heap.regular N' = w.heap.regular N ∧
      w'.heap.count = w.heap.count ∧ w'.heap.pick = w.heap.pick := by
  obtain ⟨u, N', new, hg, -, he⟩ := hst.grown
  have hreg := hg.regular hs
  cases he with
  | node _ => exact ⟨N', hg.stores, hreg, hg.agrees.count, hg.agrees.pick⟩
  | blank _ _ =>
    refine ⟨N', ?_, hreg, hg.agrees.count, hg.agrees.pick⟩
    exact hg.stores.congr (fun _ _ => rfl) (fun _ _ => rfl) (fun _ _ _ => rfl)
      (fun a ha => Finset.mem_insert_of_mem (hg.stores.alive a ha)) ⟨rfl, rfl, rfl, rfl, rfl⟩

/-- The count is exact in the second heap as in the first one, up to the erased elements. -/
theorem Stores.countExact_of (hC : C.Lawful) (hs : Stores C h N) (hpick : h.Allocates)
    (hexact : h.CountExact C) (hs' : Stores C h' N') (hpick' : h'.pick = h.pick) :
    h'.CountExact C ↔
      h'.count - (h'.regular N').length = h.count - (h.regular N).length := by
  have hcount := (hs.countExact_iff hC hpick).mp hexact
  have hallocates : h'.Allocates := by
    unfold Heap.Allocates
    rw [hpick']
    exact hpick
  rw [hs'.countExact_iff hC hallocates, hcount]
  omega

/-- `erase_node` loses count of the elements exactly where it finds its node and `retire` throws. -/
theorem eraseThrowing_returns (hC : C.Lawful) (hb : Between C w N)
    (hexact : w.heap.CountExact C) (k : Key) :
    Returns (eraseThrowing C k w) fun r => r.2.heap.CountExact C ↔
      ¬ (w.choices.head .retire = true ∧ ¬ w.choices.Starved (w.heap.lack (C.mixedHash k)) ∧
        ∃ a, w.heap.Finds C k a) := by
  have hs := hb.stores
  have hpick := hb.allocates
  have hends := ends_unbounded (eraseNode_finishes hC hpick hs k)
  apply Returns.mono (Ends.returns Solo.of_executes hends)
  intro r he
  obtain ⟨x, w'⟩ := r
  simp only [hs.finds_iff hC hpick]
  cases he with
  | starved hst =>
    obtain ⟨N', hs', hreg, hcount, hpick'⟩ := hst.elements hs
    refine iff_of_true ((hs.countExact_of hC hpick hexact hs' hpick').mpr ?_) ?_
    · rw [hreg, hcount]
    · exact fun hbad => hbad.2.1 hst.starved
  | absent hp hnone =>
    refine iff_of_true ((hs.countExact_of hC hpick hexact hp.stores hp.agrees.pick).mpr ?_) ?_
    · rw [hp.regular hs, hp.agrees.count]
    · intro hbad
      obtain ⟨a, ha⟩ := hbad.2.2
      rw [hnone] at ha
      cases ha
  | @present x u w' A B new p t hp hl _ her =>
    have htr : isRegular (u.heap.soKey t) = true := by
      rw [hp.soKey t (hs.alive t (lookup_some hl).1)]
      exact (lookup_some hl).2.1
    have hs' := hp.stores.unlinked htr
    have hlen := (Heap.regular_perm (A := A) (B := B) (p := p) htr).length_eq
    rw [hp.regular hs, List.length_cons] at hlen
    have hretire : u.choices.head .retire = w.choices.head .retire := by
      unfold Decisions.head
      rw [hp.choices.other .retire (by decide) (by decide) (by decide)]
    have hspent : ¬ w.choices.Starved (w.heap.lack (C.mixedHash k)) := by
      rw [← hp.length]
      exact hp.choices.not_starved
    have hcount := hp.agrees.count
    unfold Erased at her
    split at her
    · obtain ⟨hfalse, rfl⟩ := her
      have hs' : Stores C ((u.unlinked p t B).retiring t).heap (A ++ p :: B) :=
        hs'.congr (fun _ _ => rfl) (fun _ _ => rfl) (fun _ _ _ => rfl) hs'.alive
          ⟨rfl, rfl, rfl, rfl, rfl⟩
      refine iff_of_true ((hs.countExact_of hC hpick hexact hs' hp.agrees.pick).mpr ?_) ?_
      · show u.heap.count - 1 - ((u.heap.regular (A ++ p :: B)).length : Int) = _
        omega
      · intro hbad
        rw [hretire, hbad.1] at hfalse
        cases hfalse
    · -- the node is unlinked and counted
      obtain ⟨htrue, rfl⟩ := her
      refine iff_of_false ?_ (not_not.mpr ⟨hretire ▸ htrue, hspent, t, hl⟩)
      intro hexact'
      have hsame := (hs.countExact_of hC hpick hexact hs' hp.agrees.pick).mp hexact'
      replace hsame : u.heap.count - ((u.heap.regular (A ++ p :: B)).length : Int) = _ := hsame
      omega

end List

end Unordered

/-! ## Both engines -/

/-- Where `count_` is exact, an erase returns or throws, and `count_` is exact again unless the erase
has unlinked its node and `retire` throws. -/
theorem erase_countExact_iff {Addr Key : Type} [DecidableEq Addr] {C : Unordered.Config Key}
    (hC : C.Lawful) (cmp : Key → Key → Bool) [Maps.StrictWeakOrder cmp] (k : Key) :
    (∀ s : Unordered.Loaded Addr Key, Unordered.Reached C s → s.world.heap.CountExact C →
      Returns (Unordered.eraseThrowing C k s.world) fun r => r.2.heap.CountExact C ↔
        ¬ (s.world.choices.head .retire = true ∧
          ¬ s.world.choices.Starved (s.world.heap.lack (C.mixedHash k)) ∧
          ∃ a, s.world.heap.Finds C k a)) ∧
    ∀ (h : Ordered.Heap Ordered.Ptr Key) (fails : Bool), Ordered.Reached cmp h →
      h.CountExact cmp ∧ Returns (Ordered.eraseThrowing cmp fails k h) fun r =>
        r.2.CountExact cmp ↔ ¬ (fails = true ∧ ∃ a, h.Finds cmp k a) := by
  constructor
  · intro s hs hexact
    obtain ⟨N, hN⟩ := (hs.stored hC).between
    exact Unordered.eraseThrowing_returns hC hN hexact k
  · intro h fails hr
    obtain ⟨m, t, hq⟩ := hr.quiet
    exact ⟨(hq.rest.countExact_iff hq.sorted_entries).mpr hq.count,
      Ordered.eraseThrowing_returns hr k fails⟩

section Elements

open Unordered Ordered

/-- A list with the element 1, where the next `retire` throws. -/
theorem list_element : ∃ s : Loaded Nat Nat, Unordered.Reached colliding s ∧
    s.world.heap.CountExact colliding ∧ s.world.choices.head .retire = true ∧
    ¬ s.world.choices.Starved (s.world.heap.lack (colliding.mixedHash 1)) ∧
    ∃ a, s.world.heap.Finds colliding 1 a := by
  let s₀ : Loaded Nat Nat :=
    .new (fun _ => 0) 0 pickAbove (fun c => if c = .retire then [true] else []) (floatFactor 1)
  obtain ⟨⟨r, s⟩, hrun, hretire, hspent, hcount, hhead, hn0, hn1, hr0, hr1, hkey⟩ :
      ∃ x ∈ (Job.call (.emplace 1)).run colliding 80 s₀,
        x.2.world.choices.head .retire = true ∧
        ¬ x.2.world.choices.Starved (x.2.world.heap.lack (colliding.mixedHash 1)) ∧
        x.2.world.heap.count = 1 ∧ x.2.world.heap.bucket x.2.world.heap.table 0 = some 0 ∧
        x.2.world.heap.next 0 = .plain (some 1) ∧ x.2.world.heap.next 1 = .plain none ∧
        isRegular (x.2.world.heap.soKey 0) = false ∧ isRegular (x.2.world.heap.soKey 1) = true ∧
        x.2.world.heap.key 1 = 1 := by decide +kernel
  have hs : Unordered.Reached colliding s := .job (.new pickAbove_fresh) hrun
  obtain ⟨N, hb⟩ := (hs.stored colliding_lawful).between
  have hlinked : Linked s.world.heap.next [0, 1] := ⟨hn0, hn1, trivial⟩
  obtain ⟨d, hd, hd'⟩ := hb.stores.head
  obtain rfl : N = [0, 1] := by
    apply hb.stores.linked.unique hlinked
    rw [hd, ← hd', hhead]
    rfl
  have hregular : s.world.heap.regular [0, 1] = [1] := by
    rw [Heap.regular_cons_neg hr0, Heap.regular_cons_pos hr1]
    rfl
  refine ⟨s, hs, ?_, hretire, hspent, 1, ?_⟩
  · rw [hb.stores.countExact_iff colliding_lawful hb.allocates, hregular, hcount]
    rfl
  · rw [hb.stores.finds_iff colliding_lawful hb.allocates]
    apply hb.stores.lookup_eq colliding_lawful (by simp) hr1
    rw [hkey]
    rfl

/-- A tree with the element 5. -/
theorem tree_element : ∃ h : Ordered.Heap Ptr Nat, Ordered.Reached natLess h ∧
    ∃ a, h.Finds natLess 5 a := by
  have hf : Fresh (Maps.SortedMap.empty : Maps.SortedMap natLess Ptr) [.insert (ptr 1) 5] := by
    decide
  obtain ⟨h, t, hr, ht, hentries⟩ := Ordered.Reached.of_calls natLess (fun _ => 0) hf
  obtain ⟨m, t', hq⟩ := hr.quiet
  obtain rfl := ht.unique hq.stores
  refine ⟨h, hr, ptr 1, (hq.rest.finds_iff hq.sorted_entries).mpr ?_⟩
  rw [hentries]
  rfl

/-- An element whose `retire` throws is gone and still counted. -/
theorem erase_loses_count :
    (∃ s : Loaded Nat Nat, Unordered.Reached colliding s ∧ s.world.heap.CountExact colliding ∧
      ∃ fuel r, Unordered.eraseThrowing colliding 1 s.world fuel = some r ∧
        ¬ r.2.heap.CountExact colliding) ∧
    ∃ h : Ordered.Heap Ptr Nat, Ordered.Reached natLess h ∧ h.CountExact natLess ∧
      ∃ fuel r, Ordered.eraseThrowing natLess true 5 h fuel = some r ∧
        ¬ r.2.CountExact natLess := by
  constructor
  · obtain ⟨s, hs, hexact, hbad⟩ := list_element
    obtain ⟨N, hN⟩ := (hs.stored colliding_lawful).between
    obtain ⟨r, hr, ⟨F, hF⟩, -⟩ := Unordered.eraseThrowing_returns colliding_lawful hN hexact 1
    exact ⟨s, hs, hexact, F, r, hF F le_rfl, fun hr' => hr.mp hr' hbad⟩
  · obtain ⟨h, hr, hfound⟩ := tree_element
    obtain ⟨m, t, hq⟩ := hr.quiet
    obtain ⟨r, hr', ⟨F, hF⟩, -⟩ := Ordered.eraseThrowing_returns hr 5 true
    exact ⟨h, hr, (hq.rest.countExact_iff hq.sorted_entries).mpr hq.count, F, r, hF F le_rfl,
      fun hexact => hr'.mp hexact ⟨rfl, hfound⟩⟩

/-- Where no `retire` throws, the element is counted out. -/
theorem erase_countExact_element : ∃ h : Ordered.Heap Ptr Nat, (∃ a, h.Finds natLess 5 a) ∧
    Returns (Ordered.eraseThrowing natLess false 5 h) fun r => r.2.CountExact natLess := by
  obtain ⟨h, hr, hfound⟩ := tree_element
  refine ⟨h, hfound, ?_⟩
  have hlaw := (@erase_countExact_iff Nat Nat _ colliding colliding_lawful natLess _ 5).2 h false hr
  apply hlaw.2.mono
  intro r hexact
  exact hexact.mpr fun hbad => by cases hbad.1

end Elements

end MpmcMap
