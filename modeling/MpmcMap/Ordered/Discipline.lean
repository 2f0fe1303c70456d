import MpmcMap.Ordered.Locks
import MpmcMap.Ordered.Values

/-!
# Paths and locks of updates

The calls of `insert_node` and `erase_node` in a sequential run, performed by a thread that checks
every action. A check that fails leaves the run without a result, so a run that returns has met them
all; and what it returns is what the thread returns that checks nothing.
-/

namespace MpmcMap.Ordered

open Conc RedBlack Maps

variable {Key : Type}

/-! ## Checks -/

section Checks

variable {Addr : Type} [DecidableEq Addr]

/-- The actions of a thread that checks its path stack: it is written below `MAX_HEIGHT` only, and
no capacity test finds it full. -/
def Op.bounded {β : Type} (o : Op Addr Key β) (h : Heap Addr Key) : Option (β × Heap Addr Key) :=
  match o with
  | .writePath i => if i < MAX_HEIGHT then some ((), h) else none
  | .pathFull => none
  | o => o.apply 0 h

/-- The conditions on locks and colors. A color is written under the lock of its node; without it,
`fixup_delete` blackens a node that is red, and the root is blackened. -/
def Op.disciplined {β : Type} (o : Op Addr Key β) (h : Heap Addr Key) : Prop :=
  match o with
  | .storeColor a _ => h.locked a = some 0
  | .blackenX a => h.color a = .RED
  | .blackenTop a => h.root = some a
  | o => o.orderly h

instance {β : Type} (o : Op Addr Key β) (h : Heap Addr Key) : Decidable (o.orderly h) :=
  match o with
  | .lock a => inferInstanceAs (Decidable (h.locked a = none))
  | .unlock a | .storeChild a _ _ => inferInstanceAs (Decidable (h.locked a = some 0))
  | .storeRoot _ =>
    match hr : h.root with
    | none => .isTrue (by simp [Op.orderly, hr])
    | some r => decidable_of_iff (h.locked r = some 0) (by simp [Op.orderly, hr])
  | .pathFull => inferInstanceAs (Decidable False)
  | .loadRoot | .casRoot _ _ | .reloadRoot _ | .loadChild _ _ | .loadLocked _ | .loadColor _
  | .storeColor _ _ | .blackenX _ | .blackenTop _ | .loadKey _ | .addCount | .subCount | .loadCount
  | .storeCount _ | .retire _ | .freeNode _ | .writePath _ | .fault =>
    inferInstanceAs (Decidable True)

instance {β : Type} (o : Op Addr Key β) (h : Heap Addr Key) : Decidable (o.disciplined h) :=
  match o with
  | .storeColor a _ => inferInstanceAs (Decidable (h.locked a = some 0))
  | .blackenX a => inferInstanceAs (Decidable (h.color a = .RED))
  | .blackenTop a => inferInstanceAs (Decidable (h.root = some a))
  | .lock a => inferInstanceAs (Decidable (h.locked a = none))
  | .unlock a | .storeChild a _ _ => inferInstanceAs (Decidable (h.locked a = some 0))
  | .storeRoot v => inferInstanceAs (Decidable ((Op.storeRoot v : Op Addr Key Unit).orderly h))
  | .pathFull => inferInstanceAs (Decidable False)
  | .loadRoot | .casRoot _ _ | .reloadRoot _ | .loadChild _ _ | .loadLocked _ | .loadColor _
  | .loadKey _ | .addCount | .subCount | .loadCount | .storeCount _ | .retire _
  | .freeNode _ | .writePath _ | .fault => inferInstanceAs (Decidable True)

/-- The actions of a thread that checks its locks and colors. -/
def Op.watched {β : Type} (o : Op Addr Key β) (h : Heap Addr Key) : Option (β × Heap Addr Key) :=
  if o.disciplined h then o.perform h else none

/-- The same, with what the last action has found. -/
def Op.remembered {β : Type} (o : Op Addr Key β) (s : Heap Addr Key × Found Addr) :
    Option (β × Heap Addr Key × Found Addr) :=
  (o.watched s.1).map fun x => (x.1, x.2, o.found x.1)

/-- What has been found is still there. -/
def Found.There (h : Heap Addr Key) : Found Addr → Prop
  | .nothing => True
  | .red a => h.color a = .RED
  | .top a => h.root = some a

variable {β : Type} {o : Op Addr Key β} {h h' : Heap Addr Key} {s s' : Heap Addr Key × Found Addr}
  {r : β}

theorem Op.perform_of_bounded (ho : o.bounded h = some (r, h')) : o.perform h = some (r, h') := by
  cases o with
  | writePath i =>
    replace ho : (if i < MAX_HEIGHT then some ((), h) else none) = some (r, h') := ho
    split at ho
    case isTrue hi =>
      unfold Op.perform
      rw [if_pos (by simpa [Op.inBounds] using hi)]
      exact ho
    case isFalse => cases ho
  | pathFull => cases ho
  | _ => exact ho

theorem Op.bounded_of_perform (hok : o.orderly h) (ho : o.perform h = some (r, h')) :
    o.bounded h = some (r, h') := by
  cases o with
  | writePath i =>
    unfold Op.perform at ho
    split at ho
    case isTrue hi =>
      show (if i < MAX_HEIGHT then some ((), h) else none) = some (r, h')
      rw [if_pos (by simpa [Op.inBounds] using hi)]
      exact ho
    case isFalse => cases ho
  | pathFull => exact hok.elim
  | _ => exact ho

theorem Op.perform_of_watched (ho : o.watched h = some (r, h')) : o.perform h = some (r, h') := by
  unfold Op.watched at ho
  split at ho
  case isTrue => exact ho
  case isFalse => cases ho

theorem Op.watched_of_remembered (ho : o.remembered s = some (r, s')) :
    o.watched s.1 = some (r, s'.1) ∧ s'.2 = o.found r := by
  obtain ⟨x, hx, heq⟩ := Option.map_eq_some_iff.mp ho
  obtain ⟨rfl, rfl⟩ := Prod.mk.inj heq
  exact ⟨hx, rfl⟩

theorem Op.remembered_of_perform (hok : o.disciplined s.1) (ho : o.perform s.1 = some (r, h')) :
    o.remembered s = some (r, h', o.found r) := by
  unfold Op.remembered Op.watched
  rw [if_pos hok, ho]
  rfl

/-- What an action finds is there after it. -/
theorem Op.found_there (ho : o.perform h = some (r, h')) : (o.found r).There h' := by
  cases o with
  | loadColor a =>
    cases ho
    cases hc : h.color a with
    | RED => exact hc
    | BLACK => trivial
  | loadRoot =>
    cases ho
    cases hroot : h.root with
    | none => trivial
    | some a => exact hroot
  | casRoot expected desired =>
    simp only [Op.perform, Op.inBounds, Op.apply, if_true] at ho
    split at ho
    · cases ho
      cases desired with
      | none => trivial
      | some a => rfl
    · cases ho
      cases desired with
      | none => trivial
      | some a => trivial
  | _ => trivial

/-- The nodes that the thread holds. -/
def Heap.held (h : Heap Addr Key) : Set Addr := { a | h.locked a = some 0 }

theorem Heap.held_lock (h : Heap Addr Key) (a : Addr) :
    (h.setLocked a (some 0)).held = insert a h.held := by
  ext b
  show (h.setLocked a (some 0)).locked b = some 0 ↔ b = a ∨ h.locked b = some 0
  by_cases hb : b = a
  · rw [hb, Heap.setLocked_same]
    simp
  · rw [Heap.setLocked_ne _ _ hb]
    simp [hb]

theorem Heap.held_unlock (h : Heap Addr Key) (a : Addr) :
    (h.setLocked a none).held = h.held \ {a} := by
  ext b
  show (h.setLocked a none).locked b = some 0 ↔ h.locked b = some 0 ∧ b ≠ a
  by_cases hb : b = a
  · rw [hb, Heap.setLocked_same]
    simp
  · rw [Heap.setLocked_ne _ _ hb]
    simp [hb]

/-- What an action does to the locks of its thread. -/
theorem Op.step_held (hok : o.orderly h) (ho : o.perform h = some (r, h')) (found : Found Addr) :
    holding.step o ⟨h.held, found⟩ r ⟨h'.held, o.found r⟩ := by
  refine ⟨rfl, ?_⟩
  cases o with
  | lock a =>
    have hfree : h.locked a = none := hok
    have hset : (Op.lock a).perform h = some ((), h.setLocked a (some 0)) := by
      simp [Op.perform, Op.inBounds, Op.apply, hfree]
    obtain ⟨-, rfl⟩ := Prod.mk.inj (Option.some.inj (hset.symm.trans ho))
    refine ⟨?_, h.held_lock a⟩
    show ¬ h.locked a = some 0
    simp [hfree]
  | unlock a =>
    cases ho
    exact h.held_unlock a
  | casRoot expected desired =>
    show h'.held = h.held
    unfold Op.perform Op.apply at ho
    simp only [Op.inBounds, if_true] at ho
    split at ho <;> cases ho <;> rfl
  | writePath i =>
    show h'.held = h.held
    unfold Op.perform at ho
    split at ho <;> cases ho
    rfl
  | fault => cases ho
  | _ =>
    cases ho
    rfl

end Checks

/-! ## The updates -/

/-- The actions of a single thread that meets the conditions on locks and on the path stack. -/
def orderlyCall {Addr : Type} [DecidableEq Addr] : Solo (Op Addr Key) (Heap Addr Key) :=
  sequential.strict Op.orderly

section Updates

variable {α : Type} {cmp : Key → Key → Bool} [StrictWeakOrder cmp] {h : Heap Ptr Key} {n : Ptr}
  {k : Key} {p : Code Ptr Key α} {X : Code Ptr Key α → Heap Ptr Key → Prop}
  {Q : α → Heap Ptr Key → Prop}

theorem orderly_orderlyCall (hp : Until orderly X p h) : Until orderlyCall X p h := by
  apply hp.lift
  · exact fun _ _ hpre => ⟨Op.isSome_of_certain hpre.1, hpre.2⟩
  · exact fun _ _ _ _ hpre hstep => Op.certain_of_perform hpre.1 hstep

theorem insertNode_call (hr : Reached cmp h) (hn : h.Unlinked n) :
    Ends orderlyCall (fun _ h' => ∀ a, h'.locked a = none) (insertNode cmp n k) (h.create n k) := by
  obtain ⟨m, t, hq⟩ := hr.quiet
  have hnt : n ∉ t.addrs := hn t hq.stores
  have hchild : ∀ d, (h.create n k).child n d = none := by
    intro d
    show Function.update h.child n (fun _ => none) n d = none
    rw [Function.update_self]
  have hins := insertNode_orderly small_ptr (hq.create hnt) hnt hchild (Function.update_self _ _ _)
  apply Ends.mono (orderly_orderlyCall hins)
  intro b h' hpost
  obtain ⟨-, -, t', hq'⟩ := hpost
  exact hq'.rest.unlocked

theorem eraseNode_call (hr : Reached cmp h) :
    Ends orderlyCall (fun _ h' => ∀ a, h'.locked a = none) (eraseNode cmp k) h := by
  obtain ⟨m, t, hq⟩ := hr.quiet
  apply (orderly_orderlyCall (eraseNode_orderly small_ptr hq)).trans
  intro p h' hexit
  cases hexit with
  | absent _ _ hq' => exact Ends.ret hq'.rest.unlocked
  | present _ _ _ _ _ hq' =>
    -- the retirement and the count remain
    refine .act ⟨rfl, trivial⟩ ?_
    rintro _ _ ⟨⟩
    refine .act ⟨rfl, trivial⟩ ?_
    rintro _ _ ⟨⟩
    exact Ends.ret hq'.rest.unlocked

/-- With enough steps the program returns; its writes to the path stack are within the bounds, and
no capacity test finds the stack full. -/
def PathFits (p : Code Ptr Key α) (h : Heap Ptr Key) : Prop :=
  ∃ N, ∀ fuel, N ≤ fuel → ∃ r, p.run (fun o h => o.bounded h) fuel h = some r ∧
    p.run (fun o h => o.perform h) fuel h = some r

omit [StrictWeakOrder cmp] in
theorem pathFits_of_ends (hp : Ends orderlyCall Q p h) : PathFits p h := by
  have hb : Ends (Solo.of fun o h => o.bounded h) Q p h := by
    apply Until.lift hp
    · intro β o h hpre
      obtain ⟨⟨r, h'⟩, hr⟩ := Option.isSome_iff_exists.mp hpre.1
      exact Option.isSome_iff_exists.mpr ⟨_, Op.bounded_of_perform hpre.2 hr⟩
    · exact fun _ _ _ _ _ hstep => Op.perform_of_bounded hstep
  obtain ⟨N, hN⟩ := hb.checked (π := id) fun _ _ _ _ => Op.perform_of_bounded
  refine ⟨N, fun fuel hfuel => ?_⟩
  obtain ⟨a, h', hrun, hplain, -⟩ := hN fuel hfuel
  exact ⟨(a, h'), hrun, hplain⟩

/-- The path stack of an update never overflows. -/
theorem updates_pathFits (cmp : Key → Key → Bool) [StrictWeakOrder cmp] (h : Heap Ptr Key)
    (hr : Reached cmp h) :
    (∀ n k, h.Unlinked n → PathFits (insertNode cmp n k) (h.create n k)) ∧
    ∀ k, PathFits (eraseNode cmp k) h := by
  constructor
  · intro n k hn
    exact pathFits_of_ends (insertNode_call hr hn)
  · intro k
    exact pathFits_of_ends (eraseNode_call hr)

/-- A tree of two keys, which does not contain the node `ptr 3`. -/
theorem twoKeys : ∃ (h : Heap Ptr Nat) (t : PtrTree Ptr), Reached natLess h ∧ h.Stores t ∧
    entriesOf h.key t = [(3, ptr 2), (5, ptr 1)] ∧ h.Unlinked (ptr 3) := by
  have hf : Fresh (SortedMap.empty : SortedMap natLess Ptr)
      [.insert (ptr 1) 5, .insert (ptr 2) 3] := by decide
  obtain ⟨h, t, hr, ht, hentries⟩ := Reached.of_calls natLess (fun _ => 0) hf
  refine ⟨h, t, hr, ht, hentries, ?_⟩
  intro t' ht'
  obtain rfl := ht.unique ht'
  have haddrs := congrArg (List.map Prod.snd) hentries
  rw [entriesOf, List.map_map] at haddrs
  replace haddrs : t.addrs.map id = [ptr 2, ptr 1] := haddrs
  rw [List.map_id] at haddrs
  rw [haddrs]
  decide

/-- A tree of two nodes, a third key to insert and the root to erase. -/
theorem updates_pathFits_run : ∃ (h : Heap Ptr Nat) (t : PtrTree Ptr), h.Stores t ∧
    entriesOf h.key t = [(3, ptr 2), (5, ptr 1)] ∧
    PathFits (insertNode natLess (ptr 3) 4) (h.create (ptr 3) 4) ∧
    PathFits (eraseNode natLess 5) h := by
  obtain ⟨h, t, hr, ht, hentries, hn⟩ := twoKeys
  obtain ⟨hinsert, herase⟩ := updates_pathFits natLess h hr
  exact ⟨h, t, ht, hentries, hinsert (ptr 3) 4 hn, herase 5⟩

/-- With enough steps the program returns; it has met the conditions on locks and colors, and nothing
is locked any more. -/
def Disciplined (p : Code Ptr Key α) (h : Heap Ptr Key) : Prop :=
  ∃ N, ∀ fuel, N ≤ fuel → ∃ r h', p.run (fun o h => o.watched h) fuel h = some (r, h') ∧
    p.run (fun o h => o.perform h) fuel h = some (r, h') ∧ ∀ a, h'.locked a = none

omit [StrictWeakOrder cmp] in
theorem disciplined_of_ends (hp : Ends orderlyCall (fun _ h' => ∀ a, h'.locked a = none) p h)
    (hpaints : Paints p h.held fun _ _ => True) : Disciplined p h := by
  have hremembered : Ends (Solo.of fun o s => o.remembered s)
      (fun _ s => ∀ a, s.1.locked a = none) p (h, .nothing) := by
    refine Until.join (N := holding) (π := Prod.fst) (ρ := fun s => ⟨s.1.held, s.2⟩)
      (J := fun s => s.2.There s.1) (s := (h, .nothing)) ?_ ?_ trivial hp (hpaints .nothing)
    · intro β o s hthere hpre hhold
      obtain ⟨⟨r, h'⟩, hr⟩ := Option.isSome_iff_exists.mp hpre.1
      have hok : o.disciplined s.1 := by
        cases o with
        | storeColor => exact hhold
        | blackenX a =>
          rw [show s.2 = .red a from hhold] at hthere
          exact hthere
        | blackenTop a =>
          rw [show s.2 = .top a from hhold] at hthere
          exact hthere
        | _ => exact hpre.2
      exact Option.isSome_iff_exists.mpr ⟨_, Op.remembered_of_perform hok hr⟩
    · intro β o s r s' _ hpre hstep
      obtain ⟨hw, hfound⟩ := Op.watched_of_remembered hstep
      have hr := Op.perform_of_watched hw
      rw [show s' = (s'.1, o.found r) from Prod.ext rfl hfound]
      exact ⟨hr, Op.step_held hpre.2 hr s.2, Op.found_there hr⟩
  obtain ⟨N, hN⟩ := hremembered.checked (π := Prod.fst)
    fun _ _ _ _ hact => (Op.watched_of_remembered hact).1
  refine ⟨N, fun fuel hfuel => ?_⟩
  obtain ⟨r, s', -, hrun, hfree⟩ := hN fuel hfuel
  exact ⟨r, s'.1, hrun, Prog.run_of_checked (π := id) (fun _ _ _ _ => Op.perform_of_watched) hrun,
    hfree⟩

/-- In a tree without locks the updates return, meet the conditions on locks and leave no lock. -/
theorem updates_disciplined (cmp : Key → Key → Bool) [StrictWeakOrder cmp] (h : Heap Ptr Key)
    (hr : Reached cmp h) :
    (∀ a, h.locked a = none) ∧
    (∀ n k, h.Unlinked n → Disciplined (insertNode cmp n k) (h.create n k)) ∧
    ∀ k, Disciplined (eraseNode cmp k) h := by
  refine ⟨?_, ?_, ?_⟩
  · obtain ⟨m, t, hq⟩ := hr.quiet
    exact hq.rest.unlocked
  · intro n k hn
    exact disciplined_of_ends (insertNode_call hr hn) (paints_insertNode cmp n k _)
  · intro k
    exact disciplined_of_ends (eraseNode_call hr) (paints_eraseNode cmp k _)

/-- A tree of two keys. -/
theorem updates_disciplined_run : ∃ (h : Heap Ptr Nat) (t : PtrTree Ptr), h.Stores t ∧
    entriesOf h.key t = [(3, ptr 2), (5, ptr 1)] ∧
    Disciplined (insertNode natLess (ptr 3) 4) (h.create (ptr 3) 4) ∧
    Disciplined (eraseNode natLess 5) h := by
  obtain ⟨h, t, hr, ht, hentries, hn⟩ := twoKeys
  obtain ⟨-, hinsert, herase⟩ := updates_disciplined natLess h hr
  exact ⟨h, t, ht, hentries, hinsert (ptr 3) 4 hn, herase 5⟩

end Updates

end MpmcMap.Ordered
