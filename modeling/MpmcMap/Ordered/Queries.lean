import MpmcMap.Conc.Total
import MpmcMap.Ordered.Descent

/-!
# One thread

The engine run by a single thread, and the operations that do not change the tree: search, bounds,
the first key, the size; and `clear_impl`, which gives the whole tree back.
-/

namespace MpmcMap.Ordered

open Conc RedBlack Maps

variable {Addr Key : Type} [DecidableEq Addr]

/-- A write to the array of the path stack is within its bounds. -/
def Op.inBounds {β : Type} : Op Addr Key β → Bool
  | .writePath i => i < MAX_HEIGHT
  | _ => true

/-- The actions of a single thread; a write out of bounds has no outcome. -/
def Op.perform {β : Type} (o : Op Addr Key β) (h : Heap Addr Key) : Option (β × Heap Addr Key) :=
  if o.inBounds then o.apply 0 h else none

/-- The actions of a single thread, as the account of its runs. -/
def sequential : Solo (Op Addr Key) (Heap Addr Key) where
  pre o h := (o.perform h).isSome = true
  step o h r h' := o.perform h = some (r, h')

theorem sequential_executes :
    (sequential : Solo (Op Addr Key) (Heap Addr Key)).Executes fun o h => o.perform h := by
  intro β o h hpre
  obtain ⟨⟨r, h'⟩, hr⟩ := Option.isSome_iff_exists.mp hpre
  exact ⟨r, h', hr, hr⟩

/-- The actions that cannot throw: all of them but `retire`. -/
def Op.certain {β : Type} (o : Op Addr Key β) (h : Heap Addr Key) : Option (β × Heap Addr Key) :=
  match o with
  | .retire _ => none
  | o => o.perform h

/-- The actions of a single thread as long as it retires nothing. -/
def steady : Solo (Op Addr Key) (Heap Addr Key) where
  pre o h := (o.certain h).isSome = true
  step o h r h' := o.certain h = some (r, h')

theorem Op.perform_of_certain {β : Type} {o : Op Addr Key β} {h h' : Heap Addr Key} {r : β}
    (ho : o.certain h = some (r, h')) : o.perform h = some (r, h') := by
  cases o with
  | retire a => cases ho
  | _ => exact ho

theorem Op.certain_of_perform {β : Type} {o : Op Addr Key β} {h h' : Heap Addr Key} {r : β}
    (hc : (o.certain h).isSome = true) (ho : o.perform h = some (r, h')) :
    o.certain h = some (r, h') := by
  obtain ⟨⟨r', h''⟩, hr⟩ := Option.isSome_iff_exists.mp hc
  have := (Op.perform_of_certain hr).symm.trans ho
  obtain ⟨rfl, rfl⟩ := Prod.mk.inj (Option.some.inj this)
  exact hr

theorem Op.isSome_of_certain {β : Type} {o : Op Addr Key β} {h : Heap Addr Key}
    (hc : (o.certain h).isSome = true) : (o.perform h).isSome = true := by
  obtain ⟨⟨r, h'⟩, hr⟩ := Option.isSome_iff_exists.mp hc
  exact Option.isSome_iff_exists.mpr ⟨_, Op.perform_of_certain hr⟩

/-- A run that retires nothing is a run of a single thread. -/
theorem steady_sequential {α : Type} {X : Code Addr Key α → Heap Addr Key → Prop}
    {p : Code Addr Key α} {h : Heap Addr Key} (hp : Until steady X p h) :
    Until sequential X p h := by
  apply hp.lift
  · exact fun _ _ hpre => Op.isSome_of_certain hpre
  · exact fun _ _ _ _ hpre hstep => Op.certain_of_perform hpre hstep

section Rules

variable {α β : Type} {X : Code Addr Key α → Heap Addr Key → Prop} {h h' : Heap Addr Key}
  {o : Op Addr Key β} {r : β} {k : β → Code Addr Key α}

/-- The outcome of an action is the only one. -/
theorem seq_act (ho : o.certain h = some (r, h')) (hk : Until steady X (k r) h') :
    Until steady X (.act o k) h := by
  refine .act (by simp [steady, ho]) ?_
  intro r' h'' hstep
  obtain ⟨rfl, rfl⟩ := Prod.mk.inj (Option.some.inj (ho.symm.trans hstep))
  exact hk

end Rules

/-- An action that a writer may perform has an outcome. -/
theorem Writer.certain_of_pre {W : Writer Addr Key} (ha : W.alone) {β : Type} {o : Op Addr Key β}
    {h : Heap Addr Key} (hpre : W.solo.pre o h) : (o.certain h).isSome = true := by
  have he : W.exact := W.exact_of_alone ha
  cases o with
  | lock a => simp [Op.certain, Op.perform, Op.inBounds, Op.apply, hpre.2 ha]
  | writePath i =>
    simp [Op.certain, Op.perform, Op.inBounds, Op.apply, show i < MAX_HEIGHT from hpre he]
  | pathFull => exact absurd he hpre
  | casRoot | reloadRoot | loadLocked | addCount | subCount | loadCount | storeCount | retire
  | freeNode | fault => exact hpre.elim
  | _ => rfl

/-- The outcome of an action of a single thread is one that the writer allows. -/
theorem Writer.step_of_certain {W : Writer Addr Key} (ha : W.alone) (ht : W.tid = 0) {β : Type}
    {o : Op Addr Key β} {h h' : Heap Addr Key} {r : β} (hpre : W.solo.pre o h)
    (hstep : o.certain h = some (r, h')) : W.solo.step o h r h' := by
  have he : W.exact := W.exact_of_alone ha
  cases o with
  | lock a =>
    simp only [Op.certain, Op.perform, Op.inBounds, Op.apply, hpre.2 ha] at hstep
    cases hstep
    exact congrArg (fun t => h.setLocked a (some t)) ht.symm
  | writePath i =>
    replace hstep : (Op.writePath i).perform h = some (r, h') := hstep
    rw [Op.perform, Op.inBounds, if_pos (decide_eq_true (hpre he))] at hstep
    cases hstep
    rfl
  | pathFull => exact absurd he hpre
  | loadColor a =>
    cases hstep
    refine ⟨.inl rfl, ?_⟩
    rw [Heap.setColor, Function.update_eq_self]
  | loadRoot | loadChild | loadKey =>
    cases hstep
    exact ⟨rfl, rfl⟩
  | storeRoot | storeChild | storeColor | blackenX | blackenTop | unlock =>
    cases hstep
    rfl
  | casRoot | reloadRoot | loadLocked | addCount | subCount | loadCount | storeCount | retire
  | freeNode | fault => exact hpre.elim

/-! ## Locks and paths -/

/-- The conditions on locks and on the path stack: a node is locked only when it is free, unlocked
only by the thread that holds it, and its pointers are written under its lock; `root_` is redirected
under the lock of the root; no path is full. -/
def Op.orderly {β : Type} (o : Op Addr Key β) (h : Heap Addr Key) : Prop :=
  match o with
  | .lock a => h.locked a = none
  | .unlock a => h.locked a = some 0
  | .storeChild a _ _ => h.locked a = some 0
  | .storeRoot _ =>
    match h.root with
    | none => True
    | some r => h.locked r = some 0
  | .pathFull => False
  | _ => True

/-- The actions of a single thread that meets these conditions and retires nothing. -/
def orderly : Solo (Op Addr Key) (Heap Addr Key) := steady.strict Op.orderly

theorem orderly_act {α β : Type} {X : Code Addr Key α → Heap Addr Key → Prop} {h h' : Heap Addr Key}
    {o : Op Addr Key β} {r : β} {k : β → Code Addr Key α} (hok : o.orderly h)
    (ho : o.certain h = some (r, h')) (hk : Until orderly X (k r) h') :
    Until orderly X (.act o k) h := by
  refine .act ⟨by simp [steady, ho], hok⟩ ?_
  intro r' h'' hstep
  obtain ⟨rfl, rfl⟩ := Prod.mk.inj (Option.some.inj (ho.symm.trans hstep))
  exact hk

/-- The root is locked by the writer. -/
def Writer.RootHeld (W : Writer Addr Key) (h : Heap Addr Key) : Prop :=
  ∃ r, h.root = some r ∧ h.locked r = some W.tid

/-- In its section a writer keeps the lock of the root. -/
theorem Writer.rootHeld_step {W : Writer Addr Key} {β : Type} {o : Op Addr Key β}
    {h h' : Heap Addr Key} {r : β} (hr : W.RootHeld h) (hpre : W.solo.pre o h)
    (hstep : W.solo.step o h r h') : W.RootHeld h' := by
  obtain ⟨root, hroot, hlocked⟩ := hr
  cases o with
  | lock a =>
    obtain rfl : h' = h.setLocked a (some W.tid) := hstep
    refine ⟨root, hroot, ?_⟩
    by_cases ha : root = a
    · rw [ha, Heap.setLocked_same]
    · rw [Heap.setLocked_ne _ _ ha, hlocked]
  | unlock a =>
    obtain rfl : h' = h.setLocked a none := hstep
    -- the root is unlocked only where the section ends
    have hne : root ≠ a := by
      rintro rfl
      exact hpre.2.2 hroot
    exact ⟨root, hroot, (Heap.setLocked_ne _ _ hne).trans hlocked⟩
  | storeRoot v =>
    obtain rfl : h' = h.setRoot v := hstep
    obtain ⟨a, rfl, ha⟩ := hpre
    exact ⟨a, rfl, ha⟩
  | storeChild a d v =>
    obtain rfl : h' = h.setChild a d v := hstep
    exact ⟨root, hroot, hlocked⟩
  | storeColor a c =>
    obtain rfl : h' = h.setColor a c := hstep
    exact ⟨root, hroot, hlocked⟩
  | blackenX a | blackenTop a =>
    obtain rfl : h' = h.setColor a .BLACK := hstep
    exact ⟨root, hroot, hlocked⟩
  | writePath i =>
    obtain rfl : h' = h := hstep
    exact ⟨root, hroot, hlocked⟩
  | loadColor a =>
    obtain ⟨-, rfl⟩ := hstep
    exact ⟨root, hroot, hlocked⟩
  | loadRoot | loadChild | loadKey | pathFull =>
    obtain ⟨-, rfl⟩ := hstep
    exact ⟨root, hroot, hlocked⟩
  | casRoot | reloadRoot | loadLocked | addCount | subCount | loadCount | storeCount | retire
  | freeNode | fault => exact hpre.elim

theorem Writer.orderly_of_pre {W : Writer Addr Key} (ha : W.alone) (ht : W.tid = 0) {β : Type}
    {o : Op Addr Key β} {h : Heap Addr Key} (hr : W.RootHeld h) (hpre : W.solo.pre o h) :
    o.orderly h := by
  cases o with
  | lock a => exact hpre.2 ha
  | unlock a =>
    have hlocked := hpre.2.1
    rwa [ht] at hlocked
  | storeChild a d v =>
    have hlocked := hpre.2
    rwa [ht] at hlocked
  | storeRoot v =>
    obtain ⟨root, hroot, hlocked⟩ := hr
    unfold Op.orderly
    rw [hroot]
    exact ht ▸ hlocked
  | pathFull => exact hpre (W.exact_of_alone ha)
  | _ => trivial

/-- A writer that is alone and starts with the root locked meets the conditions. -/
theorem Writer.orderly {W : Writer Addr Key} (ha : W.alone) (ht : W.tid = 0) {α : Type}
    {X : Code Addr Key α → Heap Addr Key → Prop} {p : Code Addr Key α} {h : Heap Addr Key}
    (hr : W.RootHeld h) (hp : Until W.solo X p h) : Until orderly X p h := by
  apply hp.lift_inv hr
  · exact fun _ _ hr hpre => ⟨Writer.certain_of_pre ha hpre, Writer.orderly_of_pre ha ht hr hpre⟩
  · intro β o h r h' hr hpre hstep
    have hstep' := Writer.step_of_certain ha ht hpre hstep
    exact ⟨hstep', Writer.rootHeld_step hr hpre hstep'⟩

/-! ## The searches -/

omit [DecidableEq Addr] in
@[simp] theorem entriesOf_node (key : Addr → Key) (a : Addr) (l r : PtrTree Addr) :
    entriesOf key (.node a l r) = entriesOf key l ++ (key a, a) :: entriesOf key r := by
  simp [entriesOf, PtrTree.addrs]

section Reads

variable {α : Type} {X : Code Addr Key α → Heap Addr Key → Prop} {h : Heap Addr Key}
  {t : PtrTree Addr} {cmp : Key → Key → Bool} [StrictWeakOrder cmp] {k : Key}

/-- The descent of `search`. -/
theorem searchLoop_spec {kont : Option (SearchResult Addr) → Code Addr Key α}
    {parent : Option Addr} (hu : ∀ a, h.locked a = none) (ht : t.Fits h.child)
    (hs : Sorted cmp (entriesOf h.key t))
    (hfound : ∀ a, lookup cmp k (entriesOf h.key t) = some (h.key a, a) →
      Until steady X (kont (some (.found a))) h)
    (habsent : ∀ last, lookup cmp k (entriesOf h.key t) = none →
      Until steady X (kont (some (.absent last))) h) :
    Until steady X (.loop (searchStep cmp k) (t.ptr, parent) kont) h := by
  -- induction on the tree: the order of the entries excludes the subtree that is passed over
  induction t generalizing parent with
  | nil =>
    refine .loop ?_
    exact habsent parent rfl
  | node a l r ihl ihr =>
    obtain ⟨hcl, hcr, hfl, hfr⟩ := ht
    rw [entriesOf_node] at hs hfound habsent
    obtain ⟨hsl, hsr, -⟩ := List.pairwise_append.mp hs
    obtain ⟨-, hsr⟩ := List.pairwise_cons.mp hsr
    have hlocked : (Op.loadLocked a : Op Addr Key Bool).perform h = some (false, h) := by
      simp [Op.perform, Op.inBounds, Op.apply, hu a]
    refine .loop (seq_act hlocked ?_)
    refine seq_act rfl ?_
    show Until steady X (Prog.bind (if compare cmp k (h.key a) = .eq then _ else _) _) h
    cases hc : compare cmp k (h.key a) with
    | eq =>
      obtain ⟨h1, h2⟩ := compare_eq hc
      exact hfound a (hs.lookup_here h2 h1)
    | lt =>
      have hlook := hs.lookup_left (compare_lt hc)
      refine seq_act rfl (seq_act hlocked ?_)
      show Until steady X (.loop (searchStep cmp k) (h.child a .left, some a) kont) h
      rw [hcl]
      exact ihl hfl hsl (fun b hb => hfound b (hlook.trans hb))
        fun last hl => habsent last (hlook.trans hl)
    | gt =>
      have hlook := hs.lookup_right (compare_gt hc)
      refine seq_act rfl (seq_act hlocked ?_)
      show Until steady X (.loop (searchStep cmp k) (h.child a .right, some a) kont) h
      rw [hcr]
      exact ihr hfr hsr (fun b hb => hfound b (hlook.trans hb))
        fun last hl => habsent last (hlook.trans hl)

/-- `find_node` answers the node of the key. -/
theorem findNode_spec (hu : ∀ a, h.locked a = none) (hr : h.root = t.ptr) (ht : t.Fits h.child)
    (hs : Sorted cmp (entriesOf h.key t)) :
    Ends steady (fun r h' => r = (lookup cmp k (entriesOf h.key t)).map Prod.snd ∧ h' = h)
      (findNode cmp k) h := by
  refine .loop (seq_act rfl ?_)
  rw [hr]
  cases hp : t.ptr with
  | none =>
    obtain rfl := PtrTree.eq_nil_of_ptr hp
    exact Ends.ret ⟨rfl, rfl⟩
  | some root =>
    show Until steady _ (.loop (searchStep cmp k) (some root, none) _) h
    rw [← hp]
    refine searchLoop_spec hu ht hs (fun a ha => ?_) fun last hl => ?_
    · refine Ends.ret ⟨?_, rfl⟩
      rw [ha]
      rfl
    · refine Ends.ret ⟨?_, rfl⟩
      rw [hl]
      rfl

/-- Whether an entry is a candidate of `bound_node`. -/
def isBound (cmp : Key → Key → Bool) (k : Key) (strict : Bool) (e : Key × Addr) : Bool :=
  if strict then cmp k e.1 else !cmp e.1 k

omit [DecidableEq Addr] in
/-- The direction of `bound_node`: to the left of a candidate. -/
theorem goLeft_eq (k a : Key) (b : Addr) (strict : Bool) :
    (if strict then compare cmp k a = .lt else compare cmp k a ≠ .gt) ↔
      isBound cmp k strict (a, b) = true := by
  unfold compare isBound
  cases strict with
  | true => cases cmp k a <;> cases cmp a k <;> simp
  | false =>
    cases hka : cmp k a with
    | true => simp [StrictWeakOrder.asymm hka]
    | false => cases cmp a k <;> simp

omit [DecidableEq Addr] in
/-- The entries below one that is no candidate are none. -/
theorem not_bound_of_lt {strict : Bool} {e e' : Key × Addr} (hlt : cmp e.1 e'.1 = true)
    (h : isBound cmp k strict e' = false) : isBound cmp k strict e = false := by
  unfold isBound at h ⊢
  cases strict with
  | true =>
    by_contra hke
    have : cmp k e'.1 = true := StrictWeakOrder.lt_trans (by simpa using hke) hlt
    simp [this] at h
  | false =>
    have : cmp e.1 k = true := StrictWeakOrder.lt_trans hlt (by simpa using h)
    simp [this]

/-- The descent of `bound_node`. -/
theorem boundLoop_spec {kont : Option Addr → Code Addr Key α} {strict : Bool}
    {candidate : Option Addr} (hu : ∀ a, h.locked a = none) (ht : t.Fits h.child)
    (hs : Sorted cmp (entriesOf h.key t))
    (hk : Until steady X (kont ((((entriesOf h.key t).find? (isBound cmp k strict)).map
      Prod.snd).or candidate)) h) :
    Until steady X (.loop (boundStep cmp k strict) (t.ptr, candidate) kont) h := by
  induction t generalizing candidate with
  | nil =>
    refine .loop ?_
    exact hk
  | node a l r ihl ihr =>
    obtain ⟨hcl, hcr, hfl, hfr⟩ := ht
    rw [entriesOf_node] at hs hk
    obtain ⟨hsl, hsr, hlr⟩ := List.pairwise_append.mp hs
    obtain ⟨-, hsr⟩ := List.pairwise_cons.mp hsr
    have hlocked : (Op.loadLocked a : Op Addr Key Bool).perform h = some (false, h) := by
      simp [Op.perform, Op.inBounds, Op.apply, hu a]
    refine .loop (seq_act hlocked (seq_act rfl ?_))
    rw [List.find?_append, List.find?_cons] at hk
    cases hb : isBound cmp k strict (h.key a, a) with
    -- a candidate: a better one can only be on the left
    | true =>
      have hgo := (goLeft_eq k (h.key a) a strict).mpr hb
      simp only [Prog.ret_bind, Prog.act_bind, Prog.perform_bind, Prog.pure_eq, Prog.bind_eq,
        if_pos hgo]
      refine seq_act rfl (seq_act hlocked ?_)
      show Until steady X (.loop (boundStep cmp k strict) (h.child a .left, some a) kont) h
      rw [hcl]
      refine ihl hfl hsl ?_
      rw [hb, Option.map_or, Option.or_assoc] at hk
      exact hk
    | false =>
      have hgo := mt (goLeft_eq k (h.key a) a strict).mp (ne_true_of_eq_false hb)
      -- all of the left subtree is below a key that is no bound
      have hnone : (entriesOf h.key l).find? (isBound cmp k strict) = none := by
        rw [List.find?_eq_none]
        intro e he
        simp [not_bound_of_lt (hlr e he _ List.mem_cons_self) hb]
      simp only [Prog.ret_bind, Prog.act_bind, Prog.perform_bind, Prog.pure_eq, Prog.bind_eq,
        if_neg hgo]
      refine seq_act rfl (seq_act hlocked ?_)
      show Until steady X
        (.loop (boundStep cmp k strict) (h.child a .right, candidate) kont) h
      rw [hcr]
      refine ihr hfr hsr ?_
      rw [hb, hnone] at hk
      simpa using hk

/-- `bound_node` answers the least candidate. -/
theorem boundNode_spec {strict : Bool} (hu : ∀ a, h.locked a = none) (hr : h.root = t.ptr)
    (ht : t.Fits h.child) (hs : Sorted cmp (entriesOf h.key t)) :
    Ends steady
      (fun r h' => r = ((entriesOf h.key t).find? (isBound cmp k strict)).map Prod.fst ∧ h' = h)
      (boundNode cmp k strict) h := by
  refine seq_act rfl ?_
  show Until steady _ (.loop (boundStep cmp k strict) (h.root, none) _) h
  rw [hr]
  refine boundLoop_spec hu ht hs ?_
  rw [Option.or_none]
  cases hf : (entriesOf h.key t).find? (isBound cmp k strict) with
  | none => exact Ends.ret ⟨rfl, rfl⟩
  | some e =>
    refine seq_act rfl (Ends.ret ⟨?_, rfl⟩)
    obtain ⟨a, -, rfl⟩ := List.mem_map.mp (List.mem_of_find?_eq_some hf)
    rfl

omit [StrictWeakOrder cmp] in
/-- The descent of `first_node`. -/
theorem firstLoop_spec {kont : Option (Option Key) → Code Addr Key α} {R : List (Key × Addr)}
    (hu : ∀ a, h.locked a = none) (ht : t.Fits h.child) (hne : t ≠ .nil)
    (hk : Until steady X (kont (some ((entriesOf h.key t ++ R).head?.map Prod.fst))) h) :
    Until steady X (.loop firstStep t.ptr kont) h := by
  induction t generalizing R with
  | nil => exact absurd rfl hne
  | node a l r ihl _ =>
    obtain ⟨hcl, -, hfl, -⟩ := ht
    have hlocked : (Op.loadLocked a : Op Addr Key Bool).perform h = some (false, h) := by
      simp [Op.perform, Op.inBounds, Op.apply, hu a]
    refine .loop (seq_act hlocked (seq_act rfl (seq_act hlocked ?_)))
    rw [hcl]
    cases hp : l.ptr with
    | none =>
      obtain rfl := PtrTree.eq_nil_of_ptr hp
      exact seq_act rfl hk
    | some b =>
      show Until steady X (.loop firstStep (some b) kont) h
      rw [← hp]
      refine ihl (R := (h.key a, a) :: (entriesOf h.key r ++ R)) hfl ?_ ?_
      · rintro rfl
        cases hp
      · rw [entriesOf_node] at hk
        simpa using hk

omit [StrictWeakOrder cmp] in
/-- `first_node` answers the least key. -/
theorem firstNode_spec (hu : ∀ a, h.locked a = none) (hr : h.root = t.ptr)
    (ht : t.Fits h.child) :
    Ends steady (fun r h' => r = (entriesOf h.key t).head?.map Prod.fst ∧ h' = h)
      firstNode h := by
  refine .loop (seq_act rfl ?_)
  show Until steady _ (.loop firstStep h.root _) h
  rw [hr]
  cases t with
  | nil =>
    refine .loop ?_
    exact Ends.ret ⟨rfl, rfl⟩
  | node a l r =>
    refine firstLoop_spec (R := []) hu ht (by simp) ?_
    refine Ends.ret ⟨?_, rfl⟩
    rw [List.append_nil]

omit [StrictWeakOrder cmp] in
/-- `free_subtree` gives the nodes back in order. -/
theorem freeLoop_spec {kont : Unit → Code Addr Key α} {stack : List Addr} (ht : t.Fits h.child)
    (hk : Until steady X (.loop freeStep (none, stack) kont)
      { h with freed := h.freed ++ t.addrs }) :
    Until steady X (.loop freeStep (t.ptr, stack) kont) h := by
  induction t generalizing h stack with
  | nil =>
    rw [PtrTree.addrs, List.append_nil] at hk
    exact hk
  | node a l r ihl ihr =>
    obtain ⟨hcl, hcr, hfl, hfr⟩ := ht
    refine .loop (seq_act rfl ?_)
    show Until steady X (.loop freeStep (h.child a .left, a :: stack) kont) h
    rw [hcl]
    refine ihl hfl (.loop (seq_act rfl (seq_act rfl ?_)))
    show Until steady X (.loop freeStep (h.child a .right, stack) kont) _
    rw [hcr]
    refine ihr hfr ?_
    simpa [PtrTree.addrs] using hk

omit [StrictWeakOrder cmp] in
/-- `clear_impl` leaves an empty tree. -/
theorem clearImpl_spec (hr : h.root = t.ptr) (ht : t.Fits h.child) :
    Ends steady
      (fun _ h' => h' = { h with root := none, freed := h.freed ++ t.addrs, count := 0 })
      clearImpl h := by
  refine seq_act rfl (seq_act rfl ?_)
  rw [hr]
  refine freeLoop_spec ht (.loop ?_)
  exact seq_act rfl (Ends.ret rfl)

end Reads

end MpmcMap.Ordered
