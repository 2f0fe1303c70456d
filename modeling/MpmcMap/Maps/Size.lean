import MpmcMap.Conc.Tally
import MpmcMap.Ordered.Locks
import MpmcMap.Ordered.Sequential
import MpmcMap.Unordered.Marks

/-!
# The value of `size()`

Both engines count an inserted node in a step after the one that links it, and an erased one in a
step of its own, so that an erasure may count its node down before the insertion has counted it.
Apart from that the value of `count_` is the number of the nodes that have been counted and not
counted down, and at most the number of nodes linked so far.
-/

namespace MpmcMap

open Conc
open Prog (perform iterate Closed)

/-! ## The list -/

namespace Unordered

variable {Addr Key : Type}

/-- What an access adds to `count_`; `clear` sets it. -/
def Op.adds {β : Type} : Op Addr Key β → Option Int
  | .addCount => some 1
  | .subCount => some (-1)
  | .storeCount _ => none
  | _ => some 0

/-- The node of an insertion. -/
def Request.inserted : Request Addr Key → Option Addr
  | .emplace n _ | .insert n _ => some n
  | _ => none

/-- The node that an access hands to the reclaimer. -/
def Op.removes {β : Type} : Op Addr Key β → Option Addr
  | .retireNode a => some a
  | _ => none

/-- The accesses other than those to `count_` that change it. -/
def Quiet {β : Type} : Op Addr Key β → Prop
  | .addCount | .subCount | .storeCount _ => False
  | _ => True

section Quiet

variable (C : Config Key)

/-- What only reads does not count. -/
theorem closed_quiet : Closed (fun {β} (o : Op Addr Key β) => o.Reads) fun _ p => p.Uses Quiet :=
  .uses fun o ho => by cases o <;> first | exact ho.elim | trivial

theorem quiet_publish (slot : Nat) (a : Addr) : (publish C slot a).Uses Quiet :=
  Reading.publish closed_quiet slot a

theorem quiet_protectFrom (src : Addr) (slot : Nat) : (protectFrom C src slot).Uses Quiet := by
  unfold protectFrom
  split
  · refine .loop (fun _ => .act trivial fun p => .act trivial fun _ => .act trivial fun b => ?_)
      fun _ => .ret _
    rw [Prog.ret_bind]
    split <;> exact .ret _
  · exact .act trivial fun _ => .ret _

theorem quiet_loadTable : (loadTable C : Code Addr Key Nat).Uses Quiet :=
  Reading.loadTable closed_quiet fun _ hbody => .loop hbody .ret

theorem quiet_follow (prev : Addr) : (follow C prev).Uses Quiet :=
  (quiet_protectFrom C prev HP_CUR).bind fun _ => .ret _

theorem quiet_help (prev : Addr) (tagged rawNext : Link Addr) :
    (help C prev tagged rawNext).Uses Quiet :=
  .act trivial fun _ => quiet_follow C prev

theorem quiet_advance (cur : Addr) : (advance C cur).Uses Quiet :=
  (quiet_publish C HP_PREV cur).bind fun _ => quiet_follow C cur

theorem quiet_walk (d : Addr) (cmpKey : Word) : (walk C d cmpKey).Uses Quiet := by
  refine (quiet_publish C HP_PREV d).bind fun _ => (quiet_follow C d).bind fun place => ?_
  refine .loop (fun place => ?_) fun _ => .ret _
  obtain ⟨prev, _ | cur, tagged⟩ := place
  · exact .ret _
  · refine .act trivial fun so => ?_
    rw [Prog.ret_bind]
    split
    · exact .ret _
    · refine Prog.Uses.bind (.act trivial fun rawNext => ?_) fun _ => .ret _
      rw [Prog.ret_bind]
      split
      · exact quiet_help C prev tagged rawNext
      · exact quiet_advance C cur

theorem quiet_insertFrom (start n : Addr) : (insertFrom C start n).Uses Quiet := by
  refine .act trivial fun so => ?_
  rw [Prog.ret_bind]
  refine .loop (fun _ => (quiet_walk C start so).bind fun place => .act trivial fun _ => ?_)
    fun _ => .ret _
  rw [Prog.ret_bind]
  split
  · exact .ret _
  · refine .act trivial fun b => ?_
    rw [Prog.ret_bind]
    split <;> exact .ret _

/-- The dummies that a bucket needs are linked, but not counted. -/
theorem quiet_initializeBucketAt (u depth i : Nat) :
    (initializeBucketAt C u depth i : Code Addr Key Unit).Uses Quiet := by
  induction depth generalizing i with
  | zero => exact .ret _
  | succ depth ih =>
    refine .act trivial fun r => ?_
    rw [Prog.ret_bind]
    split
    · exact .ret _
    · split
      -- first the bucket of the parent where `i` has one, then that of `i`
      case' isTrue => refine (ih (parentBucket i)).bind fun _ => ?_
      all_goals
        refine .act trivial fun d => .act trivial fun _ => .act trivial fun r => ?_
        cases r with
        | none => exact .act trivial fun _ => .ret _
        | some start => exact (quiet_insertFrom C start d).bind fun _ => .act trivial fun _ => .ret _

theorem quiet_locate (mixed cmpKey : Word) :
    (locate C mixed cmpKey : Code Addr Key (Addr × Option Addr)).Uses Quiet := by
  refine .loop (fun _ => (quiet_loadTable C).bind fun u => .act trivial fun sz =>
    .act trivial fun r => ?_) fun _ => .ret _
  cases r with
  | none => exact (quiet_initializeBucketAt C u _ _).bind fun _ => .ret _
  | some d => exact (quiet_walk C d cmpKey).bind fun _ => .ret _

theorem quiet_headMatches (k : Key) (cur : Addr) (fnx : Link Addr) :
    (headMatches C k cur fnx).Uses Quiet :=
  Reading.headMatches closed_quiet k cur fnx

theorem quiet_scanRun (sk : Word) (k : Key) (prev cur : Addr) :
    (scanRun C sk k prev cur).Uses Quiet := by
  refine .loop (fun place => ?_) fun _ => .ret _
  obtain ⟨rprev, _ | rcur, tagged⟩ := place
  · exact .ret _
  · refine .act trivial fun so => ?_
    rw [Prog.ret_bind]
    split
    · exact .ret _
    · refine .act trivial fun rnx => ?_
      rw [Prog.ret_bind]
      split
      · exact (quiet_help C rprev tagged rnx).bind fun _ => .ret _
      · refine .act trivial fun k' => ?_
        rw [Prog.ret_bind]
        split
        · exact .ret _
        · exact (quiet_advance C rcur).bind fun _ => .ret _

theorem quiet_inRun (sk : Word) (k : Key) (prev : Addr) (cur : Option Addr) :
    (inRun C sk k prev cur).Uses Quiet := by
  cases cur with
  | none => exact .ret _
  | some cur =>
    refine .act trivial fun so => ?_
    rw [Prog.ret_bind]
    split
    · refine .act trivial fun fnx => (quiet_headMatches C k cur fnx).bind fun b => ?_
      split
      · exact .ret _
      · exact (quiet_scanRun C sk k prev cur).bind fun _ => .ret _
    · exact .ret _

theorem quiet_findNode (k : Key) (mixed sk : Word) :
    (findNode C k mixed sk : Code Addr Key (Option Addr)).Uses Quiet := by
  refine (quiet_locate C mixed sk).bind fun place => ?_
  obtain ⟨prev, _ | cur⟩ := place
  · exact .ret _
  · refine .act trivial fun so => ?_
    rw [Prog.ret_bind]
    split
    · exact .ret _
    · refine .act trivial fun rnx => (quiet_headMatches C k cur rnx).bind fun b => ?_
      split
      · exact .ret _
      · exact (quiet_scanRun C sk k prev cur).bind fun _ => .ret _

/-- A growth copies cells and counts nothing. -/
theorem quiet_growOnce (force : Bool) : (growOnce C force : Code Addr Key Unit).Uses Quiet := by
  refine .act trivial fun b => ?_
  rw [Prog.ret_bind]
  split
  · refine .loop (fun _ => (quiet_loadTable C).bind fun u => .act trivial fun sz => ?_)
      fun _ => .act trivial fun _ => .ret _
    refine (Reading.roomyUnless closed_quiet force u).bind fun roomy => ?_
    split
    · exact .ret _
    · split
      · exact .ret _
      · refine .act trivial fun nt => .loop (fun i => ?_) fun _ => .act trivial fun b => ?_
        · simp only [Prog.bind_eq, Prog.pure_eq]
          split
          · exact .act trivial fun _ => .act trivial fun _ => .ret _
          · exact .ret _
        · rw [Prog.ret_bind]
          split <;> exact .act trivial fun _ => .ret _
  · exact .ret _

theorem quiet_maybeGrow : (maybeGrow C : Code Addr Key Unit).Uses Quiet :=
  Reading.maybeGrow closed_quiet (quiet_growOnce C false)

theorem quiet_describe (a : Addr) : (describe a : Code Addr Key (NodeInfo Key)).Uses Quiet :=
  Reading.describe closed_quiet a

theorem quiet_firstNode : (firstNode C : Code Addr Key (Option (NodeInfo Key))).Uses Quiet := by
  refine (quiet_loadTable C).bind fun u => .act trivial fun r => ?_
  cases r with
  | none => exact .ret _
  | some d =>
    refine (quiet_publish C HP_PREV d).bind fun _ => (quiet_follow C d).bind fun place => ?_
    refine .loop (fun place => ?_) fun _ => .ret _
    obtain ⟨prev, _ | cur, tagged⟩ := place
    · exact .ret _
    · refine .act trivial fun rawNext => ?_
      rw [Prog.ret_bind]
      split
      · exact (quiet_help C prev tagged rawNext).bind fun _ => .ret _
      · refine .act trivial fun so => ?_
        rw [Prog.ret_bind]
        split
        · exact (quiet_describe cur).bind fun _ => .ret _
        · exact (quiet_advance C cur).bind fun _ => .ret _

theorem quiet_nextNode (mixed sk : Word) (k : Key) :
    (nextNode C mixed sk k : Code Addr Key (Option (NodeInfo Key))).Uses Quiet := by
  refine (quiet_locate C mixed sk).bind fun place => .loop (fun place => ?_) fun r => ?_
  · obtain ⟨prev, _ | cur, tagged⟩ := place
    · exact .ret _
    · refine .act trivial fun so => ?_
      rw [Prog.ret_bind]
      split
      · exact .ret _
      · refine .act trivial fun rawNext => (quiet_headMatches C k cur rawNext).bind fun b => ?_
        split
        · exact .ret _
        · split
          · exact (quiet_help C prev tagged rawNext).bind fun _ => .ret _
          · exact (quiet_advance C cur).bind fun _ => .ret _
  · cases r with
    | none => exact .ret _
    | some place =>
      refine .loop (fun place => ?_) fun _ => .ret _
      obtain ⟨prev, _ | cur, tagged⟩ := place
      · exact .act trivial fun _ => .ret _
      · refine .act trivial fun rawNext => ?_
        rw [Prog.ret_bind]
        split
        · exact (quiet_help C prev tagged rawNext).bind fun _ => .ret _
        · refine (quiet_advance C cur).bind fun place => ?_
          obtain ⟨prev, _ | a, tagged⟩ := place
          · exact .ret _
          · refine .act trivial fun so => ?_
            rw [Prog.ret_bind]
            split
            · exact (quiet_describe a).bind fun _ => .ret _
            · exact .ret _

variable [DecidableEq Addr]

/-- What is unlinked on the second path is counted down elsewhere. -/
theorem quiet_unlinkMarked (hintPrev target : Addr) (mixed sk : Word) :
    (unlinkMarked C hintPrev target mixed sk : Code Addr Key Unit).Uses Quiet := by
  refine .act trivial fun tnext => .act trivial fun b => ?_
  rw [Prog.ret_bind]
  split
  · exact .ret _
  refine .loop (fun _ => (quiet_locate C mixed sk).bind fun place => ?_) fun _ => .ret _
  refine .loop (fun st => ?_) fun r => ?_
  · obtain ⟨rp, _ | rc⟩ := st
    · exact .ret _
    · refine .act trivial fun so => ?_
      rw [Prog.ret_bind]
      split
      · exact .ret _
      · split
        · exact .ret _
        · exact (quiet_advance C rc).bind fun _ => .ret _
  · cases r with
    | none => exact .ret _
    | some rp =>
      refine .act trivial fun repl => .act trivial fun b => ?_
      rw [Prog.ret_bind]
      split <;> exact .ret _

omit [DecidableEq Addr] in
theorem quiet_markHead (k : Key) (cur : Addr) : (markHead C k cur).Uses Quiet := by
  refine .act trivial fun fnx => (quiet_headMatches C k cur fnx).bind fun b => ?_
  split
  · exact .act trivial fun _ => .ret _
  · exact .ret _

end Quiet

variable [DecidableEq Addr]

/-- The pointer that an access writes to a node's `next`. -/
def Op.writes {β : Type} (b : Bool) (o : Op Addr Key β) (h : Heap Addr Key) : Option Addr :=
  match o with
  | .storeNext _ l => l.ptr
  | .casNext a expected desired =>
    if (h.compareExchange a expected desired false).1 then desired.ptr else none
  | .casNextWeak a expected desired =>
    if (h.compareExchange a expected desired b).1 then desired.ptr else none
  | _ => none

/-- The list and its `count_`. -/
def counted (C : Config Key) :
    Counted (Op Addr Key) (Heap Addr Key) (Request Addr Key) (Answer Addr Key) Addr where
  apply _ b o h := o.apply b h
  writes := Op.writes
  removes := Op.removes
  count := Heap.count
  adds := Op.adds
  code := Request.code C
  invoke c h :=
    match c with
    | .clear => none
    | c => some (c.prepare h)
  brings := Request.inserted

section Counting

variable {C : Config Key} {t : Nat} {x : Counted.Stage Addr} {α : Type}

theorem counted_lawful : (@counted Addr Key _ C).Lawful := by
  intro β t b o h r h' d hact hadds
  cases o
  case casTable expected desired =>
    simp only [counted, Op.apply] at hact
    split at hact <;> cases hact <;> cases hadds <;> exact (Int.add_zero _).symm
  case casBucket t b desired =>
    simp only [counted, Op.apply] at hact
    split at hact <;> cases hact <;> cases hadds <;> exact (Int.add_zero _).symm
  case casNext a expected desired =>
    simp only [counted, Op.apply, Heap.compareExchange] at hact
    split at hact <;> cases hact <;> cases hadds <;> exact (Int.add_zero _).symm
  case casNextWeak a expected desired =>
    simp only [counted, Op.apply, Heap.compareExchange] at hact
    split at hact <;> cases hact <;> cases hadds <;> exact (Int.add_zero _).symm
  case casGrowing =>
    simp only [counted, Op.apply] at hact
    split at hact <;> cases hact <;> cases hadds <;> exact (Int.add_zero _).symm
  case addCount =>
    cases hact
    cases hadds
    rfl
  case subCount =>
    cases hact
    cases hadds
    rfl
  case storeCount n => cases hadds
  all_goals cases hact <;> cases hadds <;> exact (Int.add_zero _).symm

omit [DecidableEq Addr] in
/-- Quiet accesses add nothing. -/
theorem adds_of_quiet {β : Type} (o : Op Addr Key β) (ho : Quiet o) : o.adds = some 0 := by
  cases o <;> first | rfl | cases ho

/-- A quiet program leaves the thread at the stage where it is. -/
theorem goes_quiet {p : Code Addr Key α} (hp : p.Uses Quiet) :
    (counted C).Goes t x p fun _ => x :=
  Counted.goes_silent counted_lawful (hp.mono adds_of_quiet)

theorem goes_act {β : Type} {o : Op Addr Key β} {k : β → Code Addr Key α}
    {y : α → Counted.Stage Addr} (ho : Quiet o) (hk : ∀ r, (counted C).Goes t x (k r) y) :
    (counted C).Goes t x (.act o k) y :=
  (goes_quiet (p := perform o) (.act ho fun r => .ret r)).bind hk

/-- An insertion counts its node after it has linked it; where it fails, the node is still its own.
-/
theorem goes_insertNode (n : Addr) (mixed sk : Word) (k : Key) :
    (counted C).Goes t (.ready n) (insertNode C n mixed sk k) fun r =>
      if r = .INSERT_OK then .idle else .ready n := by
  refine goes_act trivial fun _ => ?_
  rw [Prog.ret_bind]
  refine .loop fun _ => (goes_quiet (quiet_locate C mixed sk)).bind fun place => ?_
  obtain ⟨prev, cur⟩ := place
  refine (goes_quiet (quiet_inRun C sk k prev cur)).bind fun dup => ?_
  split
  · exact .ret rfl
  refine goes_act trivial fun _ => goes_act trivial fun e => ?_
  rw [Prog.ret_bind]
  split
  · exact .ret rfl
  · split
    · refine Counted.goes_link counted_lawful (fun r => r = true) rfl ?_ ?_ ?_
      · intro b h r h' hact hr
        obtain rfl := hr
        have hcas : (h.compareExchange prev e (.plain (some n)) b).1 = true := by
          rw [Option.some.inj hact]
        exact if_pos hcas
      · rintro r rfl
        exact Counted.goes_add counted_lawful rfl (fun _ _ => rfl) rfl fun _ => .ret rfl
      · intro r hr
        rw [Bool.eq_false_of_not_eq_true hr]
        exact .ret rfl
    · exact .ret rfl

/-- An erasure counts the node down that it has handed to the reclaimer. -/
theorem goes_finishErase (prev cur : Addr) (mixed sk : Word) :
    (counted C).Goes t .idle (finishErase C prev cur mixed sk) fun _ => .idle := by
  refine (goes_quiet (quiet_unlinkMarked C prev cur mixed sk)).bind fun _ => ?_
  refine Counted.goes_take counted_lawful rfl rfl fun _ => ?_
  exact Counted.goes_sub counted_lawful rfl (fun _ _ => rfl) rfl fun _ => .ret rfl

/-- Each erasure that succeeds retires its node and counts it down. -/
theorem goes_eraseNode (k : Key) (mixed sk : Word) : (counted C).Goes t .idle
    (eraseNode C k mixed sk : Code Addr Key Bool) fun _ => .idle := by
  refine .loop fun _ => (goes_quiet (quiet_locate C mixed sk)).bind fun place => ?_
  obtain ⟨prev, _ | cur⟩ := place
  · exact .ret rfl
  refine goes_act trivial fun so => ?_
  rw [Prog.ret_bind]
  split
  · exact .ret rfl
  refine (goes_quiet (quiet_markHead C k cur)).bind fun b => ?_
  split
  · exact (goes_finishErase prev cur mixed sk).bind fun _ => .ret rfl
  · refine (goes_quiet (quiet_scanRun C sk k prev cur)).bind fun r => ?_
    obtain _ | ⟨rprev, rcur⟩ := r
    · exact .ret rfl
    · refine goes_act trivial fun tnext => ?_
      rw [Prog.ret_bind]
      split
      · exact .ret rfl
      · refine goes_act trivial fun b => ?_
        rw [Prog.ret_bind]
        split
        · exact (goes_finishErase rprev rcur mixed sk).bind fun _ => .ret rfl
        · exact .ret rfl

/-- A call other than `clear` begins with the node that it brings and ends with nothing to count. -/
theorem goes_code {c : Request Addr Key} (hc : c ≠ .clear) :
    (counted C).Goes t (Counted.stageOf c.inserted) (c.code C) fun _ => .idle := by
  cases c with
  | emplace n k =>
    refine (goes_insertNode n _ _ k).bind fun r => ?_
    split
    · exact (goes_quiet (quiet_maybeGrow C)).bind fun _ => .stop rfl
    · exact .stop rfl
  | insert n k => exact (goes_insertNode n _ _ k).bind fun r => .stop rfl
  | erase k => exact (goes_eraseNode k _ _).bind fun _ => .ret rfl
  | find k => exact (goes_quiet (quiet_findNode C k _ _)).bind fun _ => .ret rfl
  | size => exact goes_act trivial fun _ => .ret rfl
  | clear => exact absurd rfl hc
  | grow force => exact (goes_quiet (quiet_growOnce C force)).bind fun _ => .ret rfl
  | first => exact (goes_quiet (quiet_firstNode C)).bind fun _ => .ret rfl
  | next mixed sk k => exact (goes_quiet (quiet_nextNode C mixed sk k)).bind fun _ => .ret rfl

/-- The calls keep the account of the list. -/
theorem counted_covers : (@counted Addr Key _ C).counting.Covers fun _ _ _ _ => True := by
  refine Counted.counting_covers fun t c h h' hinv => ?_
  have hc : c ≠ .clear := by
    rintro rfl
    cases hinv
  refine ⟨?_, goes_code hc⟩
  cases c <;> cases hinv <;> rfl

end Counting

end Unordered

/-! ## The tree -/

namespace Ordered

open RedBlack (Side Color)

variable {Addr Key : Type}

/-- What an access adds to `count_`; `clear` sets it. -/
def Op.adds {β : Type} : Op Addr Key β → Option Int
  | .addCount => some 1
  | .subCount => some (-1)
  | .storeCount _ => none
  | _ => some 0

/-- The node of an insertion. -/
def Request.inserted : Request Addr Key → Option Addr
  | .insert n _ => some n
  | _ => none

/-- The node that an access hands to the reclaimer. -/
def Op.removes {β : Type} : Op Addr Key β → Option Addr
  | .retire a => some a
  | _ => none

/-- The accesses other than those to `count_` that change it. -/
def Uncounted {β : Type} : Op Addr Key β → Prop
  | .addCount | .subCount | .storeCount _ => False
  | _ => True

section Uncounted

/-- What neither locks nor colors nor counts does not count. -/
theorem uncounted_links {p : Code Addr Key α} (hp : p.Uses Op.Links) : p.Uses Uncounted :=
  hp.mono fun o ho => by cases o <;> first | exact ho.elim | trivial

theorem uncounted_unlockPath (path : List Addr) :
    (unlockPath path : Code Addr Key Unit).Uses Uncounted := by
  induction path with
  | nil => exact .ret _
  | cons a path ih => exact .act trivial fun _ => ih

theorem uncounted_lockUnless (b : Bool) (a : Option Addr) :
    (lockUnless b a : Code Addr Key Unit).Uses Uncounted := by
  cases a with
  | none => exact .ret _
  | some a =>
    simp only [lockUnless]
    split
    · exact .ret _
    · exact .act trivial fun _ => .ret _

theorem uncounted_unlockUnless (b : Bool) (a : Option Addr) :
    (unlockUnless b a : Code Addr Key Unit).Uses Uncounted := by
  cases a with
  | none => exact .ret _
  | some a =>
    simp only [unlockUnless]
    split
    · exact .ret _
    · exact .act trivial fun _ => .ret _

theorem uncounted_storeColorOf (c : Color) (a : Option Addr) :
    (storeColorOf c a : Code Addr Key Unit).Uses Uncounted := by
  cases a with
  | none => exact .ret _
  | some a => exact .act trivial fun _ => .ret _

theorem uncounted_blackenX (a : Option Addr) :
    (blackenX a : Code Addr Key Unit).Uses Uncounted := by
  cases a with
  | none => exact .ret _
  | some a => exact .act trivial fun _ => .ret _

theorem uncounted_search (cmp : Key → Key → Bool) (k : Key) :
    (search cmp k : Code Addr Key (SearchResult Addr)).Uses Uncounted := by
  refine .loop (fun _ => .act trivial fun root => ?_) fun _ => .ret _
  cases root with
  | none => exact .ret _
  | some root =>
    refine .loop (fun st => ?_) fun r => ?_
    · obtain ⟨_ | cur, parent⟩ := st
      · exact .ret _
      · refine .act trivial fun b => ?_
        rw [Prog.ret_bind]
        split
        · exact .ret _
        · refine .act trivial fun k' => ?_
          simp only [Prog.ret_bind]
          split
          · exact .ret _
          · refine .act trivial fun child => .act trivial fun b => ?_
            simp only [Prog.ret_bind]
            split <;> exact .ret _
    · cases r <;> exact .ret _

theorem uncounted_boundNode (cmp : Key → Key → Bool) (k : Key) (strict : Bool) :
    (boundNode cmp k strict : Code Addr Key (Option Key)).Uses Uncounted := by
  refine .act trivial fun root => .loop (fun st => ?_) fun r => ?_
  · obtain ⟨_ | cur, candidate⟩ := st
    · exact .ret _
    · refine .act trivial fun b => ?_
      rw [Prog.ret_bind]
      split
      · exact .ret _
      · refine .act trivial fun k' => .act trivial fun child => .act trivial fun b => ?_
        simp only [Prog.ret_bind]
        split <;> exact .ret _
  · cases r with
    | none => exact .ret _
    | some a => exact .act trivial fun _ => .ret _

theorem uncounted_firstNode : (firstNode : Code Addr Key (Option Key)).Uses Uncounted := by
  refine .loop (fun _ => .act trivial fun root => .loop (fun st => ?_) fun r => ?_) fun _ => .ret _
  · obtain _ | cur := st
    · exact .ret _
    · refine .act trivial fun b => ?_
      rw [Prog.ret_bind]
      split
      · exact .ret _
      · refine .act trivial fun child => .act trivial fun b => ?_
        simp only [Prog.ret_bind]
        split
        · exact .ret _
        · cases child with
          | none => exact .act trivial fun _ => .ret _
          | some child => exact .ret _
  · cases r <;> exact .ret _

theorem uncounted_blackenRoot (path : List Addr) :
    (blackenRoot path : Code Addr Key Unit).Uses Uncounted := by
  refine .act trivial fun r => ?_
  cases r with
  | none => exact .ret _
  | some r =>
    cases path with
    | nil => exact .act trivial fun _ => .act trivial fun _ => .act trivial fun _ => .ret _
    | cons a path => exact .act trivial fun _ => .ret _

theorem uncounted_lockSuccessor (right : Addr) (depth : Nat) :
    (lockSuccessor right depth : Code Addr Key _).Uses Uncounted := by
  refine .act trivial fun _ => .act trivial fun _ => .loop (fun st => ?_) fun _ => .ret _
  obtain ⟨succ, ext⟩ := st
  refine .act trivial fun r => ?_
  cases r with
  | none => exact .ret _
  | some a =>
    simp only [Prog.ret_bind]
    split
    · exact .act trivial fun _ => .ret _
    · refine .act trivial fun r => ?_
      cases r with
      | none => exact .act trivial fun _ => .ret _
      | some next => exact .act trivial fun _ => .act trivial fun _ => .ret _

variable [DecidableEq Addr]

/-- Locking a path counts nothing, whether the locks are taken or given back. -/
theorem uncounted_lockPath (cmp : Key → Key → Bool) (k : Key) :
    (lockPath cmp k : Code Addr Key (LockResult Addr)).Uses Uncounted := by
  refine .loop (fun _ => .act trivial fun r => ?_) fun _ => .ret _
  cases r with
  | none => exact .ret _
  | some cur =>
    refine .act trivial fun _ => .act trivial fun root => ?_
    simp only [Prog.ret_bind]
    split
    · refine .act trivial fun _ => .loop (fun st => .act trivial fun k' => ?_) fun _ => .ret _
      obtain ⟨cur, above⟩ := st
      simp only [Prog.ret_bind]
      split
      · exact .ret _
      · refine .act trivial fun child => ?_
        cases child with
        | none => exact .ret _
        | some child =>
          simp only [Prog.ret_bind]
          split
          · exact .act trivial fun _ => (uncounted_unlockPath _).bind fun _ => .ret _
          · exact .act trivial fun _ => .act trivial fun _ => .ret _
    · exact .act trivial fun _ => .ret _

/-! ### Insertion -/

/-- The fixup of an insertion turns and colors, and counts nothing. -/
theorem uncounted_fixupInsert (path : List Addr) :
    (fixupInsert path : Code Addr Key (List Addr)).Uses Uncounted := by
  refine .loop (fun path => ?_) fun _ => .ret _
  match path with
  | [] => exact .ret _
  | [x] => exact .ret _
  | [x, p] => exact .ret _
  | x :: p :: g :: rest =>
    refine .act trivial fun c => ?_
    simp only [Prog.ret_bind]
    split
    · exact .ret _
    · refine (uncounted_links (uses_sideIn g p)).bind fun side => .act trivial fun uncle => ?_
      refine (uncounted_links (uses_isRed uncle)).bind fun red => ?_
      split
      · exact .act trivial fun _ => .act trivial fun _ => .act trivial fun _ => .act trivial fun _ =>
          .act trivial fun _ => .act trivial fun _ => .act trivial fun _ => .ret _
      · have hcase2 : (insertCase2 x p g side rest : Code Addr Key (Addr × Addr)).Uses Uncounted := by
          refine .act trivial fun c => ?_
          rw [Prog.ret_bind]
          split
          · exact (uncounted_links (uses_rotate p _ _)).bind fun _ => .ret _
          · exact .ret _
        refine hcase2.bind fun r => .act trivial fun _ => .act trivial fun _ => ?_
        refine Prog.Uses.bind ((uncounted_links (uses_rotate g side _)).bind fun _ => ?_)
          fun _ => .ret _
        exact .act trivial fun _ => .act trivial fun _ => .ret _

/-! ### Deletion -/

theorem uncounted_deleteCase2 (p : Addr) (rest : List Addr) (w : Option Addr) (wLocked : Bool)
    (xSide : Side) : (deleteCase2 p rest w wLocked xSide : Code Addr Key _).Uses Uncounted := by
  refine (uncounted_lockUnless wLocked w).bind fun _ => (uncounted_storeColorOf _ w).bind fun _ => ?_
  refine (uncounted_unlockUnless wLocked w).bind fun _ => .act trivial fun _ => ?_
  cases rest with
  | nil => exact .ret _
  | cons gp rest => exact (uncounted_links (uses_sideIn gp p)).bind fun _ => .ret _

theorem uncounted_deleteCase4 (p : Addr) (rest : List Addr) (w : Addr) (far : Option Addr)
    (wLocked : Bool) (xSide : Side) :
    (deleteCase4 p rest w far wLocked xSide : Code Addr Key _).Uses Uncounted := by
  refine (uncounted_lockUnless wLocked _).bind fun _ => (uncounted_lockUnless false far).bind fun _ =>
    .act trivial fun c => .act trivial fun _ => .act trivial fun _ => ?_
  refine (uncounted_storeColorOf _ far).bind fun _ => (uncounted_unlockUnless false far).bind fun _ => ?_
  exact (uncounted_links (uses_rotate p _ _)).bind fun _ => .act trivial fun _ => .ret _

theorem uncounted_deleteCase24 (p : Addr) (rest : List Addr) (w far : Option Addr) (wLocked : Bool)
    (xSide : Side) : (deleteCase24 p rest w far wLocked xSide : Code Addr Key _).Uses Uncounted := by
  cases w with
  | none => exact (uncounted_deleteCase2 p rest none wLocked xSide).bind fun _ => .ret _
  | some w =>
    refine (uncounted_links (uses_isBlack (some w))).bind fun b => ?_
    split
    · refine (uncounted_links (uses_isBlack far)).bind fun b => ?_
      split
      · exact (uncounted_deleteCase2 p rest (some w) wLocked xSide).bind fun _ => .ret _
      · exact (uncounted_deleteCase4 p rest w far wLocked xSide).bind fun _ => .ret _
    · exact .ret _

theorem uncounted_deleteBlackSibling (p : Addr) (rest : List Addr) (w : Option Addr) (xSide : Side) :
    (deleteBlackSibling p rest w xSide : Code Addr Key _).Uses Uncounted := by
  refine (uncounted_links (uses_childOf w xSide)).bind fun near => ?_
  refine (uncounted_links (uses_childOf w xSide.flip)).bind fun far => ?_
  have htest : (deleteIsCase3 near far : Code Addr Key Bool).Uses Uncounted := by
    refine (uncounted_links (uses_isBlack near)).bind fun b => ?_
    split
    · exact .ret _
    · exact uncounted_links (uses_isBlack far)
  refine htest.bind fun b => ?_
  split
  · next w near =>
    refine Prog.Uses.bind ?_ fun far => uncounted_deleteCase24 p rest _ _ _ _
    refine .act trivial fun _ => .act trivial fun _ => .act trivial fun _ => .act trivial fun _ => ?_
    refine (uncounted_links (uses_rotate _ _ _)).bind fun _ => ?_
    refine (uncounted_links (uses_rewireChild _ _ _)).bind fun _ => ?_
    exact .act trivial fun _ => .act trivial fun _ => .ret _
  · exact uncounted_deleteCase24 p rest _ _ _ _

/-- The fixup of an erasure turns and colors, and counts nothing. -/
theorem uncounted_fixupDelete (path : List Addr) (x : Option Addr) (xSide : Side) :
    (fixupDelete path x xSide : Code Addr Key (List Addr)).Uses Uncounted := by
  refine .loop (fun st => ?_) fun _ => .ret _
  obtain ⟨_ | ⟨p, rest⟩, x, xSide⟩ := st
  · refine .act trivial fun r => ?_
    cases r with
    | none => exact .ret _
    | some r => exact .act trivial fun _ => .act trivial fun _ => .act trivial fun _ => .ret _
  · refine (uncounted_links (uses_isRed x)).bind fun b => ?_
    split
    · exact (uncounted_blackenX x).bind fun _ => .ret _
    · refine .act trivial fun w => (uncounted_links (uses_isRed w)).bind fun b => ?_
      split
      · refine Prog.Uses.bind ?_ fun _ => .ret _
        refine .act trivial fun _ => .act trivial fun _ => .act trivial fun _ => ?_
        exact (uncounted_links (uses_rotate p _ _)).bind fun _ => .act trivial fun _ => .ret _
      · exact uncounted_deleteBlackSibling p rest w xSide

end Uncounted

variable [DecidableEq Addr]

/-- The pointer that an access writes to a node or to `root_`. -/
def Op.writes {β : Type} (o : Op Addr Key β) (h : Heap Addr Key) : Option Addr :=
  match o with
  | .storeRoot v => v
  | .casRoot expected desired => if h.root = expected then desired else none
  | .storeChild _ _ v => v
  | _ => none

/-- The tree and its `count_`. -/
def counted (cmp : Key → Key → Bool) :
    Counted (Op Addr Key) (Heap Addr Key) (Request Addr Key) (Answer Addr Key) Addr where
  apply t _ o h := o.apply t h
  writes _ o h := o.writes h
  removes := Op.removes
  count := Heap.count
  adds := Op.adds
  code := Request.code cmp
  invoke q h :=
    match q with
    | .clear => none
    | q => some (q.prepare h)
  brings := Request.inserted

section Counting

variable {cmp : Key → Key → Bool} {t : Nat} {x : Counted.Stage Addr} {α : Type}

theorem counted_lawful : (@counted Addr Key _ cmp).Lawful := by
  intro β t b o h r h' d hact hadds
  cases o
  case casRoot expected desired =>
    simp only [counted, Op.apply] at hact
    split at hact <;> cases hact <;> cases hadds <;> exact (Int.add_zero _).symm
  case lock a =>
    simp only [counted, Op.apply] at hact
    split at hact <;> cases hact
    cases hadds
    exact (Int.add_zero _).symm
  case addCount =>
    cases hact
    cases hadds
    rfl
  case subCount =>
    cases hact
    cases hadds
    rfl
  case storeCount n => cases hadds
  all_goals cases hact <;> cases hadds <;> exact (Int.add_zero _).symm

omit [DecidableEq Addr] in
theorem adds_of_uncounted {β : Type} (o : Op Addr Key β) (ho : Uncounted o) :
    o.adds = some 0 := by
  cases o <;> first | rfl | cases ho

theorem goes_uncounted {p : Code Addr Key α} (hp : p.Uses Uncounted) :
    (counted cmp).Goes t x p fun _ => x :=
  Counted.goes_silent counted_lawful (hp.mono adds_of_uncounted)

theorem goes_act {β : Type} {o : Op Addr Key β} {k : β → Code Addr Key α}
    {y : α → Counted.Stage Addr} (ho : Uncounted o) (hk : ∀ r, (counted cmp).Goes t x (k r) y) :
    (counted cmp).Goes t x (.act o k) y :=
  (goes_uncounted (p := perform o) (.act ho fun r => .ret r)).bind hk

/-- An insertion links its node, or gives it up, and counts what it has linked. -/
theorem goes_insertNode (n : Addr) (k : Key) :
    (counted cmp).Goes t (.ready n) (insertNode cmp n k) fun _ => .idle := by
  refine .loop fun _ => (goes_uncounted (uncounted_lockPath cmp k)).bind fun r => ?_
  cases r with
  | found target above =>
    exact (goes_uncounted (uncounted_unlockPath _)).bind fun _ => .stop rfl
  | empty =>
    refine Counted.goes_link counted_lawful (fun r => r = true) rfl ?_ ?_ ?_
    · intro b h r h' hact hr
      obtain rfl := hr
      simp only [counted, Op.apply] at hact
      split at hact <;> cases hact
      next hroot => exact if_pos hroot
    · rintro r rfl
      refine goes_act trivial fun _ => ?_
      exact Counted.goes_add counted_lawful rfl (fun _ _ => rfl) rfl fun _ => .ret rfl
    · intro r hr
      rw [Bool.eq_false_of_not_eq_true hr]
      exact .ret rfl
  | absent parent above side =>
    refine Counted.Goes.bind (y := fun _ => .idle) (goes_act trivial fun _ => ?_) fun _ => .ret rfl
    refine Counted.goes_link counted_lawful (fun _ => True) rfl (fun _ _ _ _ _ _ => rfl) ?_
      fun _ h => absurd trivial h
    refine fun _ _ => goes_act trivial fun _ => goes_act trivial fun _ => ?_
    refine (goes_uncounted (uncounted_fixupInsert _)).bind fun path => ?_
    refine (goes_uncounted (uncounted_blackenRoot path)).bind fun _ => ?_
    refine (goes_uncounted (uncounted_unlockPath path)).bind fun _ => ?_
    exact Counted.goes_add counted_lawful rfl (fun _ _ => rfl) rfl fun _ => .ret rfl

/-- An erasure counts the node down that it has handed to the reclaimer. -/
theorem goes_finishErase (target : Addr) (path : List Addr) :
    (counted cmp).Goes t .idle (finishErase target path) fun _ => .idle := by
  refine (goes_uncounted (uncounted_blackenRoot path)).bind fun _ => ?_
  refine (goes_uncounted (uncounted_unlockPath path)).bind fun _ => ?_
  refine Counted.goes_take counted_lawful rfl rfl fun _ => ?_
  exact Counted.goes_sub counted_lawful rfl (fun _ _ => rfl) rfl fun _ => .ret rfl

theorem goes_eraseSimple (target : Addr) (above : List Addr) (child : Option Addr) :
    (counted cmp).Goes t .idle (eraseSimple target above child) fun _ => .idle := by
  unfold eraseSimple
  refine Counted.Goes.bind (y := fun _ => .idle) ?_ fun xSide => ?_
  · cases above with
    | nil => exact .ret rfl
    | cons parent above => exact goes_uncounted (uncounted_links (uses_sideIn parent target))
  refine (goes_uncounted (uncounted_links (uses_replaceChild above target child))).bind fun _ => ?_
  refine goes_act trivial fun _ => goes_act trivial fun c => ?_
  refine Counted.Goes.bind (y := fun _ => .idle) (p := if c = .BLACK then
      fixupDelete above child xSide else return above) ?_ fun path => goes_finishErase target path
  split
  · exact goes_uncounted (uncounted_fixupDelete above child xSide)
  · exact .ret rfl

theorem goes_eraseRelink (target : Addr) (above : List Addr) (left right succ : Addr)
    (ext : List Addr) : (counted cmp).Goes t .idle (eraseRelink target above left right succ ext)
      fun _ => .idle := by
  refine goes_act trivial fun succRight => goes_act trivial fun succColor => ?_
  have hunlink : (unlinkSuccessor target succRight ext : Code Addr Key Side).Uses Uncounted := by
    cases ext with
    | nil => exact .act trivial fun _ => .ret _
    | cons succParent ext => exact .act trivial fun _ => .ret _
  refine (goes_uncounted hunlink).bind fun xSide => ?_
  refine (goes_uncounted (uncounted_links (uses_replaceChild above target _))).bind fun _ => ?_
  refine goes_act trivial fun _ => goes_act trivial fun _ => goes_act trivial fun c => ?_
  refine goes_act trivial fun _ => goes_act trivial fun _ => goes_act trivial fun _ =>
    goes_act trivial fun _ => ?_
  refine Counted.Goes.bind (y := fun _ => .idle) (p := if succColor = .BLACK then
      fixupDelete (ext ++ succ :: above) succRight xSide else return ext ++ succ :: above) ?_
    fun path => goes_act trivial fun _ => goes_finishErase target path
  split
  · exact goes_uncounted (uncounted_fixupDelete _ _ _)
  · exact .ret rfl

/-- Each erasure that succeeds retires its node and counts it down. -/
theorem goes_eraseNode (k : Key) : (counted cmp).Goes t .idle
    (eraseNode cmp k : Code Addr Key Bool) fun _ => .idle := by
  refine .loop fun _ => (goes_uncounted (uncounted_lockPath cmp k)).bind fun r => ?_
  cases r with
  | absent parent above side =>
    exact (goes_uncounted (uncounted_unlockPath _)).bind fun _ => .ret rfl
  | empty => exact .ret rfl
  | found target above =>
    refine goes_act trivial fun left => goes_act trivial fun right => ?_
    simp only [Prog.ret_bind]
    split
    · refine (goes_uncounted (uncounted_lockSuccessor _ _)).bind fun r => ?_
      obtain ⟨succ, ext⟩ | ext := r
      · exact (goes_eraseRelink _ _ _ _ _ _).bind fun _ => .ret rfl
      · exact (goes_uncounted (uncounted_unlockPath _)).bind fun _ => .ret rfl
    · exact (goes_eraseSimple _ _ _).bind fun _ => .ret rfl

/-- A call other than `clear` begins with the node that it brings and ends with nothing to count. -/
theorem goes_code {q : Request Addr Key} (hq : q ≠ .clear) :
    (counted cmp).Goes t (Counted.stageOf q.inserted) (q.code cmp) fun _ => .idle := by
  cases q with
  | insert n k => exact (goes_insertNode n k).bind fun _ => .ret rfl
  | erase k => exact (goes_eraseNode k).bind fun _ => .ret rfl
  | find k =>
    refine (goes_uncounted (uncounted_search cmp k)).bind fun r => ?_
    cases r <;> exact .ret rfl
  | bound k strict => exact (goes_uncounted (uncounted_boundNode cmp k strict)).bind fun _ => .ret rfl
  | first => exact (goes_uncounted uncounted_firstNode).bind fun _ => .ret rfl
  | next k => exact (goes_uncounted (uncounted_boundNode cmp k true)).bind fun _ => .ret rfl
  | size => exact goes_act trivial fun _ => .ret rfl
  | clear => exact absurd rfl hq

/-- The calls keep the account of the tree. -/
theorem counted_covers : (@counted Addr Key _ cmp).counting.Covers fun _ _ _ _ => True := by
  refine Counted.counting_covers fun t q h h' hinv => ?_
  have hq : q ≠ .clear := by
    rintro rfl
    cases hinv
  refine ⟨?_, goes_code hq⟩
  cases q <;> cases hinv <;> rfl

end Counting

end Ordered

/-! ## Both engines -/

/-- In every run of either engine in which each node that is counted down has been counted by the
insertion that linked it, `count_` is the number of the nodes that have been counted and not counted
down; it does not wrap and is at most the number of insertions that have linked their node. -/
theorem size_le_links (Addr Key : Type) [DecidableEq Addr] :
    (∀ (C : Unordered.Config Key) (h : Unordered.Heap Addr Key), h.count = 0 →
      ∀ c, (Unordered.counted C).system.Reach (Unordered.counted C).CountedFirst (h, .init) c →
        c.shared.1.count = c.shared.2.counted.length ∧ 0 ≤ c.shared.1.count ∧
        (Unordered.counted C).value c.shared.1 ≤ c.shared.2.links) ∧
    ∀ (cmp : Key → Key → Bool) (h : Ordered.Heap Addr Key), h.count = 0 →
      ∀ c, (Ordered.counted cmp).system.Reach (Ordered.counted cmp).CountedFirst (h, .init) c →
        c.shared.1.count = c.shared.2.counted.length ∧ 0 ≤ c.shared.1.count ∧
        (Ordered.counted cmp).value c.shared.1 ≤ c.shared.2.links :=
  ⟨fun C _ hh _ hc => (Unordered.counted C).value_le_links Unordered.counted_covers hh hc,
    fun cmp _ hh _ hc => (Ordered.counted cmp).value_le_links Ordered.counted_covers hh hc⟩

/-! ## An element that is erased before it is counted -/

open Label (whole)

/-- The list, empty. -/
abbrev emptyList : Unordered.Heap Nat Nat × Tally Nat :=
  (.new id 0 Unordered.nextBlock id, .init)

/-- The tree, empty. -/
abbrev emptyTree : Ordered.Heap Nat Nat × Tally Nat := (.new fun _ => 0, .init)

/-- Thread 0 has linked node 1 in the list, thread 1 erases it. -/
def erasedUncounted : List (Label (Unordered.Request Nat Nat)) :=
  .call 0 (.insert 1 0) :: List.replicate 12 (.step 0 false) ++ whole 1 (.erase 0) 17

/-- Thread 0 has linked node 1 in the tree and unlocked it, thread 1 erases it. -/
def unlockedUncounted : List (Label (Ordered.Request Nat Nat)) :=
  .call 0 (.insert 1 5) :: List.replicate 5 (.step 0 false) ++ whole 1 (.erase 5) 18

/-- In either engine `count_` becomes `2 ^ 64 - 1` when only one node has been linked. -/
theorem count_wraps :
    (¬ ∀ (C : Unordered.Config Nat) (h : Unordered.Heap Nat Nat), h.count = 0 →
      ∀ c, (Unordered.counted C).system.Reachable (h, .init) c →
        (Unordered.counted C).value c.shared.1 ≤ c.shared.2.links) ∧
    ¬ ∀ (cmp : Nat → Nat → Bool) (h : Ordered.Heap Nat Nat), h.count = 0 →
      ∀ c, (Ordered.counted cmp).system.Reachable (h, .init) c →
        (Ordered.counted cmp).value c.shared.1 ≤ c.shared.2.links := by
  constructor
  · intro hall
    have hrun : ((Unordered.counted Unordered.epochal).system.exec (SharedObject.start emptyList)
        erasedUncounted).map (fun c => ((Unordered.counted Unordered.epochal).value c.shared.1,
          c.shared.2.links)) = some (2 ^ 64 - 1, 1) := by decide +kernel
    obtain ⟨c, hc, hval⟩ := Option.map_eq_some_iff.mp hrun
    simp only [Prod.mk.injEq] at hval
    have hle := hall Unordered.epochal _ rfl c
      ((Unordered.counted Unordered.epochal).system.reachable_exec _ hc)
    rw [hval.1, hval.2] at hle
    exact absurd hle (by decide)
  · intro hall
    have hrun : ((Ordered.counted Ordered.natLess).system.exec (SharedObject.start emptyTree)
        unlockedUncounted).map (fun c => ((Ordered.counted Ordered.natLess).value c.shared.1,
          c.shared.2.links)) = some (2 ^ 64 - 1, 1) := by decide +kernel
    obtain ⟨c, hc, hval⟩ := Option.map_eq_some_iff.mp hrun
    simp only [Prod.mk.injEq] at hval
    have hle := hall Ordered.natLess _ rfl c
      ((Ordered.counted Ordered.natLess).system.reachable_exec _ hc)
    rw [hval.1, hval.2] at hle
    exact absurd hle (by decide)

/-- The insertion returns first. -/
theorem size_le_links_run :
    (∃ c, (Unordered.counted Unordered.epochal).system.Reach
        (Unordered.counted Unordered.epochal).CountedFirst emptyList c ∧
      (c.shared.1.count, c.shared.2.links) = (0, 1) ∧
      (Unordered.counted Unordered.epochal).value c.shared.1 ≤ c.shared.2.links) ∧
    ∃ c, (Ordered.counted Ordered.natLess).system.Reach
        (Ordered.counted Ordered.natLess).CountedFirst emptyTree c ∧
      (c.shared.1.count, c.shared.2.links) = (0, 1) ∧
      (Ordered.counted Ordered.natLess).value c.shared.1 ≤ c.shared.2.links := by
  have hlist : ((Unordered.counted Unordered.epochal).system.execIf
      (Unordered.counted Unordered.epochal).countedFirstTest (SharedObject.start emptyList)
      (whole 0 (.insert 1 0) 13 ++ whole 1 (.erase 0) 17)).map (fun c =>
        (c.shared.1.count, c.shared.2.links)) = some (0, 1) := by decide +kernel
  have htree : ((Ordered.counted Ordered.natLess).system.execIf
      (Ordered.counted Ordered.natLess).countedFirstTest (SharedObject.start emptyTree)
      (whole 0 (.insert 1 5) 6 ++ whole 1 (.erase 5) 18)).map (fun c =>
        (c.shared.1.count, c.shared.2.links)) = some (0, 1) := by decide +kernel
  obtain ⟨c, hc, hval⟩ := Option.map_eq_some_iff.mp hlist
  obtain ⟨d, hd, hval'⟩ := Option.map_eq_some_iff.mp htree
  have hreach := SharedObject.reach_execIf _
    (Unordered.counted Unordered.epochal).countedFirstTest_sound _ .start hc
  have hreach' := SharedObject.reach_execIf _
    (Ordered.counted Ordered.natLess).countedFirstTest_sound _ .start hd
  exact ⟨⟨c, hreach, hval, ((size_le_links Nat Nat).1 Unordered.epochal _ rfl c hreach).2.2⟩,
    d, hreach', hval', ((size_le_links Nat Nat).2 Ordered.natLess _ rfl d hreach').2.2⟩

end MpmcMap
