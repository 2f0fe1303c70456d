import MpmcMap.Unordered.Engine

/-!
# Parts of the engine that only read

What the engine does besides its walks: publications, comparisons of keys, the test whether it has
to grow. These programs write nothing of the list, so a judgement that reads do not affect holds of
each of them. It is stated here once for all such judgements.
-/

namespace MpmcMap.Unordered

open Conc
open Prog (perform iterate Closed)

variable {Addr Key : Type}

/-- The access writes nothing of the list. -/
def Op.Reads {β : Type} : Op Addr Key β → Prop
  | .loadTable | .reloadTable _ | .loadSize _ | .loadBucket .. | .loadNext _ | .reloadNext ..
  | .loadSoKey _ | .loadKey _ | .loadCount | .loadThreshold _ | .loadCached | .storeCached _
  | .protect .. => True
  | _ => False

namespace Reading

variable {C : Config Key} {R : (α : Type) → Code Addr Key α → Prop}
  (hR : Closed (fun {β} (o : Op Addr Key β) => o.Reads) R)

include hR

theorem publish (slot : Nat) (a : Addr) : R Unit (publish C slot a) := by
  unfold Unordered.publish
  split
  · exact hR.act trivial fun _ => hR.ret _
  · exact hR.ret _

theorem headMatches (k : Key) (cur : Addr) (fnx : Link Addr) :
    R Bool (headMatches C k cur fnx) := by
  unfold Unordered.headMatches
  split
  · exact hR.ret _
  · exact hR.act trivial fun _ => hR.ret _

theorem describe (a : Addr) : R (NodeInfo Key) (describe a) :=
  hR.act trivial fun _ => hR.act trivial fun _ => hR.ret _

/-- A loop that reads and tries again. -/
theorem loadTable (hloop : ∀ body : Unit → Code Addr Key (Unit ⊕ Nat), (∀ x, R _ (body x)) →
    R Nat (iterate body ())) : R Nat (loadTable C) := by
  refine hloop _ fun _ => hR.act trivial fun u => ?_
  rw [Prog.ret_bind]
  split
  · refine hR.act trivial fun _ => hR.act trivial fun b => ?_
    rw [Prog.ret_bind]
    split
    · exact hR.ret _
    · exact hR.ret _
  · exact hR.ret _

/-! ## The test for growth -/

theorem roomyUnless (force : Bool) (u : Nat) :
    R Bool (if force then return false else isRoomy u) := by
  split
  · exact hR.ret _
  · exact hR.act trivial fun _ => hR.act trivial fun _ => hR.act trivial fun _ => hR.ret _

theorem refreshCached : R Nat (refreshCached : Code Addr Key Nat) :=
  hR.act trivial fun _ => hR.act trivial fun _ => hR.act trivial fun _ => hR.act trivial fun _ =>
    hR.ret _

/-- `maybe_grow` is judged as `grow_once` is. -/
theorem maybeGrow (hgrow : R Unit (growOnce C false)) : R Unit (maybeGrow C) := by
  refine hR.act trivial fun cached => ?_
  rw [Prog.ret_bind]
  have hskip : R Bool (if 0 < cached then do return (← perform .loadCount) ≤ cached
      else return false) := by
    split
    · exact hR.act trivial fun _ => hR.ret _
    · exact hR.ret _
  refine hR.bind hskip fun skip => ?_
  split
  · refine hR.bind (refreshCached hR) fun threshold => hR.act trivial fun count => ?_
    rw [Prog.ret_bind]
    split
    · exact hR.bind hgrow fun _ => hR.bind (refreshCached hR) fun _ => hR.ret _
    · exact hR.ret _
  · exact hR.ret _

end Reading

end MpmcMap.Unordered
