import MpmcMap.Ordered.Queries

/-!
# Freeing a subtree

`free_node` gives a node back to the pool, which stores its link in the node's `left`, and a full
shard is given back to the allocator. So the fields of a node that has been given back may contain
anything, and must not be read again.
-/

namespace MpmcMap.Ordered

open Conc RedBlack

variable {Addr Key : Type} [DecidableEq Addr]

/-- The node whose fields an access reads. -/
def Op.reads {β : Type} : Op Addr Key β → Option Addr
  | .loadChild a _ | .loadLocked a | .loadColor a | .loadKey a => some a
  | _ => none

/-- `spoil` is what the nodes that have been given back contain. Reading one of them, or giving one
back again, has no outcome. -/
def Op.spoiling (spoil : Heap Addr Key → Addr → Side → Option Addr) {β : Type} (o : Op Addr Key β)
    (h : Heap Addr Key) : Option (β × Heap Addr Key) :=
  match o with
  | .freeNode a =>
    if a ∈ h.freed then none
    else some ((), { h with
      freed := h.freed ++ [a]
      child := fun b d => if b ∈ h.freed ++ [a] then spoil h b d else h.child b d })
  | o => if ∃ a ∈ o.reads, a ∈ h.freed then none else o.apply 0 h

section

variable {spoil : Heap Addr Key → Addr → Side → Option Addr} {h h' : Heap Addr Key} {a : Addr}
  {d : Side} {t : PtrTree Addr} {α : Type} {X : Code Addr Key α → Heap Addr Key → Prop}

/-- `h'` comes from `h` when the nodes `l` are given back. -/
structure Heap.Gives (h : Heap Addr Key) (l : List Addr) (h' : Heap Addr Key) : Prop where
  freed : h'.freed = h.freed ++ l
  child : ∀ a ∉ h'.freed, h'.child a = h.child a

theorem spoiling_loadChild (ha : a ∉ h.freed) :
    (Op.loadChild a d).spoiling spoil h = some (h.child a d, h) := by
  simp [Op.spoiling, Op.reads, Op.apply, ha]

theorem spoiling_freeNode (spoil : Heap Addr Key → Addr → Side → Option Addr) (ha : a ∉ h.freed) :
    ∃ h', (Op.freeNode a).spoiling spoil h = some ((), h') ∧ h.Gives [a] h' := by
  refine ⟨_, if_neg ha, rfl, fun b hb => ?_⟩
  funext d
  exact if_neg hb

omit [DecidableEq Addr] in
theorem Heap.Gives.trans {l l' : List Addr} {h'' : Heap Addr Key} (h1 : h.Gives l h')
    (h2 : h'.Gives l' h'') : h.Gives (l ++ l') h'' := by
  refine ⟨by rw [h2.freed, h1.freed, List.append_assoc], fun a ha => ?_⟩
  rw [h2.child a ha]
  apply h1.child
  intro hmem
  rw [h2.freed] at ha
  exact ha (List.mem_append_left _ hmem)

omit [DecidableEq Addr] in
/-- A tree none of whose nodes has been given back is still there. -/
theorem Heap.Gives.fits {l : List Addr} (hg : h.Gives l h') (ht : t.Fits h.child)
    (hlive : ∀ a ∈ t.addrs, a ∉ h'.freed) : t.Fits h'.child :=
  ht.congr fun a ha => hg.child a (hlive a ha)

/-- The loops give back the nodes of the subtree in order, then what is on the stack follows. The
induction is on the subtree below `cur`; the stack is read only after it is gone. -/
theorem freeLoop_spoiling {kont : Unit → Code Addr Key α} {stack : List Addr}
    (ht : t.Fits h.child) (hn : t.addrs.Nodup) (hlive : ∀ a ∈ t.addrs, a ∉ h.freed)
    (hk : ∀ h', h.Gives t.addrs h' →
      Until (Solo.of fun o h => o.spoiling spoil h) X (.loop freeStep (none, stack) kont) h') :
    Until (Solo.of fun o h => o.spoiling spoil h) X (.loop freeStep (t.ptr, stack) kont) h := by
  induction t generalizing h stack with
  | nil => exact hk h ⟨(List.append_nil _).symm, fun _ _ => rfl⟩
  | node a l r ihl ihr =>
    obtain ⟨hcl, hcr, hfl, hfr⟩ := ht
    simp only [PtrTree.addrs] at hn hlive hk
    obtain ⟨hnl, hnr, hapart⟩ := List.nodup_append.mp hn
    obtain ⟨har, hnr⟩ := List.nodup_cons.mp hnr
    apply Until.loop
    apply Until.perform (spoiling_loadChild (hlive a (by simp)))
    show Until _ X (.loop freeStep (h.child a .left, a :: stack) kont) h
    rw [hcl]
    apply ihl hfl hnl fun b hb => hlive b (by simp [hb])
    intro h₁ hg₁
    -- the left subtree is gone; `a` and the right subtree are not
    have hrest : ∀ b ∈ a :: r.addrs, b ∉ h₁.freed := by
      intro b hb hmem
      rw [hg₁.freed, List.mem_append] at hmem
      rcases hmem with hmem | hmem
      · exact hlive b (List.mem_append_right _ hb) hmem
      · exact hapart b hmem b hb rfl
    have ha₁ := hrest a List.mem_cons_self
    obtain ⟨h₂, hfree, hg₂⟩ := spoiling_freeNode spoil ha₁
    apply Until.loop
    apply Until.perform (spoiling_loadChild ha₁)
    apply Until.perform hfree
    show Until _ X (.loop freeStep (h₁.child a .right, stack) kont) h₂
    rw [hg₁.child a ha₁, hcr]
    have hlive₂ : ∀ b ∈ r.addrs, b ∉ h₂.freed := by
      intro b hb hmem
      rw [hg₂.freed, List.mem_append, List.mem_singleton] at hmem
      rcases hmem with hmem | rfl
      · exact hrest b (List.mem_cons_of_mem _ hb) hmem
      · exact har hb
    apply ihr ((hg₁.trans hg₂).fits hfr hlive₂) hnr hlive₂
    intro h₃ hg₃
    apply hk
    have hall := (hg₁.trans hg₂).trans hg₃
    rwa [List.append_assoc, List.singleton_append] at hall

/-- Whatever `free_node` leaves in the nodes it gets, `free_subtree` ends, reads no node that has
been given back, and gives back each node of the tree once. -/
theorem freeSubtree_once (spoil : Heap Addr Key → Addr → Side → Option Addr) (h : Heap Addr Key)
    (t : PtrTree Addr) (ht : t.Fits h.child) (hn : t.addrs.Nodup)
    (hlive : ∀ a ∈ t.addrs, a ∉ h.freed) :
    ∃ N, ∀ fuel, N ≤ fuel → ∃ h',
      (freeSubtree t.ptr).run (fun o h => o.spoiling spoil h) fuel h = some ((), h') ∧
      h'.freed = h.freed ++ t.addrs ∧ ∀ a ∈ t.addrs, h'.freed.count a = 1 := by
  have hends : Ends (Solo.of fun o h => o.spoiling spoil h)
      (fun (_ : Unit) h' => h'.freed = h.freed ++ t.addrs) (freeSubtree t.ptr) h := by
    apply freeLoop_spoiling ht hn hlive
    intro h' hg
    apply Until.loop
    exact Ends.ret hg.freed
  obtain ⟨N, ⟨⟩, h', hrun, hfreed⟩ := Ends.runs Solo.of_executes hends
  refine ⟨N, fun fuel hfuel => ⟨h', Prog.run_le hfuel hrun, hfreed, fun a ha => ?_⟩⟩
  rw [hfreed, List.count_append, List.count_eq_zero.mpr (hlive a ha), Nat.zero_add]
  exact List.count_eq_one_of_mem hn ha

end

/-- A root with two children; every node given back points to itself. -/
def threeNodes : Heap Nat Nat where
  root := some 2
  child := fun a d => if a = 2 then some (match d with | .left => 1 | .right => 3) else none
  locked := fun _ => none
  color := fun _ => .BLACK
  key := id
  count := 3
  retired := []
  freed := []

/-- Three nodes whose links point at the node itself once it is freed. -/
theorem freeSubtree_once_three :
    ∃ N, ∀ fuel, N ≤ fuel → ∃ h',
      (freeSubtree (some 2)).run (fun o h => o.spoiling (fun _ a _ => some a) h) fuel threeNodes =
        some ((), h') ∧
      h'.freed = [] ++ [1, 2, 3] ∧ ∀ a ∈ [1, 2, 3], h'.freed.count a = 1 :=
  freeSubtree_once (fun _ a _ => some a) threeNodes (.node 2 (.node 1 .nil .nil) (.node 3 .nil .nil))
    ⟨rfl, rfl, ⟨rfl, rfl, trivial, trivial⟩, ⟨rfl, rfl, trivial, trivial⟩⟩ (by decide) (by decide)

end MpmcMap.Ordered
