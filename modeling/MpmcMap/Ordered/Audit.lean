import MpmcMap.Ordered.Values

/-!
# The audit hooks

`dbg_rb_valid` and `dbg_validate` walk over the tree with arrays of a fixed size; what they read is
not changed by them. The messages that they print are left out.
-/

namespace MpmcMap.Ordered

open Conc RedBlack Maps

/-! ## Black nodes on the paths to the leaves -/

section Leaves

variable {Addr : Type}

/-- The number of black nodes on each path from the root to a node without children. -/
def leafBlacks (κ : Addr → Color) : PtrTree Addr → List Nat
  | .nil => []
  | .node a l r =>
    (match l, r with
      | .nil, .nil => [0]
      | _, _ => leafBlacks κ l ++ leafBlacks κ r).map fun b => b + if κ a = Color.BLACK then 1 else 0

/-- Below a node with one child there is no black node. -/
def NoLoneBlack (κ : Addr → Color) : PtrTree Addr → Prop
  | .nil => True
  | .node _ l r =>
    (l = .nil → ∀ b ∈ r.addrs, κ b = .RED) ∧ (r = .nil → ∀ b ∈ l.addrs, κ b = .RED) ∧
      NoLoneBlack κ l ∧ NoLoneBlack κ r

/-- Every path to a node without children has the same number of black nodes. -/
def LeavesAgree (κ : Addr → Color) (t : PtrTree Addr) : Prop :=
  ∃ n, ∀ b ∈ leafBlacks κ t, b = n

variable {κ : Addr → Color} {t l r : PtrTree Addr} {a : Addr} {n : Nat}

theorem leafBlacks_leaf : leafBlacks κ (.node a .nil .nil) = [if κ a = .BLACK then 1 else 0] := by
  simp [leafBlacks]

/-- A black node adds one to each path below it. -/
theorem leafBlacks_node (h : ¬ (l = .nil ∧ r = .nil)) : leafBlacks κ (.node a l r) =
    (leafBlacks κ l ++ leafBlacks κ r).map fun b => b + if κ a = .BLACK then 1 else 0 := by
  cases l with
  | nil =>
    cases r with
    | nil => exact absurd ⟨rfl, rfl⟩ h
    | node b u v => rfl
  | node b u v => rfl

/-- The paths to the leaves are among the paths to the null slots. -/
theorem leafBlacks_subset : leafBlacks κ t ⊆ blacks κ t := by
  induction t with
  | nil => exact List.nil_subset _
  | node a l r ihl ihr =>
    by_cases h : l = .nil ∧ r = .nil
    · obtain ⟨rfl, rfl⟩ := h
      intro b hb
      rw [leafBlacks_leaf, List.mem_singleton] at hb
      simp [blacks, hb]
    · rw [leafBlacks_node h]
      apply List.map_subset
      exact List.append_subset.mpr ⟨fun b hb => List.mem_append_left _ (ihl hb),
        fun b hb => List.mem_append_right _ (ihr hb)⟩

/-- A tree that is not empty has a leaf. -/
theorem exists_leaf (h : t ≠ .nil) : ∃ b, b ∈ leafBlacks κ t := by
  induction t with
  | nil => exact absurd rfl h
  | node a l r ihl ihr =>
    by_cases hnil : l = .nil ∧ r = .nil
    · obtain ⟨rfl, rfl⟩ := hnil
      exact ⟨_, leafBlacks_leaf ▸ List.mem_singleton_self _⟩
    · rw [leafBlacks_node hnil]
      by_cases hl : l = .nil
      · obtain ⟨b, hb⟩ := ihr fun hr => hnil ⟨hl, hr⟩
        exact ⟨_, List.mem_map_of_mem (List.mem_append_right _ hb)⟩
      · obtain ⟨b, hb⟩ := ihl hl
        exact ⟨_, List.mem_map_of_mem (List.mem_append_left _ hb)⟩

/-- Paths without black nodes are paths of red nodes. -/
theorem blacks_eq_zero : (∀ b ∈ blacks κ t, b = 0) ↔ ∀ a ∈ t.addrs, κ a = .RED := by
  induction t with
  | nil => simp [blacks, PtrTree.addrs]
  | node a l r ihl ihr =>
    have hsome : ∃ b, b ∈ blacks κ l := by
      cases l with
      | nil => exact ⟨0, List.mem_singleton_self 0⟩
      | node b u v =>
        obtain ⟨c, hc⟩ := exists_leaf (κ := κ) (t := .node b u v) (by simp)
        exact ⟨c, leafBlacks_subset hc⟩
    simp only [blacks, List.forall_mem_map, List.mem_append, PtrTree.addrs, List.mem_cons]
    constructor
    · intro h c hc
      rcases hc with hc | rfl | hc
      · exact ihl.mp (fun b hb => (Nat.add_eq_zero_iff.mp (h b (.inl hb))).1) c hc
      · obtain ⟨b, hb⟩ := hsome
        have h0 := (Nat.add_eq_zero_iff.mp (h b (.inl hb))).2
        cases hk : κ c with
        | RED => rfl
        | BLACK => simp [hk] at h0
      · exact ihr.mp (fun b hb => (Nat.add_eq_zero_iff.mp (h b (.inr hb))).1) c hc
    · intro h b hb
      have ha : κ a = .RED := h a (.inr (.inl rfl))
      rw [if_neg (by simp [ha])]
      rcases hb with hb | hb
      · exact ihl.mpr (fun c hc => h c (.inl hc)) b hb
      · exact ihr.mpr (fun c hc => h c (.inr (.inr hc))) b hb

/-- A node with one child has a null slot; a black node below it is missing from that path. -/
theorem noLoneBlack_of_blacks (h : ∀ b ∈ blacks κ t, b = n) : NoLoneBlack κ t := by
  induction t generalizing n with
  | nil => trivial
  | node a l r ihl ihr =>
    simp only [blacks, List.forall_mem_map, List.mem_append] at h
    have hdown : ∀ u, (∀ b ∈ blacks κ u, b + (if κ a = .BLACK then 1 else 0) = n) →
        ∀ b ∈ blacks κ u, b = n - if κ a = .BLACK then 1 else 0 := by
      intro u hu b hb
      have := hu b hb
      omega
    refine ⟨?_, ?_, ihl (hdown l fun b hb => h b (.inl hb)), ihr (hdown r fun b hb => h b (.inr hb))⟩
    · intro hl
      subst hl
      have h0 := h 0 (.inl (List.mem_singleton_self 0))
      apply blacks_eq_zero.mp
      intro b hb
      have := h b (.inr hb)
      omega
    · intro hr
      subst hr
      have h0 := h 0 (.inr (List.mem_singleton_self 0))
      apply blacks_eq_zero.mp
      intro b hb
      have := h b (.inl hb)
      omega

/-- Where every null slot of a node with one child is as deep in black nodes as the leaves below
it, the leaves speak for all null slots. -/
theorem blacks_of_leaves (ht : t ≠ .nil) (h : ∀ b ∈ leafBlacks κ t, b = n)
    (hlone : NoLoneBlack κ t) : ∀ b ∈ blacks κ t, b = n := by
  induction t generalizing n with
  | nil => exact absurd rfl ht
  | node a l r ihl ihr =>
    obtain ⟨hnl, hnr, hll, hlr⟩ := hlone
    by_cases hnil : l = .nil ∧ r = .nil
    · obtain ⟨rfl, rfl⟩ := hnil
      rw [leafBlacks_leaf] at h
      have h0 := h _ (List.mem_singleton_self _)
      simp [blacks, h0]
    rw [leafBlacks_node hnil] at h
    simp only [List.forall_mem_map, List.mem_append] at h
    simp only [blacks, List.forall_mem_map, List.mem_append]
    -- a subtree that is there has the count of its leaves
    have hhere : ∀ u, u ≠ .nil →
        (∀ m, u ≠ .nil → (∀ b ∈ leafBlacks κ u, b = m) → ∀ b ∈ blacks κ u, b = m) →
        (∀ b ∈ leafBlacks κ u, b + (if κ a = .BLACK then 1 else 0) = n) →
        ∀ b ∈ blacks κ u, b + (if κ a = .BLACK then 1 else 0) = n := by
      intro u hu ih hleaf b hb
      obtain ⟨c, hc⟩ := exists_leaf (κ := κ) hu
      have h1 := hleaf c hc
      have h2 := ih c hu (fun b hb => by have := hleaf b hb; omega) b hb
      omega
    -- the null slot beside a subtree that is red throughout
    have hbeside : ∀ u, u ≠ .nil → (∀ b ∈ u.addrs, κ b = .RED) →
        (∀ b ∈ leafBlacks κ u, b + (if κ a = .BLACK then 1 else 0) = n) →
        (if κ a = .BLACK then 1 else 0) = n := by
      intro u hu hred hleaf
      obtain ⟨c, hc⟩ := exists_leaf (κ := κ) hu
      have h1 := hleaf c hc
      have h2 := blacks_eq_zero.mpr hred c (leafBlacks_subset hc)
      omega
    intro b hb
    rcases hb with hb | hb
    · by_cases hl : l = .nil
      · subst hl
        rw [List.mem_singleton.mp hb, Nat.zero_add]
        exact hbeside r (fun hr => hnil ⟨rfl, hr⟩) (hnl rfl) fun b hb => h b (.inr hb)
      · exact hhere l hl (fun m hu hm => ihl hu hm hll) (fun b hb => h b (.inl hb)) b hb
    · by_cases hr : r = .nil
      · subst hr
        rw [List.mem_singleton.mp hb, Nat.zero_add]
        exact hbeside l (fun hl => hnil ⟨hl, rfl⟩) (hnr rfl) fun b hb => h b (.inl hb)
      · exact hhere r hr (fun m hu hm => ihr hu hm hlr) (fun b hb => h b (.inr hb)) b hb

end Leaves

/-! ## The code -/

/-- What an audit reads; `element size i` is the index `i` of an array of `size` elements. -/
inductive Probe (Addr Key : Type) : Type → Type where
  | loadRoot : Probe Addr Key (Option Addr)
  | loadChild (a : Addr) (d : Side) : Probe Addr Key (Option Addr)
  | loadLocked (a : Addr) : Probe Addr Key Bool
  | loadColor (a : Addr) : Probe Addr Key Color
  | loadKey (a : Addr) : Probe Addr Key Key
  | loadCount : Probe Addr Key Int
  | element (size i : Nat) : Probe Addr Key Unit

variable {Addr Key : Type}

/-- An index that is out of range has no outcome. -/
def Probe.perform {β : Type} (p : Probe Addr Key β) (h : Heap Addr Key) :
    Option (β × Heap Addr Key) :=
  match p with
  | .loadRoot => some (h.root, h)
  | .loadChild a d => some (h.child a d, h)
  | .loadLocked a => some ((h.locked a).isSome, h)
  | .loadColor a => some (h.color a, h)
  | .loadKey a => some (h.key a, h)
  | .loadCount => some (h.count, h)
  | .element size i => if i < size then some ((), h) else none

/-- A run of an audit. -/
def audit {α : Type} (p : Prog (Probe Addr Key) α) (fuel : Nat) (h : Heap Addr Key) :
    Option (α × Heap Addr Key) :=
  p.run (fun e h => e.perform h) fuel h

section Code

open Prog (perform iterate)

/-! ### `dbg_rb_valid` -/

/-- `n != nullptr && n->color == RED`. -/
def redAt : Option Addr → Prog (Probe Addr Key) Bool
  | none => return false
  | some a => return (← perform (.loadColor a)) = .RED

/-- The red node `n` has a red child. -/
def redRed (n : Addr) : Prog (Probe Addr Key) Bool := do
  let l ← perform (.loadChild n .left)
  let r ← perform (.loadChild n .right)
  if ← redAt l then
    return true
  redAt r

/-- `if (n != nullptr) { stack[sp++] = frame{n, bh}; }`, where `sp` is the length of the stack. -/
def pushFrame (n : Option Addr) (bh : Int) (stack : List (Addr × Int)) :
    Prog (Probe Addr Key) (List (Addr × Int)) :=
  match n with
  | none => return stack
  | some a => do
    perform (.element 1024 stack.length)
    return (a, bh) :: stack

/-- The count of a frame: at a node without children against `target_bh`, else for the frames of
the children. -/
def countFrame (n : Addr) (bh : Int) (stack : List (Addr × Int)) (target : Int) :
    Prog (Probe Addr Key) (List (Addr × Int) × Int ⊕ Bool) := do
  let nbh := bh + if (← perform (.loadColor n)) = .BLACK then 1 else 0
  let l ← perform (.loadChild n .left)
  let r ← perform (.loadChild n .right)
  if l = none ∧ r = none then
    if target < 0 then
      return .inl (stack, nbh)
    else if nbh ≠ target then
      return .inr false
    else
      return .inl (stack, target)
  else
    let stack ← pushFrame l nbh stack
    let stack ← pushFrame r nbh stack
    return .inl (stack, target)

/-- One frame of `dbg_rb_valid`, from the stack and `target_bh`. -/
def rbStep : List (Addr × Int) × Int → Prog (Probe Addr Key) (List (Addr × Int) × Int ⊕ Bool)
  | ([], _) => return .inr true
  | ((n, bh) :: stack, target) => do
    if (← perform (.loadColor n)) = .RED then
      if ← redRed n then
        return .inr false
    countFrame n bh stack target

/-- `dbg_rb_valid`. -/
def dbgRbValid : Prog (Probe Addr Key) Bool := do
  match ← perform .loadRoot with
  | none => return true
  | some cur =>
    if (← perform (.loadColor cur)) ≠ .BLACK then
      return false
    let stack ← pushFrame (some cur) 1 []
    iterate rbStep (stack, -1)

/-! ### `dbg_validate` -/

/-- `if (n != nullptr && qt < 65536) { q[qt++] = n; }`. -/
def enqueueGuarded (n : Option Addr) (q : List Addr × Nat) :
    Prog (Probe Addr Key) (List Addr × Nat) :=
  match n with
  | none => return q
  | some a => do
    if q.2 < 65536 then
      perform (.element 65536 q.2)
      return (q.1 ++ [a], q.2 + 1)
    else
      return q

/-- One node of the search for a locked node, from the entries `q[qh], ..., q[qt - 1]` of the queue
and `qt`; the answer is `any_locked`. -/
def lockedStep : List Addr × Nat → Prog (Probe Addr Key) (List Addr × Nat ⊕ Bool)
  | ([], _) => return .inr false
  | (n :: q, qt) => do
    if ← perform (.loadLocked n) then
      return .inr true
    let l ← perform (.loadChild n .left)
    let r ← perform (.loadChild n .right)
    let q ← enqueueGuarded l (q, qt)
    let q ← enqueueGuarded r q
    return .inl q

/-- `node* q[65536]` with the root. -/
def rootQueue (root : Option Addr) : Prog (Probe Addr Key) (List Addr × Nat) :=
  match root with
  | none => return ([], 0)
  | some a => do
    perform (.element 65536 0)
    return ([a], 1)

/-- One round of the wait. -/
def waitStep (round : Nat) : Prog (Probe Addr Key) (Nat ⊕ Unit) := do
  if round < 100000 then
    let q ← rootQueue (← perform .loadRoot)
    if ← iterate lockedStep q then
      return .inl (round + 1)
    else
      return .inr ()
  else
    return .inr ()

variable [LT Key] [DecidableLT Key]

/-- `l->key() < n->key()` for the left child `l`, `n->key() < r->key()` for the right child `r`. -/
def inOrder (d : Side) (child parent : Key) : Bool :=
  match d with
  | .left => child < parent
  | .right => parent < child

/-- `if (n != nullptr)`: the order of `n` and its parent, then `q[qt++] = n`; `none` is a violation
of the order. -/
def enqueueChild (d : Side) (parent : Addr) (n : Option Addr) (q : List Addr × Nat) :
    Prog (Probe Addr Key) (Option (List Addr × Nat)) :=
  match n with
  | none => return some q
  | some a => do
    let k ← perform (.loadKey a)
    let kp ← perform (.loadKey parent)
    if inOrder d k kp then
      perform (.element 65536 q.2)
      return some (q.1 ++ [a], q.2 + 1)
    else
      return none

/-- One node of the structural check, from the entries `q[qh], ..., q[qt - 1]`, `qt` and `visited`;
the answer is the final `visited`, or `none` after a violation. -/
def structureStep : (List Addr × Nat) × Nat →
    Prog (Probe Addr Key) ((List Addr × Nat) × Nat ⊕ Option Nat)
  | (([], _), visited) => return .inr (some visited)
  | ((n :: q, qt), visited) => do
    let l ← perform (.loadChild n .left)
    let r ← perform (.loadChild n .right)
    match ← enqueueChild .left n l (q, qt) with
    | none => return .inr none
    | some q =>
      match ← enqueueChild .right n r q with
      | none => return .inr none
      | some q => return .inl (q, (visited + 1) % 2 ^ 32)

/-- `while (in != nullptr)`: down the left spine; `none` is a full stack. -/
def spineStep : Option Addr × List Addr →
    Prog (Probe Addr Key) (Option Addr × List Addr ⊕ Option (List Addr))
  | (none, stack) => return .inr (some stack)
  | (some a, stack) => do
    if 256 ≤ stack.length then
      return .inr none
    perform (.element 256 stack.length)
    let l ← perform (.loadChild a .left)
    return .inl (l, a :: stack)

/-- What follows the descent: the top of the stack against `prev`, which is `none` while `first` is
set. -/
def popStep (prev : Option Key) :
    Option (List Addr) → Prog (Probe Addr Key) (Option Addr × List Addr × Option Key ⊕ Bool)
  | none => return .inr false
  | some [] => do
    -- `stack[--sp]` of an empty stack
    perform (.element 256 (2 ^ 32 - 1))
    return .inr false
  | some (n :: stack) => do
    let k ← perform (.loadKey n)
    if ∀ p ∈ prev, p < k then
      let r ← perform (.loadChild n .right)
      return .inl (r, stack, some k)
    else
      return .inr false

/-- One node of the in-order check, from `in`, the stack and `prev`. -/
def inorderStep : Option Addr × List Addr × Option Key →
    Prog (Probe Addr Key) (Option Addr × List Addr × Option Key ⊕ Bool)
  | (none, [], _) => return .inr true
  | (cur, stack, prev) => do
    let r ← iterate spineStep (cur, stack)
    popStep prev r

/-- `dbg_validate`. -/
def dbgValidate : Prog (Probe Addr Key) Bool := do
  iterate waitStep 0
  let q ← rootQueue (← perform .loadRoot)
  match ← iterate structureStep (q, 0) with
  | none => return false
  | some visited =>
    if (visited : Int) ≠ (← perform .loadCount) % 2 ^ 64 then
      return false
    let root ← perform .loadRoot
    iterate inorderStep (root, [], none)

end Code

/-! ## `dbg_rb_valid` -/

section

variable {α : Type} {X : Prog (Probe Addr Key) α → Heap Addr Key → Prop} {h : Heap Addr Key}
  {t l r : PtrTree Addr} {target target' : Int} {A B : List Int} {bh : Int}
  {stack : List (Addr × Int)}

/-- The account of the runs of an audit. -/
abbrev auditing : Solo (Probe Addr Key) (Heap Addr Key) := Solo.of fun e h => e.perform h

/-- A stack with one more frame, where there is a node. -/
def pushed (t : PtrTree Addr) (bh : Int) (stack : List (Addr × Int)) : List (Addr × Int) :=
  match t.ptr with
  | none => stack
  | some a => (a, bh) :: stack

/-- A child is pushed if it is not null. -/
theorem pushFrame_spec {kont : List (Addr × Int) → Prog (Probe Addr Key) α}
    (hroom : t ≠ .nil → stack.length < 1024) (hk : Until auditing X (kont (pushed t bh stack)) h) :
    Until auditing X ((pushFrame t.ptr bh stack).bind kont) h := by
  cases t with
  | nil => exact hk
  | node a l r => exact Until.perform (if_pos (hroom (by simp))) hk

/-- Null is black. -/
theorem redAt_spec {kont : Bool → Prog (Probe Addr Key) α}
    (hk : ∀ b, (b = true ↔ ¬ Dark h.color t) → Until auditing X (kont b) h) :
    Until auditing X ((redAt t.ptr).bind kont) h := by
  cases t with
  | nil => exact hk false (by simp)
  | node a l r =>
    apply Until.perform rfl
    apply hk
    simp [Dark, PtrTree.ptr, Color.ne_black]

/-- Both children are looked at. -/
theorem redRed_spec {a : Addr} {kont : Bool → Prog (Probe Addr Key) α}
    (hl : h.child a .left = l.ptr) (hr : h.child a .right = r.ptr)
    (hk : ∀ b, (b = true ↔ ¬ (Dark h.color l ∧ Dark h.color r)) → Until auditing X (kont b) h) :
    Until auditing X ((redRed a).bind kont) h := by
  apply Until.perform rfl
  apply Until.perform rfl
  show Until _ X (Prog.bind (Prog.bind (redAt (h.child a .left)) _) kont) h
  rw [Prog.bind_assoc, hl]
  apply redAt_spec
  intro b hb
  cases b with
  | true => exact hk true (by tauto)
  | false =>
    show Until _ X (Prog.bind (redAt (h.child a .right)) kont) h
    rw [hr]
    apply redAt_spec
    intro b' hb'
    exact hk b' (by tauto)

/-- `target_bh` before and after leaves with the counts `A`, none of which it rejects. -/
structure Settles (target : Int) (A : List Int) (target' : Int) : Prop where
  keep : 0 ≤ target → target' = target
  all : ∀ b ∈ A, b = target'
  none : A = [] → target' = target

/-- What the target becomes is determined. -/
theorem Settles.unique {mid : Int} (h1 : Settles target A target') (h2 : Settles target A mid) :
    target' = mid := by
  cases A with
  | nil => rw [h1.none rfl, h2.none rfl]
  | cons b A => rw [← h1.all b List.mem_cons_self, h2.all b List.mem_cons_self]

/-- One part of the leaves is compared before the other one. -/
theorem settles_append (hB : ∀ b ∈ B, 0 ≤ b) : Settles target (A ++ B) target' ↔
    ∃ mid, Settles target B mid ∧ Settles mid A target' := by
  constructor
  · intro h
    cases B with
    | nil =>
      rw [List.append_nil] at h
      exact ⟨target, ⟨fun _ => rfl, by simp, fun _ => rfl⟩, h⟩
    | cons b B =>
      refine ⟨target', ⟨h.keep, fun c hc => h.all c (List.mem_append_right _ hc), by simp⟩, ?_⟩
      exact ⟨fun _ => rfl, fun c hc => h.all c (List.mem_append_left _ hc), fun _ => rfl⟩
  · rintro ⟨mid, h1, h2⟩
    refine ⟨?_, ?_, ?_⟩
    · intro h
      have := h1.keep h
      rw [h2.keep (by omega), this]
    · intro b hb
      rcases List.mem_append.mp hb with hb | hb
      · exact h2.all b hb
      · have hmid := h1.all b hb
        rw [h2.keep (hmid ▸ hB b hb), hmid]
    · intro h
      obtain ⟨rfl, rfl⟩ := List.append_eq_nil_iff.mp h
      rw [h2.none rfl, h1.none rfl]

/-- The counts of the leaves below a frame. -/
def levels (κ : Addr → Color) (t : PtrTree Addr) (bh : Int) : List Int :=
  (leafBlacks κ t).map fun b : Nat => bh + (b : Int)

/-- The audit counts up from what it has. -/
theorem levels_nonneg {κ : Addr → Color} (hbh : 0 ≤ bh) : ∀ b ∈ levels κ t bh, 0 ≤ b := by
  intro b hb
  obtain ⟨n, -, rfl⟩ := List.mem_map.mp hb
  omega

theorem levels_leaf {κ : Addr → Color} {a : Addr} : levels κ (.node a .nil .nil) bh =
    [bh + if κ a = .BLACK then 1 else 0] := by
  rw [levels, leafBlacks_leaf]
  split <;> rfl

/-- A black node adds one to the count of both subtrees. -/
theorem levels_node {κ : Addr → Color} {a : Addr} (hnil : ¬ (l = .nil ∧ r = .nil)) :
    levels κ (.node a l r) bh = levels κ l (bh + if κ a = .BLACK then 1 else 0) ++
      levels κ r (bh + if κ a = .BLACK then 1 else 0) := by
  rw [levels, leafBlacks_node hnil, List.map_map, List.map_append]
  congr 1
  all_goals
    apply List.map_congr_left
    intro b _
    simp only [Function.comp_apply]
    split <;> omega

/-- What the count of a frame does: `nbh` is the count at its node. -/
theorem countFrame_spec {kont : List (Addr × Int) × Int ⊕ Bool → Prog (Probe Addr Key) α}
    {a : Addr} (hl : h.child a .left = l.ptr) (hr : h.child a .right = r.ptr)
    (hroom : stack.length + (max l.depth r.depth + 1) ≤ 1024)
    (hleaf : l = .nil ∧ r = .nil → ∀ target',
      Settles target [bh + if h.color a = .BLACK then 1 else 0] target' →
      Until auditing X (kont (.inl (stack, target'))) h)
    (hbad : l = .nil ∧ r = .nil →
      (¬ ∃ target', Settles target [bh + if h.color a = .BLACK then 1 else 0] target') →
      Until auditing X (kont (.inr false)) h)
    (hinner : ¬ (l = .nil ∧ r = .nil) → Until auditing X (kont (.inl
      (pushed r (bh + if h.color a = .BLACK then 1 else 0)
        (pushed l (bh + if h.color a = .BLACK then 1 else 0) stack), target))) h) :
    Until auditing X ((countFrame a bh stack target).bind kont) h := by
  apply Until.perform rfl
  apply Until.perform rfl
  apply Until.perform rfl
  show Until _ X (Prog.bind (if h.child a .left = none ∧ h.child a .right = none then _ else _)
    kont) h
  rw [hl, hr]
  generalize bh + (if h.color a = .BLACK then 1 else 0) = nbh at *
  by_cases hnil : l = .nil ∧ r = .nil
  · obtain ⟨rfl, rfl⟩ := hnil
    rw [if_pos ⟨rfl, rfl⟩]
    split
    -- the first leaf fixes the target, every other one is compared with it
    · next hneg => exact hleaf ⟨rfl, rfl⟩ _ ⟨by omega, by simp, by simp⟩
    · next hpos =>
      split
      · next hne =>
        apply hbad ⟨rfl, rfl⟩
        rintro ⟨target', hset⟩
        have h1 := hset.keep (by omega)
        exact hne ((hset.all _ (List.mem_singleton_self _)).trans h1)
      · next heq => exact hleaf ⟨rfl, rfl⟩ _ ⟨fun _ => rfl, by simpa using heq, by simp⟩
  · rw [if_neg fun hp => hnil ⟨PtrTree.eq_nil_of_ptr hp.1, PtrTree.eq_nil_of_ptr hp.2⟩]
    show Until _ X (Prog.bind (Prog.bind (pushFrame l.ptr _ stack) _) kont) h
    rw [Prog.bind_assoc]
    apply pushFrame_spec (by omega)
    show Until _ X (Prog.bind (Prog.bind (pushFrame r.ptr _ _) _) kont) h
    rw [Prog.bind_assoc]
    apply pushFrame_spec
    · intro hne
      have h1 : 0 < r.depth := by
        cases r with
        | nil => exact absurd rfl hne
        | node b u v => exact Nat.succ_pos _
      unfold pushed
      split <;> simp <;> omega
    · exact hinner hnil

theorem length_pushed_le (t : PtrTree Addr) (bh : Int) (stack : List (Addr × Int)) :
    (pushed t bh stack).length ≤ stack.length + 1 := by
  unfold pushed
  split <;> simp

/-- A frame and what is pushed for the nodes below it. The induction is on the tree below the frame;
the right subtree is pushed last and comes first. -/
theorem rbLoop_spec {kont : Bool → Prog (Probe Addr Key) α} (ht : t.Fits h.child)
    (hbh : 0 ≤ bh) (hroom : stack.length + t.depth ≤ 1024)
    (hk : ∀ target', NoRedRed h.color t → Settles target (levels h.color t bh) target' →
      Until auditing X (.loop rbStep (stack, target') kont) h)
    (hbad : ¬ (NoRedRed h.color t ∧ ∃ target', Settles target (levels h.color t bh) target') →
      Until auditing X (kont false) h) :
    Until auditing X (.loop rbStep (pushed t bh stack, target) kont) h := by
  induction t generalizing bh stack target with
  | nil => exact hk target trivial ⟨fun _ => rfl, by simp [levels, leafBlacks], fun _ => rfl⟩
  | node a l r ihl ihr =>
    obtain ⟨hcl, hcr, hfl, hfr⟩ := ht
    simp only [PtrTree.depth] at hroom
    -- once the node itself is not red below red
    have hcount : (h.color a = .RED → Dark h.color l ∧ Dark h.color r) →
        Until auditing X ((countFrame a bh stack target).bind
          (Sum.elim (fun s => .loop rbStep s kont) kont)) h := by
      intro hred
      apply countFrame_spec hcl hcr hroom
      · rintro ⟨rfl, rfl⟩ target' hset
        exact hk target' ⟨hred, trivial, trivial⟩ (by rwa [levels_leaf])
      · rintro ⟨rfl, rfl⟩ hset
        apply hbad
        rw [levels_leaf]
        exact fun hgood => hset hgood.2
      · intro hnil
        have hnbh : 0 ≤ bh + if h.color a = .BLACK then 1 else 0 := by split <;> omega
        have hlen := length_pushed_le l (bh + if h.color a = .BLACK then 1 else 0) stack
        rw [levels_node hnil] at hk hbad
        simp only [settles_append (levels_nonneg hnbh)] at hk hbad
        apply ihr hfr hnbh (by omega)
        · intro mid hnr hmid
          apply ihl hfl hnbh (by omega)
          · intro target' hnl hset
            exact hk target' ⟨hred, hnl, hnr⟩ ⟨mid, hmid, hset⟩
          · intro hno
            apply hbad
            rintro ⟨⟨-, hnl, -⟩, target', mid', hmid', hset⟩
            -- the right subtree has fixed the target for the left one
            obtain rfl := hmid.unique hmid'
            exact hno ⟨hnl, target', hset⟩
        · intro hno
          apply hbad
          rintro ⟨⟨-, -, hnr⟩, target', mid, hmid, -⟩
          exact hno ⟨hnr, mid, hmid⟩
    apply Until.loop
    apply Until.perform rfl
    show Until _ X (Prog.bind (if h.color a = .RED then _ else _) _) h
    split
    · next hred =>
      show Until _ X (Prog.bind (Prog.bind (redRed a) _) _) h
      rw [Prog.bind_assoc]
      apply redRed_spec hcl hcr
      intro b hb
      cases b with
      | true =>
        apply hbad
        rintro ⟨⟨hdark, -⟩, -⟩
        exact hb.mp rfl (hdark hred)
      | false => exact hcount fun _ => by simpa using hb
    · next hblack => exact hcount fun hred => absurd hred hblack

/-- `dbg_rb_valid` answers whether the rules hold as far as the leaves show. -/
theorem dbgRbValid_spec (ht : h.Stores t) (hd : t.depth < 1024) :
    Ends auditing (fun b h' => h' = h ∧
      (b = true ↔ Dark h.color t ∧ NoRedRed h.color t ∧ LeavesAgree h.color t)) dbgRbValid h := by
  apply Until.perform rfl
  rw [ht.1]
  cases t with
  | nil => exact Ends.ret ⟨rfl, by simp [NoRedRed, LeavesAgree, leafBlacks]⟩
  | node a l r =>
    apply Until.perform rfl
    show Until _ _ (if h.color a ≠ .BLACK then _ else _) h
    split
    · next hred =>
      refine Ends.ret ⟨rfl, by simp, fun hgood => absurd (hgood.1 a rfl) hred⟩
    · next hblack =>
      have hdark : Dark h.color (.node a l r) := by
        intro b hb
        rw [← Option.some.inj hb]
        exact not_not.mp hblack
      -- the counts start from 1
      have hagree : (∃ target', Settles (-1) (levels h.color (.node a l r) 1) target') ↔
          LeavesAgree h.color (.node a l r) := by
        constructor
        · rintro ⟨target', hset⟩
          refine ⟨(target' - 1).toNat, fun b hb => ?_⟩
          have := hset.all _ (List.mem_map_of_mem hb)
          omega
        · rintro ⟨n, hn⟩
          obtain ⟨b, hb⟩ := exists_leaf (κ := h.color) (t := .node a l r) (by simp)
          refine ⟨1 + n, by omega, ?_, fun hnil => ?_⟩
          · intro c hc
            obtain ⟨m, hm, rfl⟩ := List.mem_map.mp hc
            rw [hn m hm]
          · rw [levels, List.map_eq_nil_iff] at hnil
            rw [hnil] at hb
            cases hb
      show Until _ _ (Prog.bind (pushFrame (PtrTree.node a l r).ptr 1 []) _) h
      apply pushFrame_spec fun _ => by simp
      apply rbLoop_spec ht.2 (by omega) (by simpa using hd.le)
      · intro target' hn hset
        apply Until.loop
        exact Ends.ret ⟨rfl, fun _ => ⟨hdark, hn, hagree.mp ⟨target', hset⟩⟩, fun _ => rfl⟩
      · intro hno
        refine Ends.ret ⟨rfl, by simp, fun hgood => ?_⟩
        exact absurd ⟨hgood.2.1, hagree.mpr hgood.2.2⟩ hno

/-- The red-black rules, as far as the leaves show and beside the nodes with one child. -/
theorem isRedBlack_iff_leaves {κ : Addr → Color} : IsRedBlack κ t ↔
    Dark κ t ∧ NoRedRed κ t ∧ LeavesAgree κ t ∧ NoLoneBlack κ t := by
  constructor
  · rintro ⟨hd, hn, n, hb⟩
    exact ⟨hd, hn, ⟨n, fun b hmem => hb b (leafBlacks_subset hmem)⟩, noLoneBlack_of_blacks hb⟩
  · rintro ⟨hd, hn, ⟨n, hb⟩, hlone⟩
    refine ⟨hd, hn, ?_⟩
    by_cases ht : t = .nil
    · exact ⟨0, by simp [ht, blacks]⟩
    · exact ⟨n, blacks_of_leaves ht hb hlone⟩

/-- `dbg_rb_valid` returns, and its answer is right unless a black node below a node with one child
is all that is wrong with the tree. -/
theorem dbgRbValid_exact_iff (h : Heap Addr Key) (t : PtrTree Addr) (ht : h.Stores t)
    (hd : t.depth < 1024) :
    (∃ N, ∀ fuel, N ≤ fuel → ∃ b, audit dbgRbValid fuel h = some (b, h) ∧
      (b = true ↔ IsRedBlack h.color t)) ↔
    (Dark h.color t → NoRedRed h.color t → LeavesAgree h.color t → NoLoneBlack h.color t) := by
  obtain ⟨N, b, h', hrun, rfl, hb⟩ := Ends.runs Solo.of_executes (dbgRbValid_spec ht hd)
  rw [isRedBlack_iff_leaves]
  constructor
  · rintro ⟨N', hN'⟩
    obtain ⟨b', hrun', hb'⟩ := hN' N' le_rfl
    obtain ⟨rfl, -⟩ := Prod.mk.inj (Prog.run_unique hrun hrun')
    tauto
  · intro hlone
    exact ⟨N, fun fuel hfuel => ⟨b, Prog.run_le hfuel hrun, by tauto⟩⟩

end

/-- A black root and one black child. -/
def blackPair : Heap Nat Int where
  root := some 2
  child := fun a d => match a, d with
    | 2, .left => some 1
    | _, _ => none
  locked := fun _ => none
  color := fun _ => .BLACK
  key := fun a => a
  count := 2
  retired := []
  freed := []

/-- The null slot beside the only child is not looked at. -/
theorem accepts_unbalanced_chain :
    ¬ ∀ (h : Heap Nat Int) (t : PtrTree Nat), h.Stores t → t.depth < 1024 →
      ∃ N, ∀ fuel, N ≤ fuel → ∃ b, audit dbgRbValid fuel h = some (b, h) ∧
        (b = true ↔ IsRedBlack h.color t) := by
  intro hall
  obtain ⟨N, hN⟩ := hall blackPair (.node 2 (.node 1 .nil .nil) .nil)
    ⟨rfl, rfl, rfl, ⟨rfl, rfl, trivial, trivial⟩, trivial⟩ (by decide)
  obtain ⟨b, hrun, hb⟩ := hN N le_rfl
  have haccept : audit dbgRbValid 20 blackPair = some (true, blackPair) := rfl
  obtain ⟨rfl, -⟩ := Prod.mk.inj (Prog.run_unique hrun haccept)
  obtain ⟨-, -, n, hn⟩ := hb.mp rfl
  -- two black nodes on the path through the child, one on the other
  have h1 := hn 1 (by decide)
  have h2 := hn 2 (by decide)
  omega

/-- Of the four conditions on the pair only that on the lone black child fails. -/
theorem dbgRbValid_exact_iff_pair :
    (∃ N, ∀ fuel, N ≤ fuel → ∃ b, audit dbgRbValid fuel blackPair = some (b, blackPair) ∧
      (b = true ↔ IsRedBlack blackPair.color (.node 2 (.node 1 .nil .nil) .nil))) ↔
    (Dark blackPair.color (.node 2 (.node 1 .nil .nil) .nil) →
      NoRedRed blackPair.color (.node 2 (.node 1 .nil .nil) .nil) →
      LeavesAgree blackPair.color (.node 2 (.node 1 .nil .nil) .nil) →
      NoLoneBlack blackPair.color (.node 2 (.node 1 .nil .nil) .nil)) :=
  dbgRbValid_exact_iff blackPair (.node 2 (.node 1 .nil .nil) .nil)
    ⟨rfl, rfl, rfl, ⟨rfl, rfl, trivial, trivial⟩, trivial⟩ (by decide)

/-! ## `dbg_validate` -/

section

variable {α : Type} {X : Prog (Probe Addr Key) α → Heap Addr Key → Prop} {h : Heap Addr Key}
  {t u : PtrTree Addr} {ts : List (PtrTree Addr)} {qt visited : Nat}

/-- The queue for the subtrees that are still to be visited. -/
def roots (ts : List (PtrTree Addr)) : List Addr := ts.filterMap PtrTree.ptr

/-- The number of nodes of some subtrees. -/
def sizes (ts : List (PtrTree Addr)) : Nat := (ts.map fun t => t.addrs.length).sum

@[simp] theorem roots_nil_cons : roots (.nil :: ts) = roots ts := rfl

@[simp] theorem roots_node_cons {a : Addr} {l r : PtrTree Addr} :
    roots (.node a l r :: ts) = a :: roots ts := rfl

@[simp] theorem roots_append_nil : roots (ts ++ [.nil]) = roots ts := by simp [roots, PtrTree.ptr]

@[simp] theorem roots_append_node {a : Addr} {l r : PtrTree Addr} :
    roots (ts ++ [.node a l r]) = roots ts ++ [a] := by
  simp [roots, PtrTree.ptr]

theorem length_roots_append (ts us : List (PtrTree Addr)) :
    (roots (ts ++ us)).length = (roots ts).length + (roots us).length := by
  rw [roots, List.filterMap_append, List.length_append]
  rfl

@[simp] theorem sizes_cons : sizes (t :: ts) = t.addrs.length + sizes ts := by simp [sizes]

@[simp] theorem sizes_append : sizes (ts ++ [t]) = sizes ts + t.addrs.length := by simp [sizes]

theorem addrs_length_node (a : Addr) (l r : PtrTree Addr) :
    (PtrTree.node a l r).addrs.length = l.addrs.length + r.addrs.length + 1 := by
  simp only [PtrTree.addrs, List.length_append, List.length_cons]
  omega

/-- The queue is no longer than what is left of the trees. -/
theorem length_roots_le (ts : List (PtrTree Addr)) : (roots ts).length ≤ sizes ts := by
  induction ts with
  | nil => exact le_rfl
  | cons t ts ih =>
    cases t with
    | nil => simpa [PtrTree.addrs] using ih
    | node a l r =>
      rw [roots_node_cons, sizes_cons, addrs_length_node, List.length_cons]
      omega

/-! ### The wait -/

/-- A child is enqueued if it is not null and the queue has room. -/
theorem enqueueGuarded_spec {kont : List Addr × Nat → Prog (Probe Addr Key) α}
    (hk : ∀ ts' qt', (∀ v ∈ ts', v ∈ ts ∨ v = u) →
      2 * sizes ts' + ts'.length ≤ 2 * sizes ts + ts.length + (2 * u.addrs.length + 1) →
      Until auditing X (kont (roots ts', qt')) h) :
    Until auditing X ((enqueueGuarded u.ptr (roots ts, qt)).bind kont) h := by
  have hsame : Until auditing X (kont (roots ts, qt)) h :=
    hk ts qt (fun v hv => .inl hv) (Nat.le_add_right _ _)
  cases u with
  | nil => exact hsame
  | node a l r =>
    show Until _ X (Prog.bind (if qt < 65536 then _ else _) kont) h
    split
    · next hlt =>
      apply Until.perform (if_pos hlt)
      show Until _ X (kont (roots ts ++ [a], qt + 1)) h
      rw [← roots_append_node (l := l) (r := r)]
      apply hk
      · intro v hv
        exact (List.mem_append.mp hv).imp_right List.mem_singleton.mp
      · rw [sizes_append, List.length_append, List.length_singleton]
        omega
    · exact hsame

/-- One round ends, whatever the guards leave out. The induction is on the number of nodes in the
queue and below it. -/
theorem lockedLoop_spec {kont : Bool → Prog (Probe Addr Key) α} (hu : ∀ a, h.locked a = none)
    (hts : ∀ t ∈ ts, t.Fits h.child) (hk : Until auditing X (kont false) h) :
    Until auditing X (.loop lockedStep (roots ts, qt) kont) h := by
  -- a queued subtree counts twice for each node and once for itself, so that empty ones count too
  induction hn : 2 * sizes ts + ts.length using Nat.strongRecOn generalizing ts qt with
  | _ n ih =>
    cases ts with
    | nil =>
      apply Until.loop
      exact hk
    | cons t ts =>
      have hrest : ∀ u ∈ ts, u.Fits h.child := fun u hmem => hts u (List.mem_cons_of_mem _ hmem)
      simp only [sizes_cons, List.length_cons] at hn
      cases t with
      | nil =>
        rw [roots_nil_cons]
        exact ih _ (by omega) hrest rfl
      | node a l r =>
        obtain ⟨hcl, hcr, hfl, hfr⟩ := hts _ List.mem_cons_self
        rw [addrs_length_node] at hn
        have hlocked : (Probe.loadLocked a : Probe Addr Key Bool).perform h = some (false, h) := by
          simp [Probe.perform, hu a]
        apply Until.loop
        apply Until.perform hlocked
        apply Until.perform rfl
        apply Until.perform rfl
        show Until _ X (Prog.bind (Prog.bind (enqueueGuarded (h.child a .left) _) _) _) h
        rw [Prog.bind_assoc, hcl]
        apply enqueueGuarded_spec
        intro ts₁ qt₁ hmem₁ hsize₁
        show Until _ X (Prog.bind (Prog.bind (enqueueGuarded (h.child a .right) _) _) _) h
        rw [Prog.bind_assoc, hcr]
        apply enqueueGuarded_spec
        intro ts₂ qt₂ hmem₂ hsize₂
        apply ih _ _ _ rfl
        · omega
        · intro v hv
          rcases hmem₂ v hv with hv | rfl
          · rcases hmem₁ v hv with hv | rfl
            · exact hrest v hv
            · exact hfl
          · exact hfr

theorem rootQueue_spec {kont : List Addr × Nat → Prog (Probe Addr Key) α}
    (hk : Until auditing X (kont (roots [t], (roots [t]).length)) h) :
    Until auditing X ((rootQueue t.ptr).bind kont) h := by
  cases t with
  | nil => exact hk
  | node a l r => exact Until.perform rfl hk

/-- With no lock held the wait is one round. -/
theorem wait_spec {kont : Unit → Prog (Probe Addr Key) α} (hu : ∀ a, h.locked a = none)
    (ht : h.Stores t) (hk : Until auditing X (kont ()) h) :
    Until auditing X (.loop waitStep 0 kont) h := by
  apply Until.loop
  apply Until.perform rfl
  show Until _ X (Prog.bind (Prog.bind (rootQueue h.root) _) _) h
  rw [Prog.bind_assoc, ht.1]
  apply rootQueue_spec
  apply lockedLoop_spec hu
  · intro u hmem
    rw [List.mem_singleton.mp hmem]
    exact ht.2
  · exact hk

/-! ### The structural check -/

variable [LinearOrder Key]

/-- The root of `u` is on the right side of its parent `a`, as `<` has it. -/
def Beside (key : Addr → Key) (d : Side) (a : Addr) (u : PtrTree Addr) : Prop :=
  ∀ b, u.ptr = some b → inOrder d (key b) (key a) = true

/-- Every node is on the right side of its parent. -/
def Parented (key : Addr → Key) : PtrTree Addr → Prop
  | .nil => True
  | .node a l r => Beside key .left a l ∧ Beside key .right a r ∧ Parented key l ∧ Parented key r

/-- A child is compared with its parent before it is enqueued. -/
theorem enqueueChild_spec {d : Side} {a : Addr}
    {kont : Option (List Addr × Nat) → Prog (Probe Addr Key) α}
    (hqt : qt ≤ 65536)
    (hk : Beside h.key d a u → qt + (roots [u]).length ≤ 65536 →
      Until auditing X (kont (some (roots (ts ++ [u]), qt + (roots [u]).length))) h)
    (hbad : ¬ Beside h.key d a u → Until auditing X (kont none) h)
    (hfull : 65536 < qt + (roots [u]).length → ∀ i k, 65536 ≤ i → X (.act (.element 65536 i) k) h) :
    Until auditing X ((enqueueChild d a u.ptr (roots ts, qt)).bind kont) h := by
  cases u with
  | nil =>
    rw [roots_append_nil] at hk
    exact hk (fun b hb => by cases hb) hqt
  | node b l r =>
    rw [roots_append_node] at hk
    apply Until.perform rfl
    apply Until.perform rfl
    have hbeside : Beside h.key d a (.node b l r) ↔ inOrder d (h.key b) (h.key a) = true := by
      simp [Beside, PtrTree.ptr]
    show Until _ X (Prog.bind (if inOrder d (h.key b) (h.key a) = true then _ else _) kont) h
    split
    · next hord =>
      by_cases hlt : qt < 65536
      · exact Until.perform (if_pos hlt) (hk (hbeside.mpr hord) hlt)
      · apply Until.stop
        exact hfull (Nat.lt_succ_of_le (Nat.le_of_not_lt hlt)) qt _ (Nat.le_of_not_lt hlt)
    · next hord => exact hbad fun hb => hord (hbeside.mp hb)

/-- The structural check counts the nodes, unless it finds one on the wrong side of its parent or
runs out of its queue. `qt` and the nodes that are still to be queued are the same throughout. -/
theorem structureLoop_spec {kont : Option Nat → Prog (Probe Addr Key) α}
    (hts : ∀ t ∈ ts, t.Fits h.child)
    (hk : (∀ t ∈ ts, Parented h.key t) → qt + sizes ts ≤ 65536 + (roots ts).length →
      Until auditing X (kont (some ((visited + sizes ts) % 2 ^ 32))) h)
    (hbad : ¬ (∀ t ∈ ts, Parented h.key t) → Until auditing X (kont none) h)
    (hfull : 65536 + (roots ts).length < qt + sizes ts →
      ∀ i k, 65536 ≤ i → X (.act (.element 65536 i) k) h)
    (hqt : qt ≤ 65536) (hv : visited < 2 ^ 32) :
    Until auditing X (.loop structureStep ((roots ts, qt), visited) kont) h := by
  -- induction on the nodes in the queue and below it: a turn takes one node out and puts its
  -- children in
  induction hn : 2 * sizes ts + ts.length using Nat.strongRecOn generalizing ts qt visited with
  | _ n ih =>
    cases ts with
    | nil =>
      apply Until.loop
      have hend := hk (by simp) hqt
      rwa [show sizes ([] : List (PtrTree Addr)) = 0 from rfl, Nat.add_zero,
        Nat.mod_eq_of_lt hv] at hend
    | cons t ts =>
      have hrest : ∀ u ∈ ts, u.Fits h.child := fun u hmem => hts u (List.mem_cons_of_mem _ hmem)
      simp only [sizes_cons, List.length_cons] at hn
      rw [List.forall_mem_cons, sizes_cons] at *
      cases t with
      | nil =>
        rw [roots_nil_cons, PtrTree.addrs, List.length_nil, Nat.zero_add] at *
        exact ih _ (by omega) hrest (fun h1 => hk ⟨trivial, h1⟩) (fun h1 => hbad fun h2 => h1 h2.2)
          hfull hqt hv rfl
      | node a l r =>
        obtain ⟨⟨hcl, hcr, hfl, hfr⟩, -⟩ := hts
        rw [addrs_length_node, roots_node_cons, List.length_cons] at *
        apply Until.loop
        apply Until.perform rfl
        apply Until.perform rfl
        show Until _ X (Prog.bind (Prog.bind (enqueueChild .left a (h.child a .left) _) _) _) h
        rw [Prog.bind_assoc, hcl]
        have hl := length_roots_le [l]
        have hr := length_roots_le [r]
        have hts := length_roots_le ts
        simp only [sizes, List.map_cons, List.map_nil, List.sum_cons, List.sum_nil] at hl hr
        apply enqueueChild_spec hqt
        · intro hbl hqt₁
          show Until _ X (Prog.bind (Prog.bind (enqueueChild .right a (h.child a .right) _) _) _) h
          rw [Prog.bind_assoc, hcr]
          apply enqueueChild_spec hqt₁
          · intro hbr hqt₂
            -- both children are on their sides and queued: what is queued now against what was
            -- before
            have hmem : ∀ P : PtrTree Addr → Prop, (∀ u ∈ ts ++ [l] ++ [r], P u) ↔
                P l ∧ P r ∧ ∀ u ∈ ts, P u := by
              intro P
              simp only [List.forall_mem_append, List.forall_mem_singleton]
              tauto
            have hsizes : sizes (ts ++ [l] ++ [r]) = sizes ts + l.addrs.length + r.addrs.length := by
              rw [sizes_append, sizes_append]
            have hlen : (roots (ts ++ [l] ++ [r])).length =
                (roots ts).length + (roots [l]).length + (roots [r]).length := by
              rw [length_roots_append, length_roots_append]
            apply ih _ _ _ _ _ _ hqt₂ (Nat.mod_lt _ (by decide)) rfl
            · rw [hsizes, List.length_append, List.length_append]
              simp only [List.length_singleton]
              omega
            · exact (hmem _).mpr ⟨hfl, hfr, hrest⟩
            · intro hpar hle
              obtain ⟨hpl, hpr, hpts⟩ := (hmem _).mp hpar
              rw [hsizes, hlen] at *
              have hend := hk ⟨⟨hbl, hbr, hpl, hpr⟩, hpts⟩ (by omega)
              have hsum : visited + 1 + (sizes ts + l.addrs.length + r.addrs.length) =
                  visited + (l.addrs.length + r.addrs.length + 1 + sizes ts) := by omega
              rw [Nat.mod_add_mod, hsum]
              exact hend
            · intro hno
              apply hbad
              rintro ⟨⟨-, -, hpl, hpr⟩, hpts⟩
              exact hno ((hmem _).mpr ⟨hpl, hpr, hpts⟩)
            · intro hlt
              rw [hsizes, hlen] at hlt
              apply hfull
              omega
          · exact fun hno => hbad fun hgood => hno hgood.1.2.1
          · intro hlt
            apply hfull
            omega
        · exact fun hno => hbad fun hgood => hno hgood.1.1
        · intro hlt
          apply hfull
          omega

/-! ### The in-order check -/

/-- The keys of `t` are in order and above `prev`. -/
def Increasing (key : Addr → Key) (prev : Option Key) (t : PtrTree Addr) : Prop :=
  (∀ a ∈ t.addrs, ∀ p ∈ prev, p < key a) ∧ (t.addrs.map key).Pairwise (· < ·)

/-- `prev'` is `prev` after the nodes of `t`. -/
def Passed (key : Addr → Key) (prev : Option Key) (t : PtrTree Addr) (prev' : Option Key) : Prop :=
  ∀ k, (∀ p ∈ prev', p < k) ↔ (∀ p ∈ prev, p < k) ∧ ∀ a ∈ t.addrs, key a < k

/-- The inner loop and what follows it. -/
def spine (kont : Bool → Prog (Probe Addr Key) α) (t : PtrTree Addr) (stack : List Addr)
    (prev : Option Key) : Prog (Probe Addr Key) α :=
  .loop spineStep (t.ptr, stack) fun r =>
    (popStep prev r).bind (Sum.elim (fun s => .loop inorderStep s kont) kont)

variable {kont : Bool → Prog (Probe Addr Key) α} {stack : List Addr} {prev : Option Key}

/-- The walk goes down to the left before it visits. -/
theorem inorder_spine (hne : t ≠ .nil ∨ stack ≠ []) (hk : Until auditing X (spine kont t stack prev) h) :
    Until auditing X (.loop inorderStep (t.ptr, stack, prev) kont) h := by
  apply Until.loop
  cases t with
  | node a l r => exact hk
  | nil =>
    cases stack with
    | nil => simp at hne
    | cons a stack => exact hk

/-- The node `a` between its subtrees. -/
theorem increasing_mk {key : Addr → Key} {a : Addr} {l r : PtrTree Addr} :
    Increasing key prev (.node a l r) ↔ Increasing key prev l ∧
      ((∀ p ∈ prev, p < key a) ∧ ∀ b ∈ l.addrs, key b < key a) ∧
      Increasing key (some (key a)) r := by
  simp only [Increasing, PtrTree.addrs, List.map_append, List.map_cons, List.pairwise_append,
    List.pairwise_cons, List.forall_mem_append, List.forall_mem_cons, List.forall_mem_map,
    Option.mem_def, Option.some.injEq, forall_eq']
  constructor
  · rintro ⟨⟨hpl, hpa, -⟩, hl, ⟨har, hr⟩, hlr⟩
    exact ⟨⟨hpl, hl⟩, ⟨hpa, fun b hb => (hlr b hb).1⟩, har, hr⟩
  · rintro ⟨⟨hpl, hl⟩, ⟨hpa, hla⟩, har, hr⟩
    refine ⟨⟨hpl, hpa, fun b hb p hp => (hpa p hp).trans (har b hb)⟩, hl, ⟨har, hr⟩, ?_⟩
    exact fun b hb => ⟨hla b hb, fun c hc => (hla b hb).trans (har c hc)⟩

/-- The keys of a tree increase if those of its parts do, and the parts are in order. -/
theorem increasing_node {key : Addr → Key} {a : Addr} {l r : PtrTree Addr} {prev' : Option Key}
    (hl : Passed key prev l prev') : Increasing key prev (.node a l r) ↔
      Increasing key prev l ∧ (∀ p ∈ prev', p < key a) ∧ Increasing key (some (key a)) r := by
  rw [increasing_mk, hl]

/-- The last key that has been passed. -/
theorem passed_node {key : Addr → Key} {a : Addr} {l r : PtrTree Addr} {prev₁ prev₂ : Option Key}
    (hl : Passed key prev l prev₁) (ha : ∀ p ∈ prev₁, p < key a)
    (hr : Passed key (some (key a)) r prev₂) : Passed key prev (.node a l r) prev₂ := by
  intro k
  obtain ⟨hpa, hla⟩ := (hl _).mp ha
  rw [hr]
  simp only [PtrTree.addrs, List.forall_mem_append, List.forall_mem_cons, Option.mem_def,
    Option.some.injEq, forall_eq']
  constructor
  · rintro ⟨hak, hrk⟩
    exact ⟨fun p hp => (hpa p hp).trans hak, fun b hb => (hla b hb).trans hak, hak, hrk⟩
  · rintro ⟨-, -, hak, hrk⟩
    exact ⟨hak, hrk⟩

/-- From the inner loop on a tree to the next turn of the outer one without it. The induction is on
the tree: the nodes on the left spine are on the stack when their left subtrees are done. -/
theorem spine_spec (ht : t.Fits h.child) (hne : t ≠ .nil ∨ stack ≠ [])
    (hroom : stack.length + t.depth ≤ 256)
    (hk : ∀ prev', Increasing h.key prev t → Passed h.key prev t prev' →
      Until auditing X (if stack = [] then kont true else spine kont .nil stack prev') h)
    (hbad : ¬ Increasing h.key prev t → Until auditing X (kont false) h) :
    Until auditing X (spine kont t stack prev) h := by
  induction t generalizing stack prev with
  | nil =>
    have hstack : stack ≠ [] := by simpa using hne
    have := hk prev ⟨by simp [PtrTree.addrs], by simp [PtrTree.addrs]⟩ fun k => by simp [PtrTree.addrs]
    rwa [if_neg hstack] at this
  | node a l r ihl ihr =>
    obtain ⟨hcl, hcr, hfl, hfr⟩ := ht
    simp only [PtrTree.depth] at hroom
    apply Until.loop
    show Until _ X (Prog.bind (if 256 ≤ stack.length then _ else _) _) h
    rw [if_neg (by omega)]
    apply Until.perform (if_pos (by omega))
    apply Until.perform rfl
    show Until _ X (.loop spineStep (h.child a .left, a :: stack) _) h
    rw [hcl]
    apply ihl hfl (.inr (by simp)) (by rw [List.length_cons]; omega)
    · intro prev₁ hinc hpass
      rw [if_neg (by simp)]
      apply Until.loop
      apply Until.perform rfl
      show Until _ X (Prog.bind (if ∀ p ∈ prev₁, p < h.key a then _ else _) _) h
      split
      · next hlt =>
        apply Until.perform rfl
        show Until _ X (.loop inorderStep (h.child a .right, stack, some (h.key a)) kont) h
        rw [hcr]
        have hrest : ∀ prev₂, Increasing h.key (some (h.key a)) r →
            Passed h.key (some (h.key a)) r prev₂ →
            Until auditing X (if stack = [] then kont true else spine kont .nil stack prev₂) h := by
          intro prev₂ hinc₂ hpass₂
          exact hk prev₂ ((increasing_node hpass).mpr ⟨hinc, hlt, hinc₂⟩)
            (passed_node hpass hlt hpass₂)
        by_cases hend : r = .nil ∧ stack = []
        · obtain ⟨rfl, rfl⟩ := hend
          apply Until.loop
          exact hrest (some (h.key a)) ⟨by simp [PtrTree.addrs], by simp [PtrTree.addrs]⟩ fun k => by
            simp [PtrTree.addrs]
        · have hne' : r ≠ .nil ∨ stack ≠ [] := by tauto
          apply inorder_spine hne'
          apply ihr hfr hne' (by omega) hrest
          exact fun hno => hbad fun hgood => hno ((increasing_node hpass).mp hgood).2.2
      · next hlt => exact hbad fun hgood => hlt ((increasing_node hpass).mp hgood).2.1
    · exact fun hno => hbad fun hgood => hno (increasing_mk.mp hgood).1

/-- The in-order check answers whether the keys are in order, as `<` has it. -/
theorem inorder_spec (ht : t.Fits h.child) (hroom : t.depth ≤ 256)
    (hk : Increasing h.key none t → Until auditing X (kont true) h)
    (hbad : ¬ Increasing h.key none t → Until auditing X (kont false) h) :
    Until auditing X (.loop inorderStep (t.ptr, [], none) kont) h := by
  by_cases hnil : t = .nil
  · subst hnil
    apply Until.loop
    exact hk ⟨by simp [PtrTree.addrs], by simp [PtrTree.addrs]⟩
  · apply inorder_spine (.inl hnil)
    apply spine_spec ht (.inl hnil) (by simpa using hroom)
    · intro prev' hinc _
      exact hk hinc
    · exact hbad

/-! ### The whole audit -/

/-- In a tree whose keys are in order every node is on the right side of its parent. -/
theorem Increasing.parented {key : Addr → Key} (ht : Increasing key prev t) : Parented key t := by
  induction t generalizing prev with
  | nil => trivial
  | node a l r ihl ihr =>
    obtain ⟨hl, ⟨-, hla⟩, hr⟩ := increasing_mk.mp ht
    refine ⟨fun b hb => ?_, fun b hb => ?_, ihl hl, ihr hr⟩
    · exact decide_eq_true (hla b (PtrTree.mem_of_ptr hb))
    · exact decide_eq_true (hr.1 b (PtrTree.mem_of_ptr hb) _ rfl)

/-- What `dbg_validate` accepts. -/
def Valid (h : Heap Addr Key) (t : PtrTree Addr) : Prop :=
  t.addrs.length ≤ 65536 ∧ Increasing h.key none t

/-- How `dbg_validate` ends where no lock is held and the count is right: it accepts the tree, or
rejects it, or writes behind the end of its queue. -/
theorem dbgValidate_spec (hu : ∀ a, h.locked a = none) (ht : h.Stores t) (hd : t.depth ≤ 256)
    (hc : h.count = t.addrs.length) :
    Until auditing (fun p h' => h' = h ∧ (p = .ret true ∧ Valid h t ∨
        ¬ Valid h t ∧ (p = .ret false ∨ ∃ i k, 65536 ≤ i ∧ p = .act (.element 65536 i) k)))
      dbgValidate h := by
  apply wait_spec hu ht
  apply Until.perform rfl
  show Until _ _ (Prog.bind (rootQueue h.root) _) h
  rw [ht.1]
  have hsize : sizes [t] = t.addrs.length := by simp [sizes]
  apply rootQueue_spec
  apply structureLoop_spec
  · intro u hmem
    rw [List.mem_singleton.mp hmem]
    exact ht.2
  · intro hpar hle
    -- the structure is right and was counted to its end, so it has fitted into the queue
    have hsmall : t.addrs.length ≤ 65536 := by omega
    rw [Nat.zero_add, hsize, Nat.mod_eq_of_lt (by omega)]
    apply Until.perform rfl
    show Until _ _ (if (t.addrs.length : Int) ≠ h.count % 2 ^ 64 then _ else _) h
    rw [hc, Int.emod_eq_of_lt (by omega) (by omega), if_neg (by simp)]
    apply Until.perform rfl
    show Until _ _ (.loop inorderStep (h.root, [], none) _) h
    rw [ht.1]
    apply inorder_spec ht.2 hd
    · exact fun hinc => Until.stop ⟨rfl, .inl ⟨rfl, hsmall, hinc⟩⟩
    · exact fun hno => Until.stop ⟨rfl, .inr ⟨fun hv => hno hv.2, .inl rfl⟩⟩
  · intro hno
    apply Until.stop
    refine ⟨rfl, .inr ⟨fun hv => hno fun u hmem => ?_, .inl rfl⟩⟩
    rw [List.mem_singleton.mp hmem]
    exact hv.2.parented
  · intro hlt i k hi
    refine ⟨rfl, .inr ⟨fun hv => ?_, .inr ⟨i, k, hi, rfl⟩⟩⟩
    have := hv.1
    omega
  · cases t with
    | nil => exact Nat.zero_le _
    | node a l r => simp [roots, PtrTree.ptr]
  · decide

omit [LinearOrder Key] in
/-- Behind the last cell of the queue there is nothing to read. -/
theorem stuck (i : Nat) (hi : 65536 ≤ i) (k : Unit → Prog (Probe Addr Key) α) (fuel : Nat) :
    audit (.act (.element 65536 i) k) fuel h = none := by
  cases fuel with
  | zero => rfl
  | succ fuel => simp [audit, Prog.run, Probe.perform, Nat.not_lt.mpr hi]

/-- `dbg_validate` returns `true` from the trees that it accepts, and from no others. -/
theorem dbgValidate_iff (hu : ∀ a, h.locked a = none) (ht : h.Stores t) (hd : t.depth ≤ 256)
    (hc : h.count = t.addrs.length) :
    (∃ N, ∀ fuel, N ≤ fuel → audit dbgValidate fuel h = some (true, h)) ↔ Valid h t := by
  have hspec := dbgValidate_spec hu ht hd hc
  constructor
  · rintro ⟨N, hN⟩
    obtain ⟨p, h', m, ⟨rfl, hX⟩, hrun⟩ := hspec.of_run Solo.of_executes (hN N le_rfl)
    rcases hX with ⟨rfl, hv⟩ | ⟨-, rfl | ⟨i, k, hi, rfl⟩⟩
    · exact hv
    · cases Prog.run_ret hrun
    · cases (stuck i hi k m).symm.trans hrun
  · intro hv
    have hends : Ends auditing (fun b h' => b = true ∧ h' = h) dbgValidate h := by
      apply hspec.mono
      rintro p h' ⟨rfl, ⟨rfl, -⟩ | ⟨hno, -⟩⟩
      · exact ⟨true, rfl, rfl, rfl⟩
      · exact absurd hv hno
    obtain ⟨N, b, h', hrun, rfl, rfl⟩ := Ends.runs Solo.of_executes hends
    exact ⟨N, fun fuel hfuel => Prog.run_le hfuel hrun⟩

end

/-- Of a strictly sorted list: it is sorted by `<` when the two orders agree on it. -/
theorem pairwise_lt_iff {Key : Type} [LinearOrder Key] {cmp : Key → Key → Bool}
    [StrictWeakOrder cmp] {ks : List Key} (hs : ks.Pairwise fun a b => cmp a b = true) :
    ks.Pairwise (· < ·) ↔ ∀ a ∈ ks, ∀ b ∈ ks, cmp a b = true ↔ a < b := by
  constructor
  · intro hlt a ha b hb
    have hfwd : ks.Pairwise fun a b => (cmp a b = true ↔ a < b) := by
      apply (hs.and hlt).imp
      intro a b ⟨h1, h2⟩
      simp [h1, h2]
    have hback : ks.Pairwise fun a b => (cmp b a = true ↔ b < a) := by
      apply (hs.and hlt).imp
      intro a b ⟨h1, h2⟩
      simp [StrictWeakOrder.asymm h1, h2.le]
    exact hfwd.forall_of_forall_of_flip (fun x _ => by simp [StrictWeakOrder.irrefl x]) hback ha hb
  · intro hagree
    apply hs.imp_of_mem
    exact fun ha hb hab => (hagree _ ha _ hb).mp hab

/-- In every state of a sequential run `dbg_validate` accepts the tree exactly if it has no more
nodes than the queue has elements and `Compare` orders its keys as `<` does. -/
theorem dbgValidate_accepts_iff {Key : Type} [LinearOrder Key] (cmp : Key → Key → Bool)
    [StrictWeakOrder cmp] (h : Heap Ptr Key) (t : PtrTree Ptr) (hr : Reached cmp h)
    (ht : h.Stores t) :
    (∃ N, ∀ fuel, N ≤ fuel → audit dbgValidate fuel h = some (true, h)) ↔
      t.addrs.length ≤ 65536 ∧
      ∀ a ∈ t.addrs, ∀ b ∈ t.addrs, cmp (h.key a) (h.key b) = true ↔ h.key a < h.key b := by
  obtain ⟨m, t', hq⟩ := hr.quiet
  obtain rfl := ht.unique hq.stores
  have hd : t.depth ≤ 256 :=
    (depth_le_of_sound small_ptr hq.rest.nodup hq.rest.sound).trans (by decide)
  have hkeys := pairwise_lt_iff (List.pairwise_map.mpr hq.sorted)
  rw [dbgValidate_iff hq.rest.unlocked ht hd hq.count, Valid]
  simp only [List.forall_mem_map] at hkeys
  rw [← hkeys, Increasing]
  simp

/-- `std::greater<int>`. -/
def greater (a b : Int) : Bool := b < a

instance : StrictWeakOrder greater where
  irrefl := by simp [greater]
  trans := by
    simp only [greater, decide_eq_true_eq]
    omega
  incomp_trans := by
    simp only [greater, decide_eq_false_iff_not]
    omega

/-- A reached tree may hold its keys in descending order. -/
theorem descending : ∃ (h : Heap Ptr Int) (t : PtrTree Ptr), Reached greater h ∧ h.Stores t ∧
    t.addrs.map h.key = [2, 1] := by
  have hf : Fresh (SortedMap.empty : SortedMap greater Ptr) [.insert (ptr 1) 1, .insert (ptr 2) 2] :=
    by decide
  obtain ⟨h, t, hr, ht, hentries⟩ := Reached.of_calls greater (fun _ => 0) hf
  refine ⟨h, t, hr, ht, ?_⟩
  have hkeys := congrArg (List.map Prod.fst) hentries
  rw [entriesOf, List.map_map] at hkeys
  exact hkeys

/-- A tree of two keys in descending order is rejected. -/
theorem rejects_descending :
    ¬ ∀ (cmp : Int → Int → Bool) [StrictWeakOrder cmp] (h : Heap Ptr Int), Reached cmp h →
      ∃ N, ∀ fuel, N ≤ fuel → audit dbgValidate fuel h = some (true, h) := by
  intro hall
  obtain ⟨h, t, hr, ht, hkeys⟩ := descending
  obtain ⟨m, t', hq⟩ := hr.quiet
  obtain rfl := ht.unique hq.stores
  have hd : t.depth ≤ 256 :=
    (depth_le_of_sound small_ptr hq.rest.nodup hq.rest.sound).trans (by decide)
  obtain ⟨-, -, hinc⟩ :=
    (dbgValidate_iff hq.rest.unlocked ht hd hq.count).mp (hall greater h hr)
  rw [hkeys] at hinc
  revert hinc
  decide

/-- Two keys in descending order, under the order `greater`. -/
theorem dbgValidate_accepts_iff_descending : ∃ (h : Heap Ptr Int) (t : PtrTree Ptr),
    t.addrs.map h.key = [2, 1] ∧
    ((∃ N, ∀ fuel, N ≤ fuel → audit dbgValidate fuel h = some (true, h)) ↔
      t.addrs.length ≤ 65536 ∧
      ∀ a ∈ t.addrs, ∀ b ∈ t.addrs, greater (h.key a) (h.key b) = true ↔ h.key a < h.key b) := by
  obtain ⟨h, t, hr, ht, hkeys⟩ := descending
  exact ⟨h, t, hkeys, dbgValidate_accepts_iff greater h t hr ht⟩

end MpmcMap.Ordered
