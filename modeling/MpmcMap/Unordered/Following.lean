import MpmcMap.Unordered.Followed

/-!
# What a thread knows of its call

A walk looks for the entry of a split-order key, or for a node that its own call has marked. From
where it stands the list leads to what it looks for, or that has been absent at some moment of the
call; a step of any thread keeps this, since a marked node stays in its place and a new node of the
key is linked only when there is none.
-/

namespace MpmcMap.Unordered

open Conc
open Prog (perform iterate)
open Function (update)

variable {Addr Key : Type}

namespace Entries

/-! ## Aims -/

/-- What a walk looks for. -/
inductive Aim (Addr : Type) where
  | anything
  /-- The place of a key. -/
  | place (so : Word)
  /-- The entry of a key. -/
  | entry (so : Word)
  /-- A node with its key. -/
  | node (a : Addr) (so : Word)

def Aim.word : Aim Addr → Option Word
  | .anything => none
  | .place so | .entry so | .node _ so => some so

/-- What is looked for was absent at some moment of the call, or is out of the list. -/
def Aim.Lost (C : Config Key) (head : Addr) (t : Nat) (s : Followed Addr Key) : Aim Addr → Prop
  | .anything | .place _ => True
  | .entry so => C.Separates → ∃ x ∈ s.moments.seen t, ∀ e ∈ x, C.splitKey e.2 ≠ so
  | .node a _ => s.Linked a ∧ ¬ s.heap.Reaches head a

/-- The node `x` is what is looked for. -/
def Aim.Met (head : Addr) (s : Followed Addr Key) (x : Addr) : Aim Addr → Prop
  | .anything | .place _ => False
  | .entry so => Live s.toAnnotated x ∧ s.heap.soKey x = so
  | .node a so => x = a ∧ s.heap.soKey a = so ∧ s.heap.Reaches head a

section Aims

variable {C : Config Key} {head : Addr} {s s' : Followed Addr Key} {t u : Nat} {A : Aim Addr}
  {a x : Addr} {so : Word}

theorem Aim.Met.soKey (h : A.Met head s x) (hw : A.word = some so) : s.heap.soKey x = so := by
  cases A with
  | anything => cases h
  | place w => cases h
  | entry w =>
    cases hw
    exact h.2
  | node b w =>
    cases hw
    rw [h.1]
    exact h.2.1

theorem Aim.Met.reaches (h : A.Met head s x) (hi : Shaped head s.toAged) :
    s.heap.Reaches head x := by
  cases A with
  | anything => cases h
  | place w => cases h
  | entry w => exact hi.live x h.1.linked h.1.unmarked
  | node b w =>
    rw [h.1]
    exact h.2.2

theorem Aim.Lost.keep (h : A.Lost C head t s) (hg : Follows head u s s')
    (hseen : s.moments.seen t ⊆ s'.moments.seen t) : A.Lost C head t s' := by
  cases A with
  | anything => exact h
  | place w => exact h
  | entry w =>
    intro hC
    obtain ⟨x, hx, habsent⟩ := h hC
    exact ⟨x, hseen hx, habsent⟩
  | node b w => exact ⟨hg.linked b h.1, fun hreach => h.2 (hg.back b h.1 hreach)⟩

/-- What is looked for stays, or gets lost. -/
theorem Aim.Met.keep (h : A.Met head s x) (hi : Told C head s) (hi' : Told C head s')
    (hg : Follows head u s s') : A.Met head s' x ∨ A.Lost C head t s' := by
  cases A with
  | anything => cases h
  | place w => cases h
  | entry w =>
    obtain ⟨⟨hlinked, hm, hreg⟩, hso⟩ := h
    have hso' : s'.heap.soKey x = s.heap.soKey x := hg.soKey x hlinked
    cases hm' : (s'.heap.next x).marked with
    | false => exact .inl ⟨⟨hg.linked x hlinked, hm', hso' ▸ hreg⟩, hso'.trans hso⟩
    | true =>
      -- the step has marked it, so it has added nothing
      refine .inr fun hC => ⟨_, hi'.now t, fun e he hkey => ?_⟩
      have hsub := hg.one.resolve_left fun hmarks => by
        have hmx := hmarks x hm'
        rw [hm] at hmx
        cases hmx
      obtain ⟨hlive, hk⟩ := (mem_entries hi.toReached).mp (hsub he)
      have hsoe : s.heap.soKey e.1 = w := by
        rw [hi.hashed e.1 hlive.linked hlive.regular, hk]
        exact hkey
      have heq := hi.unique hC hlive ⟨hlinked, hm, hreg⟩ (hsoe.trans hso.symm)
      have hme := ((mem_entries hi'.toReached).mp he).1.unmarked
      rw [heq, hm'] at hme
      cases hme
  | node b w =>
    obtain ⟨rfl, hso, hreach⟩ := h
    have hlinked := hi.linked_of_reaches hreach
    by_cases hreach' : s'.heap.Reaches head x
    · exact .inl ⟨rfl, (hg.soKey x hlinked).trans hso, hreach'⟩
    · exact .inr ⟨hg.linked x hlinked, hreach'⟩

end Aims

/-! ## Facts -/

/-- What a thread may know, for as long as its call lasts. -/
inductive Fact (Addr Key : Type) where
  | linked (a : Addr)
  | before (a b : Addr)
  | keyed (a : Addr) (so : Word)
  | below (a : Addr) (so : Word)
  | above (a : Addr) (so : Word)
  /-- The next pointer that was read, if it was marked; else the node held an entry. -/
  | seen (a : Addr) (r : Link Addr)
  | erased (a : Addr)
  | named (a : Addr) (k : Key)
  /-- The node has held an entry of the key. -/
  | was (a : Addr) (k : Key)
  /-- There has been an entry of the key. -/
  | found (k : Key)
  /-- The node is behind the run, or one of its marked nodes. -/
  | passed (a : Addr) (so : Word)
  | lost (A : Aim Addr)
  /-- From the node the list leads to what is looked for. -/
  | leads (a : Addr) (A : Aim Addr)
  /-- From the successor of the node the list leads to what is looked for. -/
  | past (a : Addr) (A : Aim Addr)
  /-- The node is one of the run, and leads to its entry. -/
  | inside (p : Option Addr) (so : Word)
  | pure (φ : Prop)

variable (C : Config Key) (head : Addr)

def Fact.holds (t : Nat) (s : Followed Addr Key) : Fact Addr Key → Prop
  | .linked a => s.Linked a
  | .before a b => s.Before a b
  | .keyed a so => s.Linked a ∧ s.heap.soKey a = so
  | .below a so => s.Linked a ∧ s.heap.soKey a < so
  | .above a so => s.Linked a ∧ so ≤ s.heap.soKey a
  | .seen a r => s.Linked a ∧ (r.marked = true → s.heap.next a = r) ∧
      (r.marked = false → isRegular (s.heap.soKey a) = true →
        ∃ x ∈ s.moments.seen t, (a, s.heap.key a) ∈ x)
  | .erased a => (s.heap.next a).marked = true
  | .named a k => a ∈ s.heap.inUse ∧ s.heap.key a = k
  | .was a k => s.Linked a ∧ C.eq (s.heap.key a) k = true ∧
      ∃ x ∈ s.moments.seen t, (a, s.heap.key a) ∈ x
  | .found k => ∃ x ∈ s.moments.seen t, ∃ e ∈ x, C.eq e.2 k = true
  | .passed a so => s.Linked a ∧ (C.Separates →
      so < s.heap.soKey a ∨ s.heap.soKey a = so ∧ (s.heap.next a).marked = true)
  | .lost A => A.Lost C head t s
  | .leads a A => s.Linked a ∧
      (A.Lost C head t s ∨ ∃ x, A.Met head s x ∧ s.heap.Reaches a x)
  | .past a A => s.Linked a ∧
      (A.Lost C head t s ∨ ∃ x, A.Met head s x ∧ x ≠ a ∧ s.heap.Reaches a x)
  | .inside p so => Aim.Lost C head t s (.entry so) ∨ ∃ a x, p = some a ∧ s.Linked a ∧
      s.heap.soKey a = so ∧ Aim.Met head s x (.entry so) ∧ s.heap.Reaches a x
  | .pure φ => φ

/-- A node of a thread, its key, and the pointer that the thread has stored in it, where that
matters. -/
structure Own (Addr : Type) where
  node : Addr
  so : Word
  next : Option (Option Addr)

structure Own.holds (t : Nat) (s : Aged Addr Key) (x : Own Addr) : Prop where
  owner : s.owner x.node = some t
  so : s.heap.soKey x.node = x.so
  next : ∀ p, x.next = some p → s.heap.next x.node = .plain p

/-- How far a call has come: what it answers, if it has made its change, the node that it has marked
and not retired yet, and what it has not counted yet. -/
structure Turn (Addr Key : Type) where
  op : Request Addr Key
  answer : Option (Answer Addr Key)
  right : Option Addr
  credit : Bool
  debit : Bool

/-- What the call `op` has changed if it is to answer `a`. -/
def Changed (m : Moments (Request Addr Key) (Contents Addr Key)) (t : Nat) (op : Request Addr Key) :
    Option (Answer Addr Key) → Prop
  | none => m.changes t = []
  | some r => ∃ x x', m.changes t = [(x, x')] ∧ op.Does C x x' r

structure Turn.holds (t : Nat) (s : Followed Addr Key) (T : Turn Addr Key) : Prop where
  call : s.moments.call t = some T.op
  changed : C.Separates → Changed C s.moments t T.op T.answer
  right : s.right t = T.right
  credit : t ∈ s.credit ↔ T.credit = true
  debit : t ∈ s.debit ↔ T.debit = true

/-- What a thread has to itself. -/
structure Hand (Addr Key : Type) where
  turn : Turn Addr Key
  nodes : List (Own Addr)

/-- Thread `t` has `H` to itself and knows the facts `l`. -/
structure Has (t : Nat) (H : Hand Addr Key) (l : List (Fact Addr Key)) (s : Followed Addr Key) :
    Prop where
  nodup : (H.nodes.map Own.node).Nodup
  own : ∀ x ∈ H.nodes, x.holds t s.toAged
  turn : H.turn.holds C t s
  knows : ∀ f ∈ l, f.holds C head t s

variable [DecidableEq Addr]

/-- The proof obligations of the threads. -/
noncomputable def following :
    Discipline ((@list Addr Key _ C).timed (Heap.entries head)) (Followed Addr Key) where
  erase s := (s.heap, s.moments)
  inv s := Told C head s ∧ Booked head s
  guar := Follows head
  ok t e s := HelpsListed t e s.1

/-- From `H` and the facts `l`, the program comes to have `h r` and to know the facts `g r`, where
`r` is its result; what else was known stays known. -/
def Spec {α : Type} (t : Nat) (H : Hand Addr Key) (l : List (Fact Addr Key)) (p : Code Addr Key α)
    (h : α → Hand Addr Key) (g : α → List (Fact Addr Key)) : Prop :=
  ∀ l', l ⊆ l' → ∀ s, Told C head s → Booked head s → Has C head t H l' s →
    (following C head).WP t p (fun r s => Has C head t (h r) (g r ++ l') s) s

section Rules

variable {C} {head} {t u : Nat} {H : Hand Addr Key} {l : List (Fact Addr Key)} {α β γ σ : Type}
  {h : α → Hand Addr Key} {g : α → List (Fact Addr Key)} {s s' : Followed Addr Key}

omit [DecidableEq Addr] in
theorem Fact.keep (hi : Told C head s) (hi' : Told C head s') (hg : Follows head u s s')
    (hseen : s.moments.seen t ⊆ s'.moments.seen t) {f : Fact Addr Key} (hf : f.holds C head t s) :
    f.holds C head t s' := by
  cases f with
  | linked a => exact hg.linked a hf
  | before a b => exact hg.before hf
  | keyed a so => exact ⟨hg.linked a hf.1, (hg.soKey a hf.1).trans hf.2⟩
  | below a so =>
    refine ⟨hg.linked a hf.1, ?_⟩
    rw [hg.soKey a hf.1]
    exact hf.2
  | above a so =>
    refine ⟨hg.linked a hf.1, ?_⟩
    rw [hg.soKey a hf.1]
    exact hf.2
  | seen a r =>
    obtain ⟨hlinked, hmarked, hlive⟩ := hf
    refine ⟨hg.linked a hlinked, fun hr => ?_, fun hr hreg => ?_⟩
    · rw [hg.marked a (by rw [hmarked hr]; exact hr)]
      exact hmarked hr
    · rw [hg.soKey a hlinked] at hreg
      obtain ⟨x, hx, hmem⟩ := hlive hr hreg
      rw [(hg.inUse a hlinked.1).2]
      exact ⟨x, hseen hx, hmem⟩
  | erased a =>
    have hm : (s.heap.next a).marked = true := hf
    show (s'.heap.next a).marked = true
    rw [hg.marked a hm]
    exact hm
  | named a k => exact ⟨(hg.inUse a hf.1).1, (hg.inUse a hf.1).2.trans hf.2⟩
  | was a k =>
    obtain ⟨hlinked, heq, x, hx, hmem⟩ := hf
    refine ⟨hg.linked a hlinked, ?_⟩
    rw [(hg.inUse a hlinked.1).2]
    exact ⟨heq, x, hseen hx, hmem⟩
  | found k =>
    obtain ⟨x, hx, he⟩ := hf
    exact ⟨x, hseen hx, he⟩
  | passed a so =>
    refine ⟨hg.linked a hf.1, fun hC => ?_⟩
    rw [hg.soKey a hf.1]
    rcases hf.2 hC with hlt | ⟨heq, hm⟩
    · exact .inl hlt
    · refine .inr ⟨heq, ?_⟩
      rw [hg.marked a hm]
      exact hm
  -- a lost aim stays lost; below, an aim is kept or gets lost
  | lost A => exact Aim.Lost.keep hf hg hseen
  | leads a A =>
    refine ⟨hg.linked a hf.1, ?_⟩
    rcases hf.2 with hlost | ⟨x, hx, hreach⟩
    · exact .inl (hlost.keep hg hseen)
    · rcases hx.keep hi hi' hg with hx' | hlost
      · exact .inr ⟨x, hx', hg.course a x hf.1 hreach (hx'.reaches hi'.toShaped)⟩
      · exact .inl hlost
  | past a A =>
    refine ⟨hg.linked a hf.1, ?_⟩
    rcases hf.2 with hlost | ⟨x, hx, hne, hreach⟩
    · exact .inl (hlost.keep hg hseen)
    · rcases hx.keep hi hi' hg with hx' | hlost
      · exact .inr ⟨x, hx', hne, hg.course a x hf.1 hreach (hx'.reaches hi'.toShaped)⟩
      · exact .inl hlost
  | inside p so =>
    rcases hf with hlost | ⟨a, x, hp, hlinked, hso, hx, hreach⟩
    · exact .inl (hlost.keep hg hseen)
    · rcases hx.keep hi hi' hg with hx' | hlost
      · exact .inr ⟨a, x, hp, hg.linked a hlinked, (hg.soKey a hlinked).trans hso, hx',
          hg.course a x hlinked hreach (hx'.reaches hi'.toShaped)⟩
      · exact .inl hlost
  | pure φ => exact hf

omit [DecidableEq Addr] in
theorem Own.keep (hu : t ≠ u) (hg : Follows head u s s') {x : Own Addr}
    (hx : x.holds t s.toAged) : x.holds t s'.toAged := by
  refine ⟨hg.owner t hu x.node hx.owner, ?_, fun p hp => ?_⟩
  · rw [hg.own t hu x.node hx.owner]
    exact hx.so
  · rw [hg.mine t hu x.node hx.owner]
    exact hx.next p hp

omit [DecidableEq Addr] in
theorem Changed.congr {m m' : Moments (Request Addr Key) (Contents Addr Key)}
    {op : Request Addr Key} {r : Option (Answer Addr Key)} (hc : Changed C m t op r)
    (hm : m'.changes t = m.changes t) : Changed C m' t op r := by
  cases r with
  | none => exact hm.trans hc
  | some r =>
    obtain ⟨x, x', hx, hdoes⟩ := hc
    exact ⟨x, x', hm.trans hx, hdoes⟩

omit [DecidableEq Addr] in
theorem Turn.keep (hu : t ≠ u) (hg : Follows head u s s') {T : Turn Addr Key}
    (hT : T.holds C t s) : T.holds C t s' := by
  obtain ⟨-, hchanges, hcall⟩ := hg.calls t hu
  obtain ⟨hright, hcredit, hdebit⟩ := hg.books t hu
  exact ⟨hcall.trans hT.call, fun hC => (hT.changed hC).congr hchanges, hright.trans hT.right,
    hcredit.trans hT.credit, hdebit.trans hT.debit⟩

theorem stable_has : (following C head).Stable t (Has C head t H l) := by
  intro u hu s s' hi hi' hg hh
  have hg : Follows head u s s' := hg
  exact ⟨hh.nodup, fun x hx => Own.keep hu.symm hg (hh.own x hx), Turn.keep hu.symm hg hh.turn,
    fun f hf => Fact.keep hi.1 hi'.1 hg (hg.calls t hu.symm).1 (hh.knows f hf)⟩

omit [DecidableEq Addr] in
theorem Has.learn {l' : List (Fact Addr Key)} (hh : Has C head t H l s)
    (hl : ∀ f ∈ l', f.holds C head t s) : Has C head t H l' s :=
  ⟨hh.nodup, hh.own, hh.turn, hl⟩

omit [DecidableEq Addr] in
theorem Has.mono {l' : List (Fact Addr Key)} (hh : Has C head t H l s) (hl : l' ⊆ l) :
    Has C head t H l' s :=
  hh.learn fun f hf => hh.knows f (hl hf)

omit [DecidableEq Addr] in
theorem Has.append {l' : List (Fact Addr Key)} (hh : Has C head t H l s)
    (h' : ∀ f ∈ l', f.holds C head t s) : Has C head t H (l ++ l') s :=
  hh.learn fun f hf => (List.mem_append.mp hf).elim (hh.knows f) (h' f)

/-- Less than what a thread has to itself. -/
structure Hand.Within (H' H : Hand Addr Key) : Prop where
  turn : H'.turn = H.turn
  nodes : H'.nodes.Sublist H.nodes

omit [DecidableEq Addr] in
theorem Hand.Within.refl (H : Hand Addr Key) : H.Within H := ⟨rfl, .refl _⟩

omit [DecidableEq Addr] in
theorem Has.within {H' : Hand Addr Key} (hh : Has C head t H l s) (hH : H'.Within H) :
    Has C head t H' l s :=
  ⟨(hH.nodes.map _).nodup hh.nodup, fun x hx => hh.own x (hH.nodes.subset hx),
    hH.turn ▸ hh.turn, hh.knows⟩

omit [DecidableEq Addr] in
theorem append_mono {m l l' : List (Fact Addr Key)} (hl : l ⊆ l') : m ++ l ⊆ m ++ l' :=
  List.append_subset.mpr
    ⟨List.subset_append_left _ _, List.subset_append_of_subset_right _ hl⟩

theorem Spec.ret {r : α} (hH : (h r).Within H) (hg : g r ⊆ l) :
    Spec C head t H l (.ret r) h g := by
  intro l' hl s hi hb hh
  refine Discipline.WP.ret stable_has ⟨hi, hb⟩ ((hh.within hH).mono ?_)
  exact List.append_subset.mpr ⟨fun f hf => hl (hg hf), List.Subset.refl l'⟩

theorem Spec.bind {p : Code Addr Key α} {f : α → Code Addr Key γ} {h' : γ → Hand Addr Key}
    {g' : γ → List (Fact Addr Key)} (hp : Spec C head t H l p h g)
    (hf : ∀ r, Spec C head t (h r) (g r ++ l) (f r) h' g') :
    Spec C head t H l (p.bind f) h' g' := by
  intro l' hl s hi hb hh
  apply Discipline.WP.bind
  apply Discipline.WP.mono ?_ (hp l' hl s hi hb hh)
  intro r s hi hh
  apply Discipline.WP.mono ?_ (hf r _ (append_mono hl) s hi.1 hi.2 hh)
  intro r' s _ hh
  exact hh.mono (append_mono (List.subset_append_right _ _))

/-- The facts that are known may be used. -/
theorem Spec.assume {p : Code Addr Key α} {φ : Prop} (hφ : .pure φ ∈ l)
    (hp : φ → Spec C head t H l p h g) : Spec C head t H l p h g :=
  fun l' hl s hi hb hh => hp (hh.knows _ (hl hφ)) l' hl s hi hb hh

/-- What follows from the facts that are known is known. -/
theorem Spec.infer {p : Code Addr Key α} (m : List (Fact Addr Key))
    (hm : ∀ s : Followed Addr Key, Told C head s → (∀ f ∈ l, f.holds C head t s) →
      ∀ f ∈ m, f.holds C head t s)
    (hp : Spec C head t H (m ++ l) p h g) : Spec C head t H l p h g := by
  intro l' hl s hi hb hh
  have hknow := hm s hi fun f hf => hh.knows f (hl hf)
  refine Discipline.WP.mono ?_ (hp _ (append_mono hl) s hi hb (hh.learn fun f hf =>
    (List.mem_append.mp hf).elim (hknow f) (hh.knows f)))
  intro r s _ hh
  exact hh.mono (append_mono (List.subset_append_right _ _))

/-- What is true is known. -/
theorem Spec.learn {p : Code Addr Key α} {φ : Prop} (hφ : φ)
    (hp : Spec C head t H (.pure φ :: l) p h g) : Spec C head t H l p h g :=
  .infer [.pure φ] (fun _ _ _ f hf => by
    obtain rfl := List.mem_singleton.mp hf
    exact hφ) hp

/-- What the program knows when it returns, from what it has come to know. -/
theorem Spec.post {p : Code Addr Key α} {g' : α → List (Fact Addr Key)}
    (hp : Spec C head t H l p h g)
    (hg : ∀ r (s : Followed Addr Key), Told C head s → (∀ f ∈ g r ++ l, f.holds C head t s) →
      ∀ f ∈ g' r, f.holds C head t s) :
    Spec C head t H l p h g' := by
  intro l' hl s hi hb hh
  apply Discipline.WP.mono ?_ (hp l' hl s hi hb hh)
  intro r s hi hh
  refine hh.learn fun f hf => ?_
  rcases List.mem_append.mp hf with hf | hf
  · refine hg r s hi.1 (fun f hf => hh.knows f ?_) f hf
    exact (List.mem_append.mp hf).elim (List.mem_append_left _) fun hf =>
      List.mem_append_right _ (hl hf)
  · exact hh.knows f (List.mem_append_right _ hf)

/-- A loop; it knows the facts `I st` of its locals. -/
theorem Spec.loop {body : σ → Code Addr Key (σ ⊕ α)} {st : σ} (I : σ → List (Fact Addr Key))
    (hst : I st ⊆ l)
    (hbody : ∀ st, Spec C head t H (I st ++ l) (body st) (Sum.elim (fun _ => H) h)
      (Sum.elim I g)) :
    Spec C head t H l (iterate body st) h g := by
  intro l' hl s hi hb hh
  refine Discipline.WP.loop (I := fun st => Has C head t H (I st ++ l')) (fun _ => stable_has)
    ⟨hi, hb⟩ (hh.mono ?_) fun st s hi hh => ?_
  · exact List.append_subset.mpr ⟨fun f hf => hl (hst hf), List.Subset.refl l'⟩
  · apply Discipline.WP.mono ?_ (hbody st _ (append_mono hl) s hi.1 hi.2 hh)
    intro r s hi hh
    have hkeep := hh.mono (append_mono (List.subset_append_right (I st) l'))
    cases r with
    | inl st' => exact hkeep
    | inr r => exact Discipline.WP.ret stable_has hi hkeep

/-- One action. -/
theorem Spec.act {o : Op Addr Key β} {k : β → Code Addr Key α} (h' : β → Hand Addr Key)
    (g' : β → List (Fact Addr Key))
    (hstep : ∀ s b r m, Told C head s → Booked head s → Has C head t H l s →
      HelpsListed t o s.heap → o.apply b s.heap = some (r, m) → ∃ x : Followed Addr Key,
        x.heap = m ∧ x.moments = s.moments.step t (s.heap.entries head) (m.entries head) ∧
        Told C head x ∧ Booked head x ∧ Follows head t s x ∧ Has C head t (h' r) (g' r) x)
    (hk : ∀ r, Spec C head t (h' r) (g' r ++ l) (k r) h g) : Spec C head t H l (.act o k) h g := by
  intro l' hl s hi hb hh
  refine Discipline.WP.act stable_has ⟨hi, hb⟩ hh fun s b r m hi hh hok htimed => ?_
  obtain ⟨⟨r', m'⟩, hact, heq⟩ := Option.map_eq_some_iff.mp htimed
  obtain ⟨rfl, rfl⟩ := Prod.mk.inj heq
  obtain ⟨x, hx, hmoments, hi', hb', hg, hh'⟩ := hstep s b r' m' hi.1 hi.2 (hh.mono hl) hok hact
  have hseen : s.moments.seen t ⊆ x.moments.seen t := by
    rw [hmoments]
    exact Set.subset_insert _ _
  refine ⟨x, Prod.ext hx ?_, ⟨hi', hb'⟩, hg, ?_⟩
  · exact hmoments
  · have hhas := hh'.append fun f hf => Fact.keep hi.1 hi' hg hseen (hh.knows f hf)
    apply Discipline.WP.mono ?_ (hk r' _ (append_mono hl) x hi' hb' hhas)
    intro _ s _ hh
    exact hh.mono (append_mono (List.subset_append_right _ _))

end Rules

end Entries

end MpmcMap.Unordered
