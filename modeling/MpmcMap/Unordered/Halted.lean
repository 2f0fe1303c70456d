import MpmcMap.Unordered.Iterators

/-!
# Walks over marked nodes

The list when other operations have stopped in the middle: erasers may have marked nodes that they
have not unlinked. An operation that runs alone helps to unlink those that its walks come to. It goes
to a certain node of the list, and from there on the list stays as it is.
-/

namespace MpmcMap.Unordered

open Conc
open Prog (perform iterate)

variable {Addr Key : Type}

/-! ## The list -/

/-- The heap without marks, and as if nobody was growing the table. -/
def Heap.bare (h : Heap Addr Key) : Heap Addr Key :=
  { h with next := fun a => (h.next a).clearMark, growing := false }

/-- The configuration under which a key may occur more than once. -/
def Config.loose (C : Config Key) : Config Key := { C with eq := fun _ _ => false }

/-- The list of the container is `N`. Any regular nodes may be marked, and a key may occur more than
once. -/
structure Halted (C : Config Key) (h : Heap Addr Key) (N : List Addr) : Prop where
  stores : Stores C.loose h.bare N
  dummies : ∀ a ∈ N, isRegular (h.soKey a) = false → (h.next a).marked = false

section List

variable {C : Config Key} {h h' : Heap Addr Key} {A B N : List Addr} {n p c : Addr} {cmp : Word}

theorem Link.eq_plain {l : Link Addr} {q : Option Addr} (hl : l.clearMark = .plain q)
    (hm : l.marked = false) : l = .plain q := by
  rw [← hl, Link.clearMark, ← hm]

/-- A state between two operations is one of these. -/
theorem Stores.halted (hs : Stores C h N) : Halted C h N := by
  obtain ⟨hlinked, hmark⟩ := hs.linked.unmarked
  refine ⟨?_, fun a ha _ => hmark a ha⟩
  constructor
  · exact hlinked
  · exact hs.nodup
  · exact hs.sorted
  · exact hs.alive
  · exact hs.size
  · exact hs.made
  · exact hs.head
  · exact hs.filled
  · exact hs.keyed
  · exact hs.distinct.imp fun _ => rfl
  · rfl

theorem Halted.next_eq (hs : Halted C h (A ++ p :: B)) (hp : (h.next p).marked = false) :
    h.next p = .plain B.head? := Link.eq_plain hs.stores.linked.next_eq hp

/-- What the list of the container depends on. -/
theorem Halted.congr (hs : Halted C h N) (hnext : ∀ a ∈ N, h'.next a = h.next a)
    (hso : ∀ a ∈ N, h'.soKey a = h.soKey a) (hkey : ∀ a ∈ N, h'.key a = h.key a)
    (halive : ∀ a ∈ N, a ∈ h'.inUse)
    (htable : h'.table = h.table ∧ h'.tables = h.tables ∧ h'.size = h.size ∧
      h'.bucket = h.bucket) : Halted C h' N := by
  obtain ⟨h1, h2, h3, h4⟩ := htable
  refine ⟨hs.stores.congr (fun a ha => ?_) hso (fun a ha _ => hkey a ha) halive
    ⟨h1, h2, h3, h4, rfl⟩, fun a ha hr => ?_⟩
  · exact congrArg Link.clearMark (hnext a ha)
  · rw [hso a ha] at hr
    rw [hnext a ha]
    exact hs.dummies a ha hr

variable [DecidableEq Addr]

@[simp] theorem Heap.setNext_self (h : Heap Addr Key) (a : Addr) (l : Link Addr) :
    (h.setNext a l).next a = l := Function.update_self _ _ _

theorem Heap.setNext_of_ne (h : Heap Addr Key) {a b : Addr} (l : Link Addr) (hba : b ≠ a) :
    (h.setNext a l).next b = h.next b := Function.update_of_ne hba _ _

/-- An eraser has marked the node `c`. -/
theorem Halted.mark (hs : Halted C h N) (hc : isRegular (h.soKey c) = true) :
    Halted C (h.setNext c (h.next c).setMarked) N := by
  have hclear : (fun a => ((h.setNext c (h.next c).setMarked).next a).clearMark) =
      fun a => (h.next a).clearMark := by
    funext a
    by_cases hac : a = c
    · rw [hac, Heap.setNext_self]
      rfl
    · rw [Heap.setNext_of_ne _ _ hac]
  have hbare : (h.setNext c (h.next c).setMarked).bare = h.bare := by
    unfold Heap.bare
    rw [hclear]
    rfl
  refine ⟨hbare ▸ hs.stores, fun a ha hr => ?_⟩
  have hac : a ≠ c := by
    rintro rfl
    have hr' : isRegular (h.soKey a) = false := hr
    rw [hc] at hr'
    cases hr'
  rw [Heap.setNext_of_ne _ _ hac]
  exact hs.dummies a ha hr

/-- A marked node is unlinked. -/
theorem Halted.remove (hs : Halted C h (A ++ p :: c :: B)) (hc : (h.next c).marked = true) :
    Halted C (h.setNext p (.plain B.head?)) (A ++ p :: B) := by
  have hreg : isRegular (h.soKey c) = true := by
    by_contra hr
    rw [hs.dummies c (by simp) (by simpa using hr)] at hc
    cases hc
  refine ⟨?_, fun a ha hr => ?_⟩
  · show Stores C.loose
      { h.bare with next := fun a => ((h.setNext p (.plain B.head?)).next a).clearMark } _
    refine hs.stores.remove hreg ?_ fun a _ hap _ => ?_
    · rw [Heap.setNext_self]
      rfl
    · rw [Heap.setNext_of_ne h _ hap]
      rfl
  · by_cases hap : a = p
    · rw [hap, Heap.setNext_self]
      rfl
    · rw [Heap.setNext_of_ne h _ hap]
      refine hs.dummies a ?_ hr
      exact ((List.Sublist.refl A).append ((List.sublist_cons_self c B).cons_cons p)).subset ha

/-- A dummy is linked. -/
theorem Halted.insert (hs : Halted C h (A ++ p :: B))
    (hcut : CutAt h.bare (A ++ p :: B) (h.soKey n) A p B) (hn : n ∉ A ++ p :: B)
    (halive : n ∈ h.inUse) (hdummy : isRegular (h.soKey n) = false) :
    Halted C ((h.setNext n (.plain B.head?)).setNext p (.plain (some n))) (A ++ p :: n :: B) := by
  have hnp : n ≠ p := by
    rintro rfl
    exact hn (by simp)
  refine ⟨?_, fun a ha hr => ?_⟩
  · show Stores C.loose { h.bare with next := fun a =>
      (((h.setNext n (.plain B.head?)).setNext p (.plain (some n))).next a).clearMark } _
    refine hs.stores.insert (fun _ _ _ => rfl) hcut hn halive (fun hr => ?_) ?_ ?_
      fun a ha hap => ?_
    · have hr' : isRegular (h.soKey n) = true := hr
      rw [hdummy] at hr'
      cases hr'
    · rw [Heap.setNext_of_ne _ _ hnp, Heap.setNext_self]
      rfl
    · rw [Heap.setNext_self]
      rfl
    · have han : a ≠ n := fun h => hn (h ▸ ha)
      rw [Heap.setNext_of_ne _ _ hap, Heap.setNext_of_ne _ _ han]
      rfl
  · by_cases hap : a = p
    · rw [hap, Heap.setNext_self]
      rfl
    · rw [Heap.setNext_of_ne _ _ hap]
      by_cases han : a = n
      · rw [han, Heap.setNext_self]
        rfl
      · rw [Heap.setNext_of_ne _ _ han]
        refine hs.dummies a ?_ hr
        rcases List.mem_cons.mp ((perm_insert A B p n).mem_iff.mp ha) with h | h
        · exact absurd h han
        · exact h

omit [DecidableEq Addr] in
/-- A dummy is published in its bucket. -/
theorem Halted.setBucket {b : Nat} {d : Addr} (hs : Halted C h N) (hb : b ≠ 0) (hd : d ∈ N)
    (hkey : h.soKey d = dummySplitOrderKey b) : Halted C (h.setBucket h.table b (some d)) N :=
  ⟨hs.stores.setBucket hb hd hkey, hs.dummies⟩

end List

/-! ## Walks that help -/

variable [DecidableEq Addr] {C : Config Key}

/-- Only links have changed. -/
def Heap.Relinks (h h' : Heap Addr Key) : Prop := h' = { h with next := h'.next }

omit [DecidableEq Addr] in
theorem Heap.relinks_refl (h : Heap Addr Key) : h.Relinks h := rfl

omit [DecidableEq Addr] in
theorem Heap.Relinks.trans {h h' h'' : Heap Addr Key} (h1 : h.Relinks h') (h2 : h'.Relinks h'') :
    h.Relinks h'' := by
  unfold Relinks at h1 h2 ⊢
  rw [h2, h1]

theorem Heap.relinks_setNext (h : Heap Addr Key) (a : Addr) (l : Link Addr) :
    h.Relinks (h.setNext a l) := rfl

/-- On the way to the nodes `T` an operation has led from `w` to `u`, where the nodes `A` come before
them. Those of `A` that are not marked have the property `P`; `T` is as it was. -/
structure Leads (C : Config Key) (P : Word → Key → Prop) (T : List Addr) (w u : World Addr Key)
    (A : List Addr) : Prop where
  halted : Halted C u.heap (A ++ T)
  passed : ∀ a ∈ A, (u.heap.next a).marked = false → P (u.heap.soKey a) (u.heap.key a)
  agrees : w.heap.Agrees u.heap
  next : ∀ a ∈ T, u.heap.next a = w.heap.next a
  soKey : ∀ a ∈ T, u.heap.soKey a = w.heap.soKey a
  choices : w.choices.After u.choices

/-- A walk has come from `p` to `q`, which is `p` or the next node `c`. What lies before and behind it
has been `A` and `B` and is `A'` and `B'`. -/
structure Passes (u v : World Addr Key) (A : List Addr) (p c : Addr) (B A' : List Addr) (q : Addr)
    (B' : List Addr) : Prop where
  heap : u.heap.Relinks v.heap
  unmarked : (v.heap.next q).marked = false
  origin : q = p ∨ q = c
  rest : B' ⊆ c :: B
  subset : A' ++ q :: B' ⊆ A ++ p :: c :: B
  choices : u.choices.After v.choices

/-- A walk to the key `cmp`, begun in `u` among the nodes `N`, has come to `q`. -/
structure Arrives (C : Config Key) (P : Word → Key → Prop) (T : List Addr) (cmp : Word)
    (w u v : World Addr Key) (N A : List Addr) (q : Addr) (B : List Addr) : Prop where
  leads : Leads C P T w v (A ++ q :: B)
  heap : u.heap.Relinks v.heap
  unmarked : (v.heap.next q).marked = false
  subset : A ++ q :: B ⊆ N
  choices : u.choices.After v.choices
  cut : CutAt v.heap.bare (A ++ q :: (B ++ T)) cmp A q (B ++ T)

section Steps

variable {P : Word → Key → Prop} {T A B : List Addr} {w u v : World Addr Key} {p c n start : Addr}
  {cmp : Word} {b : Nat}

omit [DecidableEq Addr] in
theorem Leads.refl (h : Halted C w.heap (A ++ T))
    (hA : ∀ a ∈ A, (w.heap.next a).marked = false → P (w.heap.soKey a) (w.heap.key a)) :
    Leads C P T w w A :=
  ⟨h, hA, w.heap.agrees_refl, fun _ _ => rfl, fun _ _ => rfl, w.choices.after_refl⟩

/-- A marked node is unlinked on the way. -/
theorem Leads.remove (hl : Leads C P T w u (A ++ p :: c :: B))
    (hp : (u.heap.next p).marked = false) (hc : (u.heap.next c).marked = true) :
    Leads C P T w ⟨u.heap.setNext p (.plain (B ++ T).head?), u.choices.next .weak, u.log⟩
      (A ++ p :: B) := by
  have hN : (A ++ p :: c :: B) ++ T = A ++ p :: c :: (B ++ T) := by simp
  have hhalted := hl.halted
  rw [hN] at hhalted
  have hpT : ∀ a ∈ T, a ≠ p := by
    rintro a ha rfl
    have hnodup := hhalted.stores.nodup
    rw [List.nodup_append, List.nodup_cons] at hnodup
    exact hnodup.2.1.1 (by simp [ha])
  constructor
  · have hremoved := hhalted.remove hc
    simpa using hremoved
  · intro a ha hm
    have ha' : a ∈ A ++ p :: c :: B := by
      rcases List.mem_append.mp ha with h | h
      · exact List.mem_append_left _ h
      · rcases List.mem_cons.mp h with h | h
        · simp [h]
        · simp [h]
    apply hl.passed a ha'
    by_cases hap : a = p
    · rw [hap]
      exact hp
    · rw [← hm]
      exact congrArg Link.marked (Heap.setNext_of_ne _ _ hap).symm
  · exact hl.agrees.trans (by constructor <;> rfl)
  · intro a ha
    rw [← hl.next a ha]
    exact Heap.setNext_of_ne _ _ (hpT a ha)
  · exact hl.soKey
  · exact hl.choices.trans (u.choices.after_next .weak)

omit [DecidableEq Addr] in
theorem Leads.next_eq (hl : Leads C P T w u (A ++ p :: B)) (hp : (u.heap.next p).marked = false) :
    u.heap.next p = .plain (B ++ T).head? := by
  have hhalted := hl.halted
  rw [List.append_assoc, List.cons_append] at hhalted
  exact hhalted.next_eq hp

omit [DecidableEq Addr] in
theorem Leads.weak (hl : Leads C P T w u A) :
    Leads C P T w { u with choices := u.choices.next .weak } A :=
  ⟨hl.halted, hl.passed, hl.agrees, hl.next, hl.soKey,
    hl.choices.trans (u.choices.after_next .weak)⟩

/-- How far a walk is from its end, where the next nodes are `B` and then `T`: an attempt to help
with another link than the one of `p` fails, and so does one that fails spuriously. -/
def cost (B T : List Addr) (tag : Link Addr) (u : World Addr Key) : Nat :=
  B.length + (if tag = .plain (B ++ T).head? then 0 else 1) + (u.choices .weak).length

theorem cost_le (c : Addr) (B T : List Addr) (tag : Link Addr) (u : World Addr Key) :
    B.length + 1 + (u.choices .weak).length ≤ cost (c :: B) T tag u := by
  unfold cost
  rw [List.length_cons]
  omega

theorem cost_other {tag : Link Addr} (htag : tag ≠ .plain (some c)) :
    cost (c :: B) T tag u = B.length + 2 + (u.choices .weak).length := by
  have hne : tag ≠ .plain ((c :: B) ++ T).head? := htag
  unfold cost
  rw [List.length_cons, if_neg hne]

theorem cost_plain (B T : List Addr) (u : World Addr Key) :
    cost B T (.plain (B ++ T).head?) u = B.length + (u.choices .weak).length := by
  unfold cost
  rw [if_pos rfl]
  omega

/-- An attempt to unlink the marked node `c`. -/
theorem help_finishes (hl : Leads C P T w u (A ++ p :: c :: B))
    (hp : (u.heap.next p).marked = false) (hc : (u.heap.next c).marked = true) (tag : Link Addr) :
    Finishes (fun x v => ∃ B', x = some (placeOf p (B' ++ T)) ∧ Leads C P T w v (A ++ p :: B') ∧
        Passes u v A p c B A p B' ∧
        B'.length + (v.choices .weak).length < cost (c :: B) T tag u)
      (help C p tag (u.heap.next c)) u := by
  have hnext : u.heap.next p = .plain (some c) := hl.next_eq hp
  have hlc := hl
  rw [List.append_cons] at hlc
  have hclear : (u.heap.next c).clearMark = .plain (B ++ T).head? := by
    have hhalted := hlc.halted
    rw [List.append_assoc, List.cons_append] at hhalted
    exact hhalted.stores.linked.next_eq
  have hspent : ((u.choices.next .weak) .weak).length ≤ (u.choices .weak).length := by
    rw [Decisions.next_self, List.length_tail]
    omega
  have hcost := cost_le c B T tag u
  -- the attempt has failed
  have hstay : B.length + 1 + ((u.choices.next .weak) .weak).length < cost (c :: B) T tag u →
      Finishes (fun x v => ∃ B', x = some (placeOf p (B' ++ T)) ∧
        Leads C P T w v (A ++ p :: B') ∧ Passes u v A p c B A p B' ∧
        B'.length + (v.choices .weak).length < cost (c :: B) T tag u) (follow C p)
        { u with choices := u.choices.next .weak } := by
    intro hlt
    refine Exits.mono (follow_reads C _ p) ?_
    rintro x v ⟨rfl, rfl⟩
    refine ⟨c :: B, ?_, hl.weak, ⟨rfl, hp, .inl rfl, List.Subset.refl _, List.Subset.refl _,
      u.choices.after_next .weak⟩, hlt⟩
    show some (p, (u.heap.next p).ptr, u.heap.next p) = _
    rw [hnext]
    rfl
  by_cases htag : tag = .plain (some c)
  · refine casNextWeak_finishes (hnext.trans htag.symm) ?_ fun hw => hstay ?_
    · rw [hclear]
      refine Exits.mono (follow_reads C _ p) ?_
      rintro x v ⟨rfl, rfl⟩
      refine ⟨B, ?_, hl.remove hp hc, ⟨rfl, ?_, .inl rfl, List.subset_cons_self c B, ?_,
        u.choices.after_next .weak⟩, ?_⟩
      · rw [Heap.setNext_self]
        rfl
      · rw [Heap.setNext_self]
        rfl
      · exact ((List.Sublist.refl A).append ((List.sublist_cons_self c B).cons_cons p)).subset
      · show B.length + ((u.choices.next .weak) .weak).length < _
        omega
    · have hlt := weak_lt hw
      omega
  · refine .access (r := false) (v := { u with choices := u.choices.next .weak }) rfl ?_ (hstay ?_)
    · have hne : u.heap.next p ≠ tag := fun h => htag (h.symm.trans hnext)
      simp [Op.bounded, Op.alone, Heap.compareExchange, hne]
    · rw [cost_other htag]
      omega

/-- One node of a walk. -/
theorem pass_finishes (hl : Leads C P T w u (A ++ p :: c :: B))
    (hp : (u.heap.next p).marked = false) (tag : Link Addr) :
    Finishes (fun x v => ∃ A' q B', x = some (placeOf q (B' ++ T)) ∧
        Leads C P T w v (A' ++ q :: B') ∧ Passes u v A p c B A' q B' ∧
        B'.length + (v.choices .weak).length < cost (c :: B) T tag u)
      (if (u.heap.next c).marked then help C p tag (u.heap.next c) else advance C c) u := by
  split
  · next hc =>
    refine Exits.mono (help_finishes hl hp hc tag) ?_
    rintro x v ⟨B', hx⟩
    exact ⟨A, p, B', hx⟩
  · next hc =>
    rw [Bool.not_eq_true] at hc
    have hlc := hl
    rw [List.append_cons] at hlc
    refine Exits.mono (advance_reads C u c) ?_
    rintro x v ⟨rfl, rfl⟩
    refine ⟨A ++ [p], c, B, ?_, hlc,
      ⟨rfl, hc, .inr rfl, List.subset_cons_self c B, by simp, v.choices.after_refl⟩, ?_⟩
    · rw [hlc.next_eq hc]
      rfl
    · have hcost := cost_le c B T tag v
      omega

/-- A walk to a key that none of the nodes before `T` exceeds. -/
theorem walkLoop_finishes (hl : Leads C P T w u (A ++ p :: B))
    (hp : (u.heap.next p).marked = false) (hlt : u.heap.soKey p < cmp)
    (hT : ∀ t ∈ T.head?, cmp ≤ w.heap.soKey t) :
    Finishes (fun x v => ∃ A' q B', x = some (placeOf q (B' ++ T)) ∧
        Arrives C P T cmp w u v (A ++ p :: B) A' q B')
      (iterate (walkStep C cmp) (placeOf p (B ++ T))) u := by
  refine Exits.iterate (I := fun i place v => ∃ A' q B', place = placeOf q (B' ++ T) ∧
      Leads C P T w v (A' ++ q :: B') ∧ u.heap.Relinks v.heap ∧ (v.heap.next q).marked = false ∧
      A' ++ q :: B' ⊆ A ++ p :: B ∧ u.choices.After v.choices ∧ v.heap.soKey q < cmp ∧
      B'.length + (v.choices .weak).length = i)
    wellFounded_lt ⟨A, p, B, rfl, hl, u.heap.relinks_refl, hp, List.Subset.refl _,
      u.choices.after_refl, hlt, rfl⟩ ?_
  rintro i place v ⟨A', q, B', rfl, hlv, hheap, hq, hsub, hch, hqlt, rfl⟩
  -- the walk ends here
  have hstop : (∀ b ∈ (B' ++ T).head?, cmp ≤ v.heap.soKey b) →
      Arrives C P T cmp w u v (A ++ p :: B) A' q B' := by
    intro hhead
    have hhalted := hlv.halted
    rw [List.append_assoc, List.cons_append] at hhalted
    exact ⟨hlv, hheap, hq, hsub, hch, .of_split hhalted.stores rfl hqlt hhead⟩
  cases B' with
  | nil =>
    cases T with
    | nil => exact Exits.ret ⟨A', q, [], rfl, hstop (by simp)⟩
    | cons t T =>
      have hle : cmp ≤ v.heap.soKey t := by
        rw [hlv.soKey t (by simp)]
        exact hT t rfl
      refine Finishes.access rfl rfl ?_
      show Finishes _ (if cmp ≤ v.heap.soKey t then Prog.ret (Sum.inr (placeOf q (t :: T)))
        else _) v
      rw [if_pos hle]
      refine Exits.ret ⟨A', q, [], rfl, hstop ?_⟩
      intro b hb
      obtain rfl := Option.some.inj hb
      exact hle
  | cons c B' =>
    refine Finishes.access rfl rfl ?_
    show Finishes _ (if cmp ≤ v.heap.soKey c then Prog.ret (Sum.inr (placeOf q (c :: (B' ++ T))))
      else (Prog.act (.loadNext c) _)) v
    split
    · next hle =>
      refine Exits.ret ⟨A', q, c :: B', rfl, hstop ?_⟩
      intro b hb
      obtain rfl := Option.some.inj hb
      exact hle
    · next hle =>
      have hqB : (Link.plain (some c) : Link Addr) = .plain ((c :: B') ++ T).head? := rfl
      refine Finishes.access rfl rfl ?_
      refine Exits.bind (pass_finishes hlv hq (.plain (some c))) ?_ (fun _ h => ?_)
      · rintro _ v' ⟨A₁, q₁, B₁, hx, hlv', hpass, hcost⟩
        obtain rfl := Option.some.inj hx
        refine Exits.ret ⟨_, ?_, A₁, q₁, B₁, rfl, hlv', hheap.trans hpass.heap, hpass.unmarked,
          List.Subset.trans hpass.subset hsub, hch.trans hpass.choices, ?_, rfl⟩
        · rw [hqB, cost_plain] at hcost
          exact hcost
        · rw [hpass.heap]
          show v.heap.soKey q₁ < cmp
          rcases hpass.origin with h | h
          · rw [h]
            exact hqlt
          · rw [h]
            exact BitVec.not_le.mp hle
      · obtain ⟨_, _, _, h, _⟩ := h
        cases h

end Steps

/-! ## Dummies before `T` -/

section Dummies

variable {P : Word → Key → Prop} {T A B : List Addr} {w u v : World Addr Key}
  {p c d n start : Addr} {cmp mixed : Word} {b depth : Nat}

omit [DecidableEq Addr] in
theorem Leads.filled (hl : Leads C P T w u A) (hb : b < w.heap.size w.heap.table)
    (hd : u.heap.bucket w.heap.table b = some d) :
    d ∈ A ++ T ∧ u.heap.soKey d = dummySplitOrderKey b := by
  rw [← hl.agrees.table] at hd hb
  rw [← hl.agrees.size] at hb
  exact hl.halted.stores.filled b d hb hd

omit [DecidableEq Addr] in
/-- The dummy of a bucket lies before `T` if its key is smaller. -/
theorem Leads.split_dummy (hl : Leads C P T w u A) (hb : b < w.heap.size w.heap.table)
    (hd : u.heap.bucket w.heap.table b = some d) (hlt : dummySplitOrderKey b < cmp)
    (hT : ∀ t ∈ T.head?, cmp ≤ w.heap.soKey t) :
    (∃ A' B', A = A' ++ d :: B') ∧ (u.heap.next d).marked = false ∧ u.heap.soKey d < cmp := by
  obtain ⟨hmem, hkey⟩ := hl.filled hb hd
  have hsize : b < 2 ^ 63 := by
    have hle := hl.halted.stores.size_le
    have hsame : u.heap.bare.size u.heap.bare.table = w.heap.size w.heap.table := by
      show u.heap.size u.heap.table = _
      rw [hl.agrees.size, hl.agrees.table]
    omega
  refine ⟨?_, hl.halted.dummies d hmem ?_, ?_⟩
  · rcases List.mem_append.mp hmem with hA | hdT
    · exact List.append_of_mem hA
    · exfalso
      obtain ⟨t, T', rfl⟩ := List.exists_cons_of_ne_nil (List.ne_nil_of_mem hdT)
      have hle := hT t rfl
      rw [← hl.soKey t (by simp)] at hle
      have hsorted := (List.pairwise_append.mp hl.halted.stores.sorted).2.1
      rcases List.mem_cons.mp hdT with h | h
      · rw [← h, hkey] at hle
        bv_omega
      · have hle' : u.heap.soKey t ≤ u.heap.soKey d := (List.pairwise_cons.mp hsorted).1 d h
        rw [hkey] at hle'
        bv_omega
  · rw [hkey]
    exact isRegular_dummy hsize
  · rw [hkey]
    exact hlt

/-- A walk from the dummy of a bucket. -/
theorem walk_finishes (hl : Leads C P T w u A) (hb : b < w.heap.size w.heap.table)
    (hd : u.heap.bucket w.heap.table b = some d) (hlt : dummySplitOrderKey b < cmp)
    (hT : ∀ t ∈ T.head?, cmp ≤ w.heap.soKey t) :
    Finishes (fun x v => ∃ A' q B', x = some (placeOf q (B' ++ T)) ∧
        Arrives C P T cmp w u v A A' q B')
      (walk C d cmp) u := by
  obtain ⟨⟨A₁, B₁, rfl⟩, hmark, hkey⟩ := hl.split_dummy hb hd hlt hT
  refine (publish_reads C u HP_PREV d).bind ((follow_reads C u d).bind ?_)
  rw [hl.next_eq hmark]
  exact walkLoop_finishes hl hmark hkey hT

omit [DecidableEq Addr] in
theorem Leads.congr {h' : Heap Addr Key} {ch : Decisions} {log : List (Event Addr)}
    (hl : Leads C P T w u A) (hnext : ∀ a ∈ A ++ T, h'.next a = u.heap.next a)
    (hso : ∀ a ∈ A ++ T, h'.soKey a = u.heap.soKey a) (hagrees : u.heap.Agrees h')
    (halive : ∀ a ∈ A ++ T, a ∈ h'.inUse) (hbucket : h'.bucket = u.heap.bucket)
    (hch : u.choices.After ch) : Leads C P T w ⟨h', ch, log⟩ A where
  halted := hl.halted.congr hnext hso (fun a _ => by rw [hagrees.key]) halive
    ⟨hagrees.table, hagrees.tables, hagrees.size, hbucket⟩
  passed := by
    intro a ha hm
    have hmem := List.mem_append_left T ha
    show P (h'.soKey a) (h'.key a)
    rw [hso a hmem, hagrees.key]
    apply hl.passed a ha
    rw [← hnext a hmem]
    exact hm
  agrees := hl.agrees.trans hagrees
  next := fun a ha => (hnext a (List.mem_append_right A ha)).trans (hl.next a ha)
  soKey := fun a ha => (hso a (List.mem_append_right A ha)).trans (hl.soKey a ha)
  choices := hl.choices.trans hch

/-- The link of a node that is not in the list. -/
theorem Leads.setNext (hl : Leads C P T w u A) (hn : n ∉ A ++ T) (l : Link Addr) :
    Leads C P T w ⟨u.heap.setNext n l, u.choices.next .weak, u.log⟩ A := by
  refine hl.congr (fun a ha => ?_) (fun _ _ => rfl) (by constructor <;> rfl)
    hl.halted.stores.alive rfl (u.choices.after_next .weak)
  refine Heap.setNext_of_ne _ _ ?_
  rintro rfl
  exact hn ha

/-- A dummy is linked behind `p`. -/
theorem Leads.link (hl : Leads C P T w u (A ++ p :: B)) (hp : (u.heap.next p).marked = false)
    (hcut : CutAt u.heap.bare (A ++ p :: (B ++ T)) (u.heap.soKey n) A p (B ++ T))
    (hn : n ∉ (A ++ p :: B) ++ T) (halive : n ∈ u.heap.inUse)
    (hdummy : isRegular (u.heap.soKey n) = false) (hP : P (u.heap.soKey n) (u.heap.key n)) :
    Leads C P T w ⟨(u.heap.setNext n (.plain (B ++ T).head?)).setNext p (.plain (some n)),
      u.choices.next .weak, u.log⟩ (A ++ p :: n :: B) := by
  have hN : (A ++ p :: B) ++ T = A ++ p :: (B ++ T) := by simp
  have hhalted := hl.halted
  rw [hN] at hhalted hn
  -- the tail `T` has neither of the two nodes that are written
  have hother : ∀ a ∈ T, a ≠ p ∧ a ≠ n := by
    intro a ha
    constructor
    · rintro rfl
      have hnodup := hhalted.stores.nodup
      rw [List.nodup_append, List.nodup_cons] at hnodup
      exact hnodup.2.1.1 (by simp [ha])
    · rintro rfl
      exact hn (by simp [ha])
  constructor
  · have hlinked := hhalted.insert hcut hn halive hdummy
    simpa using hlinked
  · intro a ha hm
    show P (u.heap.soKey a) (u.heap.key a)
    rcases List.mem_cons.mp ((perm_insert A B p n).mem_iff.mp ha) with rfl | hmem
    · exact hP
    · have han : a ≠ n := by
        rintro rfl
        apply hn
        rw [← hN]
        exact List.mem_append_left T hmem
      apply hl.passed a hmem
      by_cases hap : a = p
      · rw [hap]
        exact hp
      · rw [← hm]
        show _ = (((u.heap.setNext n _).setNext p _).next a).marked
        rw [Heap.setNext_of_ne _ _ hap, Heap.setNext_of_ne _ _ han]
  · exact hl.agrees.trans (by constructor <;> rfl)
  · intro a ha
    rw [← hl.next a ha]
    show ((u.heap.setNext n _).setNext p _).next a = _
    rw [Heap.setNext_of_ne _ _ (hother a ha).1, Heap.setNext_of_ne _ _ (hother a ha).2]
  · exact hl.soKey
  · exact hl.choices.trans (u.choices.after_next .weak)

/-- `insert_from`, for a dummy that belongs before `T`. -/
theorem insertFrom_leads (hl : Leads C P T w u A) (hb : b < w.heap.size w.heap.table)
    (hd : u.heap.bucket w.heap.table b = some start)
    (hlt : dummySplitOrderKey b < u.heap.soKey n)
    (hT : ∀ t ∈ T.head?, u.heap.soKey n ≤ w.heap.soKey t) (hn : n ∉ A ++ T)
    (halive : n ∈ u.heap.inUse) (hdummy : isRegular (u.heap.soKey n) = false)
    (hP : P (u.heap.soKey n) (u.heap.key n)) :
    Finishes (fun x v => x = some () ∧ ∃ A', Leads C P T w v A' ∧ n ∈ A' ∧
        u.heap.Relinks v.heap)
      (insertFrom C start n) u := by
  refine .access rfl rfl ?_
  -- the measure is the number of spurious failures to come
  refine Exits.iterate (I := fun i _ v => ∃ A', Leads C P T w v A' ∧ n ∉ A' ++ T ∧
      u.heap.Relinks v.heap ∧ (v.choices .weak).length = i)
    wellFounded_lt ⟨A, hl, hn, u.heap.relinks_refl, rfl⟩ ?_
  rintro i ⟨⟩ v ⟨A', hlv, hnv, hheap, rfl⟩
  have hcell : v.heap.bucket w.heap.table b = some start := by
    rw [hheap]
    exact hd
  -- the walk may unlink halted nodes on its way: the place is found in what is left
  refine Exits.bind (walk_finishes hlv hb hcell hlt hT) ?_ (fun _ h => ?_)
  · rintro _ v₁ ⟨A₁, q, B₁, hx, hat⟩
    obtain rfl := Option.some.inj hx
    have hheap₁ := hheap.trans hat.heap
    have hso : v₁.heap.soKey = u.heap.soKey := by rw [hheap₁]
    have hkey : v₁.heap.key = u.heap.key := by rw [hheap₁]
    have hn₁ : n ∉ (A₁ ++ q :: B₁) ++ T := by
      intro hmem
      apply hnv
      rcases List.mem_append.mp hmem with h | h
      · exact List.mem_append_left T (hat.subset h)
      · exact List.mem_append_right A' h
    have hnext : (v₁.heap.setNext n (.plain (B₁ ++ T).head?)).next q = .plain (B₁ ++ T).head? := by
      have hqn : q ≠ n := by
        rintro rfl
        exact hn₁ (by simp)
      rw [Heap.setNext_of_ne _ _ hqn]
      exact hat.leads.next_eq hat.unmarked
    refine Finishes.access rfl rfl ?_
    show Finishes _ (if (Link.plain (B₁ ++ T).head?).marked = true then Prog.ret (Sum.inl ())
      else _) _
    rw [if_neg (by simp [Link.plain])]
    refine casNextWeak_finishes hnext ?_ fun hw => ?_
    · refine Exits.ret ⟨rfl, A₁ ++ q :: n :: B₁, hat.leads.link hat.unmarked ?_ hn₁ ?_ ?_ ?_,
        by simp, hheap₁.trans ((v₁.heap.relinks_setNext _ _).trans (Heap.relinks_setNext _ _ _))⟩
      · rw [hso]
        exact hat.cut
      · rw [hheap₁]
        exact halive
      · rw [hso]
        exact hdummy
      · rw [hso, hkey]
        exact hP
    -- the compare-exchange fails spuriously, and the walk starts again
    · refine Exits.ret ⟨_, ?_, A₁ ++ q :: B₁, hat.leads.setNext hn₁ _, hn₁,
        hheap₁.trans (v₁.heap.relinks_setNext _ _), rfl⟩
      exact (weak_lt hw).trans_le (hat.choices .weak).length_le
  · obtain ⟨_, _, _, h, _⟩ := h
    cases h

omit [DecidableEq Addr] in
theorem Leads.calm_head (hl : Leads C P T w u A) {c : Choice} (hc : c ≠ .weak)
    (h : u.choices.head c = true) : ¬ w.choices.Calm := by
  intro hcalm
  rw [(hcalm.after hl.choices).head hc] at h
  cases h

/-- The end of `initialize_bucket`. -/
theorem createDummy_leads (hl : Leads C P T w u A) (hpick : w.heap.Allocates) (hb : b ≠ 0)
    (hlt : b < w.heap.size w.heap.table)
    (hparent : u.heap.bucket w.heap.table (parentBucket b) = some start)
    (hT : ∀ t ∈ T.head?, dummySplitOrderKey b ≤ w.heap.soKey t)
    (hP : ∀ so key, isRegular so = false → P so key) :
    Finishes (fun x v => x.elim (¬ w.choices.Calm) fun _ => ∃ A', Leads C P T w v A' ∧
        (v.heap.bucket w.heap.table b).isSome = true)
      (do
        let d ← perform .allocNode
        perform (.storeSoKey d (dummySplitOrderKey b))
        match ← perform (.loadBucket w.heap.table (parentBucket b)) with
        | none => perform .fault
        | some start =>
          insertFrom C start d
          let _ ← perform (.casBucket w.heap.table b d)
          return ()) u := by
  have hbound : b < 2 ^ 63 := by
    have hle := hl.halted.stores.size_le
    have hsame : u.heap.bare.size u.heap.bare.table = w.heap.size w.heap.table := by
      show u.heap.size u.heap.table = _
      rw [hl.agrees.size, hl.agrees.table]
    omega
  have hplt := parentBucket_lt hb (by omega)
  have hsize : ∀ v : World Addr Key, u.heap.Agrees v.heap →
      v.heap.size w.heap.table = w.heap.size w.heap.table := by
    intro v hv
    rw [hv.size, hl.agrees.size]
  refine Exits.act (T := fun r v => r.elim (¬ w.choices.Calm) fun d => d = u.heap.acquire.1 ∧
      v = ⟨u.heap.acquire.2.blank d, (u.choices.next .node).next .blank,
        u.log ++ [.construct d]⟩) (allocNode_ends ?_ ?_ ?_) ?_ fun _ h => h
  · exact fun hn => hl.calm_head (by decide) hn
  · exact fun _ hblank => hl.calm_head (by decide) hblank
  · exact fun _ _ => ⟨rfl, rfl⟩
  · rintro d v ⟨hd, rfl⟩
    -- a fresh dummy, so that its blanking changes no node of the list
    have hfresh : d ∉ u.heap.inUse := by
      have hpick' : u.heap.pick = w.heap.pick := hl.agrees.pick
      rw [hd]
      show u.heap.pick _ _ ∉ _
      rw [hpick']
      exact hpick _ _
    have hdN : d ∉ A ++ T := fun h => hfresh (hl.halted.stores.alive d h)
    have hne : ∀ a ∈ A ++ T, a ≠ d := fun a ha h => hdN (h ▸ ha)
    have hso := u.withDummy_soKey d b
    have hld : Leads C P T w (u.withDummy d b) A := by
      refine hl.congr (fun a ha => Function.update_of_ne (hne a ha) _ _)
        (fun a ha => u.withDummy_soKey_ne b (hne a ha)) (by constructor <;> rfl) (fun a ha => ?_) rfl
        ((u.choices.after_next .node).trans (Decisions.after_next _ .blank))
      exact Finset.mem_insert_of_mem (hl.halted.stores.alive a ha)
    refine Finishes.access (v := u.withDummy d b) rfl rfl (Finishes.access rfl
      (loadBucket_bounded ?_) ?_)
    · rw [hsize (u.withDummy d b) (by constructor <;> rfl)]
      omega
    · show Finishes _ (match u.heap.bucket w.heap.table (parentBucket b) with
        | none => _ | some start => _) _
      rw [hparent]
      have hdummy : isRegular (dummySplitOrderKey b) = false := isRegular_dummy hbound
      refine Exits.bind (insertFrom_leads hld (b := parentBucket b) (by omega) hparent ?_ ?_ hdN
        ?_ ?_ ?_) ?_ (fun _ h => by cases h.1)
      · rw [hso]
        exact dummy_parent_lt hb (by omega)
      · rw [hso]
        exact hT
      · rw [hd]
        exact Finset.mem_insert_self _ _
      · rw [hso]
        exact hdummy
      · rw [hso]
        exact hP _ _ hdummy
      · rintro _ v₁ ⟨-, A', hl₁, hdA, hheap⟩
        have hagrees : u.heap.Agrees v₁.heap := by
          unfold Heap.Relinks at hheap
          rw [hheap]
          constructor <;> rfl
        have hlt₁ : b < v₁.heap.size w.heap.table := by
          rw [hsize v₁ hagrees]
          exact hlt
        -- the cell is filled already: the dummy stays in the list without a cell
        cases hcell : v₁.heap.bucket w.heap.table b with
        | none =>
          refine Finishes.access (r := true)
            (v := { v₁ with heap := v₁.heap.setBucket w.heap.table b (some d) }) rfl ?_
            (Exits.ret ⟨A', ?_, ?_⟩)
          · simp [Op.bounded, Op.alone, Op.apply, hcell, hlt₁]
          · have hkey₁ : v₁.heap.soKey d = dummySplitOrderKey b := by
              unfold Heap.Relinks at hheap
              rw [hheap]
              exact hso
            have hset := hl₁.halted.setBucket hb (List.mem_append_left T hdA) hkey₁
            rw [hl₁.agrees.table] at hset
            exact ⟨hset, hl₁.passed, hl₁.agrees.trans (by constructor <;> rfl), hl₁.next,
              hl₁.soKey, hl₁.choices⟩
          · show ((v₁.heap.setBucket w.heap.table b (some d)).bucket w.heap.table b).isSome = true
            rw [Heap.setBucket_bucket, if_pos rfl]
            rfl
        | some a =>
          refine Finishes.access (r := false) (v := v₁) rfl ?_ (Exits.ret ⟨A', hl₁, ?_⟩)
          · simp [Op.bounded, Op.alone, Op.apply, hcell, hlt₁]
          · rw [hcell]
            rfl

/-- `initialize_bucket`, for a bucket whose dummy belongs before `T`. -/
theorem initializeBucketAt_leads (hl : Leads C P T w u A) (hpick : w.heap.Allocates)
    (hdepth : b < depth) (hlt : b < w.heap.size w.heap.table)
    (hT : ∀ t ∈ T.head?, dummySplitOrderKey b ≤ w.heap.soKey t)
    (hP : ∀ so key, isRegular so = false → P so key) :
    Finishes (fun x v => x.elim (¬ w.choices.Calm) fun _ => ∃ A', Leads C P T w v A' ∧
        (v.heap.bucket w.heap.table b).isSome = true)
      (initializeBucketAt C w.heap.table depth b) u := by
  have hsame : u.heap.size w.heap.table = w.heap.size w.heap.table := by rw [hl.agrees.size]
  have hbound : b < 2 ^ 63 := by
    have hle : u.heap.size u.heap.table ≤ 2 ^ 30 := hl.halted.stores.size_le
    rw [hl.agrees.table] at hle
    omega
  induction depth generalizing b with
  | zero => omega
  | succ depth ih =>
    unfold initializeBucketAt
    refine Finishes.access rfl (loadBucket_bounded (hsame.symm ▸ hlt)) ?_
    show Finishes _ (if (u.heap.bucket w.heap.table b).isSome = true then _ else _) _
    cases hcell : u.heap.bucket w.heap.table b with
    | some a => exact Exits.ret ⟨A, hl, by rw [hcell]; rfl⟩
    | none =>
      have hb : b ≠ 0 := by
        rintro rfl
        obtain ⟨a, -, ha⟩ := hl.halted.stores.head
        replace ha : u.heap.bucket u.heap.table 0 = some a := ha
        rw [hl.agrees.table, hcell] at ha
        cases ha
      have hparent := parentBucket_lt hb (by omega)
      have hplt := dummy_parent_lt hb (by omega)
      rw [if_neg (by simp)]
      show Finishes _ (if b ≠ 0 then _ else _) _
      rw [if_pos hb]
      refine Exits.bind (ih (by omega) (by omega) (fun t ht => ?_) (by omega)) ?_ fun _ h => h
      · have hle := hT t ht
        bv_omega
      · rintro _ v ⟨A', hlv, hsome⟩
        obtain ⟨start, hstart⟩ := Option.isSome_iff_exists.mp hsome
        exact createDummy_leads hlv hpick hb hlt hstart hT hP

/-- `locate`, for a key that none of the nodes before `T` exceeds. -/
theorem locate_leads (hl : Leads C P T w w A) (hpick : w.heap.Allocates) (hk : Suits mixed cmp)
    (hT : ∀ t ∈ T.head?, cmp ≤ w.heap.soKey t)
    (hP : ∀ so key, isRegular so = false → P so key) :
    Finishes (fun x v => x.elim (¬ w.choices.Calm) fun r => ∃ u N A' q B',
        r = (q, (B' ++ T).head?) ∧ Arrives C P T cmp w u v N A' q B')
      (locate C mixed cmp) w := by
  obtain ⟨j, -, hj, hsize⟩ := hl.halted.stores.size
  replace hsize : w.heap.size w.heap.table = 2 ^ j := hsize
  have hlt : bucketOf mixed (w.heap.size w.heap.table) < w.heap.size w.heap.table := by
    rw [hsize]
    exact bucketOf_lt (by omega)
  have hdummy : dummySplitOrderKey (bucketOf mixed (w.heap.size w.heap.table)) < cmp := by
    rw [hsize]
    exact hk.dummy_lt (by omega)
  -- the bucket has its dummy
  have hfound : ∀ (v : World Addr Key) (A' : List Addr), Leads C P T w v A' →
      (v.heap.bucket w.heap.table (bucketOf mixed (w.heap.size w.heap.table))).isSome = true →
      Finishes (fun x v => x.elim (¬ w.choices.Calm) fun r => ∃ u N A' q B',
        r = (q, (B' ++ T).head?) ∧ Arrives C P T cmp w u v N A' q B') (locate C mixed cmp) v := by
    intro v A' hlv hsome
    obtain ⟨d, hd⟩ := Option.isSome_iff_exists.mp hsome
    have htable := hlv.agrees.table
    have hsame := hlv.agrees.size
    refine Exits.unroll ((loadTable_reads C v).bind (Finishes.access rfl rfl
      (Finishes.access rfl (loadBucket_bounded ?_) ?_)))
    · rw [htable, hsame]
      exact hlt
    · show Finishes _ (match v.heap.bucket v.heap.table (bucketOf mixed
        (v.heap.size v.heap.table)) with | none => _ | some d => _) _
      rw [htable, hsame, hd]
      refine Exits.bind (walk_finishes hlv hlt hd hdummy hT) ?_ (fun _ h => ?_)
      · rintro _ v' ⟨A₁, q, B₁, hx, hat⟩
        obtain rfl := Option.some.inj hx
        exact Exits.ret ⟨v, A', A₁, q, B₁, rfl, hat⟩
      · obtain ⟨_, _, _, h, _⟩ := h
        cases h
  cases hcell : w.heap.bucket w.heap.table (bucketOf mixed (w.heap.size w.heap.table)) with
  | some d => exact hfound w A hl (by rw [hcell]; rfl)
  | none =>
    refine Exits.unroll ((loadTable_reads C w).bind (Finishes.access rfl rfl
      (Finishes.access rfl (loadBucket_bounded hlt) ?_)))
    show Finishes _ (match w.heap.bucket w.heap.table
      (bucketOf mixed (w.heap.size w.heap.table)) with | none => _ | some d => _) _
    rw [hcell]
    refine Exits.bind (initializeBucketAt_leads hl hpick (Nat.lt_succ_self _) hlt (fun t ht => ?_) hP)
      ?_ fun _ h => h
    · have hle := hT t ht
      bv_omega
    · rintro _ v ⟨A', hlv, hsome⟩
      exact Exits.ret (hfound v A' hlv hsome)

end Dummies

end MpmcMap.Unordered
