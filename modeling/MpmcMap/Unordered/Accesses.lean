import MpmcMap.Unordered.Following

/-!
# What a call learns and does with each access

One rule for each kind of atomic access of the engine. A pointer that has been read leads on to what
the walk looks for; a node that was not marked when its pointer was read held an entry then. Only
the compare-exchanges that link a regular node and that mark one are changes of the call.
-/

namespace MpmcMap.Unordered

open Conc
open Prog (perform iterate)
open Function (update)

variable {Addr Key : Type} [DecidableEq Addr]

namespace Entries

/-- The access changes nothing that the entries or the books depend on. -/
def Op.still {β : Type} : Op Addr Key β → Bool
  | .storeBucket .. | .casBucket .. | .storeNext .. | .casNext .. | .casNextWeak .. | .allocNode
  | .freeNode .. | .newTable .. | .storeSoKey .. | .addCount | .subCount | .storeCount ..
  | .retireNode .. => false
  | _ => true

omit [DecidableEq Addr] in
theorem still_of_reads {β : Type} {o : Op Addr Key β} (ho : o.Reads) : Op.still o = true := by
  cases o <;> first | rfl | exact ho.elim

/-- The list and the books are the same. -/
structure Same (h h' : Heap Addr Key) : Prop where
  calm : Calm h h'
  soKey : h'.soKey = h.soKey
  key : h'.key = h.key
  size : h'.size = h.size
  retired : h'.retired = h.retired
  count : h'.count = h.count

/-- What such an access leaves as it is. -/
theorem same_apply {β : Type} {o : Op Addr Key β} (ho : Op.still o = true) {b : Bool}
    {h h' : Heap Addr Key} {r : β} (hact : o.apply b h = some (r, h')) : Same h h' := by
  cases o
  case casTable | casGrowing =>
    simp only [Op.apply] at hact
    split at hact <;> cases hact <;>
      exact ⟨⟨rfl, fun _ _ _ hd => hd, rfl, rfl⟩, rfl, rfl, rfl, rfl, rfl⟩
  all_goals first
    | (cases hact <;>
        exact ⟨⟨rfl, fun _ _ _ hd => hd, rfl, rfl⟩, rfl, rfl, rfl, rfl, rfl⟩)
    | cases ho

section Rules

variable {C : Config Key} {head : Addr} {t : Nat} {H : Hand Addr Key} {l : List (Fact Addr Key)}
  {M : List (Own Addr)} {α β : Type} {h : α → Hand Addr Key} {g : α → List (Fact Addr Key)}
  {s s' : Followed Addr Key} {a b c n : Addr} {so : Word} {A : Aim Addr}

/-! ### Nodes of a thread that an access leaves alone -/

omit [DecidableEq Addr] in
/-- An own node is what it was if nobody has written it. -/
theorem Own.holds.congr {x : Own Addr} {s s' : Aged Addr Key} (hx : x.holds t s)
    (howner : s'.owner = s.owner) (hso : s'.heap.soKey = s.heap.soKey)
    (hnext : s'.heap.next = s.heap.next) : x.holds t s' :=
  ⟨(congrFun howner _).trans hx.owner, (congrFun hso _).trans hx.so,
    fun p hp => (congrFun hnext _).trans (hx.next p hp)⟩

/-- A thread's own nodes are not linked. -/
theorem Own.holds.setNext {x : Own Addr} {s : Aged Addr Key} (hx : x.holds t s) (ha : s.Linked a)
    (v : Link Addr) : x.holds t (s.withHeap (s.heap.setNext a v)) := by
  refine ⟨hx.owner, hx.so, fun p hp => (Function.update_of_ne ?_ _ _).trans (hx.next p hp)⟩
  intro hxa
  exact Aged.not_linked hx.owner (hxa ▸ ha)

/-- Linking one node leaves the other own nodes alone. -/
theorem Own.holds.link {x : Own Addr} {s : Aged Addr Key} (hx : x.holds t s) (hne : x.node ≠ n)
    (ha : s.Linked a) : x.holds t (s.link a n) := by
  obtain ⟨howner, hso, hnext⟩ := hx.setNext ha (.plain (some n))
  exact ⟨(Function.update_of_ne hne _ _).trans howner, hso, hnext⟩

/-! ### Any access -/

/-- The list has changed, and nothing else. -/
def Followed.withAged (s : Followed Addr Key) (x : Aged Addr Key) : Followed Addr Key :=
  { s with toAged := x }

omit [DecidableEq Addr] in
theorem Still.follows_same {x : Aged Addr Key} (hx : Still head t s x) :
    Follows head t s (s.withAged x) :=
  hx.follows fun _ _ => ⟨rfl, Iff.rfl, Iff.rfl⟩

/-- An access that leaves the entries and the books alone. -/
theorem Spec.still {o : Op Addr Key β} {k : β → Code Addr Key α} (h' : β → Hand Addr Key)
    (g' : β → List (Fact Addr Key)) (hturn : ∀ r, (h' r).turn = H.turn)
    (hstep : ∀ s b r m, Told C head s → Has C head t H l s → HelpsListed t o s.heap →
      o.apply b s.heap = some (r, m) → ∃ x : Aged Addr Key, x.heap = m ∧ Still head t s x ∧
        (m.retired = s.heap.retired ∧ m.count = s.heap.count) ∧
        ((h' r).nodes.map Own.node).Nodup ∧ (∀ y ∈ (h' r).nodes, y.holds t x) ∧
        ∀ f ∈ g' r, f.holds C head t (s.withAged x))
    (hk : ∀ r, Spec C head t (h' r) (g' r ++ l) (k r) h g) : Spec C head t H l (.act o k) h g := by
  refine .act h' g' (fun s b r m hi hb hh hok hact => ?_) hk
  obtain ⟨x, rfl, hx, ⟨hretired, hcount⟩, hnodup, hown, hknows⟩ := hstep s b r m hi hh hok hact
  refine ⟨s.withAged x, rfl, hx.moments hi, hx.told hi, hx.booked hb hi hretired hcount,
    hx.follows_same, hnodup, hown, ?_, hknows⟩
  rw [hturn]
  obtain ⟨h1, h2, h3, h4, h5⟩ := hh.turn
  exact ⟨h1, h2, h3, h4, h5⟩

/-! ### Accesses that write no pointer -/

/-- An access that writes nothing of the list and answers with the facts `g' r`. -/
theorem Spec.read {o : Op Addr Key β} {k : β → Code Addr Key α} (g' : β → List (Fact Addr Key))
    (ho : Op.still o = true)
    (hl : ∀ s b r m, Told C head s → Has C head t H l s → o.apply b s.heap = some (r, m) →
      ∀ f ∈ g' r, f.holds C head t s)
    (hk : ∀ r, Spec C head t H (g' r ++ l) (k r) h g) : Spec C head t H l (.act o k) h g := by
  refine .still (fun _ => H) g' (fun _ => rfl) (fun s b r m hi hh _ hact => ?_) hk
  have hsame := same_apply ho hact
  have hx : Still head t s (s.withHeap m) :=
    .of_calm hi hsame.calm hsame.soKey hsame.key fun u => hsame.size ▸ hi.size u
  refine ⟨_, rfl, hx, ⟨hsame.retired, hsame.count⟩, hh.nodup,
    fun y hy => (hh.own y hy).congr rfl hsame.soKey hsame.calm.next, fun f hf => ?_⟩
  exact Fact.keep hi (hx.told hi) hx.follows_same subset_rfl (hl s b r m hi hh hact f hf)

/-- An access that writes nothing of the list. -/
theorem Spec.skip {o : Op Addr Key β} {k : β → Code Addr Key α} (ho : Op.still o = true)
    (hk : ∀ r, Spec C head t H l (k r) h g) : Spec C head t H l (.act o k) h g :=
  .read (fun _ => []) ho (fun _ _ _ _ _ _ _ f hf => by cases hf) hk

/-- What comes after `a`. -/
def after (a : Addr) (p : Option Addr) : List (Fact Addr Key) :=
  p.toList.flatMap fun b => [.before a b, .linked b]

omit [DecidableEq Addr] in
@[simp] theorem after_none : after a none = ([] : List (Fact Addr Key)) := rfl

omit [DecidableEq Addr] in
@[simp] theorem after_some : after a (some b) = ([.before a b, .linked b] : List (Fact Addr Key)) :=
  rfl

/-- From the node, if it is one, the list leads to what is looked for. -/
def ahead (A : Aim Addr) : Option Addr → List (Fact Addr Key)
  | none => [.lost A]
  | some c => [.leads c A]

omit [DecidableEq Addr] in
@[simp] theorem ahead_none : ahead A none = ([.lost A] : List (Fact Addr Key)) := rfl

omit [DecidableEq Addr] in
@[simp] theorem ahead_some : ahead A (some c) = ([.leads c A] : List (Fact Addr Key)) := rfl

omit [DecidableEq Addr] in
/-- A next pointer leads to a later node. -/
theorem holds_after (hi : Told C head s) (ha : s.Linked a) {p : Option Addr}
    (hp : (s.heap.next a).ptr = p) : ∀ f ∈ after a p, f.holds C head t s := by
  intro f hf
  cases p with
  | none => cases hf
  | some c =>
    have hbefore := hi.before a c ha hp
    rcases List.mem_cons.mp hf with rfl | hf
    · exact hbefore
    · obtain rfl := List.mem_singleton.mp hf
      exact hbefore.right

omit [DecidableEq Addr] in
theorem holds_seen (hi : Told C head s) (ha : s.Linked a) :
    Fact.holds C head t s (.seen a (s.heap.next a)) := by
  refine ⟨ha, fun _ => rfl, fun hm hreg => ⟨_, hi.now t, ?_⟩⟩
  exact entry_of_live hi.toShaped ⟨ha, hm, hreg⟩

omit [DecidableEq Addr] in
/-- The pointer of a node that is not looked for leads on. -/
theorem holds_ahead (hi : Told C head s) (ha : Fact.holds C head t s (.past a A))
    {p : Option Addr} (hp : (s.heap.next a).ptr = p) : ∀ f ∈ ahead A p, f.holds C head t s := by
  intro f hf
  obtain ⟨hlinked, hlost | ⟨x, hx, hne, hreach⟩⟩ := ha
  · cases p with
    | none =>
      obtain rfl := List.mem_singleton.mp hf
      exact hlost
    | some c =>
      obtain rfl := List.mem_singleton.mp hf
      exact ⟨hi.next a c hp, .inl hlost⟩
  · rcases Relation.ReflTransGen.cases_head hreach with rfl | ⟨c, hc, hcx⟩
    · exact absurd rfl hne
    · have hc : (s.heap.next a).ptr = some c := hc
      rw [hp] at hc
      subst hc
      obtain rfl := List.mem_singleton.mp hf
      exact ⟨hi.next a c hp, .inr ⟨x, hx, hcx⟩⟩

/-- A load of a next pointer tells the link, and what comes after the node. -/
theorem Spec.loadNext {k : Link Addr → Code Addr Key α} (ha : .linked a ∈ l)
    (hk : ∀ r, Spec C head t H (.seen a r :: after a r.ptr ++ l) (k r) h g) :
    Spec C head t H l (.act (.loadNext a) k) h g := by
  refine .read (fun r => .seen a r :: after a r.ptr) rfl (fun s b r m hi hh hact f hf => ?_) hk
  cases hact
  have hlinked : s.Linked a := hh.knows _ ha
  rcases List.mem_cons.mp hf with rfl | hf
  · exact holds_seen hi hlinked
  · exact holds_after hi hlinked rfl f hf

/-- The next pointer of an erased node is marked. -/
theorem Spec.loadErased {k : Link Addr → Code Addr Key α} (ha : .linked a ∈ l)
    (he : .erased a ∈ l)
    (hk : ∀ r, r.marked = true → Spec C head t H (.seen a r :: l) (k r) h g) :
    Spec C head t H l (.act (.loadNext a) k) h g := by
  refine .read (fun r => [.pure (r.marked = true), .seen a r]) rfl
    (fun s b r m hi hh hact f hf => ?_) fun r => .assume (φ := r.marked = true) (by simp) ?_
  · cases hact
    rcases List.mem_cons.mp hf with rfl | hf
    · have hm : (s.heap.next a).marked = true := hh.knows _ he
      exact hm
    · obtain rfl := List.mem_singleton.mp hf
      exact holds_seen hi (hh.knows _ ha)
  · intro hr l' hl s hi hb hh
    exact hk r hr l' (fun f hf => hl (List.mem_cons_of_mem _ hf)) s hi hb hh

/-- From a node before what is looked for, the pointer leads on to it. -/
theorem Spec.loadPast {k : Link Addr → Code Addr Key α} (ha : .past a A ∈ l)
    (hk : ∀ r, Spec C head t H (.seen a r :: (after a r.ptr ++ ahead A r.ptr) ++ l) (k r) h g) :
    Spec C head t H l (.act (.loadNext a) k) h g := by
  refine .read (fun r => .seen a r :: (after a r.ptr ++ ahead A r.ptr)) rfl
    (fun s b r m hi hh hact f hf => ?_) hk
  cases hact
  have hpast := hh.knows _ ha
  rcases List.mem_cons.mp hf with rfl | hf
  · exact holds_seen hi hpast.1
  · exact (List.mem_append.mp hf).elim (holds_after hi hpast.1 rfl f) (holds_ahead hi hpast rfl f)

/-- The split-order key of a linked node does not change. -/
theorem Spec.loadSoKey {k : Word → Code Addr Key α} (ha : .linked a ∈ l)
    (hk : ∀ r, Spec C head t H (.keyed a r :: l) (k r) h g) :
    Spec C head t H l (.act (.loadSoKey a) k) h g := by
  refine .read (fun r => [.keyed a r]) rfl (fun s b r m hi hh hact f hf => ?_) hk
  cases hact
  obtain rfl := List.mem_singleton.mp hf
  exact ⟨hh.knows _ ha, rfl⟩

/-- The key of a linked node does not change. -/
theorem Spec.loadKey {k : Key → Code Addr Key α} (ha : .linked a ∈ l)
    (hk : ∀ r, Spec C head t H (.named a r :: l) (k r) h g) :
    Spec C head t H l (.act (.loadKey a) k) h g := by
  refine .read (fun r => [.named a r]) rfl (fun s b r m hi hh hact f hf => ?_) hk
  cases hact
  obtain rfl := List.mem_singleton.mp hf
  have hlinked : s.Linked a := hh.knows _ ha
  exact ⟨hlinked.1, rfl⟩

/-- The key of a node of the thread. -/
theorem Spec.loadOwnKey {T : Turn Addr Key} {x : Own Addr} {k : Word → Code Addr Key α}
    (hk : Spec C head t ⟨T, x :: M⟩ l (k x.so) h g) :
    Spec C head t ⟨T, x :: M⟩ l (.act (.loadSoKey x.node) k) h g := by
  refine .read (fun r => [.pure (r = x.so)]) rfl (fun s b r m hi hh hact f hf => ?_) fun r =>
    .assume (φ := r = x.so) (by simp) ?_
  · cases hact
    obtain rfl := List.mem_singleton.mp hf
    exact (hh.own x List.mem_cons_self).so
  · rintro rfl l' hl s hi hb hh
    exact hk l' (fun f hf => hl (List.mem_cons_of_mem _ hf)) s hi hb hh

/-- Sizes are powers of two. -/
theorem Spec.loadSize {u : Nat} {k : Nat → Code Addr Key α}
    (hk : ∀ j, j ≤ 30 → Spec C head t H l (k (2 ^ j)) h g) :
    Spec C head t H l (.act (.loadSize u) k) h g := by
  refine .read (fun r => [.pure (∃ j, j ≤ 30 ∧ r = 2 ^ j)]) rfl
    (fun s b r m hi hh hact f hf => ?_) fun r => .assume (φ := ∃ j, j ≤ 30 ∧ r = 2 ^ j) (by simp) ?_
  · cases hact
    obtain rfl := List.mem_singleton.mp hf
    exact hi.size u
  · rintro ⟨j, hj, rfl⟩ l' hl s hi hb hh
    exact hk j hj l' (fun f hf => hl (List.mem_cons_of_mem _ hf)) s hi hb hh

/-- What a load of the bucket `i` tells. -/
def dummies (i : Nat) (r : Option Addr) : List (Fact Addr Key) :=
  r.toList.flatMap fun d => [.keyed d (dummySplitOrderKey i), .pure (i < 2 ^ 63)]

omit [DecidableEq Addr] in
@[simp] theorem dummies_none {i : Nat} : dummies i none = ([] : List (Fact Addr Key)) := rfl

omit [DecidableEq Addr] in
@[simp] theorem dummies_some {i : Nat} : dummies i (some a) =
    ([.keyed a (dummySplitOrderKey i), .pure (i < 2 ^ 63)] : List (Fact Addr Key)) := rfl

/-- What is in a cell is the dummy of the bucket. -/
theorem Spec.loadBucket {u i : Nat} {k : Option Addr → Code Addr Key α}
    (hk : ∀ r, Spec C head t H (dummies i r ++ l) (k r) h g) :
    Spec C head t H l (.act (.loadBucket u i) k) h g := by
  refine .read (fun r => dummies i r) rfl (fun s b r m hi hh hact f hf => ?_) hk
  cases hact
  obtain ⟨d, hd, hf⟩ := List.mem_flatMap.mp hf
  have hd := Option.mem_toList.mp hd
  obtain ⟨hdummy, hlt⟩ := hi.dummy u i d hd
  rcases List.mem_cons.mp hf with rfl | hf
  · exact ⟨hi.bucket u i d hd, hdummy⟩
  · obtain rfl := List.mem_singleton.mp hf
    exact hlt

/-! ### Tables -/

/-- A new table has no dummies yet. -/
theorem Spec.newTable {j : Nat} {k : Nat → Code Addr Key α} (hj : j ≤ 30)
    (hk : ∀ r, Spec C head t H l (k r) h g) :
    Spec C head t H l (.act (.newTable (2 ^ j)) k) h g := by
  refine .still (fun _ => H) (fun _ => []) (fun _ => rfl) (fun s b r m hi hh _ hact => ?_) hk
  have hcalm := calm_apply rfl hact
  cases hact
  have hx : Still head t s (s.withHeap (s.heap.makeTable (2 ^ j)).2) := by
    refine .of_calm hi hcalm rfl rfl fun u => ?_
    show ∃ i, i ≤ 30 ∧ update s.heap.size s.heap.tables (2 ^ j) u = 2 ^ i
    by_cases hu : u = s.heap.tables
    · rw [hu, Function.update_self]
      exact ⟨j, hj, rfl⟩
    · rw [Function.update_of_ne hu]
      exact hi.size u
  exact ⟨_, rfl, hx, ⟨rfl, rfl⟩, hh.nodup, fun y hy => (hh.own y hy).congr rfl rfl rfl,
    fun f hf => by cases hf⟩

omit [DecidableEq Addr] in
/-- A cell is given the dummy of its bucket. -/
theorem still_setBucket {u i : Nat} {v : Option Addr} (hi : Told C head s)
    (hv : ∀ d, v = some d → s.Linked d ∧ s.heap.soKey d = dummySplitOrderKey i ∧ i < 2 ^ 63) :
    Still head t s (s.withHeap (s.heap.setBucket u i v)) := by
  obtain ⟨hi', hg⟩ := setBucket_moves (t := t) (u := u) hi.toShaped hv
  exact ⟨hi', hg, fun _ => rfl, fun _ ha => .inl ha, hi.size⟩

theorem Spec.storeBucket {u i : Nat} {v : Option Addr} {k : Unit → Code Addr Key α}
    (hv : dummies i v ⊆ l) (hk : Spec C head t H l (k ()) h g) :
    Spec C head t H l (.act (.storeBucket u i v) k) h g := by
  refine .still (fun _ => H) (fun _ => []) (fun _ => rfl) (fun s b r m hi hh _ hact => ?_)
    fun _ => hk
  cases hact
  refine ⟨_, rfl, still_setBucket hi fun d hd => ?_, ⟨rfl, rfl⟩, hh.nodup,
    fun y hy => (hh.own y hy).congr rfl rfl rfl, fun f hf => by cases hf⟩
  subst hd
  obtain ⟨hlinked, hkey⟩ : s.Linked d ∧ s.heap.soKey d = dummySplitOrderKey i :=
    hh.knows (.keyed d _) (hv (by simp))
  exact ⟨hlinked, hkey, hh.knows (.pure (i < 2 ^ 63)) (hv (by simp))⟩

/-- A cell is given the dummy of its bucket, or stays as it is. -/
theorem Spec.casBucket {u i : Nat} {d : Addr} {k : Bool → Code Addr Key α}
    (hd : .keyed d (dummySplitOrderKey i) ∈ l) (hlt : i < 2 ^ 63)
    (hk : ∀ r, Spec C head t H l (k r) h g) :
    Spec C head t H l (.act (.casBucket u i d) k) h g := by
  refine .still (fun _ => H) (fun _ => []) (fun _ => rfl) (fun s b r m hi hh _ hact => ?_) hk
  simp only [Op.apply] at hact
  split at hact <;> cases hact
  · obtain ⟨hlinked, hkey⟩ : s.Linked d ∧ s.heap.soKey d = dummySplitOrderKey i := hh.knows _ hd
    refine ⟨_, rfl, still_setBucket hi fun c hc => ?_, ⟨rfl, rfl⟩, hh.nodup,
      fun y hy => (hh.own y hy).congr rfl rfl rfl, fun f hf => by cases hf⟩
    obtain rfl := Option.some.inj hc
    exact ⟨hlinked, hkey, hlt⟩
  · have hx : Still head t s (s.withHeap s.heap) :=
      .of_calm hi ⟨rfl, fun _ _ _ h => h, rfl, rfl⟩ rfl rfl hi.size
    exact ⟨_, rfl, hx, ⟨rfl, rfl⟩, hh.nodup, hh.own, fun f hf => by cases hf⟩

/-! ### Nodes of the thread -/

omit [DecidableEq Addr] in
/-- What is written to the node `n` does not matter to other nodes of the thread. -/
theorem Own.other {x : Own Addr} {s s' : Aged Addr Key} (hx : x.holds t s) (hne : x.node ≠ n)
    (howner : ∀ b, b ≠ n → s'.owner b = s.owner b)
    (hnext : ∀ b, b ≠ n → s.owner b = some t → s'.heap.next b = s.heap.next b)
    (hso : ∀ b, b ≠ n → s'.heap.soKey b = s.heap.soKey b) : x.holds t s' :=
  ⟨(howner _ hne).trans hx.owner, (hso _ hne).trans hx.so,
    fun p hp => (hnext _ hne hx.owner).trans (hx.next p hp)⟩

omit [DecidableEq Addr] in
/-- The nodes of a thread are different ones. -/
theorem Has.ne_head {T : Turn Addr Key} {x y : Own Addr} (hh : Has C head t ⟨T, x :: M⟩ l s)
    (hy : y ∈ M) : y.node ≠ x.node := by
  intro he
  exact (List.nodup_cons.mp hh.nodup).1 (he ▸ List.mem_map_of_mem hy)

theorem Spec.blank {T : Turn Addr Key} {w : Option (Option Addr)} {p : Code Addr Key α}
    (hp : Spec C head t ⟨T, ⟨n, so, none⟩ :: M⟩ l p h g) :
    Spec C head t ⟨T, ⟨n, so, w⟩ :: M⟩ l p h g := by
  intro l' hl s hi hb hh
  refine hp l' hl s hi hb ⟨hh.nodup, fun x hx => ?_, hh.turn, hh.knows⟩
  rcases List.mem_cons.mp hx with rfl | hx
  · obtain ⟨h1, h2, -⟩ := hh.own _ List.mem_cons_self
    exact ⟨h1, h2, fun p hp => by cases hp⟩
  · exact hh.own x (List.mem_cons_of_mem _ hx)

/-- The inserter writes the key of its node. -/
theorem Spec.storeSoKey {T : Turn Addr Key} {w : Word} {p : Option (Option Addr)}
    {k : Unit → Code Addr Key α}
    (hk : Spec C head t ⟨T, ⟨n, w, p⟩ :: M⟩ l (k ()) h g) :
    Spec C head t ⟨T, ⟨n, so, p⟩ :: M⟩ l (.act (.storeSoKey n w) k) h g := by
  refine .still (fun _ => ⟨T, ⟨n, w, p⟩ :: M⟩) (fun _ => []) (fun _ => rfl)
    (fun s b r m hi hh _ hact => ?_) fun _ => hk
  cases hact
  obtain ⟨hown, -, hstored⟩ := hh.own _ List.mem_cons_self
  obtain ⟨hi', hg⟩ := storeSoKey_moves (w := w) hi.toShaped hown
  refine ⟨_, rfl, ⟨hi', hg, fun _ => rfl, fun _ ha => .inl ha, hi.size⟩, ⟨rfl, rfl⟩, hh.nodup,
    fun x hx => ?_, fun f hf => by cases hf⟩
  rcases List.mem_cons.mp hx with rfl | hx
  · exact ⟨hown, Function.update_self _ _ _, hstored⟩
  · exact Own.other (hh.own x (List.mem_cons_of_mem _ hx)) (hh.ne_head hx) (fun _ _ => rfl)
      (fun _ _ _ => rfl) fun b hb => Function.update_of_ne hb _ _

/-- The inserter writes the pointer of its node. -/
theorem Spec.storeNext {T : Turn Addr Key} {w : Option (Option Addr)} {p : Option Addr}
    {k : Unit → Code Addr Key α} (hp : ∀ c, p = some c → .linked c ∈ l)
    (hk : Spec C head t ⟨T, ⟨n, so, some p⟩ :: M⟩ l (k ()) h g) :
    Spec C head t ⟨T, ⟨n, so, w⟩ :: M⟩ l (.act (.storeNext n (.plain p)) k) h g := by
  refine .still (fun _ => ⟨T, ⟨n, so, some p⟩ :: M⟩) (fun _ => []) (fun _ => rfl)
    (fun s b r m hi hh _ hact => ?_) fun _ => hk
  cases hact
  obtain ⟨hown, hso, -⟩ := hh.own _ List.mem_cons_self
  obtain ⟨hi', hg⟩ := storeNext_moves hi.toShaped hown fun c hc => hh.knows _ (hp c hc)
  have hother : ∀ a, a ≠ n → (s.heap.setNext n (.plain p)).next a = s.heap.next a :=
    fun a ha => Function.update_of_ne ha _ _
  have hself : (s.heap.setNext n (.plain p)).next n = .plain p := Function.update_self _ _ _
  refine ⟨_, rfl, ⟨hi', hg, fun a => ?_, fun _ ha => .inl ha, hi.size⟩, ⟨rfl, rfl⟩, hh.nodup,
    fun x hx => ?_, fun f hf => by cases hf⟩
  · by_cases han : a = n
    · rw [han]
      exact (congrArg Link.marked hself).trans (hi.unmarked n (Aged.not_linked hown)).symm
    · exact congrArg Link.marked (hother a han)
  · rcases List.mem_cons.mp hx with rfl | hx
    · refine ⟨hown, hso, fun q hq => ?_⟩
      cases hq
      exact hself
    · exact Own.other (hh.own x (List.mem_cons_of_mem _ hx)) (hh.ne_head hx) (fun _ _ => rfl)
        (fun b hb _ => hother b hb) fun _ _ => rfl

omit [DecidableEq Addr] in
/-- A new block is none of the thread's own. -/
theorem Has.fresh_node (hi : Told C head s) (hh : Has C head t H l s) (hn : n ∉ s.heap.inUse) :
    ∀ x ∈ H.nodes, x.node ≠ n := by
  rintro x hx rfl
  have hown := (hh.own x hx).owner
  rw [hi.unused _ hn] at hown
  cases hown

/-- A new node is not linked. -/
theorem still_give {h' : Heap Addr Key} (hi : Told C head s) (hn : n ∉ s.heap.inUse)
    (hpick : h'.pick = s.heap.pick) (hbucket : h'.bucket = s.heap.bucket)
    (hnext : h'.next = update s.heap.next n .null) (hinUse : h'.inUse = insert n s.heap.inUse)
    (hso : h'.soKey = update s.heap.soKey n 0) (hkey : ∀ a, a ≠ n → h'.key a = s.heap.key a)
    (hsize : h'.size = s.heap.size) :
    Still head t s { s.toAged with heap := h', owner := update s.owner n (some t) } := by
  obtain ⟨hi', hg⟩ := give_moves (t := t) hi.toShaped hn hpick hbucket hnext hinUse hso hkey
  refine ⟨hi', hg, fun a => ?_, fun a ha => .inl ?_, fun u => ?_⟩
  · show (h'.next a).marked = _
    rw [hnext]
    by_cases han : a = n
    · rw [han, Function.update_self, hi.unmarked n fun hl => hn hl.1]
      rfl
    · rw [Function.update_of_ne han]
  · obtain ⟨hin, hfree⟩ := ha
    replace hin : a ∈ h'.inUse := hin
    replace hfree : update s.owner n (some t) a = none := hfree
    have han : a ≠ n := by
      rintro rfl
      rw [Function.update_self] at hfree
      cases hfree
    rw [hinUse] at hin
    rw [Function.update_of_ne han] at hfree
    exact ⟨(Finset.mem_insert.mp hin).resolve_left han, hfree⟩
  · show ∃ j, j ≤ 30 ∧ h'.size u = 2 ^ j
    rw [hsize]
    exact hi.size u

/-- A new block is the thread's own, with the split-order key 0. -/
theorem Spec.allocNode {T : Turn Addr Key} {k : Addr → Code Addr Key α}
    (hk : ∀ d, Spec C head t ⟨T, ⟨d, 0, none⟩ :: M⟩ l (k d) h g) :
    Spec C head t ⟨T, M⟩ l (.act .allocNode k) h g := by
  refine .still (fun d => ⟨T, ⟨d, 0, none⟩ :: M⟩) (fun _ => []) (fun _ => rfl)
    (fun s b d m hi hh _ hact => ?_) hk
  cases hact
  have hnew := hi.pick s.heap.allocs s.heap.inUse
  have hfresh := hh.fresh_node hi hnew
  set n := s.heap.pick s.heap.allocs s.heap.inUse
  have hgive : Still head t s
      { s.toAged with heap := s.heap.alloc.2, owner := update s.owner n (some t) } :=
    still_give hi hnew rfl rfl rfl rfl rfl (fun _ _ => rfl) rfl
  refine ⟨_, rfl, hgive, ⟨rfl, rfl⟩, List.nodup_cons.mpr ⟨fun hmem => ?_, hh.nodup⟩,
    fun x hx => ?_, fun f hf => by cases hf⟩
  · obtain ⟨x, hx, he⟩ := List.mem_map.mp hmem
    exact hfresh x hx he
  · rcases List.mem_cons.mp hx with rfl | hx
    · exact ⟨Function.update_self _ _ _, Function.update_self _ _ _, fun p hp => by cases hp⟩
    · exact Own.other (hh.own x hx) (hfresh x hx) (fun b hb => Function.update_of_ne hb _ _)
        (fun b hb _ => Function.update_of_ne hb _ _) fun b hb => Function.update_of_ne hb _ _

/-! ### Compare-exchanges that leave the entries alone -/

/-- A compare-exchange writes or fails. -/
theorem cas_cases {o : Op Addr Key Bool} {e v : Link Addr} {b r : Bool} {h m : Heap Addr Key}
    (ho : o.apply b h = some (h.compareExchange a e v false) ∨
      o.apply b h = some (h.compareExchange a e v b)) (hact : o.apply b h = some (r, m)) :
    (r = false ∧ m = h) ∨ (r = true ∧ h.next a = e ∧ m = h.setNext a v) := by
  rcases ho with h1 | h1 <;> rw [h1] at hact <;>
    simp only [Heap.compareExchange] at hact <;> split at hact <;> cases hact
  · next hc => exact .inr ⟨rfl, hc.1, rfl⟩
  · exact .inl ⟨rfl, rfl⟩
  · next hc => exact .inr ⟨rfl, hc.1, rfl⟩
  · exact .inl ⟨rfl, rfl⟩

omit [DecidableEq Addr] in
theorem Still.rfl (hi : Told C head s) : Still head t s (s.withHeap s.heap) :=
  .of_calm hi ⟨Eq.refl _, fun _ _ _ h => h, Eq.refl _, Eq.refl _⟩ (Eq.refl _) (Eq.refl _) hi.size

/-- A compare-exchange, weak or not, on a linked node. -/
theorem Spec.swing {o : Op Addr Key Bool} {e v : Link Addr} {k : Bool → Code Addr Key α}
    (gives : List (Fact Addr Key))
    (ho : ∀ b h, o.apply b h = some (h.compareExchange a e v false) ∨
      o.apply b h = some (h.compareExchange a e v b))
    (ha : .linked a ∈ l)
    (hstep : ∀ s, Told C head s → (∀ f ∈ l, f.holds C head t s) → HelpsListed t o s.heap →
      s.heap.next a = e → Still head t s (s.withHeap (s.heap.setNext a v)) ∧
        ∀ f ∈ gives, f.holds C head t (s.withAged (s.withHeap (s.heap.setNext a v))))
    (hyes : Spec C head t H (gives ++ l) (k true) h g) (hno : Spec C head t H l (k false) h g) :
    Spec C head t H l (.act o k) h g := by
  refine .still (fun _ => H) (fun r => if r then gives else []) (fun _ => rfl)
    (fun s b r m hi hh hok hact => ?_) fun r => by cases r <;> assumption
  rcases cas_cases (ho b s.heap) hact with ⟨rfl, rfl⟩ | ⟨rfl, he, rfl⟩
  · exact ⟨_, rfl, Still.rfl hi, ⟨rfl, rfl⟩, hh.nodup, hh.own, fun f hf => by cases hf⟩
  · obtain ⟨hx, hgives⟩ := hstep s hi hh.knows hok he
    have hlinked : s.Linked a := hh.knows _ ha
    exact ⟨_, rfl, hx, ⟨rfl, rfl⟩, hh.nodup, fun y hy => (hh.own y hy).setNext hlinked v, hgives⟩

/-- The marked node `c` is cut out of the list behind `a`. -/
theorem still_cut (hi : Told C head s) (ha : s.Linked a) (hac : s.heap.next a = .plain (some c))
    (hc : (s.heap.next c).marked = true) :
    Still head t s (s.withHeap (s.heap.setNext a (s.heap.next c).clearMark)) ∧
      ¬ (s.heap.setNext a (s.heap.next c).clearMark).Reaches head c := by
  obtain ⟨⟨hi', hg⟩, hout⟩ := cut_moves (t := t) hi.toShaped ha hac hc
  refine ⟨⟨hi', hg, fun b => ?_, fun _ hb => .inl hb, hi.size⟩, hout⟩
  show (update s.heap.next a (s.heap.next c).clearMark b).marked = _
  by_cases hba : b = a
  · rw [hba, Function.update_self, hac]
    rfl
  · rw [Function.update_of_ne hba]

/-- An attempt to cut out the erased node `c`, weak or not. -/
theorem Spec.cut {w : Word} {o : Op Addr Key Bool} {raw : Link Addr} {k : Bool → Code Addr Key α}
    (ho : ∀ b h, o.apply b h =
        some (h.compareExchange a (.plain (some c)) raw.clearMark false) ∨
      o.apply b h = some (h.compareExchange a (.plain (some c)) raw.clearMark b))
    (hr : raw.marked = true) (ha : .linked a ∈ l) (hc : .seen c raw ∈ l)
    (hyes : Spec C head t H (.lost (.node c w) :: l) (k true) h g)
    (hno : Spec C head t H l (k false) h g) : Spec C head t H l (.act o k) h g := by
  refine .swing [.lost (.node c w)] ho ha (fun s hi hl _ he => ?_) hyes hno
  obtain ⟨hlinked, hmarked, -⟩ := hl _ hc
  have hraw := hmarked hr
  obtain ⟨hx, hout⟩ := still_cut (t := t) hi (hl _ ha) he (hraw ▸ hr)
  rw [hraw] at hx hout
  refine ⟨hx, fun f hf => ?_⟩
  obtain rfl := List.mem_singleton.mp hf
  exact ⟨hlinked, hout⟩

omit [DecidableEq Addr] in
/-- Where a helper finds the null that it expects, the node that it has found marked is the last. -/
theorem null_help {prev cur : Addr} {raw : Link Addr} (hi : Told C head s)
    (hbefore : s.Before prev cur) (hcur : s.heap.next cur = raw)
    (hprev : s.heap.next prev = .null)
    (hnew : ∀ b, raw.ptr = some b → (s.heap.next b).marked = false) : raw.clearMark = .null := by
  cases hb : raw.ptr with
  | none =>
    show Link.mk raw.ptr false = _
    rw [hb]
    rfl
  | some b =>
    have hcb : s.Before cur b := hi.before cur b hbefore.right (by rw [hcur]; exact hb)
    have hm : (s.heap.next prev).marked = false := by
      rw [hprev]
      rfl
    have hreach := hi.toShaped.reaches_of_before (hbefore.trans hcb)
      (hi.live prev hbefore.left hm) (hi.live b hcb.right (hnew b hb))
    have heq := Reaches.eq_of_none (congrArg Link.ptr hprev) hreach
    exact absurd (heq ▸ hbefore.trans hcb) fun h => h.irrefl

/-- A helper unlinks a node that it has found marked. -/
theorem Spec.help {prev cur : Addr} {tagged raw : Link Addr} {k : Bool → Code Addr Key α}
    (hr : raw.marked = true) (hbefore : .before prev cur ∈ l) (hprev : .linked prev ∈ l)
    (hcur : .seen cur raw ∈ l) (hptr : tagged.ptr = none ∨ tagged.ptr = some cur)
    (hk : ∀ r, Spec C head t H l (k r) h g) :
    Spec C head t H l (.act (.casNextWeak prev tagged raw.clearMark) k) h g := by
  refine .swing [] (fun _ _ => .inr rfl) hprev (fun s hi hl hok he => ⟨?_, fun f hf => by cases hf⟩)
    (hk true) (hk false)
  obtain ⟨-, hmarked, -⟩ := hl _ hcur
  have hraw := hmarked hr
  have hm : tagged.marked = false := by
    rw [Bool.eq_false_iff]
    intro hm
    exact hok.1 ⟨hm, he⟩
  rcases hptr with hptr | hptr
  · -- nothing is written
    have hnull : tagged = .null := by
      cases tagged
      simp_all [Link.null]
    subst hnull
    have hclear := null_help hi (hl _ hbefore) hraw he fun b hb => hok.2 rfl he b hb
    rw [hclear, ← he, Heap.setNext, Function.update_eq_self]
    exact Still.rfl hi
  · have hplain : tagged = .plain (some cur) := by
      cases tagged
      simp_all [Link.plain]
    rw [← hraw]
    exact (still_cut hi (hl _ hprev) (he.trans hplain) (hraw ▸ hr)).1

/-- The compare-exchange that links a dummy of the thread. -/
theorem Spec.linkDummy {T : Turn Addr Key} {p : Option Addr} {k : Bool → Code Addr Key α}
    (ha : .below a so ∈ l) (hp : ∀ c, p = some c → .above c so ∈ l) (hso : isRegular so = false)
    (hyes : Spec C head t ⟨T, M⟩ (.keyed n so :: l) (k true) h g)
    (hno : Spec C head t ⟨T, ⟨n, so, some p⟩ :: M⟩ l (k false) h g) :
    Spec C head t ⟨T, ⟨n, so, some p⟩ :: M⟩ l
      (.act (.casNextWeak a (.plain p) (.plain (some n))) k) h g := by
  refine .still (fun r => ⟨T, if r then M else ⟨n, so, some p⟩ :: M⟩)
    (fun r => if r then [.keyed n so] else []) (fun _ => rfl)
    (fun s b r m hi hh _ hact => ?_) fun r => by cases r <;> assumption
  obtain ⟨hown, hkey, hnext⟩ := hh.own _ List.mem_cons_self
  replace hkey : s.heap.soKey n = so := hkey
  replace hnext : s.heap.next n = .plain p := hnext p rfl
  obtain ⟨hlinked, hlt⟩ : s.Linked a ∧ s.heap.soKey a < so := hh.knows _ ha
  rcases cas_cases (a := a) (.inr rfl) hact with ⟨rfl, rfl⟩ | ⟨rfl, he, rfl⟩
  · exact ⟨_, rfl, Still.rfl hi, ⟨rfl, rfl⟩, hh.nodup, hh.own, fun f hf => by cases hf⟩
  · obtain ⟨hi', hg⟩ := link_moves hi.toShaped hlinked hlt he hown hkey hnext
      fun c hc => hh.knows _ (hp c hc)
    have hself : (s.toAged.link a n).Linked n := (linked_link hi.toShaped hown).mpr (.inl rfl)
    refine ⟨s.toAged.link a n, rfl, ⟨hi', hg, marked_link he, fun b hb => ?_, hi.size⟩,
      ⟨rfl, rfl⟩, (List.nodup_cons.mp hh.nodup).2, fun x hx => ?_, fun f hf => ?_⟩
    · refine ((linked_link hi.toShaped hown).mp hb).symm.imp_right ?_
      rintro rfl
      exact (congrArg isRegular hkey).trans hso
    · exact (hh.own x (List.mem_cons_of_mem _ hx)).link (hh.ne_head hx) hlinked
    · obtain rfl := List.mem_singleton.mp hf
      exact ⟨hself, hkey⟩

/-! ### Changes -/

variable {op : Request Addr Key} {k : Key} {ans : Answer Addr Key}

/-- The call has changed nothing yet. -/
def Turn.fresh (op : Request Addr Key) : Turn Addr Key := ⟨op, none, none, false, false⟩

/-- The call has linked an entry and not counted it. -/
def Turn.linked (op : Request Addr Key) (r : Answer Addr Key) : Turn Addr Key :=
  ⟨op, some r, none, true, false⟩

/-- The call has marked the node `a`. -/
def Turn.marked (op : Request Addr Key) (r : Answer Addr Key) (a : Addr) : Turn Addr Key :=
  ⟨op, some r, some a, false, true⟩

/-- The call has retired the node that it has marked, and not counted it. -/
def Turn.retired (op : Request Addr Key) (r : Answer Addr Key) : Turn Addr Key :=
  ⟨op, some r, none, false, true⟩

/-- The call is to answer `r`. -/
def Turn.done (op : Request Addr Key) (r : Answer Addr Key) : Turn Addr Key :=
  ⟨op, some r, none, false, false⟩

omit [DecidableEq Addr] in
/-- A thread with nothing left to do is between two calls. -/
theorem Turn.holds.idle {T : Turn Addr Key} (hT : T.holds C t s) (hright : T.right = none)
    (hcredit : T.credit = false) (hdebit : T.debit = false) : Idle t s := by
  refine ⟨hT.right.trans hright, fun hmem => ?_, fun hmem => ?_⟩
  · have htrue := hT.credit.mp hmem
    rw [hcredit] at htrue
    cases htrue
  · have htrue := hT.debit.mp hmem
    rw [hdebit] at htrue
    cases htrue

/-- The compare-exchange that links the node of an insertion. -/
theorem Spec.linkEntry {p : Option Addr} {k' : Bool → Code Addr Key α}
    (hop : ∀ x : Contents Addr Key, C.Absent x k → op.Does C x (x ∪ {(n, k)}) ans)
    (ha : .below a so ∈ l) (hp : ∀ c, p = some c → .above c so ∈ l ∧ .passed c so ∈ l)
    (hn : .named n k ∈ l) (hso : so = C.splitKey k)
    (hyes : Spec C head t ⟨.linked op ans, M⟩ l (k' true) h g)
    (hno : Spec C head t ⟨.fresh op, ⟨n, so, some p⟩ :: M⟩ l (k' false) h g) :
    Spec C head t ⟨.fresh op, ⟨n, so, some p⟩ :: M⟩ l
      (.act (.casNextWeak a (.plain p) (.plain (some n))) k') h g := by
  refine .act (fun r => if r then ⟨.linked op ans, M⟩ else ⟨.fresh op, ⟨n, so, some p⟩ :: M⟩)
    (fun _ => []) (fun s b r m hi hb hh _ hact => ?_) fun r => by cases r <;> assumption
  obtain ⟨hown, hkey, hnext⟩ := hh.own _ List.mem_cons_self
  replace hkey : s.heap.soKey n = so := hkey
  replace hnext : s.heap.next n = .plain p := hnext p rfl
  obtain ⟨hlinked, hlt⟩ : s.Linked a ∧ s.heap.soKey a < so := hh.knows _ ha
  obtain ⟨-, hname⟩ : n ∈ s.heap.inUse ∧ s.heap.key n = k := hh.knows _ hn
  have hidle := hh.turn.idle rfl rfl rfl
  rcases cas_cases (a := a) (.inr rfl) hact with ⟨rfl, rfl⟩ | ⟨rfl, he, rfl⟩
  · refine ⟨s, rfl, ?_, hi, hb, Follows.rfl, hh.nodup, hh.own, hh.turn, fun f hf => by cases hf⟩
    rw [Moments.step_now hi.now]
  · have hfits : Fits C s t a n p := by
      refine ⟨hlinked, hkey.symm ▸ hlt, he, hown, hnext, fun c hc => ?_, ?_, fun hC c hc => ?_⟩
      · rw [hkey]
        exact hh.knows _ (hp c hc).1
      · rw [hkey, hname, hso]
      · rw [hkey]
        exact (hh.knows _ (hp c hc).2).2 hC
    have habsent : C.Separates → C.Absent (s.heap.entries head) k := by
      intro hC e he'
      obtain ⟨hlive, hk⟩ := (mem_entries hi.toReached).mp he'
      rw [Bool.eq_false_iff]
      intro heq
      refine hi.no_live hC hlinked hlt he (fun c hc => (hh.knows _ (hp c hc).2).2 hC) hlive ?_
      rw [hi.hashed e.1 hlive.linked hlive.regular, hk, hso]
      exact (hC e.2 k).mp heq
    have hdoes : C.Separates → op.Does C (s.heap.entries head)
        (s.heap.entries head ∪ {(n, s.heap.key n)}) ans := fun hC => by
      rw [hname]
      exact hop _ (habsent hC)
    have hx := entries_link hi.toShaped hfits
    refine ⟨s.linkNode head t a n, rfl, rfl, link_told hi hfits hh.turn.call hh.turn.changed hdoes,
      link_booked hb hi hfits hidle, link_follows hi hfits, (List.nodup_cons.mp hh.nodup).2,
      fun x hx => ?_, ⟨hh.turn.call, fun hC => ?_, hh.turn.right, ?_, hh.turn.debit⟩,
      fun f hf => by cases hf⟩
    · exact (hh.own x (List.mem_cons_of_mem _ hx)).link (hh.ne_head hx) hlinked
    · refine ⟨_, _, changes_step ?_ (hh.turn.changed hC), ?_⟩
      · rw [hx]
        intro heq
        apply hfits.not_entry hi.toShaped (s.heap.key n)
        rw [heq]
        exact .inr rfl
      · rw [hx]
        exact hdoes hC
    · exact iff_of_true (Finset.mem_insert_self t _) rfl

/-- The compare-exchange by which an eraser marks a node. -/
theorem Spec.mark {w : Word} {e : Link Addr} {k' : Bool → Code Addr Key α}
    (hop : ∀ (x : Contents Addr Key) y, y ∈ x → C.eq y.2 k = true → op.Does C x (x \ {y}) ans)
    (he : e.marked = false) (ha : .was a k ∈ l) (hw : .keyed a w ∈ l)
    (hreg : isRegular w = true)
    (hyes : Spec C head t ⟨.marked op ans a, M⟩ (.erased a :: l) (k' true) h g)
    (hno : Spec C head t ⟨.fresh op, M⟩ l (k' false) h g) :
    Spec C head t ⟨.fresh op, M⟩ l (.act (.casNext a e e.setMarked) k') h g := by
  refine .act (fun r => if r then ⟨.marked op ans a, M⟩ else ⟨.fresh op, M⟩)
    (fun r => if r then [.erased a] else []) (fun s b r m hi hb hh _ hact => ?_)
    fun r => by cases r <;> assumption
  have hidle : Idle t s := by
    have hturn := hh.turn
    exact hturn.idle rfl rfl rfl
  have hturn : (Turn.fresh op).holds C t s := hh.turn
  rcases cas_cases (a := a) (.inl rfl) hact with ⟨rfl, rfl⟩ | ⟨rfl, rfl, rfl⟩
  · refine ⟨s, rfl, ?_, hi, hb, Follows.rfl, hh.nodup, hh.own, hh.turn, fun f hf => by cases hf⟩
    rw [Moments.step_now hi.now]
  · obtain ⟨hlinked, hkey⟩ : s.Linked a ∧ s.heap.soKey a = w := hh.knows _ hw
    obtain ⟨-, heq, -⟩ : s.Linked a ∧ C.eq (s.heap.key a) k = true ∧ _ := hh.knows _ ha
    have hlive : Live s.toAnnotated a := ⟨hlinked, he, hkey.symm ▸ hreg⟩
    have hmem := entry_of_live hi.toShaped hlive
    have hdoes := hop _ _ hmem heq
    have hx := entries_mark hi.toShaped hlive
    refine ⟨s.mark head t a, rfl, rfl, mark_told hi hlive hturn.call hturn.changed fun _ => hdoes,
      mark_booked hb hi hlive hidle, mark_follows hi hlive, hh.nodup,
      fun x hx => (hh.own x hx).setNext hlinked _,
      ⟨hturn.call, fun hC => ?_, Function.update_self _ _ _, hturn.credit, ?_⟩, fun f hf => ?_⟩
    · refine ⟨_, _, changes_step ?_ (hturn.changed hC), ?_⟩
      · rw [hx]
        intro heq
        rw [heq] at hmem
        exact hmem.2 rfl
      · rw [hx]
        exact hdoes
    · exact iff_of_true (Finset.mem_insert_self t _) rfl
    · obtain rfl := List.mem_singleton.mp hf
      exact marked_iff.mpr (.inl rfl)

/-- The eraser retires its node. -/
theorem Spec.retireNode {w : Word} {k' : Unit → Code Addr Key α} (hout : .lost (.node a w) ∈ l)
    (hk : Spec C head t ⟨.retired op ans, M⟩ l (k' ()) h g) :
    Spec C head t ⟨.marked op ans a, M⟩ l (.act (.retireNode a) k') h g := by
  refine .act (fun _ => ⟨.retired op ans, M⟩) (fun _ => []) (fun s b r m hi hb hh _ hact => ?_)
    fun _ => hk
  cases hact
  have hstill := still_retire (t := t) hi (s.heap.retired ++ [a])
  obtain ⟨-, hnot⟩ : s.Linked a ∧ ¬ s.heap.Reaches head a := hh.knows _ hout
  obtain ⟨hcall, hchanged, hright, hcredit, hdebit⟩ := hh.turn
  exact ⟨⟨_, s.moments, update s.right t none, s.credit, s.debit⟩, rfl, hstill.moments hi,
    hstill.told hi, retire_booked hb hi hright hnot, hstill.follows fun v hv =>
      ⟨Function.update_of_ne hv _ _, Iff.rfl, Iff.rfl⟩, hh.nodup,
    fun x hx => (hh.own x hx).congr rfl rfl rfl,
    ⟨hcall, hchanged, Function.update_self _ _ _, hcredit, hdebit⟩, fun f hf => by cases hf⟩

/-- The entry is counted after it was linked. -/
theorem Spec.addCount {k' : Unit → Code Addr Key α}
    (hk : Spec C head t ⟨.done op ans, M⟩ l (k' ()) h g) :
    Spec C head t ⟨.linked op ans, M⟩ l (.act .addCount k') h g := by
  refine .act (fun _ => ⟨.done op ans, M⟩) (fun _ => []) (fun s b r m hi hb hh _ hact => ?_)
    fun _ => hk
  cases hact
  have hstill := still_count (t := t) hi (s.heap.count + 1)
  obtain ⟨hcall, hchanged, hright, hcredit, hdebit⟩ := hh.turn
  exact ⟨⟨_, s.moments, s.right, s.credit.erase t, s.debit⟩, rfl, hstill.moments hi,
    hstill.told hi, addCount_booked hb hi (hcredit.mpr rfl), hstill.follows fun v hv =>
      ⟨rfl, Finset.mem_erase.trans (and_iff_right hv), Iff.rfl⟩, hh.nodup,
    fun x hx => (hh.own x hx).congr rfl rfl rfl, ⟨hcall, hchanged, hright,
      iff_of_false (Finset.notMem_erase t _) Bool.false_ne_true, hdebit⟩, fun f hf => by cases hf⟩

/-- The entry is counted down after its node was retired. -/
theorem Spec.subCount {k' : Unit → Code Addr Key α}
    (hk : Spec C head t ⟨.done op ans, M⟩ l (k' ()) h g) :
    Spec C head t ⟨.retired op ans, M⟩ l (.act .subCount k') h g := by
  refine .act (fun _ => ⟨.done op ans, M⟩) (fun _ => []) (fun s b r m hi hb hh _ hact => ?_)
    fun _ => hk
  cases hact
  have hstill := still_count (t := t) hi (s.heap.count - 1)
  obtain ⟨hcall, hchanged, hright, hcredit, hdebit⟩ := hh.turn
  exact ⟨⟨_, s.moments, s.right, s.credit, s.debit.erase t⟩, rfl, hstill.moments hi,
    hstill.told hi, subCount_booked hb hi (hdebit.mpr rfl), hstill.follows fun v hv =>
      ⟨rfl, Iff.rfl, Finset.mem_erase.trans (and_iff_right hv)⟩, hh.nodup,
    fun x hx => (hh.own x hx).congr rfl rfl rfl, ⟨hcall, hchanged, hright, hcredit,
      iff_of_false (Finset.notMem_erase t _) Bool.false_ne_true⟩, fun f hf => by cases hf⟩

end Rules

end Entries

end MpmcMap.Unordered
