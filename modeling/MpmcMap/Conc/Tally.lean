import MpmcMap.Conc.RelyGuarantee
import Mathlib.Algebra.Order.Ring.Int
import Mathlib.Data.Finset.Card

/-!
# A counter beside what it counts

A container counts its nodes: a call links its node in one step and increments the counter in a
later one; another call removes the node and decrements the counter in a step of its own. A `Tally`
records beside the state which nodes have been linked, counted and removed, and by whom. As long as
no call counts a node down that has not been counted up, the counter is the number of the nodes that
have been counted up and not down, and at most that of the nodes that have been linked.
-/

namespace MpmcMap.Conc

open Function (update)

/-- What is recorded of the calls. -/
structure Tally (Node : Type) where
  /-- The node that the call of a thread has yet to link. -/
  brings : Nat → Option Node
  /-- The node that the call of a thread has linked and not counted yet. -/
  due : Nat → Option Node
  /-- The node that the call of a thread has removed and not counted down yet. -/
  took : Nat → Option Node
  /-- The nodes that have been counted and not counted down since. -/
  counted : List Node
  /-- How many calls have linked their node. -/
  links : Nat

namespace Tally

variable {Node : Type}

/-- No call has been made. -/
def init : Tally Node := ⟨fun _ => none, fun _ => none, fun _ => none, [], 0⟩

/-- A call of thread `t` begins that is to link the node `b`. -/
def call (w : Tally Node) (t : Nat) (b : Option Node) : Tally Node :=
  { w with brings := update w.brings t b, due := update w.due t none, took := update w.took t none }

variable [DecidableEq Node]

/-- Thread `t` has written the pointer `p`. -/
def wrote (w : Tally Node) (t : Nat) (p : Option Node) : Tally Node :=
  if p ≠ none ∧ w.brings t = p then
    { w with brings := update w.brings t none, due := update w.due t p, links := w.links + 1 }
  else w

/-- Thread `t` has removed the node `p`. -/
def removed (w : Tally Node) (t : Nat) (p : Option Node) : Tally Node :=
  match p with
  | none => w
  | some _ => { w with took := update w.took t p }

/-- Thread `t` has added `d` to the counter. -/
def adds (w : Tally Node) (t : Nat) (d : Option Int) : Tally Node :=
  if d = some 1 then
    { w with counted := (w.due t).toList ++ w.counted, due := update w.due t none }
  else if d = some (-1) then
    { w with counted := (w.took t).elim w.counted w.counted.erase, took := update w.took t none }
  else w

end Tally

/-- A container with a counter. -/
structure Counted (E : Type → Type) (S Call Ret Node : Type) where
  apply : {β : Type} → Nat → Bool → E β → S → Option (β × S)
  /-- The pointer that the access writes. -/
  writes : {β : Type} → Bool → E β → S → Option Node
  /-- The node that the access hands to the reclaimer. -/
  removes : {β : Type} → E β → Option Node
  /-- The exact value of the counter, which is read modulo `2 ^ 64`. -/
  count : S → Int
  /-- What the access adds to the counter, if it does not set it. -/
  adds : {β : Type} → E β → Option Int
  code : Call → Prog E Ret
  invoke : Call → S → Option S
  /-- The node that the call is to link. -/
  brings : Call → Option Node

namespace Counted

variable {E : Type → Type} {S Call Ret Node : Type} [DecidableEq Node]
variable (K : Counted E S Call Ret Node)

/-- What an access of thread `t` does to the record. -/
def record (t : Nat) (b : Bool) {β : Type} (e : E β) (s : S) (w : Tally Node) : Tally Node :=
  ((w.wrote t (K.writes b e s)).removed t (K.removes e)).adds t (K.adds e)

/-- The container under any number of threads. -/
def system : SharedObject E (S × Tally Node) Call Ret where
  action t b e s := (K.apply t b e s.1).map fun r => (r.1, r.2, K.record t b e s.1 s.2)
  code := K.code
  invoke t c s := (K.invoke c s.1).map fun h => (h, s.2.call t (K.brings c))
  respond _ _ _ s := s

/-- The value of the counter, 64 bits wide. -/
def value (s : S) : Nat := (K.count s % 2 ^ 64).toNat

/-- The node that is counted down has been counted, and not been counted down since. -/
def CountedFirst {β : Type} (t : Nat) (e : E β) (s : S × Tally Node) : Prop :=
  K.adds e = some (-1) → ∀ n, s.2.took t = some n → n ∈ s.2.counted

/-- `CountedFirst` as a test. -/
def countedFirstTest {β : Type} (t : Nat) (e : E β) (s : S × Tally Node) : Bool :=
  K.adds e ≠ some (-1) ∨ (s.2.took t).all fun n => n ∈ s.2.counted

theorem countedFirstTest_sound {β : Type} (t : Nat) (e : E β) (s : S × Tally Node)
    (h : K.countedFirstTest t e s = true) : K.CountedFirst t e s := by
  intro he n hn
  have hall := (of_decide_eq_true h).resolve_left fun hne => hne he
  rw [hn] at hall
  simpa using hall

/-- The container, the record, and the threads that have linked and not counted yet. -/
structure Books (S Node : Type) where
  state : S × Tally Node
  due : Finset Nat

variable {K} in
structure Inv (K : Counted E S Call Ret Node) (a : Books S Node) : Prop where
  count : K.count a.state.1 = a.state.2.counted.length
  due : ∀ t, a.state.2.due t ≠ none → t ∈ a.due
  links : a.state.2.counted.length + a.due.card ≤ a.state.2.links

/-- A step of thread `u` leaves what is recorded of the other threads. -/
structure Guar (u : Nat) (a a' : Books S Node) : Prop where
  brings : ∀ v, v ≠ u → a'.state.2.brings v = a.state.2.brings v
  due : ∀ v, v ≠ u → a'.state.2.due v = a.state.2.due v
  took : ∀ v, v ≠ u → a'.state.2.took v = a.state.2.took v

/-- The proof obligations of the threads. -/
def counting : Discipline K.system (Books S Node) where
  erase := Books.state
  inv := Inv K
  guar := Guar
  ok := K.CountedFirst

/-- The accesses add to the counter what they are said to add. -/
def Lawful : Prop :=
  ∀ {β : Type} (t : Nat) (b : Bool) (e : E β) (s : S) (r : β) (s' : S) (d : Int),
    K.apply t b e s = some (r, s') → K.adds e = some d → K.count s' = K.count s + d

/-! ## The stages of a call -/

/-- Where a call stands. -/
inductive Stage (Node : Type) where
  /-- It links nothing, or has counted what it linked. -/
  | idle
  /-- It is to link the node. -/
  | ready (n : Node)
  /-- It has linked its node and is to count it. -/
  | due
  /-- It has removed a node and is to count it down. -/
  | took

/-- Thread `t` is at that stage. -/
def Stage.Holds (t : Nat) (a : Books S Node) : Stage Node → Prop
  | .idle => True
  | .ready n => a.state.2.brings t = some n ∨ a.state.2.due t ≠ none
  | .due => a.state.2.due t ≠ none
  | .took => a.state.2.took t ≠ none

variable {K} {t : Nat} {α β γ σ : Type} {x : Stage Node} {y : α → Stage Node}

theorem stable_holds : K.counting.Stable t fun a => x.Holds t a := by
  intro u hu a a' _ _ hg h
  cases x with
  | idle => trivial
  | ready n =>
    refine h.imp (fun h => (hg.brings t hu.symm).trans h) fun h => ?_
    rw [hg.due t hu.symm]
    exact h
  | due =>
    show a'.state.2.due t ≠ none
    rw [hg.due t hu.symm]
    exact h
  | took =>
    show a'.state.2.took t ≠ none
    rw [hg.took t hu.symm]
    exact h

variable (K) in
/-- From the stage `x` the program comes to the stage `y r`, where `r` is its result. -/
def Goes (t : Nat) (x : Stage Node) (p : Prog E α) (y : α → Stage Node) : Prop :=
  ∀ a, Inv K a → x.Holds t a → K.counting.WP t p (fun r a => (y r).Holds t a) a

theorem Goes.ret {r : α} (h : y r = x) : K.Goes t x (.ret r) y :=
  fun _ hi hx => Discipline.WP.ret stable_holds hi (h ▸ hx)

theorem Goes.bind {p : Prog E α} {f : α → Prog E γ} {z : γ → Stage Node} (hp : K.Goes t x p y)
    (hf : ∀ r, K.Goes t (y r) (f r) z) : K.Goes t x (p.bind f) z :=
  fun a hi hx => Discipline.WP.bind ((hp a hi hx).mono fun r a hi hy => hf r a hi hy)

/-- A call may end at any stage. -/
theorem Goes.stop {r : α} (h : y r = .idle) : K.Goes t x (.ret r) y :=
  fun _ hi _ => Discipline.WP.ret stable_holds hi (h ▸ trivial)

theorem Goes.loop {body : σ → Prog E (σ ⊕ α)} {st : σ}
    (hbody : ∀ st, K.Goes t x (body st) (Sum.elim (fun _ => x) y)) :
    K.Goes t x (Prog.iterate body st) y := by
  intro a hi hx
  refine Discipline.WP.loop (I := fun _ a => x.Holds t a) (fun _ => stable_holds) hi hx
    fun st a hi hx => ?_
  refine (hbody st a hi hx).mono fun r a hi hy => ?_
  cases r with
  | inl st => exact hy
  | inr r => exact Discipline.WP.ret stable_holds hi hy

/-! ### Steps -/

/-- The record after an access that adds nothing to the counter. -/
structure Kept (t : Nat) (p q : Option Node) (w w' : Tally Node) : Prop where
  brings : ∀ v, v ≠ t → w'.brings v = w.brings v
  due : ∀ v, v ≠ t → w'.due v = w.due v
  took : ∀ v, v ≠ t → w'.took v = w.took v
  counted : w'.counted = w.counted
  /-- The node has been linked in this step, or nothing has. -/
  linked : (w.brings t = p ∧ p ≠ none ∧ w'.due t = p ∧ w'.links = w.links + 1) ∨
    ((p = none ∨ w.brings t ≠ p) ∧ w'.brings t = w.brings t ∧ w'.due t = w.due t ∧
      w'.links = w.links)
  removed : w'.took t = q.or (w.took t)

theorem kept (w : Tally Node) (p q : Option Node) : Kept t p q w ((w.wrote t p).removed t q) := by
  have hremoved : ∀ w' : Tally Node, (w'.removed t q).brings = w'.brings ∧
      (w'.removed t q).due = w'.due ∧ (w'.removed t q).counted = w'.counted ∧
      (w'.removed t q).links = w'.links ∧ (∀ v, v ≠ t → (w'.removed t q).took v = w'.took v) ∧
      (w'.removed t q).took t = q.or (w'.took t) := by
    intro w'
    cases q with
    | none => exact ⟨rfl, rfl, rfl, rfl, fun _ _ => rfl, rfl⟩
    | some m =>
      exact ⟨rfl, rfl, rfl, rfl, fun v hv => Function.update_of_ne hv _ _,
        Function.update_self _ _ _⟩
  obtain ⟨h1, h2, h3, h4, h5, h6⟩ := hremoved (w.wrote t p)
  by_cases hp : p ≠ none ∧ w.brings t = p
  · have hw : w.wrote t p = { w with
        brings := update w.brings t none, due := update w.due t p, links := w.links + 1 } :=
      if_pos hp
    rw [hw] at h1 h2 h3 h4 h5 h6 ⊢
    refine ⟨fun v hv => ?_, fun v hv => ?_, h5, h3, .inl ⟨hp.2, hp.1, ?_, h4⟩, h6⟩
    · rw [h1]
      exact Function.update_of_ne hv _ _
    · rw [h2]
      exact Function.update_of_ne hv _ _
    · rw [h2]
      exact Function.update_self _ _ _
  · have hw : w.wrote t p = w := if_neg hp
    rw [hw] at h1 h2 h3 h4 h5 h6 ⊢
    refine ⟨fun v _ => by rw [h1], fun v _ => by rw [h2], h5, h3, .inr ⟨?_, by rw [h1], by rw [h2],
      h4⟩, h6⟩
    by_cases hnone : p = none
    · exact .inl hnone
    · exact .inr fun he => hp ⟨hnone, he⟩

omit [DecidableEq Node] in
theorem Kept.guar {p q : Option Node} {a : Books S Node} {s' : S} {w' : Tally Node}
    {due : Finset Nat} (h : Kept t p q a.state.2 w') : Guar t a ⟨(s', w'), due⟩ :=
  ⟨h.brings, h.due, h.took⟩

omit [DecidableEq Node] in
/-- An access that adds nothing to the counter keeps the books. -/
theorem Kept.inv {p q : Option Node} {a : Books S Node} {s' : S} {w' : Tally Node}
    (h : Kept t p q a.state.2 w') (hi : Inv K a) (hcount : K.count s' = K.count a.state.1) :
    ∃ due, Inv K ⟨(s', w'), due⟩ := by
  obtain ⟨hc, hdue, hlinks⟩ := hi
  rcases h.linked with ⟨-, -, -, hl⟩ | ⟨-, -, hd, hl⟩
  · refine ⟨insert t a.due, ?_, fun v hv => ?_, ?_⟩
    · simp only
      rw [hcount, hc, h.counted]
    · by_cases hvt : v = t
      · rw [hvt]
        exact Finset.mem_insert_self _ _
      · refine Finset.mem_insert_of_mem (hdue v ?_)
        rw [← h.due v hvt]
        exact hv
    · have hcard := Finset.card_insert_le t a.due
      simp only
      rw [h.counted, hl]
      omega
  · refine ⟨a.due, ?_, fun v hv => hdue v ?_, ?_⟩
    · simp only
      rw [hcount, hc, h.counted]
    · by_cases hvt : v = t
      · rw [hvt] at hv ⊢
        rw [← hd]
        exact hv
      · rw [← h.due v hvt]
        exact hv
    · simp only
      rw [h.counted, hl]
      exact hlinks

omit [DecidableEq Node] in
/-- The thread stays where it was. -/
theorem Kept.holds {p q : Option Node} {a : Books S Node} {s' : S} {w' : Tally Node}
    {due : Finset Nat} (h : Kept t p q a.state.2 w') (hx : x.Holds t a) :
    x.Holds t ⟨(s', w'), due⟩ := by
  have hdue : a.state.2.due t ≠ none → w'.due t ≠ none := by
    intro hd
    rcases h.linked with ⟨-, hne, heq, -⟩ | ⟨-, -, heq, -⟩
    · rw [heq]
      exact hne
    · rw [heq]
      exact hd
  cases x with
  | idle => trivial
  | ready n =>
    rcases hx with hx | hx
    · rcases h.linked with ⟨-, hne, heq, -⟩ | ⟨-, heq, -, -⟩
      · exact .inr (show w'.due t ≠ none from heq ▸ hne)
      · exact .inl (heq.trans hx)
    · exact .inr (hdue hx)
  | due => exact hdue hx
  | took =>
    show w'.took t ≠ none
    rw [h.removed]
    cases q with
    | none => exact hx
    | some m => simp

section Rules

variable (hK : K.Lawful)

include hK

/-- What an access that adds nothing to the counter does to the record. -/
theorem kept_of_action {e : E β} (he : K.adds e = some 0) {a : Books S Node} {b : Bool} {r : β}
    {s' : S × Tally Node} (hact : K.system.action t b e a.state = some (r, s')) :
    K.apply t b e a.state.1 = some (r, s'.1) ∧ K.count s'.1 = K.count a.state.1 ∧
      Kept t (K.writes b e a.state.1) (K.removes e) a.state.2 s'.2 := by
  obtain ⟨⟨r', h'⟩, happly, heq⟩ := Option.map_eq_some_iff.mp hact
  cases heq
  refine ⟨happly, (hK t b e _ _ _ _ happly he).trans (Int.add_zero _), ?_⟩
  have hrecord : K.record t b e a.state.1 a.state.2 =
      (a.state.2.wrote t (K.writes b e a.state.1)).removed t (K.removes e) := by
    unfold record
    rw [he]
    rfl
  rw [hrecord]
  exact kept a.state.2 _ _

/-- Programs that leave the counter alone. -/
theorem goes_silent {p : Prog E α} (hp : p.Uses fun e => K.adds e = some 0) :
    K.Goes t x p fun _ => x := by
  refine Discipline.Keeps.of_uses stable_holds (fun he a b r s' hi hx _ hact => ?_) hp
  obtain ⟨-, hcount, hkept⟩ := kept_of_action hK he hact
  obtain ⟨due, hi'⟩ := hkept.inv hi hcount
  exact ⟨⟨s', due⟩, rfl, hi', hkept.guar, hkept.holds hx⟩

/-- The step that links the node, where its answer is in `good`. -/
theorem goes_link {e : E β} {k : β → Prog E α} {n : Node} (good : β → Prop) (he : K.adds e = some 0)
    (hw : ∀ b s r s', K.apply t b e s = some (r, s') → good r → K.writes b e s = some n)
    (hyes : ∀ r, good r → K.Goes t .due (k r) y) (hno : ∀ r, ¬ good r → K.Goes t (.ready n) (k r) y) :
    K.Goes t (.ready n) (.act e k) y := by
  intro a hi hx
  refine Discipline.WP.act stable_holds hi hx fun a b r s' hi hx _ hact => ?_
  obtain ⟨happly, hcount, hkept⟩ := kept_of_action hK he hact
  obtain ⟨due, hi'⟩ := hkept.inv hi hcount
  refine ⟨⟨s', due⟩, rfl, hi', hkept.guar, ?_⟩
  by_cases hr : good r
  · refine hyes r hr _ hi' ?_
    rcases @Kept.holds _ _ _ _ _ _ _ s'.1 s'.2 due hkept hx with hx' | hx'
    · -- the call had linked its node before, else it has now
      rcases hkept.linked with ⟨-, hne, heq, -⟩ | ⟨hnot, hsame, -, -⟩
      · exact fun hnone => hne (heq.symm.trans hnone)
      · rw [hw b _ r _ happly hr] at hnot
        exact absurd (hsame.symm.trans hx') (hnot.resolve_left (by simp))
    · exact hx'
  · exact hno r hr _ hi' (hkept.holds hx)

/-- The step that removes a node. -/
theorem goes_take {e : E β} {k : β → Prog E α} {n : Node} (he : K.adds e = some 0)
    (hn : K.removes e = some n) (hk : ∀ r, K.Goes t .took (k r) y) : K.Goes t x (.act e k) y := by
  intro a hi hx
  refine Discipline.WP.act stable_holds hi hx fun a b r s' hi hx _ hact => ?_
  obtain ⟨-, hcount, hkept⟩ := kept_of_action hK he hact
  obtain ⟨due, hi'⟩ := hkept.inv hi hcount
  refine ⟨⟨s', due⟩, rfl, hi', hkept.guar, hk r _ hi' ?_⟩
  show s'.2.took t ≠ none
  rw [hkept.removed, hn]
  simp

/-- The increment. -/
theorem goes_add {e : E β} {k : β → Prog E α} (he : K.adds e = some 1)
    (hw : ∀ b s, K.writes b e s = none) (hr : K.removes e = none)
    (hk : ∀ r, K.Goes t .idle (k r) y) : K.Goes t .due (.act e k) y := by
  intro a hi hx
  refine Discipline.WP.act stable_holds hi hx fun a b r s' hi hx _ hact => ?_
  obtain ⟨⟨r', h'⟩, happly, heq⟩ := Option.map_eq_some_iff.mp hact
  cases heq
  have hcount : K.count h' = K.count a.state.1 + 1 := hK t b e _ _ _ _ happly he
  obtain ⟨n, hn⟩ := Option.ne_none_iff_exists'.mp (show a.state.2.due t ≠ none from hx)
  have hrecord : K.record t b e a.state.1 a.state.2 = { a.state.2 with
      counted := n :: a.state.2.counted, due := update a.state.2.due t none } := by
    have hsame : a.state.2.wrote t none = a.state.2 := if_neg fun h => h.1 rfl
    rw [record, hw, hr, he, hsame]
    show (a.state.2.adds t (some 1)) = _
    rw [Tally.adds, if_pos rfl, hn]
    rfl
  obtain ⟨hc, hdue, hlinks⟩ := hi
  have hmem := hdue t hx
  have hcard := Finset.card_erase_of_mem hmem
  have hposCard := Finset.card_pos.mpr ⟨t, hmem⟩
  have hi' : Inv K ⟨(h', { a.state.2 with
      counted := n :: a.state.2.counted, due := update a.state.2.due t none }), a.due.erase t⟩ := by
    refine ⟨?_, fun v hv => ?_, ?_⟩
    · simp only [List.length_cons]
      omega
    · by_cases hvt : v = t
      · rw [hvt] at hv
        exact absurd (Function.update_self _ _ _) hv
      · exact Finset.mem_erase.mpr ⟨hvt, hdue v (by simpa only [Function.update_of_ne hvt] using hv)⟩
    · simp only [List.length_cons]
      omega
  refine ⟨⟨_, _⟩, congrArg (Prod.mk h') hrecord.symm, hi',
    ⟨fun _ _ => rfl, fun v hv => Function.update_of_ne hv _ _, fun _ _ => rfl⟩, hk r' _ hi' trivial⟩

/-- The decrement, after the call has removed a node. -/
theorem goes_sub {e : E β} {k : β → Prog E α} (he : K.adds e = some (-1))
    (hw : ∀ b s, K.writes b e s = none) (hr : K.removes e = none)
    (hk : ∀ r, K.Goes t .idle (k r) y) : K.Goes t .took (.act e k) y := by
  intro a hi hx
  refine Discipline.WP.act stable_holds hi hx fun a b r s' hi hx hok hact => ?_
  obtain ⟨⟨r', h'⟩, happly, heq⟩ := Option.map_eq_some_iff.mp hact
  cases heq
  have hcount : K.count h' = K.count a.state.1 + -1 := hK t b e _ _ _ _ happly he
  obtain ⟨n, hn⟩ := Option.ne_none_iff_exists'.mp (show a.state.2.took t ≠ none from hx)
  have hmem : n ∈ a.state.2.counted := hok he n hn
  have hrecord : K.record t b e a.state.1 a.state.2 = { a.state.2 with
      counted := a.state.2.counted.erase n, took := update a.state.2.took t none } := by
    have hsame : a.state.2.wrote t none = a.state.2 := if_neg fun h => h.1 rfl
    rw [record, hw, hr, he, hsame]
    show (a.state.2.adds t (some (-1))) = _
    rw [Tally.adds, if_neg (by decide), if_pos rfl, hn]
    rfl
  obtain ⟨hc, hdue, hlinks⟩ := hi
  have hlength := List.length_erase_of_mem hmem
  have hposLength := List.length_pos_of_mem hmem
  have hi' : Inv K ⟨(h', { a.state.2 with
      counted := a.state.2.counted.erase n, took := update a.state.2.took t none }), a.due⟩ := by
    refine ⟨?_, hdue, ?_⟩
    · simp only
      omega
    · simp only
      omega
  refine ⟨⟨_, _⟩, congrArg (Prod.mk h') hrecord.symm, hi',
    ⟨fun _ _ => rfl, fun _ _ => rfl, fun v hv => Function.update_of_ne hv _ _⟩, hk r' _ hi' trivial⟩

end Rules

/-! ## Runs -/

/-- The stage of a call that begins. -/
def stageOf : Option Node → Stage Node
  | none => .idle
  | some n => .ready n

theorem counting_covers
    (hcode : ∀ t c s s', K.invoke c s = some s' → K.count s' = K.count s ∧
      K.Goes t (stageOf (K.brings c)) (K.code c) fun _ => .idle) :
    K.counting.Covers fun _ _ _ _ => True where
  respond _ _ _ a hi _ := ⟨a, rfl, hi, fun _ _ => rfl, fun _ _ => rfl, fun _ _ => rfl⟩
  invoke t c a s' hi h := by
    obtain ⟨h', hinv, rfl⟩ := Option.map_eq_some_iff.mp h
    obtain ⟨hcount, hgoes⟩ := hcode t c _ _ hinv
    obtain ⟨hc, hdue, hlinks⟩ := hi
    let a' : Books S Node := ⟨(h', a.state.2.call t (K.brings c)), a.due⟩
    refine ⟨a', rfl, ⟨fun v hv => ?_, fun v hv => ?_, fun v hv => ?_⟩, ?_⟩
    · exact Function.update_of_ne hv _ _
    · exact Function.update_of_ne hv _ _
    · exact Function.update_of_ne hv _ _
    · refine (hgoes a' ⟨hcount.trans hc, fun v hv => ?_, hlinks⟩ ?_).mono fun _ _ _ _ => trivial
      · by_cases hvt : v = t
        · rw [hvt] at hv
          exact absurd (Function.update_self _ _ _) hv
        · have hsame : a'.state.2.due v = a.state.2.due v := Function.update_of_ne hvt _ _
          exact hdue v (hsame ▸ hv)
      · have hself : a'.state.2.brings t = K.brings c := Function.update_self _ _ _
        cases hb : K.brings c with
        | none => trivial
        | some n => exact .inl (hself.trans hb)

/-- In every run in which each node that is counted down has been counted, the counter is the number
of the nodes that have been counted and not counted down. So it does not wrap and is at most the
number of calls that have linked their node. -/
theorem value_le_links (hK : K.counting.Covers fun _ _ _ _ => True) {s : S} (hs : K.count s = 0)
    {c : Config E (S × Tally Node) Call Ret} (hc : K.system.Reach K.CountedFirst (s, .init) c) :
    K.count c.shared.1 = c.shared.2.counted.length ∧ 0 ≤ K.count c.shared.1 ∧
      K.value c.shared.1 ≤ c.shared.2.links := by
  have h₀ : Inv K ⟨(s, .init), ∅⟩ :=
    ⟨by simp [hs, Tally.init], fun t ht => absurd rfl ht, by simp [Tally.init]⟩
  obtain ⟨a, ha, hi⟩ := Discipline.reach_inv hK h₀ hc
  obtain ⟨hcount, -, hlinks⟩ := hi
  have ha : a.state = c.shared := ha
  rw [ha] at hcount hlinks
  refine ⟨hcount, by omega, ?_⟩
  unfold value
  omega

end Counted

end MpmcMap.Conc
