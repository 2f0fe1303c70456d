import Mathlib.Data.List.Infix
import Mathlib.Data.List.TakeDrop

/-!
# Decisions

What goes wrong in a run of a single thread is decided beforehand: for each kind of event a list of
decisions, used up one by one. Past the end of a list nothing goes wrong.
-/

namespace MpmcMap.Conc

/-- What may go wrong. -/
inductive Choice where
  /-- A `compare_exchange_weak` fails spuriously. -/
  | weak
  /-- `pool_.acquire` throws. -/
  | node
  /-- The default construction of a payload in `node()` throws. -/
  | blank
  /-- The construction of a payload from its arguments throws. -/
  | value
  /-- `make_table` throws. -/
  | table
  /-- `reclaimer::retire` throws. -/
  | retire
  deriving DecidableEq

/-- The decisions to come: does it go wrong? -/
abbrev Decisions := Choice → List Bool

namespace Decisions

def head (d : Decisions) (c : Choice) : Bool := (d c).headD false

def next (d : Decisions) (c : Choice) : Decisions := fun c' => if c' = c then (d c').tail else d c'

/-! ## Decisions used up -/

/-- Only decisions on weak compare-exchanges have been used up. -/
def Weaker (d d' : Decisions) : Prop := ∀ c, c ≠ .weak → d' c = d c

/-- Some decisions have been used up. -/
def After (d d' : Decisions) : Prop := ∀ c, d' c <:+ d c

/-- `n` nodes have been allocated. -/
structure Spends (n : Nat) (d d' : Decisions) : Prop where
  node : d' .node = (d .node).drop n
  blank : d' .blank = (d .blank).drop n
  other : ∀ c, c ≠ .weak → c ≠ .node → c ≠ .blank → d' c = d c
  nodes : ∀ b ∈ (d .node).take n, b = false
  blanks : ∀ b ∈ (d .blank).take n, b = false

/-- One of the next `n` allocations of a node throws. -/
def Starved (n : Nat) (d : Decisions) : Prop := true ∈ (d .node).take n ∨ true ∈ (d .blank).take n

instance (n : Nat) (d : Decisions) : Decidable (d.Starved n) :=
  inferInstanceAs (Decidable (_ ∨ _))

variable {d d' d'' : Decisions} {m n : Nat}

theorem next_self (d : Decisions) (c : Choice) : d.next c c = (d c).tail := if_pos rfl

theorem next_ne (d : Decisions) {c c' : Choice} (h : c' ≠ c) : d.next c c' = d c' := if_neg h

theorem after_refl (d : Decisions) : d.After d := fun _ => List.suffix_rfl

theorem After.trans (h : d.After d') (h' : d'.After d'') : d.After d'' :=
  fun c => (h' c).trans (h c)

theorem after_next (d : Decisions) (c : Choice) : d.After (d.next c) := by
  intro c'
  unfold next
  split
  · exact List.tail_suffix _
  · exact List.suffix_rfl

theorem weaker_refl (d : Decisions) : d.Weaker d := fun _ _ => rfl

theorem Weaker.next (h : d.Weaker d') : d.Weaker (d'.next .weak) :=
  fun c hc => (next_ne d' hc).trans (h c hc)

theorem Weaker.spends (h : d.Weaker d') : d.Spends 0 d' where
  node := h .node (by decide)
  blank := h .blank (by decide)
  other := fun c hc _ _ => h c hc
  nodes := by simp
  blanks := by simp

theorem spends_zero (d : Decisions) : d.Spends 0 d := (weaker_refl d).spends

theorem Spends.trans (h : d.Spends m d') (h' : d'.Spends n d'') : d.Spends (m + n) d'' where
  node := by rw [h'.node, h.node, List.drop_drop]
  blank := by rw [h'.blank, h.blank, List.drop_drop]
  other := fun c h1 h2 h3 => (h'.other c h1 h2 h3).trans (h.other c h1 h2 h3)
  nodes := by
    intro b hb
    rw [List.take_add, ← h.node] at hb
    rcases List.mem_append.mp hb with hb | hb
    · exact h.nodes b hb
    · exact h'.nodes b hb
  blanks := by
    intro b hb
    rw [List.take_add, ← h.blank] at hb
    rcases List.mem_append.mp hb with hb | hb
    · exact h.blanks b hb
    · exact h'.blanks b hb

/-- What the allocations that are left need. -/
theorem Spends.starved (h : d.Spends m d') : d.Starved (m + n) ↔ d'.Starved n := by
  have hn : true ∉ (d .node).take m := fun ht => by simpa using h.nodes true ht
  have hb : true ∉ (d .blank).take m := fun ht => by simpa using h.blanks true ht
  unfold Starved
  rw [List.take_add, List.take_add, List.mem_append, List.mem_append, ← h.node, ← h.blank,
    or_iff_right hn, or_iff_right hb]

theorem Spends.not_starved (h : d.Spends m d') : ¬ d.Starved m := by
  intro hs
  rcases hs with hs | hs
  · simpa using h.nodes true hs
  · simpa using h.blanks true hs

theorem Starved.mono (h : d.Starved m) (hmn : m ≤ n) : d.Starved n :=
  h.imp (fun h => (List.take_subset_take_left _ hmn) h) fun h => (List.take_subset_take_left _ hmn) h

theorem starved_one (d : Decisions) :
    d.Starved 1 ↔ d.head .node = true ∨ d.head .blank = true := by
  have h (l : List Bool) : true ∈ l.take 1 ↔ l.headD false = true := by
    cases l with
    | nil => simp
    | cons b l => cases b <;> simp
  rw [Starved, h, h]
  rfl

/-- One allocation that does not throw. -/
theorem spends_one (hn : d.head .node = false) (hb : d.head .blank = false) :
    d.Spends 1 ((d.next .node).next .blank) where
  node := by rw [next_ne _ (by decide), next_self, List.drop_one]
  blank := by rw [next_self, next_ne _ (by decide), List.drop_one]
  other := fun c _ h2 h3 => by rw [next_ne _ h3, next_ne _ h2]
  nodes := by
    unfold head at hn
    cases h : d .node <;> simp_all
  blanks := by
    unfold head at hb
    cases h : d .blank <;> simp_all

/-! ## Nothing throws -/

/-- Weak compare-exchanges may fail, nothing else. -/
def Calm (d : Decisions) : Prop := ∀ c, c ≠ .weak → true ∉ d c

theorem Calm.head {c : Choice} (h : d.Calm) (hc : c ≠ .weak) : d.head c = false := by
  have := h c hc
  unfold Decisions.head
  cases hd : d c with
  | nil => rfl
  | cons b l =>
    rw [hd, List.mem_cons, not_or] at this
    show b = false
    cases b with
    | false => rfl
    | true => exact absurd rfl this.1

theorem Calm.not_starved (h : d.Calm) : ¬ d.Starved n := by
  intro hs
  rcases hs with hs | hs
  · exact h .node (by decide) (List.mem_of_mem_take hs)
  · exact h .blank (by decide) (List.mem_of_mem_take hs)

theorem Calm.after (h : d.Calm) (ha : d.After d') : d'.Calm :=
  fun c hc hmem => h c hc ((ha c).subset hmem)

theorem Calm.next (h : d.Calm) (c : Choice) : (d.next c).Calm := h.after (d.after_next c)

theorem Calm.weaker (h : d.Calm) (hw : d.Weaker d') : d'.Calm := by
  intro c hc
  rw [hw c hc]
  exact h c hc

theorem Calm.spends (h : d.Calm) (hs : d.Spends n d') : d'.Calm := by
  intro c hc hmem
  by_cases hn : c = .node
  · subst hn
    rw [hs.node] at hmem
    exact h .node hc (List.mem_of_mem_drop hmem)
  · by_cases hb : c = .blank
    · subst hb
      rw [hs.blank] at hmem
      exact h .blank hc (List.mem_of_mem_drop hmem)
    · rw [hs.other c hc hn hb] at hmem
      exact h c hc hmem

end Decisions

/-- The life of payload objects. -/
inductive Event (Addr : Type) where
  | construct (a : Addr)
  | destroy (a : Addr)
  deriving DecidableEq, Repr

end MpmcMap.Conc
