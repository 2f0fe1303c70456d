import MpmcMap.Conc.Choices
import Mathlib.Data.Finset.Card

/-!
# Objects in blocks

The constructions and destructions of objects, each in a block. At each block they alternate if no
object is constructed over a living one and none is destroyed that does not live.
-/

namespace MpmcMap.Conc

variable {Addr : Type} [DecidableEq Addr]

/-- Whether an object lives in the block `a`, after one more event. -/
def Event.next (a : Addr) (lives : Bool) : Event Addr → Option Bool
  | .construct b => if b = a then (if lives then none else some true) else some lives
  | .destroy b => if b = a then (if lives then some false else none) else some lives

/-- Whether an object lives in the block `a` after the events, none of which comes at a wrong
time. -/
def lifeAt (a : Addr) (lives : Bool) : List (Event Addr) → Option Bool
  | [] => some lives
  | e :: es => (e.next a lives).bind fun lives => lifeAt a lives es

/-- Constructions and destructions alternate in every block. -/
def Alternate (log : List (Event Addr)) : Prop := ∀ a, (lifeAt a false log).isSome = true

def Event.isConstruct : Event Addr → Bool
  | .construct _ => true
  | .destroy _ => false

/-- As many objects have been constructed as destroyed. -/
def Balanced (log : List (Event Addr)) : Prop :=
  log.countP Event.isConstruct = log.countP fun e => !e.isConstruct

/-- The events alternate, and objects live in the blocks of `L` at the end. -/
structure Living (log : List (Event Addr)) (L : Finset Addr) : Prop where
  life : ∀ a, lifeAt a false log = some (decide (a ∈ L))
  count : log.countP Event.isConstruct = (log.countP fun e => !e.isConstruct) + L.card

section

variable {log log' : List (Event Addr)} {L : Finset Addr} {a : Addr} {l : List Addr}

theorem lifeAt_append (a : Addr) (lives : Bool) (log log' : List (Event Addr)) :
    lifeAt a lives (log ++ log') = (lifeAt a lives log).bind fun lives => lifeAt a lives log' := by
  induction log generalizing lives with
  | nil => rfl
  | cons e es ih =>
    show (e.next a lives).bind _ = ((e.next a lives).bind _).bind _
    rw [Option.bind_assoc]
    congr 1
    funext lives
    exact ih lives

theorem Alternate.left (h : Alternate (log ++ log')) : Alternate log := by
  intro a
  have ha := h a
  rw [lifeAt_append] at ha
  cases hl : lifeAt a false log with
  | none =>
    rw [hl] at ha
    cases ha
  | some lives => rfl

theorem living_nil : Living ([] : List (Event Addr)) ∅ := ⟨fun _ => rfl, rfl⟩

theorem Living.alternate (h : Living log L) : Alternate log := by
  intro a
  rw [h.life]
  rfl

/-- What is constructed is destroyed, exactly if nothing lives at the end. -/
theorem Living.balanced (h : Living log L) : Balanced log ↔ L = ∅ := by
  unfold Balanced
  rw [h.count, ← Finset.card_eq_zero]
  omega

theorem Living.lifeAt_snoc (h : Living log L) (a : Addr) (e : Event Addr) :
    lifeAt a false (log ++ [e]) = e.next a (decide (a ∈ L)) := by
  rw [lifeAt_append, h.life]
  show (e.next a (decide (a ∈ L))).bind some = _
  cases e.next a (decide (a ∈ L)) <;> rfl

theorem Living.construct (h : Living log L) (ha : a ∉ L) :
    Living (log ++ [.construct a]) (insert a L) where
  life b := by
    rw [h.lifeAt_snoc]
    unfold Event.next
    by_cases hb : a = b
    · subst hb
      simp [ha]
    · simp [hb, Ne.symm hb]
  count := by
    rw [List.countP_append, List.countP_append, h.count, Finset.card_insert_of_notMem ha]
    show _ + 1 = _ + 0 + _
    omega

theorem Living.destroy (h : Living log L) (ha : a ∈ L) :
    Living (log ++ [.destroy a]) (L.erase a) where
  life b := by
    rw [h.lifeAt_snoc]
    unfold Event.next
    by_cases hb : a = b
    · subst hb
      simp [ha]
    · simp [hb, Ne.symm hb]
  count := by
    have hcard := Finset.card_erase_add_one ha
    rw [List.countP_append, List.countP_append, h.count]
    show _ + 0 = _ + 1 + _
    omega

/-- A second object in a block that has one. -/
theorem not_alternate_twice (log log' : List (Event Addr)) (a : Addr) :
    ¬ Alternate (log ++ [.construct a] ++ [.construct a] ++ log') := by
  intro h
  have ha := h.left a
  rw [List.append_assoc, lifeAt_append] at ha
  cases hl : lifeAt a false log with
  | none =>
    rw [hl] at ha
    cases ha
  | some lives =>
    rw [hl] at ha
    cases lives <;> simp [lifeAt, Event.next] at ha

theorem Living.constructs (h : Living log L) (hl : l.Nodup) (hnew : ∀ a ∈ l, a ∉ L) :
    Living (log ++ l.map .construct) (l.toFinset ∪ L) := by
  induction l generalizing log L with
  | nil => simpa using h
  | cons a l ih =>
    obtain ⟨ha, hl⟩ := List.nodup_cons.mp hl
    have hstep := ih (h.construct (hnew a (by simp))) hl (by
      intro b hb hmem
      rcases Finset.mem_insert.mp hmem with rfl | hmem
      · exact ha hb
      · exact hnew b (List.mem_cons_of_mem _ hb) hmem)
    rw [List.append_assoc] at hstep
    have hset : l.toFinset ∪ insert a L = (a :: l).toFinset ∪ L := by
      rw [List.toFinset_cons, Finset.union_insert, Finset.insert_union]
    rw [← hset]
    exact hstep

theorem Living.destroys (h : Living log L) (hl : l.Nodup) (hold : ∀ a ∈ l, a ∈ L) :
    Living (log ++ l.map .destroy) (L \ l.toFinset) := by
  induction l generalizing log L with
  | nil => simpa using h
  | cons a l ih =>
    obtain ⟨ha, hl⟩ := List.nodup_cons.mp hl
    have hstep := ih (h.destroy (hold a (by simp))) hl (by
      intro b hb
      exact Finset.mem_erase.mpr ⟨ne_of_mem_of_not_mem hb ha, hold b (List.mem_cons_of_mem _ hb)⟩)
    rw [List.append_assoc] at hstep
    have hset : L.erase a \ l.toFinset = L \ (a :: l).toFinset := by
      rw [List.toFinset_cons, Finset.sdiff_insert, Finset.erase_sdiff_comm]
    rw [← hset]
    exact hstep

end

end MpmcMap.Conc
