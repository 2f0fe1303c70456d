import MpmcMap.Ordered.Values
import MpmcMap.Unordered.Values

/-!
# The value law of `try_emplace` and `insert_or_assign`

Both maps forward the argument of `insert_or_assign` twice where the key is present, and
`try_emplace` moves from its argument even though it inserts nothing.
-/

namespace MpmcMap.Maps

open Unordered (unorderedMap)

variable {K V : Type}

/-- Where nothing throws the calls return, and then the law holds exactly for a new key and for an
argument that survives being forwarded. -/
theorem valueLaw_iff {Addr : Type} [DecidableEq Addr] {C : Unordered.Config K} (hC : C.Lawful)
    {cmp : K → K → Bool} [StrictWeakOrder cmp] {n : Ordered.Ptr} {M : MapModel K V}
    (hM : M = unorderedMap Addr V C ∨ M = Ordered.map V cmp n) {s : M.State} {k : K} {x : Option V}
    (hs : M.Reached s) (hx : M.Value s k x) (v : V) (p : Passing V) :
    (M.Calm s → MapModel.Completes (M.insertOrAssign k v p s) ∧
      MapModel.Completes (M.tryEmplace k v p s)) ∧
    (MapModel.Completes (M.insertOrAssign k v p s) →
      (M.ValueLaw k v p s ↔ x = none ∨ p.left v = v)) := by
  have hforwards : M.Forwards := by
    rcases hM with rfl | rfl
    · exact Unordered.unorderedMap_forwards hC
    · exact Ordered.map_forwards n
  exact ⟨hforwards.completes hs hx, hforwards.valueLaw_cases hs hx⟩

/-! ## A moved-from value -/

section Moved

open Unordered Ordered

/-- Numbers in an unordered map, all with the same hash. -/
abbrev someUnordered : MapModel Nat Nat := unorderedMap Nat Nat colliding

/-- Numbers in a map, where the second node comes from the address 2. -/
abbrev someOrdered : MapModel Nat Nat := Ordered.map Nat natLess (ptr 2)

/-- A run that has inserted `(1, 10)`. -/
theorem someUnordered_element :
    ∃ s, someUnordered.Reached s ∧ someUnordered.Value s 1 (some 10) ∧ someUnordered.Calm s := by
  let s₀ : Loaded Nat (Nat × Nat) := .new (fun _ => (0, 0)) 0 pickAbove (fun _ => []) (floatFactor 1)
  have hs₀ : Unordered.Reached (colliding.onKeys Nat) s₀ := .new pickAbove_fresh
  obtain ⟨N, h⟩ := (hs₀.stored colliding_lawful.onKeys).between
  obtain rfl : N = [0] := h.stores.unique (stores_new _ _ _ _ _)
  obtain ⟨⟨r, w⟩, ⟨hcalm, hdone⟩, ⟨F, hF⟩, -⟩ :=
    Unordered.tryEmplace_returns colliding_lawful h 1 10 .lvalue
  obtain ⟨hsome, hw⟩ := hcalm fun _ _ => List.not_mem_nil
  obtain ⟨⟨b, left⟩, hr⟩ := Option.isSome_iff_exists.mp hsome
  have hvalue := (hdone b left hr).2.value_eq
  have hnone : s₀.world.heap.valueOf colliding [0] 1 = none := by decide
  rw [hnone] at hvalue
  exact ⟨s₀.withWorld w, hs₀.tryEmplace (hF F (Nat.le_refl F)), hvalue, hw⟩

theorem someOrdered_element :
    ∃ h, someOrdered.Reached h ∧ someOrdered.Value h 1 (some 10) := by
  have hq := quiet_new (onKeys natLess Nat) fun _ : Ptr => (0, 0)
  obtain ⟨⟨b, h⟩, ⟨-, -, t, hq'⟩, ⟨F, hF⟩, -⟩ := Conc.Ends.returns sequential_executes
    (emplace_seq (n := ptr 1) (k := (1, 10)) hq (hq.outside (by simp [SortedMap.empty])))
  refine ⟨h, ⟨.emplace (.new _) (hq.outside (by simp [SortedMap.empty])) (hF F (Nat.le_refl F)),
    hq'.outside (by decide)⟩, t, hq'.stores, ?_⟩
  rw [hq'.valueOf 1 10]
  decide

/-- An element that is assigned a moved-from value. -/
theorem valueLaw_moved :
    (∃ s, someUnordered.Reached s ∧ ¬ someUnordered.ValueLaw 1 20 (.rvalue fun _ => 0) s) ∧
      ∃ h, someOrdered.Reached h ∧ ¬ someOrdered.ValueLaw 1 20 (.rvalue fun _ => 0) h := by
  constructor
  · obtain ⟨s, hs, hx, hcalm⟩ := someUnordered_element
    have hM : someUnordered.Forwards := Unordered.unorderedMap_forwards colliding_lawful
    refine ⟨s, hs, fun hlaw => ?_⟩
    rcases (hM.valueLaw_cases hs hx (hM.completes hs hx hcalm).1).mp hlaw with h | h
    · cases h
    · cases h
  · obtain ⟨s, hs, hx⟩ := someOrdered_element
    have hM : someOrdered.Forwards := Ordered.map_forwards (ptr 2)
    refine ⟨s, hs, fun hlaw => ?_⟩
    rcases (hM.valueLaw_cases hs hx (hM.completes hs hx trivial).1).mp hlaw with h | h
    · cases h
    · cases h

/-- Where nothing is lost by moving, the value is assigned. -/
theorem valueLaw_iff_element : ∃ s, someUnordered.Reached s ∧
    (MapModel.Completes (someUnordered.insertOrAssign 1 20 .lvalue s)) ∧
    someUnordered.ValueLaw 1 20 .lvalue s := by
  obtain ⟨s, hs, hx, hcalm⟩ := someUnordered_element
  have hM : someUnordered = unorderedMap Nat Nat colliding ∨ someUnordered = someOrdered := .inl rfl
  have hlaw := valueLaw_iff colliding_lawful hM hs hx 20 .lvalue
  exact ⟨s, hs, (hlaw.1 hcalm).1, (hlaw.2 (hlaw.1 hcalm).1).mpr (.inr rfl)⟩

end Moved

end MpmcMap.Maps
