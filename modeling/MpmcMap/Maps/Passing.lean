import MpmcMap.Conc.Total

/-!
# Maps with mapped values

What the calls that take a mapped value do with their argument object, and what they promise of the
value of a key.
-/

namespace MpmcMap.Maps

/-- How an argument object is passed. -/
inductive Passing (V : Type) where
  | lvalue
  /-- `moved x` is what is left of an object of value `x` that was moved from. -/
  | rvalue (moved : V → V)

/-- What an argument object of value `v` holds after it was forwarded. -/
def Passing.left {V : Type} : Passing V → V → V
  | .lvalue, v => v
  | .rvalue moved, v => moved v

/-- A map from keys to values, as its user sees it. A call is given a number of steps; it answers
whether an element was inserted and what the argument object holds at the end, or `none` after an
exception. -/
structure MapModel (K V : Type) where
  State : Type
  /-- The states of all sequential runs. -/
  Reached : State → Prop
  /-- No call is going to throw. -/
  Calm : State → Prop
  /-- The mapped value of a key. -/
  Value : State → K → Option V → Prop
  tryEmplace : K → V → Passing V → State → Nat → Option (Option (Bool × V) × State)
  insertOrAssign : K → V → Passing V → State → Nat → Option (Option (Bool × V) × State)

namespace MapModel

variable {K V : Type} (M : MapModel K V)

/-- After `insert_or_assign(k, v)` the mapped value of `k` is `v`. -/
def Assigns (k : K) (v : V) (r : Option (Bool × V) × M.State) : Prop :=
  r.1.isSome = true → M.Value r.2 k (some v)

/-- `try_emplace(k, v)` changes neither the mapped value `x` of `k` nor the argument object. -/
def Leaves (k : K) (v x : V) (r : Option (Bool × V) × M.State) : Prop :=
  ∀ b v', r.1 = some (b, v') → M.Value r.2 k (some x) ∧ v' = v

/-- The law of both calls for the key `k` and the argument value `v`. -/
def ValueLaw (k : K) (v : V) (p : Passing V) (s : M.State) : Prop :=
  (∀ fuel r, M.insertOrAssign k v p s fuel = some r → M.Assigns k v r) ∧
    ∀ x, M.Value s k (some x) →
      ∀ fuel r, M.tryEmplace k v p s fuel = some r → M.Leaves k v x r

/-- A call returns, and not by an exception. -/
def Completes {S : Type} (call : Nat → Option (Option (Bool × V) × S)) : Prop :=
  Conc.Returns call fun r => r.1.isSome = true

/-- What the calls of a map do. -/
structure Forwards : Prop where
  unique : ∀ {s k x y}, M.Value s k x → M.Value s k y → x = y
  tryEmplace : ∀ {s k x} v p, M.Reached s → M.Value s k x →
    Conc.Returns (M.tryEmplace k v p s) fun r => (M.Calm s → r.1.isSome = true) ∧
      ∀ b v', r.1 = some (b, v') → v' = p.left v ∧ M.Value r.2 k (some (x.getD v))
  insertOrAssign : ∀ {s k x} v p, M.Reached s → M.Value s k x →
    Conc.Returns (M.insertOrAssign k v p s) fun r => (M.Calm s → r.1.isSome = true) ∧
      (r.1.isSome = true → M.Value r.2 k (some (if x.isSome then p.left v else v)))

variable {M} {s : M.State} {k : K} {v : V} {p : Passing V} {x : Option V}

theorem Forwards.completes (hM : M.Forwards) (hs : M.Reached s) (hx : M.Value s k x)
    (hcalm : M.Calm s) :
    Completes (M.insertOrAssign k v p s) ∧ Completes (M.tryEmplace k v p s) :=
  ⟨(hM.insertOrAssign v p hs hx).mono fun _ h => h.1 hcalm,
    (hM.tryEmplace v p hs hx).mono fun _ h => h.1 hcalm⟩

/-- The argument of an element that was there must survive a move. -/
theorem Forwards.valueLaw_cases (hM : M.Forwards) (hs : M.Reached s) (hx : M.Value s k x)
    (hdone : Completes (M.insertOrAssign k v p s)) :
    M.ValueLaw k v p s ↔ x = none ∨ p.left v = v := by
  constructor
  · rintro ⟨hassign, -⟩
    obtain ⟨r, hr, ⟨F, hF⟩, -⟩ := hdone
    have hrun := hF F (Nat.le_refl F)
    have hvalue := ((hM.insertOrAssign v p hs hx).of_eq hrun).2 hr
    have heq := hM.unique hvalue (hassign F r hrun hr)
    cases x with
    | none => exact .inl rfl
    | some x => exact .inr (Option.some.inj heq)
  · intro hcond
    refine ⟨fun fuel r hrun hr => ?_, fun y hy fuel r hrun b v' hr => ?_⟩
    · have hvalue := ((hM.insertOrAssign v p hs hx).of_eq hrun).2 hr
      rcases hcond with rfl | hleft
      · exact hvalue
      · rw [hleft, ite_self] at hvalue
        exact hvalue
    · obtain ⟨rfl, hvalue⟩ := ((hM.tryEmplace v p hs hx).of_eq hrun).2 b v' hr
      obtain rfl := hM.unique hx hy
      rcases hcond with h | hleft
      · cases h
      · exact ⟨hvalue, hleft⟩

end MapModel

end MpmcMap.Maps
