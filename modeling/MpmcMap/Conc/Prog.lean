/-!
# Programs over atomic actions

`Prog E α` is a program that returns an `α` and whose only effects are the atomic actions of the
signature `E`: `E β` is the type of the actions that answer a `β`. Everything between two actions
is ordinary computation on local values, so an interleaving of programs is an interleaving of
their actions. Loops are a constructor, and a program may run forever.
-/

namespace MpmcMap.Conc

/-- A program over the atomic actions `E`. -/
inductive Prog (E : Type → Type) : Type → Type 1 where
  /-- Stop with a result. -/
  | ret {α : Type} (a : α) : Prog E α
  /-- Perform one atomic action and go on with its answer. -/
  | act {α β : Type} (e : E β) (k : β → Prog E α) : Prog E α
  /-- Run `body` from the locals `s`; `inl` is the next iteration, `inr` leaves the loop. -/
  | loop {α β σ : Type} (body : σ → Prog E (σ ⊕ β)) (s : σ) (k : β → Prog E α) : Prog E α

namespace Prog

variable {E : Type → Type} {α β γ σ : Type}

/-- Sequencing. -/
def bind : {α : Type} → Prog E α → (α → Prog E γ) → Prog E γ
  | _, .ret a, f => f a
  | _, .act e k, f => .act e fun b => (k b).bind f
  | _, .loop body s k, f => .loop body s fun b => (k b).bind f

instance : Monad (Prog E) where
  pure := .ret
  bind := .bind

/-- A single action as a program. -/
def perform (e : E β) : Prog E β := .act e .ret

/-- A loop as a program. -/
def iterate (body : σ → Prog E (σ ⊕ β)) (s : σ) : Prog E β := .loop body s .ret

/-- The program a loop stands for: one iteration, then the loop again or what follows it. -/
def unroll (body : σ → Prog E (σ ⊕ β)) (s : σ) (k : β → Prog E α) : Prog E α :=
  (body s).bind (Sum.elim (fun s' => .loop body s' k) k)

@[simp] theorem pure_eq (a : α) : (pure a : Prog E α) = .ret a := rfl

@[simp] theorem bind_eq (p : Prog E α) (f : α → Prog E β) : (p >>= f) = p.bind f := rfl

@[simp] theorem ret_bind (a : α) (f : α → Prog E β) : (ret a).bind f = f a := rfl

@[simp] theorem act_bind (e : E β) (k : β → Prog E α) (f : α → Prog E γ) :
    (act e k).bind f = act e fun b => (k b).bind f := rfl

@[simp] theorem loop_bind (body : σ → Prog E (σ ⊕ β)) (s : σ) (k : β → Prog E α)
    (f : α → Prog E γ) : (loop body s k).bind f = loop body s fun b => (k b).bind f := rfl

@[simp] theorem perform_bind (e : E β) (f : β → Prog E α) : (perform e).bind f = act e f := rfl

@[simp] theorem iterate_bind (body : σ → Prog E (σ ⊕ β)) (s : σ) (f : β → Prog E α) :
    (iterate body s).bind f = loop body s f := rfl

@[simp] theorem bind_ret (p : Prog E α) : p.bind ret = p := by
  induction p with
  | ret a => rfl
  | act e k ih => simp [ih]
  | loop body s k _ ih => simp [ih]

theorem bind_assoc (p : Prog E α) (f : α → Prog E β) (g : β → Prog E γ) :
    (p.bind f).bind g = p.bind fun a => (f a).bind g := by
  induction p with
  | ret a => rfl
  | act e k ih => simp [ih]
  | loop body s k _ ih => simp [ih]

/-- Unrolling commutes with what follows the loop. -/
theorem unroll_bind (body : σ → Prog E (σ ⊕ β)) (s : σ) (k : β → Prog E α)
    (f : α → Prog E γ) :
    (unroll body s k).bind f = unroll body s fun b => (k b).bind f := by
  rw [unroll, unroll, bind_assoc]
  congr 1
  funext r
  cases r <;> rfl

/-! ## Programs of some actions only -/

/-- Every action of the program is `good`. -/
inductive Uses (good : {β : Type} → E β → Prop) : {α : Type} → Prog E α → Prop
  | ret {α : Type} (a : α) : Uses good (.ret a)
  | act {α β : Type} {e : E β} {k : β → Prog E α} :
      good e → (∀ b, Uses good (k b)) → Uses good (.act e k)
  | loop {α β σ : Type} {body : σ → Prog E (σ ⊕ β)} {s : σ} {k : β → Prog E α} :
      (∀ s, Uses good (body s)) → (∀ b, Uses good (k b)) → Uses good (.loop body s k)

theorem Uses.bind {good : {β : Type} → E β → Prop} {p : Prog E α} {f : α → Prog E γ}
    (hp : p.Uses good) (hf : ∀ a, (f a).Uses good) : (p.bind f).Uses good := by
  induction hp with
  | ret a => exact hf a
  | act he _ ih => exact .act he fun b => ih b hf
  | loop hbody _ _ ih => exact .loop hbody fun b => ih b hf

theorem Uses.mono {good good' : {β : Type} → E β → Prop}
    (hgood : ∀ {β : Type} (e : E β), good e → good' e) {p : Prog E α} (hp : p.Uses good) :
    p.Uses good' := by
  induction hp with
  | ret a => exact .ret a
  | act he _ ih => exact .act (hgood _ he) ih
  | loop _ _ hbody hk => exact .loop hbody hk

/-- What is judged of a program from its parts, whatever its `good` actions answer. Each judgement of
this kind holds of the programs that are made of parts it holds of. -/
structure Closed (good : {β : Type} → E β → Prop) (R : (α : Type) → Prog E α → Prop) : Prop where
  ret : ∀ {α : Type} (a : α), R α (.ret a)
  act : ∀ {α β : Type} {e : E β} {k : β → Prog E α}, good e → (∀ b, R α (k b)) → R α (.act e k)
  bind : ∀ {α γ : Type} {p : Prog E α} {f : α → Prog E γ}, R α p → (∀ a, R γ (f a)) →
    R γ (p.bind f)

theorem Closed.uses {good good' : {β : Type} → E β → Prop}
    (hgood : ∀ {β : Type} (e : E β), good e → good' e) :
    Closed good fun α (p : Prog E α) => p.Uses good' where
  ret := .ret
  act he hk := .act (hgood _ he) hk
  bind hp hf := hp.bind hf

/-! ## Programs over other actions -/

variable {F : Type → Type}

/-- Perform each action by a program over other actions. -/
def expand (f : {β : Type} → E β → Prog F β) : {α : Type} → Prog E α → Prog F α
  | _, .ret a => .ret a
  | _, .act e k => (f e).bind fun b => (k b).expand f
  | _, .loop body s k => .loop (fun s => (body s).expand f) s fun b => (k b).expand f

@[simp] theorem expand_ret (f : {β : Type} → E β → Prog F β) (a : α) :
    (ret a : Prog E α).expand f = ret a := rfl

@[simp] theorem perform_expand (f : {β : Type} → E β → Prog F β) (e : E α) :
    (perform e).expand f = f e := bind_ret (f e)

theorem expand_bind (f : {β : Type} → E β → Prog F β) (p : Prog E α) (g : α → Prog E γ) :
    (p.bind g).expand f = (p.expand f).bind fun a => (g a).expand f := by
  induction p with
  | ret a => rfl
  | act e k ih => simp only [act_bind, expand, ih, bind_assoc]
  | loop body s k _ ih => simp only [loop_bind, expand, ih]

theorem expand_expand {G : Type → Type} (f : {β : Type} → E β → Prog F β)
    (g : {β : Type} → F β → Prog G β) (p : Prog E α) :
    (p.expand f).expand g = p.expand fun e => (f e).expand g := by
  induction p with
  | ret a => rfl
  | act e k ih => simp only [expand, expand_bind, ih]
  | loop body s k hbody ih => simp only [expand, ih, hbody]

/-- Actions performed by themselves. -/
theorem expand_perform (p : Prog E α) : p.expand perform = p := by
  induction p with
  | ret a => rfl
  | act e k ih => simp only [expand, perform_bind, ih]
  | loop body s k hbody ih => simp only [expand, ih, hbody]

end Prog

end MpmcMap.Conc
