import KevOS.Lib.Program

namespace KevOS.Lib.Stepwise

open Program

variable {σ α β : Type}

/-- A program taken apart into statements. Each of them runs as a whole, and something else
may happen before the next. -/
inductive Steps (σ α : Type) : Type 1
  | ret (a : α)
  | stmt {β : Type} (x : Prog σ β) (k : β → Steps σ α)

def Steps.bind : Steps σ α → (α → Steps σ β) → Steps σ β
  | .ret a, f => f a
  | .stmt x k, f => .stmt x fun b ↦ (k b).bind f

instance : Monad (Steps σ) where
  pure := .ret
  bind := Steps.bind

def atom (x : Prog σ α) : Steps σ α := .stmt x .ret

/-- All statements, one directly after the other. -/
def Steps.run : Steps σ α → Prog σ α
  | .ret a => pure a
  | .stmt x k => x >>= fun b ↦ (k b).run

@[simp] theorem run_pure (a : α) : (pure a : Steps σ α).run = pure a := rfl

@[simp] theorem run_bind (x : Steps σ α) (f : α → Steps σ β) :
    (x >>= f).run = x.run >>= fun a ↦ (f a).run := by
  induction x with
  | ret a => exact (pure_bind (m := Prog σ) a fun a ↦ (f a).run).symm
  | stmt x k ih =>
    have hstep : (Steps.stmt x k >>= f).run = x >>= fun b ↦ (k b >>= f).run := rfl
    simp only [hstep, ih, Steps.run, bind_assoc]

@[simp] theorem run_atom (x : Prog σ α) : (atom x).run = x := bind_pure x

theorem run_stmt_ok {x : Prog σ β} {k : β → Steps σ α} {s s' : σ} {b : β} (h : x.run s = .ok b s') :
    EStateM.run (Steps.stmt x k).run s = EStateM.run (k b).run s' := run_bind_ok h

@[simp] theorem run_ite {c : Prop} [Decidable c] (x y : Steps σ α) :
    (if c then x else y).run = if c then x.run else y.run := by split <;> rfl

end KevOS.Lib.Stepwise
