import Mathlib.Data.Nat.Notation
import Mathlib.Tactic.TypeStar

namespace KevOS.Lib.Loop

variable {α : Type*} {f : ℕ → α → α} {a : α} {n : ℕ}

/-- `for (i = 0; i < n; i++) a = f(i, a)`. -/
def forRange (f : ℕ → α → α) : ℕ → α → α
  | 0, a => a
  | n + 1, a => f n (forRange f n a)

theorem forRange_add (f : ℕ → α → α) (m n : ℕ) (a : α) :
    forRange f (m + n) a = forRange (fun i ↦ f (m + i)) n (forRange f m a) := by
  induction n with
  | zero => rfl
  | succ n ih =>
    rw [← Nat.add_assoc, forRange, ih]
    rfl

theorem forRange_eq_foldl (f : ℕ → α → α) (n : ℕ) (a : α) :
    forRange f n a = (List.range n).foldl (fun a i ↦ f i a) a := by
  induction n with
  | zero => rfl
  | succ n ih => rw [List.range_succ, List.foldl_append, ← ih, forRange, List.foldl_cons, List.foldl_nil]

/-- A loop over rows and columns is one loop over the cells in row-major order. -/
theorem forRange_forRange (f : ℕ → α → α) (h w : ℕ) (a : α) :
    forRange (fun y ↦ forRange (fun x ↦ f (y * w + x)) w) h a = forRange f (h * w) a := by
  induction h with
  | zero => simp [forRange]
  | succ h ih => rw [Nat.succ_mul, forRange, ih, ← forRange_add]

end KevOS.Lib.Loop
