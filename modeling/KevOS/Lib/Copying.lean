import Mathlib.Data.List.Basic
import Mathlib.Logic.Function.Basic

namespace KevOS.Lib.Copying

open Function

variable {ι κ α : Type*} [DecidableEq ι] {dst src : κ → ι} {m : ι → α} {is : List κ} {i : κ} {a : ι}

/-- The assignments `m (dst i) := m (src i)`, one after the other in the order of the list. -/
def copyEach (dst src : κ → ι) (m : ι → α) (is : List κ) : ι → α :=
  is.foldl (fun m i ↦ update m (dst i) (m (src i))) m

/-- No assignment is to the source or the destination of a later one. -/
def Unharmed (dst src : κ → ι) (is : List κ) : Prop :=
  is.Pairwise fun i j ↦ dst i ≠ src j ∧ dst i ≠ dst j

theorem copyEach_of_ne (h : ∀ i ∈ is, dst i ≠ a) : copyEach dst src m is a = m a := by
  induction is generalizing m with
  | nil => rfl
  | cons j is ih =>
    rw [List.forall_mem_cons] at h
    rw [copyEach, List.foldl_cons, ← copyEach, ih h.2, update_of_ne (Ne.symm h.1)]

theorem copyEach_apply (h : Unharmed dst src is) (hi : i ∈ is) :
    copyEach dst src m is (dst i) = m (src i) := by
  induction is generalizing m with
  | nil => cases hi
  | cons j is ih =>
    obtain ⟨hlater, hrest⟩ := List.pairwise_cons.mp h
    rw [copyEach, List.foldl_cons, ← copyEach]
    rcases List.mem_cons.mp hi with rfl | hi
    · rw [copyEach_of_ne fun k hk ↦ Ne.symm (hlater k hk).2, update_self]
    · rw [ih hrest hi, update_of_ne (Ne.symm (hlater i hi).1)]

end KevOS.Lib.Copying
