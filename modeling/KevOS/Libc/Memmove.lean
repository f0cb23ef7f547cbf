import KevOS.Lib.Copying
import KevOS.Lib.Loop
import KevOS.Machine

namespace KevOS.Libc.Memmove

open Lib.ByteMemory Lib.Copying Lib.Loop Machine Function

/-- `for (i = n; i != 0; i--) dst[i - 1] = src[i - 1];` -/
def copyBackwards (dst src : ℕ) : ℕ → Bytes → Bytes
  | 0, m => m
  | i + 1, m => copyBackwards dst src i (update m (w32 (dst + i)) (m (w32 (src + i))))

/-- The pointer that is returned, and the memory afterwards. -/
def memmove (m : Bytes) (dst src size : ℕ) : ℕ × Bytes :=
  if dst < src then
    (dst, forRange (fun i m ↦ update m (w32 (dst + i)) (m (w32 (src + i)))) size m)
  else
    -- from the end, so that the source is not overwritten before it is read
    (dst, copyBackwards dst src size m)

variable {m : Bytes} {dst src size : ℕ}

theorem copyBackwards_eq (n : ℕ) (m : Bytes) : copyBackwards dst src n m =
    copyEach (fun i ↦ w32 (dst + i)) (fun i ↦ w32 (src + i)) m (List.range n).reverse := by
  induction n generalizing m with
  | zero => rfl
  | succ n ih =>
    rw [List.range_succ, List.reverse_append, copyBackwards, ih]
    rfl

theorem memmove_eq : memmove m dst src size = (dst, copyEach (fun i ↦ w32 (dst + i))
    (fun i ↦ w32 (src + i)) m
    (if dst < src then List.range size else (List.range size).reverse)) := by
  unfold memmove
  split_ifs
  · rw [forRange_eq_foldl, copyEach]
  · rw [copyBackwards_eq]

/-- In the order that `memmove` takes, no byte is overwritten before it has been read. -/
theorem unharmed (hdst : dst + size ≤ 4294967296) (hsrc : src + size ≤ 4294967296) :
    Unharmed (fun i ↦ w32 (dst + i)) (fun i ↦ w32 (src + i))
      (if dst < src then List.range size else (List.range size).reverse) := by
  have hd {i : ℕ} (hi : i < size) : w32 (dst + i) = dst + i := w32_of_lt (by omega)
  have hs {i : ℕ} (hi : i < size) : w32 (src + i) = src + i := w32_of_lt (by omega)
  split_ifs with hlt
  · refine List.pairwise_lt_range.imp_of_mem ?_
    intro i j hi hj hij
    rw [List.mem_range] at hi hj
    dsimp only
    rw [hd hi, hs hj, hd hj]
    omega
  · refine List.pairwise_reverse.mpr (List.pairwise_lt_range.imp_of_mem ?_)
    intro j i hj hi hij
    rw [List.mem_range] at hi hj
    dsimp only
    rw [hd hi, hs hj, hd hj]
    omega

/-- Whatever the two ranges have in common, the destination is what the source was. -/
theorem memmove_moves (m : Bytes) (hdst : dst + size ≤ 4294967296) (hsrc : src + size ≤ 4294967296) :
    (memmove m dst src size).1 = dst ∧
      (∀ i < size, (memmove m dst src size).2 (dst + i) = m (src + i)) ∧
      ∀ a, (a < dst ∨ dst + size ≤ a) → (memmove m dst src size).2 a = m a := by
  have hmem (i : ℕ) : i ∈ (if dst < src then List.range size else (List.range size).reverse) ↔
      i < size := by
    split_ifs <;> simp
  rw [memmove_eq]
  refine ⟨rfl, ?_, ?_⟩
  · intro i hi
    have hmoved := @copyEach_apply _ _ _ _ _ _ m _ i (unharmed hdst hsrc) ((hmem i).mpr hi)
    dsimp only at hmoved ⊢
    rwa [w32_of_lt (by omega), w32_of_lt (by omega)] at hmoved
  · intro a ha
    refine copyEach_of_ne fun i hi ↦ ?_
    have hlt := (hmem i).mp hi
    rw [w32_of_lt (by omega)]
    omega

/-- Eight bytes moved up by three, over themselves. -/
theorem memmove_moves_overlap :
    let m : Bytes := fun a ↦ UInt8.ofNat a
    (∀ i < 8, (memmove m 0x1003 0x1000 8).2 (0x1003 + i) = m (0x1000 + i)) ∧
      (memmove m 0x1003 0x1000 8).2 0x1002 = 2 := by
  intro m
  obtain ⟨-, hmoved, hframe⟩ :=
    memmove_moves m (show 0x1003 + 8 ≤ 4294967296 by decide) (show 0x1000 + 8 ≤ 4294967296 by decide)
  exact ⟨hmoved, hframe 0x1002 (.inl (by decide))⟩

end KevOS.Libc.Memmove
