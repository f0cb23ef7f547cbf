import KevOS.Pmm.Model
import Mathlib.Data.Finset.Card
import Mathlib.Order.Bounds.Defs

namespace KevOS.Pmm.Bitmap

open Lib.Program Lib.ByteMemory Lib.Bits Machine Finset

/-- The pages the bitmap shows as free. -/
def freePages (m : Bytes) (base blocks : ℕ) : Finset ℕ :=
  (range blocks).filter (fun i ↦ bitAt m base i = false)

/-- The pages the bitmap shows as used. -/
def usedPages (m : Bytes) (base blocks : ℕ) : Finset ℕ :=
  (range blocks).filter (fun i ↦ bitAt m base i = true)

section Sets

variable {m : Bytes} {base blocks i : ℕ}

theorem mem_freePages : i ∈ freePages m base blocks ↔ i < blocks ∧ bitAt m base i = false := by
  rw [freePages, mem_filter, mem_range]

theorem mem_usedPages : i ∈ usedPages m base blocks ↔ i < blocks ∧ bitAt m base i = true := by
  rw [usedPages, mem_filter, mem_range]

variable (m base blocks) in
theorem card_used_add_free : #(usedPages m base blocks) + #(freePages m base blocks) = blocks := by
  have h := card_filter_add_card_filter_not (s := range blocks) (fun i ↦ bitAt m base i = true)
  rw [card_range] at h
  simpa only [usedPages, freePages, Bool.not_eq_true] using h

variable (m base blocks) in
theorem card_usedPages_le : #(usedPages m base blocks) ≤ blocks := by
  have h := card_used_add_free m base blocks
  omega

theorem usedPages_setBit (hi : i < blocks) :
    usedPages (setBit m base i) base blocks = insert i (usedPages m base blocks) := by
  ext j
  rw [mem_insert, mem_usedPages, mem_usedPages, bitAt_setBit, Bool.or_eq_true, decide_eq_true_eq]
  constructor
  · rintro ⟨hj, h | rfl⟩
    · exact .inr ⟨hj, h⟩
    · exact .inl rfl
  · rintro (rfl | ⟨hj, h⟩)
    · exact ⟨hi, .inr rfl⟩
    · exact ⟨hj, .inl h⟩

theorem freePages_setBit :
    freePages (setBit m base i) base blocks = (freePages m base blocks).erase i := by
  ext j
  rw [mem_erase, mem_freePages, mem_freePages, bitAt_setBit, Bool.or_eq_false_iff,
    decide_eq_false_iff_not]
  exact ⟨fun h ↦ ⟨Ne.symm h.2.2, h.1, h.2.1⟩, fun h ↦ ⟨h.2.1, h.2.2, Ne.symm h.1⟩⟩

theorem usedPages_clearBit :
    usedPages (clearBit m base i) base blocks = (usedPages m base blocks).erase i := by
  ext j
  rw [mem_erase, mem_usedPages, mem_usedPages, bitAt_clearBit, Bool.and_eq_true,
    Bool.not_eq_true', decide_eq_false_iff_not]
  exact ⟨fun h ↦ ⟨Ne.symm h.2.2, h.1, h.2.1⟩, fun h ↦ ⟨h.2.1, h.2.2, Ne.symm h.1⟩⟩

theorem freePages_clearBit (hi : i < blocks) :
    freePages (clearBit m base i) base blocks = insert i (freePages m base blocks) := by
  ext j
  rw [mem_insert, mem_freePages, mem_freePages, bitAt_clearBit, Bool.and_eq_false_iff,
    Bool.not_eq_false', decide_eq_true_eq]
  constructor
  · rintro ⟨hj, h | rfl⟩
    · exact .inr ⟨hj, h⟩
    · exact .inl rfl
  · rintro (rfl | ⟨hj, h⟩)
    · exact ⟨hi, .inr rfl⟩
    · exact ⟨hj, .inl h⟩

theorem card_usedPages_setBit (hi : i < blocks) (h : bitAt m base i = false) :
    #(usedPages (setBit m base i) base blocks) = #(usedPages m base blocks) + 1 := by
  rw [usedPages_setBit hi, card_insert_of_notMem]
  simp [mem_usedPages, h]

theorem card_usedPages_clearBit (hi : i < blocks) (h : bitAt m base i = true) :
    #(usedPages (clearBit m base i) base blocks) + 1 = #(usedPages m base blocks) := by
  rw [usedPages_clearBit, card_erase_add_one (mem_usedPages.mpr ⟨hi, h⟩)]

end Sets

/-- The variables agree with the bitmap: the counter counts the bits set in it. -/
def counted (m : Bytes) (base blocks : ℕ) : PmmVars :=
  ⟨base, blocks, #(usedPages m base blocks)⟩

section Operations

variable {σ : Type} [ByteMem σ] (W : Window σ) {A : ℕ → Prop} {m : Bytes} {base blocks : ℕ}
  {i j n : ℕ} {e : PmmVars}

/-- The kernel sees the bitmap at `base` in the bytes `m`, and its counter is right. -/
def Tracks (A : ℕ → Prop) (m : Bytes) (base blocks : ℕ) : Kernel σ PmmVars → Prop :=
  (Kernel.window W (counted m base blocks)).Sees A m

theorem mmapTest_returns (h : A (e.pmmBitmap + i / 8)) :
    Returns ((Kernel.window W e).Sees A m) (mmapTest i) (bitAt m e.pmmBitmap i)
      ((Kernel.window W e).Sees A m) := by
  refine .get fun t ht ↦ ?_
  rw [show t.vars = e from ht.1.2]
  have hb : (m (e.pmmBitmap + i / 8) &&& bitMask i != 0) = bitAt m e.pmmBitmap i := by
    have hz := land_bitMask_eq_zero (m (e.pmmBitmap + i / 8)) i
    unfold bitAt
    rw [Bool.eq_iff_iff, bne_iff_ne, Ne, hz, Bool.not_eq_false]
  rw [← hb]
  exact ((Kernel.window W e).load8_returns h).bind (.pure _)

theorem mmapSet_returns (h : A (e.pmmBitmap + i / 8)) :
    Returns ((Kernel.window W e).Sees A m) (mmapSet i) ()
      ((Kernel.window W e).Sees A (setBit m e.pmmBitmap i)) := by
  refine .get fun t ht ↦ ?_
  rw [show t.vars = e from ht.1.2]
  exact ((Kernel.window W e).load8_returns h).bind ((Kernel.window W e).store8_returns h _)

theorem mmapUnset_returns (h : A (e.pmmBitmap + i / 8)) :
    Returns ((Kernel.window W e).Sees A m) (mmapUnset i) ()
      ((Kernel.window W e).Sees A (clearBit m e.pmmBitmap i)) := by
  refine .get fun t ht ↦ ?_
  rw [show t.vars = e from ht.1.2]
  exact ((Kernel.window W e).load8_returns h).bind ((Kernel.window W e).store8_returns h _)

theorem setUsedBlocks_returns (f : ℕ → ℕ) :
    Returns ((Kernel.window W e).Sees A m) (setUsedBlocks f) ()
      ((Kernel.window W { e with pmmUsedBlocks := f e.pmmUsedBlocks }).Sees A m) := by
  apply Returns.modify
  rintro s ⟨⟨hi, rfl⟩, hA, hm⟩
  exact ⟨⟨hi, rfl⟩, hA, hm⟩

variable {α : Type} {k : Prog (Kernel σ PmmVars) α} {r : α} {Q : Kernel σ PmmVars → Prop}

theorem lock_returns (hb : blocks < 4294967296) (hi : i < blocks) (hA : A (base + i / 8))
    (h : bitAt m base i = false) (hk : Returns (Tracks W A (setBit m base i) base blocks) k r Q) :
    Returns (Tracks W A m base blocks)
      (do mmapSet i; setUsedBlocks (fun u ↦ w32 (u + 1)); k) r Q := by
  refine (mmapSet_returns W hA).bind (.seq ?_ hk)
  have hu := card_usedPages_setBit hi h
  have hle := card_usedPages_le (setBit m base i) base blocks
  have hc : counted (setBit m base i) base blocks =
      { counted m base blocks with pmmUsedBlocks := w32 ((counted m base blocks).pmmUsedBlocks + 1) } := by
    simp only [counted, hu]
    rw [w32_of_lt (by omega)]
  rw [Tracks, hc]
  exact setUsedBlocks_returns W _

theorem unlock_returns (hb : blocks < 4294967296) (hi : i < blocks) (hA : A (base + i / 8))
    (h : bitAt m base i = true) (hk : Returns (Tracks W A (clearBit m base i) base blocks) k r Q) :
    Returns (Tracks W A m base blocks) (do mmapUnset i; setUsedBlocks (sub32 · 1); k) r Q := by
  refine (mmapUnset_returns W hA).bind (.seq ?_ hk)
  have hu := card_usedPages_clearBit hi h
  have hle := card_usedPages_le m base blocks
  have hc : counted (clearBit m base i) base blocks =
      { counted m base blocks with pmmUsedBlocks := sub32 (counted m base blocks).pmmUsedBlocks 1 } := by
    simp only [counted]
    rw [sub32_of_le (by omega) (by omega)]
    congr 1
    omega
  rw [Tracks, hc]
  exact setUsedBlocks_returns W _

variable (hb : blocks < 4294967296) (hA : ∀ k < blocks, A (base + k / 8))
include hb hA

theorem allocFrom_returns (hij : i ≤ j) (hj : j < i + n) (hin : i + n ≤ blocks)
    (hfree : bitAt m base j = false) (hmin : ∀ k, i ≤ k → k < j → bitAt m base k = true) :
    Returns (Tracks W A m base blocks) (allocFrom i n) (w32 (j * pageSize))
      (Tracks W A (setBit m base j) base blocks) := by
  induction n generalizing i with
  | zero => omega
  | succ n ih =>
    refine (mmapTest_returns W (hA i (by omega))).bind ?_
    by_cases h : i = j
    · subst h
      rw [show bitAt m (counted m base blocks).pmmBitmap i = false from hfree]
      exact lock_returns W hb (by omega) (hA i (by omega)) hfree (.pure _)
    · rw [show bitAt m (counted m base blocks).pmmBitmap i = true from hmin i le_rfl (by omega)]
      exact ih (by omega) (by omega) (by omega) (fun k hk hk' ↦ hmin k (by omega) hk')

omit hb in
theorem allocFrom_full (hin : i + n ≤ blocks)
    (hfull : ∀ k, i ≤ k → k < i + n → bitAt m base k = true) :
    Returns (Tracks W A m base blocks) (allocFrom i n) 0 (Tracks W A m base blocks) := by
  induction n generalizing i with
  | zero => exact .pure 0
  | succ n ih =>
    refine (mmapTest_returns W (hA i (by omega))).bind ?_
    rw [show bitAt m (counted m base blocks).pmmBitmap i = true from hfull i le_rfl (by omega)]
    exact ih (by omega) (fun k hk hk' ↦ hfull k (by omega) (by omega))

/-- An allocation takes the lowest free page. -/
theorem pmmAllocPage_returns (hj : IsLeast (freePages m base blocks : Set ℕ) j) :
    Returns (Tracks W A m base blocks) pmmAllocPage (w32 (j * pageSize))
      (Tracks W A (setBit m base j) base blocks) := by
  obtain ⟨hmem, hle⟩ := hj
  obtain ⟨hlt, hfree⟩ := mem_freePages.mp (mem_coe.mp hmem)
  refine .get fun t ht ↦ ?_
  rw [show t.vars = counted m base blocks from ht.1.2]
  refine allocFrom_returns W hb hA (Nat.zero_le j) (by simpa [counted] using hlt)
    (by simp [counted]) hfree (fun l _ hl ↦ ?_)
  by_contra hbit
  have hmem' : l ∈ freePages m base blocks :=
    mem_freePages.mpr ⟨by omega, by simpa using hbit⟩
  have hl' := hle (mem_coe.mpr hmem')
  omega

omit hb in
theorem pmmAllocPage_full (h : freePages m base blocks = ∅) :
    Returns (Tracks W A m base blocks) pmmAllocPage 0 (Tracks W A m base blocks) := by
  refine .get fun t ht ↦ ?_
  rw [show t.vars = counted m base blocks from ht.1.2]
  refine allocFrom_full W hA (by simp [counted]) (fun k _ hk ↦ ?_)
  by_contra hbit
  have hk' : k ∈ freePages m base blocks :=
    mem_freePages.mpr ⟨by simpa [counted] using hk, by simpa using hbit⟩
  simp [h] at hk'

theorem pmmFreePage_returns {ptr : ℕ} (hlt : ptr / pageSize < blocks)
    (h : bitAt m base (ptr / pageSize) = true) :
    Returns (Tracks W A m base blocks) (pmmFreePage ptr) ()
      (Tracks W A (clearBit m base (ptr / pageSize)) base blocks) := by
  refine .get fun t ht ↦ ?_
  rw [show t.vars = counted m base blocks from ht.1.2]
  refine .ite_pos hlt ((mmapTest_returns W (hA _ hlt)).bind ?_)
  rw [show bitAt m (counted m base blocks).pmmBitmap (ptr / pageSize) = true from h, if_pos rfl]
  have hr := unlock_returns W hb hlt (hA _ hlt) h (.pure ())
  rwa [bind_pure_unit] at hr

omit hb in
theorem pmmFreePage_ignored {ptr : ℕ}
    (h : blocks ≤ ptr / pageSize ∨ bitAt m base (ptr / pageSize) = false) :
    Returns (Tracks W A m base blocks) (pmmFreePage ptr) () (Tracks W A m base blocks) := by
  refine .get fun t ht ↦ ?_
  rw [show t.vars = counted m base blocks from ht.1.2]
  by_cases hlt : ptr / pageSize < blocks
  · have hbit := h.resolve_left (by omega)
    refine .ite_pos hlt ((mmapTest_returns W (hA _ hlt)).bind ?_)
    rw [show bitAt m (counted m base blocks).pmmBitmap (ptr / pageSize) = false from hbit]
    exact .pure ()
  · exact .ite_neg hlt (.pure ())

end Operations

end KevOS.Pmm.Bitmap
