import KevOS.Pmm.Bitmap
import Mathlib.Data.List.Fold
import Mathlib.Data.List.MinMax
import Mathlib.Order.Nat

namespace KevOS.Pmm.Init

open Lib.Program Lib.ByteMemory Lib.Bits Machine Bitmap

/-- The pages the second pass over the memory map releases. -/
def Released (mmap : List MultibootMmapEntry) (j : ℕ) : Prop :=
  ∃ entry ∈ mmap, entry.type = multibootMemoryAvailable ∧
    ∃ i < entry.blockCount, w32 (entry.blockStart + i) = j

/-- The pages locked for the kernel image and the bitmap. -/
def Reserved (img : KernelImage) (blocks j : ℕ) : Prop :=
  kernelStartBlock img ≤ j ∧ j < kernelAndBitmapEndBlock img blocks

/-- The pages that are free after boot. -/
def BootFree (img : KernelImage) (mmap : List MultibootMmapEntry) (j : ℕ) : Prop :=
  j < maxBlocks mmap ∧ Released mmap j ∧ ¬ Reserved img (maxBlocks mmap) j

theorem maxBlocks_lt (mmap : List MultibootMmapEntry) : maxBlocks mmap < 4294967296 := w32_lt _

/-- A page of an available region is free after boot, if nothing is kept there. -/
theorem bootFree_of_entry {img : KernelImage} {mmap : List MultibootMmapEntry}
    {entry : MultibootMmapEntry} {j : ℕ} (he : entry ∈ mmap)
    (htype : entry.type = multibootMemoryAvailable) (hlo : entry.blockStart ≤ j)
    (hhi : j < entry.blockStart + entry.blockCount) (hlt : j < maxBlocks mmap)
    (hres : ¬ Reserved img (maxBlocks mmap) j) : BootFree img mmap j := by
  refine ⟨hlt, ⟨entry, he, htype, j - entry.blockStart, by omega, ?_⟩, hres⟩
  rw [Nat.add_sub_cancel' hlo, w32_of_lt (hlt.trans (maxBlocks_lt mmap))]

/-- What one turn of the first pass compares with. -/
def availableEnd (entry : MultibootMmapEntry) : ℕ :=
  if entry.type = multibootMemoryAvailable then w64 (entry.addr.toNat + entry.len.toNat) else 0

theorem highestPhysicalAddr_eq (mmap : List MultibootMmapEntry) :
    highestPhysicalAddr mmap = (mmap.map availableEnd).foldr max ⊥ := by
  have hturn (highest : ℕ) (entry : MultibootMmapEntry) :
      (if entry.type = multibootMemoryAvailable then
        if w64 (entry.addr.toNat + entry.len.toNat) > highest then
          w64 (entry.addr.toNat + entry.len.toNat)
        else highest
      else highest) = max highest (availableEnd entry) := by
    unfold availableEnd
    split
    · split <;> omega
    · omega
  rw [← List.foldl_eq_foldr, List.foldl_map]
  simp only [highestPhysicalAddr, hturn, Nat.bot_eq_zero]

theorem highestPhysicalAddr_le {mmap : List MultibootMmapEntry} {b : ℕ}
    (h : ∀ entry ∈ mmap, entry.type = multibootMemoryAvailable →
      entry.addr.toNat + entry.len.toNat ≤ b) : highestPhysicalAddr mmap ≤ b := by
  rw [highestPhysicalAddr_eq]
  apply List.max_le_of_forall_le
  intro e he
  obtain ⟨entry, hentry, rfl⟩ := List.mem_map.mp he
  unfold availableEnd
  split
  · exact (Nat.mod_le _ _).trans (h entry hentry ‹_›)
  · exact Nat.zero_le b

theorem le_highestPhysicalAddr {mmap : List MultibootMmapEntry} {entry : MultibootMmapEntry}
    (hentry : entry ∈ mmap) (ht : entry.type = multibootMemoryAvailable) :
    w64 (entry.addr.toNat + entry.len.toNat) ≤ highestPhysicalAddr mmap := by
  rw [highestPhysicalAddr_eq]
  apply List.le_max_of_le (List.mem_map_of_mem hentry)
  rw [availableEnd, if_pos ht]

theorem div_lt_bitmapSize {i blocks : ℕ} (h : i < blocks) : i / 8 < bitmapSize blocks := by
  unfold bitmapSize
  split <;> omega

theorem lt_of_bitmapSize {i blocks : ℕ} (h : i < blocks) : i < 8 * bitmapSize blocks := by
  unfold bitmapSize
  split <;> omega

theorem bitmapSize_le (blocks : ℕ) : bitmapSize blocks ≤ blocks / 8 + 1 := by
  unfold bitmapSize
  split <;> omega

theorem physStart_eq (img : KernelImage) : img.physStart = 0x100000 := by
  unfold KernelImage.physStart KernelImage.kernelStart sub32 kernelVirtBase
  rfl

theorem physEnd_eq (img : KernelImage) : img.physEnd = img.kernelEnd - 0xC0000000 := by
  have h := img.start_le
  have h' := img.end_lt
  exact sub32_of_le (by unfold kernelVirtBase; omega) (by omega)

/-- The end of the reserved range does not wrap around. -/
theorem kernelAndBitmapEndBlock_eq {img : KernelImage} {blocks : ℕ} (hb : blocks < 4294967296) :
    kernelAndBitmapEndBlock img blocks = (img.physEnd + bitmapSize blocks + 4095) / 4096 := by
  have h := img.end_lt
  have hs := bitmapSize_le blocks
  have he := physEnd_eq img
  have h₁ : img.physEnd + bitmapSize blocks < 4294967296 := by omega
  have h₂ : img.physEnd + bitmapSize blocks + 4096 - 1 < 4294967296 := by omega
  unfold kernelAndBitmapEndBlock pageSize
  rw [w32_of_lt h₁, w32_of_lt h₂]
  omega

/-- Bytes that differ only inside the bitmap. -/
def SameOutside (m m' : Bytes) (base blocks : ℕ) : Prop :=
  ∀ a, a < base ∨ base + bitmapSize blocks ≤ a → m' a = m a

theorem sameOutside_setBit {m : Bytes} {base blocks i : ℕ} (hi : i < blocks) :
    SameOutside m (setBit m base i) base blocks := by
  intro a ha
  have h := div_lt_bitmapSize hi
  exact Function.update_of_ne (by omega) _ _

theorem sameOutside_clearBit {m : Bytes} {base blocks i : ℕ} (hi : i < blocks) :
    SameOutside m (clearBit m base i) base blocks := by
  intro a ha
  have h := div_lt_bitmapSize hi
  exact Function.update_of_ne (by omega) _ _

theorem SameOutside.trans {m m' m'' : Bytes} {base blocks : ℕ}
    (h : SameOutside m m' base blocks) (h' : SameOutside m' m'' base blocks) :
    SameOutside m m'' base blocks := fun a ha ↦ (h' a ha).trans (h a ha)

section Passes

variable {σ : Type} [ByteMem σ] (W : Window σ) {A : ℕ → Prop} {base blocks : ℕ}
  (hb : blocks < 4294967296) (hA : ∀ k < blocks, A (base + k / 8))
include hb hA

theorem releaseBlocks_returns (m : Bytes) (block count : ℕ) :
    ∃ m', Returns (Tracks W A m base blocks) (releaseBlocks block count) ()
        (Tracks W A m' base blocks) ∧ SameOutside m m' base blocks ∧
      ∀ j < blocks, bitAt m' base j = false ↔
        bitAt m base j = false ∨ ∃ i < count, w32 (block + i) = j := by
  induction count generalizing m block with
  | zero => exact ⟨m, .pure (), fun _ _ ↦ rfl, by simp⟩
  | succ count ih =>
    -- The first block, then the rest of the loop.
    have hsplit (j : ℕ) : (∃ i < count + 1, w32 (block + i) = j) ↔
        w32 block = j ∨ ∃ i < count, w32 (block + 1 + i) = j := by
      rw [Nat.exists_lt_succ_left]
      simp only [Nat.add_zero, Nat.add_assoc, Nat.add_comm 1]
    by_cases hin : w32 block < blocks
    · by_cases hbit : bitAt m base (w32 block) = true
      · obtain ⟨m', hr, hout, hm'⟩ := ih (clearBit m base (w32 block)) (block + 1)
        refine ⟨m', .get fun t ht ↦ ?_, (sameOutside_clearBit hin).trans hout, fun j hj ↦ ?_⟩
        · rw [show t.vars = counted m base blocks from ht.1.2]
          refine .ite_pos hin ((mmapTest_returns W (hA _ hin)).bind ?_)
          rw [show bitAt m (counted m base blocks).pmmBitmap (w32 block) = true from hbit]
          exact unlock_returns W hb hin (hA _ hin) hbit hr
        · rw [hm' j hj, hsplit, bitAt_clearBit, Bool.and_eq_false_iff, Bool.not_eq_false',
            decide_eq_true_eq, or_assoc]
      · obtain ⟨m', hr, hout, hm'⟩ := ih m (block + 1)
        refine ⟨m', .get fun t ht ↦ ?_, hout, fun j hj ↦ ?_⟩
        · rw [show t.vars = counted m base blocks from ht.1.2]
          refine .ite_pos hin ((mmapTest_returns W (hA _ hin)).bind ?_)
          rw [show bitAt m (counted m base blocks).pmmBitmap (w32 block) = false from
            Bool.not_eq_true _ ▸ hbit]
          exact hr
        · rw [hm' j hj, hsplit, ← or_assoc]
          refine or_congr_left ⟨.inl, ?_⟩
          rintro (h | rfl)
          · exact h
          · simpa using hbit
    · obtain ⟨m', hr, hout, hm'⟩ := ih m (block + 1)
      refine ⟨m', .get fun t ht ↦ ?_, hout, fun j hj ↦ ?_⟩
      · rw [show t.vars = counted m base blocks from ht.1.2]
        exact .ite_neg hin hr
      · have hne : w32 block ≠ j := by omega
        rw [hm' j hj, hsplit, or_iff_right hne]

theorem releaseRegions_returns (m : Bytes) (mmap : List MultibootMmapEntry) :
    ∃ m', Returns (Tracks W A m base blocks) (releaseRegions mmap) ()
        (Tracks W A m' base blocks) ∧ SameOutside m m' base blocks ∧
      ∀ j < blocks, bitAt m' base j = false ↔ bitAt m base j = false ∨ Released mmap j := by
  induction mmap generalizing m with
  | nil => exact ⟨m, .pure (), fun _ _ ↦ rfl, by simp [Released]⟩
  | cons entry mmap ih =>
    have hsplit (j : ℕ) : Released (entry :: mmap) j ↔
        (entry.type = multibootMemoryAvailable ∧
          ∃ i < entry.blockCount, w32 (entry.blockStart + i) = j) ∨ Released mmap j := by
      simp only [Released, List.exists_mem_cons_iff]
    by_cases htype : entry.type = multibootMemoryAvailable
    · obtain ⟨m₁, hr₁, hout₁, hm₁⟩ :=
        releaseBlocks_returns W hb hA m entry.blockStart entry.blockCount
      obtain ⟨m₂, hr₂, hout₂, hm₂⟩ := ih m₁
      refine ⟨m₂, ?_, hout₁.trans hout₂, fun j hj ↦ ?_⟩
      · unfold releaseRegions
        rw [if_pos htype]
        exact hr₁.seq hr₂
      · rw [hm₂ j hj, hm₁ j hj, hsplit, or_assoc, and_iff_right htype]
    · obtain ⟨m', hr, hout, hm'⟩ := ih m
      refine ⟨m', ?_, hout, fun j hj ↦ ?_⟩
      · unfold releaseRegions
        rw [if_neg htype]
        exact hr
      · rw [hm' j hj, hsplit, or_iff_right (fun h : _ ∧ _ ↦ htype h.1)]

theorem reserveBlocks_returns (m : Bytes) (i count : ℕ) :
    ∃ m', Returns (Tracks W A m base blocks) (reserveBlocks i count) ()
        (Tracks W A m' base blocks) ∧ SameOutside m m' base blocks ∧
      ∀ j < blocks, bitAt m' base j = false ↔
        bitAt m base j = false ∧ ¬ (i ≤ j ∧ j < i + count) := by
  induction count generalizing m i with
  | zero =>
    refine ⟨m, .pure (), fun _ _ ↦ rfl, fun j _ ↦ ?_⟩
    rw [and_iff_left]
    omega
  | succ count ih =>
    by_cases hin : i < blocks
    · by_cases hbit : bitAt m base i = false
      · obtain ⟨m', hr, hout, hm'⟩ := ih (setBit m base i) (i + 1)
        refine ⟨m', .get fun t ht ↦ ?_, (sameOutside_setBit hin).trans hout, fun j hj ↦ ?_⟩
        · rw [show t.vars = counted m base blocks from ht.1.2]
          refine .ite_pos hin ((mmapTest_returns W (hA _ hin)).bind ?_)
          rw [show bitAt m (counted m base blocks).pmmBitmap i = false from hbit]
          exact lock_returns W hb hin (hA _ hin) hbit hr
        · rw [hm' j hj, bitAt_setBit, Bool.or_eq_false_iff, decide_eq_false_iff_not, and_assoc]
          exact and_congr_right' (by omega)
      · obtain ⟨m', hr, hout, hm'⟩ := ih m (i + 1)
        refine ⟨m', .get fun t ht ↦ ?_, hout, fun j hj ↦ ?_⟩
        · rw [show t.vars = counted m base blocks from ht.1.2]
          refine .ite_pos hin ((mmapTest_returns W (hA _ hin)).bind ?_)
          rw [show bitAt m (counted m base blocks).pmmBitmap i = true from
            Bool.not_eq_false _ ▸ hbit]
          exact hr
        · rw [hm' j hj]
          refine and_congr_right fun hj' ↦ ?_
          have hne : i ≠ j := by rintro rfl; exact hbit hj'
          omega
    · obtain ⟨m', hr, hout, hm'⟩ := ih m (i + 1)
      refine ⟨m', .get fun t ht ↦ ?_, hout, fun j hj ↦ ?_⟩
      · rw [show t.vars = counted m base blocks from ht.1.2]
        exact .ite_neg hin hr
      · rw [hm' j hj]
        exact and_congr_right' (by omega)

end Passes

/-- Every bit set, as `memset` leaves the bitmap, with the counter at its maximum. -/
theorem counted_fill (m : Bytes) (base blocks : ℕ) :
    counted (fill m base 0xFF (bitmapSize blocks)) base blocks = ⟨base, blocks, blocks⟩ := by
  have h : usedPages (fill m base 0xFF (bitmapSize blocks)) base blocks = Finset.range blocks :=
    Finset.filter_true_of_mem fun i hi ↦
      bitAt_fill_ones (lt_of_bitmapSize (Finset.mem_range.mp hi))
  rw [counted, h, Finset.card_range]

/-- Wherever the bitmap can be reached, `pmmInit` comes back, has written only the
bitmap, and left exactly the pages of `BootFree` free. -/
theorem pmmInit_returns {σ : Type} [ByteMem σ] (W : Window σ) {A : ℕ → Prop}
    (img : KernelImage) (mmap : List MultibootMmapEntry) (m : Bytes) (e : PmmVars)
    (hA : ∀ a, img.physEnd ≤ a → a < img.physEnd + bitmapSize (maxBlocks mmap) → A a) :
    ∃ m', Returns ((Kernel.window W e).Sees A m) (pmmInit img mmap) ()
        (Tracks W A m' img.physEnd (maxBlocks mmap)) ∧
      SameOutside m m' img.physEnd (maxBlocks mmap) ∧
      ∀ j < maxBlocks mmap, bitAt m' img.physEnd j = false ↔
        Released mmap j ∧ ¬ Reserved img (maxBlocks mmap) j := by
  have hb := maxBlocks_lt mmap
  have hA' : ∀ k < maxBlocks mmap, A (img.physEnd + k / 8) := fun k hk ↦
    hA _ (by omega) (by have h := div_lt_bitmapSize hk; omega)
  set ones := fill m img.physEnd 0xFF (bitmapSize (maxBlocks mmap)) with hones
  obtain ⟨m₁, hr₁, hout₁, hm₁⟩ := releaseRegions_returns W hb hA' ones mmap
  obtain ⟨m₂, hr₂, hout₂, hm₂⟩ := reserveBlocks_returns W hb hA' m₁ (kernelStartBlock img)
    (kernelAndBitmapEndBlock img (maxBlocks mmap) - kernelStartBlock img)
  refine ⟨m₂, ?_, ?_, fun j hj ↦ ?_⟩
  · have hset : Returns ((Kernel.window W e).Sees A m)
        (modify fun s : Kernel σ PmmVars ↦
          { s with vars := { s.vars with pmmMaxBlocks := maxBlocks mmap, pmmBitmap := img.physEnd } })
        () ((Kernel.window W ⟨img.physEnd, maxBlocks mmap, e.pmmUsedBlocks⟩).Sees A m) := by
      apply Returns.modify
      rintro s ⟨⟨hi, rfl⟩, hs⟩
      exact ⟨⟨hi, rfl⟩, hs⟩
    refine hset.seq (((Kernel.window W _).memset_returns _ _ hA).seq ?_)
    have hused := setUsedBlocks_returns W (A := A) (m := ones)
      (e := ⟨img.physEnd, maxBlocks mmap, e.pmmUsedBlocks⟩) (fun _ ↦ maxBlocks mmap)
    refine hused.seq (Returns.seq ?_ hr₂)
    rw [Tracks, counted_fill] at hr₁
    exact hr₁
  · have hout₀ : SameOutside m ones img.physEnd (maxBlocks mmap) := fun a ha ↦ fill_of_ne ha
    exact hout₀.trans (hout₁.trans hout₂)
  · have hset : bitAt ones img.physEnd j = true := bitAt_fill_ones (lt_of_bitmapSize hj)
    rw [hm₂ j hj, hm₁ j hj, hset]
    have hres : ¬ (kernelStartBlock img ≤ j ∧ j < kernelStartBlock img +
        (kernelAndBitmapEndBlock img (maxBlocks mmap) - kernelStartBlock img)) ↔
        ¬ Reserved img (maxBlocks mmap) j := by
      unfold Reserved
      omega
    simp [hres]

end KevOS.Pmm.Init
