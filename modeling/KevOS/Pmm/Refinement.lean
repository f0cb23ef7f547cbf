import KevOS.Pmm.Physical
import Mathlib.Logic.Relation

namespace KevOS.Pmm.Refinement

open Lib.Program Lib.ByteMemory Machine Bitmap Init Physical Finset Relation

/-- Available memory ends below 4 GiB. -/
def EndsBelow4G (mmap : List MultibootMmapEntry) : Prop :=
  ∀ entry ∈ mmap, entry.type = multibootMemoryAvailable →
    entry.addr.toNat + entry.len.toNat < 0x100000000

theorem highestPhysicalAddr_lt {mmap : List MultibootMmapEntry} (h : EndsBelow4G mmap) :
    highestPhysicalAddr mmap < 0x100000000 := by
  refine (highestPhysicalAddr_le (b := 0xFFFFFFFF) fun entry hentry ht ↦ ?_).trans_lt (by decide)
  have hend := h entry hentry ht
  omega

theorem maxBlocks_lt_of_endsBelow {mmap : List MultibootMmapEntry} (h : EndsBelow4G mmap) :
    maxBlocks mmap < 1048576 := by
  have hh := highestPhysicalAddr_lt h
  unfold maxBlocks pageSize
  rw [w32_of_lt (by omega)]
  omega

/-- One call, with any pointer. -/
inductive Step : PmmState → PmmState → Prop
  | alloc {s s' : PmmState} {p : ℕ} : pmmAllocPage.run s = .ok p s' → Step s s'
  | release {s s' : PmmState} (ptr : ℕ) : (pmmFreePage ptr).run s = .ok () s' → Step s s'

def Reachable (img : KernelImage) (mmap : List MultibootMmapEntry) (s : PmmState) : Prop :=
  ∃ s₀ s₁, (pmmInit img mmap).run s₀ = .ok () s₁ ∧ ReflTransGen Step s₁ s

/-- Runs that release only what they were handed out, with the addresses handed
out so far. -/
inductive HandedOut (img : KernelImage) (mmap : List MultibootMmapEntry) :
    PmmState → List ℕ → Prop
  | boot {s₀ s : PmmState} : (pmmInit img mmap).run s₀ = .ok () s → HandedOut img mmap s []
  | alloc {s s' : PmmState} {p : ℕ} {h : List ℕ} : HandedOut img mmap s h →
      (free s).Nonempty → pmmAllocPage.run s = .ok p s' → HandedOut img mmap s' (p :: h)
  | exhausted {s s' : PmmState} {p : ℕ} {h : List ℕ} : HandedOut img mmap s h →
      free s = ∅ → pmmAllocPage.run s = .ok p s' → HandedOut img mmap s' h
  | release {s s' : PmmState} {p : ℕ} {h : List ℕ} : HandedOut img mmap s h →
      p ∈ h → (pmmFreePage p).run s = .ok () s' → HandedOut img mmap s' h

/-- The bitmap and its counter stand for a set of free pages, on which the two
operations act as they should. -/
structure RefinesFreeSet (s : PmmState) : Prop where
  used_blocks : s.vars.pmmUsedBlocks = #(used s)
  free_memory : pmmGetFreeMemory.run s = .ok (4096 * #(free s)) s
  alloc (i : ℕ) : IsLeast (free s : Set ℕ) i →
    ∃ s', pmmAllocPage.run s = .ok (4096 * i) s' ∧
      free s' = (free s).erase i ∧ used s' = insert i (used s)
  alloc_none : free s = ∅ → pmmAllocPage.run s = .ok 0 s
  release (ptr : ℕ) : ptr / 4096 < s.vars.pmmMaxBlocks → ptr / 4096 ∉ free s →
    ∃ s', (pmmFreePage ptr).run s = .ok () s' ∧
      free s' = insert (ptr / 4096) (free s) ∧ used s' = (used s).erase (ptr / 4096)
  release_none (ptr : ℕ) : s.vars.pmmMaxBlocks ≤ ptr / 4096 ∨ ptr / 4096 ∈ free s →
    (pmmFreePage ptr).run s = .ok () s

variable {img : KernelImage} {mmap : List MultibootMmapEntry} {s s' : PmmState}

theorem consistent_step (h : Consistent img mmap s) (hs : Step s s') : Consistent img mmap s' := by
  cases hs with
  | alloc hr =>
    obtain ⟨i, -, -, rfl⟩ | ⟨-, -, rfl⟩ := pmmAllocPage_cases h hr
    · exact consistent_withBitmap h _
    · exact h
  | release ptr hr =>
    obtain ⟨-, -, rfl⟩ | ⟨-, rfl⟩ := pmmFreePage_cases h hr
    · exact consistent_withBitmap h _
    · exact h

theorem consistent_reachable (h : Reachable img mmap s) : Consistent img mmap s := by
  obtain ⟨s₀, s₁, hinit, hsteps⟩ := h
  induction hsteps with
  | refl => exact (of_pmmInit hinit).1
  | tail _ hs ih => exact consistent_step ih hs

theorem pmmGetFreeMemory_run (hmap : maxBlocks mmap < 1048576) (h : Consistent img mmap s) :
    pmmGetFreeMemory.run s = .ok (4096 * #(free s)) s := by
  have hsum := card_used_add_free s.mem img.physEnd (maxBlocks mmap)
  have hf : free s = freePages s.mem img.physEnd (maxBlocks mmap) := by
    rw [free, h.bitmap, h.blocks]
  have hv : s.vars = ⟨img.physEnd, maxBlocks mmap, #(usedPages s.mem img.physEnd (maxBlocks mmap))⟩ := h
  change EStateM.Result.ok (w32 (sub32 s.vars.pmmMaxBlocks s.vars.pmmUsedBlocks * pageSize)) s = _
  rw [hv, hf, sub32_of_le (by dsimp only; omega) (by dsimp only; omega), w32_of_lt (by
    unfold pageSize
    dsimp only
    omega)]
  congr 1
  unfold pageSize
  dsimp only
  omega

theorem refines (hmap : maxBlocks mmap < 1048576) (h : Consistent img mmap s) :
    RefinesFreeSet s where
  used_blocks := by
    rw [used, h.bitmap, h.blocks, h]
    rfl
  free_memory := pmmGetFreeMemory_run hmap h
  alloc i hi := by
    have hlt : i < maxBlocks mmap := (h.mem_free.mp (mem_coe.mp hi.1)).1
    have haddr : w32 (i * pageSize) = 4096 * i := by
      unfold pageSize
      rw [w32_of_lt (by omega), Nat.mul_comm]
    exact ⟨_, by rw [pmmAllocPage_ok h hi, haddr], free_lockPage,
      usedPages_setBit (show i < s.vars.pmmMaxBlocks by rwa [h.blocks])⟩
  alloc_none := pmmAllocPage_none h
  release ptr hlt hf :=
    ⟨_, pmmFreePage_ok h (by rwa [h.blocks] at hlt) hf, free_unlockPage hlt, usedPages_clearBit⟩
  release_none ptr hf := pmmFreePage_nop h (by rwa [h.blocks] at hf)

theorem handedOut_inv (hmap : maxBlocks mmap < 1048576) {l : List ℕ} (h : HandedOut img mmap s l) :
    Consistent img mmap s ∧ (∀ i ∈ free s, ¬ Reserved img (maxBlocks mmap) i) ∧
      ∀ p ∈ l, ∃ i < maxBlocks mmap, p = i * pageSize ∧ ¬ Reserved img (maxBlocks mmap) i := by
  induction h with
  | boot hr =>
    obtain ⟨hc, -, hf⟩ := of_pmmInit hr
    exact ⟨hc, fun i hi ↦ ((hf i).mp hi).2.2, by simp⟩
  | alloc _ hne hr ih =>
    obtain ⟨hc, hfree, hl⟩ := ih
    obtain ⟨i, hi, rfl, rfl⟩ | ⟨he, -⟩ := pmmAllocPage_cases hc hr
    · have hmem := mem_coe.mp hi.1
      have hlt := (hc.mem_free.mp hmem).1
      refine ⟨consistent_withBitmap hc _, fun j hj ↦ ?_, fun p hp ↦ ?_⟩
      · rw [free_lockPage] at hj
        exact hfree j (mem_of_mem_erase hj)
      · rcases List.mem_cons.mp hp with rfl | hp
        · exact ⟨i, hlt, w32_of_lt (by unfold pageSize; omega), hfree i hmem⟩
        · exact hl p hp
    · exact absurd he hne.ne_empty
  | exhausted _ he hr ih =>
    obtain ⟨hc, hfree, hl⟩ := ih
    rw [pmmAllocPage_none hc he] at hr
    cases hr
    exact ⟨hc, hfree, hl⟩
  | release _ hp hr ih =>
    obtain ⟨hc, hfree, hl⟩ := ih
    obtain ⟨hlt, -, rfl⟩ | ⟨-, rfl⟩ := pmmFreePage_cases hc hr
    · obtain ⟨i, -, rfl, hres⟩ := hl _ hp
      have hdiv : i * pageSize / pageSize = i := Nat.mul_div_cancel _ (by decide)
      rw [hdiv] at hlt ⊢
      refine ⟨consistent_withBitmap hc _, fun j hj ↦ ?_, hl⟩
      rw [free_unlockPage (by rwa [hc.blocks])] at hj
      rcases mem_insert.mp hj with rfl | hj
      · exact hres
      · exact hfree j hj
    · exact ⟨hc, hfree, hl⟩

/-- After boot on a map that ends below 4 GiB, the manager is its set of free
pages in every reachable state, and nobody is handed the kernel or the bitmap. -/
theorem pmm_refines_free_set (img : KernelImage) (mmap : List MultibootMmapEntry)
    (hmap : EndsBelow4G mmap) :
    (∀ s : PmmState, ∃ s', (pmmInit img mmap).run s = .ok () s') ∧
    (∀ s, Reachable img mmap s → RefinesFreeSet s) ∧
    ∀ s l, HandedOut img mmap s l → ∀ p ∈ l, ¬ Overlaps p img.physStart img.physEnd ∧
      ¬ Overlaps p img.physEnd (img.physEnd + bitmapSize s.vars.pmmMaxBlocks) := by
  have hb := maxBlocks_lt_of_endsBelow hmap
  refine ⟨fun s ↦ ?_, fun s hs ↦ refines hb (consistent_reachable hs), fun s l hl p hp ↦ ?_⟩
  · obtain ⟨s', hr, -⟩ := pmmInit_ok img mmap s
    exact ⟨s', hr⟩
  · obtain ⟨hc, -, hpages⟩ := handedOut_inv hb hl
    obtain ⟨i, -, rfl, hres⟩ := hpages p hp
    rw [hc.blocks]
    exact not_overlaps_of_not_reserved hres

/-- The kernel image used in concrete runs, 128 KiB long. -/
def smallImage : KernelImage := ⟨0xC0120000, by decide, by decide⟩

/-- A PC with 640 KiB of low memory and 127 MiB from 1 MiB on. -/
def smallPc : List MultibootMmapEntry :=
  [⟨0, 0x9FC00, 1⟩, ⟨0x9FC00, 0x400, 2⟩, ⟨0x100000, 0x7F00000, 1⟩]

theorem endsBelow4G_smallPc : EndsBelow4G smallPc := by
  unfold EndsBelow4G smallPc
  decide

theorem pmm_refines_free_set_smallPc :
    EndsBelow4G smallPc ∧
    (∀ s : PmmState, ∃ s', (pmmInit smallImage smallPc).run s = .ok () s') ∧
    (∀ s, Reachable smallImage smallPc s → RefinesFreeSet s) ∧
    ∀ s l, HandedOut smallImage smallPc s l → ∀ p ∈ l,
      ¬ Overlaps p smallImage.physStart smallImage.physEnd ∧
      ¬ Overlaps p smallImage.physEnd (smallImage.physEnd + bitmapSize s.vars.pmmMaxBlocks) :=
  ⟨endsBelow4G_smallPc, pmm_refines_free_set smallImage smallPc endsBelow4G_smallPc⟩

end KevOS.Pmm.Refinement
