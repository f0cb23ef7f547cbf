import KevOS.Pmm.Init
import Mathlib.Data.Finset.Max

namespace KevOS.Pmm.Physical

open Lib.Program Lib.ByteMemory Lib.Bits Machine Bitmap Init Finset

/-- The memory manager over directly addressed memory. -/
abbrev PmmState := Kernel Bytes PmmVars

def free (s : PmmState) : Finset ℕ := freePages s.mem s.vars.pmmBitmap s.vars.pmmMaxBlocks

def used (s : PmmState) : Finset ℕ := usedPages s.mem s.vars.pmmBitmap s.vars.pmmMaxBlocks

/-- The state with the bitmap bytes `m` and a right counter. -/
def withBitmap (s : PmmState) (m : Bytes) : PmmState :=
  ⟨m, counted m s.vars.pmmBitmap s.vars.pmmMaxBlocks⟩

def lockPage (s : PmmState) (i : ℕ) : PmmState := withBitmap s (setBit s.mem s.vars.pmmBitmap i)

def unlockPage (s : PmmState) (i : ℕ) : PmmState :=
  withBitmap s (clearBit s.mem s.vars.pmmBitmap i)

/-- The variables are those of a kernel booted with this image and map, and the
counter is right. -/
def Consistent (img : KernelImage) (mmap : List MultibootMmapEntry) (s : PmmState) : Prop :=
  s.vars = counted s.mem img.physEnd (maxBlocks mmap)

theorem tracks_iff {m : Bytes} {base blocks : ℕ} {s : PmmState} :
    Tracks physical (fun _ ↦ True) m base blocks s ↔ s = ⟨m, counted m base blocks⟩ := by
  constructor
  · rintro ⟨⟨-, hv⟩, -, hm⟩
    obtain ⟨mem, vars⟩ := s
    exact congrArg₂ Kernel.mk hm hv
  · rintro rfl
    exact ⟨⟨trivial, rfl⟩, rfl, rfl⟩

theorem sees_self (s : PmmState) :
    (Kernel.window physical s.vars).Sees (fun _ ↦ True) s.mem s := ⟨⟨trivial, rfl⟩, rfl, rfl⟩

variable {img : KernelImage} {mmap : List MultibootMmapEntry} {s : PmmState} {i : ℕ}

theorem Consistent.tracks (h : Consistent img mmap s) :
    Tracks physical (fun _ ↦ True) s.mem img.physEnd (maxBlocks mmap) s :=
  tracks_iff.mpr (by rw [← h])

theorem Consistent.bitmap (h : Consistent img mmap s) : s.vars.pmmBitmap = img.physEnd := by
  rw [h]; rfl

theorem Consistent.blocks (h : Consistent img mmap s) : s.vars.pmmMaxBlocks = maxBlocks mmap := by
  rw [h]; rfl

theorem Consistent.mem_free (h : Consistent img mmap s) :
    i ∈ free s ↔ i < maxBlocks mmap ∧ bitAt s.mem img.physEnd i = false := by
  rw [free, h.bitmap, h.blocks, mem_freePages]

theorem consistent_withBitmap (h : Consistent img mmap s) (m : Bytes) :
    Consistent img mmap (withBitmap s m) := by
  rw [withBitmap, h.bitmap, h.blocks]
  rfl

theorem free_lockPage : free (lockPage s i) = (free s).erase i := freePages_setBit

theorem free_unlockPage (h : i < s.vars.pmmMaxBlocks) :
    free (unlockPage s i) = insert i (free s) := freePages_clearBit h

theorem pmmInit_ok (img : KernelImage) (mmap : List MultibootMmapEntry) (s : PmmState) :
    ∃ s', (pmmInit img mmap).run s = .ok () s' ∧ Consistent img mmap s' ∧
      SameOutside s.mem s'.mem img.physEnd (maxBlocks mmap) ∧
      ∀ j, j ∈ free s' ↔ BootFree img mmap j := by
  obtain ⟨m, hr, hout, hm⟩ :=
    pmmInit_returns physical (A := fun _ ↦ True) img mmap s.mem s.vars (fun _ _ _ ↦ trivial)
  obtain ⟨s', hrun, hs'⟩ := hr s (sees_self s)
  have hs := tracks_iff.mp hs'
  subst hs
  refine ⟨_, hrun, rfl, hout, fun j ↦ mem_freePages.trans ?_⟩
  exact and_congr_right fun hj ↦ hm j hj

theorem of_pmmInit {s' : PmmState} (h : (pmmInit img mmap).run s = .ok () s') :
    Consistent img mmap s' ∧ SameOutside s.mem s'.mem img.physEnd (maxBlocks mmap) ∧
      ∀ j, j ∈ free s' ↔ BootFree img mmap j := by
  obtain ⟨s'', hrun, hs⟩ := pmmInit_ok img mmap s
  rw [hrun] at h
  cases h
  exact hs

theorem pmmAllocPage_ok (h : Consistent img mmap s) (hi : IsLeast (free s : Set ℕ) i) :
    pmmAllocPage.run s = .ok (w32 (i * pageSize)) (lockPage s i) := by
  rw [free, h.bitmap, h.blocks] at hi
  obtain ⟨s', hrun, hs'⟩ :=
    pmmAllocPage_returns physical (maxBlocks_lt mmap) (fun _ _ ↦ trivial) hi s h.tracks
  rw [hrun, tracks_iff.mp hs', lockPage, withBitmap, h.bitmap, h.blocks]

theorem pmmAllocPage_none (h : Consistent img mmap s) (hf : free s = ∅) :
    pmmAllocPage.run s = .ok 0 s := by
  rw [free, h.bitmap, h.blocks] at hf
  obtain ⟨s', hrun, hs'⟩ := pmmAllocPage_full physical (fun _ _ ↦ trivial) hf s h.tracks
  rw [hrun, tracks_iff.mp hs', ← tracks_iff.mp h.tracks]

theorem pmmFreePage_ok {ptr : ℕ} (h : Consistent img mmap s) (hlt : ptr / pageSize < maxBlocks mmap)
    (hf : ptr / pageSize ∉ free s) :
    (pmmFreePage ptr).run s = .ok () (unlockPage s (ptr / pageSize)) := by
  have hbit : bitAt s.mem img.physEnd (ptr / pageSize) = true := by
    by_contra hbit
    exact hf (h.mem_free.mpr ⟨hlt, Bool.not_eq_true _ ▸ hbit⟩)
  obtain ⟨s', hrun, hs'⟩ :=
    pmmFreePage_returns physical (maxBlocks_lt mmap) (fun _ _ ↦ trivial) hlt hbit s h.tracks
  rw [hrun, tracks_iff.mp hs', unlockPage, withBitmap, h.bitmap, h.blocks]

theorem pmmFreePage_nop {ptr : ℕ} (h : Consistent img mmap s)
    (hf : maxBlocks mmap ≤ ptr / pageSize ∨ ptr / pageSize ∈ free s) :
    (pmmFreePage ptr).run s = .ok () s := by
  obtain ⟨s', hrun, hs'⟩ := pmmFreePage_ignored physical (fun _ _ ↦ trivial)
    (hf.imp_right fun hm ↦ (h.mem_free.mp hm).2) s h.tracks
  rw [hrun, tracks_iff.mp hs', ← tracks_iff.mp h.tracks]

theorem exists_isLeast_free (h : (free s).Nonempty) : ∃ i, IsLeast (free s : Set ℕ) i :=
  ⟨(free s).min' h, (free s).isLeast_min' h⟩

/-- What an allocation can do: take the lowest free page, or find none. -/
theorem pmmAllocPage_cases {s' : PmmState} {p : ℕ} (h : Consistent img mmap s)
    (hr : pmmAllocPage.run s = .ok p s') :
    (∃ i, IsLeast (free s : Set ℕ) i ∧ p = w32 (i * pageSize) ∧ s' = lockPage s i) ∨
      (free s = ∅ ∧ p = 0 ∧ s' = s) := by
  rcases (free s).eq_empty_or_nonempty with he | hne
  · rw [pmmAllocPage_none h he] at hr
    cases hr
    exact .inr ⟨he, rfl, rfl⟩
  · obtain ⟨i, hi⟩ := exists_isLeast_free hne
    rw [pmmAllocPage_ok h hi] at hr
    cases hr
    exact .inl ⟨i, hi, rfl, rfl⟩

/-- What a release can do: release one used page, or nothing. -/
theorem pmmFreePage_cases {s' : PmmState} {p : ℕ} (h : Consistent img mmap s)
    (hr : (pmmFreePage p).run s = .ok () s') :
    (p / pageSize < maxBlocks mmap ∧ p / pageSize ∉ free s ∧ s' = unlockPage s (p / pageSize)) ∨
      ((maxBlocks mmap ≤ p / pageSize ∨ p / pageSize ∈ free s) ∧ s' = s) := by
  by_cases hlt : p / pageSize < maxBlocks mmap
  · by_cases hf : p / pageSize ∈ free s
    · rw [pmmFreePage_nop h (.inr hf)] at hr
      cases hr
      exact .inr ⟨.inr hf, rfl⟩
    · rw [pmmFreePage_ok h hlt hf] at hr
      cases hr
      exact .inl ⟨hlt, hf, rfl⟩
  · rw [pmmFreePage_nop h (.inl (by omega))] at hr
    cases hr
    exact .inr ⟨.inl (by omega), rfl⟩

/-- Allocating again and again, any free page becomes the next one to be handed out. -/
theorem exists_isLeast_of_mem_free {P : PmmState → Prop} {j : ℕ} (h : Consistent img mmap s)
    (hP : P s) (hstep : ∀ t i, Consistent img mmap t → P t → IsLeast (free t : Set ℕ) i →
      P (lockPage t i)) (hj : j ∈ free s) :
    ∃ t, Consistent img mmap t ∧ P t ∧ IsLeast (free t : Set ℕ) j := by
  induction hn : #(free s) using Nat.strong_induction_on generalizing s with
  | _ n ih =>
    obtain ⟨i, hi⟩ := exists_isLeast_free ⟨j, hj⟩
    by_cases hij : i = j
    · subst hij
      exact ⟨s, h, hP, hi⟩
    · have hj' : j ∈ free (lockPage s i) := by
        rw [free_lockPage]
        exact mem_erase_of_ne_of_mem (Ne.symm hij) hj
      have hlt : #(free (lockPage s i)) < n := by
        rw [free_lockPage, ← hn]
        exact card_erase_lt_of_mem (mem_coe.mp hi.1)
      exact ih _ hlt (consistent_withBitmap h _) (hstep s i h hP hi) hj' rfl

/-- The page at `p` has a byte in `[lo, hi)`. -/
def Overlaps (p lo hi : ℕ) : Prop := ∃ a, p ≤ a ∧ a < p + pageSize ∧ lo ≤ a ∧ a < hi

/-- A page outside the reserved blocks has no byte of the kernel image and none of
the bitmap. -/
theorem not_overlaps_of_not_reserved {i : ℕ}
    (h : ¬ Reserved img (maxBlocks mmap) i) :
    ¬ Overlaps (i * pageSize) img.physStart img.physEnd ∧
      ¬ Overlaps (i * pageSize) img.physEnd (img.physEnd + bitmapSize (maxBlocks mmap)) := by
  have hs := physStart_eq img
  have he := physEnd_eq img
  have hle := img.start_le
  unfold Reserved at h
  rw [kernelAndBitmapEndBlock_eq (maxBlocks_lt mmap), kernelStartBlock, hs] at h
  unfold Overlaps
  unfold pageSize at h ⊢
  constructor <;> rintro ⟨a, _, _, _, _⟩ <;> omega

end KevOS.Pmm.Physical
