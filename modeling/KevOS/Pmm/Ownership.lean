import KevOS.Pmm.Refinement

namespace KevOS.Pmm.Ownership

open Lib.Program Lib.ByteMemory Machine Bitmap Init Physical Refinement Finset

/-- Runs that release only held pages, with the addresses held and, for each one,
the page whose bit its allocation set. A null pointer is not held. -/
inductive Held (img : KernelImage) (mmap : List MultibootMmapEntry) :
    PmmState → List (ℕ × ℕ) → Prop
  | boot {s₀ s : PmmState} : (pmmInit img mmap).run s₀ = .ok () s → Held img mmap s []
  | alloc {s s' : PmmState} {p i : ℕ} {h : List (ℕ × ℕ)} : Held img mmap s h →
      pmmAllocPage.run s = .ok p s' → p ≠ 0 → i ∈ free s → free s' = (free s).erase i →
      Held img mmap s' ((p, i) :: h)
  | null {s s' : PmmState} {h : List (ℕ × ℕ)} : Held img mmap s h →
      pmmAllocPage.run s = .ok 0 s' → Held img mmap s' h
  | release {s s' : PmmState} {p i : ℕ} {h : List (ℕ × ℕ)} : Held img mmap s h →
      (p, i) ∈ h → (pmmFreePage p).run s = .ok () s' → Held img mmap s' (h.erase (p, i))

/-- The address handed out for page `i` is the page's own, and releasing it
releases page `i` and no other. -/
structure Owns (img : KernelImage) (s : PmmState) (p i : ℕ) : Prop where
  address : p = 4096 * i
  image : ¬ Overlaps p img.physStart img.physEnd
  bitmap : ¬ Overlaps p img.physEnd (img.physEnd + bitmapSize s.vars.pmmMaxBlocks)
  used : i ∈ used s
  release : ∃ s', (pmmFreePage p).run s = .ok () s' ∧ Physical.used s' = (Physical.used s).erase i

def Exclusive (img : KernelImage) (s : PmmState) (h : List (ℕ × ℕ)) : Prop :=
  (h.map Prod.fst).Nodup ∧ ∀ p i, (p, i) ∈ h → Owns img s p i

/-- The page's address fits a 32-bit pointer, or is cut down to the null pointer. -/
def Addressable (j : ℕ) : Prop := j < 1048576 ∨ 1048576 ∣ j

variable {img : KernelImage} {mmap : List MultibootMmapEntry} {s s' : PmmState}
  {h : List (ℕ × ℕ)} {p i j : ℕ}

theorem w32_page_of_lt (hj : j < 1048576) : w32 (j * pageSize) = 4096 * j := by
  unfold pageSize
  rw [w32_of_lt (by omega), Nat.mul_comm]

theorem w32_page_of_dvd (hj : 1048576 ∣ j) : w32 (j * pageSize) = 0 := by
  obtain ⟨k, rfl⟩ := hj
  unfold w32 pageSize
  omega

/-- Every page that is free after boot goes out in some run. -/
theorem exists_held_of_bootFree (hj : BootFree img mmap j) (hne : w32 (j * pageSize) ≠ 0) :
    ∃ s h, Held img mmap s ((w32 (j * pageSize), j) :: h) := by
  obtain ⟨s, hr, hc, -, hfree⟩ := pmmInit_ok img mmap ⟨fun _ ↦ 0, .initial⟩
  have hstep (t : PmmState) (i : ℕ) (ht : Consistent img mmap t) (hh : ∃ h, Held img mmap t h)
      (hi : IsLeast (free t : Set ℕ) i) : ∃ h, Held img mmap (lockPage t i) h := by
    obtain ⟨h, hh⟩ := hh
    have hr := pmmAllocPage_ok ht hi
    by_cases hp : w32 (i * pageSize) = 0
    · rw [hp] at hr
      exact ⟨h, .null hh hr⟩
    · exact ⟨_, .alloc hh hr hp (mem_coe.mp hi.1) free_lockPage⟩
  obtain ⟨t, hc', ⟨h, hh⟩, hleast⟩ :=
    exists_isLeast_of_mem_free hc ⟨[], .boot hr⟩ hstep ((hfree j).mpr hj)
  exact ⟨_, h, .alloc hh (pmmAllocPage_ok hc' hleast) hne (mem_coe.mp hleast.1) free_lockPage⟩

/-- The invariant of runs on a map all of whose free pages are addressable. -/
structure HeldInv (img : KernelImage) (mmap : List MultibootMmapEntry) (s : PmmState)
    (h : List (ℕ × ℕ)) : Prop where
  consistent : Consistent img mmap s
  free_inv : ∀ j ∈ free s, Addressable j ∧ ¬ Reserved img (maxBlocks mmap) j
  nodup : (h.map Prod.fst).Nodup
  held_inv : ∀ p i, (p, i) ∈ h → p = 4096 * i ∧ i < 1048576 ∧ i < maxBlocks mmap ∧ i ∉ free s ∧
    ¬ Reserved img (maxBlocks mmap) i

theorem HeldInv.boot (hmap : ∀ j, BootFree img mmap j → Addressable j) {s₀ : PmmState}
    (hr : (pmmInit img mmap).run s₀ = .ok () s) : HeldInv img mmap s [] := by
  obtain ⟨hc, -, hf⟩ := of_pmmInit hr
  exact ⟨hc, fun j hj ↦ ⟨hmap j ((hf j).mp hj), ((hf j).mp hj).2.2⟩, List.nodup_nil, by simp⟩

theorem HeldInv.lock (hi : HeldInv img mmap s h) (i : ℕ) : HeldInv img mmap (lockPage s i) h where
  consistent := consistent_withBitmap hi.consistent _
  free_inv j hj := by
    rw [free_lockPage] at hj
    exact hi.free_inv j (mem_of_mem_erase hj)
  nodup := hi.nodup
  held_inv p k hk := by
    obtain ⟨hp, hlt, hmax, hfree, hres⟩ := hi.held_inv p k hk
    rw [free_lockPage]
    exact ⟨hp, hlt, hmax, fun hmem ↦ hfree (mem_of_mem_erase hmem), hres⟩

theorem HeldInv.alloc (hi : HeldInv img mmap s h) (hr : pmmAllocPage.run s = .ok p s')
    (hp : p ≠ 0) (hmem : i ∈ free s) (hfree : free s' = (free s).erase i) :
    HeldInv img mmap s' ((p, i) :: h) := by
  obtain ⟨k, hk, rfl, rfl⟩ | ⟨-, rfl, -⟩ := pmmAllocPage_cases hi.consistent hr
  · have hkmem := mem_coe.mp hk.1
    -- The bit that changed is the one of the page taken.
    have hki : k = i := by
      rw [free_lockPage] at hfree
      by_contra hne
      have hk' : k ∈ (free s).erase i := mem_erase_of_ne_of_mem hne hkmem
      rw [← hfree] at hk'
      exact notMem_erase k _ hk'
    subst hki
    obtain ⟨haddr, hres⟩ := hi.free_inv k hkmem
    have hlt : k < 1048576 := haddr.resolve_right fun hd ↦ hp (w32_page_of_dvd hd)
    have hmax := (hi.consistent.mem_free.mp hkmem).1
    have hl := hi.lock k
    refine ⟨hl.consistent, hl.free_inv, ?_, fun q j hq ↦ ?_⟩
    · refine List.nodup_cons.mpr ⟨fun hin ↦ ?_, hi.nodup⟩
      obtain ⟨⟨q, j⟩, hq, hqp⟩ := List.mem_map.mp hin
      obtain ⟨rfl, hj, -, hnot, -⟩ := hi.held_inv q j hq
      rw [w32_page_of_lt hlt] at hqp
      have hjk : j = k := by
        dsimp only at hqp
        omega
      exact hnot (hjk ▸ hmem)
    · rcases List.mem_cons.mp hq with heq | hq
      · cases heq
        exact ⟨w32_page_of_lt hlt, hlt, hmax, by simp [free_lockPage], hres⟩
      · exact hl.held_inv q j hq
  · exact absurd rfl hp

theorem HeldInv.null (hi : HeldInv img mmap s h) (hr : pmmAllocPage.run s = .ok p s') :
    HeldInv img mmap s' h := by
  obtain ⟨k, -, -, rfl⟩ | ⟨-, -, rfl⟩ := pmmAllocPage_cases hi.consistent hr
  · exact hi.lock k
  · exact hi

theorem HeldInv.run_release (hi : HeldInv img mmap s h) (hp : (p, i) ∈ h) :
    (pmmFreePage p).run s = .ok () (unlockPage s i) := by
  obtain ⟨rfl, -, hmax, hfree, -⟩ := hi.held_inv p i hp
  have hdiv : 4096 * i / pageSize = i := Nat.mul_div_cancel_left i (by decide)
  have hlt : 4096 * i / pageSize < maxBlocks mmap := by rwa [hdiv]
  have hr := pmmFreePage_ok hi.consistent hlt (by rwa [hdiv])
  rwa [hdiv] at hr

theorem HeldInv.release (hi : HeldInv img mmap s h) (hp : (p, i) ∈ h) :
    HeldInv img mmap (unlockPage s i) (h.erase (p, i)) := by
  obtain ⟨rfl, hlt, hmax, -, hres⟩ := hi.held_inv p i hp
  have hfree := free_unlockPage (s := s) (i := i) (by rwa [hi.consistent.blocks])
  have hnd : h.Nodup := hi.nodup.of_map
  refine ⟨consistent_withBitmap hi.consistent _, fun j hj ↦ ?_, ?_, fun q k hq ↦ ?_⟩
  · rw [hfree] at hj
    rcases mem_insert.mp hj with rfl | hj
    · exact ⟨.inl hlt, hres⟩
    · exact hi.free_inv j hj
  · exact hi.nodup.sublist (List.erase_sublist.map _)
  · obtain ⟨hne, hq⟩ := hnd.mem_erase_iff.mp hq
    obtain ⟨rfl, hlt', hmax', hnot, hres'⟩ := hi.held_inv q k hq
    refine ⟨rfl, hlt', hmax', fun hmem ↦ ?_, hres'⟩
    rw [hfree] at hmem
    rcases mem_insert.mp hmem with rfl | hmem
    · exact hne rfl
    · exact hnot hmem

theorem held_inv (hmap : ∀ j, BootFree img mmap j → Addressable j) (hh : Held img mmap s h) :
    HeldInv img mmap s h := by
  induction hh with
  | boot hr => exact .boot hmap hr
  | alloc _ hr hp hmem hfree ih => exact ih.alloc hr hp hmem hfree
  | null _ hr ih => exact ih.null hr
  | release _ hp hr ih =>
    rw [ih.run_release hp] at hr
    cases hr
    exact ih.release hp

theorem HeldInv.exclusive (hi : HeldInv img mmap s h) : Exclusive img s h := by
  refine ⟨hi.nodup, fun p i hp ↦ ?_⟩
  obtain ⟨rfl, -, hmax, hfree, hres⟩ := hi.held_inv p i hp
  have hover := not_overlaps_of_not_reserved hres
  rw [Nat.mul_comm i pageSize] at hover
  rw [← hi.consistent.blocks] at hover
  refine ⟨rfl, hover.1, hover.2, ?_, _, hi.run_release hp, usedPages_clearBit⟩
  rw [used, mem_usedPages, hi.consistent.bitmap, hi.consistent.blocks]
  refine ⟨hmax, ?_⟩
  rw [hi.consistent.mem_free] at hfree
  simpa [hmax] using hfree

/-- Ownership is exclusive in every run exactly when no page from 4 GiB on is handed
out under the address of a lower one. -/
theorem exclusive_iff_addressable (img : KernelImage) (mmap : List MultibootMmapEntry) :
    (∀ s h, Held img mmap s h → Exclusive img s h) ↔
      ∀ j, BootFree img mmap j → j < 1048576 ∨ 1048576 ∣ j := by
  refine ⟨fun hex j hj ↦ ?_, fun hmap s h hh ↦ (held_inv hmap hh).exclusive⟩
  by_cases hne : w32 (j * pageSize) = 0
  · right
    unfold w32 pageSize at hne
    omega
  · left
    obtain ⟨s, h, hh⟩ := exists_held_of_bootFree hj hne
    have haddr := ((hex s _ hh).2 _ j List.mem_cons_self).address
    have hlt := w32_lt (j * pageSize)
    omega

/-- A PC with 8 GiB: 3 GiB below the PCI hole, 5 GiB from 4 GiB on. -/
def largePc : List MultibootMmapEntry :=
  [⟨0, 0x9FC00, 1⟩, ⟨0x100000, 0xBFF00000, 1⟩, ⟨0x100000000, 0x140000000, 1⟩]

/-- Page 0x100100 of the large PC goes out under the address of the kernel image. -/
theorem held_kernel_page_largePc :
    ∃ s h, Held smallImage largePc s h ∧ ¬ Exclusive smallImage s h := by
  have hblocks : maxBlocks largePc = 0x240000 := by decide
  have hj : BootFree smallImage largePc 0x100100 := by
    refine ⟨by rw [hblocks]; omega, ⟨⟨0x100000000, 0x140000000, 1⟩, by simp [largePc], rfl,
      0x100, by decide, by decide⟩, fun hres ↦ ?_⟩
    have hend : kernelAndBitmapEndBlock smallImage (maxBlocks largePc) = 0x168 := by
      rw [hblocks]
      decide
    have hlt := hres.2
    omega
  obtain ⟨s, h, hh⟩ := exists_held_of_bootFree hj (by decide)
  refine ⟨s, _, hh, fun hex ↦ (hex.2 _ _ List.mem_cons_self).image ⟨0x100000, ?_⟩⟩
  decide

end KevOS.Pmm.Ownership
