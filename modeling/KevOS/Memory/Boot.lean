import KevOS.Memory.Frames

namespace KevOS.Memory.Boot

open Lib.Program Lib.ByteMemory Lib.Bits Lib.Paging Machine Pmm Bitmap Pmm.Init Pmm.Refinement
open Vmm Vmm.Init MapPage Frames Finset

/-- As `boot.S` calls `kernel_main`. -/
structure Entered (P : Platform) (s : Paged) : Prop where
  cr3 : s.mem.cr3 = P.boot.bootPageDirectory
  loaded : P.boot.Loaded s.mem.mem

/-- As `vmm_init` comes back, with its directory and its first table in the two lowest
free pages. -/
structure Started (P : Platform) (dir table : ℕ) (s : Paged) : Prop where
  cr3 : s.mem.cr3 = dir
  vars : s.vars = counted s.mem.mem P.base P.blocks
  hierarchy : Hierarchy Shared s.mem.mem dir
  identity : Identity s.mem.mem dir table
  slots : ∀ d < 1023, Present (entry s.mem.mem dir d) ↔ Shared d
  frames : ∀ d < 1023, Present (entry s.mem.mem dir d) → frameOf (entry s.mem.mem dir d) = table
  ordered : dir < table
  dir_taken : IsLeast {i | BootFree P.img P.mmap i} (dir / 4096)
  table_taken : BootFree P.img P.mmap (table / 4096)
  free : ∀ i, i ∈ P.free s.mem.mem ↔
    BootFree P.img P.mmap i ∧ i ≠ dir / 4096 ∧ i ≠ table / 4096

section Platforms

variable {P : Platform} {m : Bytes} {d₀ t₀ i a : ℕ}

/-- The image with the tables of `boot.S` ends where the bitmap begins. -/
theorem lowAddress_of_inBitmap (ha : P.InBitmap a) :
    LowAddress P.boot.bootPageDirectory P.boot.bootPageTable1 a := by
  obtain ⟨-, hend⟩ := P.boot_inside
  have hlow := P.bitmap_low
  obtain ⟨hlo, hhi⟩ := ha
  unfold Platform.base at hlo hhi
  unfold BootTables.bootPageTable1 at *
  refine ⟨lt_of_lt_of_le hhi hlow, ?_, ?_⟩ <;>
  · unfold InPage
    omega

/-- A free page below 4 MiB holds none of the tables of `boot.S`. -/
theorem lowFrame_of_bootFree (hi : BootFree P.img P.mmap i) (hlt : i < 1024) :
    P.boot.LowFrame (4096 * i) := by
  obtain ⟨hstart, hend⟩ := P.boot_inside
  have hdvd := P.boot.aligned
  have hblocks : kernelAndBitmapEndBlock P.img (maxBlocks P.mmap) = _ :=
    kernelAndBitmapEndBlock_eq (maxBlocks_lt P.mmap)
  have hres := hi.2.2
  unfold Reserved kernelStartBlock pageSize at hres
  rw [hblocks] at hres
  have hdiv : 4096 * i / 4096 = i := Nat.mul_div_cancel_left _ (by decide)
  unfold BootTables.bootPageTable1 at hend
  refine ⟨Nat.dvd_mul_right .., ?_, fun heq ↦ hres ?_, fun heq ↦ hres ?_⟩
  · unfold identityLimit
    omega
  · omega
  · unfold BootTables.bootPageTable1 at heq
    omega

theorem not_inBitmap_of_bootFree (hi : BootFree P.img P.mmap i) (ha : InPage (4096 * i) a) :
    ¬ P.InBitmap a := by
  have hdiv : 4096 * i / 4096 = i := Nat.mul_div_cancel_left _ (by decide)
  have hun : P.Unreserved (4096 * i) := by
    unfold Platform.Unreserved
    rw [hdiv]
    exact hi.2.2
  exact hun.not_inBitmap (Nat.dvd_mul_right ..) ha.1 ha.2

theorem exists_least_pages (hm : ∀ i, i ∈ P.free m ↔ BootFree P.img P.mmap i) :
    ∃ i j, IsLeast (P.free m : Set ℕ) i ∧ IsLeast ((P.free m).erase i : Set ℕ) j ∧ i < j ∧ j < 1024 := by
  obtain ⟨k, l, hkl, hl, hk', hl'⟩ := P.frames_low
  rw [← hm] at hk' hl'
  set i := (P.free m).min' ⟨k, hk'⟩
  have hi : IsLeast (P.free m : Set ℕ) i := isLeast_min' ..
  have hle : i ≤ k := hi.2 (mem_coe.mpr hk')
  have hmem : l ∈ (P.free m).erase i := mem_erase.mpr ⟨by omega, hl'⟩
  set j := ((P.free m).erase i).min' ⟨l, hmem⟩
  have hj : IsLeast ((P.free m).erase i : Set ℕ) j := isLeast_min' ..
  have hle' : j ≤ l := hj.2 (mem_coe.mpr hmem)
  obtain ⟨hne, hfree⟩ := mem_erase.mp (mem_coe.mp hj.1)
  have hij : i ≤ j := hi.2 (mem_coe.mpr hfree)
  exact ⟨i, j, hi, hj, by omega, by omega⟩

end Platforms

section Run

variable {P : Platform} {s : Paged} {m : Bytes} {i j : ℕ}

/-- The tables `vmm_init` builds in two free pages, as the rest of the kernel finds them. -/
theorem started_of_pages (hi : BootFree P.img P.mmap i) (hj : BootFree P.img P.mmap j)
    (hij : i < j) (hj' : j < 1024) (hleast : ∀ k, BootFree P.img P.mmap k → i ≤ k)
    (hzero : ∀ d < 1024, entry m (4096 * i) d = 0)
    (hfree : ∀ k, k ∈ P.free m ↔ BootFree P.img P.mmap k ∧ k ≠ i ∧ k ≠ j) :
    Started P (4096 * i) (4096 * j)
      ⟨⟨started m (4096 * i) (4096 * j), 4096 * i⟩, counted m P.base P.blocks⟩ := by
  have hdi : 4096 * i / 4096 = i := Nat.mul_div_cancel_left _ (by decide)
  have hdj : 4096 * j / 4096 = j := Nat.mul_div_cancel_left _ (by decide)
  have hi4 : 4096 ∣ 4096 * i := Nat.dvd_mul_right ..
  have hj4 : 4096 ∣ 4096 * j := Nat.dvd_mul_right ..
  have hne : 4096 * i ≠ 4096 * j := by omega
  have hilt : 4096 * i < 4294967296 := by omega
  have hjlt : 4096 * j < 4294967296 := by omega
  have hbitmap (a : ℕ) (ha : P.InBitmap a) : started m (4096 * i) (4096 * j) a = m a :=
    started_of_not_inPage (fun hin ↦ not_inBitmap_of_bootFree hi hin ha)
      (fun hin ↦ not_inBitmap_of_bootFree hj hin ha)
  have hid := started_identity hi4 hj4 hne hilt hjlt hzero
  refine ⟨rfl, (Platform.counted_congr hbitmap).symm,
    started_hierarchy hi4 hj4 hne hilt hjlt hzero, hid, fun d hd ↦ ?_, fun d hd hp ↦ ?_, by omega,
    ?_, hdj.symm ▸ hj, fun k ↦ ?_⟩
  · obtain ⟨hs, heq⟩ | ⟨hs, hp⟩ := started_slot hi4 hj4 hne hilt hjlt hzero hd
    · rw [heq, present_add hj4]
      exact iff_of_true (by decide) hs
    · exact iff_of_false hp hs
  · obtain ⟨-, heq⟩ | ⟨-, hnot⟩ := started_slot hi4 hj4 hne hilt hjlt hzero hd
    · rw [heq]
      exact frameOf_add hj4 (by decide)
    · exact absurd hp hnot
  · rw [hdi]
    exact ⟨hi, fun k hk ↦ hleast k hk⟩
  · rw [hdi, hdj, Platform.free_congr hbitmap]
    exact hfree k

theorem bootMemory_returns (h : Entered P s) :
    ∃ dir table s', (bootMemory P.img P.mmap).run s = .ok () s' ∧ Started P dir table s' := by
  obtain ⟨⟨m, cr3⟩, e⟩ := s
  obtain ⟨rfl, hloaded⟩ := h
  obtain ⟨m₀, hinit, -, hbits⟩ := pmmInit_returns
    (identityWindow P.boot.bootPageDirectory P.boot.bootPageTable1) P.img P.mmap m e
    fun a ha ha' ↦ lowAddress_of_inBitmap ⟨ha, ha'⟩
  have hfree (k : ℕ) : k ∈ P.free m₀ ↔ BootFree P.img P.mmap k :=
    mem_freePages.trans (and_congr_right (hbits k))
  obtain ⟨i, j, hi, hj, hij, hj'⟩ := exists_least_pages hfree
  have hmemi := mem_coe.mp hi.1
  obtain ⟨hji, hmemj⟩ := mem_erase.mp (mem_coe.mp hj.1)
  have hbi := (hfree i).mp hmemi
  have hbj := (hfree j).mp hmemj
  have hfi := lowFrame_of_bootFree hbi (show i < 1024 by omega)
  have hfj := lowFrame_of_bootFree hbj hj'
  -- The directory is emptied before the table is taken.
  set m₁ := setBit m₀ P.base i
  set m₂ := fill m₁ (4096 * i) 0 4096
  set m₃ := setBit m₂ P.base j
  have hfill (a : ℕ) (ha : P.InBitmap a) : m₂ a = m₁ a := by
    apply fill_of_ne
    by_contra hc
    exact not_inBitmap_of_bootFree hbi ⟨by omega, by omega⟩ ha
  have hfree₁ : P.free m₂ = (P.free m₀).erase i :=
    (Platform.free_congr hfill).trans freePages_setBit
  have hfree₂ : P.free m₃ = ((P.free m₀).erase i).erase j := by
    rw [← hfree₁]
    exact freePages_setBit
  have hzero (d : ℕ) (hd : d < 1024) : entry m₃ (4096 * i) d = 0 := by
    have hsame : entry m₃ (4096 * i) d = entry m₂ (4096 * i) d := entry_congr (fun a ha ha' ↦
      setBit_of_not_inBitmap hbj.1 fun hin ↦ not_inBitmap_of_bootFree hbi ⟨ha, ha'⟩ hin) hd
    rw [hsame]
    exact entry_fill_self hd
  have halloc₁ := allocPage_returns (fun _ ↦ lowAddress_of_inBitmap) hi
  have halloc₂ := allocPage_returns (m := m₂) (fun _ ↦ lowAddress_of_inBitmap) (hfree₁.symm ▸ hj)
  have hcounted : counted m₂ P.base P.blocks = counted m₁ P.base P.blocks :=
    Platform.counted_congr hfill
  rw [hcounted] at halloc₂
  have hvmm := vmmInit_returns hfi.aligned hfj.aligned (fun _ ↦ hfi.lowAddress)
    (fun _ ↦ hfj.lowAddress) halloc₁ halloc₂
  have hboot : Returns (Low P.boot.bootPageDirectory P.boot.bootPageTable1 e m)
      (bootMemory P.img P.mmap) () (fun s ↦ s = ⟨⟨started m₃ (4096 * i) (4096 * j), 4096 * i⟩,
        counted m₃ P.base P.blocks⟩) := Returns.seq hinit hvmm
  obtain ⟨s', hrun, rfl⟩ := hboot _ (sees_iff.mpr ⟨rfl, hloaded.identity⟩)
  refine ⟨4096 * i, 4096 * j, _, hrun, started_of_pages hbi hbj hij hj' (fun k hk ↦ ?_) hzero
    fun k ↦ ?_⟩
  · exact hi.2 (mem_coe.mpr ((hfree k).mpr hk))
  · rw [hfree₂, mem_erase, mem_erase, hfree]
    tauto

end Run

end KevOS.Memory.Boot
