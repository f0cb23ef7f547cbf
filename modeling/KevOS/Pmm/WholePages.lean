import KevOS.Pmm.Survival

namespace KevOS.Pmm.WholePages

open Lib.Program Machine Init Physical Refinement Survival

/-- Available memory ends at 4 GiB or below. -/
def EndsBy4G (mmap : List MultibootMmapEntry) : Prop :=
  ∀ entry ∈ mmap, entry.type = multibootMemoryAvailable →
    entry.addr.toNat + entry.len.toNat ≤ 0x100000000

def Contains (entry : MultibootMmapEntry) (a : ℕ) : Prop :=
  entry.addr.toNat ≤ a ∧ a < entry.addr.toNat + entry.len.toNat

def Available (mmap : List MultibootMmapEntry) (a : ℕ) : Prop :=
  ∃ entry ∈ mmap, entry.type = multibootMemoryAvailable ∧ Contains entry a

/-- Some entry of another type has the address `a`. -/
def Withheld (mmap : List MultibootMmapEntry) (a : ℕ) : Prop :=
  ∃ entry ∈ mmap, entry.type ≠ multibootMemoryAvailable ∧ Contains entry a

/-- The pages whose bit is clear are available as a whole, and every page is among them that
lies in one available entry, apart from other entries, the kernel image and the bitmap. -/
structure OnlyWholePages (img : KernelImage) (mmap : List MultibootMmapEntry) (s : PmmState) :
    Prop where
  available : ∀ j ∈ free s, ∀ a, InPage (j * pageSize) a → Available mmap a
  not_withheld : ∀ j ∈ free s, ∀ a, InPage (j * pageSize) a → ¬ Withheld mmap a
  complete : ∀ j < s.vars.pmmMaxBlocks,
    (∃ entry ∈ mmap, entry.type = multibootMemoryAvailable ∧
      ∀ a, InPage (j * pageSize) a → Contains entry a) →
    (∀ a, InPage (j * pageSize) a → ¬ Withheld mmap a) →
    ¬ Overlaps (j * pageSize) img.physStart img.physEnd →
    ¬ Overlaps (j * pageSize) img.physEnd (img.physEnd + bitmapSize s.vars.pmmMaxBlocks) →
    j ∈ free s

/-- Page `j` is one of the `block_count` pages from `block_start` on. -/
def InBlocks (entry : MultibootMmapEntry) (j : ℕ) : Prop :=
  entry.addr.toNat / pageSize ≤ j ∧
    j < entry.addr.toNat / pageSize + entry.len.toNat / pageSize

/-- When rounding the start and the length of every available entry down makes no difference. -/
structure RoundsWell (img : KernelImage) (mmap : List MultibootMmapEntry) : Prop where
  first : ∀ entry ∈ mmap, entry.type = multibootMemoryAvailable →
    ¬ pageSize ∣ entry.addr.toNat → pageSize ≤ entry.len.toNat →
    Reserved img (maxBlocks mmap) (entry.addr.toNat / pageSize) ∨
      ∀ a, InPage (entry.addr.toNat / pageSize * pageSize) a → Available mmap a
  withheld : ∀ entry ∈ mmap, entry.type = multibootMemoryAvailable → ∀ j, InBlocks entry j →
    Reserved img (maxBlocks mmap) j ∨ ∀ a, InPage (j * pageSize) a → ¬ Withheld mmap a
  last : ∀ entry ∈ mmap, entry.type = multibootMemoryAvailable →
    pageSize ≤ entry.addr.toNat % pageSize + entry.len.toNat % pageSize →
    pageSize ≤ entry.len.toNat →
    Reserved img (maxBlocks mmap) (entry.addr.toNat / pageSize + entry.len.toNat / pageSize) ∨
      (∃ a, InPage ((entry.addr.toNat / pageSize + entry.len.toNat / pageSize) * pageSize) a ∧
        Withheld mmap a) ∨
      ∃ other ∈ mmap, other.type = multibootMemoryAvailable ∧
        InBlocks other (entry.addr.toNat / pageSize + entry.len.toNat / pageSize)

variable {img : KernelImage} {mmap : List MultibootMmapEntry} {entry : MultibootMmapEntry}
  {s s' : PmmState} {j : ℕ}

theorem end_le_highest (hmap : EndsBy4G mmap) (hentry : entry ∈ mmap)
    (ht : entry.type = multibootMemoryAvailable) :
    entry.addr.toNat + entry.len.toNat ≤ highestPhysicalAddr mmap := by
  have hle := le_highestPhysicalAddr hentry ht
  have hend := hmap entry hentry ht
  rwa [w64, Nat.mod_eq_of_lt (by omega)] at hle

theorem maxBlocks_eq (hmap : EndsBy4G mmap) : maxBlocks mmap = highestPhysicalAddr mmap / 4096 := by
  have hle : highestPhysicalAddr mmap ≤ 0x100000000 := highestPhysicalAddr_le hmap
  unfold maxBlocks pageSize
  exact w32_of_lt (by omega)

/-- A page that begins inside an available entry's blocks has its bit in the bitmap. -/
theorem lt_maxBlocks (hmap : EndsBy4G mmap) (hentry : entry ∈ mmap)
    (ht : entry.type = multibootMemoryAvailable)
    (hj : j * 4096 + 4096 ≤ entry.addr.toNat + entry.len.toNat) : j < maxBlocks mmap := by
  have hle := end_le_highest hmap hentry ht
  rw [maxBlocks_eq hmap]
  omega

theorem released_iff (hmap : EndsBy4G mmap) : Released mmap j ↔
    ∃ entry ∈ mmap, entry.type = multibootMemoryAvailable ∧ InBlocks entry j := by
  refine exists_congr fun entry ↦ and_congr_right fun hentry ↦ and_congr_right fun ht ↦ ?_
  have hend := hmap entry hentry ht
  unfold MultibootMmapEntry.blockCount MultibootMmapEntry.blockStart InBlocks pageSize
  rw [w32_of_lt (by omega), w32_of_lt (by omega)]
  constructor
  · rintro ⟨i, hi, rfl⟩
    rw [w32_of_lt (by omega)]
    omega
  · rintro ⟨hle, hlt⟩
    refine ⟨j - entry.addr.toNat / 4096, by omega, ?_⟩
    rw [w32_of_lt (by omega)]
    omega

/-- A page is free after boot if some available entry's blocks have it and it is not locked
for the kernel. -/
theorem bootFree_iff (hmap : EndsBy4G mmap) : BootFree img mmap j ↔
    (∃ entry ∈ mmap, entry.type = multibootMemoryAvailable ∧ InBlocks entry j) ∧
      ¬ Reserved img (maxBlocks mmap) j := by
  rw [BootFree, released_iff hmap]
  refine and_iff_right_of_imp fun h ↦ ?_
  obtain ⟨⟨entry, hentry, ht, hle, hlt⟩, -⟩ := h
  apply lt_maxBlocks hmap hentry ht
  unfold pageSize at hle hlt
  omega

/-- The locked pages are those that have a byte of the image or of the bitmap. -/
theorem reserved_iff : Reserved img (maxBlocks mmap) j ↔
    Overlaps (j * pageSize) img.physStart img.physEnd ∨
      Overlaps (j * pageSize) img.physEnd (img.physEnd + bitmapSize (maxBlocks mmap)) := by
  constructor
  · intro h
    have hs := physStart_eq img
    obtain ⟨hle, hlt⟩ := h
    rw [kernelStartBlock, hs] at hle
    rw [kernelAndBitmapEndBlock_eq (maxBlocks_lt mmap)] at hlt
    unfold pageSize at hle
    by_cases himage : j * pageSize < img.physEnd
    · refine .inl ⟨j * pageSize, le_rfl, ?_, ?_, himage⟩ <;> unfold pageSize <;> omega
    · refine .inr ⟨j * pageSize, le_rfl, ?_, not_lt.mp himage, ?_⟩ <;> unfold pageSize <;> omega
  · rintro h
    by_contra hres
    obtain ⟨himage, hbitmap⟩ := not_overlaps_of_not_reserved hres
    exact h.elim himage hbitmap

/-- The blocks of an entry are whole, but for the first one of an entry that begins inside
a page. -/
theorem contains_of_inBlocks {a : ℕ} (hj : InBlocks entry j) (ha : InPage (j * pageSize) a)
    (hfirst : pageSize ∣ entry.addr.toNat ∨ j ≠ entry.addr.toNat / pageSize) :
    Contains entry a := by
  unfold InBlocks InPage Contains pageSize at *
  omega

/-- A whole page of an entry is one of its blocks, or the one right behind them. -/
theorem inBlocks_of_contains (hj : ∀ a, InPage (j * pageSize) a → Contains entry a) :
    InBlocks entry j ∨ (j = entry.addr.toNat / pageSize + entry.len.toNat / pageSize ∧
      pageSize ≤ entry.addr.toNat % pageSize + entry.len.toNat % pageSize ∧
      pageSize ≤ entry.len.toNat) := by
  have hlow := hj (j * pageSize) ⟨le_rfl, by unfold pageSize; omega⟩
  have hhigh := hj (j * pageSize + 4095) ⟨by omega, by unfold pageSize; omega⟩
  unfold InBlocks Contains pageSize at *
  omega

theorem contains_last {a : ℕ}
    (hlast : pageSize ≤ entry.addr.toNat % pageSize + entry.len.toNat % pageSize)
    (hlen : pageSize ≤ entry.len.toNat)
    (ha : InPage ((entry.addr.toNat / pageSize + entry.len.toNat / pageSize) * pageSize) a) :
    Contains entry a := by
  unfold InPage Contains pageSize at *
  omega

theorem onlyWholePages_of_roundsWell (hmap : EndsBy4G mmap) (hc : Consistent img mmap s)
    (hfree : ∀ j, j ∈ free s ↔ BootFree img mmap j) (hw : RoundsWell img mmap) :
    OnlyWholePages img mmap s where
  available j hj a ha := by
    rw [hfree, bootFree_iff hmap] at hj
    obtain ⟨⟨entry, hentry, ht, hblock⟩, hres⟩ := hj
    by_cases hfirst : pageSize ∣ entry.addr.toNat ∨ j ≠ entry.addr.toNat / pageSize
    · exact ⟨entry, hentry, ht, contains_of_inBlocks hblock ha hfirst⟩
    · rw [not_or, not_not] at hfirst
      obtain ⟨hdvd, rfl⟩ := hfirst
      have hlen : pageSize ≤ entry.len.toNat := by
        unfold InBlocks pageSize at *
        omega
      exact (hw.first entry hentry ht hdvd hlen).resolve_left hres a ha
  not_withheld j hj a ha := by
    rw [hfree, bootFree_iff hmap] at hj
    obtain ⟨⟨entry, hentry, ht, hblock⟩, hres⟩ := hj
    exact (hw.withheld entry hentry ht j hblock).resolve_left hres a ha
  complete j hj hwhole hnot himage hbitmap := by
    rw [hc.blocks] at hbitmap
    have hres : ¬ Reserved img (maxBlocks mmap) j := fun h ↦
      (reserved_iff.mp h).elim himage hbitmap
    obtain ⟨entry, hentry, ht, hwhole⟩ := hwhole
    rw [hfree, bootFree_iff hmap]
    refine ⟨?_, hres⟩
    obtain hblock | ⟨rfl, hround, hlen⟩ := inBlocks_of_contains hwhole
    · exact ⟨entry, hentry, ht, hblock⟩
    · obtain h | ⟨a, ha, hwith⟩ | h := hw.last entry hentry ht hround hlen
      · exact absurd h hres
      · exact absurd hwith (hnot a ha)
      · exact h

theorem roundsWell_of_onlyWholePages (hmap : EndsBy4G mmap) (hc : Consistent img mmap s)
    (hfree : ∀ j, j ∈ free s ↔ BootFree img mmap j) (ho : OnlyWholePages img mmap s) :
    RoundsWell img mmap where
  first entry hentry ht _ hlen := by
    refine or_iff_not_imp_left.mpr fun hres a ha ↦ ho.available _ ?_ a ha
    rw [hfree, bootFree_iff hmap]
    refine ⟨⟨entry, hentry, ht, le_rfl, ?_⟩, hres⟩
    unfold pageSize at *
    omega
  withheld entry hentry ht j hblock := by
    refine or_iff_not_imp_left.mpr fun hres a ha ↦ ho.not_withheld j ?_ a ha
    rw [hfree, bootFree_iff hmap]
    exact ⟨⟨entry, hentry, ht, hblock⟩, hres⟩
  last entry hentry ht hround hlen := by
    refine or_iff_not_imp_left.mpr fun hres ↦ or_iff_not_imp_left.mpr fun hnot ↦ ?_
    have hcontains := fun a ↦ contains_last (a := a) hround hlen
    set j := entry.addr.toNat / pageSize + entry.len.toNat / pageSize with hj
    have hlt : j < maxBlocks mmap := by
      apply lt_maxBlocks hmap hentry ht
      unfold pageSize at *
      omega
    have hover := not_overlaps_of_not_reserved hres
    rw [← hc.blocks] at hlt hover
    have hmem := ho.complete j hlt ⟨entry, hentry, ht, hcontains⟩
      (fun a ha hwith ↦ hnot ⟨a, ha, hwith⟩) hover.1 hover.2
    rw [hfree, bootFree_iff hmap] at hmem
    exact hmem.1

/-- Exactly the whole pages of available memory are free after boot, apart from those of the
kernel, if and only if the rounding of each entry makes no difference. -/
theorem pmmInit_onlyWholePages_iff (img : KernelImage) (mmap : List MultibootMmapEntry)
    (s : PmmState) (hmap : ∀ entry ∈ mmap, entry.type = multibootMemoryAvailable →
      entry.addr.toNat + entry.len.toNat ≤ 0x100000000) :
    ∃ s', (pmmInit img mmap).run s = .ok () s' ∧
      (OnlyWholePages img mmap s' ↔ RoundsWell img mmap) := by
  obtain ⟨s', hr, hc, -, hfree⟩ := pmmInit_ok img mmap s
  exact ⟨s', hr, roundsWell_of_onlyWholePages hmap hc hfree,
    onlyWholePages_of_roundsWell hmap hc hfree⟩

theorem pmmInit_onlyWholePages_iff_smallPc : ∃ s',
    (pmmInit smallImage smallPc).run ⟨fun _ ↦ 0, .initial⟩ = .ok () s' ∧
      (OnlyWholePages smallImage smallPc s' ↔ RoundsWell smallImage smallPc) :=
  pmmInit_onlyWholePages_iff smallImage smallPc ⟨fun _ ↦ 0, .initial⟩ fun entry hentry ht ↦
    (endsBelow4G_smallPc entry hentry ht).le

/-- A PC whose first 2 KiB are not available. -/
def lateStart : List MultibootMmapEntry := [⟨0x800, 0x9F400, 1⟩]

/-- Page 0 is free after boot, but its first byte is in no entry. -/
theorem page_zero_free_lateStart : ∃ s',
    (pmmInit smallImage lateStart).run ⟨fun _ ↦ 0, .initial⟩ = .ok () s' ∧ 0 ∈ free s' ∧
      ¬ Available lateStart 0 ∧ ¬ OnlyWholePages smallImage lateStart s' := by
  obtain ⟨s', hr, -, -, hfree⟩ := pmmInit_ok smallImage lateStart ⟨fun _ ↦ 0, .initial⟩
  have hnot : ¬ Available lateStart 0 := by
    unfold Available Contains lateStart
    decide
  have hmem : 0 ∈ free s' := by
    rw [hfree]
    refine ⟨by decide, ⟨⟨0x800, 0x9F400, 1⟩, by simp [lateStart], rfl, 0, by decide, by decide⟩, ?_⟩
    unfold Reserved
    decide
  exact ⟨s', hr, hmem, hnot, fun h ↦ hnot (h.available 0 hmem 0 ⟨le_rfl, by decide⟩)⟩

end KevOS.Pmm.WholePages
