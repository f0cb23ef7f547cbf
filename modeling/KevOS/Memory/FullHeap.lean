import KevOS.Memory.HeapRuns

namespace KevOS.Memory.FullHeap

open Lib.Program Lib.ByteMemory Lib.Paging Lib.Tiling Machine Pmm Pmm.Init Pmm.Refinement Vmm
open Vmm.Init Vmm.Mapping Heap Blocks HeapList Allocate Growth Mapped Frames Boot Exhausted Backing HeapWindow HeapRuns
open Finset

section Beyond

variable {P : Platform} {p : Paged} {s s' : HeapState KernelMemory} {G : GrowWindow KernelMemory}
  {dir table total pages n q : ℕ} {m₀ : Bytes} {e : Stop}

/-- With this many frames there is one left for the page behind the last one. -/
theorem kheapExpand_beyond (h : HeapBacked P dir table total m₀ s.mem) (hmany : 195776 ≤ total)
    (hend : s.vars.heapCurrentEnd = heapPage s.mem.vars.length)
    (hpages : 195584 < s.mem.vars.length + pages) :
    ∃ s', (kheapExpand pages).run s = .error .halt s' ∧ vmmPageTables ∈ s'.mem.vars := by
  have htables : 195584 + heapTables 195584 = 195775 := by decide
  have hbounded := h.backed.pages.bounded
  have hlen : s.mem.vars.length ≤ 195584 := by
    unfold heapPage kheapStart vmmPageTables at hbounded
    omega
  obtain ⟨j, hj⟩ := Nat.exists_eq_add_of_le hlen
  have hroom : s.vars.heapCurrentEnd + j * pageSize ≤ heapPage 195584 := by
    rw [hend, hj]
    unfold heapPage pageSize
    omega
  obtain ⟨s₁, hrun⟩ := kheapExpand_many h (by omega) (by decide) hend hroom
  obtain ⟨h₁, hend₁, hlen₁⟩ := kheapExpand_backed h hend hrun
  have hlast : s₁.mem.vars.length = 195584 := hlen₁.trans hj.symm
  have hfree : 0 < #(P.free s₁.mem.mem.mem.mem) := by
    have hcount := h₁.backed.count
    rw [hlast] at hcount
    omega
  obtain ⟨f, t, ht, -⟩ := h₁.took (card_pos.mp hfree)
  have hvirt : s₁.vars.heapCurrentEnd = vmmPageTables := by
    rw [hend₁, hlast]
    decide
  have hback : (backPage s₁.vars.heapCurrentEnd).run s₁.mem =
      .error .halt ⟨t, vmmPageTables :: s₁.mem.vars⟩ := by
    rw [backPage_some ht, hvirt]
    exact mapHeapPage_beyond (s := { s₁.mem with mem := t }) (by decide)
  exact ⟨_, kheapExpand_stops hrun hback (by omega), List.mem_cons_self⟩

/-- With this many frames the last one is for the first page of a table, and the directory
is emptied in place of the table. -/
theorem kheapExpand_directory (h : HeapBacked P dir table total m₀ s.mem) (hdir : dir = 0)
    (htotal : total = 1025 * q + 1) (hfew : total ≤ 195775)
    (hend : s.vars.heapCurrentEnd = heapPage s.mem.vars.length)
    (hlo : s.mem.vars.length ≤ 1024 * q) (hpages : 1024 * q < s.mem.vars.length + pages) :
    ∃ s', (kheapExpand pages).run s = .error .fault s' ∧ entry (memoryOf s') dir 0 = 0 := by
  have htables : 1024 * q + heapTables (1024 * q) = 1025 * q := by
    unfold heapTables
    omega
  have hlimit : heapPage (1024 * q) + 4096 ≤ vmmPageTables := by
    unfold heapPage kheapStart vmmPageTables
    omega
  obtain ⟨j, hj⟩ := Nat.exists_eq_add_of_le hlo
  have hroom : s.vars.heapCurrentEnd + j * pageSize ≤ heapPage (1024 * q) := by
    rw [hend, hj]
    unfold heapPage pageSize
    omega
  obtain ⟨s₁, hrun⟩ := kheapExpand_many h (by omega) (by omega) hend hroom
  obtain ⟨h₁, hend₁, hlen₁⟩ := kheapExpand_backed h hend hrun
  have hlast : s₁.mem.vars.length = 1024 * q := hlen₁.trans hj.symm
  have hone : #(P.free s₁.mem.mem.mem.mem) = 1 := by
    have hcount := h₁.backed.count
    rw [hlast] at hcount
    omega
  obtain ⟨t, hback, hzero⟩ := h₁.grow_directory (by rwa [hlast]) (by omega) hdir hone
  rw [← hend₁] at hback
  exact ⟨_, kheapExpand_stops hrun hback (by omega), hzero⟩

/-- `kheap_init` has mapped the first 512 pages. -/
theorem length_of_init (h : Represented (heapWindow P dir table total m₀) s [initialBlock]
    (kheapStart + kheapInitialSize)) : s.mem.vars.length = 512 := by
  have hend := Represented.heapCurrentEnd h
  rw [h.vars] at hend
  change kheapStart + kheapInitialSize = heapPage s.mem.vars.length at hend
  unfold heapPage kheapInitialSize at hend
  omega

/-- A request for which the heap cannot grow after `kheap_init`. -/
theorem kmalloc_stops (h : Represented G s [initialBlock] (kheapStart + kheapInitialSize))
    (hpages : 512 < pages) (hle : pages ≤ 0xFFFFF)
    (hexp : (kheapExpand pages).run s = .error e s') :
    (kmalloc 1 (pages * pageSize - heapNodeSize)).run s = .error e s' := by
  obtain ⟨n, hn⟩ : ∃ n, n = pages * pageSize - heapNodeSize := ⟨_, rfl⟩
  have hsize : n + 16 = pages * 4096 := by
    unfold pageSize heapNodeSize at hn
    omega
  have hround : roundUp n = n := by
    rw [roundUp_eq (by omega)]
    omega
  have hneeded : pagesNeeded n = pages := by
    unfold pagesNeeded pageSize heapNodeSize
    rw [w32_of_lt (by omega)]
    omega
  have hnone : place n [initialBlock] = none := by
    refine place_eq_none.mpr (List.forall_mem_singleton.mpr fun hfit ↦ ?_)
    have hlt : initialBlock.size = 0x1FFFF0 := by decide
    have hle := hfit.2
    omega
  have hgrows := search_grows (l := []) (c := initialBlock) G.toWindow h.sees h.laid h.blocks hnone 0
  rw [← hn, kmalloc_eq_search (by omega) h, hround]
  refine hgrows.trans (run_bind_error ?_)
  rw [extend, run_get_bind, hneeded]
  exact run_bind_error hexp

theorem not_staysBelow_of_beyond (hmem : vmmPageTables ∈ s'.mem.vars) : ¬ StaysBelow s s' :=
  fun h ↦ lt_irrefl _ (h.addresses _ hmem).2

theorem not_staysBelow_of_emptied (h : HeapBacked P dir table total m₀ s.mem)
    (hzero : entry (memoryOf s') dir 0 = 0) : ¬ StaysBelow s s' := by
  intro hbelow
  have hb := h.backed
  have hp := hb.pages.identity.slot_present
  rw [← hb.cr3] at hp hzero
  have hsame : entry (memoryOf s') s.mem.mem.mem.cr3 0 = entry s.mem.mem.mem.mem s.mem.mem.mem.cr3 0 :=
    hbelow.directory 0 (by decide) hp
  rw [← hsame, hzero] at hp
  exact absurd hp (by decide)

/-- While no request wraps around, the heap stays below the page tables in every run, exactly
when there are few frames, and not just one too few for a table in place of the directory. -/
theorem neverBeyond_iff (hb : Booted P p) : NeverBeyond (· ≤ 0xFFFFEFF0) p ↔ Sparse P p := by
  refine ⟨fun hnever ↦ ?_, neverBeyond_of_sparse hb⟩
  obtain ⟨dir, table, hp⟩ := exists_started hb
  have hstart : HeapBacked P dir table #(P.free p.mem.mem) p.mem.mem (beforeHeap p).mem :=
    heapBacked_of_started hp
  have hcalls {pages : ℕ} {s s' : HeapState KernelMemory} {e : Stop}
      (hinit : kheapInit.run (beforeHeap p) = .ok () s)
      (hrep : Represented (heapWindow P dir table #(P.free p.mem.mem) p.mem.mem) s [initialBlock]
        (kheapStart + kheapInitialSize)) (hpages : 512 < pages) (hle : pages ≤ 0xFFFFF)
      (hexp : (kheapExpand pages).run s = .error e s') : StaysBelow s s' := by
    have hstays := hnever.2 s [] [] (.init hinit) (fun _ hn ↦ (by cases hn)) 1
      (pages * pageSize - heapNodeSize) (by unfold pageSize heapNodeSize; omega)
      (by unfold pageSize heapNodeSize; omega) (by unfold pageSize heapNodeSize; omega)
    rwa [stateAfter_error (kmalloc_stops hrep hpages hle hexp)] at hstays
  have hfew : #(P.free p.mem.mem) ≤ 195775 := by
    by_contra hmany
    obtain ⟨s, hinit, hrep⟩ := kheapInit_many hp (by omega)
    have hlen := length_of_init hrep
    obtain ⟨s', hexp, hmem⟩ := kheapExpand_beyond hrep.inv (by omega)
      (Represented.heapCurrentEnd hrep) (show 195584 < s.mem.vars.length + 195073 by omega)
    exact not_staysBelow_of_beyond hmem (hcalls hinit hrep (by decide) (by decide) hexp)
  refine ⟨hfew, fun hdir hmod ↦ ?_⟩
  rw [hp.cr3] at hdir
  obtain ⟨q, htotal⟩ : ∃ q, #(P.free p.mem.mem) = 1025 * q + 1 :=
    ⟨#(P.free p.mem.mem) / 1025, by omega⟩
  rcases Nat.eq_zero_or_pos q with rfl | hq
  · -- The only frame is for the heap's first page.
    obtain ⟨s', hexp, hzero⟩ := @kheapExpand_directory _ (beforeHeap p) _ _ _ (kheapInitialSize / pageSize)
      0 _ hstart hdir htotal hfew rfl (Nat.zero_le _)
      (show 1024 * 0 < 0 + kheapInitialSize / pageSize by decide)
    have hinit : kheapInit.run (beforeHeap p) = .error .fault s' := by
      rw [kheapInit, run_bind_error hexp]
    have hstays := hnever.1
    rw [stateAfter_error hinit] at hstays
    exact not_staysBelow_of_emptied hstart hzero hstays
  · obtain ⟨s, hinit, hrep⟩ := kheapInit_many hp (by omega)
    have hlen := length_of_init hrep
    obtain ⟨s', hexp, hzero⟩ := kheapExpand_directory hrep.inv hdir htotal hfew
      (Represented.heapCurrentEnd hrep) (by omega)
      (show 1024 * q < s.mem.vars.length + (1024 * q - 511) by omega)
    exact not_staysBelow_of_emptied hrep.inv hzero (hcalls hinit hrep (by omega) (by omega) hexp)

theorem neverBeyond_iff_modestPc : ∃ p, Booted modestPlatform p ∧ Sparse modestPlatform p ∧
    NeverBeyond (· ≤ 0xFFFFEFF0) p := by
  obtain ⟨p, hb, hsparse, -⟩ := exists_booted_modestPc
  exact ⟨p, hb, hsparse, (neverBeyond_iff hb).mpr hsparse⟩

end Beyond

section Platforms

/-- A PC with 2 GiB. -/
def roomyPc : List MultibootMmapEntry := [⟨0, 0x9FC00, 1⟩, ⟨0x100000, 0x7FF00000, 1⟩]

theorem endsBelow4G_roomyPc : EndsBelow4G roomyPc := by
  unfold EndsBelow4G
  decide

variable {i : ℕ}

theorem bootFree_low_roomyPc (hi : i < 0x9F) : BootFree smallImage roomyPc i := by
  have hblocks : maxBlocks roomyPc = 0x80000 := by decide
  have hstart : (⟨0, 0x9FC00, 1⟩ : MultibootMmapEntry).blockStart = 0 := by decide
  have hcount : (⟨0, 0x9FC00, 1⟩ : MultibootMmapEntry).blockCount = 0x9F := by decide
  refine @bootFree_of_entry _ _ ⟨0, 0x9FC00, 1⟩ _ (by simp [roomyPc]) rfl (by omega) (by omega)
    (by omega) fun hres ↦ ?_
  have hk : kernelStartBlock smallImage = 0x100 := by decide
  have hle := hres.1
  omega

theorem bootFree_high_roomyPc (hlo : 0x1000 ≤ i) (hi : i < 0x80000) :
    BootFree smallImage roomyPc i := by
  have hblocks : maxBlocks roomyPc = 0x80000 := by decide
  have hstart : (⟨0x100000, 0x7FF00000, 1⟩ : MultibootMmapEntry).blockStart = 0x100 := by decide
  have hcount : (⟨0x100000, 0x7FF00000, 1⟩ : MultibootMmapEntry).blockCount = 0x7FF00 := by decide
  refine @bootFree_of_entry _ _ ⟨0x100000, 0x7FF00000, 1⟩ _ (by simp [roomyPc]) rfl (by omega)
    (by omega) (by omega) fun hres ↦ ?_
  have hend : kernelAndBitmapEndBlock smallImage (maxBlocks roomyPc) = 0x130 := by
    rw [hblocks]
    decide
  have hlt := hres.2
  omega

def roomyPlatform : Platform where
  img := smallImage
  mmap := roomyPc
  boot := smallBoot
  below := endsBelow4G_roomyPc
  boot_inside := smallPlatform.boot_inside
  bitmap_low := by decide
  frames_low := ⟨0, 1, by decide, by decide, bootFree_low_roomyPc (by decide),
    bootFree_low_roomyPc (by decide)⟩

theorem exists_booted_roomyPc : ∃ p, Booted roomyPlatform p ∧
    195776 ≤ #(roomyPlatform.free p.mem.mem) := by
  have hentered : Entered roomyPlatform ⟨⟨smallSupply.mem.mem, smallSupply.mem.cr3⟩, .initial⟩ :=
    ⟨rfl, loaded_smallSupply⟩
  obtain ⟨dir, table, p, hrun, hp⟩ := bootMemory_returns hentered
  refine ⟨p, ⟨_, hentered, hrun⟩, ?_⟩
  have hdir : dir / 4096 ≤ 0 := hp.dir_taken.2 (bootFree_low_roomyPc (by decide))
  have hsub : (Ico 0x1000 0x80000).erase (table / 4096) ⊆ roomyPlatform.free p.mem.mem := by
    intro i hi
    obtain ⟨hne, hi⟩ := mem_erase.mp hi
    obtain ⟨hlo, hhi⟩ := mem_Ico.mp hi
    exact (hp.free i).mpr ⟨bootFree_high_roomyPc hlo hhi, by omega, hne⟩
  have hcard := card_le_card hsub
  have herase : #(Ico 0x1000 0x80000) - 1 ≤ #((Ico 0x1000 0x80000).erase (table / 4096)) :=
    pred_card_le_card_erase
  rw [Nat.card_Ico] at herase
  omega

/-- On a PC with 2 GiB the heap is grown into the page tables by its first request. -/
theorem grows_beyond_roomyPc : ∃ p s s', Booted roomyPlatform p ∧ HeapCalls p s [] [] ∧
    (kmalloc 1 0x2FA00FF0).run s = .error .halt s' ∧ vmmPageTables ∈ s'.mem.vars ∧
    ¬ NeverBeyond (fun _ ↦ True) p := by
  obtain ⟨p, hb, hmany⟩ := exists_booted_roomyPc
  obtain ⟨dir, table, hp⟩ := exists_started hb
  obtain ⟨s, hinit, hrep⟩ := kheapInit_many hp (by omega)
  have hlen := length_of_init hrep
  obtain ⟨s', hexp, hmem⟩ := kheapExpand_beyond hrep.inv hmany
    (Represented.heapCurrentEnd hrep) (show 195584 < s.mem.vars.length + 195073 by omega)
  have hrun : (kmalloc 1 0x2FA00FF0).run s = .error .halt s' :=
    kmalloc_stops hrep (by decide) (by decide) hexp
  refine ⟨p, s, s', hb, .init hinit, hrun, hmem, fun hnever ↦ ?_⟩
  have hstays := hnever.2 s [] [] (.init hinit) (fun _ hn ↦ (by cases hn)) 1 0x2FA00FF0 (by decide)
    (by decide) trivial
  rw [stateAfter_error hrun] at hstays
  exact not_staysBelow_of_beyond hmem hstays

end Platforms

end KevOS.Memory.FullHeap
