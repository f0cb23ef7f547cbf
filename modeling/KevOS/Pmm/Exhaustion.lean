import KevOS.Pmm.Survival

namespace KevOS.Pmm.Exhaustion

open Lib.Program Machine Init Physical Refinement Finset

inductive Call
  | alloc
  | release (ptr : ℕ)
  deriving DecidableEq, Repr

/-- The runs after boot, with the calls made and the states passed, the last one first. -/
inductive Run (img : KernelImage) (mmap : List MultibootMmapEntry) :
    List Call → List PmmState → Prop
  | boot {s₀ s : PmmState} : (pmmInit img mmap).run s₀ = .ok () s → Run img mmap [] [s]
  | alloc {calls : List Call} {s s' : PmmState} {states : List PmmState} {p : ℕ} :
      Run img mmap calls (s :: states) → pmmAllocPage.run s = .ok p s' →
      Run img mmap (.alloc :: calls) (s' :: s :: states)
  | release {calls : List Call} {s s' : PmmState} {states : List PmmState} (ptr : ℕ) :
      Run img mmap calls (s :: states) → (pmmFreePage ptr).run s = .ok () s' →
      Run img mmap (.release ptr :: calls) (s' :: s :: states)

/-- A null pointer means that there was no free page, and that nothing has changed. -/
def NullMeansFull (s : PmmState) : Prop :=
  ∃ p s', pmmAllocPage.run s = .ok p s' ∧ (p = 0 ↔ free s = ∅) ∧ (p = 0 → s' = s)

/-- The page at address 0 is kept out of the pool, at boot and by every release. -/
def KeepsNull (img : KernelImage) (mmap : List MultibootMmapEntry) (calls : List Call) : Prop :=
  ¬ BootFree img mmap 0 ∧ ∀ ptr, .release ptr ∈ calls → ptr < pageSize → maxBlocks mmap = 0

variable {img : KernelImage} {mmap : List MultibootMmapEntry} {s s' : PmmState}
  {calls : List Call} {states : List PmmState} {p : ℕ}

theorem nullMeansFull_iff (hmap : maxBlocks mmap < 1048576) (hc : Consistent img mmap s) :
    NullMeansFull s ↔ 0 ∉ free s := by
  constructor
  · rintro ⟨p, s', hr, hnull, -⟩ hzero
    have hleast : IsLeast (free s : Set ℕ) 0 := ⟨mem_coe.mpr hzero, fun _ _ ↦ Nat.zero_le _⟩
    rw [pmmAllocPage_ok hc hleast] at hr
    cases hr
    have hempty := hnull.mp (by simp [w32])
    rw [hempty] at hzero
    exact notMem_empty 0 hzero
  · intro hzero
    rcases (free s).eq_empty_or_nonempty with hempty | hne
    · exact ⟨0, s, pmmAllocPage_none hc hempty, iff_of_true rfl hempty, fun _ ↦ rfl⟩
    · obtain ⟨i, hi⟩ := exists_isLeast_free hne
      have hmem := mem_coe.mp hi.1
      have hlt := (hc.mem_free.mp hmem).1
      have hpos : i ≠ 0 := fun h ↦ hzero (h ▸ hmem)
      -- Below 4 GiB the address of another page does not wrap to 0.
      have haddr : w32 (i * pageSize) ≠ 0 := by
        unfold pageSize
        rw [w32_of_lt (by omega)]
        omega
      exact ⟨_, _, pmmAllocPage_ok hc hi, iff_of_false haddr hne.ne_empty,
        fun h ↦ absurd h haddr⟩

theorem alloc_free_subset (hc : Consistent img mmap s) (hr : pmmAllocPage.run s = .ok p s') :
    free s' ⊆ free s := by
  obtain ⟨i, -, -, rfl⟩ | ⟨-, -, rfl⟩ := pmmAllocPage_cases hc hr
  · rw [free_lockPage]
    exact erase_subset i _
  · exact Subset.refl _

theorem release_zero_mem_iff (hc : Consistent img mmap s)
    (hr : (pmmFreePage p).run s = .ok () s') :
    0 ∈ free s' ↔ 0 ∈ free s ∨ p < pageSize ∧ 0 < maxBlocks mmap := by
  have hdiv : p / pageSize = 0 ↔ p < pageSize := Nat.div_eq_zero_iff_lt (by decide)
  obtain ⟨hlt, -, rfl⟩ | ⟨hnop, rfl⟩ := pmmFreePage_cases hc hr
  · rw [free_unlockPage (by rwa [hc.blocks]), mem_insert, eq_comm, hdiv, or_comm]
    exact or_congr_right (and_iff_left (Nat.zero_lt_of_lt hlt)).symm
  · refine (or_iff_left_of_imp ?_).symm
    rintro ⟨hp, hpos⟩
    rw [hdiv.mpr hp] at hnop
    exact hnop.resolve_left (by omega)

theorem run_consistent (h : Run img mmap calls states) :
    ∀ s ∈ states, Consistent img mmap s := by
  induction h with
  | boot hr =>
    intro s hs
    rw [List.mem_singleton.mp hs]
    exact (of_pmmInit hr).1
  | alloc _ hr ih =>
    exact List.forall_mem_cons.mpr ⟨consistent_step (ih _ List.mem_cons_self) (.alloc hr), ih⟩
  | release ptr _ hr ih =>
    exact List.forall_mem_cons.mpr ⟨consistent_step (ih _ List.mem_cons_self) (.release ptr hr), ih⟩

theorem run_zero_iff (h : Run img mmap calls states) :
    (∀ s ∈ states, 0 ∉ free s) ↔ KeepsNull img mmap calls := by
  induction h with
  | boot hr =>
    rw [List.forall_mem_singleton, (of_pmmInit hr).2.2 0, KeepsNull]
    simp
  | @alloc calls s s' states p h hr ih =>
    have hc := run_consistent h s List.mem_cons_self
    have hcalls : KeepsNull img mmap (.alloc :: calls) ↔ KeepsNull img mmap calls := by
      simp [KeepsNull]
    rw [List.forall_mem_cons, ih, hcalls, and_iff_right_iff_imp]
    intro hkeep hzero
    exact ih.mpr hkeep s List.mem_cons_self (alloc_free_subset hc hr hzero)
  | @release calls s s' states ptr h hr ih =>
    have hc := run_consistent h s List.mem_cons_self
    have hcalls : KeepsNull img mmap (.release ptr :: calls) ↔
        (ptr < pageSize → maxBlocks mmap = 0) ∧ KeepsNull img mmap calls := by
      simp only [KeepsNull, List.mem_cons, Call.release.injEq, forall_eq_or_imp]
      exact and_left_comm
    rw [List.forall_mem_cons, ih, hcalls, release_zero_mem_iff hc hr]
    refine and_congr_left fun hkeep ↦ ?_
    rw [or_iff_right (ih.mpr hkeep s List.mem_cons_self), not_and, Nat.pos_iff_ne_zero, not_not]

/-- In every state of a run a null pointer means exhaustion, if and only if neither the
memory map nor a release puts the page at address 0 into the pool. -/
theorem run_nullMeansFull_iff (hmap : EndsBelow4G mmap) (h : Run img mmap calls states) :
    (∀ s ∈ states, NullMeansFull s) ↔
      ¬ BootFree img mmap 0 ∧ ∀ ptr, .release ptr ∈ calls → ptr < pageSize → maxBlocks mmap = 0 := by
  have hblocks := maxBlocks_lt_of_endsBelow hmap
  have hstate (s : PmmState) (hs : s ∈ states) : NullMeansFull s ↔ 0 ∉ free s :=
    nullMeansFull_iff hblocks (run_consistent h s hs)
  rw [forall₂_congr hstate]
  exact run_zero_iff h

/-- A machine on which a single page is left beside the kernel. -/
def onePagePc : List MultibootMmapEntry := [⟨0x123000, 0x1000, 1⟩]

theorem bootFree_onePagePc {j : ℕ} : BootFree smallImage onePagePc j ↔ j = 0x123 := by
  have hblocks : maxBlocks onePagePc = 0x124 := by decide
  have hstart : (⟨0x123000, 0x1000, 1⟩ : MultibootMmapEntry).blockStart = 0x123 := by decide
  have hcount : (⟨0x123000, 0x1000, 1⟩ : MultibootMmapEntry).blockCount = 1 := by decide
  constructor
  · rintro ⟨-, ⟨entry, he, -, i, hi, rfl⟩, -⟩
    obtain rfl := List.mem_singleton.mp he
    rw [hcount, Nat.lt_one_iff] at hi
    rw [hstart, hi]
    rfl
  · rintro rfl
    refine bootFree_of_entry List.mem_cons_self rfl (by omega) (by omega) (by omega) fun hres ↦ ?_
    have hend : kernelAndBitmapEndBlock smallImage (maxBlocks onePagePc) = 0x121 := by decide
    have hlt := hres.2
    omega

/-- The only page is handed out, the next request finds none, and the page is released again. -/
theorem run_nullMeansFull_iff_onePagePc : ∃ s₀ s₁ s₂,
    Run smallImage onePagePc [.release 0x123000, .alloc, .alloc] [s₂, s₁, s₁, s₀] ∧
      pmmAllocPage.run s₀ = .ok 0x123000 s₁ ∧ pmmAllocPage.run s₁ = .ok 0 s₁ ∧
      ∀ t ∈ [s₂, s₁, s₁, s₀], NullMeansFull t := by
  obtain ⟨s, hboot, hc, -, hfree⟩ := pmmInit_ok smallImage onePagePc ⟨fun _ ↦ 0, .initial⟩
  have hpage : free s = {0x123} := by
    ext j
    rw [hfree, bootFree_onePagePc, mem_singleton]
  have hleast : IsLeast (free s : Set ℕ) 0x123 := by
    rw [hpage, coe_singleton]
    exact isLeast_singleton
  have halloc : pmmAllocPage.run s = .ok 0x123000 (lockPage s 0x123) := pmmAllocPage_ok hc hleast
  have hc' := consistent_step hc (.alloc halloc)
  have hnone : free (lockPage s 0x123) = ∅ := by
    rw [free_lockPage, hpage, erase_singleton]
  have hnull := pmmAllocPage_none hc' hnone
  have hlt : 0x123000 / pageSize < maxBlocks onePagePc := by decide
  have hrelease := pmmFreePage_ok hc' hlt (by simp [hnone])
  have hrun := Run.release 0x123000 (Run.alloc (Run.alloc (.boot hboot) halloc) hnull) hrelease
  refine ⟨s, _, _, hrun, halloc, hnull, (run_nullMeansFull_iff ?_ hrun).mpr ⟨?_, ?_⟩⟩
  · exact List.forall_mem_singleton.mpr fun _ ↦ by decide
  · rw [bootFree_onePagePc]
    decide
  · intro ptr hptr hlt
    obtain rfl : ptr = 0x123000 := by simpa using hptr
    exact absurd hlt (by decide)

/-- Low memory begins at 0 on a PC, and page 0 is the first one to be handed out. -/
theorem first_page_null_smallPc :
    ∃ s s', Run smallImage smallPc [] [s] ∧ pmmAllocPage.run s = .ok 0 s' ∧
      (free s).Nonempty ∧ ¬ NullMeansFull s := by
  obtain ⟨s, hr, hc, -, hfree⟩ := pmmInit_ok smallImage smallPc ⟨fun _ ↦ 0, .initial⟩
  have hzero : 0 ∈ free s := (hfree 0).mpr (Survival.bootFree_low_smallPc (by decide))
  have hleast : IsLeast (free s : Set ℕ) 0 := ⟨mem_coe.mpr hzero, fun _ _ ↦ Nat.zero_le _⟩
  refine ⟨s, _, .boot hr, pmmAllocPage_ok hc hleast, ⟨0, hzero⟩, fun hn ↦ ?_⟩
  exact (nullMeansFull_iff (maxBlocks_lt_of_endsBelow endsBelow4G_smallPc) hc).mp hn hzero

end KevOS.Pmm.Exhaustion
