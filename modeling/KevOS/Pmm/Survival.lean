import KevOS.Pmm.Refinement

namespace KevOS.Pmm.Survival

open Lib.Program Lib.ByteMemory Lib.Bits Machine Bitmap Init Physical Refinement Finset

/-- Where the boot loader has put what the kernel still reads after `pmmInit`: the
module's bytes, its descriptor and the Multiboot information. -/
structure BootData where
  modStart : ℕ
  modEnd : ℕ
  modsAddr : ℕ
  mbi : ℕ

/-- The size of `struct multiboot_module`. -/
def moduleSize : ℕ := 16

/-- The size of `struct multiboot_info`. -/
def infoSize : ℕ := 76

def BootData.Protects (b : BootData) (a : ℕ) : Prop :=
  (b.modStart ≤ a ∧ a < b.modEnd) ∨ (b.modsAddr ≤ a ∧ a < b.modsAddr + moduleSize) ∨
    (b.mbi ≤ a ∧ a < b.mbi + infoSize)

/-- The module lies in available memory, outside the kernel image. -/
def BootData.Placed (img : KernelImage) (mmap : List MultibootMmapEntry) (b : BootData) : Prop :=
  b.modStart < b.modEnd ∧
    (∃ entry ∈ mmap, entry.type = multibootMemoryAvailable ∧ entry.addr.toNat ≤ b.modStart ∧
      b.modEnd ≤ entry.addr.toNat + entry.len.toNat) ∧
    (b.modEnd ≤ img.physStart ∨ img.physEnd ≤ b.modStart)

/-- The addresses of the bitmap. -/
def InBitmap (img : KernelImage) (mmap : List MultibootMmapEntry) (a : ℕ) : Prop :=
  img.physEnd ≤ a ∧ a < img.physEnd + bitmapSize (maxBlocks mmap)

def InPage (p a : ℕ) : Prop := p ≤ a ∧ a < p + pageSize

/-- Runs from `s₀` through boot and allocations, with the pages handed out; nothing
in the kernel releases one. Their owners write to them, but not to the bitmap. -/
inductive Run (img : KernelImage) (mmap : List MultibootMmapEntry) (s₀ : PmmState) :
    PmmState → List ℕ → Prop
  | boot {s : PmmState} : (pmmInit img mmap).run s₀ = .ok () s → Run img mmap s₀ s []
  | alloc {s s' : PmmState} {p : ℕ} {l : List ℕ} : Run img mmap s₀ s l → (free s).Nonempty →
      pmmAllocPage.run s = .ok p s' → Run img mmap s₀ s' (p :: l)
  | exhausted {s s' : PmmState} {p : ℕ} {l : List ℕ} : Run img mmap s₀ s l → free s = ∅ →
      pmmAllocPage.run s = .ok p s' → Run img mmap s₀ s' l
  | store {s : PmmState} {p a : ℕ} (v : UInt8) {l : List ℕ} : Run img mmap s₀ s l → p ∈ l →
      InPage p a → ¬ InBitmap img mmap a →
      Run img mmap s₀ { s with mem := Function.update s.mem a v } l

/-- The boot data stays clear of the bitmap and of every page handed out, and keeps
its contents. -/
structure Survives (img : KernelImage) (mmap : List MultibootMmapEntry) (b : BootData)
    (s₀ s : PmmState) (l : List ℕ) : Prop where
  bitmap : ∀ a, b.Protects a → ¬ InBitmap img mmap a
  pages : ∀ p ∈ l, ∀ a, b.Protects a → ¬ InPage p a
  contents : ∀ a, b.Protects a → s.mem a = s₀.mem a

/-- Outside the bitmap and every page that is free after boot. -/
def OutOfReach (img : KernelImage) (mmap : List MultibootMmapEntry) (a : ℕ) : Prop :=
  ¬ InBitmap img mmap a ∧ ∀ j, BootFree img mmap j → ¬ InPage (w32 (j * pageSize)) a

variable {img : KernelImage} {mmap : List MultibootMmapEntry} {s₀ s : PmmState} {l : List ℕ}

structure RunInv (img : KernelImage) (mmap : List MultibootMmapEntry) (s₀ s : PmmState)
    (l : List ℕ) : Prop where
  consistent : Consistent img mmap s
  free_boot : ∀ j ∈ free s, BootFree img mmap j
  pages : ∀ p ∈ l, ∃ j, BootFree img mmap j ∧ p = w32 (j * pageSize)
  contents : ∀ a, OutOfReach img mmap a → s.mem a = s₀.mem a

theorem RunInv.lock (hi : RunInv img mmap s₀ s l) {j : ℕ} (hj : j ∈ free s) :
    RunInv img mmap s₀ (lockPage s j) (w32 (j * pageSize) :: l) where
  consistent := consistent_withBitmap hi.consistent _
  free_boot k hk := by
    rw [free_lockPage] at hk
    exact hi.free_boot k (mem_of_mem_erase hk)
  pages := List.forall_mem_cons.mpr ⟨⟨j, hi.free_boot j hj, rfl⟩, hi.pages⟩
  contents a ha := by
    have hlt := (hi.consistent.mem_free.mp hj).1
    have hout : a < img.physEnd ∨ img.physEnd + bitmapSize (maxBlocks mmap) ≤ a := by
      have h := ha.1
      unfold InBitmap at h
      omega
    have hset := sameOutside_setBit (m := s.mem) hlt a hout
    rw [← hi.consistent.bitmap] at hset
    exact hset.trans (hi.contents a ha)

theorem consistent_store {a : ℕ} {v : UInt8} (h : Consistent img mmap s)
    (ha : ¬ InBitmap img mmap a) :
    Consistent img mmap { s with mem := Function.update s.mem a v } ∧
      free { s with mem := Function.update s.mem a v } = free s := by
  have hbit (j : ℕ) (hj : j < maxBlocks mmap) :
      bitAt (Function.update s.mem a v) img.physEnd j = bitAt s.mem img.physEnd j := by
    have hlt := div_lt_bitmapSize hj
    unfold InBitmap at ha
    exact bitAt_congr (Function.update_of_ne (by omega) _ _)
  constructor
  · have hused : usedPages (Function.update s.mem a v) img.physEnd (maxBlocks mmap) =
        usedPages s.mem img.physEnd (maxBlocks mmap) :=
      filter_congr fun j hj ↦ by rw [hbit j (mem_range.mp hj)]
    rw [Consistent, counted, hused]
    exact h
  · rw [free, free, h.bitmap, h.blocks]
    exact filter_congr fun j hj ↦ by rw [hbit j (mem_range.mp hj)]

theorem run_inv (h : Run img mmap s₀ s l) : RunInv img mmap s₀ s l := by
  induction h with
  | boot hr =>
    obtain ⟨hc, hout, hf⟩ := of_pmmInit hr
    refine ⟨hc, fun j hj ↦ (hf j).mp hj, by simp, fun a ha ↦ hout a ?_⟩
    have h := ha.1
    unfold InBitmap at h
    omega
  | alloc _ hne hr ih =>
    obtain ⟨j, hj, rfl, rfl⟩ | ⟨he, -⟩ := pmmAllocPage_cases ih.consistent hr
    · exact ih.lock (mem_coe.mp hj.1)
    · exact absurd he hne.ne_empty
  | exhausted _ he hr ih =>
    rw [pmmAllocPage_none ih.consistent he] at hr
    cases hr
    exact ih
  | store v _ hp hpa ha ih =>
    obtain ⟨hc, hf⟩ := consistent_store (v := v) ih.consistent ha
    refine ⟨hc, fun j hj ↦ ih.free_boot j (hf ▸ hj), ih.pages, fun b hb ↦ ?_⟩
    obtain ⟨j, hj, rfl⟩ := ih.pages _ hp
    have hne (c : ℕ) (hc : InPage (w32 (j * pageSize)) c) : b ≠ c := by
      rintro rfl
      exact hb.2 j hj hc
    exact (Function.update_of_ne (hne _ hpa) _ _).trans (ih.contents b hb)

/-- Every page that is free after boot goes out in some run. -/
theorem exists_run_of_bootFree {j : ℕ} (hj : BootFree img mmap j) :
    ∃ s₀ s l, Run img mmap s₀ s l ∧ w32 (j * pageSize) ∈ l := by
  obtain ⟨s, hr, hc, -, hfree⟩ := pmmInit_ok img mmap ⟨fun _ ↦ 0, .initial⟩
  obtain ⟨t, hc', ⟨l, hl⟩, hleast⟩ :=
    exists_isLeast_of_mem_free (P := fun t ↦ ∃ l, Run img mmap ⟨fun _ ↦ 0, .initial⟩ t l)
      hc ⟨[], .boot hr⟩
      (fun t i ht ⟨l, hl⟩ hi ↦ ⟨_, .alloc hl ⟨i, mem_coe.mp hi.1⟩ (pmmAllocPage_ok ht hi)⟩)
      ((hfree j).mpr hj)
  exact ⟨_, _, _, .alloc hl ⟨j, mem_coe.mp hleast.1⟩ (pmmAllocPage_ok hc' hleast),
    List.mem_cons_self⟩

/-- The boot data survives every run exactly when none of it lies in the bitmap or in
a page that is free after boot. -/
theorem survives_iff_outOfReach (img : KernelImage) (mmap : List MultibootMmapEntry)
    (b : BootData) :
    (∀ s₀ s l, Run img mmap s₀ s l → Survives img mmap b s₀ s l) ↔
      ∀ a, b.Protects a → ¬ InBitmap img mmap a ∧
        ∀ j, BootFree img mmap j → ¬ InPage (w32 (j * pageSize)) a := by
  constructor
  · intro hs a ha
    refine ⟨?_, fun j hj ↦ ?_⟩
    · obtain ⟨s, hr, -⟩ := pmmInit_ok img mmap ⟨fun _ ↦ 0, .initial⟩
      exact (hs _ s [] (.boot hr)).bitmap a ha
    · obtain ⟨s₀, s, l, hl, hmem⟩ := exists_run_of_bootFree hj
      exact (hs s₀ s l hl).pages _ hmem a ha
  · intro hb s₀ s l hl
    have hi := run_inv hl
    refine ⟨fun a ha ↦ (hb a ha).1, fun p hp a ha ↦ ?_, fun a ha ↦ hi.contents a (hb a ha)⟩
    obtain ⟨j, hj, rfl⟩ := hi.pages p hp
    exact (hb a ha).2 j hj

/-- A module right behind the kernel image, on the next page boundary. -/
def nextToKernel : BootData := ⟨0x120000, 0x140000, 0x10100, 0x10000⟩

theorem bootFree_low_smallPc {j : ℕ} (hj : j < 0x9F) : BootFree smallImage smallPc j := by
  have hblocks : maxBlocks smallPc = 0x8000 := by decide
  have hcount : (⟨0, 0x9FC00, 1⟩ : MultibootMmapEntry).blockCount = 0x9F := by decide
  have hstart : (⟨0, 0x9FC00, 1⟩ : MultibootMmapEntry).blockStart = 0 := by decide
  refine @bootFree_of_entry _ _ ⟨0, 0x9FC00, 1⟩ _ (by simp [smallPc]) rfl (by omega) (by omega)
    (by omega) fun hres ↦ ?_
  have hk : kernelStartBlock smallImage = 0x100 := by decide
  have hle := hres.1
  omega

/-- The bitmap overwrites the module that starts where the kernel image ends. -/
theorem nextToKernel_overwritten :
    nextToKernel.Placed smallImage smallPc ∧
      ∃ s₀ s, Run smallImage smallPc s₀ s [] ∧ nextToKernel.Protects 0x120000 ∧
        s.mem 0x120000 ≠ s₀.mem 0x120000 ∧ ¬ Survives smallImage smallPc nextToKernel s₀ s [] := by
  refine ⟨⟨by decide, ⟨⟨0x100000, 0x7F00000, 1⟩, by simp [smallPc], rfl, by decide, by decide⟩,
    .inr (by decide)⟩, ?_⟩
  obtain ⟨s, hr, hc, -, hfree⟩ := pmmInit_ok smallImage smallPc ⟨fun _ ↦ 0xFF, .initial⟩
  have hprot : nextToKernel.Protects 0x120000 := .inl (by decide)
  have hne : s.mem 0x120000 ≠ 0xFF := by
    intro hff
    have hbit := (hc.mem_free.mp ((hfree 1).mpr (bootFree_low_smallPc (by omega)))).2
    have hend : smallImage.physEnd + 1 / 8 = 0x120000 := by decide
    rw [bitAt, hend, hff] at hbit
    exact absurd hbit (by decide)
  exact ⟨_, s, .boot hr, hprot, hne, fun hs ↦ hne (hs.contents _ hprot)⟩

end KevOS.Pmm.Survival
