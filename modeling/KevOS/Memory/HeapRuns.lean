import KevOS.Heap.Sizes
import KevOS.Memory.Exhausted
import KevOS.Memory.HeapWindow
import Mathlib.Order.Interval.Finset.Nat

namespace KevOS.Memory.HeapRuns

open Lib.Program Lib.ByteMemory Lib.Paging Lib.Tiling Machine Pmm Pmm.Init Pmm.Refinement Vmm
open Vmm.Init Vmm.Mapping Heap Blocks Growth Run
open Mapped Frames Boot Exhausted Backing HeapWindow Finset

/-- As `vmm_init` comes back. -/
def Booted (P : Platform) (p : Paged) : Prop :=
  ∃ s, Entered P s ∧ (bootMemory P.img P.mmap).run s = .ok () p

/-- What `kheap_init` finds. -/
def beforeHeap (p : Paged) : HeapState KernelMemory := ⟨⟨p, []⟩, .initial⟩

/-- The runs of the heap from `kheap_init` on, with requests of any size. The live pointers
come with the sizes requested, and all sizes that were ever requested are listed. -/
inductive HeapCalls (p : Paged) :
    HeapState KernelMemory → List (ℕ × ℕ) → List ℕ → Prop
  | init {s : HeapState KernelMemory} : kheapInit.run (beforeHeap p) = .ok () s → HeapCalls p s [] []
  | alloc {s s' : HeapState KernelMemory} {live : List (ℕ × ℕ)} {sizes : List ℕ} {fuel n q : ℕ} :
      HeapCalls p s live sizes → 0 < n → n < 4294967296 → (kmalloc fuel n).run s = .ok q s' →
      HeapCalls p s' ((q, n) :: live) (n :: sizes)
  | release {s s' : HeapState KernelMemory} {live : List (ℕ × ℕ)} {sizes : List ℕ} {q n : ℕ} :
      HeapCalls p s live sizes → (q, n) ∈ live → (kfree q).run s = .ok () s' →
      HeapCalls p s' (live.erase (q, n)) sizes
  | store {s s' : HeapState KernelMemory} {live : List (ℕ × ℕ)} {sizes : List ℕ} {q n a : ℕ}
      (v : UInt8) : HeapCalls p s live sizes → (q, n) ∈ live → q ≤ a → a < q + n →
      (store8 a v).run s = .ok () s' → HeapCalls p s' live sizes

/-- The size arithmetic of `kmalloc` does not wrap around for any of these requests. -/
def NoneWraps (sizes : List ℕ) : Prop := ∀ n ∈ sizes, n ≤ 0xFFFFEFF0

/-- The physical memory and the page directory that a state of the heap runs on. -/
def memoryOf (s : HeapState KernelMemory) : Bytes := s.mem.mem.mem.mem

def directoryOf (s : HeapState KernelMemory) : ℕ := s.mem.mem.mem.cr3

/-- Every page of the heap is mapped for writing, and nothing else uses its frame. -/
structure PrivatelyBacked (P : Platform) (s : HeapState KernelMemory) : Prop where
  mapped : ∀ a, 4096 ∣ a → InHeap s.vars.heapCurrentEnd a →
    ∃ e, walk (memoryOf s) (directoryOf s) a = some e ∧ Writable e.1 ∧ Writable e.2
  distinct : ∀ a b, 4096 ∣ a → 4096 ∣ b → InHeap s.vars.heapCurrentEnd a →
    InHeap s.vars.heapCurrentEnd b → Lib.Paging.translate (memoryOf s) (directoryOf s) a =
      Lib.Paging.translate (memoryOf s) (directoryOf s) b → a = b
  tables : ∀ a f, 4096 ∣ a → InHeap s.vars.heapCurrentEnd a →
    Lib.Paging.translate (memoryOf s) (directoryOf s) a = some f → f ≠ directoryOf s ∧
      ∀ d < 1024, Present (entry (memoryOf s) (directoryOf s) d) →
        frameOf (entry (memoryOf s) (directoryOf s) d) ≠ f
  reserved : ∀ a f, 4096 ∣ a → InHeap s.vars.heapCurrentEnd a →
    Lib.Paging.translate (memoryOf s) (directoryOf s) a = some f → P.Unreserved f

/-- The frames do not suffice for a page of the heap at `VMM_PAGE_TABLES`, and do not run out
just when a table is due that would come to lie in the directory's own frame 0. -/
structure Sparse (P : Platform) (p : Paged) : Prop where
  few : #(P.free p.mem.mem) ≤ 195775
  apart : p.mem.cr3 = 0 → #(P.free p.mem.mem) % 1025 ≠ 1

/-- From `s` to `s'` the heap has only been given pages below the page tables, and the page
directory has only been given tables. -/
structure StaysBelow (s s' : HeapState KernelMemory) : Prop where
  addresses : ∀ virt ∈ s'.mem.vars, InHeap vmmPageTables virt
  directory : ∀ d < 1024, Present (entry (memoryOf s) (directoryOf s) d) →
    entry (memoryOf s') (directoryOf s) d = entry (memoryOf s) (directoryOf s) d

/-- In every run whose requests are all `admitted` the heap stays below the page tables,
also in calls that do not come back. -/
def NeverBeyond (admitted : ℕ → Prop) (p : Paged) : Prop :=
  StaysBelow (beforeHeap p) (stateAfter kheapInit (beforeHeap p)) ∧
    ∀ s live sizes, HeapCalls p s live sizes → (∀ n ∈ sizes, admitted n) → ∀ fuel n, 0 < n →
      n < 4294967296 → admitted n → StaysBelow s (stateAfter (kmalloc fuel n) s)

/-- The table that `vmm_init` has put into the directory first. -/
def firstTable (p : Paged) : ℕ := frameOf (entry p.mem.mem p.mem.cr3 0)

/-- The heap of a kernel that `vmm_init` has left as `p`. -/
def kernelWindow (P : Platform) (p : Paged) : GrowWindow KernelMemory :=
  heapWindow P p.mem.cr3 (firstTable p) #(P.free p.mem.mem) p.mem.mem

variable {P : Platform} {p : Paged} {s s' : HeapState KernelMemory} {bs : List Block}
  {dir table total hi n fuel : ℕ} {m₀ : Bytes} {live : List (ℕ × ℕ)} {sizes : List ℕ}

section Starting

theorem pages_of_started (h : Started P dir table p) : Pages p.mem.mem dir table 0 0 := by
  have hnone {j : ℕ} (hj : j < 0) : False := Nat.not_lt_zero j hj
  refine ⟨h.hierarchy, h.identity, by decide, fun d hd ↦ ?_, fun d hd h832 hp ↦ ?_,
    fun j hj ↦ (hnone hj).elim, fun j hj ↦ (hnone hj).elim, fun j hj ↦ (hnone hj).elim⟩
  · rw [h.slots d hd]
    exact ⟨.inl, fun hs ↦ hs.elim id fun hlt ↦ by omega⟩
  · have hs := (h.slots d hd).mp hp
    unfold Shared at hs
    omega

/-- At first only the two pages of `vmm_init` are in use. -/
theorem backed_of_started (h : Started P dir table p) :
    Backed P dir table #(P.free p.mem.mem) 0 0 0 p := by
  have hlt := h.ordered
  have howned {f : ℕ} (hf : Owned p.mem.mem dir 0 f) : f = dir ∨ f = table := by
    rcases hf with rfl | ⟨d, hd, hp, rfl⟩ | ⟨j, hj, -⟩
    · exact .inl rfl
    · exact .inr (h.frames d hd hp)
    · exact absurd hj (Nat.not_lt_zero j)
  refine ⟨h.cr3, h.vars, pages_of_started h, fun i hi ↦ ((h.free i).mp hi).1, fun hin ↦ ?_,
    fun f hf ↦ ?_, fun h0 ↦ ?_, .inl rfl⟩
  · obtain ⟨hboot, hne, -⟩ := (h.free 0).mp hin
    have hle := h.dir_taken.2 hboot
    omega
  · rw [h.free]
    unfold Platform.Unreserved
    rcases howned hf with rfl | rfl
    · exact ⟨fun hin ↦ hin.2.1 rfl, h.dir_taken.1.2.2⟩
    · exact ⟨fun hin ↦ hin.2.2 rfl, h.table_taken.2.2⟩
  · rcases howned h0 with h0 | h0
    · exact .inl h0.symm
    · omega

theorem heapBacked_of_started (h : Started P dir table p) :
    HeapBacked P dir table #(P.free p.mem.mem) p.mem.mem ⟨p, []⟩ := by
  have hnone : heapTables 0 = 0 := by decide
  refine ⟨?_, fun _ hv ↦ (by cases hv), fun _ _ _ ↦ rfl⟩
  change Backed P dir table _ 0 (heapTables 0) (0 + heapTables 0) p
  rw [hnone]
  exact backed_of_started h

theorem exists_started (h : Booted P p) : ∃ dir table, Started P dir table p := by
  obtain ⟨s, hentered, hrun⟩ := h
  obtain ⟨dir, table, p', hrun', hp⟩ := bootMemory_returns hentered
  cases hrun'.symm.trans hrun
  exact ⟨dir, table, hp⟩

theorem started_of_booted (h : Booted P p) : Started P p.mem.cr3 (firstTable p) p := by
  obtain ⟨dir, table, hp⟩ := exists_started h
  obtain rfl := hp.cr3
  rwa [firstTable, hp.frames 0 (by decide) hp.identity.slot_present]

end Starting

section Progress

variable {t : KernelMemory} {pages K : ℕ}

/-- Each page that was added is backed. -/
theorem kheapExpand_backed (h : HeapBacked P dir table total m₀ s.mem)
    (hend : s.vars.heapCurrentEnd = heapPage s.mem.vars.length)
    (hr : (kheapExpand pages).run s = .ok () s') :
    HeapBacked P dir table total m₀ s'.mem ∧
      s'.vars.heapCurrentEnd = heapPage s'.mem.vars.length ∧
      s'.mem.vars.length = s.mem.vars.length + pages := by
  induction pages generalizing s with
  | zero =>
    cases hr
    exact ⟨h, hend, rfl⟩
  | succ pages ih =>
    obtain ⟨t, hback, hrest⟩ := kheapExpand_succ.mp hr
    rw [hend] at hback hrest
    obtain ⟨hk, h', hvars, -⟩ := h.grow_ok hback
    have hlen : t.vars.length = s.mem.vars.length + 1 := by rw [hvars, List.length_cons]
    have hlimit := vmmPageTables_lt
    have hend' : w32 (heapPage s.mem.vars.length + pageSize) = heapPage t.vars.length := by
      rw [hlen, heapPage_succ, w32_of_lt (by unfold pageSize; omega)]
      rfl
    obtain ⟨h₁, h₂, h₃⟩ := ih (s := ⟨t, ⟨s.vars.heapHead, _⟩⟩) h' hend' hrest
    refine ⟨h₁, h₂, h₃.trans ?_⟩
    dsimp only
    omega

/-- With this many frames the heap can grow to `K` pages. -/
theorem HeapBacked.progress (h : HeapBacked P dir table total m₀ t) (hmany : K + heapTables K < total)
    (hK : heapPage K ≤ vmmPageTables) (hk : t.vars.length < K) :
    ∃ t', (backPage (heapPage t.vars.length)).run t = .ok () t' ∧
      HeapBacked P dir table total m₀ t' ∧ t'.vars.length = t.vars.length + 1 := by
  have htwo : 1 < #(P.free t.mem.mem.mem) := by
    have hcount := h.backed.count
    unfold heapTables at hcount hmany
    omega
  have hle : heapPage t.vars.length + 4096 ≤ vmmPageTables := by
    unfold heapPage at *
    omega
  obtain ⟨t', hrun, h', hvars, -⟩ := h.grow (card_pos.mp (by omega)) hle fun _ _ ↦ htwo
  exact ⟨t', hrun, h', by rw [hvars, List.length_cons]⟩

theorem kheapExpand_many (h : HeapBacked P dir table total m₀ s.mem)
    (hmany : K + heapTables K < total) (hK : heapPage K ≤ vmmPageTables)
    (hend : s.vars.heapCurrentEnd = heapPage s.mem.vars.length)
    (hlim : s.vars.heapCurrentEnd + pages * pageSize ≤ heapPage K) :
    ∃ s', (kheapExpand pages).run s = .ok () s' := by
  refine kheapExpand_progress (P := fun k hi t ↦ HeapBacked P dir table total m₀ t ∧
    hi = heapPage t.vars.length ∧ hi + k * pageSize ≤ heapPage K) ?_ ⟨h, hend, hlim⟩ (hlim.trans hK)
  rintro k _ t ⟨ht, rfl, hle⟩ -
  have hlt : t.vars.length < K := by
    unfold heapPage pageSize at hle
    omega
  obtain ⟨t', hrun, ht', hlen⟩ := HeapBacked.progress ht hmany hK hlt
  refine ⟨t', hrun, ht', ?_, ?_⟩
  · rw [hlen, heapPage_succ]
    rfl
  · unfold pageSize at hle ⊢
    omega

theorem kheapInit_many (hp : Started P dir table p) (hmany : 513 < #(P.free p.mem.mem)) :
    ∃ s, kheapInit.run (beforeHeap p) = .ok () s ∧
      Represented (heapWindow P dir table #(P.free p.mem.mem) p.mem.mem) s [initialBlock]
        (kheapStart + kheapInitialSize) := by
  have hstart := heapBacked_of_started hp
  have hinv : (heapWindow P dir table #(P.free p.mem.mem) p.mem.mem).inv (beforeHeap p).mem := hstart
  have htables : 512 + heapTables 512 = 513 := by decide
  obtain ⟨s₁, hexp⟩ := kheapExpand_many (s := beforeHeap p) (K := 512) hstart (by omega) (by decide) rfl
    (show kheapStart + kheapInitialSize / pageSize * pageSize ≤ heapPage 512 by decide)
  exact kheapInit_of_expand hinv rfl rfl hexp

end Progress

section Modest

/-- A PC with 128 MiB, of which the first page is not available. -/
def modestPc : List MultibootMmapEntry := [⟨0x1000, 0x9E000, 1⟩, ⟨0x100000, 0x7F00000, 1⟩]

theorem endsBelow4G_modestPc : EndsBelow4G modestPc := by
  unfold EndsBelow4G
  decide

variable {i : ℕ}

theorem bootFree_low_modestPc (hlo : 1 ≤ i) (hi : i < 0x9F) : BootFree smallImage modestPc i := by
  have hblocks : maxBlocks modestPc = 0x8000 := by decide
  have hstart : (⟨0x1000, 0x9E000, 1⟩ : MultibootMmapEntry).blockStart = 1 := by decide
  have hcount : (⟨0x1000, 0x9E000, 1⟩ : MultibootMmapEntry).blockCount = 0x9E := by decide
  refine @bootFree_of_entry _ _ ⟨0x1000, 0x9E000, 1⟩ _ (by simp [modestPc]) rfl (by omega) (by omega)
    (by omega) fun hres ↦ ?_
  have hk : kernelStartBlock smallImage = 0x100 := by decide
  have hle := hres.1
  omega

theorem bootFree_high_modestPc (hlo : 0x200 ≤ i) (hi : i < 0x8000) :
    BootFree smallImage modestPc i := by
  have hblocks : maxBlocks modestPc = 0x8000 := by decide
  have hstart : (⟨0x100000, 0x7F00000, 1⟩ : MultibootMmapEntry).blockStart = 0x100 := by decide
  have hcount : (⟨0x100000, 0x7F00000, 1⟩ : MultibootMmapEntry).blockCount = 0x7F00 := by decide
  refine @bootFree_of_entry _ _ ⟨0x100000, 0x7F00000, 1⟩ _ (by simp [modestPc]) rfl (by omega)
    (by omega) (by omega) fun hres ↦ ?_
  have hend : kernelAndBitmapEndBlock smallImage (maxBlocks modestPc) = 0x121 := by
    rw [hblocks]
    decide
  have hlt := hres.2
  omega

theorem pos_of_released_modestPc (h : Released modestPc i) : 0 < i := by
  obtain ⟨entry, he, -, k, hk, rfl⟩ := h
  unfold modestPc at he
  rcases List.mem_cons.mp he with rfl | he
  · have hstart : (⟨0x1000, 0x9E000, 1⟩ : MultibootMmapEntry).blockStart = 1 := by decide
    have hcount : (⟨0x1000, 0x9E000, 1⟩ : MultibootMmapEntry).blockCount = 0x9E := by decide
    rw [hstart, w32_of_lt (by omega)]
    omega
  · obtain rfl := List.mem_singleton.mp he
    have hstart : (⟨0x100000, 0x7F00000, 1⟩ : MultibootMmapEntry).blockStart = 0x100 := by decide
    have hcount : (⟨0x100000, 0x7F00000, 1⟩ : MultibootMmapEntry).blockCount = 0x7F00 := by decide
    rw [hstart, w32_of_lt (by omega)]
    omega

def modestPlatform : Platform where
  img := smallImage
  mmap := modestPc
  boot := smallBoot
  below := endsBelow4G_modestPc
  boot_inside := smallPlatform.boot_inside
  bitmap_low := by decide
  frames_low := ⟨1, 2, by decide, by decide, bootFree_low_modestPc (by decide) (by decide),
    bootFree_low_modestPc (by decide) (by decide)⟩

/-- There the heap can start, and there are few frames. -/
theorem exists_booted_modestPc : ∃ p, Booted modestPlatform p ∧ Sparse modestPlatform p ∧
    0x7DFF ≤ #(modestPlatform.free p.mem.mem) := by
  have hentered : Entered modestPlatform ⟨⟨smallSupply.mem.mem, smallSupply.mem.cr3⟩, .initial⟩ :=
    ⟨rfl, loaded_smallSupply⟩
  obtain ⟨dir, table, p, hrun, hp⟩ := bootMemory_returns hentered
  have hdir : dir / 4096 ≤ 1 := hp.dir_taken.2 (bootFree_low_modestPc le_rfl (by decide))
  have hpos : 0 < dir / 4096 := pos_of_released_modestPc hp.dir_taken.1.2.1
  have hsub : (Ico 0x200 0x8000).erase (table / 4096) ⊆ modestPlatform.free p.mem.mem := by
    intro i hi
    obtain ⟨hne, hi⟩ := mem_erase.mp hi
    obtain ⟨hlo, hhi⟩ := mem_Ico.mp hi
    exact (hp.free i).mpr ⟨bootFree_high_modestPc hlo hhi, by omega, hne⟩
  have herase : #(Ico 0x200 0x8000) - 1 ≤ #((Ico 0x200 0x8000).erase (table / 4096)) :=
    pred_card_le_card_erase
  have hmany := herase.trans (card_le_card hsub)
  rw [Nat.card_Ico] at hmany
  have hfew : #(modestPlatform.free p.mem.mem) ≤ #(range 0x8000) := by
    refine card_le_card fun i hi ↦ mem_range.mpr ?_
    have hlt : i < maxBlocks modestPc := ((hp.free i).mp hi).1.1
    rwa [show maxBlocks modestPc = 0x8000 by decide] at hlt
  rw [card_range] at hfew
  refine ⟨p, ⟨_, hentered, hrun⟩, ⟨by omega, fun h0 ↦ ?_⟩, hmany⟩
  rw [hp.cr3] at h0
  omega

end Modest

section Runs

theorem heapRun_of_heapCalls (h : HeapCalls p s live sizes) (hsizes : NoneWraps sizes) :
    HeapRun (beforeHeap p) s live := by
  induction h with
  | init hr => exact .init hr
  | alloc _ hn hlt hr ih =>
    obtain ⟨hle, hsizes⟩ := List.forall_mem_cons.mp hsizes
    exact .alloc (ih hsizes) ((Sizes.validSize_iff hn hlt).mpr hle) hr
  | release _ hq hr ih => exact .release (ih hsizes) hq hr
  | store v _ hq ha ha' hr ih => exact .store v (ih hsizes) hq ha ha' hr

/-- In every run the heap is a list of blocks, in pages that are backed. -/
theorem heapRun_live (hb : Booted P p) (h : HeapRun (beforeHeap p) s live) :
    ∃ bs hi, Represented (kernelWindow P p) s bs hi ∧ Live bs live := by
  have hinv : (kernelWindow P p).inv (beforeHeap p).mem := heapBacked_of_started (started_of_booted hb)
  exact heapRun_inv hinv rfl rfl h

theorem Represented.heapCurrentEnd
    (h : Represented (heapWindow P dir table total m₀) s bs hi) :
    s.vars.heapCurrentEnd = heapPage s.mem.vars.length := by
  have hacc := inHeap_inj h.acc (Nat.le_add_right ..) h.shape.started.le
  rw [h.vars]
  exact hacc.symm

theorem exists_heapPage {k a : ℕ} (hdvd : 4096 ∣ a) (ha : InHeap (heapPage k) a) :
    ∃ j < k, a = heapPage j := by
  obtain ⟨hlo, hhi⟩ := ha
  unfold heapPage kheapStart at *
  exact ⟨(a - 0xD0000000) / 4096, by omega, by omega⟩

theorem HeapBacked.privatelyBacked (h : HeapBacked P dir table total m₀ s.mem)
    (hend : s.vars.heapCurrentEnd = heapPage s.mem.vars.length) : PrivatelyBacked P s := by
  have hb := h.backed
  have hpages := hb.pages
  obtain rfl := hb.cr3
  refine ⟨fun a hdvd ha ↦ ?_, fun a b hdvd hdvd' ha hb heq ↦ ?_, fun a f hdvd ha hf ↦ ?_,
    fun a f hdvd ha hf ↦ ?_⟩ <;> rw [hend] at ha <;> obtain ⟨j, hj, rfl⟩ := exists_heapPage hdvd ha
  · exact hpages.pages j hj
  · rw [hend] at hb
    obtain ⟨i, hi, rfl⟩ := exists_heapPage hdvd' hb
    rw [hpages.distinct j hj i hi heq]
  · obtain ⟨hdir, hslots⟩ := hpages.apart j hj f hf
    refine ⟨hdir, fun d hd hp ↦ ?_⟩
    by_cases hlast : d = 1023
    · subst hlast
      have hself := hpages.hierarchy.self_frame
      exact fun heq ↦ hdir (heq.symm.trans hself)
    · exact hslots d (by omega) hp
  · exact (hb.owned f (.inr (.inr ⟨j, hj, hf⟩))).2

/-- While no request wraps around, each page of the heap has a frame of its own. -/
theorem heapCalls_privatelyBacked (hb : Booted P p) (h : HeapCalls p s live sizes)
    (hsizes : NoneWraps sizes) : PrivatelyBacked P s := by
  obtain ⟨bs, hi, hrep, -⟩ := heapRun_live hb (heapRun_of_heapCalls h hsizes)
  exact HeapBacked.privatelyBacked hrep.inv (Represented.heapCurrentEnd hrep)

/-- A request for 2 MiB makes the heap grow, and is released again. -/
theorem heapCalls_privatelyBacked_modestPc : ∃ p s s' q, Booted modestPlatform p ∧
    HeapCalls p s [(q, 0x200000)] [0x200000] ∧ kheapStart + kheapInitialSize < s.vars.heapCurrentEnd ∧
    (kfree q).run s = .ok () s' ∧ PrivatelyBacked modestPlatform s ∧ PrivatelyBacked modestPlatform s' := by
  obtain ⟨p, hb, -, hmany⟩ := exists_booted_modestPc
  obtain ⟨s, hinit, hrep⟩ := kheapInit_many (started_of_booted hb) (by omega)
  have hvalid : ValidSize 0x200000 := ⟨by decide, by decide, by decide⟩
  have htables : 1025 + heapTables 1025 = 1027 := by decide
  have hpages : pagesNeeded (roundUp 0x200000) = 513 := by decide
  have hfit : s.vars.heapCurrentEnd + pagesNeeded (roundUp 0x200000) * pageSize ≤ heapPage 1025 := by
    rw [hrep.vars, hpages]
    decide
  obtain ⟨s₁, hexp⟩ := kheapExpand_many hrep.inv (by omega) (by decide) (Represented.heapCurrentEnd hrep) hfit
  obtain ⟨q, bs, s', -, hrun, hbecame⟩ := kmalloc_grown hvalid hrep rfl le_rfl hexp
  have hcalls : HeapCalls p s' [(q, 0x200000)] [0x200000] := .alloc (.init hinit) (by decide) (by decide) hrun
  have hsizes : NoneWraps [0x200000] := List.forall_mem_singleton.mpr (by decide)
  obtain ⟨bs', hi, hrep', hlive⟩ := heapRun_live hb (heapRun_of_heapCalls hcalls hsizes)
  obtain ⟨s'', hfree⟩ := Run.Represented.kfree_returns hrep' hlive (p := q) (n := 0x200000) (by simp)
  have hend : kheapStart + kheapInitialSize < s'.vars.heapCurrentEnd := by
    rw [hbecame.represented.vars, hpages]
    decide
  exact ⟨p, s', s'', q, hb, hcalls, hend, hfree, heapCalls_privatelyBacked hb hcalls hsizes,
    heapCalls_privatelyBacked hb (.release hcalls List.mem_cons_self hfree) hsizes⟩

end Runs

section Sparse

variable {t t' : KernelMemory} {pages : ℕ} {e : Stop}

/-- While there is a frame, each page and each table has cost one. -/
theorem HeapBacked.count_of_nonempty (h : HeapBacked P dir table total m₀ t) (hfree : (P.free t.mem.mem.mem).Nonempty) :
    #(P.free t.mem.mem.mem) + (t.vars.length + heapTables t.vars.length) = total :=
  h.backed.count.elim id fun hover ↦ absurd hover.1 hfree.ne_empty

/-- There is a place for it in the heap, too. -/
theorem HeapBacked.place_of_few (h : HeapBacked P dir table total m₀ t) (hfew : total ≤ 195775)
    (hfree : (P.free t.mem.mem.mem).Nonempty) : heapPage t.vars.length + 4096 ≤ vmmPageTables := by
  have hpos := card_pos.mpr hfree
  have hcount := HeapBacked.count_of_nonempty h hfree
  unfold heapTables at hcount
  unfold heapPage kheapStart vmmPageTables
  omega

/-- And there is a frame for its table. -/
theorem HeapBacked.room (h : HeapBacked P dir table total m₀ t) (hapart : dir = 0 → total % 1025 ≠ 1)
    (hfree : (P.free t.mem.mem.mem).Nonempty) (hmod : t.vars.length % 1024 = 0) (hdir : dir = 0) :
    1 < #(P.free t.mem.mem.mem) := by
  have hpos := card_pos.mpr hfree
  have hcount := HeapBacked.count_of_nonempty h hfree
  unfold heapTables at hcount
  by_contra hone
  exact hapart hdir (by omega)

/-- With few frames the heap ends for want of frames only, and nothing is lost then. -/
theorem HeapBacked.backPage_stop (h : HeapBacked P dir table total m₀ t) (hfew : total ≤ 195775)
    (hapart : dir = 0 → total % 1025 ≠ 1)
    (hr : (backPage (heapPage t.vars.length)).run t = .error e t') : t' = t := by
  by_cases hfree : P.free t.mem.mem.mem = ∅
  · cases (backPage_none h hfree).symm.trans hr
    rfl
  · have hne := nonempty_iff_ne_empty.mpr hfree
    have hk := HeapBacked.place_of_few h hfew hne
    obtain ⟨t'', hrun, -⟩ := h.grow hne hk (HeapBacked.room h hapart hne)
    cases hrun.symm.trans hr

theorem HeapBacked.kheapExpand_stop (hfew : total ≤ 195775) (hapart : dir = 0 → total % 1025 ≠ 1)
    (h : HeapBacked P dir table total m₀ s.mem)
    (hend : s.vars.heapCurrentEnd = heapPage s.mem.vars.length)
    (hr : (kheapExpand pages).run s = .error e s') : HeapBacked P dir table total m₀ s'.mem := by
  obtain ⟨j, s₁, t, -, hrun, hback, rfl⟩ := kheapExpand_error hr
  obtain ⟨h₁, hend₁, -⟩ := kheapExpand_backed h hend hrun
  rw [hend₁] at hback
  rw [HeapBacked.backPage_stop h₁ hfew hapart hback]
  exact h₁

theorem HeapBacked.staysBelow (h : HeapBacked P dir table total (memoryOf s) s'.mem)
    (hdir : directoryOf s = dir) : StaysBelow s s' := by
  subst hdir
  exact ⟨h.mapped, h.directory⟩

/-- The directory may be compared with any state in which its tables are the same. -/
theorem Represented.rebase (h : Represented (heapWindow P dir table total m₀) s bs hi) :
    Represented (heapWindow P dir table total (memoryOf s)) s bs hi :=
  ⟨⟨h.inv.backed, h.inv.mapped, fun _ _ _ ↦ rfl⟩, h.acc, h.vars, h.blocks, h.shape⟩

/-- What `kmalloc` leaves behind, whether it comes back or not. -/
theorem Represented.stateAfter_kmalloc
    (h : Represented (heapWindow P dir table total m₀) s bs hi) (hfew : total ≤ 195775)
    (hapart : dir = 0 → total % 1025 ≠ 1) (hn : ValidSize n) :
    HeapBacked P dir table total m₀ (stateAfter (kmalloc fuel n) s).mem := by
  cases hr : (kmalloc fuel n).run s with
  | ok q s' =>
    obtain ⟨bs', hi', -, hb⟩ := kmalloc_ok hn h hr
    rw [stateAfter_ok hr]
    exact hb.represented.inv
  | error e s' =>
    rw [stateAfter_error hr]
    obtain ⟨bs', hi', h'⟩ | hexp := Outcomes.kmalloc_error hn h hr
    · exact h'.inv
    · exact HeapBacked.kheapExpand_stop hfew hapart h.inv (Represented.heapCurrentEnd h) hexp

theorem stateAfter_kheapInit (h : HeapBacked P dir table total m₀ (beforeHeap p).mem)
    (hfew : total ≤ 195775) (hapart : dir = 0 → total % 1025 ≠ 1) :
    HeapBacked P dir table total m₀ (stateAfter kheapInit (beforeHeap p)).mem := by
  have hinv : (heapWindow P dir table total m₀).inv (beforeHeap p).mem := h
  cases hexp : (kheapExpand (kheapInitialSize / pageSize)).run (beforeHeap p) with
  | ok u s₁ =>
    obtain ⟨s', hrun, hrep⟩ := kheapInit_of_expand hinv rfl rfl hexp
    rw [stateAfter_ok hrun]
    exact hrep.inv
  | error e s₁ =>
    have hrun : kheapInit.run (beforeHeap p) = .error e s₁ := by
      rw [kheapInit, run_bind_error hexp]
    rw [stateAfter_error hrun]
    exact HeapBacked.kheapExpand_stop hfew hapart h rfl hexp

theorem neverBeyond_of_sparse (hb : Booted P p) (hsparse : Sparse P p) :
    NeverBeyond (· ≤ 0xFFFFEFF0) p := by
  obtain ⟨hfew, hapart⟩ := hsparse
  refine ⟨?_, fun s live sizes h hsizes fuel n hn hlt hle ↦ ?_⟩
  · have hstart := heapBacked_of_started (started_of_booted hb)
    exact HeapBacked.staysBelow (stateAfter_kheapInit (p := p) hstart hfew hapart) rfl
  · obtain ⟨bs, hi, hrep, -⟩ := heapRun_live hb (heapRun_of_heapCalls h hsizes)
    have hvalid := (Sizes.validSize_iff hn hlt).mpr hle
    exact HeapBacked.staysBelow (Represented.stateAfter_kmalloc (Represented.rebase hrep) hfew
      hapart hvalid) hrep.inv.backed.cr3

end Sparse

end KevOS.Memory.HeapRuns
