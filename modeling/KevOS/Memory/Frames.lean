import KevOS.Memory.Mapped
import KevOS.Pmm.Refinement

namespace KevOS.Memory.Frames

open Lib.Program Lib.ByteMemory Lib.Bits Lib.Paging Machine Pmm Bitmap Pmm.Init Pmm.Refinement
open Vmm Vmm.Init MapPage Heap Mapped Finset

/-- A kernel and a memory map with which it starts: available memory ends below 4 GiB, and
the kernel image with the tables of `boot.S` in it, the bitmap and the two lowest free
pages lie in the first 4 MiB. -/
structure Platform where
  img : KernelImage
  mmap : List MultibootMmapEntry
  boot : BootTables
  below : EndsBelow4G mmap
  boot_inside : img.physStart ≤ boot.bootPageDirectory ∧ boot.bootPageTable1 + 4096 ≤ img.physEnd
  bitmap_low : img.physEnd + bitmapSize (maxBlocks mmap) ≤ identityLimit
  frames_low : ∃ i j, i < j ∧ j < 1024 ∧ BootFree img mmap i ∧ BootFree img mmap j

namespace Platform

variable (P : Platform)

def base : ℕ := P.img.physEnd

def blocks : ℕ := maxBlocks P.mmap

/-- The pages the bitmap shows as free. -/
def free (m : Bytes) : Finset ℕ := freePages m P.base P.blocks

def InBitmap (a : ℕ) : Prop := P.base ≤ a ∧ a < P.base + bitmapSize P.blocks

/-- The page of the frame `f` holds nothing of the kernel image or the bitmap. -/
def Unreserved (f : ℕ) : Prop := ¬ Reserved P.img P.blocks (f / 4096)

theorem blocks_lt : P.blocks < 1048576 := maxBlocks_lt_of_endsBelow P.below

theorem reserved_of_inBitmap {a : ℕ} (ha : P.InBitmap a) : Reserved P.img P.blocks (a / 4096) := by
  have hlt := P.blocks_lt
  have hend : kernelAndBitmapEndBlock P.img P.blocks = _ :=
    kernelAndBitmapEndBlock_eq (show P.blocks < 4294967296 by omega)
  have hstart := P.img.start_le
  have hphys := physEnd_eq P.img
  obtain ⟨hlo, hhi⟩ := ha
  unfold Reserved kernelStartBlock pageSize
  rw [hend, physStart_eq]
  unfold base at hlo hhi
  omega

variable {P}

theorem Unreserved.not_inBitmap {f a : ℕ} (hf : P.Unreserved f) (hdvd : 4096 ∣ f)
    (ha : f ≤ a) (ha' : a < f + 4096) : ¬ P.InBitmap a := by
  intro hin
  have hpage : a / 4096 = f / 4096 := by omega
  exact hf (hpage ▸ P.reserved_of_inBitmap hin)

theorem free_congr {m m' : Bytes} (hm : ∀ a, P.InBitmap a → m' a = m a) :
    P.free m' = P.free m := by
  ext i
  unfold free
  rw [mem_freePages, mem_freePages]
  refine and_congr_right fun hi ↦ ?_
  rw [bitAt_congr (hm _ ⟨Nat.le_add_right _ _, Nat.add_lt_add_left (div_lt_bitmapSize hi) _⟩)]

theorem counted_congr {m m' : Bytes} (hm : ∀ a, P.InBitmap a → m' a = m a) :
    counted m' P.base P.blocks = counted m P.base P.blocks := by
  have hused := card_used_add_free m' P.base P.blocks
  have hused' := card_used_add_free m P.base P.blocks
  have hfree : freePages m' P.base P.blocks = freePages m P.base P.blocks := free_congr hm
  rw [hfree] at hused
  rw [counted, counted, Nat.add_right_cancel (hused.trans hused'.symm)]

end Platform

section Allocations

variable {P : Platform}

/-- An allocation through an identity map that reaches the bitmap. -/
theorem allocPage_returns {m : Bytes} {d₀ t₀ i : ℕ} (hA : ∀ a, P.InBitmap a → LowAddress d₀ t₀ a)
    (hi : IsLeast (P.free m : Set ℕ) i) :
    Returns (Low d₀ t₀ (counted m P.base P.blocks) m) (allocPage : Prog Paged ℕ) (4096 * i)
      (Low d₀ t₀ (counted (setBit m P.base i) P.base P.blocks) (setBit m P.base i)) := by
  have hblocks := P.blocks_lt
  have hlt : i < P.blocks := (mem_freePages.mp (mem_coe.mp hi.1)).1
  have hw : w32 (i * pageSize) = 4096 * i := by
    unfold pageSize
    rw [w32_of_lt (by omega), Nat.mul_comm]
  have hr := pmmAllocPage_returns (identityWindow d₀ t₀) (show P.blocks < 4294967296 by omega)
    (fun k hk ↦ hA _ ⟨Nat.le_add_right _ _, Nat.add_lt_add_left (div_lt_bitmapSize hk) _⟩) hi
  rw [hw] at hr
  exact hr

theorem setBit_of_not_inBitmap {m : Bytes} {a i : ℕ} (hi : i < P.blocks) (ha : ¬ P.InBitmap a) :
    setBit m P.base i a = m a := by
  apply sameOutside_setBit hi
  unfold Platform.InBitmap at ha
  omega

end Allocations

variable {P : Platform} {m m' : Bytes} {s s₁ : Paged} {dir table total k n held f t : ℕ}

/-- A frame that was taken from the allocator and is not in use yet. -/
structure Spare (P : Platform) (m : Bytes) (dir k f : ℕ) : Prop where
  aligned : 4096 ∣ f
  lt : f < 4294967296
  fresh : ¬ Owned m dir k f
  taken : f / 4096 ∉ P.free m
  unreserved : P.Unreserved f

/-- The first `k` pages of the heap are backed, by frames the allocator gave out: `held`
of the `total` that were free after `vmm_init`. When the last frame went into a page, its
table may have come on top, in frame 0. -/
structure Backed (P : Platform) (dir table total k n held : ℕ) (s : Paged) : Prop where
  cr3 : s.mem.cr3 = dir
  vars : s.vars = counted s.mem.mem P.base P.blocks
  pages : Pages s.mem.mem dir table k n
  boot : ∀ i ∈ P.free s.mem.mem, BootFree P.img P.mmap i
  zero : 0 ∉ P.free s.mem.mem
  owned : ∀ f, Owned s.mem.mem dir k f → f / 4096 ∉ P.free s.mem.mem ∧ P.Unreserved f
  owned_zero : Owned s.mem.mem dir k 0 → dir = 0 ∨ P.free s.mem.mem = ∅
  count : #(P.free s.mem.mem) + held = total ∨ P.free s.mem.mem = ∅ ∧ held = total + 1

theorem Owned.aligned (h : Pages m dir table k n) (ho : Owned m dir k f) : 4096 ∣ f := by
  rcases ho with rfl | ⟨d, -, -, rfl⟩ | ⟨j, -, hf⟩
  · exact h.hierarchy.aligned
  · exact frameOf_dvd _
  · rw [translate_heapPage, Option.map_eq_some_iff] at hf
    obtain ⟨e, -, rfl⟩ := hf
    exact frameOf_dvd _

section Bitmaps

variable (h : Backed P dir table total k n held s)
include h

theorem Backed.owned_table : Owned s.mem.mem dir k table := by
  have hid := h.pages.identity
  exact .inr (.inl ⟨0, by decide, hid.slot_present, hid.slot_frame⟩)

theorem Backed.not_inBitmap {a : ℕ} (ho : Owned s.mem.mem dir k f) (ha : f ≤ a)
    (ha' : a < f + 4096) : ¬ P.InBitmap a :=
  (h.owned f ho).2.not_inBitmap (Owned.aligned h.pages ho) ha ha'

/-- The bitmap is not where the tables are. -/
theorem Backed.not_inBitmap_of_inTables {a : ℕ} (ha : InTables s.mem.mem dir a) :
    ¬ P.InBitmap a := by
  rcases ha with ⟨ha, ha'⟩ | ⟨d, hd, hp, ha, ha'⟩
  · exact h.not_inBitmap (.inl rfl) ha ha'
  · exact h.not_inBitmap (.inr (.inl ⟨d, hd, hp, rfl⟩)) ha ha'

theorem Backed.lowAddress {a : ℕ} (ha : P.InBitmap a) : LowAddress dir table a := by
  have hlow := P.bitmap_low
  refine ⟨lt_of_lt_of_le ha.2 hlow, fun hin ↦ ?_, fun hin ↦ ?_⟩
  · exact h.not_inBitmap (.inl rfl) hin.1 hin.2 ha
  · exact h.not_inBitmap h.owned_table hin.1 hin.2 ha

/-- The allocator sees its bitmap through the identity map. -/
theorem Backed.tracks :
    Tracks (identityWindow dir table) (LowAddress dir table) s.mem.mem P.base P.blocks s := by
  refine sees_iff.mpr ⟨?_, h.pages.identity⟩
  rw [← h.cr3, ← h.vars]

theorem Backed.lowBitmap {i : ℕ} (hi : i < P.blocks) : LowAddress dir table (P.base + i / 8) :=
  h.lowAddress ⟨Nat.le_add_right _ _, Nat.add_lt_add_left (div_lt_bitmapSize hi) _⟩

theorem Backed.alloc_none (hfree : P.free s.mem.mem = ∅) : allocPage.run s = .ok 0 s := by
  obtain ⟨s', hrun, hs'⟩ :=
    pmmAllocPage_full (identityWindow dir table) (fun _ hi ↦ h.lowBitmap hi) hfree s h.tracks
  obtain ⟨hs, -⟩ := sees_iff.mp hs'
  obtain ⟨hs₀, -⟩ := sees_iff.mp h.tracks
  rw [hs, ← hs₀] at hrun
  exact hrun

end Bitmaps

/-- What an allocation changes, when there is a free page. -/
structure Took (P : Platform) (dir table total k n held : ℕ) (s : Paged) (f : ℕ) (s₁ : Paged) :
    Prop where
  run : allocPage.run s = .ok f s₁
  pos : f ≠ 0
  was_free : f / 4096 ∈ P.free s.mem.mem
  free_eq : P.free s₁.mem.mem = (P.free s.mem.mem).erase (f / 4096)
  outside : ∀ a, ¬ P.InBitmap a → s₁.mem.mem a = s.mem.mem a
  spare : Spare P s₁.mem.mem dir k f
  backed : Backed P dir table total k n (held + 1) s₁

theorem Backed.alloc (h : Backed P dir table total k n held s)
    (hfree : (P.free s.mem.mem).Nonempty) : ∃ f s₁, Took P dir table total k n held s f s₁ := by
  have hblocks := P.blocks_lt
  set i := (P.free s.mem.mem).min' hfree
  have hleast : IsLeast (P.free s.mem.mem : Set ℕ) i := isLeast_min' _ hfree
  have hmem : i ∈ P.free s.mem.mem := mem_coe.mp hleast.1
  have hlt : i < P.blocks := (mem_freePages.mp hmem).1
  have hpos : i ≠ 0 := fun h0 ↦ h.zero (h0 ▸ hmem)
  obtain ⟨s₁, hrun, hs₁⟩ := allocPage_returns (fun _ ↦ h.lowAddress) hleast s h.tracks
  obtain ⟨rfl, -⟩ := sees_iff.mp hs₁
  have hdiv : 4096 * i / 4096 = i := Nat.mul_div_cancel_left _ (by decide)
  have houtside (a : ℕ) (ha : ¬ P.InBitmap a) : setBit s.mem.mem P.base i a = s.mem.mem a :=
    setBit_of_not_inBitmap hlt ha
  have htables (a : ℕ) (ha : InTables s.mem.mem dir a) :
      setBit s.mem.mem P.base i a = s.mem.mem a := houtside a (h.not_inBitmap_of_inTables ha)
  have herase : P.free (setBit s.mem.mem P.base i) = (P.free s.mem.mem).erase i := freePages_setBit
  have howned {g : ℕ} (hg : Owned (setBit s.mem.mem P.base i) dir k g) :
      Owned s.mem.mem dir k g := Owned.congr h.pages.bounded htables hg
  have hnotin {j : ℕ} (hj : j ∉ P.free s.mem.mem) : j ∉ (P.free s.mem.mem).erase i :=
    fun hin ↦ hj (mem_of_mem_erase hin)
  have hne : P.free s.mem.mem ≠ ∅ := hfree.ne_empty
  refine ⟨_, _, hrun, by omega, hdiv.symm ▸ hmem, by rw [hdiv]; exact herase, houtside, ?_, ?_⟩
  · refine ⟨Nat.dvd_mul_right .., by omega, fun ho ↦ ?_, ?_, ?_⟩
    · have htaken := (h.owned _ (howned ho)).1
      rw [hdiv] at htaken
      exact htaken hmem
    · rw [hdiv, herase]
      exact notMem_erase i _
    · unfold Platform.Unreserved
      rw [hdiv]
      exact (h.boot i hmem).2.2
  · refine ⟨rfl, rfl, h.pages.congr htables, fun j hj ↦ ?_, ?_, fun g hg ↦ ?_, fun hg ↦ ?_, ?_⟩
    · rw [herase] at hj
      exact h.boot j (mem_of_mem_erase hj)
    · rw [herase]
      exact hnotin h.zero
    · rw [herase]
      exact ⟨hnotin (h.owned g (howned hg)).1, (h.owned g (howned hg)).2⟩
    · exact (h.owned_zero (howned hg)).imp_right fun hempty ↦ absurd hempty hne
    · rw [herase]
      have hcard := card_erase_add_one hmem
      rcases h.count with hcount | ⟨hempty, -⟩
      · left
        omega
      · exact absurd hempty hne

/-- Writes that spare the bitmap and the tables. -/
theorem Backed.congr (h : Backed P dir table total k n held s)
    (hm : ∀ a, P.InBitmap a ∨ InTables s.mem.mem dir a → m a = s.mem.mem a) :
    Backed P dir table total k n held (withPhys s m) := by
  have hbitmap (a : ℕ) (ha : P.InBitmap a) : m a = s.mem.mem a := hm a (.inl ha)
  have htables (a : ℕ) (ha : InTables s.mem.mem dir a) : m a = s.mem.mem a := hm a (.inr ha)
  have hfree : P.free m = P.free s.mem.mem := Platform.free_congr hbitmap
  have howned {f : ℕ} (hf : Owned m dir k f) : Owned s.mem.mem dir k f :=
    Owned.congr h.pages.bounded htables hf
  refine ⟨h.cr3, h.vars.trans (Platform.counted_congr hbitmap).symm, h.pages.congr htables, ?_, ?_,
    fun f hf ↦ ?_, fun hf ↦ ?_, ?_⟩ <;> rw [withPhys_mem, hfree]
  · exact h.boot
  · exact h.zero
  · exact h.owned f (howned hf)
  · exact h.owned_zero (howned hf)
  · exact h.count

/-- With no page left, a table may still be taken: it comes to lie in frame 0. -/
theorem Backed.overdraw (h : Backed P dir table total k n held s) (hfree : P.free s.mem.mem = ∅)
    (hcount : held = total) : Backed P dir table total k n (held + 1) s :=
  ⟨h.cr3, h.vars, h.pages, h.boot, h.zero, h.owned, h.owned_zero, .inr ⟨hfree, by omega⟩⟩

section Mapping

variable (h : Backed P dir table total k n held s)
include h

/-- The frame `f` comes into use by writes that spare the bitmap. -/
theorem Backed.enter {k' n' : ℕ} (hm : ∀ a, P.InBitmap a → m' a = s.mem.mem a)
    (hpages : Pages m' dir table k' n')
    (howned : ∀ g, Owned m' dir k' g → Owned s.mem.mem dir k g ∨ g = f)
    (hf : Spare P s.mem.mem dir k f) (hzero : f = 0 → P.free s.mem.mem = ∅) :
    Backed P dir table total k' n' held (withPhys s m') := by
  have hfree : P.free m' = P.free s.mem.mem := Platform.free_congr hm
  refine ⟨h.cr3, h.vars.trans (Platform.counted_congr hm).symm, hpages, ?_, ?_, fun g hg ↦ ?_,
    fun hg ↦ ?_, ?_⟩ <;> rw [withPhys_mem, hfree]
  · exact h.boot
  · exact h.zero
  · rcases howned g hg with hg | rfl
    · exact h.owned g hg
    · exact ⟨hf.taken, hf.unreserved⟩
  · rcases howned 0 hg with hg | hg
    · exact h.owned_zero hg
    · exact .inr (hzero hg.symm)
  · exact h.count

theorem Backed.mapNext_of_inBitmap (hd : dirIndex (heapPage k) < 1023)
    (hp : Present (entry s.mem.mem dir (dirIndex (heapPage k)))) {a : ℕ} (ha : P.InBitmap a) :
    mapNext s.mem.mem dir k f a = s.mem.mem a := by
  have hi := tableIndex_lt (heapPage k)
  have hnot := fun hlo hhi ↦ h.not_inBitmap (a := a) (.inr (.inl ⟨_, hd, hp, rfl⟩)) hlo hhi ha
  apply setWord_of_ne
  by_contra hc
  exact hnot (by omega) (by omega)

/-- Mapping the next page through a table that is there. -/
theorem Backed.mapNext (hp : Present (entry s.mem.mem dir (dirIndex (heapPage k))))
    (hk : heapPage k + 4096 ≤ vmmPageTables) (hf : Spare P s.mem.mem dir k f) (hpos : f ≠ 0) :
    Backed P dir table total (k + 1) n held (withPhys s (mapNext s.mem.mem dir k f)) :=
  h.enter (fun _ ↦ h.mapNext_of_inBitmap (dirIndex_next_lt hk) hp)
    (h.pages.mapNext hp hk hf.aligned hf.lt hf.fresh)
    (fun _ ↦ h.pages.owned_mapNext hp hk hf.aligned hf.lt) hf fun h0 ↦ absurd h0 hpos

theorem Backed.tableNext_of_inBitmap (hd : dirIndex (heapPage k) < 1023)
    (ht : Spare P s.mem.mem dir k t) {a : ℕ} (ha : P.InBitmap a) :
    tableNext s.mem.mem dir k t a = s.mem.mem a := by
  have hnot := fun hlo hhi ↦ ht.unreserved.not_inBitmap (a := a) ht.aligned hlo hhi ha
  have hnot' := fun hlo hhi ↦ h.not_inBitmap (a := a) (.inl rfl) hlo hhi ha
  rw [Mapped.tableNext, addTable, frameOf_directoryEntry ht.aligned, fill_of_ne]
  · apply setWord_of_ne
    by_contra hc
    exact hnot' (by omega) (by omega)
  · by_contra hc
    exact hnot (by omega) (by omega)

variable (hn : dirIndex (heapPage k) = 832 + n) (hd : dirIndex (heapPage k) < 1023)
include hn hd

theorem Backed.not_present_next :
    ¬ Present (entry s.mem.mem dir (dirIndex (heapPage k))) := by
  rw [h.pages.slots _ hd]
  rintro (hs | ⟨-, hlt⟩)
  · exact not_shared_heapPage k hs
  · omega

/-- Adding the table for the next page. -/
theorem Backed.tableNext (ht : Spare P s.mem.mem dir k t) (hzero : t = 0 → P.free s.mem.mem = ∅) :
    Backed P dir table total k (n + 1) held (withPhys s (tableNext s.mem.mem dir k t)) := by
  have hp := h.not_present_next hn hd
  exact h.enter (fun _ ↦ h.tableNext_of_inBitmap hd ht)
    (h.pages.tableNext hp hd ht.aligned ht.lt ht.fresh hn)
    (fun _ ↦ h.pages.owned_tableNext hp hd ht.aligned ht.lt ht.fresh) ht hzero

theorem Backed.spare_tableNext (ht : Spare P s.mem.mem dir k t) (hf : Spare P s.mem.mem dir k f)
    (hne : f ≠ t) : Spare P (Mapped.tableNext s.mem.mem dir k t) dir k f := by
  have hp := h.not_present_next hn hd
  have hfree : P.free (Mapped.tableNext s.mem.mem dir k t) = P.free s.mem.mem :=
    Platform.free_congr fun _ ↦ h.tableNext_of_inBitmap hd ht
  refine ⟨hf.aligned, hf.lt, fun ho ↦ ?_, by rw [hfree]; exact hf.taken, hf.unreserved⟩
  rcases h.pages.owned_tableNext hp hd ht.aligned ht.lt ht.fresh ho with ho | heq
  · exact hf.fresh ho
  · exact hne heq

end Mapping

end KevOS.Memory.Frames
