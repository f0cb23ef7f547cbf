import KevOS.Memory.Boot
import KevOS.Pmm.Survival
import KevOS.Vmm.Mapping

namespace KevOS.Memory.Exhausted

open Lib.Program Lib.ByteMemory Lib.Bits Lib.Paging Machine Pmm Bitmap Pmm.Init Pmm.Refinement
open Vmm Vmm.Init MapPage Mapping Heap Frames Boot Finset

/-- The states of memory from `vmm_init` on: pages are taken and given back, mapped outside
the kernel's own windows, and written to. Nobody gives back or overwrites a page table, or
writes over the bitmap. -/
inductive MemRun (P : Platform) : Paged → Prop
  | boot {s₀ s : Paged} : Entered P s₀ → (bootMemory P.img P.mmap).run s₀ = .ok () s → MemRun P s
  | alloc {s s' : Paged} {f : ℕ} : MemRun P s → pmmAllocPage.run s = .ok f s' → MemRun P s'
  | release {s s' : Paged} {ptr : ℕ} : MemRun P s → BootFree P.img P.mmap (ptr / pageSize) →
      ¬ InTables s.mem.mem s.mem.cr3 ptr → (pmmFreePage ptr).run s = .ok () s' → MemRun P s'
  | map {s s' : Paged} {phys virt flags : ℕ} : MemRun P s → Mappable phys virt →
      (vmmMapPage phys virt flags).run s = .ok () s' → MemRun P s'
  | write {s : Paged} {m : Bytes} : MemRun P s →
      (∀ a, P.InBitmap a ∨ InTables s.mem.mem s.mem.cr3 a → m a = s.mem.mem a) →
      MemRun P (withPhys s m)

/-- The state in which a call ends, be it by a fault. -/
def stateAfter {σ α : Type} (x : Prog σ α) (s : σ) : σ :=
  match x.run s with
  | .ok _ s' => s'
  | .error _ s' => s'

/-- The directory, the tables in it and every translation are as they were. -/
structure Unchanged (s s' : Paged) : Prop where
  cr3 : s'.mem.cr3 = s.mem.cr3
  directory : ∀ d < 1024, entry s'.mem.mem s.mem.cr3 d = entry s.mem.mem s.mem.cr3 d
  tables : ∀ d < 1024, Present (entry s.mem.mem s.mem.cr3 d) → ∀ i < 1024,
    entry s'.mem.mem (frameOf (entry s.mem.mem s.mem.cr3 d)) i =
      entry s.mem.mem (frameOf (entry s.mem.mem s.mem.cr3 d)) i
  translations : ∀ a < 4294967296, Lib.Paging.translate s'.mem.mem s'.mem.cr3 a =
    Lib.Paging.translate s.mem.mem s.mem.cr3 a

/-- What every run keeps. Slots may come to share a table, in frame 0. -/
structure Kept (P : Platform) (dir table : ℕ) (s : Paged) : Prop where
  cr3 : s.mem.cr3 = dir
  vars : s.vars = counted s.mem.mem P.base P.blocks
  hierarchy : Hierarchy (fun _ ↦ True) s.mem.mem dir
  identity : Identity s.mem.mem dir table
  alone : ∀ d < 1023, Present (entry s.mem.mem dir d) → frameOf (entry s.mem.mem dir d) = table →
    Shared d
  table_pos : table ≠ 0
  zero : BootFree P.img P.mmap 0 → dir = 0
  free : ∀ i ∈ P.free s.mem.mem, BootFree P.img P.mmap i
  apart : ∀ a, InTables s.mem.mem dir a → ¬ P.InBitmap a ∧ a / 4096 ∉ P.free s.mem.mem

section Invariant

variable {P : Platform} {dir table f ptr : ℕ} {s s₁ s' : Paged} {m : Bytes}

theorem kept_of_started (h : Started P dir table s) : Kept P dir table s := by
  have haligned := h.hierarchy.aligned
  have htable : 4096 ∣ table := h.identity.slot_frame ▸ frameOf_dvd _
  have hlt := h.ordered
  refine ⟨h.cr3, h.vars, h.hierarchy.weaken, h.identity, fun d hd hp _ ↦ (h.slots d hd).mp hp,
    by omega, fun h0 ↦ ?_, fun i hi ↦ ((h.free i).mp hi).1, fun a ha ↦ ?_⟩
  · have hle := h.dir_taken.2 h0
    omega
  · -- The two tables lie in pages that were free at boot.
    have hpage : a / 4096 = dir / 4096 ∨ a / 4096 = table / 4096 := by
      rcases ha with ⟨hlo, hhi⟩ | ⟨d, hd, hp, hlo, hhi⟩
      · left
        omega
      · rw [h.frames d hd hp] at hlo hhi
        right
        omega
    have hfree : BootFree P.img P.mmap (a / 4096) := by
      rcases hpage with hpage | hpage <;> rw [hpage]
      · exact h.dir_taken.1
      · exact h.table_taken
    refine ⟨not_inBitmap_of_bootFree hfree ⟨by omega, by omega⟩, fun hin ↦ ?_⟩
    obtain ⟨-, hne, hne'⟩ := (h.free _).mp hin
    exact hpage.elim hne hne'

theorem inTables_dir {a : ℕ} (ha : InPage dir a) : InTables m dir a := .inl ha

section Bitmaps

variable (h : Kept P dir table s)
include h

theorem Kept.inTables_table {a : ℕ} (ha : InPage table a) : InTables s.mem.mem dir a := by
  have hf := h.identity.slot_frame
  refine .inr ⟨0, by decide, h.identity.slot_present, ?_⟩
  rw [hf]
  exact ha

theorem Kept.table_aligned : 4096 ∣ table := h.identity.slot_frame ▸ frameOf_dvd _

theorem Kept.lowAddress {a : ℕ} (ha : P.InBitmap a) : LowAddress dir table a :=
  ⟨lt_of_lt_of_le ha.2 P.bitmap_low, fun hin ↦ (h.apart a (inTables_dir hin)).1 ha,
    fun hin ↦ (h.apart a (h.inTables_table hin)).1 ha⟩

theorem Kept.low : Low dir table (counted s.mem.mem P.base P.blocks) s.mem.mem s := by
  refine sees_iff.mpr ⟨?_, h.identity⟩
  rw [← h.cr3, ← h.vars]

theorem Kept.identity_of_sameTables (hm : ∀ a, InTables s.mem.mem dir a → m a = s.mem.mem a) :
    Identity m dir table := by
  refine h.identity.of_entries (entry_of_sameTables hm (by decide)) fun i hi ↦ ?_
  have ht := entry_table_of_sameTables hm (by decide) h.identity.slot_present hi
  rwa [h.identity.slot_frame] at ht

theorem Kept.alone_of_sameTables (hm : ∀ a, InTables s.mem.mem dir a → m a = s.mem.mem a) :
    ∀ d < 1023, Present (entry m dir d) → frameOf (entry m dir d) = table → Shared d := by
  intro d hd
  rw [entry_of_sameTables hm (by omega)]
  exact h.alone d hd

/-- A change of the tables, with what it keeps. -/
theorem Kept.update (hbitmap : ∀ a, P.InBitmap a → m a = s.mem.mem a)
    (hhier : Hierarchy (fun _ ↦ True) m dir) (hid : Identity m dir table)
    (halone : ∀ d < 1023, Present (entry m dir d) → frameOf (entry m dir d) = table → Shared d)
    (hapart : ∀ a, InTables m dir a →
      InTables s.mem.mem dir a ∨ (¬ P.InBitmap a ∧ a / 4096 ∉ P.free s.mem.mem)) :
    Kept P dir table (withPhys s m) := by
  have hfree : P.free m = P.free s.mem.mem := Platform.free_congr hbitmap
  refine ⟨h.cr3, h.vars.trans (Platform.counted_congr hbitmap).symm, hhier, hid, halone,
    h.table_pos, h.zero, fun i hi ↦ ?_, fun a ha ↦ ?_⟩
  · rw [withPhys_mem, hfree] at hi
    exact h.free i hi
  · rw [withPhys_mem, hfree]
    exact (hapart a ha).elim (h.apart a) id

theorem Kept.rebitmap (hout : ∀ a, ¬ P.InBitmap a → m a = s.mem.mem a)
    (hfree : ∀ i ∈ P.free m, i ∈ P.free s.mem.mem ∨
      (BootFree P.img P.mmap i ∧ ∀ a, InTables s.mem.mem dir a → a / 4096 ≠ i)) :
    Kept P dir table ⟨⟨m, dir⟩, counted m P.base P.blocks⟩ := by
  have htables (a : ℕ) (ha : InTables s.mem.mem dir a) : m a = s.mem.mem a :=
    hout a (h.apart a ha).1
  refine ⟨rfl, rfl, h.hierarchy.congr fun _ hd ↦ entry_of_sameTables htables hd,
    h.identity_of_sameTables htables, h.alone_of_sameTables htables, h.table_pos, h.zero,
    fun i hi ↦ ?_, fun a ha ↦ ?_⟩
  · exact (hfree i hi).elim (h.free i) And.left
  · have ha' := inTables_of_sameTables htables ha
    refine ⟨(h.apart a ha').1, fun hin ↦ ?_⟩
    rcases hfree _ hin with hold | ⟨-, hne⟩
    · exact (h.apart a ha').2 hold
    · exact hne a ha' rfl

theorem Kept.write (hm : ∀ a, P.InBitmap a ∨ InTables s.mem.mem dir a → m a = s.mem.mem a) :
    Kept P dir table (withPhys s m) := by
  have htables (a : ℕ) (ha : InTables s.mem.mem dir a) : m a = s.mem.mem a := hm a (.inr ha)
  exact h.update (fun a ha ↦ hm a (.inl ha))
    (h.hierarchy.congr fun _ hd ↦ entry_of_sameTables htables hd)
    (h.identity_of_sameTables htables) (h.alone_of_sameTables htables)
    fun a ha ↦ .inl (inTables_of_sameTables htables ha)

/-- An allocation takes the lowest free page, or comes back with 0 and nothing done. -/
theorem Kept.alloc : ∃ f s₁, allocPage.run s = .ok f s₁ ∧ Kept P dir table s₁ ∧
    (P.free s.mem.mem = ∅ ∧ f = 0 ∧ s₁ = s ∨
      ∃ i ∈ P.free s.mem.mem, f = 4096 * i ∧ P.free s₁.mem.mem = (P.free s.mem.mem).erase i ∧
        ∀ a, ¬ P.InBitmap a → s₁.mem.mem a = s.mem.mem a) := by
  rcases (P.free s.mem.mem).eq_empty_or_nonempty with hempty | hne
  · obtain ⟨s', hrun, hs'⟩ := pmmAllocPage_full (identityWindow dir table)
      (fun k hk ↦ h.lowAddress ⟨Nat.le_add_right _ _, Nat.add_lt_add_left (div_lt_bitmapSize hk) _⟩)
      hempty s h.low
    have hs : s' = s := (sees_iff.mp hs').1.trans (sees_iff.mp h.low).1.symm
    exact ⟨0, s, hs ▸ hrun, h, .inl ⟨hempty, rfl, rfl⟩⟩
  · set i := (P.free s.mem.mem).min' hne
    have hleast : IsLeast (P.free s.mem.mem : Set ℕ) i := isLeast_min' _ hne
    have hmem := mem_coe.mp hleast.1
    have herase : P.free (setBit s.mem.mem P.base i) = (P.free s.mem.mem).erase i :=
      freePages_setBit
    have hout (a : ℕ) (ha : ¬ P.InBitmap a) : setBit s.mem.mem P.base i a = s.mem.mem a :=
      setBit_of_not_inBitmap (mem_freePages.mp hmem).1 ha
    obtain ⟨s', hrun, hs'⟩ := allocPage_returns (fun _ ↦ h.lowAddress) hleast s h.low
    obtain ⟨rfl, -⟩ := sees_iff.mp hs'
    refine ⟨_, _, hrun, h.rebitmap hout fun j hj ↦ .inl ?_, .inr ⟨i, hmem, rfl, herase, hout⟩⟩
    rw [herase] at hj
    exact mem_of_mem_erase hj

theorem Kept.alloc_none (hfree : P.free s.mem.mem = ∅) : allocPage.run s = .ok 0 s := by
  obtain ⟨f, s₁, hrun, -, ⟨-, rfl, rfl⟩ | ⟨i, hi, -⟩⟩ := h.alloc
  · exact hrun
  · rw [hfree] at hi
    exact absurd hi (notMem_empty i)

theorem Kept.release (hboot : BootFree P.img P.mmap (ptr / pageSize))
    (hout : ¬ InTables s.mem.mem dir ptr) :
    ∃ s', (pmmFreePage ptr).run s = .ok () s' ∧ Kept P dir table s' := by
  have hA (k : ℕ) (hk : k < P.blocks) : LowAddress dir table (P.base + k / 8) :=
    h.lowAddress ⟨Nat.le_add_right _ _, Nat.add_lt_add_left (div_lt_bitmapSize hk) _⟩
  have hlt : ptr / pageSize < P.blocks := hboot.1
  cases hbit : bitAt s.mem.mem P.base (ptr / pageSize) with
  | true =>
    have hblocks := P.blocks_lt
    obtain ⟨s', hrun, hs'⟩ := pmmFreePage_returns (identityWindow dir table)
      (show P.blocks < 4294967296 by omega) hA hlt hbit s h.low
    obtain ⟨rfl, -⟩ := sees_iff.mp hs'
    refine ⟨_, hrun, h.rebitmap (fun a ha ↦ ?_) fun i hi ↦ ?_⟩
    · apply sameOutside_clearBit hlt
      unfold Platform.InBitmap at ha
      omega
    · rw [Platform.free, freePages_clearBit hlt, mem_insert] at hi
      rcases hi with rfl | hi
      · exact .inr ⟨hboot, fun a ha hpage ↦
          hout (inTables_page h.hierarchy.aligned hpage.symm ha)⟩
      · exact .inl hi
  | false =>
    obtain ⟨s', hrun, hs'⟩ := pmmFreePage_ignored (identityWindow dir table) hA (.inr hbit) s h.low
    have hs : s' = s := (sees_iff.mp hs').1.trans (sees_iff.mp h.low).1.symm
    exact ⟨s, hs ▸ hrun, h⟩

end Bitmaps

section Tables

variable {virt phys flags e t : ℕ} (h : Kept P dir table s) (hd : dirIndex virt < 1023)
  (hs : ¬ Shared (dirIndex virt))
include h hd hs

theorem Kept.setEntry (hp : Present (entry s.mem.mem dir (dirIndex virt))) :
    Kept P dir table (withPhys s (setEntry s.mem.mem dir virt e)) := by
  have hi := tableIndex_lt virt
  have hentry {c : ℕ} (hc : c < 1024) :
      entry (Lib.Paging.setEntry s.mem.mem dir virt e) dir c = entry s.mem.mem dir c :=
    h.hierarchy.entry_setEntry hd hp hc
  have hne : table ≠ frameOf (entry s.mem.mem dir (dirIndex virt)) :=
    fun heq ↦ hs (h.alone _ hd hp heq.symm)
  refine h.update (fun a ha ↦ ?_) (h.hierarchy.setEntry hd hp)
    (h.identity.of_entries (hentry (by decide)) fun i hi' ↦
      entry_setWord_of_ne (frameOf_dvd _) h.table_aligned hi hi' (.inl hne))
    (fun c hc ↦ ?_) fun a ha ↦ .inl (ha.imp_right fun ⟨c, hc, hpc, hin⟩ ↦ ⟨c, hc, ?_⟩)
  · have hnot := fun hlo hhi ↦ (h.apart a (.inr ⟨_, hd, hp, hlo, hhi⟩)).1 ha
    apply setWord_of_ne
    by_contra hc
    exact hnot (by omega) (by omega)
  · rw [hentry (by omega)]
    exact h.alone c hc
  · rw [hentry (by omega)] at hpc hin
    exact ⟨hpc, hin⟩

/-- A new table, in a frame outside the bitmap that the allocator has not got. -/
theorem Kept.addTable (he : e < 4294967296) (hdir : frameOf e ≠ dir) (htable : frameOf e ≠ table)
    (hout : ∀ a, InPage (frameOf e) a → ¬ P.InBitmap a ∧ a / 4096 ∉ P.free s.mem.mem) :
    Kept P dir table (withPhys s (addTable s.mem.mem dir (dirIndex virt) e)) := by
  have hfe := frameOf_dvd e
  have hdvd := h.hierarchy.aligned
  have hself := h.hierarchy.entry_addTable_self hd he hdir
  have hother {c : ℕ} (hc : c < 1024) (hne : c ≠ dirIndex virt) :=
    h.hierarchy.entry_addTable_of_ne (e := e) hd hdir hc hne
  have hinst := h.hierarchy.install_joined hd he hdir fun _ _ _ _ ↦ ⟨trivial, trivial⟩
  refine h.update (fun a ha ↦ ?_)
    (hinst.congr fun _ hc ↦ h.hierarchy.entry_addTable hdir hc)
    (h.identity.of_entries (hother (by decide) fun h0 ↦ hs (.inl h0.symm)) fun i hi ↦ ?_)
    (fun c hc ↦ ?_) fun a ha ↦ ?_
  · have hnot := fun hlo hhi ↦ (h.apart a (inTables_dir ⟨hlo, hhi⟩)).1 ha
    have hnot' := fun hlo hhi ↦ (hout a ⟨hlo, hhi⟩).1 ha
    rw [Lib.Paging.addTable, fill_of_ne]
    · apply setWord_of_ne
      by_contra hc
      exact hnot (by omega) (by omega)
    · by_contra hc
      exact hnot' (by omega) (by omega)
  · have hnedir := h.hierarchy.apart 0 (by decide) h.identity.slot_present
    rw [h.identity.slot_frame] at hnedir
    rw [Lib.Paging.addTable, entry_fill_of_ne hfe h.table_aligned hi htable.symm]
    exact entry_setWord_of_ne hdvd h.table_aligned (by omega) hi (.inl hnedir)
  · by_cases hne : c = dirIndex virt
    · rw [hne, hself]
      exact fun _ heq ↦ absurd heq htable
    · rw [hother (by omega) hne]
      exact h.alone c hc
  · rcases ha with hin | ⟨c, hc, hpc, hin⟩
    · exact .inl (.inl hin)
    · by_cases hne : c = dirIndex virt
      · rw [hne, hself] at hin
        exact .inr (hout a hin)
      · rw [hother (by omega) hne] at hpc hin
        exact .inl (.inr ⟨c, hc, hpc, hin⟩)

end Tables

/-- What `vmm_map_page` may use for a new table. -/
structure Handed (P : Platform) (table : ℕ) (s : Paged) (f : ℕ) : Prop where
  aligned : 4096 ∣ f
  lt : f < 4294967296
  ne_table : f ≠ table
  out : ∀ a, InPage f a → ¬ P.InBitmap a ∧ a / 4096 ∉ P.free s.mem.mem

/-- Also frame 0, which stands for no frame at all. -/
theorem Kept.handed (h : Kept P dir table s) :
    ∃ f s₁, allocPage.run s = .ok f s₁ ∧ Kept P dir table s₁ ∧ Handed P table s₁ f := by
  obtain ⟨f, s₁, hrun, h₁, ⟨hempty, rfl, rfl⟩ | ⟨i, hi, rfl, herase, -⟩⟩ := h.alloc
  · have hbase := physEnd_eq P.img
    have hstart := P.img.start_le
    refine ⟨0, s₁, hrun, h₁, Nat.dvd_zero _, by decide, h.table_pos.symm, fun a ha ↦ ⟨fun hin ↦ ?_, ?_⟩⟩
    · obtain ⟨-, hhi⟩ := ha
      obtain ⟨hlo, -⟩ := hin
      unfold Platform.base at hlo
      omega
    · rw [hempty]
      exact notMem_empty _
  · have hboot := h.free i hi
    have hblocks := P.blocks_lt
    have hlt : i < P.blocks := hboot.1
    have htable := h.table_aligned
    refine ⟨_, s₁, hrun, h₁, Nat.dvd_mul_right .., by omega, fun heq ↦ ?_, fun a ha ↦
      ⟨not_inBitmap_of_bootFree hboot ha, ?_⟩⟩
    · have hin : InTables s.mem.mem dir (4096 * i) := h.inTables_table ⟨by omega, by omega⟩
      have hdiv : 4096 * i / 4096 = i := Nat.mul_div_cancel_left _ (by decide)
      exact (h.apart _ hin).2 (hdiv.symm ▸ hi)
    · have hdiv : a / 4096 = i := by
        unfold InPage at ha
        omega
      rw [hdiv, herase]
      exact notMem_erase i _

section Calls

variable {virt phys flags : ℕ}

theorem Kept.map (h : Kept P dir table s) (hm : Mappable phys virt)
    (hr : (vmmMapPage phys virt flags).run s = .ok () s') : Kept P dir table s' := by
  obtain rfl := h.cr3
  have hd := hm.dirIndex_lt
  have hs := hm.not_shared
  by_cases hp : Present (entry s.mem.mem s.mem.cr3 (dirIndex virt))
  · rw [vmmMapPage_present h.hierarchy hd hp] at hr
    cases hr
    exact h.setEntry hd hs hp
  · obtain ⟨f, s₁, halloc, h₁, hf⟩ := h.handed
    have hcr3 := h₁.cr3
    by_cases hdir : f = s₁.mem.cr3
    · rw [vmmMapPage_directory h.hierarchy hd hp (hdir ▸ halloc) (hcr3.symm ▸ h₁.hierarchy)
        (hdir ▸ hf.lt)] at hr
      cases hr
    · have hframe : frameOf (directoryEntry f flags) = f := frameOf_directoryEntry hf.aligned
      have hlt : directoryEntry f flags < 4294967296 := directoryEntry_lt hf.aligned hf.lt
      have hdir' : frameOf (directoryEntry f flags) ≠ s.mem.cr3 := by rwa [hframe, ← hcr3]
      have hinst := h₁.hierarchy.install_joined hd hlt hdir' fun _ _ _ _ ↦ ⟨trivial, trivial⟩
      rw [vmmMapPage_install h.hierarchy hd hp halloc (hcr3.symm ▸ h₁.hierarchy) hf.aligned hf.lt
        hdir (hcr3.symm ▸ hinst)] at hr
      cases hr
      have h₂ := h₁.addTable hd hs hlt hdir' (hframe.symm ▸ hf.ne_table) (hframe.symm ▸ hf.out)
      have hself := h₁.hierarchy.entry_addTable_self hd hlt hdir'
      have h₃ := h₂.setEntry (e := pageEntry phys flags) hd hs
        (hself.symm ▸ directoryEntry_present hf.aligned)
      rw [hcr3]
      exact h₃

end Calls

end Invariant

section Exhaustion

variable {P : Platform} {dir table phys virt flags : ℕ} {s s' : Paged}

theorem memRun_kept (h : MemRun P s) : ∃ dir table, Kept P dir table s := by
  induction h with
  | boot h hr =>
    obtain ⟨dir, table, s', hrun, hs'⟩ := bootMemory_returns h
    rw [hrun] at hr
    cases hr
    exact ⟨dir, table, kept_of_started hs'⟩
  | alloc _ hr ih =>
    obtain ⟨dir, table, h⟩ := ih
    obtain ⟨f, s₁, hrun, h₁, -⟩ := h.alloc
    cases hrun.symm.trans hr
    exact ⟨dir, table, h₁⟩
  | release _ hboot hout hr ih =>
    obtain ⟨dir, table, h⟩ := ih
    obtain ⟨s₁, hrun, h₁⟩ := h.release hboot (h.cr3 ▸ hout)
    cases hrun.symm.trans hr
    exact ⟨dir, table, h₁⟩
  | map _ hm hr ih =>
    obtain ⟨dir, table, h⟩ := ih
    exact ⟨dir, table, h.map hm hr⟩
  | write _ hm ih =>
    obtain ⟨dir, table, h⟩ := ih
    exact ⟨dir, table, h.write (h.cr3 ▸ hm)⟩

theorem stateAfter_ok {σ α : Type} {x : Prog σ α} {s s' : σ} {a : α} (h : x.run s = .ok a s') :
    stateAfter x s = s' := by
  rw [stateAfter, h]

theorem stateAfter_error {σ α : Type} {x : Prog σ α} {s s' : σ} {e : Stop}
    (h : x.run s = .error e s') : stateAfter x s = s' := by
  rw [stateAfter, h]

section Absent

variable (h : Kept P dir table s) (hfree : P.free s.mem.mem = ∅) (hvirt : virt < 4294967296)
  (hp : ¬ Present (entry s.mem.mem dir (dirIndex virt)))
include h hvirt hp

theorem Kept.slot_of_absent : 0 < dirIndex virt ∧ dirIndex virt < 1023 := by
  have hself := h.hierarchy.self_present
  have hzero := h.identity.slot_present
  have hne : dirIndex virt ≠ 1023 := fun heq ↦ hp (heq.symm ▸ hself)
  have hne' : dirIndex virt ≠ 0 := fun heq ↦ hp (heq.symm ▸ hzero)
  have hlt : dirIndex virt < 1024 := by
    unfold dirIndex
    omega
  omega

include hfree

/-- With the directory in frame 0 the call empties the directory, and faults. -/
theorem Kept.map_exhausted_directory (hdir : dir = 0) :
    ∃ s', (vmmMapPage phys virt flags).run s = .error .fault s' ∧ entry s'.mem.mem dir 0 = 0 := by
  obtain rfl := h.cr3
  obtain ⟨hpos, hd⟩ := h.slot_of_absent hvirt hp
  have halloc : allocPage.run s = .ok s.mem.cr3 s := by
    rw [hdir]
    exact h.alloc_none hfree
  refine ⟨_, vmmMapPage_directory h.hierarchy hd hp halloc h.hierarchy (by omega), ?_⟩
  exact word_fill_zero (by omega) (by omega)

/-- Elsewhere the call takes frame 0 for the table, and empties it. -/
theorem Kept.map_exhausted_table (hdir : dir ≠ 0) :
    ∃ s', (vmmMapPage phys virt flags).run s = .ok () s' ∧
      entry s'.mem.mem dir (dirIndex virt) = directoryEntry 0 flags := by
  obtain rfl := h.cr3
  obtain ⟨hpos, hd⟩ := h.slot_of_absent hvirt hp
  have hlt : directoryEntry 0 flags < 4294967296 := directoryEntry_lt (Nat.dvd_zero _) (by decide)
  have hframe : frameOf (directoryEntry 0 flags) = 0 := frameOf_directoryEntry (Nat.dvd_zero _)
  have hdir' : frameOf (directoryEntry 0 flags) ≠ s.mem.cr3 := by rwa [hframe, ne_comm]
  have hinst := h.hierarchy.install_joined hd hlt hdir' fun _ _ _ _ ↦ ⟨trivial, trivial⟩
  have hadd := hinst.congr fun _ hc ↦ h.hierarchy.entry_addTable hdir' hc
  have hself := h.hierarchy.entry_addTable_self hd hlt hdir'
  have hpresent : Present (directoryEntry 0 flags) := directoryEntry_present (Nat.dvd_zero _)
  refine ⟨_, vmmMapPage_install h.hierarchy hd hp (h.alloc_none hfree) h.hierarchy
    (Nat.dvd_zero _) (by decide) hdir.symm hinst, ?_⟩
  rw [withPhys_mem, hadd.entry_setEntry hd (by rwa [hself]) (by omega), hself]

theorem Kept.not_unchanged :
    ¬ Unchanged s (stateAfter (vmmMapPage phys virt flags) s) := by
  intro hu
  have hdirectory := hu.directory
  rw [h.cr3] at hdirectory
  obtain ⟨hpos, hd⟩ := h.slot_of_absent hvirt hp
  by_cases hdir : dir = 0
  · obtain ⟨s', hr, hs'⟩ := h.map_exhausted_directory hfree hvirt hp hdir
    rw [stateAfter_error hr] at hdirectory
    have hslot := h.identity.slot_present
    rw [← hdirectory 0 (by decide), hs'] at hslot
    exact absurd hslot (by decide)
  · obtain ⟨s', hr, hs'⟩ := h.map_exhausted_table hfree hvirt hp hdir
    rw [stateAfter_ok hr] at hdirectory
    rw [← hdirectory _ (by omega), hs'] at hp
    exact hp (directoryEntry_present (Nat.dvd_zero _))

end Absent

/-- Mapping through a missing table, with no page left for it, changes the page directory,
in every state of every run. -/
theorem mapPage_exhausted (h : MemRun P s) (hfree : P.free s.mem.mem = ∅)
    (hvirt : virt < 4294967296) (hp : ¬ Present (entry s.mem.mem s.mem.cr3 (dirIndex virt)))
    (phys flags : ℕ) : ¬ Unchanged s (stateAfter (vmmMapPage phys virt flags) s) := by
  obtain ⟨dir, table, hk⟩ := memRun_kept h
  exact hk.not_unchanged hfree hvirt (hk.cr3 ▸ hp)

end Exhaustion

section Small

theorem MemRun.take {P : Platform} {s : Paged} (h : MemRun P s)
    (hne : (P.free s.mem.mem).Nonempty) : ∃ f s₁, pmmAllocPage.run s = .ok f s₁ ∧ MemRun P s₁ ∧
      #(P.free s₁.mem.mem) + 1 = #(P.free s.mem.mem) ∧ s₁.mem.cr3 = s.mem.cr3 ∧
      ∀ d < 1024, entry s₁.mem.mem s.mem.cr3 d = entry s.mem.mem s.mem.cr3 d := by
  obtain ⟨dir, table, hk⟩ := memRun_kept h
  obtain rfl := hk.cr3
  obtain ⟨f, s₁, hrun, h₁, ⟨hempty, -⟩ | ⟨i, hi, -, herase, hout⟩⟩ := hk.alloc
  · exact absurd hempty hne.ne_empty
  · refine ⟨f, s₁, hrun, h.alloc hrun, ?_, h₁.cr3, fun d hd ↦
      entry_of_sameTables (fun a ha ↦ hout a (hk.apart a ha).1) hd⟩
    rw [herase]
    exact card_erase_add_one hi

/-- Allocations lead to the state in which one page is left. -/
theorem MemRun.last {P : Platform} {s : Paged} {n : ℕ} (h : MemRun P s)
    (hcard : #(P.free s.mem.mem) = n + 1) : ∃ s', MemRun P s' ∧ #(P.free s'.mem.mem) = 1 ∧
      s'.mem.cr3 = s.mem.cr3 ∧
      ∀ d < 1024, entry s'.mem.mem s.mem.cr3 d = entry s.mem.mem s.mem.cr3 d := by
  induction n generalizing s with
  | zero => exact ⟨s, h, hcard, rfl, fun _ _ ↦ rfl⟩
  | succ n ih =>
    obtain ⟨f, s₁, -, h₁, hcard₁, hcr3, hsame⟩ := h.take (card_pos.mp (by omega))
    obtain ⟨s', h', hcard', hcr3', hsame'⟩ := ih h₁ (by omega)
    rw [hcr3] at hcr3' hsame'
    exact ⟨s', h', hcard', hcr3', fun d hd ↦ (hsame' d hd).trans (hsame d hd)⟩

def smallPlatform : Platform where
  img := smallImage
  mmap := smallPc
  boot := smallBoot
  below := endsBelow4G_smallPc
  boot_inside := by decide
  bitmap_low := by decide
  frames_low := ⟨0, 1, by decide, by decide, Survival.bootFree_low_smallPc (by decide),
    Survival.bootFree_low_smallPc (by decide)⟩

theorem exists_started_smallPc :
    ∃ dir table s, MemRun smallPlatform s ∧ Started smallPlatform dir table s := by
  have hentered : Entered smallPlatform ⟨⟨smallSupply.mem.mem, smallSupply.mem.cr3⟩, .initial⟩ :=
    ⟨rfl, loaded_smallSupply⟩
  obtain ⟨dir, table, s, hrun, hs⟩ := bootMemory_returns hentered
  exact ⟨dir, table, s, .boot hentered hrun, hs⟩

/-- The heap takes the last page for its first one. -/
theorem exists_last_page_smallPc : ∃ s f s₁, MemRun smallPlatform s ∧
    pmmAllocPage.run s = .ok f s₁ ∧ smallPlatform.free s₁.mem.mem = ∅ ∧ MemRun smallPlatform s₁ ∧
    ¬ Present (entry s₁.mem.mem s₁.mem.cr3 (dirIndex kheapStart)) := by
  obtain ⟨dir, table, s, h, hs⟩ := exists_started_smallPc
  have hfree (i : ℕ) (hi : i < 0x9F) (hd : i ≠ dir / 4096) (ht : i ≠ table / 4096) :
      i ∈ smallPlatform.free s.mem.mem :=
    (hs.free i).mpr ⟨Survival.bootFree_low_smallPc hi, hd, ht⟩
  have hzero : dir / 4096 ≤ 0 := hs.dir_taken.2 (Survival.bootFree_low_smallPc (by decide))
  have hpos : 0 < #(smallPlatform.free s.mem.mem) := by
    by_cases h1 : table / 4096 = 1
    · exact card_pos.mpr ⟨2, hfree 2 (by decide) (by omega) (by omega)⟩
    · exact card_pos.mpr ⟨1, hfree 1 (by decide) (by omega) (by omega)⟩
  obtain ⟨s', h', hcard, hcr3, hsame⟩ := h.last (Nat.succ_pred_eq_of_pos hpos).symm
  obtain ⟨f, s₁, hrun, h₁, hcard₁, hcr3₁, hsame₁⟩ := h'.take (card_pos.mp (by omega))
  refine ⟨s', f, s₁, h', hrun, card_eq_zero.mp (by omega), h₁, ?_⟩
  have hslot := hs.slots (dirIndex kheapStart) (by decide)
  rw [hcr3] at hcr3₁ hsame₁
  rw [hcr3₁, hsame₁ _ (by decide), hsame _ (by decide), hs.cr3, hslot]
  decide

theorem mapPage_exhausted_smallPc : ∃ s, MemRun smallPlatform s ∧
    smallPlatform.free s.mem.mem = ∅ ∧
    ¬ Unchanged s (stateAfter (vmmMapPage 0x300000 kheapStart 7) s) := by
  obtain ⟨-, -, s, -, -, hfree, h, hp⟩ := exists_last_page_smallPc
  exact ⟨s, h, hfree, mapPage_exhausted h hfree (by decide) hp 0x300000 7⟩

/-- On a PC with memory from 0 on, the directory is in frame 0: mapping the last page, at
an address that has no table yet, empties the directory and faults. -/
theorem mapPage_last_page_smallPc : ∃ s f s₁ s', MemRun smallPlatform s ∧
    pmmAllocPage.run s = .ok f s₁ ∧ smallPlatform.free s₁.mem.mem = ∅ ∧
    ¬ Present (entry s₁.mem.mem s₁.mem.cr3 (dirIndex kheapStart)) ∧
    (vmmMapPage f kheapStart 7).run s₁ = .error .fault s' ∧ ¬ Unchanged s₁ s' := by
  obtain ⟨s, f, s₁, h, hrun, hfree, h₁, hp⟩ := exists_last_page_smallPc
  obtain ⟨dir, table, hk⟩ := memRun_kept h₁
  have hdir := hk.zero (Survival.bootFree_low_smallPc (by decide))
  obtain rfl := hk.cr3
  obtain ⟨s', hfault, -⟩ := @Kept.map_exhausted_directory _ _ _ f kheapStart 7 _ hk hfree
    (by decide) hp hdir
  have hnot := @Kept.not_unchanged _ _ _ f kheapStart 7 _ hk hfree (by decide) hp
  rw [stateAfter_error hfault] at hnot
  exact ⟨s, f, s₁, s', h, hrun, hfree, hp, hfault, hnot⟩

end Small

end KevOS.Memory.Exhausted
