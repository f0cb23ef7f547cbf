import KevOS.Vmm.Model

namespace KevOS.Vmm.MapPage

open Lib.Program Lib.ByteMemory Lib.Bits Lib.Paging Machine

/-- The directory entry for a new table in the frame `ptPhys`. -/
def directoryEntry (ptPhys flags : ℕ) : ℕ :=
  ptPhys ||| vmmPresent ||| vmmWritable ||| (flags &&& vmmUser)

/-- The table entry for the frame `phys`. -/
def pageEntry (phys flags : ℕ) : ℕ := phys ||| (flags &&& 0xFFF) ||| vmmPresent

section Entries

variable {f flags : ℕ}

theorem pageEntry_eq (hf : 4096 ∣ f) :
    pageEntry f flags = f + ((flags &&& 0xFFF) ||| vmmPresent) := by
  have hmask : (flags &&& 0xFFF) < 2 ^ 12 := Nat.and_lt_two_pow _ (by decide)
  rw [pageEntry, Nat.lor_assoc]
  exact lor_page (Nat.mod_eq_zero_of_dvd hf) (Nat.or_lt_two_pow hmask (by decide))

theorem pageFlags_lt : (flags &&& 0xFFF) ||| vmmPresent < 4096 := by
  have hmask : (flags &&& 0xFFF) < 2 ^ 12 := Nat.and_lt_two_pow _ (by decide)
  exact Nat.or_lt_two_pow hmask (by decide)

theorem present_lor_one (x : ℕ) : Present (x ||| vmmPresent) := by
  simp [Present, vmmPresent]

theorem pageEntry_present (f flags : ℕ) : Present (pageEntry f flags) := present_lor_one _

theorem frameOf_pageEntry (hf : 4096 ∣ f) : frameOf (pageEntry f flags) = f := by
  rw [pageEntry_eq hf]
  exact frameOf_add hf pageFlags_lt

theorem pageEntry_lt (hf : 4096 ∣ f) (hlt : f < 4294967296) : pageEntry f flags < 4294967296 := by
  have hflags : (flags &&& 0xFFF) ||| vmmPresent < 4096 := pageFlags_lt
  rw [pageEntry_eq hf]
  omega

theorem directoryEntry_eq (hf : 4096 ∣ f) :
    directoryEntry f flags = f + (vmmPresent ||| vmmWritable ||| (flags &&& vmmUser)) := by
  have hmask : (flags &&& vmmUser) < 2 ^ 3 := Nat.and_lt_two_pow _ (by decide)
  have hflags : (vmmPresent ||| vmmWritable ||| (flags &&& vmmUser)) < 2 ^ 3 :=
    Nat.or_lt_two_pow (by decide) hmask
  rw [directoryEntry, Nat.lor_assoc, Nat.lor_assoc, ← Nat.lor_assoc vmmPresent]
  exact lor_page (Nat.mod_eq_zero_of_dvd hf) (by omega)

theorem directoryFlags_lt : vmmPresent ||| vmmWritable ||| (flags &&& vmmUser) < 8 := by
  have hmask : (flags &&& vmmUser) < 2 ^ 3 := Nat.and_lt_two_pow _ (by decide)
  exact Nat.or_lt_two_pow (by decide) hmask

theorem directoryEntry_present (hf : 4096 ∣ f) : Present (directoryEntry f flags) := by
  rw [directoryEntry_eq hf, present_add hf, Nat.lor_assoc, Nat.lor_comm]
  exact present_lor_one _

theorem frameOf_directoryEntry (hf : 4096 ∣ f) : frameOf (directoryEntry f flags) = f := by
  have hflags : vmmPresent ||| vmmWritable ||| (flags &&& vmmUser) < 8 := directoryFlags_lt
  rw [directoryEntry_eq hf]
  exact frameOf_add hf (by omega)

theorem directoryEntry_lt (hf : 4096 ∣ f) (hlt : f < 4294967296) :
    directoryEntry f flags < 4294967296 := by
  have hflags : vmmPresent ||| vmmWritable ||| (flags &&& vmmUser) < 8 := directoryFlags_lt
  rw [directoryEntry_eq hf]
  omega

end Entries

section Runs

variable {π : Type} {shared : ℕ → Prop} {s s₁ : Kernel Vm π}
  {dir phys virt flags f : ℕ}

theorem shiftRight_dir (virt : ℕ) : virt >>> 22 = dirIndex virt := Nat.shiftRight_eq_div_pow ..

theorem shiftRight_table (virt : ℕ) : (virt >>> 12) &&& 0x3FF = tableIndex virt := by
  rw [Nat.shiftRight_eq_div_pow]
  exact Nat.and_two_pow_sub_one_eq_mod _ 10

theorem vmmPageDirectory_add (d : ℕ) : vmmPageDirectory + 4 * d = tableAddr 1023 d := by
  unfold vmmPageDirectory tableAddr
  omega

theorem tableAddr_lt {d i : ℕ} (hd : d < 1024) (hi : i < 1024) : tableAddr d i < 4294967296 := by
  unfold tableAddr
  omega

/-- The directory reads its own entries through the last slot. -/
theorem load32_directory (h : Hierarchy shared s.mem.mem s.mem.cr3) {d : ℕ} (hd : d < 1024) :
    (load32 (vmmPageDirectory + 4 * d)).run s = .ok (entry s.mem.mem s.mem.cr3 d) s := by
  have htr := h.translate_tableAddr (d := 1023) (by decide) h.self_present hd
  rw [h.self_frame] at htr
  rw [vmmPageDirectory_add]
  exact load32_kernel (tableAddr_lt (by decide) hd) (by rw [tableAddr_mod hd]; omega) htr

theorem store32_directory (h : Hierarchy shared s.mem.mem s.mem.cr3) {d e : ℕ} (hd : d < 1023) :
    (store32 (vmmPageDirectory + 4 * d) e).run s =
      .ok () (withPhys s (install s.mem.mem s.mem.cr3 d e)) := by
  have htr := h.translate_tableAddr (d := 1023) (i := d) (by decide) h.self_present (by omega)
  rw [h.self_frame] at htr
  rw [vmmPageDirectory_add]
  exact store32_kernel (tableAddr_lt (by decide) (by omega))
    (by rw [tableAddr_mod (by omega)]; omega) htr (h.clear_directory hd)

theorem store32_table (h : Hierarchy shared s.mem.mem s.mem.cr3) (hv : dirIndex virt < 1023)
    (hp : Present (entry s.mem.mem s.mem.cr3 (dirIndex virt))) {e : ℕ} :
    (store32 (vmmPageTables + 4 * (dirIndex virt * 1024 + tableIndex virt)) e).run s =
      .ok () (withPhys s (setEntry s.mem.mem s.mem.cr3 virt e)) := by
  have hi := tableIndex_lt virt
  have htr := h.translate_tableAddr (by omega) hp hi
  exact store32_kernel (tableAddr_lt (by omega) hi) (by
    change tableAddr _ _ % 4096 + 4 ≤ 4096
    rw [tableAddr_mod hi]; omega) htr (h.clear_tableAddr hv hp hi (by omega) (by omega))

/-- A new table is emptied through the slot it was just entered in. -/
theorem memset_table (h : Hierarchy shared s.mem.mem s.mem.cr3) {d : ℕ} (hd : d < 1023)
    (hp : Present (entry s.mem.mem s.mem.cr3 d)) :
    (memset (vmmPageTables + 4 * (d * 1024)) 0 pageSize).run s =
      .ok () (withPhys s (fill s.mem.mem (frameOf (entry s.mem.mem s.mem.cr3 d)) 0 4096)) := by
  have haddr : vmmPageTables + 4 * (d * 1024) = tableAddr d 0 := by
    simp [tableAddr, vmmPageTables]
  have htr := h.translate_tableAddr (i := 0) (by omega) hp (by decide)
  have hclear := h.clear_tableAddr (i := 0) (n := 4096) hd hp (by decide) le_rfl le_rfl
  rw [Nat.mul_zero, Nat.add_zero] at htr
  have hmod : tableAddr d 0 % 4096 = 0 := tableAddr_mod (by decide)
  rw [haddr, pageSize]
  exact memset_kernel (tableAddr_lt (by omega) (by decide)) (by omega) htr hclear

/-- Emptying the directory through one of its own slots takes the slot away: the processor
has lost the way after the slot's first byte. -/
theorem memset_directory {d : ℕ} (hself : Present (entry s.mem.mem s.mem.cr3 1023))
    (hframe : frameOf (entry s.mem.mem s.mem.cr3 1023) = s.mem.cr3) (hd : d < 1023)
    (hp : Present (entry s.mem.mem s.mem.cr3 d))
    (hdir : frameOf (entry s.mem.mem s.mem.cr3 d) = s.mem.cr3) :
    (memset (vmmPageTables + 4 * (d * 1024)) 0 pageSize).run s =
      .error .fault (withPhys s (fill s.mem.mem s.mem.cr3 0 (4 * d + 1))) := by
  set m := s.mem.mem
  set dir := s.mem.cr3
  have haddr : vmmPageTables + 4 * (d * 1024) = tableAddr d 0 := by
    simp [tableAddr, vmmPageTables]
  have hmod : tableAddr d 0 % 4096 = 0 := tableAddr_mod (by decide)
  have hindex : dirIndex (tableAddr d 0) = 1023 := tableAddr_dirIndex (by omega) (by decide)
  have htable : tableIndex (tableAddr d 0) = d := tableAddr_tableIndex (by omega) (by decide)
  have hlt : tableAddr d 0 + 4096 ≤ 4294967296 := by
    unfold tableAddr
    omega
  have htr : translate m dir (tableAddr d 0) = some dir := by
    refine translate_eq_some.mpr ⟨(entry m dir 1023, entry m dir d), ?_, ?_⟩
    · rw [walk_eq_some, hindex, htable, hframe]
      exact ⟨⟨hself, hp⟩, rfl, rfl⟩
    · rw [hmod, hdir, Nat.add_zero]
  have hclear : Clear m dir (tableAddr d 0) dir (4 * d) := by
    unfold Clear
    rw [hindex, htable, hframe]
    omega
  -- The slot's own first byte is the last one that is written.
  set m₁ := fill m dir 0 (4 * d)
  set m₂ := fill m dir 0 (4 * d + 1)
  have hfirst : (memset (tableAddr d 0) 0 (4 * d)).run s = .ok () (withPhys s m₁) :=
    memset_kernel (by omega) (by omega) htr hclear
  have hout (b : ℕ) (hb : b < dir ∨ dir + 4 * d ≤ b) : m₁ b = m b := fill_of_ne hb
  have htr₁ := translate_add (k := 4 * d) (translate_of_clear htr hclear hout) (by omega)
  have hsecond : (store8 (tableAddr d 0 + 4 * d) 0).run (withPhys s m₁) =
      .ok () (withPhys s m₂) := by
    have hr := store8_kernel (s := withPhys s m₁) (b := 0) (by omega) htr₁
    rwa [withPhys_withPhys, withPhys_mem, update_fill] at hr
  have hrec : entry m₂ dir 1023 = entry m dir 1023 := word_fill_of_ne (by omega)
  have hzero : ¬ Present (entry m₂ dir d) := by
    have hbyte : m₂ (dir + 4 * d) = 0 := fill_of_lt (by omega) (by omega)
    unfold Present entry word
    rw [hbyte, UInt8.toNat_zero]
    omega
  have hgone : translate m₂ dir (tableAddr d 0 + 4 * d + 1) = none := by
    have hpage : (tableAddr d 0 + 4 * d + 1) / 4096 = tableAddr d 0 / 4096 := by omega
    rw [Lib.Paging.translate, walk_page hpage, walk, hindex, htable, hrec, hframe,
      if_neg fun hpp ↦ hzero hpp.2]
    rfl
  have hthird : (store8 (tableAddr d 0 + 4 * d + 1) 0).run (withPhys s m₂) =
      .error .fault (withPhys s m₂) := store8_kernel_fault (by omega) hgone
  have hsplit : pageSize = 4 * d + (4094 - 4 * d + 1 + 1) := by
    unfold pageSize
    omega
  rw [haddr, hsplit, memset_add hfirst, memset, run_bind_ok hsecond, memset, run_bind_error hthird]

variable [PageSource (Kernel Vm π)]

/-- The table is there: one entry is written. -/
theorem vmmMapPage_present (h : Hierarchy shared s.mem.mem s.mem.cr3) (hv : dirIndex virt < 1023)
    (hp : Present (entry s.mem.mem s.mem.cr3 (dirIndex virt))) :
    (vmmMapPage phys virt flags).run s =
      .ok () (withPhys s (setEntry s.mem.mem s.mem.cr3 virt (pageEntry phys flags))) := by
  have hload := load32_directory h (d := dirIndex virt) (by omega)
  have hbit : ¬ entry s.mem.mem s.mem.cr3 (dirIndex virt) &&& vmmPresent = 0 := by
    rw [vmmPresent, land_one, hp]
    decide
  rw [vmmMapPage, shiftRight_dir, shiftRight_table, run_bind_ok hload, if_neg hbit]
  exact store32_table h hv hp

section Absent

variable (h : Hierarchy shared s.mem.mem s.mem.cr3) (hv : dirIndex virt < 1023)
  (hp : ¬ Present (entry s.mem.mem s.mem.cr3 (dirIndex virt)))
include h hv hp

theorem vmmMapPage_of_absent : (vmmMapPage phys virt flags).run s = (do
    let ptPhys ← allocPage
    store32 (vmmPageDirectory + 4 * dirIndex virt) (directoryEntry ptPhys flags)
    memset (vmmPageTables + 4 * (dirIndex virt * 1024)) 0 pageSize
    store32 (vmmPageTables + 4 * (dirIndex virt * 1024 + tableIndex virt))
      (pageEntry phys flags) : Prog (Kernel Vm π) Unit).run s := by
  have hload := load32_directory h (d := dirIndex virt) (by omega)
  have hbit : entry s.mem.mem s.mem.cr3 (dirIndex virt) &&& vmmPresent = 0 := by
    unfold Present at hp
    rw [vmmPresent, land_one]
    omega
  rw [vmmMapPage, shiftRight_dir, shiftRight_table, run_bind_ok hload, if_pos hbit]
  rfl

/-- The table is missing: a frame is taken for it, entered and emptied first. -/
theorem vmmMapPage_install (halloc : allocPage.run s = .ok f s₁)
    (h₁ : Hierarchy shared s₁.mem.mem s₁.mem.cr3) (hf : 4096 ∣ f) (hlt : f < 4294967296)
    (hdir : f ≠ s₁.mem.cr3)
    (hinst : Hierarchy shared (install s₁.mem.mem s₁.mem.cr3 (dirIndex virt)
      (directoryEntry f flags)) s₁.mem.cr3) :
    (vmmMapPage phys virt flags).run s = .ok () (withPhys s₁ (setEntry
      (addTable s₁.mem.mem s₁.mem.cr3 (dirIndex virt) (directoryEntry f flags)) s₁.mem.cr3 virt
      (pageEntry phys flags))) := by
  have hlt' : directoryEntry f flags < 4294967296 := directoryEntry_lt hf hlt
  have hpresent : Present (directoryEntry f flags) := directoryEntry_present hf
  have hframe : frameOf (directoryEntry f flags) = f := frameOf_directoryEntry hf
  rw [← hframe] at hdir
  have hself : entry (install s₁.mem.mem s₁.mem.cr3 (dirIndex virt) (directoryEntry f flags))
      s₁.mem.cr3 (dirIndex virt) = directoryEntry f flags := entry_install_self hlt'
  have hadd : Hierarchy shared (addTable s₁.mem.mem s₁.mem.cr3 (dirIndex virt)
      (directoryEntry f flags)) s₁.mem.cr3 := hinst.congr fun _ hd ↦ h₁.entry_addTable hdir hd
  set m₁ := install s₁.mem.mem s₁.mem.cr3 (dirIndex virt) (directoryEntry f flags)
  set m₂ := addTable s₁.mem.mem s₁.mem.cr3 (dirIndex virt) (directoryEntry f flags) with hm₂
  have hset : entry m₂ s₁.mem.cr3 (dirIndex virt) = directoryEntry f flags :=
    h₁.entry_addTable_self hv hlt' hdir
  have hdirectory : (store32 (vmmPageDirectory + 4 * dirIndex virt) (directoryEntry f flags)).run s₁ =
      .ok () (withPhys s₁ m₁) := store32_directory h₁ hv
  have hmemset : (memset (vmmPageTables + 4 * (dirIndex virt * 1024)) 0 pageSize).run
      (withPhys s₁ m₁) = .ok () (withPhys s₁ m₂) := by
    have hr := memset_table (s := withPhys s₁ m₁) hinst hv (hself.symm ▸ hpresent)
    simp only [withPhys_mem, withPhys_cr3, withPhys_withPhys, hself] at hr
    exact hr
  have hstore := store32_table (s := withPhys s₁ m₂) (e := pageEntry phys flags) hadd hv
    (hset.symm ▸ hpresent)
  rw [vmmMapPage_of_absent h hv hp, run_bind_ok halloc]
  exact (run_bind_ok hdirectory).trans ((run_bind_ok hmemset).trans hstore)

theorem vmmMapPage_absent (halloc : allocPage.run s = .ok f s₁)
    (h₁ : Hierarchy shared s₁.mem.mem s₁.mem.cr3) (hf : 4096 ∣ f) (hlt : f < 4294967296)
    (hdir : f ≠ s₁.mem.cr3)
    (hfresh : ∀ d < 1023, Present (entry s₁.mem.mem s₁.mem.cr3 d) →
      frameOf (entry s₁.mem.mem s₁.mem.cr3 d) ≠ f) :
    (vmmMapPage phys virt flags).run s = .ok () (withPhys s₁ (setEntry
      (addTable s₁.mem.mem s₁.mem.cr3 (dirIndex virt) (directoryEntry f flags)) s₁.mem.cr3 virt
      (pageEntry phys flags))) := by
  have hframe : frameOf (directoryEntry f flags) = f := frameOf_directoryEntry hf
  exact vmmMapPage_install h hv hp halloc h₁ hf hlt hdir
    (h₁.install hv (directoryEntry_lt hf hlt) (hframe.symm ▸ hdir) (hframe.symm ▸ hfresh))

theorem vmmMapPage_stop {e : Stop} (halloc : allocPage.run s = .error e s₁) :
    (vmmMapPage phys virt flags).run s = .error e s₁ := by
  rw [vmmMapPage_of_absent h hv hp, run_bind_error halloc]

end Absent

/-- With the directory's own frame for the new table, emptying the table takes the entry
away by which it is reached. -/
theorem vmmMapPage_directory (h : Hierarchy shared s.mem.mem s.mem.cr3)
    (hv : dirIndex virt < 1023) (hp : ¬ Present (entry s.mem.mem s.mem.cr3 (dirIndex virt)))
    (halloc : allocPage.run s = .ok s₁.mem.cr3 s₁) (h₁ : Hierarchy shared s₁.mem.mem s₁.mem.cr3)
    (hlt : s₁.mem.cr3 < 4294967296) :
    (vmmMapPage phys virt flags).run s = .error .fault (withPhys s₁ (fill
      (install s₁.mem.mem s₁.mem.cr3 (dirIndex virt) (directoryEntry s₁.mem.cr3 flags))
      s₁.mem.cr3 0 (4 * dirIndex virt + 1))) := by
  have hdvd := h₁.aligned
  set e := directoryEntry s₁.mem.cr3 flags
  set m := install s₁.mem.mem s₁.mem.cr3 (dirIndex virt) e
  have hself : entry m s₁.mem.cr3 (dirIndex virt) = e :=
    entry_install_self (directoryEntry_lt hdvd hlt)
  have hrec : entry m s₁.mem.cr3 1023 = entry s₁.mem.mem s₁.mem.cr3 1023 :=
    h₁.entry_install_of_ne hv (by decide) (by omega)
  have hstore : (store32 (vmmPageDirectory + 4 * dirIndex virt) e).run s₁ =
      .ok () (withPhys s₁ m) := store32_directory h₁ hv
  have hmemset := memset_directory (s := withPhys s₁ m) (hrec.symm ▸ h₁.self_present)
    (hrec.symm ▸ h₁.self_frame) hv (hself.symm ▸ directoryEntry_present hdvd)
    (hself.symm ▸ frameOf_directoryEntry hdvd)
  rw [vmmMapPage_of_absent h hv hp, run_bind_ok halloc]
  exact (run_bind_ok hstore).trans (run_bind_error hmemset)

end Runs

end KevOS.Vmm.MapPage
