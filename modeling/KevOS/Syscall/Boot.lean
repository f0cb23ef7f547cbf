import KevOS.Syscall.UserMemory
import KevOS.Vmm.Mapping

namespace KevOS.Syscall.UserMemory

open Lib.ByteMemory Lib.Paging Lib.Program Machine Libc Vmm Vmm.Init Vmm.Mapping

section Started

variable {m : Bytes} {dir t a : ℕ}

theorem userByte_of_not_userBit {v : Vm} (h : ¬ UserBit (entry v.mem v.cr3 (dirIndex a))) :
    userByte v a = none := by
  rw [userByte]
  split
  case h_1 pde pte hwalk =>
    have hpde := (walk_eq_some.mp hwalk).2.1
    dsimp only at hpde
    exact if_neg fun hu ↦ h (hpde ▸ hu.1)
  case h_2 => rfl

/-- What ring 3 sees after `vmm_init`: the first 4 MiB, also from the kernel's base on, and
nothing else. -/
theorem userByte_started (hdir : 4096 ∣ dir) (ht : 4096 ∣ t) (hne : dir ≠ t)
    (hdlt : dir < 4294967296) (htlt : t < 4294967296) (hzero : ∀ d < 1024, entry m dir d = 0)
    (ha : a < 4294967296) : userByte ⟨started m dir t, dir⟩ a =
      if Shared (dirIndex a) then some (started m dir t (a % identityLimit)) else none := by
  have hk : dirIndex a < 1024 := by
    unfold dirIndex
    omega
  have hslot := entry_started_dir hdir ht hne hdlt htlt hzero hk
  by_cases hs : Shared (dirIndex a)
  · have hne' : dirIndex a ≠ 1023 := by
      rcases hs with h | h <;> rw [h] <;> decide
    rw [if_neg hne', if_pos hs] at hslot
    have hentry := entry_started_table (m := m) hdir ht hne (tableIndex_lt a)
    have hwalk : walk (started m dir t) dir a = some (t + 7, 4096 * tableIndex a + 7) := by
      rw [walk_eq_some]
      refine ⟨⟨(present_add ht).mpr (by decide), (present_add ⟨_, rfl⟩).mpr (by decide)⟩, hslot, ?_⟩
      rw [frameOf_add ht (by decide)]
      exact hentry
    have hframe : frameOf (4096 * tableIndex a + 7) + a % 4096 = a % identityLimit := by
      unfold frameOf tableIndex identityLimit
      omega
    have hbits : UserBit (t + 7) ∧ UserBit (4096 * tableIndex a + 7) := by
      unfold UserBit
      omega
    rw [userByte, hwalk, if_pos hs]
    dsimp only
    rw [if_pos hbits, hframe]
  · rw [if_neg hs] at hslot ⊢
    apply userByte_of_not_userBit
    dsimp only
    rw [hslot]
    split <;> unfold UserBit <;> omega

end Started

/-- A `struct registers` as `int 0x80` in ring 3 makes it, with the string pointer `ebx`. -/
def printfFrame (ebx : UInt32) : Registers where
  ds := 0x23
  edi := 0
  esi := 0
  ebp := 0
  esp := 0
  ebx := ebx
  edx := 0
  ecx := 0
  eax := 0
  intNo := 128
  errCode := 0
  eip := 0xC0100100
  cs := 0x1B
  eflags := 0x202
  useresp := 0xD0002000
  ss := 0x23

/-- Memory and machine after `vmm_init` has run on `smallSupply`. -/
def smallMem : Bytes := started (fill smallSupply.mem.mem 0 0 4096) 0 0x1000

def smallVm : Vm := ⟨smallMem, 0⟩

theorem vmmInit_smallSupply : vmmInit.run smallSupply = .ok () ⟨smallVm, ⟨[0x200000]⟩⟩ :=
  Mapping.vmmInit_smallSupply

theorem userByte_smallVm {a : ℕ} (ha : a < 4294967296) : userByte smallVm a =
    if Shared (dirIndex a) then some (smallMem (a % identityLimit)) else none :=
  userByte_started (by decide) (by decide) (by decide) (by decide) (by decide)
    (fun _ hd ↦ entry_fill_self hd) ha

/-- The string "ok", with one character on each side of the end of a page. -/
def okString : Bytes := fun a ↦ if a = 0x201FFF then 111 else if a = 0x202000 then 107 else 0

def okSupply : Kernel Vm Supply :=
  ⟨⟨lowTables 3 okString smallBoot.bootPageDirectory smallBoot.bootPageTable1,
    smallBoot.bootPageDirectory⟩, smallSupply.vars⟩

def okVm : Vm := ⟨started (fill okSupply.mem.mem 0 0 4096) 0 0x1000, 0⟩

theorem loaded_okSupply : smallBoot.Loaded okSupply.mem.mem := by
  refine smallBoot.loaded_lowTables (by decide) fun d hd ↦ ?_
  refine entry_congr (m := fun _ ↦ 0) (fun b _ hb ↦ ?_) hd
  have hend : smallBoot.bootPageDirectory + 4096 = 0x111000 := by decide
  rw [okString, if_neg (by omega), if_neg (by omega)]

/-- A program in ring 3 sees the string from 0xC0201FFF on. -/
theorem userByte_okVm {k : ℕ} (hk : k < 0x1000) :
    userByte okVm (w32 (0xC0201FFF + k)) = some (okString (0x201FFF + k)) := by
  have hlt : 0xC0201FFF + k < 4294967296 := by omega
  have hshared : Shared (dirIndex (0xC0201FFF + k)) := by
    unfold Shared dirIndex
    omega
  have haddr : (0xC0201FFF + k) % identityLimit = 0x201FFF + k := by
    unfold identityLimit
    omega
  have hnot (p : ℕ) (hp : p ≤ 0x200000) : ¬ InPage p (0x201FFF + k) := by
    unfold InPage
    omega
  rw [w32_of_lt hlt, okVm, userByte_started (by decide) (by decide) (by decide) (by decide) (by decide)
    (fun _ hd ↦ entry_fill_self hd) hlt, if_pos hshared, haddr,
    started_of_not_inPage (hnot 0 (by decide)) (hnot 0x1000 (by decide)), fill_of_ne (by omega), okSupply]
  dsimp only
  rw [lowTables_of_not_inPage (hnot _ (by decide)) (hnot _ (by decide))]

/-- Both characters are printed, and nothing that ring 3 cannot read. -/
theorem isolated_iff_readable_okVm : vmmInit.run okSupply = .ok () ⟨okVm, ⟨[0x200000]⟩⟩ ∧
    userByte okVm 0xC0201FFF = some 111 ∧ userByte okVm 0xC0202000 = some 107 ∧
    Isolated 0 (printfFrame 0xC0201FFF) okVm := by
  refine ⟨vmmInit_lowFrames rfl loaded_okSupply rfl, userByte_okVm (k := 0) (by decide),
    userByte_okVm (k := 1) (by decide), (isolated_iff_readable 0 _ _ rfl).mpr (.inr fun k _ hbefore ↦ ?_)⟩
  have hk : k < 3 := by
    by_contra hk
    obtain ⟨c, hne, hc⟩ := hbefore 2 (by omega)
    exact hne (Option.some.inj (hc.symm.trans (userByte_okVm (by decide))))
  exact Option.ne_none_iff_exists'.mpr ⟨_, userByte_okVm (by omega)⟩

/-- The page directory, which ring 3 cannot read, is printed. -/
theorem pageDirectory_printed : vmmInit.run smallSupply = .ok () ⟨smallVm, ⟨[0x200000]⟩⟩ ∧
    ¬ Isolated 0 (printfFrame 0xFFFFF000) smallVm := by
  have hnone : userByte smallVm 0xFFFFF000 = none := by
    rw [userByte_smallVm (by decide), if_neg (by decide)]
  refine ⟨vmmInit_smallSupply, fun h ↦ ?_⟩
  have hnot : ¬ Readable smallVm 0xFFFFF000 := fun hr ↦ hr 0 (by decide) nofun hnone
  obtain ⟨a, ha, hna⟩ := @syscallHandler_reads _ 0 (printfFrame 0xFFFFF000) rfl (by decide) hnot
  exact hna (h.reads a ha)

end KevOS.Syscall.UserMemory
