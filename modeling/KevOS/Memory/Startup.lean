import KevOS.Memory.Exhausted

namespace KevOS.Memory.Startup

open Lib.Program Lib.ByteMemory Lib.Paging Machine Vmm Vmm.Init Boot Frames

inductive Instr
  | movImmEcx (v : ℕ)
  | movEcxCr3
  | movCr0Ecx
  | orEcx (v : ℕ)
  | movEcxCr0
  | leaEcx (a : ℕ)
  | jmpEcx
  | movImmEsp (v : ℕ)
  | pushEbx
  | pushEax
  | callEcx
  deriving DecidableEq, Repr

/-- The bytes that an instruction takes. -/
def Instr.size : Instr → ℕ
  | .movImmEcx _ => 5
  | .movEcxCr3 => 3
  | .movCr0Ecx => 3
  | .orEcx _ => 6
  | .movEcxCr0 => 3
  | .leaEcx _ => 6
  | .jmpEcx => 2
  | .movImmEsp _ => 5
  | .pushEbx => 1
  | .pushEax => 1
  | .callEcx => 2

/-- Where the linker puts the symbols. -/
structure Symbols where
  start : ℕ
  bootPageDirectory : ℕ
  stackTop : ℕ
  kernelMain : ℕ

/-- The label `1` behind the jump. -/
def Symbols.higherHalf (y : Symbols) : ℕ := y.start + 28

/-- `_start`, up to its call of `kernel_main`. -/
def startCode (y : Symbols) : List Instr :=
  [.movImmEcx (y.bootPageDirectory - kernelVirtBase), .movEcxCr3, .movCr0Ecx, .orEcx 0x80000000, .movEcxCr0,
    .leaEcx y.higherHalf, .jmpEcx,
    .movImmEsp y.stackTop, .pushEbx, .pushEax, .movImmEcx y.kernelMain, .callEcx]

/-- Of the processor what the code works with. -/
structure Cpu where
  eip : ℕ
  eax : ℕ
  ebx : ℕ
  ecx : ℕ
  esp : ℕ
  cr0 : ℕ
  cr3 : ℕ
  mem : Bytes

/-- The physical address. Paging is on when the bit 31 of `cr0` is set. -/
def Cpu.physical (c : Cpu) (a : ℕ) : Option ℕ := if c.cr0.testBit 31 then translate c.mem c.cr3 a else some a

/-- The first physical address of `n` bytes from `a` on, if they lie next to each other. -/
def Cpu.range (c : Cpu) (a n : ℕ) : Option ℕ :=
  match c.physical a with
  | some p => if ∀ k < n, c.physical (a + k) = some (p + k) then some p else none
  | none => none

def Cpu.push (v : ℕ) (c : Cpu) : Option Cpu :=
  let esp := sub32 c.esp 4
  (c.range esp 4).map fun p ↦ { c with esp, mem := setWord c.mem p v }

/-- An instruction, with `eip` at the next one. -/
def exec (c : Cpu) : Instr → Option Cpu
  | .movImmEcx v => some { c with ecx := v }
  | .movEcxCr3 => some { c with cr3 := c.ecx }
  | .movCr0Ecx => some { c with ecx := c.cr0 }
  | .orEcx v => some { c with ecx := c.ecx ||| v }
  | .movEcxCr0 => some { c with cr0 := c.ecx }
  | .leaEcx a => some { c with ecx := a }
  | .jmpEcx => some { c with eip := c.ecx }
  | .movImmEsp v => some { c with esp := v }
  | .pushEbx => c.push c.ebx
  | .pushEax => c.push c.eax
  | .callEcx => (c.push c.eip).map fun c' ↦ { c' with eip := c.ecx }

/-- The next instruction, where `code` has the instructions by their physical addresses. -/
def step (code : ℕ → Option Instr) (c : Cpu) : Option Cpu :=
  match (c.physical c.eip).bind code with
  | some i =>
    match c.range c.eip i.size with
    | some _ => exec { c with eip := w32 (c.eip + i.size) } i
    | none => none
  | none => none

def run (code : ℕ → Option Instr) : ℕ → Cpu → Option Cpu
  | 0, c => some c
  | n + 1, c => (step code c).bind (run code n)

/-- The code is in memory from the physical address `s` on. -/
def CodeLoaded (y : Symbols) (code : ℕ → Option Instr) (s : ℕ) : Prop :=
  ∀ i (h : i < (startCode y).length), code (s + (((startCode y).take i).map Instr.size).sum) = some (startCode y)[i]

/-- The symbols lie within the image, and the stack apart from the page tables. -/
structure Symbols.Valid (y : Symbols) (P : Platform) : Prop where
  directory : y.bootPageDirectory = P.boot.bootPageDirectory + kernelVirtBase
  start_ge : P.img.kernelStart ≤ y.start
  start_le : y.start + 42 ≤ P.img.kernelEnd
  stack_ge : P.img.kernelStart + 16384 ≤ y.stackTop
  stack_le : y.stackTop ≤ P.img.kernelEnd
  stack_apart : y.stackTop ≤ y.bootPageDirectory ∨ y.bootPageDirectory + 8192 + 16384 ≤ y.stackTop
  main_ge : P.img.kernelStart ≤ y.kernelMain
  main_lt : y.kernelMain < P.img.kernelEnd

/-- Where the tables of `boot.S`, and those of `vmm_init`, take an address below their own window. -/
def bootTranslation (a : ℕ) : Option ℕ :=
  if a < identityLimit then some a
  else if kernelVirtBase ≤ a ∧ a < kernelVirtBase + identityLimit then some (a - kernelVirtBase)
  else none

variable {P : Platform} {y : Symbols} {code : ℕ → Option Instr} {c c' : Cpu} {i : Instr} {m : Bytes} {a b p n dir t : ℕ}

section Tables

/-- A directory whose slots but for the last one are empty or lead to a table with the first 4 MiB. -/
theorem translate_shared (ha : a < vmmPageTables)
    (hdir : ∀ d < 1023, (Shared d → Present (entry m dir d) ∧ frameOf (entry m dir d) = t) ∧
      (¬ Shared d → ¬ Present (entry m dir d)))
    (htable : ∀ i < 1024, Present (entry m t i) ∧ frameOf (entry m t i) = 4096 * i) :
    translate m dir a = bootTranslation a := by
  have hlt : dirIndex a < 1023 := by
    unfold dirIndex
    unfold vmmPageTables at ha
    omega
  obtain ⟨hshared, hother⟩ := hdir (dirIndex a) hlt
  by_cases hs : Shared (dirIndex a)
  · obtain ⟨hpde, hframe⟩ := hshared hs
    obtain ⟨hpte, hpage⟩ := htable (tableIndex a) (tableIndex_lt a)
    have hphys : translate m dir a = some (4096 * tableIndex a + a % 4096) := by
      refine translate_eq_some.mpr ⟨(entry m dir (dirIndex a), entry m t (tableIndex a)), ?_, by rw [hpage]⟩
      rw [walk_eq_some, hframe]
      exact ⟨⟨hpde, hpte⟩, rfl, rfl⟩
    rw [hphys]
    unfold bootTranslation identityLimit kernelVirtBase
    unfold Shared dirIndex at hs
    unfold tableIndex
    split_ifs
    · exact congrArg some (by omega)
    · exact congrArg some (by omega)
    · omega
  · have hnone : translate m dir a = none := by
      rw [Lib.Paging.translate, walk, if_neg (fun h ↦ hother hs h.1), Option.map_none]
    rw [hnone]
    unfold bootTranslation identityLimit kernelVirtBase
    unfold Shared dirIndex at hs
    split_ifs
    · omega
    · omega
    · rfl

theorem translate_loaded {b : BootTables} (h : b.Loaded m) (ha : a < vmmPageTables) :
    translate m b.bootPageDirectory a = bootTranslation a := by
  refine translate_shared ha (fun d hd ↦ ?_) h.identity.pages
  rw [h.directory d (by omega)]
  constructor
  · intro hs
    rw [if_pos hs, present_add b.table_aligned]
    exact ⟨by decide, frameOf_add b.table_aligned (by decide)⟩
  · intro hs
    rw [if_neg hs]
    decide

theorem translate_started {s : Paged} (h : Started P dir t s) (ha : a < vmmPageTables) :
    translate s.mem.mem dir a = bootTranslation a := by
  refine translate_shared ha (fun d hd ↦ ⟨fun hs ↦ ?_, fun hs hp ↦ ?_⟩) h.identity.pages
  · have hp := (h.slots d hd).mpr hs
    exact ⟨hp, h.frames d hd hp⟩
  · exact hs ((h.slots d hd).mp hp)

end Tables

section Steps

theorem range_of_linear (h : ∀ k < n, c.physical (a + k) = some (p + k)) (hn : 0 < n) : c.range a n = some p := by
  have hp := h 0 hn
  rw [Nat.add_zero, Nat.add_zero] at hp
  unfold Cpu.range
  rw [hp]
  exact if_pos h

/-- An instruction that lies at the physical address `p`. -/
theorem step_of_fetch (hcode : code p = some i) (h : ∀ k < i.size, c.physical (c.eip + k) = some (p + k)) :
    step code c = exec { c with eip := w32 (c.eip + i.size) } i := by
  have hsize : 0 < i.size := by cases i <;> exact Nat.succ_pos _
  have hp := h 0 hsize
  rw [Nat.add_zero, Nat.add_zero] at hp
  unfold step
  rw [hp, Option.bind_some, hcode]
  dsimp only
  rw [range_of_linear h hsize]

theorem run_succ (h : step code c = some c') : run code (n + 1) c = run code n c' := by
  rw [run, h, Option.bind_some]

theorem physical_on (h : c.cr0.testBit 31 = true) (hcr3 : c.cr3 = P.boot.bootPageDirectory)
    (hm : P.boot.Loaded c.mem) (ha : a < vmmPageTables) : c.physical a = bootTranslation a := by
  rw [Cpu.physical, h, hcr3, if_pos rfl, translate_loaded hm ha]

theorem bootTranslation_low (h : a < identityLimit) : bootTranslation a = some a := if_pos h

theorem bootTranslation_high (h : kernelVirtBase ≤ a) (h' : a < kernelVirtBase + identityLimit) :
    bootTranslation a = some (a - kernelVirtBase) := by
  have hlow : ¬ a < identityLimit := by
    unfold kernelVirtBase at h
    unfold identityLimit
    omega
  rw [bootTranslation, if_neg hlow, if_pos ⟨h, h'⟩]

theorem push_high (hon : c.cr0.testBit 31 = true) (hcr3 : c.cr3 = P.boot.bootPageDirectory)
    (hm : P.boot.Loaded c.mem) (hlow : kernelVirtBase + 4 ≤ c.esp) (hhigh : c.esp ≤ kernelVirtBase + identityLimit)
    (v : ℕ) : c.push v =
      some { c with esp := c.esp - 4, mem := setWord c.mem (c.esp - 4 - kernelVirtBase) v } := by
  unfold identityLimit kernelVirtBase at *
  have hesp : sub32 c.esp 4 = c.esp - 4 := sub32_of_le (by omega) (by omega)
  have hrange : c.range (c.esp - 4) 4 = some (c.esp - 4 - 0xC0000000) := by
    refine range_of_linear (fun k hk ↦ ?_) (by decide)
    rw [physical_on hon hcr3 hm (by unfold vmmPageTables; omega),
      bootTranslation_high (by unfold kernelVirtBase; omega) (by unfold kernelVirtBase identityLimit; omega)]
    exact congrArg some (by unfold kernelVirtBase; omega)
  unfold Cpu.push
  dsimp only
  rw [hesp, hrange, Option.map_some]

end Steps

/-- The image lies in the first 4 MiB. -/
theorem image_low (P : Platform) : P.img.kernelEnd ≤ kernelVirtBase + identityLimit := by
  have hlow := P.bitmap_low
  have hend := Pmm.Init.physEnd_eq P.img
  have hstart := P.img.start_le
  unfold identityLimit kernelVirtBase at *
  omega

/-- The bounds of the image as numbers. -/
theorem Symbols.Valid.bounds (hy : y.Valid P) : 0xC0100000 ≤ y.start ∧ y.start + 42 ≤ 0xC0400000 ∧
    0xC0104000 ≤ y.stackTop ∧ y.stackTop ≤ 0xC0400000 ∧ 0xC0100000 ≤ y.kernelMain ∧ y.kernelMain < 0xC0400000 ∧
    y.bootPageDirectory - kernelVirtBase = P.boot.bootPageDirectory := by
  have himage := image_low P
  obtain ⟨hdir, hstart, hstart', hstack, hstack', -, hmain, hmain'⟩ := hy
  unfold Pmm.KernelImage.kernelStart at *
  unfold identityLimit kernelVirtBase at *
  omega

section Code

variable {s eip eax ebx ecx esp cr0 cr3 : ℕ}

theorem setPaging (cr0 : ℕ) : (cr0 ||| 0x80000000).testBit 31 = true := by
  rw [Nat.testBit_or]
  exact Bool.or_true _

/-- Up to the instruction that turns on paging, addresses are physical. -/
theorem run_paging (hcode : CodeLoaded y code s) (hs : s + 42 ≤ identityLimit) (hoff : cr0.testBit 31 = false)
    (n : ℕ) : run code (n + 5) ⟨s, eax, ebx, ecx, esp, cr0, cr3, m⟩ =
      run code n ⟨s + 20, eax, ebx, cr0 ||| 0x80000000, esp, cr0 ||| 0x80000000,
        y.bootPageDirectory - kernelVirtBase, m⟩ := by
  have hstep {i : Instr} (offset : ℕ) {ecx cr3 : ℕ} (hi : code (s + offset) = some i) (hle : offset + i.size ≤ 42) :
      step code ⟨s + offset, eax, ebx, ecx, esp, cr0, cr3, m⟩ =
        exec ⟨s + (offset + i.size), eax, ebx, ecx, esp, cr0, cr3, m⟩ i := by
    have hnext : w32 (s + offset + i.size) = s + (offset + i.size) := by
      unfold identityLimit at hs
      rw [w32_of_lt (by omega), Nat.add_assoc]
    have hphys (a : ℕ) : Cpu.physical ⟨s + offset, eax, ebx, ecx, esp, cr0, cr3, m⟩ a = some a := by
      rw [Cpu.physical, hoff]
      rfl
    rw [step_of_fetch hi fun _ _ ↦ hphys _]
    dsimp only
    rw [hnext]
  have h0 : code (s + 0) = some (.movImmEcx (y.bootPageDirectory - kernelVirtBase)) := hcode 0 (show 0 < 12 by decide)
  have h1 : code (s + 5) = some .movEcxCr3 := hcode 1 (show 1 < 12 by decide)
  have h2 : code (s + 8) = some .movCr0Ecx := hcode 2 (show 2 < 12 by decide)
  have h3 : code (s + 11) = some (.orEcx 0x80000000) := hcode 3 (show 3 < 12 by decide)
  have h4 : code (s + 17) = some .movEcxCr0 := hcode 4 (show 4 < 12 by decide)
  set d := y.bootPageDirectory - kernelVirtBase
  have e0 : step code ⟨s, eax, ebx, ecx, esp, cr0, cr3, m⟩ = some ⟨s + 5, eax, ebx, d, esp, cr0, cr3, m⟩ :=
    hstep 0 h0 (show 5 ≤ 42 by decide)
  have e1 : step code ⟨s + 5, eax, ebx, d, esp, cr0, cr3, m⟩ = some ⟨s + 8, eax, ebx, d, esp, cr0, d, m⟩ :=
    hstep 5 h1 (show 8 ≤ 42 by decide)
  have e2 : step code ⟨s + 8, eax, ebx, d, esp, cr0, d, m⟩ = some ⟨s + 11, eax, ebx, cr0, esp, cr0, d, m⟩ :=
    hstep 8 h2 (show 11 ≤ 42 by decide)
  have e3 : step code ⟨s + 11, eax, ebx, cr0, esp, cr0, d, m⟩ =
      some ⟨s + 17, eax, ebx, cr0 ||| 0x80000000, esp, cr0, d, m⟩ := hstep 11 h3 (show 17 ≤ 42 by decide)
  have e4 : step code ⟨s + 17, eax, ebx, cr0 ||| 0x80000000, esp, cr0, d, m⟩ =
      some ⟨s + 20, eax, ebx, cr0 ||| 0x80000000, esp, cr0 ||| 0x80000000, d, m⟩ := hstep 17 h4 (show 20 ≤ 42 by decide)
  rw [run_succ e0, run_succ e1, run_succ e2, run_succ e3, run_succ e4]

/-- With paging on, the code goes on at its physical addresses until it jumps. -/
theorem run_jump (hcode : CodeLoaded y code s) (hs : s + 42 ≤ identityLimit) (hon : cr0.testBit 31 = true)
    (hm : P.boot.Loaded m) (n : ℕ) :
    run code (n + 2) ⟨s + 20, eax, ebx, ecx, esp, cr0, P.boot.bootPageDirectory, m⟩ =
      run code n ⟨y.higherHalf, eax, ebx, y.higherHalf, esp, cr0, P.boot.bootPageDirectory, m⟩ := by
  have hstep {i : Instr} (offset : ℕ) {ecx : ℕ} (hi : code (s + offset) = some i) (hle : offset + i.size ≤ 42) :
      step code ⟨s + offset, eax, ebx, ecx, esp, cr0, P.boot.bootPageDirectory, m⟩ =
        exec ⟨s + (offset + i.size), eax, ebx, ecx, esp, cr0, P.boot.bootPageDirectory, m⟩ i := by
    unfold identityLimit at hs
    have hnext : w32 (s + offset + i.size) = s + (offset + i.size) := by
      rw [w32_of_lt (by omega), Nat.add_assoc]
    have hphys {a : ℕ} (ha : a < identityLimit) :
        Cpu.physical ⟨s + offset, eax, ebx, ecx, esp, cr0, P.boot.bootPageDirectory, m⟩ a = some a := by
      rw [Cpu.physical, hon, if_pos rfl, translate_loaded hm (ha.trans (by decide)), bootTranslation_low ha]
    rw [step_of_fetch hi fun k hk ↦ hphys (show s + offset + k < 0x400000 by omega)]
    dsimp only
    rw [hnext]
  have h5 : code (s + 20) = some (.leaEcx y.higherHalf) := hcode 5 (show 5 < 12 by decide)
  have h6 : code (s + 26) = some .jmpEcx := hcode 6 (show 6 < 12 by decide)
  have e5 : step code ⟨s + 20, eax, ebx, ecx, esp, cr0, P.boot.bootPageDirectory, m⟩ =
      some ⟨s + 26, eax, ebx, y.higherHalf, esp, cr0, P.boot.bootPageDirectory, m⟩ :=
    hstep 20 h5 (show 26 ≤ 42 by decide)
  have e6 : step code ⟨s + 26, eax, ebx, y.higherHalf, esp, cr0, P.boot.bootPageDirectory, m⟩ =
      some ⟨y.higherHalf, eax, ebx, y.higherHalf, esp, cr0, P.boot.bootPageDirectory, m⟩ :=
    hstep 26 h6 (show 28 ≤ 42 by decide)
  rw [run_succ e5, run_succ e6]

theorem loaded_setWord (hm : P.boot.Loaded m) {q v : ℕ}
    (hapart : q + 4 ≤ P.boot.bootPageDirectory ∨ P.boot.bootPageDirectory + 8192 ≤ q) :
    P.boot.Loaded (setWord m q v) := by
  refine hm.congr fun a ha ↦ setWord_of_ne ?_
  unfold InPage BootTables.bootPageTable1 at ha
  omega

/-- The memory that `kernel_main` is called with. The stack is at the physical address `top`. -/
def called (m : Bytes) (top eax ebx back : ℕ) : Bytes :=
  setWord (setWord (setWord m (top - 4) ebx) (top - 8) eax) (top - 12) back

/-- In the higher half the code is fetched from the same place, and the stack is there. -/
theorem run_call (hy : y.Valid P) (hcode : CodeLoaded y code (y.start - kernelVirtBase)) (hon : cr0.testBit 31 = true)
    (hm : P.boot.Loaded m) :
    run code 5 ⟨y.higherHalf, eax, ebx, ecx, esp, cr0, P.boot.bootPageDirectory, m⟩ =
      some ⟨y.kernelMain, eax, ebx, y.kernelMain, y.stackTop - 12, cr0, P.boot.bootPageDirectory,
        called m (y.stackTop - kernelVirtBase) eax ebx (y.start + 42)⟩ := by
  obtain ⟨hstart, hstart', hstack, hstack', -, -, hdir⟩ := hy.bounds
  have hapart := hy.stack_apart
  have hdirectory := hy.directory
  set s := y.start - kernelVirtBase with hs
  have hstep {i : Instr} (offset : ℕ) {ecx esp : ℕ} {m : Bytes} (hm : P.boot.Loaded m)
      (hi : code (s + offset) = some i) (hle : offset + i.size ≤ 42) :
      step code ⟨y.start + offset, eax, ebx, ecx, esp, cr0, P.boot.bootPageDirectory, m⟩ =
        exec ⟨y.start + (offset + i.size), eax, ebx, ecx, esp, cr0, P.boot.bootPageDirectory, m⟩ i := by
    have hnext : w32 (y.start + offset + i.size) = y.start + (offset + i.size) := by
      rw [w32_of_lt (by omega), Nat.add_assoc]
    have hphys (k : ℕ) (hk : k < i.size) :
        Cpu.physical ⟨y.start + offset, eax, ebx, ecx, esp, cr0, P.boot.bootPageDirectory, m⟩ (y.start + offset + k) =
          some (s + offset + k) := by
      have hsum : y.start + offset + k - kernelVirtBase = s + offset + k := by
        unfold kernelVirtBase at hs ⊢
        omega
      rw [Cpu.physical, hon, if_pos rfl, translate_loaded hm (by unfold vmmPageTables; omega),
        bootTranslation_high (by unfold kernelVirtBase; omega) (by unfold kernelVirtBase identityLimit; omega), hsum]
    rw [step_of_fetch hi hphys]
    dsimp only
    rw [hnext]
  have h7 : code (s + 28) = some (.movImmEsp y.stackTop) := hcode 7 (show 7 < 12 by decide)
  have h8 : code (s + 33) = some .pushEbx := hcode 8 (show 8 < 12 by decide)
  have h9 : code (s + 34) = some .pushEax := hcode 9 (show 9 < 12 by decide)
  have h10 : code (s + 35) = some (.movImmEcx y.kernelMain) := hcode 10 (show 10 < 12 by decide)
  have h11 : code (s + 40) = some .callEcx := hcode 11 (show 11 < 12 by decide)
  have hpush {eip ecx : ℕ} (used : ℕ) {m : Bytes} (hm : P.boot.Loaded m) (hused : used ≤ 8) (v : ℕ) :
      Cpu.push v ⟨eip, eax, ebx, ecx, y.stackTop - used, cr0, P.boot.bootPageDirectory, m⟩ =
        some ⟨eip, eax, ebx, ecx, y.stackTop - (used + 4), cr0, P.boot.bootPageDirectory,
          setWord m (y.stackTop - kernelVirtBase - (used + 4)) v⟩ := by
    have hesp : y.stackTop - used - 4 = y.stackTop - (used + 4) := Nat.sub_sub ..
    have hslot : y.stackTop - (used + 4) - kernelVirtBase = y.stackTop - kernelVirtBase - (used + 4) :=
      Nat.sub_right_comm ..
    rw [@push_high P ⟨eip, eax, ebx, ecx, y.stackTop - used, cr0, P.boot.bootPageDirectory, m⟩ hon rfl hm
      (by unfold kernelVirtBase; dsimp only; omega) (by unfold kernelVirtBase identityLimit; dsimp only; omega)]
    dsimp only
    rw [hesp, hslot]
  have hslot (used v : ℕ) {m : Bytes} (hm : P.boot.Loaded m) (hused : used ≤ 8) :
      P.boot.Loaded (setWord m (y.stackTop - kernelVirtBase - (used + 4)) v) := by
    refine loaded_setWord hm ?_
    unfold kernelVirtBase at *
    omega
  set m₁ := setWord m (y.stackTop - kernelVirtBase - 4) ebx
  have hm₁ : P.boot.Loaded m₁ := hslot 0 ebx hm (by decide)
  set m₂ := setWord m₁ (y.stackTop - kernelVirtBase - 8) eax
  have hm₂ : P.boot.Loaded m₂ := hslot 4 eax hm₁ (by decide)
  set d := P.boot.bootPageDirectory
  have e7 : step code ⟨y.start + 28, eax, ebx, ecx, esp, cr0, d, m⟩ =
      some ⟨y.start + 33, eax, ebx, ecx, y.stackTop, cr0, d, m⟩ := hstep 28 hm h7 (show 33 ≤ 42 by decide)
  have e8 : step code ⟨y.start + 33, eax, ebx, ecx, y.stackTop, cr0, d, m⟩ =
      some ⟨y.start + 34, eax, ebx, ecx, y.stackTop - 4, cr0, d, m₁⟩ :=
    (hstep 33 hm h8 (show 34 ≤ 42 by decide)).trans (hpush 0 hm (by decide) ebx)
  have e9 : step code ⟨y.start + 34, eax, ebx, ecx, y.stackTop - 4, cr0, d, m₁⟩ =
      some ⟨y.start + 35, eax, ebx, ecx, y.stackTop - 8, cr0, d, m₂⟩ :=
    (hstep 34 hm₁ h9 (show 35 ≤ 42 by decide)).trans (hpush 4 hm₁ (by decide) eax)
  have e10 : step code ⟨y.start + 35, eax, ebx, ecx, y.stackTop - 8, cr0, d, m₂⟩ =
      some ⟨y.start + 40, eax, ebx, y.kernelMain, y.stackTop - 8, cr0, d, m₂⟩ :=
    hstep 35 hm₂ h10 (show 40 ≤ 42 by decide)
  have e11 : step code ⟨y.start + 40, eax, ebx, y.kernelMain, y.stackTop - 8, cr0, d, m₂⟩ =
      some ⟨y.kernelMain, eax, ebx, y.kernelMain, y.stackTop - 12, cr0, d,
        called m (y.stackTop - kernelVirtBase) eax ebx (y.start + 42)⟩ := by
    rw [hstep 40 hm₂ h11 (show 42 ≤ 42 by decide), exec]
    dsimp only
    rw [hpush 8 hm₂ (by decide)]
    rfl
  have hlabel : y.higherHalf = y.start + 28 := rfl
  rw [hlabel, run_succ e7, run_succ e8, run_succ e9, run_succ e10, run_succ e11]
  rfl

theorem called_of_outside {top back : ℕ} (htop : 12 ≤ top) (ha : a < top - 12 ∨ top ≤ a) :
    called m top eax ebx back a = m a := by
  rw [called, setWord_of_ne (by omega), setWord_of_ne (by omega), setWord_of_ne (by omega)]

/-- The two arguments of `kernel_main`. -/
theorem called_arguments {top back : ℕ} (htop : 12 ≤ top) (heax : eax < 4294967296) (hebx : ebx < 4294967296) :
    word (called m top eax ebx back) (top - 8) = eax ∧ word (called m top eax ebx back) (top - 4) = ebx := by
  unfold called
  constructor
  · rw [word_setWord_of_ne (by omega), word_setWord_self heax]
  · rw [word_setWord_of_ne (by omega), word_setWord_of_ne (by omega), word_setWord_self hebx]

end Code

/-- From where the boot loader enters `_start`, with paging off, the code runs into `kernel_main` in the higher half.
Every instruction is fetched from the image, the stack holds what the boot loader has passed on, and no other
memory has changed. -/
theorem start_enters (hy : y.Valid P) (hcode : CodeLoaded y code (y.start - kernelVirtBase))
    (hm : P.boot.Loaded c.mem) (hoff : c.cr0.testBit 31 = false) (heip : c.eip = y.start - kernelVirtBase)
    (heax : c.eax < 4294967296) (hebx : c.ebx < 4294967296) :
    let top := y.stackTop - kernelVirtBase
    ∃ c', run code 12 c = some c' ∧
      c'.eip = y.kernelMain ∧ c'.physical c'.eip = some (y.kernelMain - kernelVirtBase) ∧
      c'.esp = y.stackTop - 12 ∧ c'.range c'.esp 12 = some (top - 12) ∧
      word c'.mem (top - 8) = c.eax ∧ word c'.mem (top - 4) = c.ebx ∧
      (∀ a, a < top - 12 ∨ top ≤ a → c'.mem a = c.mem a) ∧ ∀ vars, Entered P ⟨⟨c'.mem, c'.cr3⟩, vars⟩ := by
  intro top
  obtain ⟨eip, eax, ebx, ecx, esp, cr0, cr3, m⟩ := c
  dsimp only at *
  obtain ⟨hstart, hstart', hstack, hstack', hmain, hmain', hdir⟩ := hy.bounds
  have hapart := hy.stack_apart
  have hdirectory := hy.directory
  have htop : 12 ≤ top ∧ top = y.stackTop - 0xC0000000 := ⟨by unfold top kernelVirtBase; omega, rfl⟩
  have hon := setPaging cr0
  have hrun : run code 12 ⟨eip, eax, ebx, ecx, esp, cr0, cr3, m⟩ =
      some ⟨y.kernelMain, eax, ebx, y.kernelMain, y.stackTop - 12, cr0 ||| 0x80000000, P.boot.bootPageDirectory,
        called m top eax ebx (y.start + 42)⟩ := by
    have hlow : y.start - kernelVirtBase + 42 ≤ identityLimit := by
      unfold kernelVirtBase identityLimit
      omega
    rw [heip, run_paging hcode hlow hoff 7, hdir, run_jump hcode hlow hon hm 5, run_call hy hcode hon hm]
  have hloaded : P.boot.Loaded (called m top eax ebx (y.start + 42)) := by
    refine hm.congr fun a ha ↦ called_of_outside htop.1 ?_
    unfold InPage BootTables.bootPageTable1 at ha
    unfold kernelVirtBase at *
    omega
  obtain ⟨harg, harg'⟩ := @called_arguments m eax ebx top (y.start + 42) htop.1 heax hebx
  have hphys {a : ℕ} (ha : 0xC0000000 ≤ a) (ha' : a < 0xC0400000) :
      Cpu.physical ⟨y.kernelMain, eax, ebx, y.kernelMain, y.stackTop - 12, cr0 ||| 0x80000000, P.boot.bootPageDirectory,
        called m top eax ebx (y.start + 42)⟩ a = some (a - kernelVirtBase) := by
    rw [Cpu.physical, hon, if_pos rfl, translate_loaded hloaded (by unfold vmmPageTables; omega)]
    exact bootTranslation_high ha ha'
  refine ⟨_, hrun, rfl, hphys (by dsimp only; omega) hmain', rfl, range_of_linear (fun k hk ↦ ?_) (by decide), harg, harg',
    fun a ha ↦ called_of_outside htop.1 ha, fun vars ↦ ⟨rfl, hloaded⟩⟩
  rw [hphys (by dsimp only; omega) (by dsimp only; omega)]
  exact congrArg some (by unfold kernelVirtBase; dsimp only; omega)

/-- `pmm_init` and `vmm_init` exchange the page tables under the running kernel. Below the window of the new ones every
address is taken to where it was taken before: the first 4 MiB, and these again in the higher half. -/
theorem bootMemory_keeps_translations {s : Paged} (h : Entered P s) :
    ∃ s', (bootMemory P.img P.mmap).run s = .ok () s' ∧ s'.mem.cr3 ≠ s.mem.cr3 ∧
      ∀ a < vmmPageTables, translate s.mem.mem s.mem.cr3 a = bootTranslation a ∧
        translate s'.mem.mem s'.mem.cr3 a = bootTranslation a := by
  obtain ⟨dir, t, s', hrun, hs'⟩ := bootMemory_returns h
  refine ⟨s', hrun, ?_, fun a ha ↦ ?_⟩
  · obtain ⟨i, j, hij, hj, hi, -⟩ := P.frames_low
    have hle : dir / 4096 ≤ i := hs'.dir_taken.2 hi
    have hframe := lowFrame_of_bootFree hs'.dir_taken.1 (show dir / 4096 < 1024 by omega)
    have hne := hframe.ne_directory
    rw [Nat.mul_div_cancel' hs'.hierarchy.aligned] at hne
    rw [hs'.cr3, h.cr3]
    exact hne
  · rw [hs'.cr3, h.cr3]
    exact ⟨translate_loaded h.loaded ha, translate_started hs' ha⟩

section Small

open Exhausted Vmm.Mapping

/-- The code at 1 MiB, and the stack at the end of the image. -/
def smallSymbols : Symbols := ⟨0xC0100010, 0xC0110000, 0xC0120000, 0xC0100400⟩

def smallCode (a : ℕ) : Option Instr :=
  ((List.range 12).find? fun i ↦ a = 0x100010 + (((startCode smallSymbols).take i).map Instr.size).sum).bind
    fun i ↦ (startCode smallSymbols)[i]?

theorem smallSymbols_valid : smallSymbols.Valid smallPlatform where
  directory := by decide
  start_ge := by decide
  start_le := by decide
  stack_ge := by decide
  stack_le := by decide
  stack_apart := by decide
  main_ge := by decide
  main_lt := by decide

theorem smallCode_loaded : CodeLoaded smallSymbols smallCode (smallSymbols.start - kernelVirtBase) := by
  unfold CodeLoaded
  decide

/-- The registers of the boot loader, with the magic number of the specification. -/
def smallLoader : Cpu := ⟨0x100010, 0x2BADB002, 0x9500, 0, 0x7FF0, 0x11, 0, smallSupply.mem.mem⟩

theorem start_enters_small : ∃ c', run smallCode 12 smallLoader = some c' ∧ c'.eip = 0xC0100400 ∧
    word c'.mem 0x11FFF8 = 0x2BADB002 ∧ word c'.mem 0x11FFFC = 0x9500 := by
  obtain ⟨c', hrun, heip, -, -, -, harg, harg', -⟩ := start_enters (c := smallLoader) smallSymbols_valid smallCode_loaded
    loaded_smallSupply (by decide) (by decide) (by decide) (by decide)
  exact ⟨c', hrun, heip, harg, harg'⟩

theorem bootMemory_keeps_translations_small : ∃ s',
    (bootMemory smallPlatform.img smallPlatform.mmap).run ⟨⟨smallSupply.mem.mem, 0x110000⟩, .initial⟩ = .ok () s' ∧
      translate s'.mem.mem s'.mem.cr3 0xC0100400 = some 0x100400 := by
  obtain ⟨s', hrun, -, hkeeps⟩ := @bootMemory_keeps_translations smallPlatform
    ⟨⟨smallSupply.mem.mem, 0x110000⟩, .initial⟩ ⟨rfl, loaded_smallSupply⟩
  exact ⟨s', hrun, (hkeeps 0xC0100400 (by decide)).2⟩

end Small

end KevOS.Memory.Startup
