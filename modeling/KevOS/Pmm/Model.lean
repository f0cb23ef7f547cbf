import KevOS.Machine

namespace KevOS.Pmm

open Lib.Program Lib.ByteMemory Lib.Bits Machine

/-- One region of the Multiboot memory map. The `size` field only leads from one
entry to the next, so the map is the list of its entries. -/
structure MultibootMmapEntry where
  addr : UInt64
  len : UInt64
  type : UInt32

def multibootMemoryAvailable : UInt32 := 1

/-- The extent of the kernel image, as the linker script lays it out. -/
structure KernelImage where
  kernelEnd : ℕ
  start_le : 0xC0100000 ≤ kernelEnd
  end_lt : kernelEnd < 0x100000000

def KernelImage.kernelStart (_ : KernelImage) : ℕ := 0xC0100000

/-- The variables of the physical memory manager. -/
structure PmmVars where
  pmmBitmap : ℕ
  pmmMaxBlocks : ℕ
  pmmUsedBlocks : ℕ
  deriving DecidableEq, Repr

def PmmVars.initial : PmmVars := ⟨0, 0, 0⟩

variable {σ : Type} [ByteMem σ]

def mmapSet (bit : ℕ) : Prog (Kernel σ PmmVars) Unit := do
  let s ← get
  let b ← load8 (s.vars.pmmBitmap + bit / 8)
  store8 (s.vars.pmmBitmap + bit / 8) (b ||| bitMask bit)

def mmapUnset (bit : ℕ) : Prog (Kernel σ PmmVars) Unit := do
  let s ← get
  let b ← load8 (s.vars.pmmBitmap + bit / 8)
  store8 (s.vars.pmmBitmap + bit / 8) (b &&& ~~~bitMask bit)

def mmapTest (bit : ℕ) : Prog (Kernel σ PmmVars) Bool := do
  let s ← get
  let b ← load8 (s.vars.pmmBitmap + bit / 8)
  pure (b &&& bitMask bit != 0)

def setUsedBlocks (f : ℕ → ℕ) : Prog (Kernel σ PmmVars) Unit :=
  modify fun s ↦ { s with vars := { s.vars with pmmUsedBlocks := f s.vars.pmmUsedBlocks } }

/-- The first pass over the map: the end of the highest available region. -/
def highestPhysicalAddr (mmap : List MultibootMmapEntry) : ℕ :=
  mmap.foldl (fun highest entry ↦
    if entry.type = multibootMemoryAvailable then
      let currentEnd := w64 (entry.addr.toNat + entry.len.toNat)
      if currentEnd > highest then currentEnd else highest
    else highest) 0

def maxBlocks (mmap : List MultibootMmapEntry) : ℕ :=
  w32 (highestPhysicalAddr mmap / pageSize)

def bitmapSize (blocks : ℕ) : ℕ := if blocks % 8 ≠ 0 then blocks / 8 + 1 else blocks / 8

def KernelImage.physStart (img : KernelImage) : ℕ := sub32 img.kernelStart kernelVirtBase

def KernelImage.physEnd (img : KernelImage) : ℕ := sub32 img.kernelEnd kernelVirtBase

/-- `block_start` and `block_count` of the second pass. -/
def MultibootMmapEntry.blockStart (entry : MultibootMmapEntry) : ℕ :=
  w32 (entry.addr.toNat / pageSize)

def MultibootMmapEntry.blockCount (entry : MultibootMmapEntry) : ℕ :=
  w32 (entry.len.toNat / pageSize)

/-- Release `count` blocks from `block` on, as far as the bitmap reaches. -/
def releaseBlocks (block : ℕ) : ℕ → Prog (Kernel σ PmmVars) Unit
  | 0 => pure ()
  | count + 1 => do
    let s ← get
    if w32 block < s.vars.pmmMaxBlocks then
      if ← mmapTest (w32 block) then
        mmapUnset (w32 block)
        setUsedBlocks (sub32 · 1)
    releaseBlocks (block + 1) count

/-- The second pass over the map. -/
def releaseRegions : List MultibootMmapEntry → Prog (Kernel σ PmmVars) Unit
  | [] => pure ()
  | entry :: mmap => do
    if entry.type = multibootMemoryAvailable then
      releaseBlocks entry.blockStart entry.blockCount
    releaseRegions mmap

/-- Lock `count` blocks from `i` on, as far as the bitmap reaches. -/
def reserveBlocks (i : ℕ) : ℕ → Prog (Kernel σ PmmVars) Unit
  | 0 => pure ()
  | count + 1 => do
    let s ← get
    if i < s.vars.pmmMaxBlocks then
      if !(← mmapTest i) then
        mmapSet i
        setUsedBlocks (fun u ↦ w32 (u + 1))
    reserveBlocks (i + 1) count

def kernelStartBlock (img : KernelImage) : ℕ := img.physStart / pageSize

/-- The first block behind the kernel image and the bitmap. -/
def kernelAndBitmapEndBlock (img : KernelImage) (blocks : ℕ) : ℕ :=
  w32 (w32 (img.physEnd + bitmapSize blocks) + pageSize - 1) / pageSize

def pmmInit (img : KernelImage) (mmap : List MultibootMmapEntry) : Prog (Kernel σ PmmVars) Unit := do
  let blocks := maxBlocks mmap
  modify fun s ↦ { s with vars := { s.vars with pmmMaxBlocks := blocks, pmmBitmap := img.physEnd } }
  memset img.physEnd 0xFF (bitmapSize blocks)
  setUsedBlocks (fun _ ↦ blocks)
  releaseRegions mmap
  reserveBlocks (kernelStartBlock img)
    (kernelAndBitmapEndBlock img blocks - kernelStartBlock img)

def pmmGetFreeMemory : Prog (Kernel σ PmmVars) ℕ := do
  let s ← get
  pure (w32 (sub32 s.vars.pmmMaxBlocks s.vars.pmmUsedBlocks * pageSize))

/-- The search of `pmmAllocPage`, with `n` blocks left to look at. -/
def allocFrom (i : ℕ) : ℕ → Prog (Kernel σ PmmVars) ℕ
  | 0 => pure 0
  | n + 1 => do
    if !(← mmapTest i) then
      mmapSet i
      setUsedBlocks (fun u ↦ w32 (u + 1))
      pure (w32 (i * pageSize))
    else
      allocFrom (i + 1) n

/-- The physical address of a page that was free, 0 when there is none. -/
def pmmAllocPage : Prog (Kernel σ PmmVars) ℕ := do
  let s ← get
  allocFrom 0 s.vars.pmmMaxBlocks

def pmmFreePage (ptr : ℕ) : Prog (Kernel σ PmmVars) Unit := do
  let s ← get
  if ptr / pageSize < s.vars.pmmMaxBlocks then
    if ← mmapTest (ptr / pageSize) then
      mmapUnset (ptr / pageSize)
      setUsedBlocks (sub32 · 1)

end KevOS.Pmm
