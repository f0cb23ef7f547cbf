import KevOS.Machine

namespace KevOS.Heap

open Lib.Program Lib.ByteMemory Machine

def kheapStart : ℕ := 0xD0000000

def kheapInitialSize : ℕ := 0x200000

/-- `sizeof(heap_node)`: a size, a flag and two links, four bytes each. -/
def heapNodeSize : ℕ := 16

structure HeapVars where
  heapHead : ℕ
  heapCurrentEnd : ℕ

def HeapVars.initial : HeapVars := ⟨0, kheapStart⟩

abbrev HeapState (τ : Type) := Kernel τ HeapVars

section Fields

variable {τ : Type} [ByteMem τ]

def readSize (node : ℕ) : Prog (HeapState τ) ℕ := load32 node

def readFree (node : ℕ) : Prog (HeapState τ) Bool := do
  let b ← load8 (node + 4)
  pure (b != 0)

def readNext (node : ℕ) : Prog (HeapState τ) ℕ := load32 (node + 8)

def readPrev (node : ℕ) : Prog (HeapState τ) ℕ := load32 (node + 12)

def writeSize (node v : ℕ) : Prog (HeapState τ) Unit := store32 node v

def writeFree (node : ℕ) (v : Bool) : Prog (HeapState τ) Unit :=
  store8 (node + 4) (if v then 1 else 0)

def writeNext (node v : ℕ) : Prog (HeapState τ) Unit := store32 (node + 8) v

def writePrev (node v : ℕ) : Prog (HeapState τ) Unit := store32 (node + 12) v

/-- `if (node) node->prev = v`. -/
def writePrevOf (node v : ℕ) : Prog (HeapState τ) Unit :=
  if node ≠ 0 then writePrev node v else pure ()

/-- The first `if` of `kfree`: take over the next block if it is free. -/
def mergeNext (node : ℕ) : Prog (HeapState τ) Unit := do
  let next ← readNext node
  if next ≠ 0 then
    if ← readFree next then
      let nodeSize ← readSize node
      let nextSize ← readSize next
      writeSize node (w32 (nodeSize + w32 (nextSize + heapNodeSize)))
      let after ← readNext next
      writeNext node after
      writePrevOf after node

/-- The second `if` of `kfree`: let the previous block take over this one if it is free. -/
def mergePrev (node : ℕ) : Prog (HeapState τ) Unit := do
  let prev ← readPrev node
  if prev ≠ 0 then
    if ← readFree prev then
      let prevSize ← readSize prev
      let nodeSize ← readSize node
      writeSize prev (w32 (prevSize + w32 (nodeSize + heapNodeSize)))
      let next ← readNext node
      writeNext prev next
      writePrevOf next prev

def kfree (ptr : ℕ) : Prog (HeapState τ) Unit := do
  if ptr ≠ 0 then
    let node := sub32 ptr heapNodeSize
    writeFree node true
    mergeNext node
    mergePrev node

/-- Cut `curr` down to `size` bytes and put a free block behind it. -/
def splitBlock (curr size : ℕ) : Prog (HeapState τ) Unit := do
  let newNode := w32 (curr + heapNodeSize + size)
  let currSize ← readSize curr
  writeSize newNode (sub32 (sub32 currSize size) heapNodeSize)
  writeFree newNode true
  let next ← readNext curr
  writeNext newNode next
  writePrev newNode curr
  let next ← readNext curr
  writePrevOf next newNode
  writeNext curr newNode
  writeSize curr size

/-- `curr->free && curr->size >= size`. -/
def fits (curr size : ℕ) : Prog (HeapState τ) Bool := do
  if ← readFree curr then
    let n ← readSize curr
    pure (decide (size ≤ n))
  else pure false

/-- The block `curr` has been found: split it if the rest can hold a block. -/
def takeBlock (curr size : ℕ) : Prog (HeapState τ) ℕ := do
  let n ← readSize curr
  if w32 (size + heapNodeSize + 8) ≤ n then
    splitBlock curr size
  writeFree curr false
  pure (w32 (curr + heapNodeSize))

end Fields

section Growth

variable {τ : Type} [ByteMem τ] [PageSource τ] [PageMapper τ]

/-- Map a new frame at `virt`. Without one the kernel panics. -/
def backPage (virt : ℕ) : Prog τ Unit := do
  let phys ← allocPage
  if phys = 0 then throw .halt else mapPage phys virt 7

def kheapExpand : ℕ → Prog (HeapState τ) Unit
  | 0 => pure ()
  | pages + 1 => do
    let s ← get
    onMem (backPage s.vars.heapCurrentEnd)
    modify fun s ↦
      { s with vars := { s.vars with heapCurrentEnd := w32 (s.vars.heapCurrentEnd + pageSize) } }
    kheapExpand pages

def kheapInit : Prog (HeapState τ) Unit := do
  kheapExpand (kheapInitialSize / pageSize)
  modify fun s ↦ { s with vars := { s.vars with heapHead := kheapStart } }
  writeSize kheapStart (kheapInitialSize - heapNodeSize)
  writeFree kheapStart true
  writeNext kheapStart 0
  writePrev kheapStart 0

def pagesNeeded (size : ℕ) : ℕ := w32 (size + heapNodeSize + pageSize - 1) / pageSize

/-- Grow the heap behind the last block `curr`, and free the new block. -/
def extend (curr size : ℕ) : Prog (HeapState τ) Unit := do
  let s ← get
  let oldEnd := s.vars.heapCurrentEnd
  kheapExpand (pagesNeeded size)
  writeSize oldEnd (sub32 (w32 (pagesNeeded size * pageSize)) heapNodeSize)
  writeFree oldEnd true
  writeNext oldEnd 0
  writePrev oldEnd curr
  writeNext curr oldEnd
  kfree (w32 (oldEnd + heapNodeSize))

/-- The loop of `kmalloc`, from `curr` on. -/
def search (size : ℕ) : ℕ → ℕ → Prog (HeapState τ) ℕ
  | 0, _ => throw .fuel
  | fuel + 1, curr => do
    if curr = 0 then
      pure 0
    else if ← fits curr size then
      takeBlock curr size
    else
      let next ← readNext curr
      if next = 0 then
        extend curr size
        let s ← get
        search size fuel s.vars.heapHead
      else
        search size fuel next

/-- The request, rounded up to a multiple of 8. -/
def roundUp (size : ℕ) : ℕ := w32 (size + 7) &&& 0xFFFFFFF8

def kmalloc (fuel size : ℕ) : Prog (HeapState τ) ℕ := do
  if size = 0 then
    pure 0
  else
    let s ← get
    search (roundUp size) fuel s.vars.heapHead

end Growth

end KevOS.Heap
