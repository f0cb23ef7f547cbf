import KevOS.Heap.Model
import KevOS.Lib.Stepwise

namespace KevOS.Heap

open Lib.Program Lib.ByteMemory Lib.Stepwise Machine

section Links

variable {τ : Type} [ByteMem τ]

def writePrevOfSteps (node v : ℕ) : Steps (HeapState τ) Unit :=
  if node ≠ 0 then atom (writePrev node v) else pure ()

def mergeNextSteps (node : ℕ) : Steps (HeapState τ) Unit := do
  let next ← atom (readNext node)
  if next ≠ 0 then
    if ← atom (readFree next) then
      let nodeSize ← atom (readSize node)
      let nextSize ← atom (readSize next)
      atom (writeSize node (w32 (nodeSize + w32 (nextSize + heapNodeSize))))
      let after ← atom (readNext next)
      atom (writeNext node after)
      writePrevOfSteps after node

def mergePrevSteps (node : ℕ) : Steps (HeapState τ) Unit := do
  let prev ← atom (readPrev node)
  if prev ≠ 0 then
    if ← atom (readFree prev) then
      let prevSize ← atom (readSize prev)
      let nodeSize ← atom (readSize node)
      atom (writeSize prev (w32 (prevSize + w32 (nodeSize + heapNodeSize))))
      let next ← atom (readNext node)
      atom (writeNext prev next)
      writePrevOfSteps next prev

/-- `kfree`, statement by statement. -/
def kfreeSteps (ptr : ℕ) : Steps (HeapState τ) Unit := do
  if ptr ≠ 0 then
    let node := sub32 ptr heapNodeSize
    atom (writeFree node true)
    mergeNextSteps node
    mergePrevSteps node

def splitBlockSteps (curr size : ℕ) : Steps (HeapState τ) Unit := do
  let newNode := w32 (curr + heapNodeSize + size)
  let currSize ← atom (readSize curr)
  atom (writeSize newNode (sub32 (sub32 currSize size) heapNodeSize))
  atom (writeFree newNode true)
  let next ← atom (readNext curr)
  atom (writeNext newNode next)
  atom (writePrev newNode curr)
  let next ← atom (readNext curr)
  writePrevOfSteps next newNode
  atom (writeNext curr newNode)
  atom (writeSize curr size)

def takeBlockSteps (curr size : ℕ) : Steps (HeapState τ) ℕ := do
  let n ← atom (readSize curr)
  if w32 (size + heapNodeSize + 8) ≤ n then
    splitBlockSteps curr size
  atom (writeFree curr false)
  pure (w32 (curr + heapNodeSize))

theorem run_writePrevOfSteps (node v : ℕ) :
    (writePrevOfSteps node v : Steps (HeapState τ) Unit).run = writePrevOf node v := by
  simp [writePrevOfSteps, writePrevOf]

theorem run_mergeNextSteps (node : ℕ) :
    (mergeNextSteps node : Steps (HeapState τ) Unit).run = mergeNext node := by
  simp [mergeNextSteps, mergeNext, run_writePrevOfSteps]

theorem run_mergePrevSteps (node : ℕ) :
    (mergePrevSteps node : Steps (HeapState τ) Unit).run = mergePrev node := by
  simp [mergePrevSteps, mergePrev, run_writePrevOfSteps]

theorem run_kfreeSteps (ptr : ℕ) :
    (kfreeSteps ptr : Steps (HeapState τ) Unit).run = kfree ptr := by
  simp [kfreeSteps, kfree, run_mergeNextSteps, run_mergePrevSteps]

theorem run_splitBlockSteps (curr size : ℕ) :
    (splitBlockSteps curr size : Steps (HeapState τ) Unit).run = splitBlock curr size := by
  simp [splitBlockSteps, splitBlock, run_writePrevOfSteps]

theorem run_takeBlockSteps (curr size : ℕ) :
    (takeBlockSteps curr size : Steps (HeapState τ) ℕ).run = takeBlock curr size := by
  simp [takeBlockSteps, takeBlock, run_splitBlockSteps]

end Links

section Growth

variable {τ : Type} [ByteMem τ] [PageSource τ] [PageMapper τ]

def kheapExpandSteps : ℕ → Steps (HeapState τ) Unit
  | 0 => pure ()
  | pages + 1 => do
    let phys ← atom (onMem allocPage)
    if phys = 0 then atom (throw .halt)
    else
      let s ← atom get
      atom (onMem (mapPage phys s.vars.heapCurrentEnd 7))
      atom (modify fun s ↦
        { s with vars := { s.vars with heapCurrentEnd := w32 (s.vars.heapCurrentEnd + pageSize) } })
      kheapExpandSteps pages

def extendSteps (curr size : ℕ) : Steps (HeapState τ) Unit := do
  let s ← atom get
  let oldEnd := s.vars.heapCurrentEnd
  kheapExpandSteps (pagesNeeded size)
  atom (writeSize oldEnd (sub32 (w32 (pagesNeeded size * pageSize)) heapNodeSize))
  atom (writeFree oldEnd true)
  atom (writeNext oldEnd 0)
  atom (writePrev oldEnd curr)
  atom (writeNext curr oldEnd)
  kfreeSteps (w32 (oldEnd + heapNodeSize))

def searchSteps (size : ℕ) : ℕ → ℕ → Steps (HeapState τ) ℕ
  | 0, _ => atom (throw .fuel)
  | fuel + 1, curr => do
    if curr = 0 then
      pure 0
    else if ← atom (fits curr size) then
      takeBlockSteps curr size
    else
      let next ← atom (readNext curr)
      if next = 0 then
        extendSteps curr size
        let s ← atom get
        searchSteps size fuel s.vars.heapHead
      else
        searchSteps size fuel next

/-- `kmalloc`, statement by statement. -/
def kmallocSteps (fuel size : ℕ) : Steps (HeapState τ) ℕ := do
  if size = 0 then
    pure 0
  else
    let s ← atom get
    searchSteps (roundUp size) fuel s.vars.heapHead

omit [ByteMem τ] in
/-- `heap_current_end` is the same before and after a frame has been taken. -/
theorem backPage_statements (k : Prog (HeapState τ) Unit) :
    (onMem allocPage >>= fun phys ↦ if phys = 0 then throw .halt
      else get >>= fun s ↦ onMem (mapPage phys s.vars.heapCurrentEnd 7) >>= fun _ ↦ k) =
      (get >>= fun s ↦ onMem (backPage s.vars.heapCurrentEnd) >>= fun _ ↦ k) := by
  funext s
  change EStateM.run _ s = EStateM.run _ s
  rw [run_get_bind]
  cases ha : (allocPage : Prog τ ℕ).run s.mem with
  | error e mem =>
    have hback : (backPage s.vars.heapCurrentEnd).run s.mem = .error e mem := run_bind_error ha
    rw [run_bind_error (onMem_error ha), run_bind_error (onMem_error hback)]
  | ok phys mem =>
    rw [run_bind_ok (onMem_ok ha)]
    by_cases h : phys = 0
    · have hback : (backPage s.vars.heapCurrentEnd).run s.mem = .error .halt mem := by
        rw [backPage, run_bind_ok ha, if_pos h]
        rfl
      rw [if_pos h, run_bind_error (onMem_error hback)]
      rfl
    · rw [if_neg h, run_get_bind]
      cases hm : (mapPage phys s.vars.heapCurrentEnd 7).run mem with
      | ok r mem' =>
        have hback : (backPage s.vars.heapCurrentEnd).run s.mem = .ok r mem' := by
          rw [backPage, run_bind_ok ha, if_neg h, hm]
        rw [run_bind_ok (onMem_ok hm), run_bind_ok (onMem_ok hback)]
      | error e mem' =>
        have hback : (backPage s.vars.heapCurrentEnd).run s.mem = .error e mem' := by
          rw [backPage, run_bind_ok ha, if_neg h, hm]
        rw [run_bind_error (onMem_error hm), run_bind_error (onMem_error hback)]

omit [ByteMem τ] in
theorem run_kheapExpandSteps (pages : ℕ) :
    (kheapExpandSteps pages : Steps (HeapState τ) Unit).run = kheapExpand pages := by
  induction pages with
  | zero => rfl
  | succ pages ih =>
    rw [kheapExpand, ← backPage_statements]
    simp [kheapExpandSteps, ih]

theorem run_extendSteps (curr size : ℕ) :
    (extendSteps curr size : Steps (HeapState τ) Unit).run = extend curr size := by
  simp [extendSteps, extend, run_kheapExpandSteps, run_kfreeSteps]

theorem run_searchSteps (size fuel curr : ℕ) :
    (searchSteps size fuel curr : Steps (HeapState τ) ℕ).run = search size fuel curr := by
  induction fuel generalizing curr with
  | zero => exact run_atom _
  | succ fuel ih => simp [searchSteps, search, ih, run_takeBlockSteps, run_extendSteps]

theorem run_kmallocSteps (fuel size : ℕ) :
    (kmallocSteps fuel size : Steps (HeapState τ) ℕ).run = kmalloc fuel size := by
  simp [kmallocSteps, kmalloc, run_searchSteps]

end Growth

end KevOS.Heap
