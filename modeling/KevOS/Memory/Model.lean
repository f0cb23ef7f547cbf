import KevOS.Heap.Model
import KevOS.Pmm.Model
import KevOS.Vmm.Model

namespace KevOS.Memory

open Lib.Program Lib.ByteMemory Machine Pmm Vmm Heap

/-- Memory behind the page tables, with the variables of the page allocator. -/
abbrev Paged := Kernel Vm PmmVars

instance : PageSource Paged := ⟨pmmAllocPage⟩

/-- The memory the heap works on, with the addresses that were passed to
`vmm_map_page` on its behalf, the last one first. -/
abbrev KernelMemory := Kernel Paged (List ℕ)

instance : PageSource KernelMemory := ⟨onMem allocPage⟩

/-- Mapping a page for the heap. The machine ends where the page tables would be
mapped over. -/
def mapHeapPage (phys virt flags : ℕ) : Prog KernelMemory Unit := do
  modify fun s ↦ { s with vars := virt :: s.vars }
  if virt + pageSize ≤ vmmPageTables then onMem (vmmMapPage phys virt flags) else throw .halt

instance : PageMapper KernelMemory := ⟨mapHeapPage⟩

/-- What `kernel_main` does before `kheap_init`. -/
def bootMemory (img : KernelImage) (mmap : List MultibootMmapEntry) : Prog Paged Unit := do
  pmmInit img mmap
  vmmInit

end KevOS.Memory
