import KevOS.Lib.Paging
import KevOS.Machine

namespace KevOS.Vmm

open Lib.Program Lib.ByteMemory Lib.Paging Machine

def vmmPresent : ℕ := 0x1

def vmmWritable : ℕ := 0x2

def vmmUser : ℕ := 0x4

def vmmRecursiveSlot : ℕ := 1023

def vmmPageDirectory : ℕ := 0xFFFFF000

/-- Loading the page directory register. -/
class PagingUnit (σ : Type) where
  loadCr3 : ℕ → Prog σ Unit

export PagingUnit (loadCr3)

section Functions

variable {σ : Type} [ByteMem σ] [PageSource σ]

/-- The loop of `vmm_init`, with `n` entries from `i` on left to write. -/
def identityMap (firstPageTable i : ℕ) : ℕ → Prog σ Unit
  | 0 => pure ()
  | n + 1 => do
    store32 (firstPageTable + 4 * i) (w32 (i * pageSize) ||| vmmPresent ||| vmmWritable ||| vmmUser)
    identityMap firstPageTable (i + 1) n

/-- `boot.S` has paging enabled already, so setting the bit in `cr0` changes nothing. -/
def vmmInit [PagingUnit σ] : Prog σ Unit := do
  let kernelDirectory ← allocPage
  memset kernelDirectory 0 pageSize
  let firstPageTable ← allocPage
  memset firstPageTable 0 pageSize
  identityMap firstPageTable 0 1024
  store32 (kernelDirectory + 4 * 0) (firstPageTable ||| vmmPresent ||| vmmWritable ||| vmmUser)
  store32 (kernelDirectory + 4 * (kernelVirtBase >>> 22))
    (firstPageTable ||| vmmPresent ||| vmmWritable ||| vmmUser)
  store32 (kernelDirectory + 4 * vmmRecursiveSlot) (kernelDirectory ||| vmmPresent ||| vmmWritable)
  loadCr3 kernelDirectory

/-- The address translation is looked up in memory at every access, so there is
nothing for `invlpg` to do. -/
def vmmMapPage (phys virt flags : ℕ) : Prog σ Unit := do
  let pdIndex := virt >>> 22
  let ptIndex := (virt >>> 12) &&& 0x3FF
  let pde ← load32 (vmmPageDirectory + 4 * pdIndex)
  if pde &&& vmmPresent = 0 then
    let ptPhys ← allocPage
    store32 (vmmPageDirectory + 4 * pdIndex)
      (ptPhys ||| vmmPresent ||| vmmWritable ||| (flags &&& vmmUser))
    memset (vmmPageTables + 4 * (pdIndex * 1024)) 0 pageSize
  store32 (vmmPageTables + 4 * (pdIndex * 1024 + ptIndex)) (phys ||| (flags &&& 0xFFF) ||| vmmPresent)

end Functions

/-- The machine: physical memory, reached through the tables at `cr3`. -/
structure Vm where
  mem : Bytes
  cr3 : ℕ

def Vm.load8 (a : ℕ) : Prog Vm UInt8 := do
  let v ← get
  match translate v.mem v.cr3 (w32 a) with
  | some p => pure (v.mem p)
  | none => throw .fault

def Vm.store8 (a : ℕ) (x : UInt8) : Prog Vm Unit := do
  let v ← get
  match translate v.mem v.cr3 (w32 a) with
  | some p => set { v with mem := Function.update v.mem p x }
  | none => throw .fault

instance : ByteMem Vm := ⟨Vm.load8, Vm.store8⟩

variable {π : Type}

instance : PagingUnit (Kernel Vm π) := ⟨fun dir ↦ modify fun s ↦ { s with mem.cr3 := dir }⟩

section Accesses

variable {v : Vm} {s : Kernel Vm π} {a p n x : ℕ}

/-- The kernel state over another physical memory. -/
def withPhys (s : Kernel Vm π) (m : Bytes) : Kernel Vm π := ⟨⟨m, s.mem.cr3⟩, s.vars⟩

@[simp] theorem withPhys_mem (m : Bytes) : (withPhys s m).mem.mem = m := rfl

@[simp] theorem withPhys_cr3 (m : Bytes) : (withPhys s m).mem.cr3 = s.mem.cr3 := rfl

@[simp] theorem withPhys_vars (m : Bytes) : (withPhys s m).vars = s.vars := rfl

@[simp] theorem withPhys_withPhys (m m' : Bytes) : withPhys (withPhys s m) m' = withPhys s m' := rfl

theorem Vm.load8_ok (ha : a < 4294967296) (h : translate v.mem v.cr3 a = some p) :
    (Vm.load8 a).run v = .ok (v.mem p) v := by
  rw [Vm.load8, run_get_bind, w32_of_lt ha, h]
  rfl

theorem Vm.store8_ok {b : UInt8} (ha : a < 4294967296) (h : translate v.mem v.cr3 a = some p) :
    (Vm.store8 a b).run v = .ok () { v with mem := Function.update v.mem p b } := by
  rw [Vm.store8, run_get_bind, w32_of_lt ha, h]
  rfl

theorem Vm.store8_fault {b : UInt8} (ha : a < 4294967296)
    (h : translate v.mem v.cr3 a = none) : (Vm.store8 a b).run v = .error .fault v := by
  rw [Vm.store8, run_get_bind, w32_of_lt ha, h]
  rfl

theorem load8_kernel (ha : a < 4294967296) (h : translate s.mem.mem s.mem.cr3 a = some p) :
    (load8 a).run s = .ok (s.mem.mem p) s := zoom_ok (Vm.load8_ok ha h)

theorem store8_kernel {b : UInt8} (ha : a < 4294967296)
    (h : translate s.mem.mem s.mem.cr3 a = some p) :
    (store8 a b).run s = .ok () (withPhys s (Function.update s.mem.mem p b)) :=
  zoom_ok (Vm.store8_ok ha h)

theorem store8_kernel_fault {b : UInt8} (ha : a < 4294967296)
    (h : translate s.mem.mem s.mem.cr3 a = none) :
    (store8 a b).run s = .error .fault s := zoom_error (Vm.store8_fault ha h)

theorem load32_kernel (ha : a < 4294967296) (hpage : a % 4096 + 4 ≤ 4096)
    (h : translate s.mem.mem s.mem.cr3 a = some p) :
    (load32 a).run s = .ok (word s.mem.mem p) s := by
  have h₁ := translate_add (k := 1) h (by omega)
  have h₂ := translate_add (k := 2) h (by omega)
  have h₃ := translate_add (k := 3) h (by omega)
  rw [load32, run_bind_ok (load8_kernel ha h), run_bind_ok (load8_kernel (by omega) h₁),
    run_bind_ok (load8_kernel (by omega) h₂), run_bind_ok (load8_kernel (by omega) h₃)]
  rfl

theorem store32_kernel (ha : a < 4294967296) (hpage : a % 4096 + 4 ≤ 4096)
    (h : translate s.mem.mem s.mem.cr3 a = some p) (hc : Clear s.mem.mem s.mem.cr3 a p 4) :
    (store32 a x).run s = .ok () (withPhys s (setWord s.mem.mem p x)) := by
  set m := s.mem.mem
  set m₁ := Function.update m p (UInt8.ofNat x) with hm₁
  set m₂ := Function.update m₁ (p + 1) (UInt8.ofNat (x / 256)) with hm₂
  set m₃ := Function.update m₂ (p + 2) (UInt8.ofNat (x / 65536)) with hm₃
  have hsame₁ (c : ℕ) (hc : c < p ∨ p + 4 ≤ c) : m₁ c = m c := Function.update_of_ne (by omega) ..
  have hsame₂ (c : ℕ) (hc : c < p ∨ p + 4 ≤ c) : m₂ c = m c := by
    rw [hm₂, Function.update_of_ne (by omega), hsame₁ c hc]
  have hsame₃ (c : ℕ) (hc : c < p ∨ p + 4 ≤ c) : m₃ c = m c := by
    rw [hm₃, Function.update_of_ne (by omega), hsame₂ c hc]
  have h₁ := translate_add (k := 1) (translate_of_clear h hc hsame₁) (by omega)
  have h₂ := translate_add (k := 2) (translate_of_clear h hc hsame₂) (by omega)
  have h₃ := translate_add (k := 3) (translate_of_clear h hc hsame₃) (by omega)
  have hr₁ : (store8 (a + 1) (UInt8.ofNat (x / 256))).run (withPhys s m₁) =
      .ok () (withPhys s m₂) := store8_kernel (by omega) h₁
  have hr₂ : (store8 (a + 2) (UInt8.ofNat (x / 65536))).run (withPhys s m₂) =
      .ok () (withPhys s m₃) := store8_kernel (by omega) h₂
  have hr₃ : (store8 (a + 3) (UInt8.ofNat (x / 16777216))).run (withPhys s m₃) =
      .ok () (withPhys s (setWord m p x)) := store8_kernel (by omega) h₃
  rw [store32, run_bind_ok (store8_kernel ha h), run_bind_ok hr₁, run_bind_ok hr₂, hr₃]

theorem memset_kernel {b : UInt8} (ha : a < 4294967296) (hpage : a % 4096 + n ≤ 4096)
    (h : translate s.mem.mem s.mem.cr3 a = some p) (hc : Clear s.mem.mem s.mem.cr3 a p n) :
    (memset a b n).run s = .ok () (withPhys s (fill s.mem.mem p b n)) := by
  induction n generalizing a p s with
  | zero =>
    rw [fill_zero]
    rfl
  | succ n ih =>
    set m := Function.update s.mem.mem p b with hm
    have hsame (c : ℕ) (hc : c < p ∨ p + (n + 1) ≤ c) : m c = s.mem.mem c :=
      Function.update_of_ne (by omega) ..
    rw [memset, run_bind_ok (store8_kernel ha h)]
    cases n with
    | zero =>
      rw [← fill_succ, fill_zero]
      rfl
    | succ n =>
      have hnext := translate_add (k := 1) (translate_of_clear h hc hsame) (by omega)
      have hrest := ih (s := withPhys s m) (by omega) (by omega) hnext (hc.succ hsame (by omega))
      rw [← fill_succ s.mem.mem]
      exact hrest

end Accesses

end KevOS.Vmm
