import KevOS.Lib.Bits

namespace KevOS.Machine

open Lib.Program Lib.ByteMemory

/-- The value of a 32-bit C expression. -/
def w32 (x : ℕ) : ℕ := x % 4294967296

/-- The value of a 64-bit C expression. -/
def w64 (x : ℕ) : ℕ := x % 18446744073709551616

/-- Subtraction of 32-bit numbers. -/
def sub32 (a b : ℕ) : ℕ := (a + 4294967296 - b) % 4294967296

theorem w32_lt (x : ℕ) : w32 x < 4294967296 := Nat.mod_lt _ (by decide)

theorem w32_of_lt {x : ℕ} (h : x < 4294967296) : w32 x = x := Nat.mod_eq_of_lt h

theorem w32_w32_add (a k i : ℕ) : w32 (w32 (a + k) + i) = w32 (a + (k + i)) := by
  unfold w32
  omega

theorem sub32_of_le {a b : ℕ} (h : b ≤ a) (ha : a < 4294967296) : sub32 a b = a - b := by
  unfold sub32
  omega

def pageSize : ℕ := 4096

/-- The kernel is linked this far above its physical addresses. -/
def kernelVirtBase : ℕ := 0xC0000000

/-- The page tables are mapped from here on. -/
def vmmPageTables : ℕ := 0xFFC00000

theorem vmmPageTables_lt : vmmPageTables < 4294967296 := by decide

/-- The memory the code works on, and the variables `π` of the managers above it. -/
structure Kernel (σ π : Type) where
  mem : σ
  vars : π

variable {σ π α : Type}

def onMem (x : Prog σ α) : Prog (Kernel σ π) α :=
  zoom Kernel.mem (fun s m ↦ { s with mem := m }) x

theorem onMem_ok {x : Prog σ α} {s : Kernel σ π} {r : α} {m : σ} (h : x.run s.mem = .ok r m) :
    (onMem x).run s = .ok r { s with mem := m } := zoom_ok h

theorem onMem_error {x : Prog σ α} {s : Kernel σ π} {e : Stop} {m : σ}
    (h : x.run s.mem = .error e m) : (onMem x).run s = .error e { s with mem := m } := zoom_error h

instance [ByteMem σ] : ByteMem (Kernel σ π) :=
  ByteMem.zoom Kernel.mem (fun s m ↦ { s with mem := m })

/-- Where a manager gets its page frames: an address, or 0. -/
class PageSource (σ : Type) where
  allocPage : Prog σ ℕ

export PageSource (allocPage)

/-- How a manager maps a frame: physical address, virtual address, flags. -/
class PageMapper (σ : Type) where
  mapPage : ℕ → ℕ → ℕ → Prog σ Unit

export PageMapper (mapPage)

/-- Physical memory, addressed directly. -/
instance : ByteMem Bytes where
  load8 a := fun m ↦ .ok (m a) m
  store8 a v := fun m ↦ .ok () (Function.update m a v)

/-- Directly addressed memory is bytes everywhere. -/
def physical : Window Bytes where
  inv _ := True
  acc _ _ := True
  view m := m
  load8_eq _ _ := rfl
  store8_ok _ _ _ := ⟨_, rfl, trivial, rfl, rfl⟩

/-- A window onto the memory of a kernel whose managers hold `e`. -/
def Kernel.window [ByteMem σ] (W : Window σ) (e : π) : Window (Kernel σ π) :=
  W.zoom Kernel.mem (fun s m ↦ { s with mem := m }) (fun _ _ ↦ rfl) (fun _ ↦ rfl)
    (fun s ↦ s.vars = e) (fun _ _ h ↦ h)

end KevOS.Machine
