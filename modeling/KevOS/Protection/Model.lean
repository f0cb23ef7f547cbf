import KevOS.Lib.Privilege
import KevOS.Lib.Loop
import KevOS.Interrupts.Stubs

namespace KevOS.Protection

open Lib.ByteMemory Lib.Privilege Lib.Loop Function
open Interrupts.Stubs (Vector)

/-- Where the linker has put the tables and the variables that `lgdt` and `lidt` read. -/
structure Layout where
  gdtEntries : ℕ
  gdtPtr : ℕ
  tssEntry : ℕ
  idtEntries : ℕ
  idtPtr : ℕ
  deriving DecidableEq, Repr

/-- The labels of the stubs, and `.flush`. -/
structure Labels where
  isr : ℕ → ℕ
  irq : ℕ → ℕ
  isr128 : ℕ
  flush : ℕ

section GlobalTable

/-- The fields of a `gdt_entry_struct` lie at 0 (`limit_low`), 2 (`base_low`), 4 (`base_middle`),
5 (`access`), 6 (`granularity`) and 7 (`base_high`). -/
def gdtSetGate (gdtEntries num base limit access gran : ℕ) (m : Bytes) : Bytes :=
  let e := gdtEntries + 8 * num
  let m := setHalf m (e + 2) (base &&& 0xFFFF)
  let m := update m (e + 4) (UInt8.ofNat ((base >>> 16) &&& 0xFF))
  let m := update m (e + 7) (UInt8.ofNat ((base >>> 24) &&& 0xFF))
  let m := setHalf m e (limit &&& 0xFFFF)
  let m := update m (e + 6) (UInt8.ofNat ((limit >>> 16) &&& 0x0F))
  let m := update m (e + 6) (m (e + 6) ||| UInt8.ofNat (gran &&& 0xF0))
  update m (e + 5) (UInt8.ofNat access)

def gdtKernelCodeSegment : ℕ := 0x08

def gdtKernelDataSegment : ℕ := 0x10

def gdtTssSegment : ℕ := 0x28

/-- The size of a `tss_entry_struct`. -/
def tssSize : ℕ := 104

/-- `gdt_install` up to the call of `gdt_flush`. -/
def gdtInstall (L : Layout) (m : Bytes) : Bytes :=
  let m := setHalf m L.gdtPtr (8 * 6 - 1)
  let m := setWord m (L.gdtPtr + 2) L.gdtEntries
  let m := gdtSetGate L.gdtEntries 0 0 0 0 0 m
  let m := gdtSetGate L.gdtEntries 1 0 0xFFFFFFFF 0x9A 0xCF m
  let m := gdtSetGate L.gdtEntries 2 0 0xFFFFFFFF 0x92 0xCF m
  let m := gdtSetGate L.gdtEntries 3 0 0xFFFFFFFF 0xFA 0xCF m
  let m := gdtSetGate L.gdtEntries 4 0 0xFFFFFFFF 0xF2 0xCF m
  gdtSetGate L.gdtEntries 5 L.tssEntry (tssSize - 1) 0xE9 0x00 m

/-- The operand of `lgdt` and `lidt`: the limit, then the base. -/
def tableAt (m : Bytes) (p : ℕ) : Table := ⟨word m (p + 2), half m p⟩

/-- The boot loader has left the processor in ring 0. -/
def gdtFlush (ptr flush : ℕ) (m : Bytes) (s : System) : Except Refusal System := do
  let s := { s with gdtr := tableAt m ptr }
  loadData s m 0 0x10
  loadData s m 0 0x10
  loadData s m 0 0x10
  loadData s m 0 0x10
  loadStack s m 0 0x10
  farJump s m 0 0x08 flush
  pure s

end GlobalTable

section TaskState

def tssSetStack (L : Layout) (stack : ℕ) (m : Bytes) : Bytes := setWord m (L.tssEntry + 4) stack

/-- The fields that are not 0: `ss0` at 8, `esp0` at 4, `cs` at 76, and `gs`, `fs`, `es`, `ds`, `ss` at 92,
88, 72, 84, 80. -/
def tssFields (L : Layout) (kernelStackPtr : ℕ) (m : Bytes) : Bytes :=
  let m := fill m L.tssEntry 0 tssSize
  let m := setWord m (L.tssEntry + 8) gdtKernelDataSegment
  let m := setWord m (L.tssEntry + 4) kernelStackPtr
  let m := setWord m (L.tssEntry + 76) (gdtKernelCodeSegment ||| 0x03)
  let m := setWord m (L.tssEntry + 92) (gdtKernelDataSegment ||| 0x03)
  let m := setWord m (L.tssEntry + 88) (gdtKernelDataSegment ||| 0x03)
  let m := setWord m (L.tssEntry + 72) (gdtKernelDataSegment ||| 0x03)
  let m := setWord m (L.tssEntry + 84) (gdtKernelDataSegment ||| 0x03)
  setWord m (L.tssEntry + 80) (gdtKernelDataSegment ||| 0x03)

def tssInstall (L : Layout) (kernelStackPtr : ℕ) (m : Bytes) (s : System) :
    Except Refusal (System × Bytes) :=
  loadTask s (tssFields L kernelStackPtr m) gdtTssSegment

end TaskState

section InterruptTable

/-- The fields of an `idt_entry_struct` lie at 0 (`base_low`), 2 (`sel`), 4 (`always0`), 5 (`flags`) and
6 (`base_high`). -/
def idtSetGate (idtEntries num base sel flags : ℕ) (m : Bytes) : Bytes :=
  let e := idtEntries + 8 * (num % 256)
  let m := setHalf m e (base &&& 0xFFFF)
  let m := setHalf m (e + 6) ((base >>> 16) &&& 0xFFFF)
  let m := setHalf m (e + 2) sel
  let m := update m (e + 4) 0
  update m (e + 5) (UInt8.ofNat flags)

/-- `idt_install` up to `lidt`. -/
def idtInstall (L : Layout) (labels : Labels) (m : Bytes) : Bytes :=
  let m := setHalf m L.idtPtr (8 * 256 - 1)
  let m := setWord m (L.idtPtr + 2) L.idtEntries
  let m := forRange (fun i ↦ idtSetGate L.idtEntries i 0 0 0) 256 m
  let m := forRange (fun i ↦ idtSetGate L.idtEntries i (labels.isr i) 0x08 0x8E) 32 m
  let m := forRange (fun i ↦ idtSetGate L.idtEntries (32 + i) (labels.irq i) 0x08 0x8E) 16 m
  idtSetGate L.idtEntries 128 labels.isr128 0x08 0xEE m

end InterruptTable

/-- The start of `kernel_main`: `gdt_install`, `tss_install` and `idt_install`. -/
def boot (L : Layout) (labels : Labels) (kernelStackPtr : ℕ) (m : Bytes) (s : System) :
    Except Refusal (System × Bytes) := do
  let m := gdtInstall L m
  let s ← gdtFlush L.gdtPtr labels.flush m s
  let (s, m) ← tssInstall L kernelStackPtr m s
  let m := idtInstall L labels m
  pure ({ s with idtr := tableAt m L.idtPtr }, m)

/-- The address behind a gate. -/
def Labels.entry (labels : Labels) : Vector → ℕ
  | .isr num => labels.isr num
  | .irq num => labels.irq num
  | .syscall => labels.isr128

/-- The tables do not overlap, and lie below the end of the address space. -/
structure Layout.Valid (L : Layout) : Prop where
  apart : [(L.gdtEntries, 48), (L.gdtPtr, 6), (L.tssEntry, 104), (L.idtEntries, 2048), (L.idtPtr, 6)].Pairwise
    fun r q ↦ r.1 + r.2 ≤ q.1 ∨ q.1 + q.2 ≤ r.1
  gdtEntries : L.gdtEntries + 48 ≤ 4294967296
  gdtPtr : L.gdtPtr + 6 ≤ 4294967296
  tssEntry : L.tssEntry + 104 ≤ 4294967296
  idtEntries : L.idtEntries + 2048 ≤ 4294967296
  idtPtr : L.idtPtr + 6 ≤ 4294967296

/-- The tables that the processor works with. -/
def Layout.InTables (L : Layout) (a : ℕ) : Prop :=
  (L.gdtEntries ≤ a ∧ a < L.gdtEntries + 48) ∨ (L.tssEntry ≤ a ∧ a < L.tssEntry + 104) ∨
    (L.idtEntries ≤ a ∧ a < L.idtEntries + 2048)

structure Labels.Valid (labels : Labels) : Prop where
  entry : ∀ v, labels.entry v < 4294967296
  flush : labels.flush < 4294967296

/-- The boot and what comes after it: calls of `tss_set_stack`, and anything that leaves the tables
alone. The stack is the one that was set last. -/
inductive Run (L : Layout) (labels : Labels) : ℕ → System → Bytes → Prop
  | boot {kernelStackPtr : ℕ} {m m' : Bytes} {s s' : System} :
      kernelStackPtr < 4294967296 → boot L labels kernelStackPtr m s = .ok (s', m') →
      Run L labels kernelStackPtr s' m'
  | setStack {stack stack' : ℕ} {s : System} {m : Bytes} :
      Run L labels stack s m → stack' < 4294967296 →
      Run L labels stack' s (tssSetStack L stack' m)
  | store {stack : ℕ} {s : System} {m m' : Bytes} :
      Run L labels stack s m → (∀ a, L.InTables a → m' a = m a) → Run L labels stack s m'

/-- The stub of an interrupt, if it has one. -/
def vectorOf (n : ℕ) : Option Vector :=
  if h : n < 32 then some (.isr ⟨n, h⟩)
  else if h : n - 32 < 16 then some (.irq ⟨n - 32, h⟩)
  else if n = 128 then some .syscall
  else none

end KevOS.Protection
