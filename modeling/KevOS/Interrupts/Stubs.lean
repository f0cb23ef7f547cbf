import KevOS.Lib.Ia32

namespace KevOS.Interrupts.Stubs

open Lib.FlatStack Lib.Ia32 Function

/-- `struct registers`. -/
structure Registers where
  ds : UInt32
  edi : UInt32
  esi : UInt32
  ebp : UInt32
  esp : UInt32
  ebx : UInt32
  edx : UInt32
  ecx : UInt32
  eax : UInt32
  intNo : UInt32
  errCode : UInt32
  eip : UInt32
  cs : UInt32
  eflags : UInt32
  useresp : UInt32
  ss : UInt32
  deriving DecidableEq, Repr

/-- The `struct registers` that a pointer points to. -/
def registersAt (m : Mem) (p : UInt32) : Registers where
  ds := read m p
  edi := read m (p + 4)
  esi := read m (p + 8)
  ebp := read m (p + 12)
  esp := read m (p + 16)
  ebx := read m (p + 20)
  edx := read m (p + 24)
  ecx := read m (p + 28)
  eax := read m (p + 32)
  intNo := read m (p + 36)
  errCode := read m (p + 40)
  eip := read m (p + 44)
  cs := read m (p + 48)
  eflags := read m (p + 52)
  useresp := read m (p + 56)
  ss := read m (p + 60)

inductive Callee
  | isrHandler
  | irqHandler
  | syscallHandler
  deriving DecidableEq, Repr

/-- A stub up to its `call`, and from there to its `iret`. -/
structure Stub where
  before : List Instr
  callee : Callee
  after : List Instr

def pushRegisters : List Instr :=
  [.push .eax, .push .ecx, .push .edx, .push .ebx, .push .esp, .push .ebp, .push .esi, .push .edi]

def loadSegments : List Instr := [.movAxSeg .ds, .movAxSeg .es, .movAxSeg .fs, .movAxSeg .gs]

/-- What the stubs share. `clear` comes before `mov %ds, %ax`. -/
def commonStub (clear : List Instr) (callee : Callee) : Stub where
  before := pushRegisters ++ clear ++ [.movSegAx .ds, .push .eax, .movImmAx 0x10] ++ loadSegments ++
    [.push .esp]
  callee := callee
  after := [.add 4 .esp, .pop .eax] ++ loadSegments ++
    [.pop .edi, .pop .esi, .pop .ebp, .add 4 .esp, .pop .ebx, .pop .edx, .pop .ecx, .pop .eax,
      .add 8 .esp]

def Stub.from (code : List Instr) (s : Stub) : Stub := { s with before := code ++ s.before }

def commonIsrHandler : Stub := commonStub [.xor .eax .eax] .isrHandler

def commonIrqHandler : Stub := commonStub [.xor .eax .eax] .irqHandler

/-- Here the upper half of `eax` is pushed with `ds`. -/
def isr128 : Stub := (commonStub [] .syscallHandler).from [.cli, .pushImm 0, .pushImm 128]

def isrNoErrCode (num : UInt32) : Stub := commonIsrHandler.from [.pushImm 0, .pushImm num]

def isrErrCode (num : UInt32) : Stub := commonIsrHandler.from [.pushImm num]

def irq (target : UInt32) : Stub := commonIrqHandler.from [.pushImm 0, .pushImm target]

/-- The exceptions declared with `ISR_ERRCODE`. -/
def declaredErrCode : List ℕ := [8, 10, 11, 12, 13, 14, 17, 21, 29, 30]

/-- The vectors that have a stub. -/
inductive Vector
  | isr (num : Fin 32)
  | irq (num : Fin 16)
  | syscall
  deriving DecidableEq, Repr

def Vector.number : Vector → UInt32
  | .isr num => UInt32.ofNat num
  | .irq num => UInt32.ofNat (32 + num)
  | .syscall => 128

def Vector.hasErrCode : Vector → Bool
  | .isr num => decide (num.val ∈ declaredErrCode)
  | _ => false

def Vector.stub (v : Vector) : Stub :=
  match v with
  | .isr _ => if v.hasErrCode then isrErrCode v.number else isrNoErrCode v.number
  | .irq _ => Stubs.irq v.number
  | .syscall => isr128

/-- What the processor saves of the interrupted code, with its stack when the privilege level
changes. -/
structure Interrupted where
  eip : UInt32
  cs : UInt32
  eflags : UInt32
  outer : Option (UInt32 × UInt32)
  deriving DecidableEq, Repr

def Interrupted.words (f : Interrupted) : List UInt32 :=
  [f.eip, f.cs, f.eflags] ++ f.outer.elim [] fun (useresp, ss) ↦ [useresp, ss]

/-- The stack that the processor pushes to. -/
def Interrupted.stackTop (f : Interrupted) (esp0 : UInt32) (c : Cpu) : UInt32 :=
  if f.outer.isSome then esp0 else c.reg .esp

/-- The way through the gate, up to the first instruction of the stub. -/
def deliver (v : Vector) (esp0 : UInt32) (f : Interrupted) (code : UInt32) (c : Cpu) : Cpu :=
  let c := ({ c with interruptFlag := false }.set .esp (f.stackTop esp0 c)).pushAll f.words.reverse
  if v.hasErrCode then c.push code else c

/-- A C function that follows the calling convention and changes nothing but general registers
of the frame at `p`. -/
structure Handled (p : UInt32) (c c' : Cpu) : Prop where
  saved : ∀ r ∈ [Reg.ebx, .esp, .ebp, .esi, .edi], c'.reg r = c.reg r
  frame : ∃ edi esi ebp esp ebx edx ecx eax, registersAt c'.mem p =
    { registersAt c.mem p with edi, esi, ebp, esp, ebx, edx, ecx, eax }

structure Captured (v : Vector) (f : Interrupted) (code : UInt32) (c : Cpu) (r : Registers) :
    Prop where
  ds : low r.ds = c.seg .ds
  edi : r.edi = c.reg .edi
  esi : r.esi = c.reg .esi
  ebp : r.ebp = c.reg .ebp
  ebx : r.ebx = c.reg .ebx
  edx : r.edx = c.reg .edx
  ecx : r.ecx = c.reg .ecx
  eax : r.eax = c.reg .eax
  intNo : r.intNo = v.number
  errCode : r.errCode = if v.hasErrCode then code else 0
  eip : r.eip = f.eip
  cs : r.cs = f.cs
  eflags : r.eflags = f.eflags

/-- What `iret` finds after the C function has left `r` behind. -/
structure Restored (esp0 : UInt32) (f : Interrupted) (c : Cpu) (r : Registers) (c' : Cpu) :
    Prop where
  esp : c'.reg .esp = f.stackTop esp0 c - 4 * UInt32.ofNat f.words.length
  frame : c'.Stack f.words
  seg : ∀ s, c'.seg s = c.seg s
  edi : c'.reg .edi = r.edi
  esi : c'.reg .esi = r.esi
  ebp : c'.reg .ebp = r.ebp
  ebx : c'.reg .ebx = r.ebx
  edx : c'.reg .edx = r.edx
  ecx : c'.reg .ecx = r.ecx
  eax : c'.reg .eax = r.eax

end KevOS.Interrupts.Stubs
