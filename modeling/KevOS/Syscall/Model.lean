import KevOS.Libc.Printf
import KevOS.Lib.Noninterference
import KevOS.Vmm.Model

namespace KevOS.Syscall

open Lib.Program Lib.Paging Lib.Noninterference Machine Libc Vmm

structure Registers where
  ds : UInt32
  edi : UInt32
  esi : UInt32
  ebp : UInt32
  esp : UInt32
  ebx : UInt32
  edx : UInt32
  ecx : UInt32
  eax : UInt32
  intNo : UInt32
  errCode : UInt32
  eip : UInt32
  cs : UInt32
  eflags : UInt32
  useresp : UInt32
  ss : UInt32
  deriving DecidableEq, Repr

section Functions

variable {σ : Type} [Console σ]

def sysPrintf (str : ℕ) : Prog σ Unit := do
  let _ ← printf (.literal [37, 115]) [str]

def syscalls : List (ℕ → Prog σ Unit) := [sysPrintf]

/-- The registers that the user program gets back. -/
def syscallHandler (timerTicks : UInt32) (regs : Registers) : Prog σ Registers :=
  if (syscalls : List (ℕ → Prog σ Unit)).length ≤ regs.eax.toNat then pure regs
  else
    match regs.eax.toNat with
    | 0 => do
      sysPrintf regs.ebx.toNat
      pure { regs with eax := 0 }
    | 1 => pure { regs with eax := timerTicks }
    | _ => pure { regs with eax := 0xFFFFFFFF }

end Functions

/-- The byte at `a` as a program in ring 3 sees it. -/
def userByte (v : Vm) (a : ℕ) : Option UInt8 :=
  match walk v.mem v.cr3 a with
  | some (pde, pte) =>
    if UserBit pde ∧ UserBit pte then some (v.mem (frameOf pte + a % 4096)) else none
  | none => none

def UserAccessible (v : Vm) (a : ℕ) : Prop := userByte v a ≠ none

/-- Memory that programs in ring 3 can read is the same. -/
def SameUserMemory (v v' : Vm) : Prop := ∀ a < 4294967296, userByte v a = userByte v' a

def kernelByte (v : Vm) (a : ℕ) : Option UInt8 := (translate v.mem v.cr3 a).map v.mem

/-- The machine in the service of a system call, with the addresses that have been read
and what the terminal was given. -/
abbrev Session := Traced Vm UInt8

instance : Console Session := ⟨look kernelByte, put⟩

def session (v : Vm) : Session := ⟨v, [], []⟩

/-- What the call shows: the registers it returns or how it ends otherwise, and what it
has written to the terminal. -/
def shown (timerTicks : UInt32) (regs : Registers) (v : Vm) : Except Stop Registers × List UInt8 :=
  match (syscallHandler timerTicks regs).run (session v) with
  | .ok regs s => (.ok regs, s.output)
  | .error e s => (.error e, s.output)

/-- The addresses that the call reads. -/
def touched (timerTicks : UInt32) (regs : Registers) (v : Vm) : List ℕ :=
  (final ((syscallHandler timerTicks regs).run (session v))).reads

end KevOS.Syscall
