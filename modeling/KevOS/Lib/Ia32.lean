import KevOS.Lib.FlatStack
import Mathlib.Data.Fintype.Basic

namespace KevOS.Lib.Ia32

open FlatStack Function

inductive Reg
  | eax
  | ecx
  | edx
  | ebx
  | esp
  | ebp
  | esi
  | edi
  deriving DecidableEq, Repr

/-- The data segments. -/
inductive Seg
  | ds
  | es
  | fs
  | gs
  deriving DecidableEq, Repr

/-- The registers that an interrupt stub handles, the interrupt flag, and memory. -/
structure Cpu where
  reg : Reg → UInt32
  seg : Seg → UInt16
  interruptFlag : Bool
  mem : Mem

/-- A register with its low 16 bits replaced, and the low 16 bits of a register. -/
def setLow (r : UInt32) (v : UInt16) : UInt32 := UInt32.ofNat (r.toNat / 65536 * 65536 + v.toNat)

def low (r : UInt32) : UInt16 := UInt16.ofNat (r.toNat % 65536)

def Cpu.set (c : Cpu) (r : Reg) (v : UInt32) : Cpu := { c with reg := update c.reg r v }

def Cpu.push (c : Cpu) (v : UInt32) : Cpu :=
  { c.set .esp (c.reg .esp - 4) with mem := write c.mem (c.reg .esp - 4) v }

/-- `movSegAx s` is `mov %s, %ax`, `movImmAx v` is `mov $v, %ax`, and `movAxSeg s` is
`mov %ax, %s`. -/
inductive Instr
  | push (r : Reg)
  | pushImm (v : UInt32)
  | pop (r : Reg)
  | add (v : UInt32) (r : Reg)
  | xor (r s : Reg)
  | movSegAx (s : Seg)
  | movImmAx (v : UInt16)
  | movAxSeg (s : Seg)
  | cli
  deriving DecidableEq, Repr

/-- The arithmetic flags are left out, no instruction reads them. -/
def exec (c : Cpu) : Instr → Cpu
  | .push r => c.push (c.reg r)
  | .pushImm v => c.push v
  | .pop r => (c.set .esp (c.reg .esp + 4)).set r (read c.mem (c.reg .esp))
  | .add v r => c.set r (c.reg r + v)
  | .xor r s => c.set s (c.reg s ^^^ c.reg r)
  | .movSegAx s => c.set .eax (setLow (c.reg .eax) (c.seg s))
  | .movImmAx v => c.set .eax (setLow (c.reg .eax) v)
  | .movAxSeg s => { c with seg := update c.seg s (low (c.reg .eax)) }
  | .cli => { c with interruptFlag := false }

def run (code : List Instr) (c : Cpu) : Cpu := code.foldl exec c

variable {c : Cpu} {r s : Reg} {v : UInt32} {code code' : List Instr} {vs : List UInt32}

theorem low_setLow (w : UInt16) : low (setLow v w) = w := by
  have hv := v.toNat_lt
  have hw := w.toNat_lt
  have hsum : (v.toNat / 65536 * 65536 + w.toNat) % 2 ^ 32 = v.toNat / 65536 * 65536 + w.toNat :=
    Nat.mod_eq_of_lt (by omega)
  have hlow : (v.toNat / 65536 * 65536 + w.toNat) % 65536 = w.toNat := by omega
  rw [low, setLow, UInt32.toNat_ofNat', hsum, hlow]
  exact UInt16.ofNat_toNat

theorem run_append : run (code ++ code') c = run code' (run code c) := List.foldl_append ..

@[simp] theorem run_nil : run [] c = c := rfl

@[simp] theorem run_cons (i : Instr) : run (i :: code) c = run code (exec c i) := rfl

section Fields

@[simp] theorem set_self : (c.set r v).reg r = v := update_self ..

theorem set_of_ne (h : s ≠ r) : (c.set r v).reg s = c.reg s := update_of_ne h ..

@[simp] theorem set_mem : (c.set r v).mem = c.mem := rfl

@[simp] theorem set_seg : (c.set r v).seg = c.seg := rfl

@[simp] theorem push_esp : (c.push v).reg .esp = c.reg .esp - 4 :=
  show (c.set .esp (c.reg .esp - 4)).reg .esp = c.reg .esp - 4 from set_self

theorem push_of_ne (h : s ≠ .esp) : (c.push v).reg s = c.reg s := set_of_ne h

@[simp] theorem push_seg : (c.push v).seg = c.seg := rfl

end Fields

def Cpu.Stack (c : Cpu) (vs : List UInt32) : Prop := Stacked c.mem (c.reg .esp) vs

theorem Cpu.Stack.push (h : c.Stack vs) (hlen : 4 * (vs.length + 1) ≤ 4294967296) :
    (c.push v).Stack (v :: vs) := by
  rw [Cpu.Stack, push_esp]
  exact Stacked.push h hlen

/-- Pushing several words, one after the other. -/
def Cpu.pushAll (c : Cpu) (vs : List UInt32) : Cpu := vs.foldl Cpu.push c

theorem Cpu.Stack.pushAll {us : List UInt32} (h : c.Stack vs)
    (hlen : 4 * (us.length + vs.length) ≤ 4294967296) : (c.pushAll us).Stack (us.reverse ++ vs) := by
  induction us generalizing c vs with
  | nil => exact h
  | cons u us ih =>
    rw [List.length_cons] at hlen
    rw [Cpu.pushAll, List.foldl_cons, List.reverse_cons, List.append_assoc, List.singleton_append]
    exact ih (h.push (by omega)) (by rw [List.length_cons]; omega)

theorem pushAll_reg {us : List UInt32} (h : r ≠ .esp) : (c.pushAll us).reg r = c.reg r := by
  induction us generalizing c with
  | nil => rfl
  | cons u us ih =>
    rw [Cpu.pushAll, List.foldl_cons, ← Cpu.pushAll, ih, push_of_ne h]

theorem pushAll_seg {us : List UInt32} : (c.pushAll us).seg = c.seg := by
  induction us generalizing c with
  | nil => rfl
  | cons u us ih => rw [Cpu.pushAll, List.foldl_cons, ← Cpu.pushAll, ih, push_seg]

theorem pushAll_esp {us : List UInt32} :
    (c.pushAll us).reg .esp = c.reg .esp - 4 * UInt32.ofNat us.length := by
  induction us generalizing c with
  | nil => exact (UInt32.sub_zero _).symm
  | cons u us ih =>
    have hcount : UInt32.ofNat (us.length + 1) = UInt32.ofNat us.length + 1 := UInt32.ofNat_add ..
    rw [Cpu.pushAll, List.foldl_cons, ← Cpu.pushAll, ih, push_esp, List.length_cons, hcount]
    grind

end KevOS.Lib.Ia32
