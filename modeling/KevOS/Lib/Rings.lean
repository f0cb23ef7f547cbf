import KevOS.Lib.Ia32
import KevOS.Lib.Privilege

namespace KevOS.Lib.Rings

open FlatStack Ia32 Privilege ByteMemory Function

/-- Memory by linear addresses. -/
def linear (m : Mem) : Bytes := fun a ↦ m (UInt32.ofNat a)

/-- The interrupt flag within a value of the flags register. -/
def interruptBit (v : UInt32) : Bool := v.toNat / 512 % 2 = 1

def withInterruptBit (v : UInt32) (b : Bool) : UInt32 :=
  UInt32.ofNat (v.toNat / 1024 * 1024 + (if b then 512 else 0) + v.toNat % 512)

/-- A processor in protected mode. The flags other than the interrupt flag are in `flags`. -/
structure Processor where
  cpu : Cpu
  eip : UInt32
  cs : UInt16
  ss : UInt16
  cpl : ℕ
  flags : UInt32

def Processor.eflags (p : Processor) : UInt32 := withInterruptBit p.flags p.cpu.interruptFlag

def widen (v : UInt16) : UInt32 := UInt32.ofNat v.toNat

/-- What is saved of the interrupted code on the stack `stack`, another one if there is one. -/
def Processor.saved (p : Processor) (stack : Option (ℕ × ℕ)) : List UInt32 :=
  [p.eip, widen p.cs, p.eflags] ++ stack.elim [] fun _ ↦ [p.cpu.reg .esp, widen p.ss]

/-- An interrupt, with the error code that some exceptions come with. -/
def interrupt (s : System) (software : Bool) (n : ℕ) (code : Option UInt32) (p : Processor) :
    Except Refusal Processor :=
  match deliver s (linear p.cpu.mem) p.cpl software n with
  | .error e => .error e
  | .ok e =>
    let cpu := if e.disables then { p.cpu with interruptFlag := false } else p.cpu
    let cpu := e.stack.elim cpu fun stack ↦ cpu.set .esp (UInt32.ofNat stack.2)
    let cpu := cpu.pushAll (p.saved e.stack).reverse
    .ok { p with
      cpu := code.elim cpu cpu.push
      eip := UInt32.ofNat e.eip
      cs := UInt16.ofNat e.cs
      ss := e.stack.elim p.ss fun stack ↦ UInt16.ofNat stack.1
      cpl := e.level }

/-- `iret`, which changes the interrupt flag only within the I/O privilege level. -/
def interruptReturn (s : System) (p : Processor) : Except Refusal Processor :=
  let esp := p.cpu.reg .esp
  let m := p.cpu.mem
  let eip := read m esp
  let cs := low (read m (esp + 4))
  let eflags := read m (esp + 8)
  let ss := low (read m (esp + 16))
  match iret s (linear m) p.cpl cs.toNat eip.toNat ss.toNat with
  | .error e => .error e
  | .ok level =>
    let flag := if p.cpl ≤ p.flags.toNat / 4096 % 4 then interruptBit eflags else p.cpu.interruptFlag
    if level = p.cpl then
      .ok { p with cpu := { p.cpu.set .esp (esp + 12) with interruptFlag := flag }, eip, cs, flags := eflags }
    else
      let seg r := if keeps s (linear m) level (p.cpu.seg r).toNat then p.cpu.seg r else 0
      let cpu := p.cpu.set .esp (read m (esp + 12))
      .ok ⟨{ cpu with interruptFlag := flag, seg }, eip, cs, ss, level, eflags⟩

section Flags

variable {v : UInt32} {b : Bool}

theorem withInterruptBit_toNat :
    (withInterruptBit v b).toNat = v.toNat / 1024 * 1024 + (if b then 512 else 0) + v.toNat % 512 := by
  have hv := v.toNat_lt
  rw [withInterruptBit, UInt32.toNat_ofNat']
  apply Nat.mod_eq_of_lt
  split_ifs <;> omega

theorem interruptBit_withInterruptBit : interruptBit (withInterruptBit v b) = b := by
  rw [interruptBit, withInterruptBit_toNat]
  cases b with
  | false =>
    simp
    omega
  | true =>
    simp
    omega

theorem withInterruptBit_interruptBit : withInterruptBit v (interruptBit v) = v := by
  rw [← UInt32.toNat_inj, withInterruptBit_toNat, interruptBit]
  simp only [decide_eq_true_eq]
  split_ifs <;> omega

/-- The parts of a number above, at and below its bit 9. -/
theorem lor_bit_nine (x : ℕ) : x ||| 512 = x / 1024 * 1024 + 512 + x % 512 := by
  have hhigh : (x ||| 512) / 2 ^ 10 = x / 2 ^ 10 ||| 512 / 2 ^ 10 := Nat.or_div_two_pow
  have hlow : (x ||| 512) % 2 ^ 9 = x % 2 ^ 9 ||| 512 % 2 ^ 9 := Nat.or_mod_two_pow
  have hbit : (x ||| 512) / 2 ^ 9 % 2 ^ 1 = x / 2 ^ 9 % 2 ^ 1 ||| 512 / 2 ^ 9 % 2 ^ 1 := by
    rw [Nat.or_div_two_pow, Nat.or_mod_two_pow]
  have hone : x / 2 ^ 9 % 2 ^ 1 ||| 512 / 2 ^ 9 % 2 ^ 1 = 1 := by
    rcases Nat.mod_two_eq_zero_or_one (x / 2 ^ 9) with h | h
    · rw [show x / 2 ^ 9 % 2 ^ 1 = 0 from h]
      rfl
    · rw [show x / 2 ^ 9 % 2 ^ 1 = 1 from h]
      rfl
  rw [hone] at hbit
  rw [show 512 / 2 ^ 10 = 0 from rfl, Nat.or_zero] at hhigh
  rw [show 512 % 2 ^ 9 = 0 from rfl, Nat.or_zero] at hlow
  omega

theorem lor_interruptBit : v ||| 0x200 = withInterruptBit v true := by
  rw [← UInt32.toNat_inj, UInt32.toNat_or, withInterruptBit_toNat]
  exact lor_bit_nine v.toNat

theorem withInterruptBit_of_withInterruptBit {b' : Bool} :
    withInterruptBit (withInterruptBit v b) b' = withInterruptBit v b' := by
  rw [← UInt32.toNat_inj, withInterruptBit_toNat, withInterruptBit_toNat, withInterruptBit_toNat]
  split_ifs <;> omega

theorem low_widen (w : UInt16) : low (widen w) = w := by
  have hw := w.toNat_lt
  rw [low, widen, UInt32.toNat_ofNat', Nat.mod_eq_of_lt (show w.toNat < 2 ^ 32 by omega),
    Nat.mod_eq_of_lt (show w.toNat < 65536 by omega), UInt16.ofNat_toNat]

end Flags

section Frame

variable {c : Cpu} {us vs : List UInt32} {code : List Instr} {x esp : UInt32} {n k : ℕ}

/-- `x` is not among the `n` words below `esp`. -/
def Beyond (x esp : UInt32) (n : ℕ) : Prop := 4 * n ≤ (x - (esp - 4 * UInt32.ofNat n)).toNat

theorem Beyond.split (h : Beyond x esp (n + k)) (hn : n + k ≤ 1000) :
    Beyond x esp n ∧ Beyond x (esp - 4 * UInt32.ofNat n) k := by
  unfold Beyond at *
  have hcount : UInt32.ofNat (n + k) = UInt32.ofNat n + UInt32.ofNat k := UInt32.ofNat_add ..
  have hbase : esp - 4 * (UInt32.ofNat n + UInt32.ofNat k) = esp - 4 * UInt32.ofNat n - 4 * UInt32.ofNat k := by
    grind
  rw [hcount, hbase] at h
  refine ⟨?_, by omega⟩
  have hdiff : x - (esp - 4 * UInt32.ofNat n) =
      (x - (esp - 4 * UInt32.ofNat n - 4 * UInt32.ofNat k)) - 4 * UInt32.ofNat k := by grind
  have hsmall : (4 * UInt32.ofNat k : UInt32).toNat = 4 * k := by
    rw [UInt32.toNat_mul, UInt32.toNat_ofNat', Nat.mod_eq_of_lt (show k < 2 ^ 32 by omega)]
    exact Nat.mod_eq_of_lt (show 4 * k < 4294967296 by omega)
  rw [hdiff, UInt32.toNat_sub_of_le _ _ (by rw [UInt32.le_iff_toNat_le]; omega), hsmall]
  omega

theorem Beyond.step (h : Beyond x esp (n + 1)) (hn : n < 1000) :
    4 ≤ (x - (esp - 4)).toNat ∧ Beyond x (esp - 4) n := by
  rw [Nat.add_comm] at h
  exact h.split (by omega)

theorem push_mem_of_far {v : UInt32} (h : 4 ≤ (x - (c.reg .esp - 4)).toNat) :
    (c.push v).mem x = c.mem x := write_of_far h

theorem pushAll_mem_of_far (h : Beyond x (c.reg .esp) us.length) (hlen : us.length ≤ 1000) :
    (c.pushAll us).mem x = c.mem x := by
  induction us generalizing c with
  | nil => rfl
  | cons u us ih =>
    obtain ⟨hfar, hrest⟩ := Beyond.step (n := us.length) h (by rw [List.length_cons] at hlen; omega)
    rw [Cpu.pushAll, List.foldl_cons, ← Cpu.pushAll, ih (by rwa [push_esp]) (Nat.le_of_succ_le hlen),
      push_mem_of_far hfar]

/-- The stack pointer goes down, or stays. -/
def descends : Instr → Bool
  | .pop _ => false
  | .add _ r => r ≠ .esp
  | .xor _ r => r ≠ .esp
  | _ => true

def pushes : Instr → ℕ
  | .push _ => 1
  | .pushImm _ => 1
  | _ => 0

theorem exec_descends {i : Instr} (hd : descends i = true) :
    (pushes i = 1 ∧ (exec c i).reg .esp = c.reg .esp - 4 ∧
      ∀ x, 4 ≤ (x - (c.reg .esp - 4)).toNat → (exec c i).mem x = c.mem x) ∨
    (pushes i = 0 ∧ (exec c i).reg .esp = c.reg .esp ∧ (exec c i).mem = c.mem) := by
  cases i with
  | push r => exact .inl ⟨rfl, push_esp, fun _ ↦ push_mem_of_far⟩
  | pushImm v => exact .inl ⟨rfl, push_esp, fun _ ↦ push_mem_of_far⟩
  | pop r => contradiction
  | add v r => exact .inr ⟨rfl, set_of_ne (Ne.symm (of_decide_eq_true hd)), rfl⟩
  | xor r t => exact .inr ⟨rfl, set_of_ne (Ne.symm (of_decide_eq_true hd)), rfl⟩
  | movSegAx r => exact .inr ⟨rfl, set_of_ne (by decide), rfl⟩
  | movImmAx v => exact .inr ⟨rfl, set_of_ne (by decide), rfl⟩
  | movAxSeg r => exact .inr ⟨rfl, rfl, rfl⟩
  | cli => exact .inr ⟨rfl, rfl, rfl⟩

/-- Such code writes only to the words that it pushes. -/
theorem run_mem_of_far (hd : ∀ i ∈ code, descends i = true)
    (h : Beyond x (c.reg .esp) (code.map pushes).sum) (hlen : (code.map pushes).sum ≤ 1000) :
    (run code c).mem x = c.mem x := by
  induction code generalizing c with
  | nil => rfl
  | cons i code ih =>
    rw [List.forall_mem_cons] at hd
    rw [List.map_cons, List.sum_cons] at h hlen
    rw [run_cons]
    rcases exec_descends (c := c) hd.1 with ⟨hone, hesp, hmem⟩ | ⟨hzero, hesp, hmem⟩
    · rw [hone, Nat.add_comm] at h hlen
      obtain ⟨hfar, hrest⟩ := h.step (by omega)
      rw [ih hd.2 (by rwa [hesp]) (by omega), hmem x hfar]
    · rw [hzero, Nat.zero_add] at h hlen
      rw [ih hd.2 (by rwa [hesp]) hlen, hmem]

end Frame

end KevOS.Lib.Rings
