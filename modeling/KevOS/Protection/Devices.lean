import KevOS.Protection.SystemCalls
import KevOS.Interrupts.Remap

namespace KevOS.Protection

open Lib.ByteMemory Lib.Privilege Lib.FlatStack Lib.Ia32 Lib.Rings Machine Function
open Interrupts
open Interrupts.Stubs (Vector Interrupted)
open Interrupts.Remap (lines)
open Lib.Pic8259 (Pair)

/-- `irq_routines`, with the null pointer where nothing has been installed. -/
abbrev Routines (α : Type) := ℕ → Option α

/-- The table has an entry for each of the 16 lines, and no other may be passed. -/
def irqInstallHandler {α : Type} (irq : Fin 16) (handler : α) (routines : Routines α) : Routines α :=
  update routines irq (some handler)

/-- The table after the calls `installs`, the first of them first. -/
def installAll {α : Type} (installs : List (Fin 16 × α)) : Routines α :=
  installs.foldl (fun routines i ↦ irqInstallHandler i.1 i.2 routines) fun _ ↦ none

/-- The routine that `irq_handler` calls for the frame `r`. -/
def routineFor {α : Type} (routines : Routines α) (intNo : UInt32) : Option α :=
  routines (sub32 intNo.toNat 32)

variable {L : Layout} {labels : Labels} {s : System} {p : Processor} {v : Vector} {stack n : ℕ}
  {code : UInt32} {α : Type} {mask1 mask2 : UInt8} {chips : Pair}

/-- The last routine that was installed for the line. -/
theorem installAll_apply (installs : List (Fin 16 × α)) (irq : Fin 16) :
    installAll installs irq = ((installs.filter fun i ↦ i.1 = irq).getLast?).map Prod.snd := by
  have hfold (routines : Routines α) :
      (installs.foldl (fun routines i ↦ irqInstallHandler i.1 i.2 routines) routines) irq =
      (((installs.filter fun i ↦ i.1 = irq).getLast?).map Prod.snd).or (routines irq) := by
    induction installs generalizing routines with
    | nil => rfl
    | cons i installs ih =>
      rw [List.foldl_cons, ih, List.filter_cons]
      by_cases hi : i.1 = irq
      · rw [if_pos (decide_eq_true hi), List.getLast?_cons, irqInstallHandler, hi, update_self]
        cases (installs.filter fun i ↦ i.1 = irq).getLast? <;> rfl
      · rw [if_neg (by simp [hi]), irqInstallHandler, update_of_ne fun heq ↦ hi (Fin.ext heq.symm)]
  rw [installAll, hfold]
  exact Option.or_none

/-- What is saved of the interrupted code, whichever ring it was in. -/
def interruptedIn (p : Processor) : Interrupted :=
  ⟨p.eip, widen p.cs, p.eflags, if p.cpl = 0 then none else some (p.cpu.reg .esp, widen p.ss)⟩

/-- The way to a stub, from either ring. -/
theorem interrupt_stub (hcpl : p.cpl = 0 ∨ p.cpl = 3)
    (hd : deliver s (linear p.cpu.mem) p.cpl false n =
      .ok ⟨0x08, labels.entry v, 0, if p.cpl = 0 then none else some (0x10, stack), true⟩) :
    ∃ q, interrupt s false n (if v.hasErrCode then some code else none) p = .ok q ∧
      q.eip = UInt32.ofNat (labels.entry v) ∧ q.cpl = 0 ∧
      q.cpu = Stubs.deliver v (UInt32.ofNat stack) (interruptedIn p) code p.cpu := by
  have hcode (c : Cpu) : (if v.hasErrCode = true then some code else none).elim c c.push =
      if v.hasErrCode = true then c.push code else c := by
    cases v.hasErrCode <;> rfl
  unfold interrupt Stubs.deliver
  simp only [hd, hcode]
  rcases hcpl with hcpl | hcpl
  · have hwords : p.saved none = (interruptedIn p).words := by
      simp [Processor.saved, interruptedIn, Interrupted.words, hcpl]
    have htop : (interruptedIn p).stackTop (UInt32.ofNat stack) p.cpu = p.cpu.reg .esp := by
      simp [Interrupted.stackTop, interruptedIn, hcpl]
    have hset : ({ p.cpu with interruptFlag := false } : Cpu).set .esp (p.cpu.reg .esp) =
        { p.cpu with interruptFlag := false } := by
      simp [Cpu.set]
    simp [hcpl, hwords, htop, hset]
  · have hwords : p.saved (some (0x10, stack)) = (interruptedIn p).words := by
      simp [Processor.saved, interruptedIn, Interrupted.words, hcpl]
    have htop : (interruptedIn p).stackTop (UInt32.ofNat stack) p.cpu = UInt32.ofNat stack := by
      simp [Interrupted.stackTop, interruptedIn, hcpl]
    simp [hcpl, hwords, htop]

/-- The frame that the stub of a device passes to `irq_handler`. -/
theorem stub_registersAt (irq : Fin 16) (esp0 : UInt32) (f : Interrupted) (c : Cpu) :
    let called := run (Vector.irq irq).stub.before (Stubs.deliver (.irq irq) esp0 f 0 c)
    let regs := Stubs.registersAt called.mem (read called.mem (called.reg .esp))
    regs.intNo = UInt32.ofNat (32 + irq) ∧ regs.eip = f.eip ∧ regs.cs = f.cs ∧ regs.eflags = f.eflags := by
  intro called regs
  obtain ⟨ds, esp, -, -, hstack⟩ := stub_frame (.irq irq) esp0 f 0 c
  obtain ⟨hptr, hframe⟩ := hstack
  have hread : read called.mem (called.reg .esp) = called.reg .esp + 4 := hptr
  rw [← hread] at hframe
  obtain ⟨⟨-, -, -, -, -, -, -, -, -, hint, -⟩, hwords⟩ :=
    (Frames.stacked_registersAt (r := ⟨ds, c.reg .edi, c.reg .esi, c.reg .ebp, esp, c.reg .ebx, c.reg .edx,
      c.reg .ecx, c.reg .eax, (Vector.irq irq).number, 0, f.eip, f.cs, f.eflags, 0, 0⟩)).mp hframe
  obtain ⟨heip, hcs, heflags, -⟩ := Frames.stacked_words.mp hwords
  exact ⟨hint, heip, hcs, heflags⟩

/-- Whatever the processor is doing, the interrupt that the controllers have for it gets to the stub of its
line, in ring 0 and with interrupts disabled, and `irq_handler` finds in the frame what has been interrupted.
It calls the routine that was installed last for the line. -/
theorem irq_reaches_handler (hL : L.Valid) (hl : labels.Valid) (hr : Run L labels stack s (linear p.cpu.mem))
    (hcpl : p.cpl = 0 ∨ p.cpl = 3) (hc : Remap.Run mask1 mask2 chips) (installs : List (Fin 16 × α)) :
    ∃ (irq : Fin 16) (spurious : Bool) (chips' : Pair) (q : Processor),
      chips.acknowledge = some (32 + irq.val, chips') ∧ lines chips' = accept irq spurious (lines chips) ∧
      interrupt s false (32 + irq.val) none p = .ok q ∧ q.eip = UInt32.ofNat (labels.irq irq) ∧ q.cpl = 0 ∧
      q.cpu.interruptFlag = false ∧
      let called := run (Vector.irq irq).stub.before q.cpu
      let regs := Stubs.registersAt called.mem (read called.mem (called.reg .esp))
      regs.eip = p.eip ∧ regs.cs = widen p.cs ∧ regs.eflags = p.eflags ∧
      routineFor (installAll installs) regs.intNo =
        ((installs.filter fun i ↦ i.1 = irq).getLast?).map Prod.snd := by
  have h := (hr.installed hL hl).2
  obtain ⟨irq, spurious, chips', hack, -, hlines, -⟩ := (Remap.run_inv hc).acknowledge
  have hvector : vectorOf (32 + irq.val) = some (.irq irq) := by
    have h32 : ¬ 32 + irq.val < 32 := by omega
    have h48 : 32 + irq.val - 32 < 16 := by omega
    rw [vectorOf, dif_neg h32, dif_pos h48]
    exact congrArg (fun num ↦ some (Vector.irq num)) (Fin.ext (Nat.add_sub_cancel_left 32 irq.val))
  obtain ⟨q, hq, heip, hring, hcpu⟩ := @interrupt_stub _ s p (.irq irq) stack (32 + irq.val) 0 hcpl
    (deliver_stub h hl hcpl (by omega) hvector)
  obtain ⟨hint, hframe⟩ := stub_registersAt irq (UInt32.ofNat stack) (interruptedIn p) p.cpu
  refine ⟨irq, spurious, chips', q, hack, hlines, hq, heip, hring, ?_, ?_⟩
  · rw [hcpu]
    exact Frames.pushAll_interruptFlag
  · rw [hcpu]
    refine ⟨hframe.1, hframe.2.1, hframe.2.2, ?_⟩
    have hnumber : (UInt32.ofNat (32 + irq.val)).toNat = 32 + irq.val :=
      Nat.mod_eq_of_lt (show 32 + irq.val < 4294967296 by omega)
    rw [hint, routineFor, hnumber, sub32_of_le (Nat.le_add_right 32 irq.val) (by omega),
      Nat.add_sub_cancel_left, installAll_apply]

theorem irq_reaches_handler_kernel : ∃ (s : System) (m : Mem) (chips : Pair) (irq : Fin 16) (q : Processor),
    interrupt s false (32 + irq.val) none (kernelProcessor m) = .ok q ∧ q.cpl = 0 ∧
      ∃ chips', chips.acknowledge = some (32 + irq.val, chips') := by
  obtain ⟨s, m, hr⟩ := exists_run_linear (show 0x200000 < 4294967296 by decide)
  have hrun := Remap.run_remappedPair
  obtain ⟨irq, spurious, chips', q, hack, -, hq, -, hcpl, -⟩ := irq_reaches_handler (p := kernelProcessor m)
    kernelLayout_valid kernelLabels_valid hr (.inl rfl) hrun [(0, 0), (1, 1)]
  exact ⟨s, m, Remap.remappedPair, irq, q, hq, hcpl, chips', hack⟩

end KevOS.Protection
