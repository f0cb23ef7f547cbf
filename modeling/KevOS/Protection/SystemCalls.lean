import KevOS.Protection.Usermode
import KevOS.Syscall.Model

namespace KevOS.Protection

open Lib.ByteMemory Lib.Privilege Lib.FlatStack Lib.Ia32 Lib.Rings Lib.Program Function
open Interrupts
open Interrupts.Stubs (Vector Interrupted commonStub)
open Syscall (syscallHandler)
open Libc (Console)

variable {L : Layout} {labels : Labels} {s : System} {p q : Processor} {c c' : Cpu} {v : Vector}
  {stack n : ℕ} {esp0 code : UInt32} {f : Interrupted} {software : Bool}

/-- What the processor saves of code in ring 3. -/
def interrupted (p : Processor) : Interrupted :=
  ⟨p.eip, widen p.cs, p.eflags, some (p.cpu.reg .esp, widen p.ss)⟩

/-- A frame on the stack, in the order of `struct registers`. -/
def frameWords (r : Syscall.Registers) : List UInt32 :=
  [r.ds, r.edi, r.esi, r.ebp, r.esp, r.ebx, r.edx, r.ecx, r.eax, r.intNo, r.errCode, r.eip, r.cs, r.eflags,
    r.useresp, r.ss]

section Entering

/-- The way through a gate that the stubs are written for is the one that the tables describe. -/
theorem interrupt_eq (hcpl : p.cpl = 3)
    (hd : deliver s (linear p.cpu.mem) 3 software n = .ok ⟨0x08, labels.entry v, 0, some (0x10, stack), true⟩) :
    interrupt s software n (if v.hasErrCode then some code else none) p =
      .ok { p with
        cpu := Stubs.deliver v (UInt32.ofNat stack) (interrupted p) code p.cpu
        eip := UInt32.ofNat (labels.entry v)
        cs := 0x08
        ss := 0x10
        cpl := 0 } := by
  have hwords : p.saved (some (0x10, stack)) = (interrupted p).words := rfl
  have htop : (interrupted p).stackTop (UInt32.ofNat stack) p.cpu = UInt32.ofNat stack := rfl
  unfold interrupt Stubs.deliver
  rw [hcpl]
  simp only [hd, if_true, Option.elim_some, hwords, htop]
  cases v.hasErrCode
  · simp
  · simp

/-- The frame that the C function is called with. -/
theorem stub_frame (v : Vector) (esp0 : UInt32) (f : Interrupted) (code : UInt32) (c : Cpu) :
    ∃ ds esp, low ds = c.seg .ds ∧
      let called := run v.stub.before (Stubs.deliver v esp0 f code c)
      called.reg .esp = f.stackTop esp0 c - 4 * UInt32.ofNat f.words.length - 48 ∧
      called.Stack ((called.reg .esp + 4) :: ds :: c.reg .edi :: c.reg .esi :: c.reg .ebp :: esp ::
        c.reg .ebx :: c.reg .edx :: c.reg .ecx :: c.reg .eax :: v.number ::
        (if v.hasErrCode then code else 0) :: f.words) := by
  obtain ⟨clear, callee, hclear, hbefore, -⟩ := Frames.run_stub v esp0 f code c
  have hlen := Frames.words_length (f := f)
  have hprepared : (Frames.prepared v esp0 f code c).Stack _ := Frames.prepared_stack
  obtain ⟨ds, esp, hds, hesp, hstack⟩ := Frames.run_before callee hprepared
    (show f.words.length + 2 ≤ 7 by omega) hclear
  rw [Frames.prepared_reg (by decide), Frames.prepared_reg (by decide), Frames.prepared_reg (by decide),
    Frames.prepared_reg (by decide), Frames.prepared_reg (by decide), Frames.prepared_reg (by decide),
    Frames.prepared_reg (by decide)] at hstack
  rw [Frames.prepared_seg] at hds
  rw [Frames.prepared_esp] at hesp
  refine ⟨ds, esp, hds, ?_⟩
  rw [hbefore]
  refine ⟨?_, hstack⟩
  rw [hesp]
  grind

theorem commonStub_descends {clear : List Instr} (callee : Stubs.Callee)
    (hclear : clear = [] ∨ clear = [.xor .eax .eax]) :
    (∀ i ∈ (commonStub clear callee).before, descends i = true) ∧
      ((commonStub clear callee).before.map pushes).sum = 10 := by
  rcases hclear with rfl | rfl
  · exact ⟨by simp [commonStub, Stubs.pushRegisters, Stubs.loadSegments, descends], rfl⟩
  · exact ⟨by simp [commonStub, Stubs.pushRegisters, Stubs.loadSegments, descends], rfl⟩

/-- Below the top of its stack a stub writes 17 words when it interrupts ring 3. -/
theorem stub_mem {x : UInt32} (h : Beyond x (f.stackTop esp0 c) 17) (hf : f.words.length = 5) :
    (run v.stub.before (Stubs.deliver v esp0 f code c)).mem x = c.mem x := by
  obtain ⟨clear, callee, hclear, hbefore, -⟩ := Frames.run_stub v esp0 f code c
  obtain ⟨hdesc, hcount⟩ := commonStub_descends callee hclear
  obtain ⟨hseven, hten⟩ := h.split (n := 7) (k := 10) (by decide)
  have hesp : (Frames.prepared v esp0 f code c).reg .esp = f.stackTop esp0 c - 4 * UInt32.ofNat 7 := by
    rw [Frames.prepared_esp, hf]
    grind
  have hpushed : (Frames.prepared v esp0 f code c).mem x = c.mem x := by
    refine pushAll_mem_of_far ?_ ?_
    · rw [set_self, List.length_append, List.length_reverse, hf]
      exact hseven
    · rw [List.length_append, List.length_reverse, hf]
      exact (show 5 + 2 ≤ 1000 by decide)
  rw [hbefore, run_mem_of_far hdesc ?_ (by omega), hpushed]
  rw [hcount, hesp]
  exact hten

end Entering

section Leaving

/-- The registers that a program in ring 3 gets back. -/
def userRegisters (r : Syscall.Registers) : Reg → UInt32
  | .eax => r.eax
  | .ecx => r.ecx
  | .edx => r.edx
  | .ebx => r.ebx
  | .esp => r.useresp
  | .ebp => r.ebp
  | .esi => r.esi
  | .edi => r.edi

/-- A stub with the frame `r` on its stack goes back to ring 3 with the registers that are in `r`. -/
theorem interruptReturn_stub {r : Syscall.Registers} {w : UInt32} (clear : List Instr) (callee : Stubs.Callee)
    (h : Installed L labels stack s (linear c.mem)) (hs : c.Stack (w :: frameWords r)) (hcpl : q.cpl = 0)
    (hcs : r.cs = widen 0x1B) (hss : r.ss = widen 0x23) (hds : low r.ds = 0x23) :
    interruptReturn s { q with cpu := run (commonStub clear callee).after c } =
      .ok ⟨⟨userRegisters r, fun _ ↦ 0x23, interruptBit r.eflags, c.mem⟩, r.eip, 0x1B, 0x23, 3, r.eflags⟩ := by
  obtain ⟨hmem, hesp, hseg, hedi, hesi, hebp, hebx, hedx, hecx, heax⟩ := Frames.run_after clear callee hs
  have hstack : (run (commonStub clear callee).after c).Stack [r.eip, widen 0x1B, r.eflags, r.useresp,
      widen 0x23] := by
    have hrest := hs.2.2.2.2.2.2.2.2.2.2.2.2
    simp only [UInt32.add_assoc] at hrest
    rw [Cpu.Stack, hmem, hesp, ← hcs, ← hss]
    exact hrest
  have hseg' : ∀ t, (run (commonStub clear callee).after c).seg t = 0x23 := fun t ↦ (hseg t).trans hds
  have htables : Installed L labels stack s (linear (run (commonStub clear callee).after c).mem) := by
    rw [hmem]
    exact h
  generalize run (commonStub clear callee).after c = d at *
  have hcpu : { d.set .esp r.useresp with interruptFlag := interruptBit r.eflags } =
      (⟨userRegisters r, fun _ ↦ 0x23, interruptBit r.eflags, c.mem⟩ : Cpu) := by
    rw [Cpu.mk.injEq]
    refine ⟨?_, funext hseg', rfl, hmem⟩
    funext t
    cases t <;> simp [Cpu.set, userRegisters, *]
  have huser := interruptReturn_user (q := { q with cpu := d }) htables hcpl hstack hseg'
  rw [huser]
  exact congrArg (fun cpu ↦ Except.ok (⟨cpu, r.eip, 0x1B, 0x23, 3, r.eflags⟩ : Processor)) hcpu

variable {σ : Type} [Console σ] {ticks : UInt32} {regs regs' : Syscall.Registers} {t t' : σ}

/-- The one call that there is returns 0 in `eax`, where its number was. -/
theorem syscallHandler_registers (h : (syscallHandler ticks regs).run t = .ok regs' t') : regs' = regs := by
  by_cases hzero : regs.eax = 0
  · have heq : regs.eax.toNat = 0 := by rw [hzero]; rfl
    have hless : ¬ (Syscall.syscalls : List (ℕ → Prog σ Unit)).length ≤ regs.eax.toNat := by
      rw [heq]
      exact (show ¬ 1 ≤ 0 by decide)
    rw [syscallHandler, if_neg hless, heq] at h
    obtain ⟨_, _, -, hpure⟩ := bind_eq_ok.mp h
    cases hpure
    rw [← hzero]
  · have hmore : (Syscall.syscalls : List (ℕ → Prog σ Unit)).length ≤ regs.eax.toNat := by
      refine Nat.one_le_iff_ne_zero.mpr fun hnat ↦ hzero (UInt32.toNat_inj.mp hnat)
    rw [syscallHandler, if_pos hmore] at h
    cases h
    rfl

end Leaving

/-- The C function is done with the frame `regs'`, and has left the tables alone. -/
structure Served (L : Layout) (regs' : Syscall.Registers) (called returned : Cpu) : Prop where
  esp : returned.reg .esp = called.reg .esp
  frame : ∃ w, returned.Stack (w :: frameWords regs')
  tables : ∀ a, L.InTables a → returned.mem (UInt32.ofNat a) = called.mem (UInt32.ofNat a)

/-- The frame of a system call. Of two fields only the program's data segment is known. -/
def syscallFrame (p : Processor) (ds esp : UInt32) : Syscall.Registers :=
  ⟨ds, p.cpu.reg .edi, p.cpu.reg .esi, p.cpu.reg .ebp, esp, p.cpu.reg .ebx, p.cpu.reg .edx, p.cpu.reg .ecx,
    p.cpu.reg .eax, 128, 0, p.eip, widen p.cs, p.eflags, p.cpu.reg .esp, widen p.ss⟩

theorem syscallFrame_resumes (h : Installed L labels stack s (linear c.mem)) (hu : InUserMode p)
    {ds esp w : UInt32} (hds : low ds = 0x23) (hs : c.Stack (w :: frameWords (syscallFrame p ds esp)))
    (hcpl : q.cpl = 0) : interruptReturn s { q with cpu := run Stubs.isr128.after c } =
      .ok { p with cpu := { p.cpu with mem := c.mem } } := by
  have hback := interruptReturn_stub (q := q) [] .syscallHandler h hs hcpl (congrArg widen hu.cs)
    (congrArg widen hu.ss) hds
  have huser : (⟨⟨userRegisters (syscallFrame p ds esp), fun _ ↦ 0x23, interruptBit p.eflags, c.mem⟩, p.eip,
      0x1B, 0x23, 3, p.eflags⟩ : Processor) = { p with cpu := { p.cpu with mem := c.mem } } := by
    have hreg : userRegisters (syscallFrame p ds esp) = p.cpu.reg := by
      funext r
      cases r <;> rfl
    have hbit : interruptBit p.eflags = p.cpu.interruptFlag := interruptBit_withInterruptBit
    obtain ⟨⟨reg, seg, flag, mem⟩, eip, cs, ss, cpl, flags⟩ := p
    obtain ⟨rfl, rfl, rfl, hseg, hflags⟩ := hu
    rw [hreg, hbit, ← hflags, ← funext hseg]
  exact hback.trans (congrArg Except.ok huser)

/-- A system call of a program in ring 3 gets to `syscall_handler` in ring 0, with interrupts disabled and
the registers of the program in the frame. Whatever number it had, it goes back with every register, segment
and flag as it was: only memory may have changed. -/
theorem run_syscall (hL : L.Valid) (hl : labels.Valid) (hr : Run L labels stack s (linear p.cpu.mem))
    (hu : InUserMode p) (hclear : L.Clear (UInt32.ofNat stack) 17) :
    ∃ q regs, interrupt s true 128 none p = .ok q ∧ q.eip = UInt32.ofNat labels.isr128 ∧ q.cpl = 0 ∧
      q.cpu.interruptFlag = false ∧
      let called := run Stubs.isr128.before q.cpu
      called.Stack ((called.reg .esp + 4) :: frameWords regs) ∧
      userRegisters regs = p.cpu.reg ∧ regs.intNo = 128 ∧
      ∀ {σ : Type} [Console σ] (ticks : UInt32) (t t' : σ) (regs' : Syscall.Registers) (returned : Cpu),
        (syscallHandler ticks regs).run t = .ok regs' t' → Served L regs' called returned →
        interruptReturn s { q with cpu := run Stubs.isr128.after returned } =
          .ok { p with cpu := { p.cpu with mem := returned.mem } } := by
  have h := (hr.installed hL hl).2
  have hd : deliver s (linear p.cpu.mem) 3 true 128 =
      .ok ⟨0x08, labels.entry .syscall, 0, some (0x10, stack), true⟩ := deliver_syscall h hl
  have hinterrupt := @interrupt_eq labels s p .syscall stack 128 0 true hu.cpl hd
  obtain ⟨ds, esp, hds, -, hstack⟩ := stub_frame .syscall (UInt32.ofNat stack) (interrupted p) 0 p.cpu
  have hmem : ∀ a, L.InTables a → (run Stubs.isr128.before (Stubs.deliver .syscall (UInt32.ofNat stack)
      (interrupted p) 0 p.cpu)).mem (UInt32.ofNat a) = p.cpu.mem (UInt32.ofNat a) :=
    fun a ha ↦ stub_mem (v := .syscall) (hclear a ha) rfl
  have hflag : (Stubs.deliver .syscall (UInt32.ofNat stack) (interrupted p) 0 p.cpu).interruptFlag = false :=
    Frames.pushAll_interruptFlag
  generalize Stubs.deliver .syscall (UInt32.ofNat stack) (interrupted p) 0 p.cpu = c at *
  refine ⟨_, syscallFrame p ds esp, hinterrupt, rfl, rfl, hflag, hstack, ?_, rfl, ?_⟩
  · funext r
    cases r <;> rfl
  · intro σ _ ticks t t' regs' returned hcall hserved
    obtain ⟨w, hframe⟩ := hserved.frame
    rw [syscallHandler_registers hcall] at hframe
    have htables : Installed L labels stack s (linear returned.mem) :=
      h.of_mem fun a ha ↦ (hserved.tables a ha).trans (hmem a ha)
    exact syscallFrame_resumes htables hu (hds.trans (hu.seg .ds)) hframe rfl

/-- A program that prints a null pointer, with the memory `m`. -/
def userProcessor (m : Mem) : Processor where
  cpu := ⟨fun r ↦ if r = .esp then 0x300000 else 0, fun _ ↦ 0x23, true, m⟩
  eip := 0x401000
  cs := 0x1B
  ss := 0x23
  cpl := 3
  flags := 0x202

theorem printf_null (v : Vmm.Vm) (heax : regs.eax = 0) (hebx : regs.ebx = 0) :
    (syscallHandler ticks regs).run (Syscall.session v) = .ok regs ⟨v, [], Libc.nullText⟩ := by
  obtain ⟨ds, edi, esi, ebp, esp, ebx, edx, ecx, eax, intNo, errCode, eip, cs, eflags, useresp, ss⟩ := regs
  cases heax
  cases hebx
  rfl

/-- The program is back in ring 3 once "(null)" is on the terminal. -/
theorem run_syscall_user : ∃ s m, Run kernelLayout kernelLabels 0x200000 s (linear m) ∧
    ∃ q regs called, interrupt s true 128 none (userProcessor m) = .ok q ∧ q.eip = 0x101300 ∧ q.cpl = 0 ∧
      (syscallHandler 0 regs).run (Syscall.session ⟨linear called.mem, 0⟩) =
        .ok regs ⟨⟨linear called.mem, 0⟩, [], Libc.nullText⟩ ∧
      interruptReturn s { q with cpu := run Stubs.isr128.after called } =
        .ok { userProcessor m with cpu := { (userProcessor m).cpu with mem := called.mem } } := by
  obtain ⟨s, m, hr⟩ := exists_run_linear (show 0x200000 < 4294967296 by decide)
  have hflags : (0x202 : UInt32) = withInterruptBit 0x202 true := by decide
  have huser : InUserMode (userProcessor m) := ⟨rfl, rfl, rfl, fun _ ↦ rfl, hflags⟩
  obtain ⟨q, regs, hq, heip, hcpl, -, hstack, hregs, -, hback⟩ := run_syscall kernelLayout_valid kernelLabels_valid hr
    huser (kernelLayout_clear (by decide))
  have hprint := @printf_null 0 regs ⟨linear (run Stubs.isr128.before q.cpu).mem, 0⟩ (congrFun hregs .eax)
    (congrFun hregs .ebx)
  have hserved : Served kernelLayout regs (run Stubs.isr128.before q.cpu) (run Stubs.isr128.before q.cpu) :=
    ⟨rfl, ⟨_, hstack⟩, fun _ _ ↦ rfl⟩
  exact ⟨s, m, hr, q, regs, _, hq, heip, hcpl, hprint, hback 0 _ _ regs _ hprint hserved⟩

end KevOS.Protection
