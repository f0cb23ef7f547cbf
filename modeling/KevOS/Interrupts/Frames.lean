import KevOS.Interrupts.Stubs

namespace KevOS.Interrupts.Frames

open Lib.FlatStack Lib.Ia32 Stubs Function

variable {c c' : Cpu} {m : Mem} {p w esp0 code : UInt32} {vs : List UInt32} {r s : Reg}
  {v : Vector} {f : Interrupted} {clear : List Instr}

section Saving

theorem stack_set (h : r ≠ .esp) (hs : c.Stack vs) : (c.set r w).Stack vs := by
  rw [Cpu.Stack, set_of_ne h.symm]
  exact hs

theorem run_pushRegisters : ∃ w, run pushRegisters c =
    c.pushAll [c.reg .eax, c.reg .ecx, c.reg .edx, c.reg .ebx, w, c.reg .ebp, c.reg .esi, c.reg .edi] := by
  refine ⟨c.reg .esp - 4 - 4 - 4 - 4, ?_⟩
  simp [pushRegisters, exec, Cpu.pushAll, push_of_ne]

/-- The upper half of `eax` does not matter. -/
theorem run_clear (h : clear = [] ∨ clear = [.xor .eax .eax]) (c : Cpu) :
    ∃ w, low w = c.seg .ds ∧ run (clear ++ [.movSegAx .ds]) c = c.set .eax w := by
  rcases h with rfl | rfl
  · exact ⟨_, low_setLow _, rfl⟩
  · refine ⟨setLow (c.reg .eax ^^^ c.reg .eax) (c.seg .ds), low_setLow _, ?_⟩
    simp [exec, Cpu.set]

theorem run_loadSegments (c : Cpu) :
    run loadSegments c = { c with seg := fun _ ↦ low (c.reg .eax) } := by
  simp only [loadSegments, run_cons, run_nil, exec]
  congr 1
  funext s
  cases s <;> simp [update]

theorem stack_kernelSegments {x : UInt16} :
    (run loadSegments (exec c (.movImmAx x))).reg .esp = c.reg .esp ∧
      ((run loadSegments (exec c (.movImmAx x))).Stack vs ↔ c.Stack vs) := by
  have hset : exec c (.movImmAx x) = c.set .eax (setLow (c.reg .eax) x) := rfl
  have hesp : (c.set .eax (setLow (c.reg .eax) x)).reg .esp = c.reg .esp := set_of_ne (by decide)
  rw [hset, run_loadSegments, Cpu.Stack]
  dsimp only
  rw [hesp]
  exact ⟨rfl, Iff.rfl⟩

/-- On top of what is on the stack comes the frame, and the pointer to it. -/
theorem run_before (callee : Callee) (hs : c.Stack vs) (hlen : vs.length ≤ 7)
    (hclear : clear = [] ∨ clear = [.xor .eax .eax]) :
    ∃ ds esp, low ds = c.seg .ds ∧
      let c' := run (commonStub clear callee).before c
      c'.reg .esp = c.reg .esp - 40 ∧
      c'.Stack ((c'.reg .esp + 4) :: ds :: c.reg .edi :: c.reg .esi :: c.reg .ebp :: esp ::
        c.reg .ebx :: c.reg .edx :: c.reg .ecx :: c.reg .eax :: vs) := by
  obtain ⟨esp, hpush⟩ := run_pushRegisters (c := c)
  set us := [c.reg .eax, c.reg .ecx, c.reg .edx, c.reg .ebx, esp, c.reg .ebp, c.reg .esi, c.reg .edi]
  obtain ⟨ds, hds, hrun⟩ := run_clear hclear (c.pushAll us)
  have hstack : (c.pushAll us).Stack (us.reverse ++ vs) :=
    hs.pushAll (show 4 * (8 + vs.length) ≤ 4294967296 by omega)
  have hcount : (4 * UInt32.ofNat us.length : UInt32) = 32 := by
    rw [show us.length = 8 from rfl]
    decide
  have hesp : (c.pushAll us).reg .esp = c.reg .esp - 32 := by rw [pushAll_esp, hcount]
  -- The frame is complete once `eax` has been pushed.
  set d := ((c.pushAll us).set .eax ds).push ds with hd
  have hdstack : d.Stack (ds :: (us.reverse ++ vs)) :=
    (stack_set (by decide) hstack).push (by
      rw [List.length_append, List.length_reverse]
      exact (show 4 * (8 + vs.length + 1) ≤ 4294967296 by omega))
  have hdesp : d.reg .esp = c.reg .esp - 36 := by
    rw [hd, push_esp, set_of_ne (by decide), hesp]
    grind
  set e := run loadSegments (exec d (.movImmAx 0x10)) with he
  obtain ⟨heesp, hestack⟩ : e.reg .esp = d.reg .esp ∧ (e.Stack _ ↔ d.Stack _) :=
    stack_kernelSegments
  have heax : exec ((c.pushAll us).set .eax ds) (.push .eax) = d := by rw [exec, set_self]
  have hbefore : run (commonStub clear callee).before c = e.push (e.reg .esp) := by
    have hcode : (commonStub clear callee).before = pushRegisters ++ ((clear ++ [.movSegAx .ds]) ++
        ([.push .eax, .movImmAx 0x10] ++ (loadSegments ++ [.push .esp]))) := by
      simp [commonStub]
    rw [hcode, run_append, run_append, hpush, hrun, run_append, run_append]
    simp only [run_cons, run_nil]
    rw [heax, ← he, exec]
  refine ⟨ds, esp, hds.trans (congrFun pushAll_seg .ds), ?_⟩
  dsimp only
  have hback : e.reg .esp - 4 + 4 = e.reg .esp := UInt32.sub_add_cancel _ _
  rw [hbefore, push_esp, hback]
  refine ⟨?_, ?_⟩
  · rw [heesp, hdesp]
    grind
  · exact (hestack.mpr hdstack).push (by
      rw [List.length_cons, List.length_append, List.length_reverse]
      exact (show 4 * (8 + vs.length + 1 + 1) ≤ 4294967296 by omega))

end Saving

section Restoring

variable {ds edi esi ebp esp ebx edx ecx eax intNo errCode : UInt32}

/-- The registers are loaded from the frame, up to the saved stack pointer. -/
theorem run_after (clear : List Instr) (callee : Callee) (hs : c.Stack (p :: ds :: edi :: esi :: ebp :: esp :: ebx :: edx :: ecx :: eax ::
      intNo :: errCode :: vs)) :
    let c' := run (commonStub clear callee).after c
    c'.mem = c.mem ∧ c'.reg .esp = c.reg .esp + 48 ∧ (∀ s, c'.seg s = low ds) ∧
      c'.reg .edi = edi ∧ c'.reg .esi = esi ∧ c'.reg .ebp = ebp ∧ c'.reg .ebx = ebx ∧
      c'.reg .edx = edx ∧ c'.reg .ecx = ecx ∧ c'.reg .eax = eax := by
  obtain ⟨-, hds, hedi, hesi, hebp, -, hebx, hedx, hecx, heax, -, -, -⟩ := hs
  simp [commonStub, run_append, run_loadSegments, exec, Cpu.set, update, hds, hedi, hesi, hebp, hebx,
    hedx, hecx, heax]
  grind

end Restoring

section Fields

theorem stacked_registersAt {r : Registers} : Stacked m p (r.ds :: r.edi :: r.esi :: r.ebp :: r.esp ::
      r.ebx :: r.edx :: r.ecx :: r.eax :: r.intNo :: r.errCode :: vs) ↔
    ((registersAt m p).ds = r.ds ∧ (registersAt m p).edi = r.edi ∧ (registersAt m p).esi = r.esi ∧
      (registersAt m p).ebp = r.ebp ∧ (registersAt m p).esp = r.esp ∧ (registersAt m p).ebx = r.ebx ∧
      (registersAt m p).edx = r.edx ∧ (registersAt m p).ecx = r.ecx ∧ (registersAt m p).eax = r.eax ∧
      (registersAt m p).intNo = r.intNo ∧ (registersAt m p).errCode = r.errCode) ∧
    Stacked m (p + 44) vs := by
  simp [Stacked, registersAt, UInt32.add_assoc, and_assoc]

theorem stacked_words : Stacked m (p + 44) f.words ↔
    (registersAt m p).eip = f.eip ∧ (registersAt m p).cs = f.cs ∧ (registersAt m p).eflags = f.eflags ∧
      ∀ o ∈ f.outer, (registersAt m p).useresp = o.1 ∧ (registersAt m p).ss = o.2 := by
  obtain ⟨eip, cs, eflags, outer⟩ := f
  cases outer <;> simp [Interrupted.words, Stacked, registersAt, UInt32.add_assoc]

end Fields

section Entering

/-- Everything that is pushed below the registers, by the processor or by the stub. -/
def prepared (v : Vector) (esp0 : UInt32) (f : Interrupted) (code : UInt32) (c : Cpu) : Cpu :=
  ({ c with interruptFlag := false }.set .esp (f.stackTop esp0 c)).pushAll
    (f.words.reverse ++ [if v.hasErrCode then code else 0, v.number])

theorem pushAll_interruptFlag : (c.pushAll vs).interruptFlag = c.interruptFlag := by
  induction vs generalizing c with
  | nil => rfl
  | cons w vs ih => rw [Cpu.pushAll, List.foldl_cons, ← Cpu.pushAll, ih, Cpu.push, Cpu.set]

theorem pushAll_append {us : List UInt32} : c.pushAll (vs ++ us) = (c.pushAll vs).pushAll us :=
  List.foldl_append ..

theorem cli_of_disabled (h : c.interruptFlag = false) : exec c .cli = c := by
  rw [exec, ← h]

/-- With or without an error code, the stub has the same words on its stack. -/
theorem run_stub (v : Vector) (esp0 : UInt32) (f : Interrupted) (code : UInt32) (c : Cpu) :
    ∃ clear callee, (clear = [] ∨ clear = [.xor .eax .eax]) ∧
      run v.stub.before (deliver v esp0 f code c) =
        run (commonStub clear callee).before (prepared v esp0 f code c) ∧
      v.stub.after = (commonStub clear callee).after := by
  have hpushes (w n : UInt32) (c : Cpu) : run [.pushImm w, .pushImm n] c = c.pushAll [w, n] := rfl
  cases v with
  | isr num =>
    refine ⟨[.xor .eax .eax], .isrHandler, .inr rfl, ?_⟩
    rw [Vector.stub, deliver, prepared, pushAll_append]
    by_cases hcode : (Vector.isr num).hasErrCode = true
    · simp only [if_pos hcode]
      exact ⟨run_append, rfl⟩
    · simp only [if_neg hcode]
      exact ⟨run_append, rfl⟩
  | irq num =>
    refine ⟨[.xor .eax .eax], .irqHandler, .inr rfl, ?_⟩
    rw [prepared, pushAll_append]
    exact ⟨run_append, rfl⟩
  | syscall =>
    refine ⟨[], .syscallHandler, .inl rfl, ?_, rfl⟩
    rw [prepared, pushAll_append]
    have hoff : (deliver .syscall esp0 f code c).interruptFlag = false := pushAll_interruptFlag
    rw [Vector.stub, isr128, Stub.from, run_append, run_cons, cli_of_disabled hoff, hpushes]
    rfl

theorem words_length : f.words.length ≤ 5 := by
  obtain ⟨eip, cs, eflags, outer⟩ := f
  cases outer <;> simp [Interrupted.words]

theorem prepared_stack : (prepared v esp0 f code c).Stack
    (v.number :: (if v.hasErrCode then code else 0) :: f.words) := by
  have hlen := words_length (f := f)
  have hstack := Cpu.Stack.pushAll (c := { c with interruptFlag := false }.set .esp (f.stackTop esp0 c))
    (show Cpu.Stack _ [] from trivial)
    (show 4 * ((f.words.reverse ++ [if v.hasErrCode then code else 0, v.number]).length + 0) ≤ 4294967296 by
      simp
      omega)
  rw [prepared]
  simpa using hstack

theorem prepared_esp : (prepared v esp0 f code c).reg .esp =
    f.stackTop esp0 c - 4 * UInt32.ofNat f.words.length - 8 := by
  have hcount : UInt32.ofNat (f.words.length + 2) = UInt32.ofNat f.words.length + 2 :=
    UInt32.ofNat_add ..
  rw [prepared, pushAll_esp, set_self, List.length_append, List.length_reverse]
  change _ - 4 * UInt32.ofNat (f.words.length + 2) = _
  rw [hcount]
  grind

theorem prepared_reg (h : r ≠ .esp) : (prepared v esp0 f code c).reg r = c.reg r := by
  rw [prepared, pushAll_reg h, set_of_ne h]

theorem prepared_seg : (prepared v esp0 f code c).seg = c.seg := by
  rw [prepared, pushAll_seg, set_seg]

end Entering

/-- Each stub passes the C function the registers of the interrupted code, and returns to it with
those that the C function left in the frame. -/
theorem frames_faithful (v : Vector) (esp0 : UInt32) (f : Interrupted) (code : UInt32) (c : Cpu)
    (hseg : ∀ s, c.seg s = c.seg .ds) :
    let called := run v.stub.before (deliver v esp0 f code c)
    let p := read called.mem (called.reg .esp)
    Captured v f code c (registersAt called.mem p) ∧
      ∀ returned, Handled p called returned →
        Restored esp0 f c (registersAt returned.mem p) (run v.stub.after returned) := by
  obtain ⟨clear, callee, hclear, hbefore, hafter⟩ := run_stub v esp0 f code c
  have hlen := words_length (f := f)
  have hprepared : (prepared v esp0 f code c).Stack
      (v.number :: (if v.hasErrCode then code else 0) :: f.words) := prepared_stack
  obtain ⟨ds, esp, hds, hesp, hstack⟩ := run_before callee hprepared
    (show f.words.length + 2 ≤ 7 by omega) hclear
  rw [hbefore, hafter]
  set called := run (commonStub clear callee).before (prepared v esp0 f code c)
  obtain ⟨hp, hframe⟩ := hstack
  rw [← hp, prepared_reg (by decide), prepared_reg (by decide), prepared_reg (by decide),
    prepared_reg (by decide), prepared_reg (by decide), prepared_reg (by decide),
    prepared_reg (by decide)] at hframe
  dsimp only
  set p := read called.mem (called.reg .esp)
  -- Of the last two fields nothing is known without a change of the privilege level.
  obtain ⟨⟨hrds, hedi, hesi, hebp, -, hebx, hedx, hecx, heax, hint, herr⟩, hwords⟩ :=
    (stacked_registersAt (r := ⟨ds, c.reg .edi, c.reg .esi, c.reg .ebp, esp, c.reg .ebx, c.reg .edx,
      c.reg .ecx, c.reg .eax, v.number, if v.hasErrCode then code else 0, f.eip, f.cs, f.eflags, 0,
      0⟩)).mp hframe
  obtain ⟨heip, hcs, heflags, houter⟩ := stacked_words.mp hwords
  have hlow : low (registersAt called.mem p).ds = c.seg .ds := by
    rw [hrds, hds, prepared_seg]
  refine ⟨⟨hlow, hedi, hesi, hebp, hebx, hedx, hecx, heax, hint, herr, heip, hcs, heflags⟩,
    fun returned hret ↦ ?_⟩
  obtain ⟨edi, esi, ebp, esp, ebx, edx, ecx, eax, hkept⟩ := hret.frame
  have hretesp : returned.reg .esp = called.reg .esp := hret.saved .esp (by decide)
  have hwords' : Stacked returned.mem (p + 44) f.words := by
    rw [stacked_words, hkept]
    exact ⟨heip, hcs, heflags, houter⟩
  have hstack' : returned.Stack (read returned.mem (returned.reg .esp) ::
      (registersAt returned.mem p).ds :: (registersAt returned.mem p).edi ::
      (registersAt returned.mem p).esi :: (registersAt returned.mem p).ebp ::
      (registersAt returned.mem p).esp :: (registersAt returned.mem p).ebx ::
      (registersAt returned.mem p).edx :: (registersAt returned.mem p).ecx ::
      (registersAt returned.mem p).eax :: (registersAt returned.mem p).intNo ::
      (registersAt returned.mem p).errCode :: f.words) := by
    refine ⟨rfl, ?_⟩
    rw [hretesp, ← hp]
    exact stacked_registersAt.mpr ⟨⟨rfl, rfl, rfl, rfl, rfl, rfl, rfl, rfl, rfl, rfl, rfl⟩, hwords'⟩
  obtain ⟨hmem, hesp', hseg', hregs⟩ := run_after clear callee hstack'
  refine ⟨?_, ?_, fun s ↦ ?_, hregs.1, hregs.2.1, hregs.2.2.1, hregs.2.2.2.1, hregs.2.2.2.2.1,
    hregs.2.2.2.2.2.1, hregs.2.2.2.2.2.2⟩
  · rw [hesp', hretesp, hesp, prepared_esp]
    grind
  · have hback : returned.reg .esp + 48 = p + 44 := by
      rw [hretesp, hp]
      grind
    rw [Cpu.Stack, hmem, hesp', hback]
    exact hwords'
  · rw [hseg', hkept, hseg s]
    exact hlow

/-- A task in user mode, at the first instruction of `test_task`. -/
def userTask : Cpu where
  reg _ := 7
  seg _ := 0x23
  interruptFlag := true
  mem _ := 0

/-- It runs into a page fault, whose handler changes nothing. -/
theorem frames_faithful_userTask :
    let f : Interrupted := ⟨0xC0100400, 0x1B, 0x202, some (0xD0003000, 0x23)⟩
    let called := run (Vector.isr 14).stub.before (deliver (.isr 14) 0xD0002000 f 4 userTask)
    let p := read called.mem (called.reg .esp)
    Captured (.isr 14) f 4 userTask (registersAt called.mem p) ∧
      Restored 0xD0002000 f userTask (registersAt called.mem p)
        (run (Vector.isr 14).stub.after called) := by
  intro f called p
  obtain ⟨hcaptured, hrestored⟩ := frames_faithful (.isr 14) 0xD0002000 f 4 userTask fun _ ↦ rfl
  exact ⟨hcaptured, hrestored called ⟨fun _ _ ↦ rfl, _, _, _, _, _, _, _, _, rfl⟩⟩

end KevOS.Interrupts.Frames
