import KevOS.Protection.Devices
import KevOS.Shell.Replies

namespace KevOS.Protection.Panic

open Lib.ByteMemory Lib.Privilege Lib.FlatStack Lib.Ia32 Lib.Rings Lib.Program Machine Libc Libc.Format
open Interrupts
open Interrupts.Stubs (Vector Interrupted commonStub)
open Libc.CharPtr
open Shell (text)
open Shell.Commands (State)
open Shell.Cat (inside_univ)
open Shell.Replies

section Model

/-- The terminal and the lock that each `terminal_write` takes. The processor goes `turns` times
around the loop of `spinlock_acquire`. -/
structure Guarded (turns : ℕ) where
  terminal : State
  ttyLock : Bool

variable {turns : ℕ}

def onTerminal {α : Type} (x : Prog State α) : Prog (Guarded turns) α :=
  zoom Guarded.terminal (fun g st ↦ { g with terminal := st }) x

def spinlockAcquire : ℕ → Prog (Guarded turns) Unit
  | 0 => throw .fuel
  | fuel + 1 => do
    let g ← get
    -- the exchange stores 1 in any case
    set ({ g with ttyLock := true } : Guarded turns)
    if g.ttyLock then spinlockAcquire fuel else pure ()

def spinlockRelease : Prog (Guarded turns) Unit := modify fun g ↦ { g with ttyLock := false }

instance : Console (Guarded turns) where
  loadChar a := onTerminal (loadChar a)
  putchar c := do
    spinlockAcquire turns
    onTerminal (putchar c)
    spinlockRelease

def print (format : String) (parameters : List ℕ) : Prog (Guarded turns) Unit := do
  let _ ← printf (.literal (text format)) parameters
  pure ()

/-- The line that only a page fault has. -/
def sayFaultingAddress (cr2 : UInt32) (regs : Stubs.Registers) : Prog (Guarded turns) Unit :=
  if regs.intNo = 14 then print "Faulting Address: 0x%x\n" [cr2.toNat] else pure ()

def isrHandler (cr2 : UInt32) (regs : Stubs.Registers) : Prog (Guarded turns) Unit :=
  if regs.intNo < 32 then do
    print "\n--- KERNEL PANIC: CPU EXCEPTION ---\n" []
    print "Exception ID: %d\n" [regs.intNo.toNat]
    sayFaultingAddress cr2 regs
    print "Error Code:   %d\n" [regs.errCode.toNat]
    print "EIP: 0x%x  CS: 0x%x  EFLAGS: 0x%x\n" [regs.eip.toNat, regs.cs.toNat, regs.eflags.toNat]
    print "EAX: 0x%x  EBX: 0x%x  ECX: 0x%x  EDX: 0x%x\n"
      [regs.eax.toNat, regs.ebx.toNat, regs.ecx.toNat, regs.edx.toNat]
    print "ESP: 0x%x  EBP: 0x%x  ESI:   0x%x  EDI: 0x%x\n"
      [regs.esp.toNat, regs.ebp.toNat, regs.esi.toNat, regs.edi.toNat]
    print "\nSystem Halted.\n" []
    -- the loop around `hlt`
    throw .halt
  else pure ()

end Model

/-- A line of numbers, each behind its label. -/
def hexLine (labels : List String) (values : List UInt32) : List UInt8 :=
  (labels.zip values).flatMap (fun f ↦ text f.1 ++ numeral 16 f.2.toNat) ++ [10]

def decimalLine (label : String) (value : UInt32) : List UInt8 :=
  text label ++ signedNumeral (signed32 value.toNat) ++ [10]

/-- What is on the screen after the exception `n` with the error code `code` in the code that `p` was running.
The stub had its stack pointer at `esp`. -/
def panicScreen (n : ℕ) (cr2 code esp : UInt32) (p : Processor) : List UInt8 :=
  text "\n--- KERNEL PANIC: CPU EXCEPTION ---\n" ++ decimalLine "Exception ID: " (UInt32.ofNat n) ++
    (if n = 14 then hexLine ["Faulting Address: 0x"] [cr2] else []) ++ decimalLine "Error Code:   " code ++
    hexLine ["EIP: 0x", "  CS: 0x", "  EFLAGS: 0x"] [p.eip, widen p.cs, p.eflags] ++
    hexLine ["EAX: 0x", "  EBX: 0x", "  ECX: 0x", "  EDX: 0x"]
      [p.cpu.reg .eax, p.cpu.reg .ebx, p.cpu.reg .ecx, p.cpu.reg .edx] ++
    hexLine ["ESP: 0x", "  EBP: 0x", "  ESI:   0x", "  EDI: 0x"]
      [esp, p.cpu.reg .ebp, p.cpu.reg .esi, p.cpu.reg .edi] ++
    text "\nSystem Halted.\n"

variable {L : Layout} {labels : Labels} {s : System} {p : Processor} {stack n turns : ℕ} {c : Cpu} {m : Bytes}
  {w : List UInt8} {code cr2 : UInt32}

section Locked

/-- Somebody else has the lock, and does not run. -/
theorem spinlockAcquire_held (st : State) (fuel : ℕ) :
    (spinlockAcquire fuel).run (⟨st, true⟩ : Guarded turns) = .error .fuel ⟨st, true⟩ := by
  induction fuel with
  | zero => rfl
  | succ fuel ih => exact ih

theorem spinlockAcquire_free (st : State) {fuel : ℕ} (hfuel : 0 < fuel) :
    (spinlockAcquire fuel).run (⟨st, false⟩ : Guarded turns) = .ok () ⟨st, true⟩ := by
  obtain ⟨fuel, rfl⟩ := Nat.exists_eq_add_of_le' hfuel
  rfl

theorem putchar_free (hturns : 0 < turns) (st : State) (c : UInt8) :
    (putchar c).run (⟨st, false⟩ : Guarded turns) =
      .ok () ⟨{ st with output := st.output ++ [c] }, false⟩ :=
  run_bind_ok (spinlockAcquire_free st hturns)

def view : View (Guarded turns) where
  char g a := some (g.terminal.memory a)
  written g := g.terminal.output
  reads _ := []
  ready g := g.ttyLock = false ∧ 0 < turns
  load_ok {g a c} hg hc := by
    cases hc
    exact ⟨g, rfl, rfl, rfl, fun b hb ↦ .inl hb, hg⟩
  put_ok {g} c hg := by
    obtain ⟨st, lock⟩ := g
    obtain ⟨rfl, hturns⟩ := hg
    exact ⟨_, putchar_free hturns st c, rfl, rfl, List.Subset.refl _, rfl, hturns⟩

/-- The memory is `m`, `w` has been written, and the lock is free. -/
abbrev Holds (turns : ℕ) (m : Bytes) (w : List UInt8) : Guarded turns → Prop :=
  view.Sees (fun a ↦ some (m a)) Set.univ w

theorem holds_iff {g : Guarded turns} : Holds turns m w g ↔ g = ⟨⟨m, w⟩, false⟩ ∧ 0 < turns := by
  constructor
  · rintro ⟨hchar, hwritten, -, hlock, hturns⟩
    have hmemory : g.terminal.memory = m := by
      funext a
      exact Option.some.inj (congrFun hchar a)
    obtain ⟨⟨m', w'⟩, lock⟩ := g
    cases hmemory
    cases hwritten
    cases hlock
    exact ⟨rfl, hturns⟩
  · rintro ⟨rfl, hturns⟩
    exact ⟨rfl, rfl, fun _ _ ↦ trivial, rfl, hturns⟩

theorem print_returns {format : String} {values : List Value} {words : List ℕ} {out : List UInt8}
    (href : reference (text format) values = some out) (hformat : 0 ∉ text format)
    (hshort : (text format).length < loopBound)
    (hwords : List.Forall₂ (Passes fun a ↦ some (m a)) values words) :
    Returns (Holds turns m w) (print format words) () (Holds turns m (w ++ out)) := by
  have hprint : Returns (Holds turns m w) (printf (.literal (text format)) (words ++ []))
      (w32 out.length) (Holds turns m (w ++ out)) :=
    printf_returns view href (isString_literal hformat hshort) (inside_univ _ _) hwords
      fun _ _ _ ↦ inside_univ _ _
  rw [List.append_nil] at hprint
  exact hprint.bind (.pure ())

theorem print_plain {format : String} (hs : 37 ∉ text format) (hnul : 0 ∉ text format)
    (hshort : (text format).length < loopBound) :
    Returns (Holds turns m w) (print format []) () (Holds turns m (w ++ text format)) :=
  print_returns (reference_plain hs []) hnul hshort .nil

/-- Nothing of a text gets to the screen, not even its first character. -/
theorem print_held {format : String} {c : UInt8} {rest : List UInt8} (hf : text format = c :: rest) (hnul : c ≠ 0)
    (hplain : c ≠ 37) (st : State) :
    (print format []).run (⟨st, true⟩ : Guarded turns) = .error .fuel ⟨st, true⟩ := by
  have hspins : (putchar c).run (⟨st, true⟩ : Guarded turns) = .error .fuel ⟨st, true⟩ :=
    run_bind_error (spinlockAcquire_held st turns)
  have hread : (readChar (.literal (c :: rest)) 0).run (⟨st, true⟩ : Guarded turns) = .ok c ⟨st, true⟩ := rfl
  have hwrite : (terminalWrite (.literal (c :: rest)) 1).run (⟨st, true⟩ : Guarded turns) = .error .fuel ⟨st, true⟩ :=
    (run_bind_ok hread).trans (run_bind_error hspins)
  have hloop (fuel : ℕ) : (printfLoop (fuel + 1) (.literal (c :: rest)) 0 []).run (⟨st, true⟩ : Guarded turns) =
      .error .fuel ⟨st, true⟩ := by
    rw [printfLoop, run_bind_ok hread, if_neg hnul, if_pos hplain]
    exact run_bind_error hwrite
  refine run_bind_error ?_
  rw [hf, printf]
  exact hloop 4294967295

end Locked

section Lines

variable {format : String} {lines : List String} {values : List UInt32}

theorem reference_hexLine (hlen : lines.length = values.length) (hplain : ∀ l ∈ lines, 37 ∉ text l) :
    reference (lines.flatMap (fun l ↦ text l ++ [37, 120]) ++ [10]) (values.map fun v ↦ .unsigned v.toNat) =
      some (hexLine lines values) := by
  induction lines generalizing values with
  | nil =>
    obtain rfl := List.eq_nil_of_length_eq_zero hlen.symm
    rfl
  | cons l lines ih =>
    cases values with
    | nil => cases hlen
    | cons v values =>
      rw [List.forall_mem_cons] at hplain
      have hitem := reference_item hplain.1 (by decide) (convert_hex v.toNat) (ih (Nat.succ.inj hlen) hplain.2)
      simpa [hexLine] using hitem

theorem print_hexLine (hf : text format = lines.flatMap (fun l ↦ text l ++ [37, 120]) ++ [10])
    (hlen : lines.length = values.length) (hplain : ∀ l ∈ lines, 37 ∉ text l) (hnul : 0 ∉ text format)
    (hshort : (text format).length < loopBound) :
    Returns (Holds turns m w) (print format (values.map UInt32.toNat)) ()
      (Holds turns m (w ++ hexLine lines values)) := by
  have href : reference (text format) (values.map fun v ↦ .unsigned v.toNat) = some (hexLine lines values) := by
    rw [hf]
    exact reference_hexLine hlen hplain
  refine print_returns href hnul hshort ?_
  rw [List.forall₂_map_left_iff, List.forall₂_map_right_iff]
  exact List.forall₂_same.mpr fun v _ ↦ ⟨rfl, v.toNat_lt⟩

theorem print_decimalLine {label : String} {value : UInt32} (hf : text format = text label ++ [37, 100, 10])
    (hplain : 37 ∉ text label) (hnul : 0 ∉ text format) (hshort : (text format).length < loopBound) :
    Returns (Holds turns m w) (print format [value.toNat]) () (Holds turns m (w ++ decimalLine label value)) := by
  have href : reference (text format) [.int (signed32 value.toNat)] = some (decimalLine label value) := by
    rw [hf]
    exact reference_item hplain (by decide) (convert_int _) (reference_plain (by decide) [])
  exact print_returns href hnul hshort (.cons (passes_signed32 value.toNat_lt) .nil)

theorem sayFaultingAddress_returns (regs : Stubs.Registers) :
    Returns (Holds turns m w) (sayFaultingAddress cr2 regs) ()
    (Holds turns m (w ++ if regs.intNo = 14 then hexLine ["Faulting Address: 0x"] [cr2] else [])) := by
  unfold sayFaultingAddress
  split_ifs
  · exact @print_hexLine turns m w "Faulting Address: 0x%x\n" ["Faulting Address: 0x"] [cr2] (by decide) rfl (by decide)
      (by decide) (by decide)
  · rw [List.append_nil]
    exact .pure ()

end Lines

section Screen

theorem intNo_lt {r : Stubs.Registers} (hn : n < 32) (hint : r.intNo = UInt32.ofNat n) : r.intNo < 32 := by
  rw [hint, UInt32.lt_iff_toNat_lt, UInt32.toNat_ofNat', Nat.mod_eq_of_lt (show n < 4294967296 by omega)]
  exact hn

/-- The first character of the screen is waited for. -/
theorem isrHandler_spins {r : Stubs.Registers} (hn : n < 32) (hint : r.intNo = UInt32.ofNat n) (st : State) :
    (isrHandler cr2 r).run (⟨st, true⟩ : Guarded turns) = .error .fuel ⟨st, true⟩ := by
  have hfirst : text "\n--- KERNEL PANIC: CPU EXCEPTION ---\n" =
      10 :: text "--- KERNEL PANIC: CPU EXCEPTION ---\n" := by
    decide
  rw [isrHandler, if_pos (intNo_lt hn hint)]
  exact run_bind_error (print_held hfirst (by decide) (by decide) st)

/-- The screen for whatever is in the frame. -/
theorem isrHandler_halts {r : Stubs.Registers} (hn : n < 32) (hint : r.intNo = UInt32.ofNat n) (hcs : r.cs = widen p.cs)
    (hcode : r.errCode = code) (heip : r.eip = p.eip) (heflags : r.eflags = p.eflags)
    (hregs : ∀ q ∈ [(r.eax, Reg.eax), (r.ebx, .ebx), (r.ecx, .ecx), (r.edx, .edx), (r.ebp, .ebp), (r.esi, .esi),
      (r.edi, .edi)], q.1 = p.cpu.reg q.2) (hturns : 0 < turns) (st : State) :
    (isrHandler cr2 r).run (⟨st, false⟩ : Guarded turns) =
      .error .halt ⟨⟨st.memory, st.output ++ panicScreen n cr2 code r.esp p⟩, false⟩ := by
  simp only [List.forall_mem_cons, List.not_mem_nil, false_implies, implies_true, and_true] at hregs
  obtain ⟨heax, hebx, hecx, hedx, hebp, hesi, hedi⟩ := hregs
  have hnumber : (UInt32.ofNat n).toNat = n := Nat.mod_eq_of_lt (show n < 4294967296 by omega)
  have hlt := intNo_lt hn hint
  have hpage : r.intNo = 14 ↔ n = 14 := by
    rw [hint, ← UInt32.toNat_inj, hnumber]
    rfl
  have hstops : Stops (Holds turns st.memory st.output) (isrHandler cr2 r) .halt
      (Holds turns st.memory (st.output ++ panicScreen n cr2 code r.esp p)) := by
    unfold isrHandler panicScreen
    rw [if_pos hlt, ← hint, ← hcode, ← heip, ← hcs, ← heflags, ← heax, ← hebx, ← hecx, ← hedx, ← hebp, ← hesi, ← hedi]
    simp only [← hpage, ← List.append_assoc]
    refine (print_plain (by decide) (by decide) (by decide)).stops ?_
    refine (@print_decimalLine _ _ _ _ "Exception ID: " r.intNo (by decide) (by decide) (by decide)
      (by decide)).stops ?_
    refine (sayFaultingAddress_returns r).stops ?_
    refine (@print_decimalLine _ _ _ _ "Error Code:   " r.errCode (by decide) (by decide) (by decide)
      (by decide)).stops ?_
    refine (@print_hexLine _ _ _ _ ["EIP: 0x", "  CS: 0x", "  EFLAGS: 0x"] [r.eip, r.cs, r.eflags] (by decide) rfl
      (by decide) (by decide) (by decide)).stops ?_
    refine (@print_hexLine _ _ _ _ ["EAX: 0x", "  EBX: 0x", "  ECX: 0x", "  EDX: 0x"] [r.eax, r.ebx, r.ecx, r.edx]
      (by decide) rfl (by decide) (by decide) (by decide)).stops ?_
    refine (@print_hexLine _ _ _ _ ["ESP: 0x", "  EBP: 0x", "  ESI:   0x", "  EDI: 0x"] [r.esp, r.ebp, r.esi, r.edi]
      (by decide) rfl (by decide) (by decide) (by decide)).stops ?_
    exact (print_plain (by decide) (by decide) (by decide)).stops (.throw .halt)
  obtain ⟨g, hrun, hg⟩ := hstops ⟨st, false⟩ (holds_iff.mpr ⟨rfl, hturns⟩)
  rw [hrun, (holds_iff.mp hg).1]

end Screen

section Frame

/-- The stub pushes its own stack pointer, as it is after four registers. -/
theorem pushed_esp {clear : List Instr} (callee : Stubs.Callee) (hclear : clear = [] ∨ clear = [.xor .eax .eax])
    (c : Cpu) : read (run (commonStub clear callee).before c).mem (c.reg .esp - 20) = c.reg .esp - 16 := by
  set rest := [.push .ebp, .push .esi, .push .edi] ++ (clear ++ [.movSegAx .ds, .push .eax, .movImmAx 0x10]) ++
    Stubs.loadSegments ++ [.push .esp] with hdef
  have hcode : (commonStub clear callee).before =
      [.push .eax, .push .ecx, .push .edx, .push .ebx, .push .esp] ++ rest := by
    simp [commonStub, Stubs.pushRegisters, hdef]
  set d := run [.push .eax, .push .ecx, .push .edx, .push .ebx, .push .esp] c with hd
  have hesp : d.reg .esp = c.reg .esp - 20 := by
    simp [hd, exec]
    grind
  have hread : read d.mem (c.reg .esp - 20) = c.reg .esp - 16 := by
    rw [← hesp]
    simp only [hd, run_cons, run_nil, exec]
    rw [push_esp]
    refine read_write_self.trans ?_
    simp
    grind
  rw [hcode, run_append, ← hd, ← hread]
  have hrest : (∀ i ∈ rest, descends i = true) ∧ (rest.map pushes).sum = 5 := by
    rcases hclear with rfl | rfl
    · exact ⟨by simp [rest, Stubs.loadSegments, descends], rfl⟩
    · exact ⟨by simp [rest, Stubs.loadSegments, descends], rfl⟩
  refine read_congr fun i hi ↦ run_mem_of_far hrest.1 ?_ (by omega)
  have hdist : c.reg .esp - 20 + UInt32.ofNat i - (c.reg .esp - 20 - 4 * UInt32.ofNat 5) = UInt32.ofNat (20 + i) := by
    rw [UInt32.ofNat_add]
    grind
  rw [hrest.2, hesp, Beyond, hdist, UInt32.toNat_ofNat', Nat.mod_eq_of_lt (by omega)]
  omega

/-- No instruction of a stub enables interrupts. -/
theorem run_disabled (hc : c.interruptFlag = false) (code : List Instr) : (run code c).interruptFlag = false := by
  induction code generalizing c with
  | nil => exact hc
  | cons i code ih =>
    refine ih ?_
    cases i <;> first | exact hc | rfl

/-- The frame of an exception. -/
theorem exception_frame (num : Fin 32) (esp0 : UInt32) (f : Interrupted) (code : UInt32) (c : Cpu) :
    let v := Vector.isr num
    let called := run v.stub.before (Stubs.deliver v esp0 f code c)
    let r := Stubs.registersAt called.mem (read called.mem (called.reg .esp))
    r.intNo = UInt32.ofNat num ∧ r.errCode = (if v.hasErrCode then code else 0) ∧ r.eip = f.eip ∧ r.cs = f.cs ∧
      r.eflags = f.eflags ∧ (∀ q ∈ [(r.eax, Reg.eax), (r.ebx, .ebx), (r.ecx, .ecx), (r.edx, .edx), (r.ebp, .ebp),
        (r.esi, .esi), (r.edi, .edi)], q.1 = c.reg q.2) ∧
      r.esp = f.stackTop esp0 c - 4 * UInt32.ofNat f.words.length - 24 ∧ called.interruptFlag = false := by
  intro v called r
  obtain ⟨ds, esp, -, hcalled, hstack⟩ := stub_frame v esp0 f code c
  obtain ⟨hptr, hframe⟩ := hstack
  have hread : read called.mem (called.reg .esp) = called.reg .esp + 4 := hptr
  rw [← hread] at hframe
  obtain ⟨⟨-, hedi, hesi, hebp, -, hebx, hedx, hecx, heax, hint, herr⟩, hwords⟩ :=
    (Frames.stacked_registersAt (r := ⟨ds, c.reg .edi, c.reg .esi, c.reg .ebp, esp, c.reg .ebx, c.reg .edx,
      c.reg .ecx, c.reg .eax, v.number, if v.hasErrCode then code else 0, f.eip, f.cs, f.eflags, 0, 0⟩)).mp hframe
  obtain ⟨heip, hcs, heflags, -⟩ := Frames.stacked_words.mp hwords
  refine ⟨hint, herr, heip, hcs, heflags, ?_, ?_, ?_⟩
  · simp only [List.forall_mem_cons, List.not_mem_nil, false_implies, implies_true, and_true]
    exact ⟨heax, hebx, hecx, hedx, hebp, hesi, hedi⟩
  · obtain ⟨clear, callee, hclear, hbefore, -⟩ := Frames.run_stub v esp0 f code c
    have hpushed := pushed_esp callee hclear (Frames.prepared v esp0 f code c)
    rw [← hbefore, Frames.prepared_esp] at hpushed
    have hslot : read called.mem (called.reg .esp) + 16 =
        f.stackTop esp0 c - 4 * UInt32.ofNat f.words.length - 8 - 20 := by
      rw [hread, hcalled]
      grind
    have hesp : r.esp = read called.mem (read called.mem (called.reg .esp) + 16) := rfl
    rw [hesp, hslot, hpushed]
    grind
  · refine run_disabled ?_ _
    simp only [Stubs.deliver]
    split_ifs <;> exact Frames.pushAll_interruptFlag

end Frame

/-- An exception, in whatever code and with whatever error code, ends in a screen with the state of that code, and the
processor halts with interrupts disabled. Only the stack pointer is not that of the code: it is the one of the stub,
24 bytes below what the processor has saved. When the lock of the terminal is held at that moment, the processor waits
for it without end, and nothing is shown. -/
theorem exception_panics (hL : L.Valid) (hl : labels.Valid) (hr : Run L labels stack s (linear p.cpu.mem))
    (hcpl : p.cpl = 0 ∨ p.cpl = 3) (hn : n < 32) (code cr2 : UInt32) :
    let v := Vector.isr ⟨n, hn⟩
    let top := if p.cpl = 0 then p.cpu.reg .esp - 12 else UInt32.ofNat stack - 20
    ∃ q, interrupt s false n (if v.hasErrCode then some code else none) p = .ok q ∧
      q.eip = UInt32.ofNat (labels.isr n) ∧ q.cpl = 0 ∧
      let called := run v.stub.before q.cpu
      let regs := Stubs.registersAt called.mem (read called.mem (called.reg .esp))
      called.interruptFlag = false ∧ ∀ (turns : ℕ) (st : State),
        (0 < turns → (isrHandler cr2 regs).run (⟨st, false⟩ : Guarded turns) =
          .error .halt ⟨⟨st.memory, st.output ++
            panicScreen n cr2 (if v.hasErrCode then code else 0) (top - 24) p⟩, false⟩) ∧
        (isrHandler cr2 regs).run (⟨st, true⟩ : Guarded turns) = .error .fuel ⟨st, true⟩ := by
  intro v top
  have h := (hr.installed hL hl).2
  have hvector : vectorOf n = some v := dif_pos hn
  obtain ⟨q, hq, heip, hring, hcpu⟩ := @interrupt_stub _ s p v stack n code hcpl
    (deliver_stub h hl hcpl (by omega) hvector)
  obtain ⟨hint, herr, hpc, hcs, heflags, hregs, hesp, hdisabled⟩ :=
    exception_frame ⟨n, hn⟩ (UInt32.ofNat stack) (interruptedIn p) code p.cpu
  have htop : (interruptedIn p).stackTop (UInt32.ofNat stack) p.cpu -
      4 * UInt32.ofNat (interruptedIn p).words.length = top := by
    rcases hcpl with hcpl | hcpl
    · simp [top, interruptedIn, Interrupted.stackTop, Interrupted.words, hcpl]
    · simp [top, interruptedIn, Interrupted.stackTop, Interrupted.words, hcpl]
  refine ⟨q, hq, heip, hring, ?_⟩
  rw [hcpu]
  refine ⟨hdisabled, fun turns st ↦ ⟨fun hturns ↦ ?_, isrHandler_spins hn hint st⟩⟩
  rw [isrHandler_halts hn hint hcs herr hpc heflags hregs hturns st, hesp, htop]

theorem exception_panics_page : ∃ s m, Run kernelLayout kernelLabels 0x200000 s (linear m) ∧
    ∃ (q : Processor) (r : Stubs.Registers), interrupt s false 14 (some 2) (kernelProcessor m) = .ok q ∧
      ∀ st : State, (isrHandler 0xDEAD r).run (⟨st, false⟩ : Guarded 1) = .error .halt ⟨⟨st.memory, st.output ++
        panicScreen 14 0xDEAD 2 ((kernelProcessor m).cpu.reg .esp - 12 - 24) (kernelProcessor m)⟩, false⟩ ∧
          (isrHandler 0xDEAD r).run (⟨st, true⟩ : Guarded 1) = .error .fuel ⟨st, true⟩ := by
  obtain ⟨s, m, hr⟩ := exists_run_linear (show 0x200000 < 4294967296 by decide)
  obtain ⟨q, hq, -, -, -, hscreen⟩ := exception_panics (p := kernelProcessor m) kernelLayout_valid kernelLabels_valid hr
    (.inl rfl) (show 14 < 32 by decide) 2 0xDEAD
  exact ⟨s, m, hr, q, _, hq, fun st ↦ ⟨(hscreen 1 st).1 Nat.one_pos, (hscreen 1 st).2⟩⟩

end KevOS.Protection.Panic
