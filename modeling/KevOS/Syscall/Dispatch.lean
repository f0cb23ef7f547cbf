import KevOS.Libc.Console
import KevOS.Syscall.Boot

namespace KevOS.Syscall.Dispatch

open Lib.Program Lib.Noninterference Machine Libc CharPtr Vmm UserMemory

/-- The numbers of `enum syscall_nos`. -/
def sysPrintfNo : UInt32 := 0

def sysGetTicksNo : UInt32 := 1

/-- What the kernel takes for the string at `str`. -/
def TextAt (v : Vm) (str : ℕ) (s : List UInt8) : Prop :=
  if str = 0 then s = nullText else IsString (kernelByte v) (.addr str) s

/-- The call ends with the registers `regs'`, has written `out`, and has changed nothing else. -/
structure Answers (timerTicks : UInt32) (regs : Registers) (v : Vm) (regs' : Registers)
    (out : List UInt8) : Prop where
  shown : shown timerTicks regs v = (.ok regs', out)
  memory : (final ((syscallHandler timerTicks regs).run (session v))).env = v

/-- Both calls are served, and every other number is answered with an error. -/
structure Dispatched (timerTicks : UInt32) (regs : Registers) (v : Vm) : Prop where
  printf : regs.eax = sysPrintfNo → ∀ s, TextAt v regs.ebx.toNat s →
    Answers timerTicks regs v { regs with eax := 0 } s
  getTicks : regs.eax = sysGetTicksNo →
    Answers timerTicks regs v { regs with eax := timerTicks } []
  unknown : regs.eax ≠ sysPrintfNo → regs.eax ≠ sysGetTicksNo →
    Answers timerTicks regs v { regs with eax := 0xFFFFFFFF } []

variable {timerTicks : UInt32} {regs regs' : Registers} {v : Vm} {s out : List UInt8}

def sessionView : View Session := tracedView kernelByte

theorem answers_printf (h : regs.eax = 0) (hs : TextAt v regs.ebx.toNat s) :
    Answers timerTicks regs v { regs with eax := 0 } s := by
  have hwrite : Returns (sessionView.Sees (kernelByte v) Set.univ []) (sysPrintf regs.ebx.toNat) ()
      (sessionView.Sees (kernelByte v) Set.univ s) := by
    rw [sysPrintf_eq]
    unfold TextAt at hs
    split_ifs at hs ⊢
    · rw [hs]
      exact terminalWritestring_returns _ (isString_literal (by decide) (by decide)) fun _ _ _ _ ↦ trivial
    · exact terminalWritestring_returns _ hs fun _ _ _ _ ↦ trivial
  obtain ⟨t, hrun, ht⟩ := hwrite (session v) ⟨rfl, rfl, fun _ _ ↦ trivial, trivial⟩
  refine ⟨?_, (blind_syscallHandler h).env _⟩
  rw [Syscall.shown, syscallHandler_printf h, run_bind_ok hrun]
  exact Prod.ext rfl ht.written

/-- The table has one entry: every number but 0 is turned away, with the registers as they were. -/
theorem syscallHandler_rejects (h : regs.eax ≠ 0) :
    (syscallHandler timerTicks regs : Prog Session Registers) = pure regs := by
  have hpos : 1 ≤ regs.eax.toNat := by
    rw [Nat.one_le_iff_ne_zero]
    intro hzero
    exact h (UInt32.toNat_inj.mp hzero)
  exact if_pos hpos

theorem answers_of_rejected (h : regs.eax ≠ 0) :
    Answers timerTicks regs v regs' out ↔ regs' = regs ∧ out = [] := by
  have hrun : (syscallHandler timerTicks regs).run (session v) = .ok regs (session v) := by
    rw [syscallHandler_rejects h]
    rfl
  have hshown : Syscall.shown timerTicks regs v = (.ok regs, []) := by
    rw [Syscall.shown, hrun]
    rfl
  constructor
  · rintro ⟨hs, -⟩
    rw [hshown, Prod.mk.injEq, Except.ok.injEq] at hs
    exact ⟨hs.1.symm, hs.2.symm⟩
  · rintro ⟨rfl, rfl⟩
    refine ⟨hshown, ?_⟩
    rw [hrun]
    rfl

theorem eax_eq_iff {n : UInt32} : { regs with eax := n } = regs ↔ regs.eax = n := by
  constructor
  · intro h
    rw [← h]
  · rintro rfl
    rfl

/-- Only `SYS_PRINTF` is dispatched. Another number is answered as it should be only where
`eax` holds the answer already. -/
theorem dispatched_iff (timerTicks : UInt32) (regs : Registers) (v : Vm) :
    Dispatched timerTicks regs v ↔
      regs.eax = 0 ∨ (regs.eax = 1 ∧ timerTicks = 1) ∨ regs.eax = 0xFFFFFFFF := by
  constructor
  · intro h
    by_cases hzero : regs.eax = 0
    · exact .inl hzero
    by_cases hone : regs.eax = 1
    · have hanswer := ((answers_of_rejected hzero).mp (h.getTicks hone)).1
      rw [eax_eq_iff] at hanswer
      exact .inr (.inl ⟨hone, hanswer.symm.trans hone⟩)
    · have hanswer := ((answers_of_rejected hzero).mp (h.unknown hzero hone)).1
      exact .inr (.inr (eax_eq_iff.mp hanswer))
  · intro h
    refine ⟨fun hzero s hs ↦ answers_printf hzero hs, fun hone ↦ ?_, fun hzero hone ↦ ?_⟩
    · rcases h with h | ⟨-, rfl⟩ | h
      · exact absurd (h.symm.trans hone) (by decide)
      · have hzero : regs.eax ≠ 0 := fun h0 ↦ absurd (h0.symm.trans hone) (by decide)
        exact (answers_of_rejected hzero).mpr ⟨eax_eq_iff.mpr hone, rfl⟩
      · exact absurd (h.symm.trans hone) (by decide)
    · rcases h with h | ⟨h, -⟩ | h
      · exact absurd h hzero
      · exact absurd h hone
      · exact (answers_of_rejected hzero).mpr ⟨eax_eq_iff.mpr h, rfl⟩

/-- After 500 ticks a program that asks for them is told that there was one. -/
theorem getTicks_not_dispatched : ¬ Dispatched 500 { printfFrame 0 with eax := 1 } smallVm ∧
    shown 500 { printfFrame 0 with eax := 1 } smallVm = (.ok { printfFrame 0 with eax := 1 }, []) := by
  have hzero : { printfFrame 0 with eax := 1 }.eax ≠ 0 := by decide
  refine ⟨fun h ↦ ?_, ((answers_of_rejected hzero).mpr ⟨rfl, rfl⟩).shown⟩
  have hanswer := ((answers_of_rejected hzero).mp (h.getTicks rfl)).1
  exact absurd hanswer (by decide)

end KevOS.Syscall.Dispatch
