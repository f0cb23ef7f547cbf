import KevOS.Protection.Rings
import KevOS.Lib.Rings
import KevOS.Interrupts.Frames

namespace KevOS.Protection

open Lib.ByteMemory Lib.Privilege Lib.FlatStack Lib.Ia32 Lib.Rings Function
open Interrupts
open Interrupts.Stubs (Vector Interrupted commonStub)

/-- Code in ring 3, as `jump_to_usermode` starts it. -/
structure InUserMode (p : Processor) : Prop where
  cpl : p.cpl = 3
  cs : p.cs = 0x1B
  ss : p.ss = 0x23
  seg : ∀ r, p.cpu.seg r = 0x23
  flags : p.flags = p.eflags

/-- The `n` words below `esp` are none of the tables'. -/
def Layout.Clear (L : Layout) (esp : UInt32) (n : ℕ) : Prop :=
  ∀ a, L.InTables a → Beyond (UInt32.ofNat a) esp n

/-- `jump_to_usermode` up to its `iret`. -/
def jumpToUsermode (p : Processor) : Processor :=
  let cpu := p.cpu.set .ebx (read p.cpu.mem (p.cpu.reg .esp + 4))
  let cpu := cpu.set .ecx (read cpu.mem (cpu.reg .esp + 8))
  let cpu := run ([.cli, .movImmAx 0x23] ++ Stubs.loadSegments ++ [.pushImm 0x23, .push .ecx]) cpu
  -- `pushf`, `popl %eax` and `orl $0x200, %eax`
  let cpu := cpu.push (withInterruptBit p.flags cpu.interruptFlag)
  let cpu := exec cpu (.pop .eax)
  let cpu := cpu.set .eax (cpu.reg .eax ||| 0x200)
  { p with cpu := run [.push .eax, .pushImm 0x1B, .push .ebx] cpu }

variable {L : Layout} {labels : Labels} {s : System} {p q : Processor} {c c' : Cpu} {v : Vector}
  {stack n : ℕ} {eip esp eflags code : UInt32}

section Return

theorem Installed.of_mem {m : Mem} {m' : Mem} (h : Installed L labels stack s (linear m))
    (hm : ∀ a, L.InTables a → m' (UInt32.ofNat a) = m (UInt32.ofNat a)) :
    Installed L labels stack s (linear m') := h.congr hm

theorem Installed.iret_user {m : Bytes} (h : Installed L labels stack s m) {eip : ℕ} (he : eip < 4294967296) :
    iret s m 0 0x1B eip 0x23 = .ok 3 := by
  have hcode : s.segment? m 0x1B = some (flat 0xFA) := h.segment? (show 3 < 6 by decide) rfl rfl
  have hdata : s.segment? m 0x23 = some (flat 0xF2) := h.segment? (show 4 < 6 by decide) rfl rfl
  have hlast : ¬ (flat 0xFA).last < eip := by
    have hall : (flat 0xFA).last = 4294967295 := by decide
    omega
  have hkind : isCode (flat 0xFA).access = true ∧ dpl (flat 0xFA).access = 3 ∧
    present (flat 0xFA).access = true ∧ conforming (flat 0xFA).access = false := by decide
  obtain ⟨hcode', hdpl, hpresent, hconf⟩ := hkind
  have hstack : stackSegment s m 3 0x23 0 generalProtection = .ok () := by
    rw [stackSegment, hdata]
    simp [flat, writable, kind, dpl, present]
  unfold iret
  simp [hcode, hcode', hdpl, hpresent, hconf, hlast, hstack]

theorem Installed.keeps_user {m : Bytes} (h : Installed L labels stack s m) : keeps s m 3 0x23 = true := by
  have hdata : s.segment? m 0x23 = some (flat 0xF2) := h.segment? (show 4 < 6 by decide) rfl rfl
  unfold keeps
  rw [hdata]
  decide

/-- `iret` from ring 0 with such a stack starts or resumes code in ring 3. -/
theorem interruptReturn_user (h : Installed L labels stack s (linear q.cpu.mem)) (hcpl : q.cpl = 0)
    (hs : q.cpu.Stack [eip, widen 0x1B, eflags, esp, widen 0x23]) (hseg : ∀ r, q.cpu.seg r = 0x23) :
    interruptReturn s q =
      .ok ⟨{ q.cpu.set .esp esp with interruptFlag := interruptBit eflags }, eip, 0x1B, 0x23, 3, eflags⟩ := by
  obtain ⟨heip, hcs, heflags, hesp, hss, -⟩ := hs
  simp only [UInt32.add_assoc] at hcs heflags hesp hss
  have hcs' : low (read q.cpu.mem (q.cpu.reg .esp + 4)) = 0x1B := by rw [hcs, low_widen]
  have hss' : low (read q.cpu.mem (q.cpu.reg .esp + 16)) = 0x23 := (congrArg low hss).trans (low_widen _)
  have hiret : iret s (linear q.cpu.mem) q.cpl 0x1B eip.toNat 0x23 = .ok 3 := by
    rw [hcpl]
    exact h.iret_user eip.toNat_lt
  have heflags' : read q.cpu.mem (q.cpu.reg .esp + 8) = eflags := heflags
  have hesp' : read q.cpu.mem (q.cpu.reg .esp + 12) = esp := hesp
  have hiret' : iret s (linear q.cpu.mem) q.cpl (0x1B : UInt16).toNat eip.toNat (0x23 : UInt16).toNat =
    .ok 3 := hiret
  have hkeeps : keeps s (linear q.cpu.mem) 3 (0x23 : UInt16).toNat = true := h.keeps_user
  have hflag : q.cpl ≤ q.flags.toNat / 4096 % 4 := by
    rw [hcpl]
    exact Nat.zero_le _
  have hout : ¬ 3 = q.cpl := by
    rw [hcpl]
    decide
  have hsegs : (fun r ↦ if keeps s (linear q.cpu.mem) 3 (q.cpu.seg r).toNat then q.cpu.seg r else 0) = q.cpu.seg := by
    funext r
    rw [hseg, if_pos hkeeps]
  unfold interruptReturn
  simp only [heip, hcs', hss', hiret', heflags', hesp', if_pos hflag, if_neg hout, hsegs]
  rfl

end Return

section Start

/-- The code up to `pushf`: the arguments are in `ebx` and `ecx`, and the data segments are the user's. -/
def entering (p : Processor) : Cpu :=
  let cpu := p.cpu.set .ebx (read p.cpu.mem (p.cpu.reg .esp + 4))
  let cpu := cpu.set .ecx (read cpu.mem (cpu.reg .esp + 8))
  run ([.cli, .movImmAx 0x23] ++ Stubs.loadSegments ++ [.pushImm 0x23, .push .ecx]) cpu

theorem entering_eq (p : Processor) : ∃ c : Cpu, c.reg .ebx = read p.cpu.mem (p.cpu.reg .esp + 4) ∧
    c.reg .esp = p.cpu.reg .esp ∧ c.mem = p.cpu.mem ∧ (∀ r, c.seg r = 0x23) ∧ c.interruptFlag = false ∧
    entering p = (c.push 0x23).push (read p.cpu.mem (p.cpu.reg .esp + 8)) := by
  set b := p.cpu.set .ebx (read p.cpu.mem (p.cpu.reg .esp + 4)) with hb
  set e := b.set .ecx (read b.mem (b.reg .esp + 8)) with he
  set a := ({ e with interruptFlag := false }).set .eax (setLow (e.reg .eax) 0x23) with ha
  have hesp : b.reg .esp = p.cpu.reg .esp := set_of_ne (by decide)
  have hecx : e.reg .ecx = read p.cpu.mem (p.cpu.reg .esp + 8) := by
    rw [he, set_self, hesp]
    rfl
  have heax : a.reg .eax = setLow (e.reg .eax) 0x23 := set_self
  have hrun : entering p = run [.pushImm 0x23, .push .ecx] (run Stubs.loadSegments a) := by
    rw [entering, run_append, run_append]
    rfl
  rw [Frames.run_loadSegments, heax, low_setLow] at hrun
  refine ⟨{ a with seg := fun _ ↦ 0x23 }, ?_, ?_, rfl, fun _ ↦ rfl, rfl, ?_⟩
  · show a.reg .ebx = _
    rw [ha, set_of_ne (by decide), he, set_of_ne (by decide), hb, set_self]
  · show a.reg .esp = _
    rw [ha, set_of_ne (by decide), he, set_of_ne (by decide), hesp]
  · rw [hrun, ← hecx]
    rfl

/-- The flags go through the stack and back: a word is pushed, and popped into `eax`. -/
theorem push_pop (c : Cpu) (w : UInt32) : (exec (c.push w) (.pop .eax)).reg .eax = w ∧
    (exec (c.push w) (.pop .eax)).reg .esp = c.reg .esp ∧
    (exec (c.push w) (.pop .eax)).reg .ebx = c.reg .ebx ∧
    (exec (c.push w) (.pop .eax)).seg = c.seg ∧ (exec (c.push w) (.pop .eax)).mem = (c.push w).mem := by
  have hread : read (c.push w).mem ((c.push w).reg .esp) = w := by
    rw [push_esp]
    exact read_write_self
  refine ⟨?_, ?_, ?_, rfl, rfl⟩
  · rw [exec, set_self, hread]
  · rw [exec, set_of_ne (by decide), set_self, push_esp, UInt32.sub_add_cancel]
  · rw [exec, set_of_ne (by decide), set_of_ne (by decide), push_of_ne (by decide)]

/-- What the code of `jump_to_usermode` leaves for its `iret`. -/
theorem jumpToUsermode_eq (p : Processor) :
    (jumpToUsermode p).cpu.Stack [read p.cpu.mem (p.cpu.reg .esp + 4), widen 0x1B,
      withInterruptBit p.flags true, read p.cpu.mem (p.cpu.reg .esp + 8), widen 0x23] ∧
    (∀ r, (jumpToUsermode p).cpu.seg r = 0x23) ∧
    ∀ x, Beyond x (p.cpu.reg .esp) 5 → (jumpToUsermode p).cpu.mem x = p.cpu.mem x := by
  obtain ⟨c, hebx, hesp, hmem, hseg, hflag, hentering⟩ := entering_eq p
  set d := entering p with hd
  set w := withInterruptBit p.flags d.interruptFlag with hw
  obtain ⟨heax', hesp', hebx', hseg', hmem'⟩ := push_pop d w
  set e := exec (d.push w) (.pop .eax) with he
  have hdstack : d.Stack [read p.cpu.mem (p.cpu.reg .esp + 8), 0x23] := by
    rw [hentering]
    exact (Cpu.Stack.push (show c.Stack [] from trivial) (by decide)).push (by decide)
  have hestack : (e.set .eax (e.reg .eax ||| 0x200)).Stack [read p.cpu.mem (p.cpu.reg .esp + 8), 0x23] := by
    have hpushed := (hdstack.push (v := w) (by simp)).2
    rw [push_esp, UInt32.sub_add_cancel] at hpushed
    rw [Cpu.Stack, set_of_ne (by decide), set_mem, hesp', hmem']
    exact hpushed
  set f := e.set .eax (e.reg .eax ||| 0x200) with hf
  have heax : f.reg .eax = withInterruptBit p.flags true := by
    rw [hf, set_self, heax', lor_interruptBit, hw, withInterruptBit_of_withInterruptBit]
  have hebx'' : f.reg .ebx = read p.cpu.mem (p.cpu.reg .esp + 4) := by
    rw [hf, set_of_ne (by decide), hebx', hentering, push_of_ne (by decide), push_of_ne (by decide), hebx]
  have hfesp : f.reg .esp = p.cpu.reg .esp - 4 - 4 := by
    rw [hf, set_of_ne (by decide), hesp', hentering, push_esp, push_esp, hesp]
  have hcpu : (jumpToUsermode p).cpu =
      ((f.push (f.reg .eax)).push 0x1B).push (((f.push (f.reg .eax)).push 0x1B).reg .ebx) := rfl
  rw [push_of_ne (by decide), push_of_ne (by decide), heax, hebx''] at hcpu
  rw [hcpu]
  refine ⟨?_, fun r ↦ ?_, fun x hx ↦ ?_⟩
  · exact ((hestack.push (by simp)).push (by simp)).push (by simp)
  · show e.seg r = 0x23
    rw [hseg', hentering]
    exact hseg r
  · obtain ⟨hfar₁, hx₁⟩ := hx.step (by decide)
    obtain ⟨hfar₂, hx₂⟩ := hx₁.step (by decide)
    obtain ⟨hfar₃, hx₃⟩ := hx₂.step (by decide)
    obtain ⟨hfar₄, hx₄⟩ := hx₃.step (by decide)
    have hfar₅ := (hx₄.step (by decide)).1
    have hfmem : f.mem x = p.cpu.mem x := by
      rw [hf, set_mem, hmem', push_mem_of_far, hentering, push_mem_of_far, push_mem_of_far, hmem]
      · rw [hesp]
        exact hfar₁
      · rw [push_esp, hesp]
        exact hfar₂
      · rw [hentering, push_esp, push_esp, hesp]
        exact hfar₃
    rw [push_mem_of_far, push_mem_of_far, push_mem_of_far, hfmem]
    · rw [hfesp]
      exact hfar₃
    · rw [push_esp, hfesp]
      exact hfar₄
    · rw [push_esp, push_esp, hfesp]
      exact hfar₅

/-- `jump_to_usermode`, called in ring 0 with its two arguments on a stack apart from the tables, raises
no exception. It goes on at the entry point in ring 3, on the given stack, with interrupts enabled. -/
theorem run_jumpToUsermode (hL : L.Valid) (hl : labels.Valid) (hr : Run L labels stack s (linear p.cpu.mem))
    (hcpl : p.cpl = 0) (hclear : L.Clear (p.cpu.reg .esp) 5) :
    loadData s (linear p.cpu.mem) 0 0x23 = .ok () ∧
      ∃ p', interruptReturn s (jumpToUsermode p) = .ok p' ∧ InUserMode p' ∧
        p'.eip = read p.cpu.mem (p.cpu.reg .esp + 4) ∧
        p'.cpu.reg .esp = read p.cpu.mem (p.cpu.reg .esp + 8) ∧ p'.cpu.interruptFlag = true := by
  have h := (hr.installed hL hl).2
  obtain ⟨hstack, hseg, hmem⟩ := jumpToUsermode_eq p
  have hload : loadData s (linear p.cpu.mem) 0 0x23 = .ok () := by
    have hdata : s.segment? (linear p.cpu.mem) 0x23 = some (flat 0xF2) :=
      h.segment? (show 4 < 6 by decide) rfl rfl
    rw [loadData, hdata]
    simp [flat, readable, conforming, isCode, kind, dpl, present]
  have hafter : Installed L labels stack s (linear (jumpToUsermode p).cpu.mem) :=
    h.of_mem fun a ha ↦ hmem _ (hclear a ha)
  have hcpl' : (jumpToUsermode p).cpl = 0 := hcpl
  generalize jumpToUsermode p = q at hstack hseg hafter hcpl' ⊢
  refine ⟨hload, _, interruptReturn_user hafter hcpl' hstack hseg, ⟨rfl, rfl, rfl, hseg, ?_⟩, rfl, @set_self q.cpu .esp _,
    interruptBit_withInterruptBit⟩
  exact (@withInterruptBit_interruptBit (withInterruptBit p.flags true)).symm

end Start

section Loaded

theorem exists_run_linear (hs : stack < 4294967296) : ∃ s m, Run kernelLayout kernelLabels stack s (linear m) := by
  obtain ⟨s, m, hr⟩ := exists_run hs
  refine ⟨s, fun a ↦ m a.toNat, hr.store fun a ha ↦ ?_⟩
  have hlow : a % 2 ^ 32 = a := by
    unfold Layout.InTables kernelLayout at ha
    dsimp only at ha
    omega
  rw [linear, UInt32.toNat_ofNat', hlow]

/-- A stack at 2 MiB is apart from the tables. -/
theorem kernelLayout_clear {n : ℕ} (hn : n ≤ 17) : kernelLayout.Clear 0x200000 n := by
  intro a ha
  unfold Layout.InTables kernelLayout at ha
  dsimp only at ha
  have hwords : (4 * UInt32.ofNat n).toNat = 4 * n := by
    rw [UInt32.toNat_mul, UInt32.toNat_ofNat', Nat.mod_eq_of_lt (show n < 2 ^ 32 by omega)]
    exact Nat.mod_eq_of_lt (show 4 * n < 4294967296 by omega)
  have hbottom : (0x200000 - 4 * UInt32.ofNat n).toNat = 0x200000 - 4 * n := by
    rw [UInt32.toNat_sub_of_le _ _ (by
      rw [UInt32.le_iff_toNat_le, hwords]
      exact (show 4 * n ≤ 0x200000 by omega)), hwords]
    rfl
  rw [Beyond, UInt32.toNat_sub, hbottom, UInt32.toNat_ofNat', Nat.mod_eq_of_lt (show a < 2 ^ 32 by omega)]
  omega

/-- The processor in `kernel_main`, with the memory `m`. -/
def kernelProcessor (m : Mem) : Processor where
  cpu := ⟨fun _ ↦ 0x200000, fun _ ↦ 0x10, false, m⟩
  eip := 0x101500
  cs := 0x08
  ss := 0x10
  cpl := 0
  flags := 2

theorem run_jumpToUsermode_kernel : ∃ s m, Run kernelLayout kernelLabels 0x200000 s (linear m) ∧
    loadData s (linear m) 0 0x23 = .ok () ∧
      ∃ p', interruptReturn s (jumpToUsermode (kernelProcessor m)) = .ok p' ∧ InUserMode p' ∧
        p'.eip = read m 0x200004 ∧ p'.cpu.reg .esp = read m 0x200008 ∧ p'.cpu.interruptFlag = true := by
  obtain ⟨s, m, hr⟩ := exists_run_linear (show 0x200000 < 4294967296 by decide)
  exact ⟨s, m, hr, run_jumpToUsermode kernelLayout_valid kernelLabels_valid (p := kernelProcessor m) hr rfl
    (kernelLayout_clear (by decide))⟩

end Loaded

end KevOS.Protection
