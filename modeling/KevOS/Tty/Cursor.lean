import KevOS.Lib.Crtc6845
import KevOS.Lib.Program
import KevOS.Tty.Window

namespace KevOS.Tty.Cursor

open Lib.Program Lib.Crtc6845 Screen Window Function

section Model

/-- The terminal, and the controller that its cursor is shown by. -/
structure Display where
  terminal : Terminal
  crtc : Crtc

def outb (port : ℕ) (value : UInt8) : Prog Display Unit := modify fun d ↦ { d with crtc := d.crtc.write port value }

def inb (port : ℕ) : Prog Display UInt8 := do
  let d ← get
  pure (d.crtc.read port)

def updateCursor : Prog Display Unit := do
  let d ← get
  let pos := UInt16.ofNat (d.terminal.terminalRow * vgaWidth + d.terminal.terminalColumn)
  outb 0x3D4 0x0F
  outb 0x3D5 (pos &&& 0xFF).toUInt8
  outb 0x3D4 0x0E
  outb 0x3D5 (pos >>> 8 &&& 0xFF).toUInt8

def enableCursor (cursorStart cursorEnd : UInt8) : Prog Display Unit := do
  outb 0x3D4 0x0A
  let lines ← inb 0x3D5
  outb 0x3D5 ((lines &&& 0xC0) ||| cursorStart)
  outb 0x3D4 0x0B
  let lines ← inb 0x3D5
  outb 0x3D5 ((lines &&& 0xE0) ||| cursorEnd)

def terminalInitialize : Prog Display Unit := do
  modify fun d ↦ { d with terminal := Tty.terminalInitialize d.terminal }
  enableCursor 0 15
  updateCursor

/-- Each path through `terminal_putchar_unlocked` ends with `update_cursor`. -/
def terminalPutcharUnlocked (c : UInt8) : Prog Display Unit := do
  modify fun d ↦ { d with terminal := Tty.terminalPutcharUnlocked c d.terminal }
  updateCursor

def terminalWrite : List UInt8 → Prog Display Unit
  | [] => pure ()
  | c :: data => do
    terminalPutcharUnlocked c
    terminalWrite data

def perform : List Action → Prog Display Unit
  | [] => pure ()
  | .print call :: actions => do
    terminalWrite call.bytes
    perform actions
  | .setColors fg bg :: actions => do
    modify fun d ↦ { d with terminal := terminalSetcolorColors fg bg d.terminal }
    perform actions

end Model

/-- The cursor is a block at the position of the terminal, and nothing else has been set up in the controller. -/
structure Follows (c : Crtc) (d : Display) : Prop where
  location : d.crtc.location = d.terminal.terminalRow * vgaWidth + d.terminal.terminalColumn
  scanLines : d.crtc.scanLines = some (0, 15)
  reserved : d.crtc.registers 0x0A &&& 0xC0 = c.registers 0x0A &&& 0xC0 ∧
    d.crtc.registers 0x0B &&& 0xE0 = c.registers 0x0B &&& 0xE0
  others : ∀ r ∉ [0x0A, 0x0B, 0x0E, 0x0F], d.crtc.registers r = c.registers r

variable {c : Crtc} {d : Display}

section Steps

theorem pos_bytes (n : ℕ) (hn : n < 65536) : (UInt16.ofNat n &&& 0xFF).toUInt8 = UInt8.ofNat n ∧
    (UInt16.ofNat n >>> 8 &&& 0xFF).toUInt8 = UInt8.ofNat (n / 256) := by
  have hmask (k : ℕ) : k &&& (0xFF : UInt16).toNat = k % 256 := Nat.and_two_pow_sub_one_eq_mod k 8
  have hshift (k : ℕ) : k >>> ((8 : UInt16).toNat % 16) = k / 256 := Nat.shiftRight_eq_div_pow k 8
  constructor
  · apply UInt8.toNat_inj.mp
    rw [UInt16.toNat_toUInt8, UInt16.toNat_and, UInt16.toNat_ofNat', UInt8.toNat_ofNat', hmask]
    omega
  · apply UInt8.toNat_inj.mp
    rw [UInt16.toNat_toUInt8, UInt16.toNat_and, UInt16.toNat_shiftRight, UInt16.toNat_ofNat', UInt8.toNat_ofNat',
      hmask, hshift]
    omega

/-- The first register of the shape: the cursor is on, from scan line 0. -/
theorem cursorStart_bits (v : UInt8) : ((v &&& 0xC0) ||| 0).toNat.testBit 5 = false ∧
    ((v &&& 0xC0) ||| 0).toNat % 32 = 0 ∧ ((v &&& 0xC0) ||| 0) &&& 0xC0 = v &&& 0xC0 := by
  have hbit : Nat.testBit 192 5 = false := by decide
  have hmod := @Nat.and_mod_two_pow v.toNat 192 5
  refine ⟨by simp [UInt8.toNat_and, Nat.testBit_and, hbit], by simpa [UInt8.toNat_and] using hmod, ?_⟩
  rw [UInt8.or_zero, UInt8.and_assoc, UInt8.and_self]

/-- The second register of the shape: up to scan line 15. -/
theorem cursorEnd_bits (v : UInt8) : ((v &&& 0xE0) ||| 15).toNat % 32 = 15 ∧
    ((v &&& 0xE0) ||| 15) &&& 0xE0 = v &&& 0xE0 := by
  have hand := @Nat.and_mod_two_pow v.toNat 224 5
  have hor := @Nat.or_mod_two_pow (v.toNat &&& 224) 15 5
  refine ⟨by simpa [UInt8.toNat_and, UInt8.toNat_or, hand] using hor, ?_⟩
  have hnone : (15 : UInt8).toNat &&& (0xE0 : UInt8).toNat = 0 := by decide
  apply UInt8.toNat_inj.mp
  rw [UInt8.toNat_and, UInt8.toNat_or, UInt8.toNat_and, Nat.and_or_distrib_right, Nat.and_assoc, Nat.and_self, hnone,
    Nat.or_zero]

theorem updateCursor_run (h : OnScreen d.terminal) : ∃ crtc, updateCursor.run d = .ok () ⟨d.terminal, crtc⟩ ∧
    crtc.location = d.terminal.terminalRow * vgaWidth + d.terminal.terminalColumn ∧
    ∀ r ∉ [0x0E, 0x0F], crtc.registers r = d.crtc.registers r := by
  generalize hn : d.terminal.terminalRow * vgaWidth + d.terminal.terminalColumn = n
  have hlt : n < 65536 := by
    have hcell := index_lt h.row h.column
    have hsize : vgaHeight * vgaWidth = 2000 := rfl
    omega
  obtain ⟨hlow, hhigh⟩ := pos_bytes n hlt
  have hrun : updateCursor.run d = .ok () ⟨d.terminal, (d.crtc.set 0x0F (UInt16.ofNat n &&& 0xFF).toUInt8).set 0x0E
      (UInt16.ofNat n >>> 8 &&& 0xFF).toUInt8⟩ := by
    rw [← hn]
    rfl
  rw [hlow, hhigh] at hrun
  refine ⟨_, hrun, location_set n hlt d.crtc, fun r hr ↦ ?_⟩
  simp only [List.mem_cons, List.not_mem_nil, or_false, not_or] at hr
  rw [set_registers_of_ne hr.1, set_registers_of_ne hr.2]

/-- Wherever the terminal has moved to, `update_cursor` has the cursor follow. -/
theorem Follows.updateCursor (h : d.crtc.scanLines = some (0, 15))
    (hreserved : d.crtc.registers 0x0A &&& 0xC0 = c.registers 0x0A &&& 0xC0 ∧
      d.crtc.registers 0x0B &&& 0xE0 = c.registers 0x0B &&& 0xE0)
    (hothers : ∀ r ∉ [0x0A, 0x0B, 0x0E, 0x0F], d.crtc.registers r = c.registers r) (hs : OnScreen d.terminal) :
    ∃ d', updateCursor.run d = .ok () d' ∧ d'.terminal = d.terminal ∧ Follows c d' := by
  obtain ⟨crtc, hrun, hlocation, hkept⟩ := updateCursor_run hs
  have hstart : crtc.registers 0x0A = d.crtc.registers 0x0A := hkept _ (by decide)
  have hend : crtc.registers 0x0B = d.crtc.registers 0x0B := hkept _ (by decide)
  refine ⟨_, hrun, rfl, hlocation, ?_, ?_, fun r hr ↦ ?_⟩
  · rw [← h, Crtc.scanLines, Crtc.scanLines, hstart, hend]
  · dsimp only
    rw [hstart, hend]
    exact hreserved
  · have hother := hothers r hr
    rw [← hother]
    apply hkept
    simp only [List.mem_cons, List.not_mem_nil, or_false, not_or] at hr ⊢
    exact hr.2.2

theorem terminalInitialize_follows (d : Display) : ∃ d', terminalInitialize.run d = .ok () d' ∧
    d'.terminal = Tty.terminalInitialize d.terminal ∧ Follows d.crtc d' := by
  let shaped : Crtc := (d.crtc.set 0x0A ((d.crtc.registers 0x0A &&& 0xC0) ||| 0)).set 0x0B
    ((d.crtc.registers 0x0B &&& 0xE0) ||| 15)
  have hstart : shaped.registers 0x0A = (d.crtc.registers 0x0A &&& 0xC0) ||| 0 :=
    (set_registers_of_ne (by decide) ..).trans (set_registers_self ..)
  have hend : shaped.registers 0x0B = (d.crtc.registers 0x0B &&& 0xE0) ||| 15 := set_registers_self ..
  obtain ⟨hon, hfirst, hkept⟩ := cursorStart_bits (d.crtc.registers 0x0A)
  obtain ⟨hlast, hkept'⟩ := cursorEnd_bits (d.crtc.registers 0x0B)
  have hlines : shaped.scanLines = some (0, 15) := by
    rw [Crtc.scanLines, hstart, hend, hon, hfirst, hlast]
    rfl
  have hothers : ∀ r ∉ [0x0A, 0x0B, 0x0E, 0x0F], shaped.registers r = d.crtc.registers r := by
    intro r hr
    simp only [List.mem_cons, List.not_mem_nil, or_false, not_or] at hr
    exact (set_registers_of_ne hr.2.1 ..).trans (set_registers_of_ne hr.1 ..)
  exact @Follows.updateCursor d.crtc ⟨Tty.terminalInitialize d.terminal, shaped⟩ hlines
    ⟨by dsimp only; rw [hstart, hkept], by dsimp only; rw [hend, hkept']⟩ hothers
    (terminalInitialize_inBounds d.terminal).toOnScreen

theorem terminalWrite_follows (h : Follows c d) (hs : InBounds d.terminal) (bytes : List UInt8) :
    ∃ d', (terminalWrite bytes).run d = .ok () d' ∧ d'.terminal = Tty.terminalWrite bytes d.terminal ∧ Follows c d' := by
  induction bytes generalizing d with
  | nil => exact ⟨d, rfl, rfl, h⟩
  | cons b bytes ih =>
    have hs' := terminalPutcharUnlocked_inBounds b hs
    obtain ⟨d₁, hrun, hterminal, hfollows⟩ := @Follows.updateCursor c
      ⟨Tty.terminalPutcharUnlocked b d.terminal, d.crtc⟩ h.scanLines h.reserved h.others hs'.toOnScreen
    dsimp only at hterminal
    rw [← hterminal] at hs'
    obtain ⟨d', hrest, hterminal', hfollows'⟩ := ih hfollows hs'
    have hfirst : (terminalPutcharUnlocked b).run d = .ok () d₁ := hrun
    refine ⟨d', (run_bind_ok hfirst).trans hrest, ?_, hfollows'⟩
    rw [hterminal', hterminal]
    rfl

theorem perform_follows (h : Follows c d) (hs : InBounds d.terminal) (actions : List Action) :
    ∃ d', (perform actions).run d = .ok () d' ∧ d'.terminal = actions.foldl Action.run d.terminal ∧ Follows c d' ∧
      InBounds d'.terminal := by
  induction actions generalizing d with
  | nil => exact ⟨d, rfl, rfl, h, hs⟩
  | cons a actions ih =>
    cases a with
    | print call =>
      obtain ⟨d₁, hrun, hterminal, hfollows⟩ := terminalWrite_follows h hs call.bytes
      have hs₁ : InBounds d₁.terminal := by
        rw [hterminal]
        exact terminalWrite_inBounds hs call.bytes
      obtain ⟨d', hrest, hterminal', hfollows'⟩ := ih hfollows hs₁
      have hcall : Tty.terminalWrite call.bytes d.terminal = call.run d.terminal := by cases call <;> rfl
      refine ⟨d', (run_bind_ok hrun).trans hrest, ?_, hfollows'⟩
      rw [hterminal', hterminal, hcall]
      rfl
    | setColors fg bg =>
      exact @ih ⟨terminalSetcolorColors fg bg d.terminal, d.crtc⟩ ⟨h.location, h.scanLines, h.reserved, h.others⟩
        ⟨⟨hs.row, hs.column⟩, hs.written⟩

end Steps

/-- After `terminal_initialize`, and after any calls of the terminal that follow, the cursor of the VGA is a block at
the cell that the next character goes to, which is on the screen. No other register of its controller is changed. -/
theorem cursor_follows (d : Display) (actions : List Action) :
    ∃ d', (do terminalInitialize; perform actions).run d = .ok () d' ∧
      d'.terminal = actions.foldl Action.run (Tty.terminalInitialize d.terminal) ∧ OnScreen d'.terminal ∧
      Follows d.crtc d' := by
  obtain ⟨d₁, hrun, hterminal, hfollows⟩ := terminalInitialize_follows d
  have hs : InBounds d₁.terminal := by
    rw [hterminal]
    exact terminalInitialize_inBounds d.terminal
  obtain ⟨d', hrest, hterminal', hfollows', hs'⟩ := perform_follows hfollows hs actions
  refine ⟨d', (run_bind_ok hrun).trans hrest, ?_, hs'.toOnScreen, hfollows'⟩
  rw [hterminal', hterminal]

end KevOS.Tty.Cursor
