import KevOS.Interrupts.Model
import KevOS.Lib.Pic8259
import KevOS.Lib.Program

namespace KevOS.Interrupts.Remap

open Lib.Controllers Lib.Pic8259 Lib.Program Function

section Ports

def pic1Command : ℕ := 0x20

def pic1Data : ℕ := 0x21

def pic2Command : ℕ := 0xA0

def pic2Data : ℕ := 0xA1

/-- Nothing answers at the other ports. -/
def outb (port : ℕ) (value : UInt8) : Prog Pair Unit :=
  modify fun p ↦
    if port = pic1Command then { p with master := p.master.writeCommand value }
    else if port = pic1Data then { p with master := p.master.writeData value }
    else if port = pic2Command then { p with slave := p.slave.writeCommand value }
    else if port = pic2Data then { p with slave := p.slave.writeData value }
    else p

def inb (port : ℕ) : Prog Pair UInt8 := do
  let p ← get
  pure (if port = pic1Data then p.master.readData else if port = pic2Data then p.slave.readData else 0xFF)

def ioWait : Prog Pair Unit := outb 0x80 0

end Ports

def icw1Icw4 : UInt8 := 0x01

def icw1Init : UInt8 := 0x10

def icw48086 : UInt8 := 0x01

/-- The offsets are passed on as bytes. -/
def picRemap (offset1 offset2 : ℤ) : Prog Pair Unit := do
  let a1 ← inb pic1Data
  let a2 ← inb pic2Data
  outb pic1Command (icw1Init ||| icw1Icw4)
  ioWait
  outb pic2Command (icw1Init ||| icw1Icw4)
  ioWait
  outb pic1Data (UInt8.ofInt offset1)
  ioWait
  outb pic2Data (UInt8.ofInt offset2)
  ioWait
  outb pic1Data 4
  ioWait
  outb pic2Data 2
  ioWait
  outb pic1Data icw48086
  ioWait
  outb pic2Data icw48086
  ioWait
  outb pic1Data a1
  outb pic2Data a2

/-- `pic_eoi` with the writes that it makes. -/
def sendEoi (irq : UInt8) : Prog Pair Unit := do
  if irq ≥ 8 then outb pic2Command 0x20
  outb pic1Command 0x20

/-- A controller that is initialised as one of two, with the vectors from `base` on. -/
structure Programmed (base cascade mask : UInt8) (c : Chip) : Prop where
  phase : c.phase = .ready
  base : c.base = base
  cascade : c.cascade = cascade
  mode : c.mode = 1
  mask : c.mask = mask

def lines (p : Pair) : Lines
  | .master => p.master.inService
  | .slave => p.slave.inService

/-- The line of the master that the slave passes its requests on by. -/
def slaveLine : Fin 8 := ⟨2, by decide⟩

theorem sub_eight_lt {line : Fin 16} (h : ¬ line.val < 8) : line.val - 8 < 8 := by omega

/-- A device raises its line. -/
def request (line : Fin 16) (p : Pair) : Pair :=
  if h : line.val < 8 then
    { p with master := { p.master with requests := insert ⟨line, h⟩ p.master.requests } }
  else
    { master := { p.master with requests := insert slaveLine p.master.requests }
      slave := { p.slave with requests := insert ⟨line - 8, sub_eight_lt h⟩ p.slave.requests } }

/-- The controllers since `kernel_main` has called `pic_remap`, with the masks that it found. -/
inductive Run (mask1 mask2 : UInt8) : Pair → Prop
  | start {p p' : Pair} : p.master.mask = mask1 → p.slave.mask = mask2 →
      (picRemap 0x20 0x28).run p = .ok () p' → Run mask1 mask2 p'
  | request {p : Pair} (line : Fin 16) : Run mask1 mask2 p → Run mask1 mask2 (request line p)
  | acknowledge {p p' : Pair} {n : ℕ} : Run mask1 mask2 p → p.acknowledge = some (n, p') → Run mask1 mask2 p'
  | eoi {p p' : Pair} (irq : UInt8) : Run mask1 mask2 p → (sendEoi irq).run p = .ok () p' → Run mask1 mask2 p'

variable {p p' : Pair} {c c' : Chip} {base cascade mask mask1 mask2 : UInt8}

section Steps

/-- Whatever the controllers were doing, they are initialised, with the masks that they had. -/
theorem picRemap_programs (p : Pair) (offset1 offset2 : ℤ) : ∃ p', (picRemap offset1 offset2).run p = .ok () p' ∧
    Programmed (UInt8.ofInt offset1 &&& 0xF8) 4 p.master.mask p'.master ∧
    Programmed (UInt8.ofInt offset2 &&& 0xF8) 2 p.slave.mask p'.slave :=
  ⟨_, rfl, ⟨rfl, rfl, rfl, rfl, rfl⟩, ⟨rfl, rfl, rfl, rfl, rfl⟩⟩

theorem Programmed.sameSetup (h : Programmed base cascade mask c) (hc : c.SameSetup c') :
    Programmed base cascade mask c' where
  phase := hc.phase.trans h.phase
  base := hc.base.trans h.base
  cascade := hc.cascade.trans h.cascade
  mode := hc.mode.trans h.mode
  mask := hc.mask.trans h.mask

theorem sendEoi_eq (irq : UInt8) (p : Pair) : (sendEoi irq).run p = .ok ()
    { master := { p.master with inService := clearHighest p.master.inService }
      slave := if irq ≥ 8 then { p.slave with inService := clearHighest p.slave.inService } else p.slave } := by
  unfold sendEoi
  split_ifs with h
  · rfl
  · rfl

/-- Both controllers are programmed. -/
structure Inv (mask1 mask2 : UInt8) (p : Pair) : Prop where
  master : Programmed 0x20 4 mask1 p.master
  slave : Programmed 0x28 2 mask2 p.slave

theorem acknowledge_sameSetup {n : ℕ} (h : p.acknowledge = some (n, p')) :
    p.master.SameSetup p'.master ∧ p.slave.SameSetup p'.slave := by
  unfold Pair.acknowledge at h
  rcases hm : p.master.acknowledge with ⟨i, spurious, master⟩
  have hmaster := (acknowledge_cases hm).1
  simp only [hm] at h
  split_ifs at h
  · rcases hs : p.slave.acknowledge with ⟨j, spurious', slave⟩
    simp only [hs, Option.some.injEq, Prod.mk.injEq] at h
    obtain ⟨-, rfl⟩ := h
    exact ⟨hmaster, (acknowledge_cases hs).1⟩
  · simp only [Option.some.injEq, Prod.mk.injEq] at h
    obtain ⟨-, rfl⟩ := h
    exact ⟨hmaster, ⟨rfl, rfl, rfl, rfl, rfl⟩⟩

theorem run_inv (hr : Run mask1 mask2 p) : Inv mask1 mask2 p := by
  induction hr with
  | @start p p' h1 h2 hrun =>
    obtain ⟨p'', hok, hmaster, hslave⟩ := picRemap_programs p 0x20 0x28
    rw [hok] at hrun
    cases hrun
    rw [h1] at hmaster
    rw [h2] at hslave
    exact ⟨hmaster, hslave⟩
  | request line _ ih =>
    unfold request
    split_ifs
    · exact ⟨ih.master.sameSetup ⟨rfl, rfl, rfl, rfl, rfl⟩, ih.slave⟩
    · exact ⟨ih.master.sameSetup ⟨rfl, rfl, rfl, rfl, rfl⟩, ih.slave.sameSetup ⟨rfl, rfl, rfl, rfl, rfl⟩⟩
  | acknowledge _ hack ih =>
    obtain ⟨hmaster, hslave⟩ := acknowledge_sameSetup hack
    exact ⟨ih.master.sameSetup hmaster, ih.slave.sameSetup hslave⟩
  | eoi irq _ hrun ih =>
    rw [sendEoi_eq] at hrun
    cases hrun
    refine ⟨ih.master.sameSetup ⟨rfl, rfl, rfl, rfl, rfl⟩, ?_⟩
    dsimp only
    split_ifs
    · exact ih.slave.sameSetup ⟨rfl, rfl, rfl, rfl, rfl⟩
    · exact ih.slave

end Steps

section Refinement

/-- Line 2 is the only one with a slave. -/
theorem cascade_iff (i : Fin 8) : (4 : UInt8).toNat.testBit i = true ↔ i = 2 := by
  revert i
  decide

theorem Inv.acknowledge (h : Inv mask1 mask2 p) : ∃ (irq : Fin 16) (spurious : Bool) (p' : Pair),
    p.acknowledge = some (32 + irq.val, p') ∧ irq ≠ 2 ∧ lines p' = accept irq spurious (lines p) ∧
      (spurious = false → if irq.val < 8 then mask1.toNat.testBit irq = false
        else mask1.toNat.testBit 2 = false ∧ mask2.toNat.testBit (irq - 8) = false) := by
  have hmask {c : Chip} {i : Fin 8} (hi : i ∈ c.pending) : c.mask.toNat.testBit i = false :=
    (Finset.mem_filter.mp hi).2.1
  unfold Pair.acknowledge
  rcases hm : p.master.acknowledge with ⟨i, spurious, master⟩
  obtain ⟨hsetup, hmaster⟩ := acknowledge_cases hm
  simp only [hsetup.cascade, h.master.cascade, cascade_iff]
  rcases hmaster with ⟨rfl, hpending, hservice⟩ | ⟨rfl, rfl, hservice⟩
  · have hmask1 := hmask hpending
    rw [h.master.mask] at hmask1
    by_cases hi : i = 2
    · subst hi
      rcases hs : p.slave.acknowledge with ⟨j, spurious', slave⟩
      obtain ⟨-, hslave⟩ := acknowledge_cases hs
      have hid : p.slave.cascade.toNat % 8 = (2 : Fin 8).val := by
        rw [h.slave.cascade]
        rfl
      have hvector : p.slave.vector j = 32 + (8 + j.val) := by
        rw [Chip.vector, h.slave.base]
        exact Nat.add_assoc 32 8 j
      have hlt : ¬ 8 + j.val < 8 := by omega
      have hsub : 8 + j.val - 8 = j.val := Nat.add_sub_cancel_left 8 j
      refine ⟨⟨8 + j, by omega⟩, spurious', ⟨master, slave⟩, ?_, ?_, ?_, ?_⟩
      · simp only [and_self, if_true, hid, hvector]
      · intro heq
        have hval : 8 + j.val = 2 := congrArg Fin.val heq
        omega
      · funext c
        unfold accept
        rw [dif_neg hlt]
        rcases hslave with ⟨rfl, -, hservice'⟩ | ⟨rfl, -, hservice'⟩
        · cases c with
          | master => simp [lines, hservice]
          | slave => simp [lines, hservice']
        · cases c with
          | master => simp [lines, hservice]
          | slave => simp [lines, hservice']
      · intro hreal
        rcases hslave with ⟨-, hpending', -⟩ | ⟨htrue, -, -⟩
        · have hmask2 := hmask hpending'
          rw [h.slave.mask] at hmask2
          rw [if_neg hlt]
          dsimp only
          rw [hsub]
          exact ⟨hmask1, hmask2⟩
        · rw [hreal] at htrue
          contradiction
    · have hvector : master.vector i = 32 + i.val := by
        rw [Chip.vector, hsetup.base, h.master.base]
        rfl
      refine ⟨⟨i, by omega⟩, false, ⟨master, p.slave⟩, ?_, ?_, ?_, fun _ ↦ ?_⟩
      · simp only [hi, and_false, if_false, hvector]
      · intro heq
        have hval : i.val = 2 := congrArg Fin.val heq
        exact hi (Fin.ext hval)
      · funext c
        unfold accept
        rw [dif_pos i.isLt]
        cases c with
        | master => simp [lines, hservice]
        | slave => simp [lines]
      · rw [if_pos i.isLt]
        exact hmask1
  · have hvector : master.vector 7 = 32 + 7 := by
      rw [Chip.vector, hsetup.base, h.master.base]
      rfl
    refine ⟨7, true, ⟨master, p.slave⟩, ?_, by decide, ?_, nofun⟩
    · simp [hvector]
    · funext c
      cases c with
      | master => exact hservice
      | slave => rfl

theorem eoi_lines (irq : Fin 16) : ∃ p', (sendEoi (UInt8.ofNat irq)).run p = .ok () p' ∧
    lines p' = (picEoi irq).foldl (fun l c ↦ endOfInterrupt c l) (lines p) := by
  refine ⟨_, sendEoi_eq _ p, ?_⟩
  have hge : UInt8.ofNat irq ≥ 8 ↔ 8 ≤ irq.val := by
    rw [ge_iff_le, UInt8.le_iff_toNat_le, UInt8.toNat_ofNat', Nat.mod_eq_of_lt (show irq.val < 2 ^ 8 by omega)]
    rfl
  funext c
  unfold picEoi
  by_cases h : 8 ≤ irq.val
  · simp only [if_pos h, if_pos (hge.mpr h)]
    cases c <;> simp [lines, endOfInterrupt, update]
  · simp only [if_neg h, if_neg (fun hle ↦ h (hge.mp hle))]
    cases c <;> simp [lines, endOfInterrupt, update]

/-- The controllers that `pic_remap` programs behave as the registers that the rest of the kernel is
modelled with: an interrupt gets a vector of 32 to 47, other than 34, and its line is one that was not
masked unless it is spurious. `pic_eoi` clears what it should. -/
theorem run_refines (hr : Run mask1 mask2 p) :
    (∃ (irq : Fin 16) (spurious : Bool) (p' : Pair), p.acknowledge = some (32 + irq.val, p') ∧ irq ≠ 2 ∧
      lines p' = accept irq spurious (lines p) ∧
      (spurious = false → if irq.val < 8 then mask1.toNat.testBit irq = false
        else mask1.toNat.testBit 2 = false ∧ mask2.toNat.testBit (irq - 8) = false)) ∧
    ∀ irq : Fin 16, ∃ p', (sendEoi (UInt8.ofNat irq)).run p = .ok () p' ∧
      lines p' = (picEoi irq).foldl (fun l c ↦ endOfInterrupt c l) (lines p) :=
  ⟨(run_inv hr).acknowledge, fun irq ↦ eoi_lines irq⟩

/-- The controllers as a BIOS leaves them behind, with lines 0, 1 and 2 of the master enabled and
line 6 of the slave, that of the disk. -/
def biosPair : Pair where
  master := ⟨.ready, false, true, 0x08, 4, 1, 0xF8, ∅, ∅⟩
  slave := ⟨.ready, false, true, 0x70, 2, 1, 0xBF, ∅, ∅⟩

def remappedPair : Pair where
  master := ⟨.ready, false, true, 0x20, 4, 1, 0xF8, ∅, ∅⟩
  slave := ⟨.ready, false, true, 0x28, 2, 1, 0xBF, ∅, ∅⟩

theorem run_remappedPair : Run 0xF8 0xBF remappedPair := .start (p := biosPair) rfl rfl rfl

/-- The disk's interrupt is acknowledged and ended. -/
theorem run_refines_bios : ∃ p₁ p₂ : Pair, (request 14 remappedPair).acknowledge = some (46, p₁) ∧
    lines p₁ .master = {2} ∧ lines p₁ .slave = {6} ∧
    (sendEoi 14).run p₁ = .ok () p₂ ∧ lines p₂ .master = ∅ ∧ lines p₂ .slave = ∅ := by
  have hr := run_remappedPair.request 14
  obtain ⟨⟨irq, spurious, p₁, hack, -, hlines, -⟩, -⟩ := run_refines hr
  have hfound : (request 14 remappedPair).acknowledge.map (fun r ↦ (r.1, lines r.2 .slave)) = some (46, {6}) := by
    decide
  rw [hack, Option.map_some, Option.some.injEq, Prod.mk.injEq] at hfound
  obtain ⟨hvector, hslave⟩ := hfound
  obtain rfl : irq = 14 := Fin.ext (Nat.add_left_cancel hvector)
  obtain ⟨-, heoi⟩ := run_refines (hr.acknowledge hack)
  obtain ⟨p₂, hrun, hlines₂⟩ := heoi 14
  cases spurious with
  | true =>
    rw [hlines] at hslave
    exact absurd hslave (by decide)
  | false =>
    refine ⟨p₁, p₂, hack, ?_, hslave, hrun, ?_, ?_⟩
    · rw [hlines]
      decide
    · rw [hlines₂, hlines]
      decide
    · rw [hlines₂, hlines]
      decide

end Refinement

end KevOS.Interrupts.Remap
