import Mathlib.Logic.Function.Basic
import Mathlib.Data.Nat.Notation

namespace KevOS.Lib.Crtc6845

open Function

/-- The CRT controller of a VGA: its registers, and the one that the data port stands for. The write protection of
the registers 0 to 7 is left out. -/
structure Crtc where
  index : UInt8
  registers : UInt8 → UInt8

def indexPort : ℕ := 0x3D4

def dataPort : ℕ := 0x3D5

def Crtc.write (port : ℕ) (value : UInt8) (c : Crtc) : Crtc :=
  if port = indexPort then { c with index := value }
  else if port = dataPort then { c with registers := update c.registers c.index value }
  else c

def Crtc.read (port : ℕ) (c : Crtc) : UInt8 :=
  if port = indexPort then c.index else if port = dataPort then c.registers c.index else 0xFF

/-- The cell that the cursor is shown at. -/
def Crtc.location (c : Crtc) : ℕ := 256 * (c.registers 0x0E).toNat + (c.registers 0x0F).toNat

/-- The scan lines that the cursor covers, unless it is off. -/
def Crtc.scanLines (c : Crtc) : Option (ℕ × ℕ) :=
  if (c.registers 0x0A).toNat.testBit 5 then none
  else some ((c.registers 0x0A).toNat % 32, (c.registers 0x0B).toNat % 32)

/-- Choose a register and store to it. -/
def Crtc.set (r v : UInt8) (c : Crtc) : Crtc := ⟨r, update c.registers r v⟩

@[simp] theorem set_registers_self (r v : UInt8) (c : Crtc) : (c.set r v).registers r = v := update_self ..

theorem set_registers_of_ne {r r' : UInt8} (h : r' ≠ r) (v : UInt8) (c : Crtc) :
    (c.set r v).registers r' = c.registers r' := update_of_ne h ..

/-- A position is stored low byte first. -/
theorem location_set (n : ℕ) (h : n < 65536) (c : Crtc) :
    ((c.set 0x0F (UInt8.ofNat n)).set 0x0E (UInt8.ofNat (n / 256))).location = n := by
  have hlow : ((c.set 0x0F (UInt8.ofNat n)).set 0x0E (UInt8.ofNat (n / 256))).registers 0x0F = UInt8.ofNat n := by
    rw [set_registers_of_ne (by decide), set_registers_self]
  rw [Crtc.location, set_registers_self, hlow, UInt8.toNat_ofNat', UInt8.toNat_ofNat']
  omega

end KevOS.Lib.Crtc6845
