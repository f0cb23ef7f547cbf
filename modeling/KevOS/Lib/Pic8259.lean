import KevOS.Lib.Controllers
import Mathlib.Order.Fin.Basic

namespace KevOS.Lib.Pic8259

open Controllers Function

/-- The word that the data port takes next. -/
inductive Phase
  | ready
  | icw2
  | icw3
  | icw4
  deriving DecidableEq, Repr

/-- A controller: its initialisation, and its request, in-service and mask registers. -/
structure Chip where
  phase : Phase
  single : Bool
  wantsIcw4 : Bool
  base : UInt8
  cascade : UInt8
  mode : UInt8
  mask : UInt8
  requests : Finset (Fin 8)
  inService : Finset (Fin 8)
  deriving DecidableEq

/-- Of the commands other than an initialisation only the non-specific end of interrupt is there. -/
def Chip.writeCommand (c : Chip) (v : UInt8) : Chip :=
  if v &&& 0x10 ≠ 0 then
    { c with
      phase := .icw2
      single := v &&& 0x02 ≠ 0
      wantsIcw4 := v &&& 0x01 ≠ 0
      mode := if v &&& 0x01 ≠ 0 then c.mode else 0
      mask := 0 }
  else if v &&& 0xF8 = 0x20 then { c with inService := clearHighest c.inService }
  else c

def Chip.writeData (c : Chip) (v : UInt8) : Chip :=
  let last := if c.wantsIcw4 then Phase.icw4 else .ready
  match c.phase with
  | .ready => { c with mask := v }
  | .icw2 => { c with base := v &&& 0xF8, phase := if c.single then last else .icw3 }
  | .icw3 => { c with cascade := v, phase := last }
  | .icw4 => { c with mode := v, phase := .ready }

def Chip.readData (c : Chip) : UInt8 := c.mask

/-- The lines that are not masked, and of a higher priority than all that are in service. -/
def Chip.pending (c : Chip) : Finset (Fin 8) :=
  c.requests.filter fun i ↦ c.mask.toNat.testBit i = false ∧ ∀ j ∈ c.inService, i < j

/-- The answer of a controller to the processor: the line, whether the request has gone away in the
meantime, and its state afterwards. -/
def Chip.acknowledge (c : Chip) : Fin 8 × Bool × Chip :=
  if h : c.pending.Nonempty then
    let i := c.pending.min' h
    (i, false, { c with requests := c.requests.erase i, inService := insert i c.inService })
  else (Fin.last 7, true, c)

/-- The vector of a line. -/
def Chip.vector (c : Chip) (i : Fin 8) : ℕ := c.base.toNat + i

/-- A master with one slave. -/
structure Pair where
  master : Chip
  slave : Chip
  deriving DecidableEq

/-- For a line with a slave the slave with the number of the line answers, if there is one. -/
def Pair.acknowledge (p : Pair) : Option (ℕ × Pair) :=
  match p.master.acknowledge with
  | (i, spurious, master) =>
    if spurious = false ∧ master.cascade.toNat.testBit i then
      if p.slave.cascade.toNat % 8 = i then
        match p.slave.acknowledge with
        | (j, _, slave) => some (p.slave.vector j, ⟨master, slave⟩)
      else none
    else some (master.vector i, ⟨master, p.slave⟩)

section Acknowledge

variable {c : Chip} {i : Fin 8} {spurious : Bool} {c' : Chip}

/-- The registers that the processor programs stay as they are. -/
structure Chip.SameSetup (c c' : Chip) : Prop where
  phase : c'.phase = c.phase
  base : c'.base = c.base
  cascade : c'.cascade = c.cascade
  mode : c'.mode = c.mode
  mask : c'.mask = c.mask

theorem acknowledge_cases (h : c.acknowledge = (i, spurious, c')) : c.SameSetup c' ∧
    ((spurious = false ∧ i ∈ c.pending ∧ c'.inService = insert i c.inService) ∨
      (spurious = true ∧ i = 7 ∧ c'.inService = c.inService)) := by
  unfold Chip.acknowledge at h
  split_ifs at h with hpending
  · cases h
    exact ⟨⟨rfl, rfl, rfl, rfl, rfl⟩, .inl ⟨rfl, c.pending.min'_mem hpending, rfl⟩⟩
  · cases h
    exact ⟨⟨rfl, rfl, rfl, rfl, rfl⟩, .inr ⟨rfl, rfl, rfl⟩⟩

end Acknowledge

end KevOS.Lib.Pic8259
