import KevOS.Lib.ByteMemory
import Mathlib.Algebra.GroupWithZero.Nat

namespace KevOS.Lib.Privilege

open ByteMemory Function

section Halves

/-- A little-endian 16-bit word. -/
def half (m : Bytes) (a : ℕ) : ℕ := (m a).toNat + 256 * (m (a + 1)).toNat

def setHalf (m : Bytes) (a v : ℕ) : Bytes :=
  update (update m a (UInt8.ofNat v)) (a + 1) (UInt8.ofNat (v / 256))

variable {m m' : Bytes} {a b v : ℕ}

theorem setHalf_of_ne (h : b < a ∨ a + 2 ≤ b) : setHalf m a v b = m b := by
  unfold setHalf
  rw [update_of_ne (by omega), update_of_ne (by omega)]

theorem half_setHalf_self (hv : v < 65536) : half (setHalf m a v) a = v := by
  have h₀ : setHalf m a v a = UInt8.ofNat v := by
    unfold setHalf
    rw [update_of_ne (by omega), update_self]
  have h₁ : setHalf m a v (a + 1) = UInt8.ofNat (v / 256) := update_self ..
  unfold half
  rw [h₀, h₁]
  simp only [UInt8.toNat_ofNat']
  omega

theorem half_congr (h : ∀ b, a ≤ b → b < a + 2 → m' b = m b) : half m' a = half m a := by
  unfold half
  rw [h a (by omega) (by omega), h (a + 1) (by omega) (by omega)]

theorem word_eq_half (m : Bytes) (a : ℕ) : word m a = half m a + 65536 * half m (a + 2) := by
  unfold word half
  rw [show a + 2 + 1 = a + 3 from rfl]
  omega

end Halves

section Formats

/-- The access byte and the four flags hold what the base and the limit leave of a descriptor. -/
structure Segment where
  base : ℕ
  limit : ℕ
  access : ℕ
  flags : ℕ
  deriving DecidableEq, Repr

structure Gate where
  offset : ℕ
  selector : ℕ
  access : ℕ
  deriving DecidableEq, Repr

def Segment.ofWords (low high : ℕ) : Segment where
  base := low / 65536 + high % 256 * 65536 + high / 16777216 * 16777216
  limit := low % 65536 + high / 65536 % 16 * 65536
  access := high / 256 % 256
  flags := high / 1048576 % 16

def Gate.ofWords (low high : ℕ) : Gate where
  offset := low % 65536 + high / 65536 * 65536
  selector := low / 65536
  access := high / 256 % 256

/-- The offset of the last byte: the limit counts bytes or pages. -/
def Segment.last (s : Segment) : ℕ :=
  if s.flags / 8 = 1 then s.limit * 4096 + 4095 else s.limit

def present (access : ℕ) : Bool := access / 128 % 2 = 1

def dpl (access : ℕ) : ℕ := access / 32 % 4

/-- The bit that tells code and data from the segments and gates of the system, and the type. -/
def kind (access : ℕ) : ℕ := access % 32

def isCode (access : ℕ) : Bool := 24 ≤ kind access

def conforming (access : ℕ) : Bool := isCode access ∧ access / 4 % 2 = 1

/-- Data, or code that may be read. -/
def readable (access : ℕ) : Bool := 16 ≤ kind access ∧ (kind access < 24 ∨ access / 2 % 2 = 1)

def writable (access : ℕ) : Bool := 16 ≤ kind access ∧ kind access < 24 ∧ access / 2 % 2 = 1

def availableTss : ℕ := 9

def interruptGate : ℕ := 14

def trapGate : ℕ := 15

end Formats

/-- The base and the limit of a table or of the task state segment. -/
structure Table where
  base : ℕ
  limit : ℕ
  deriving DecidableEq, Repr

/-- The registers of the processor that say where its tables are. -/
structure System where
  gdtr : Table
  idtr : Table
  tr : ℕ
  tss : Table
  deriving DecidableEq, Repr

/-- An exception with its error code, or a descriptor of a kind that is left out here: task gates,
and gates and task state segments of 16 bits. -/
inductive Refusal
  | fault (vector code : ℕ)
  | leftOut
  deriving DecidableEq, Repr

def Table.entry? (t : Table) (m : Bytes) (i : ℕ) : Option (ℕ × ℕ) :=
  if 8 * i + 7 ≤ t.limit then some (word m (t.base + 8 * i), word m (t.base + 8 * i + 4)) else none

/-- There is no local descriptor table. -/
def System.segment? (s : System) (m : Bytes) (selector : ℕ) : Option Segment :=
  if selector / 4 % 2 = 1 then none
  else (s.gdtr.entry? m (selector / 8)).map fun d ↦ .ofWords d.1 d.2

def generalProtection (code : ℕ) : Refusal := .fault 13 code

def segmentNotPresent (code : ℕ) : Refusal := .fault 11 code

/-- The error code that names a selector. -/
def codeOf (selector ext : ℕ) : ℕ := selector / 4 * 4 + ext

section Segments

variable (s : System) (m : Bytes) (cpl : ℕ)

/-- `mov` to one of the four data segment registers. -/
def loadData (selector : ℕ) : Except Refusal Unit :=
  if selector < 4 then .ok ()
  else
    match s.segment? m selector with
    | none => .error (generalProtection (codeOf selector 0))
    | some d =>
      if ¬ readable d.access ∨
          (¬ conforming d.access ∧ (dpl d.access < selector % 4 ∨ dpl d.access < cpl)) then
        .error (generalProtection (codeOf selector 0))
      else if ¬ present d.access then .error (segmentNotPresent (codeOf selector 0))
      else .ok ()

/-- What a stack segment for the privilege level `level` has to be. The exception `bad` is raised when
it is not. -/
def stackSegment (level selector ext : ℕ) (bad : ℕ → Refusal) : Except Refusal Unit :=
  if selector < 4 then .error (bad ext)
  else
    match s.segment? m selector with
    | none => .error (bad (codeOf selector ext))
    | some d =>
      if selector % 4 ≠ level ∨ dpl d.access ≠ level ∨ ¬ writable d.access then
        .error (bad (codeOf selector ext))
      else if ¬ present d.access then .error (.fault 12 (codeOf selector ext))
      else .ok ()

/-- `mov` to the stack segment register. -/
def loadStack (selector : ℕ) : Except Refusal Unit :=
  stackSegment s m cpl selector 0 generalProtection

/-- `ljmp`. -/
def farJump (selector offset : ℕ) : Except Refusal Unit :=
  if selector < 4 then .error (generalProtection 0)
  else
    match s.segment? m selector with
    | none => .error (generalProtection (codeOf selector 0))
    | some d =>
      if ¬ isCode d.access ∨ (conforming d.access ∧ cpl < dpl d.access) ∨
          (¬ conforming d.access ∧ (cpl < selector % 4 ∨ dpl d.access ≠ cpl)) then
        .error (generalProtection (codeOf selector 0))
      else if ¬ present d.access then .error (segmentNotPresent (codeOf selector 0))
      else if d.last < offset then .error (generalProtection 0)
      else .ok ()

/-- `ltr`. The descriptor is marked busy. -/
def loadTask (selector : ℕ) : Except Refusal (System × Bytes) :=
  if selector < 4 then .error (generalProtection 0)
  else
    match s.segment? m selector with
    | none => .error (generalProtection (codeOf selector 0))
    | some d =>
      if kind d.access = 1 then .error .leftOut
      else if kind d.access ≠ availableTss then .error (generalProtection (codeOf selector 0))
      else if ¬ present d.access then .error (segmentNotPresent (codeOf selector 0))
      else
        let a := s.gdtr.base + selector / 8 * 8 + 5
        .ok ({ s with tr := selector, tss := ⟨d.base, d.last⟩ }, update m a (m a ||| 2))

end Segments

/-- Where an interrupt enters: the code, its privilege level, the stack if it is another one, and
whether interrupts are disabled on the way. -/
structure Entry where
  cs : ℕ
  eip : ℕ
  level : ℕ
  stack : Option (ℕ × ℕ)
  disables : Bool
  deriving DecidableEq, Repr

section Interrupts

variable (s : System) (m : Bytes) (cpl : ℕ)

/-- The stack that the task state segment has for the privilege level `level`. Whether there is room
on it is not checked here. -/
def innerStack (level ext : ℕ) : Except Refusal (ℕ × ℕ) :=
  if s.tss.limit < 8 * level + 9 then .error (.fault 10 (codeOf s.tr ext))
  else
    let esp := word m (s.tss.base + (8 * level + 4))
    let ss := half m (s.tss.base + (8 * level + 8))
    match stackSegment s m level ss ext (.fault 10) with
    | .error e => .error e
    | .ok _ => .ok (ss, esp)

/-- The code segment of a gate, entered at `offset`. -/
def enter (g : Gate) (ext : ℕ) : Except Refusal Entry :=
  if g.selector < 4 then .error (generalProtection ext)
  else
    match s.segment? m g.selector with
    | none => .error (generalProtection (codeOf g.selector ext))
    | some d =>
      if ¬ isCode d.access ∨ cpl < dpl d.access then
        .error (generalProtection (codeOf g.selector ext))
      else if ¬ present d.access then .error (segmentNotPresent (codeOf g.selector ext))
      else
        let disables := decide (kind g.access = interruptGate)
        if conforming d.access ∨ dpl d.access = cpl then
          if d.last < g.offset then .error (generalProtection ext)
          else .ok ⟨g.selector / 4 * 4 + cpl, g.offset, cpl, none, disables⟩
        else
          match innerStack s m (dpl d.access) ext with
          | .error e => .error e
          | .ok stack =>
            if d.last < g.offset then .error (generalProtection ext)
            else .ok ⟨g.selector / 4 * 4 + dpl d.access, g.offset, dpl d.access, some stack, disables⟩

/-- The interrupt `n`, by an `int` instruction (`software`), an exception or a device. -/
def deliver (software : Bool) (n : ℕ) : Except Refusal Entry :=
  let ext := if software then 0 else 1
  match s.idtr.entry? m n with
  | none => .error (generalProtection (8 * n + 2 + ext))
  | some (low, high) =>
    let g := Gate.ofWords low high
    if kind g.access = 5 ∨ kind g.access = 6 ∨ kind g.access = 7 then .error .leftOut
    else if kind g.access ≠ interruptGate ∧ kind g.access ≠ trapGate then
      .error (generalProtection (8 * n + 2 + ext))
    else if software ∧ dpl g.access < cpl then .error (generalProtection (8 * n + 2 + ext))
    else if ¬ present g.access then .error (segmentNotPresent (8 * n + 2 + ext))
    else enter s m cpl g ext

/-- The privilege level that `iret` returns to, from the selectors on the stack. -/
def iret (cs eip ss : ℕ) : Except Refusal ℕ :=
  if cs < 4 then .error (generalProtection 0)
  else
    match s.segment? m cs with
    | none => .error (generalProtection (codeOf cs 0))
    | some d =>
      if ¬ isCode d.access ∨ cs % 4 < cpl ∨ (conforming d.access ∧ cs % 4 < dpl d.access) ∨
          (¬ conforming d.access ∧ dpl d.access ≠ cs % 4) then
        .error (generalProtection (codeOf cs 0))
      else if ¬ present d.access then .error (segmentNotPresent (codeOf cs 0))
      else if d.last < eip then .error (generalProtection 0)
      else if cs % 4 = cpl then .ok cpl
      else
        match stackSegment s m (cs % 4) ss 0 generalProtection with
        | .error e => .error e
        | .ok _ => .ok (cs % 4)

/-- Whether a data segment stays loaded on the way out to the privilege level `level`. -/
def keeps (level selector : ℕ) : Bool :=
  match s.segment? m selector with
  | none => selector < 4
  | some d => selector < 4 ∨ conforming d.access ∨ level ≤ dpl d.access

end Interrupts

section Ports

/-- An access to the `width` ports from `port` on. Below the I/O privilege level `iopl` the bitmap of the
task state segment decides, of which two bytes are read. -/
def portAllowed (s : System) (m : Bytes) (cpl iopl port width : ℕ) : Bool :=
  cpl ≤ iopl ∨
    let bitmap := half m (s.tss.base + 102)
    bitmap + port / 8 + 1 ≤ s.tss.limit ∧
      half m (s.tss.base + (bitmap + port / 8)) / 2 ^ (port % 8) % 2 ^ width = 0

end Ports

end KevOS.Lib.Privilege
