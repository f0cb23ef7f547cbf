import KevOS.Lib.RingBuffer

namespace KevOS.Keyboard

open Function

def kbdBufferSize : ℕ := 256

/-- The variables of the driver, and the record of the characters it stored. -/
structure Driver where
  kbdBuffer : ℕ → UInt8
  kbdBufferHead : ℕ
  kbdBufferTail : ℕ
  capsLock : Bool
  lshiftPressed : Bool
  rshiftPressed : Bool
  accepted : List UInt8

def kbdUsKeys : List UInt8 :=
  [0, 27, 49, 50, 51, 52, 53, 54, 55, 56, 57, 48, 45, 61, 8,
    9, 113, 119, 101, 114, 116, 121, 117, 105, 111, 112, 91, 93, 10,
    0, 97, 115, 100, 102, 103, 104, 106, 107, 108, 59, 39, 96, 0, 92,
    122, 120, 99, 118, 98, 110, 109, 44, 46, 47, 0, 42, 0, 32]

def kbdUsShiftedKeys : List UInt8 :=
  [0, 27, 33, 64, 35, 36, 37, 94, 38, 42, 40, 41, 95, 43, 8,
    9, 81, 87, 69, 82, 84, 89, 85, 73, 79, 80, 123, 125, 10,
    0, 65, 83, 68, 70, 71, 72, 74, 75, 76, 58, 34, 126, 0, 124,
    90, 88, 67, 86, 66, 78, 77, 60, 62, 63, 0, 42, 0, 32]

/-- `kbd_us[scancode]`. The keys behind those of the list have no character. -/
def kbdUs (scancode : UInt8) : UInt8 := kbdUsKeys.getD scancode.toNat 0

def kbdUsShifted (scancode : UInt8) : UInt8 := kbdUsShiftedKeys.getD scancode.toNat 0

/-- The character on the key, without the effect of Caps Lock. -/
def keyChar (k : Driver) (scancode : UInt8) : UInt8 :=
  let shiftActive := k.lshiftPressed || k.rshiftPressed
  if shiftActive then kbdUsShifted scancode else kbdUs scancode

def applyCapsLock (capsLock : Bool) (c : UInt8) : UInt8 :=
  if capsLock ∧ 97 ≤ c ∧ c ≤ 122 then c - 32
  else if capsLock ∧ 65 ≤ c ∧ c ≤ 90 then c + 32
  else c

def push (c : UInt8) (k : Driver) : Driver :=
  let next := (k.kbdBufferHead + 1) % kbdBufferSize
  if next ≠ k.kbdBufferTail then
    { k with
      kbdBuffer := update k.kbdBuffer k.kbdBufferHead c
      kbdBufferHead := next
      accepted := k.accepted ++ [c] }
  else k

def keyboardHandler (scancode : UInt8) (k : Driver) : Driver :=
  if scancode = 0x2A then { k with lshiftPressed := true }
  else if scancode = 0xAA then { k with lshiftPressed := false }
  else if scancode = 0x36 then { k with rshiftPressed := true }
  else if scancode = 0xB6 then { k with rshiftPressed := false }
  else if scancode = 0x3A then { k with capsLock := !k.capsLock }
  else if scancode &&& 0x80 = 0 then
    let c := keyChar k scancode
    if c ≠ 0 then push (applyCapsLock k.capsLock c) k else k
  else k

/-- Where `keyboard_getchar` stands: before the test of its loop, before the read of the
slot, and before the advance of the tail, with the character it is going to return. -/
inductive Getchar
  | test
  | fetch
  | advance (c : UInt8)
  deriving DecidableEq, Repr

/-- The driver and its reader, and the record of the characters that were returned. -/
structure State where
  keyboard : Driver
  getchar : Getchar
  returned : List UInt8

/-- The next step of `keyboard_getchar`, which is called again when it has returned. -/
def getcharStep (s : State) : State :=
  let k := s.keyboard
  match s.getchar with
  | .test => if k.kbdBufferHead = k.kbdBufferTail then s else { s with getchar := .fetch }
  | .fetch => { s with getchar := .advance (k.kbdBuffer k.kbdBufferTail) }
  | .advance c =>
    { s with
      keyboard := { k with kbdBufferTail := (k.kbdBufferTail + 1) % kbdBufferSize }
      getchar := .test
      returned := s.returned ++ [c] }

inductive Event
  | interrupt (scancode : UInt8)
  | getchar
  deriving DecidableEq, Repr

def step (s : State) : Event → State
  | .interrupt scancode => { s with keyboard := keyboardHandler scancode s.keyboard }
  | .getchar => getcharStep s

def initial : State := ⟨⟨fun _ ↦ 0, 0, 0, false, false, false, []⟩, .test, []⟩

end KevOS.Keyboard
