import KevOS.Machine

namespace KevOS.Libc

open Lib.Program Machine

/-- What the functions need: characters in memory, and the terminal, which takes one
character after the other. -/
class Console (σ : Type) where
  loadChar : ℕ → Prog σ UInt8
  putchar : UInt8 → Prog σ Unit

export Console (loadChar putchar)

/-- A `const char *`: into a string literal of the kernel, or to an address. -/
inductive CharPtr
  | literal (s : List UInt8)
  | addr (a : ℕ)
  deriving DecidableEq, Repr

def CharPtr.add : CharPtr → ℕ → CharPtr
  | .literal s, k => .literal (s.drop k)
  | .addr a, k => .addr (w32 (a + k))

section Functions

variable {σ : Type} [Console σ]

/-- `p[i]`. Behind the characters of a literal lies its terminator. -/
def readChar (p : CharPtr) (i : ℕ) : Prog σ UInt8 :=
  match p with
  | .literal s => pure (s.getD i 0)
  | .addr a => loadChar (w32 (a + i))

def strlenLoop (str : CharPtr) (len : ℕ) : ℕ → Prog σ ℕ
  | 0 => throw .fuel
  | fuel + 1 => do
    let c ← readChar str len
    if c = 0 then pure len else strlenLoop str (len + 1) fuel

/-- A pointer has come around after 2^32 characters, and goes on without end. -/
def loopBound : ℕ := 4294967296

def strlen (str : CharPtr) : Prog σ ℕ := strlenLoop str 0 loopBound

/-- The loop of `terminal_write`, with `n` characters from `i` on left to write. -/
def terminalWriteLoop (data : CharPtr) (i : ℕ) : ℕ → Prog σ Unit
  | 0 => pure ()
  | n + 1 => do
    let c ← readChar data i
    putchar c
    terminalWriteLoop data (i + 1) n

def terminalWrite (data : CharPtr) (size : ℕ) : Prog σ Unit := terminalWriteLoop data 0 size

def terminalWritestring (data : CharPtr) : Prog σ Unit := do
  let len ← strlen data
  terminalWrite data len

/-- `digits[d]` of `"0123456789abcdef"`. -/
def digit (d : ℕ) : UInt8 := UInt8.ofNat (if d < 10 then 48 + d else 87 + d)

/-- The digits from the last one on, in a buffer with `room` left. -/
def decompose (base : ℕ) : ℕ → ℕ → Option (List UInt8)
  | 0, n => if n = 0 then some [] else none
  | room + 1, n =>
    if n = 0 then some []
    else (decompose base room (n / base)).map (digit (n % base) :: ·)

def writeChars : List UInt8 → Prog σ Unit
  | [] => pure ()
  | c :: cs => do
    terminalWrite (.literal [c]) 1
    writeChars cs

def printUnsigned (n base : ℕ) : Prog σ ℕ :=
  if n = 0 then do
    terminalWrite (.literal [48]) 1
    pure 1
  else
    match decompose base 32 n with
    | none => throw .fault
    | some buffer => do
      writeChars buffer.reverse
      pure buffer.length

/-- `va_arg`. Behind the last argument lies whatever else is on the stack, where the
model ends. -/
def vaArg : List ℕ → Prog σ (ℕ × List ℕ)
  | [] => throw .halt
  | n :: parameters => pure (n, parameters)

def nullText : List UInt8 := [40, 110, 117, 108, 108, 41]

/-- What `printf` does for the character `c` behind `%`: how far `format` moves on from
there, how many characters are written, and the parameters left. -/
def directive (c : UInt8) (parameters : List ℕ) : Prog σ (ℕ × ℕ × List ℕ) :=
  if c = 37 then do
    terminalWrite (.literal [37]) 1
    pure (1, 1, parameters)
  else if c = 115 then do
    let (p, parameters) ← vaArg parameters
    let str := if p = 0 then .literal nullText else .addr p
    let len ← strlen str
    terminalWrite str len
    pure (1, len, parameters)
  else if c = 99 then do
    let (n, parameters) ← vaArg parameters
    terminalWrite (.literal [UInt8.ofNat n]) 1
    pure (1, 1, parameters)
  else if c = 100 ∨ c = 105 then do
    let (n, parameters) ← vaArg parameters
    if 2147483648 ≤ n then do
      terminalWrite (.literal [45]) 1
      let written ← printUnsigned (sub32 0 n) 10
      pure (1, 1 + written, parameters)
    else do
      let written ← printUnsigned n 10
      pure (1, written, parameters)
  else if c = 117 then do
    let (n, parameters) ← vaArg parameters
    let written ← printUnsigned n 10
    pure (1, written, parameters)
  else if c = 120 then do
    let (n, parameters) ← vaArg parameters
    let written ← printUnsigned n 16
    pure (1, written, parameters)
  else do
    -- the next turn of the loop looks at this character again
    terminalWrite (.literal [37]) 1
    pure (0, 1, parameters)

def printfLoop : ℕ → CharPtr → ℕ → List ℕ → Prog σ ℕ
  | 0, _, _, _ => throw .fuel
  | fuel + 1, format, written, parameters => do
    let c ← readChar format 0
    if c = 0 then pure written
    else if c ≠ 37 then do
      terminalWrite format 1
      printfLoop fuel (format.add 1) (w32 (written + 1)) parameters
    else do
      let c ← readChar format 1
      let (k, n, parameters) ← directive c parameters
      printfLoop fuel (format.add (1 + k)) (w32 (written + n)) parameters

/-- The arguments are the 32-bit words that the caller has pushed. -/
def printf (format : CharPtr) (parameters : List ℕ) : Prog σ ℕ :=
  printfLoop loopBound format 0 parameters

end Functions

end KevOS.Libc
