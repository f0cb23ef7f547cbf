import KevOS.Tty.Model
import Mathlib.Data.List.Basic

namespace KevOS.Shell

open Tty Function

structure Line where
  buffer : ℕ → UInt8
  i : ℕ
  terminal : Terminal

/-- How far a call gets with the keys typed so far. -/
inductive Outcome
  | waiting (s : Line)
  | done (s : Line) (rest : List UInt8)

/-- The `while` loop of `shell_readline`, with the characters that `keyboard_getchar` is
going to return. -/
def readLoop (maxLen : ℕ) : Line → List UInt8 → Outcome
  | s, [] => if s.i < maxLen - 1 then .waiting s else .done s []
  | s, c :: keys =>
    if s.i < maxLen - 1 then
      if c = newline then
        .done { s with terminal := terminalPutchar newline s.terminal } keys
      else if c = backspace then
        if s.i > 0 then
          readLoop maxLen
            { s with i := s.i - 1, terminal := terminalPutchar backspace s.terminal } keys
        else readLoop maxLen s keys
      else
        readLoop maxLen
          { buffer := update s.buffer s.i c
            i := s.i + 1
            terminal := terminalPutchar c s.terminal } keys
    else .done s (c :: keys)

def shellReadline (buffer : ℕ → UInt8) (maxLen : ℕ) (t : Terminal) (keys : List UInt8) : Outcome :=
  match readLoop maxLen ⟨buffer, 0, t⟩ keys with
  | .waiting s => .waiting s
  -- the terminator is stored whichever way the loop was left
  | .done s rest => .done { s with buffer := update s.buffer s.i 0 } rest

def text (s : String) : List UInt8 := s.toList.map fun c ↦ UInt8.ofNat c.toNat

/-- A call of `shell_execute`: the keys that were read for it, and the array it is given. -/
structure Command where
  typed : List UInt8
  buffer : ℕ → UInt8

/-- `shell_execute` may change the array and the terminal in any way, and may not return. -/
abbrev Execute := (ℕ → UInt8) → Terminal → Option ((ℕ → UInt8) × Terminal)

/-- The turns of the loop of `shell_main`: the keys delivered to it, the commands it gave to
`shell_execute`, and the array and the terminal unless one of them did not return. -/
inductive Run (execute : Execute) (buffer : ℕ → UInt8) (t : Terminal) :
    List UInt8 → List Command → Option ((ℕ → UInt8) × Terminal) → Prop
  | start : Run execute buffer t [] [] (some (buffer, terminalWrite
      (text "\n--- KevOS Shell v0.1 ---\nType 'help' for a list of commands.\n\n") t))
  | turn {keys typed : List UInt8} {commands : List Command} {b : ℕ → UInt8} {t' : Terminal}
      {s : Line} (hrun : Run execute buffer t keys commands (some (b, t')))
      (hread : shellReadline b 128 (terminalWrite (text "kevos> ") t') typed = .done s []) :
      Run execute buffer t (keys ++ typed) (commands ++ [⟨typed, s.buffer⟩])
        ((execute s.buffer s.terminal).map fun r ↦ (r.1, terminalWrite (text "\n") r.2))

end KevOS.Shell
