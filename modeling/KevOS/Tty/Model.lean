import KevOS.Lib.Loop
import Mathlib.Logic.Function.Basic

namespace KevOS.Tty

open Lib.Loop

def vgaWidth : ℕ := 80

def vgaHeight : ℕ := 25

inductive VgaColor
  | black
  | blue
  | green
  | cyan
  | red
  | magenta
  | brown
  | lightGrey
  | darkGrey
  | lightBlue
  | lightGreen
  | lightCyan
  | lightRed
  | lightMagenta
  | lightBrown
  | white
  deriving DecidableEq, Repr

def vgaEntryColor (fg bg : VgaColor) : UInt8 :=
  UInt8.ofNat fg.ctorIdx ||| UInt8.ofNat bg.ctorIdx <<< 4

def vgaEntry (uc color : UInt8) : UInt16 := uc.toUInt16 ||| color.toUInt16 <<< 8

/-- The variables of the terminal, the text buffer of the VGA, and the position of its
cursor. `written` and `scrolls` record the indices stored to and the calls of
`terminal_scroll` since `terminal_initialize`. -/
structure Terminal where
  terminalRow : ℕ
  terminalColumn : ℕ
  terminalColor : UInt8
  terminalBuffer : ℕ → UInt16
  cursor : ℕ
  written : List ℕ
  scrolls : ℕ

def Terminal.put (t : Terminal) (index : ℕ) (entry : UInt16) : Terminal :=
  { t with
    terminalBuffer := Function.update t.terminalBuffer index entry
    written := index :: t.written }

def updateCursor (t : Terminal) : Terminal :=
  { t with cursor := (t.terminalRow * vgaWidth + t.terminalColumn) % 65536 }

def space : UInt8 := 32

def newline : UInt8 := 10

def backspace : UInt8 := 8

/-- The shape of the cursor, set by `enable_cursor`, is left out. -/
def terminalInitialize (t : Terminal) : Terminal :=
  let t := { t with
    terminalRow := 0
    terminalColumn := 0
    terminalColor := vgaEntryColor .magenta .black
    written := []
    scrolls := 0 }
  let t := forRange (fun y ↦ forRange (fun x t ↦
    t.put (y * vgaWidth + x) (vgaEntry space t.terminalColor)) vgaWidth) vgaHeight t
  updateCursor t

def terminalSetcolorColors (fg bg : VgaColor) (t : Terminal) : Terminal :=
  { t with terminalColor := vgaEntryColor fg bg }

def terminalScroll (t : Terminal) : Terminal :=
  let t := forRange (fun y ↦ forRange (fun x t ↦
    t.put (y * vgaWidth + x) (t.terminalBuffer ((y + 1) * vgaWidth + x))) vgaWidth) (vgaHeight - 1) t
  let t := forRange (fun x t ↦
    t.put ((vgaHeight - 1) * vgaWidth + x) (vgaEntry space t.terminalColor)) vgaWidth t
  { t with scrolls := t.scrolls + 1 }

/-- What a newline and a full row have in common. -/
def nextRow (t : Terminal) : Terminal :=
  let t := { t with terminalColumn := 0 }
  let t := { t with terminalRow := t.terminalRow + 1 }
  if t.terminalRow = vgaHeight then
    { terminalScroll t with terminalRow := vgaHeight - 1 }
  else t

def terminalPutcharUnlocked (c : UInt8) (t : Terminal) : Terminal :=
  if c = newline then
    updateCursor (nextRow t)
  else if c = backspace then
    let t :=
      if t.terminalColumn > 0 then { t with terminalColumn := t.terminalColumn - 1 }
      else if t.terminalRow > 0 then
        { t with terminalRow := t.terminalRow - 1, terminalColumn := vgaWidth - 1 }
      else t
    let index := t.terminalRow * vgaWidth + t.terminalColumn
    updateCursor (t.put index (vgaEntry space t.terminalColor))
  else
    let index := t.terminalRow * vgaWidth + t.terminalColumn
    let t := t.put index (vgaEntry c t.terminalColor)
    let t := { t with terminalColumn := t.terminalColumn + 1 }
    updateCursor (if t.terminalColumn = vgaWidth then nextRow t else t)

/-- One processor's calls, which find `tty_lock` free. -/
def terminalPutchar (c : UInt8) (t : Terminal) : Terminal := terminalPutcharUnlocked c t

def terminalWrite (data : List UInt8) (t : Terminal) : Terminal :=
  data.foldl (fun t c ↦ terminalPutcharUnlocked c t) t

end KevOS.Tty
