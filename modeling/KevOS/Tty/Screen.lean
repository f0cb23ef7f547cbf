import KevOS.Tty.Model
import Mathlib.Data.List.Basic

namespace KevOS.Tty.Screen

open Lib.Loop Function

def character (entry : UInt16) : UInt8 := entry.toUInt8

structure OnScreen (t : Terminal) : Prop where
  row : t.terminalRow < vgaHeight
  column : t.terminalColumn < vgaWidth

/-- The cursor is on the screen, and nothing was ever stored behind it. -/
structure InBounds (t : Terminal) : Prop extends OnScreen t where
  written : ∀ i ∈ t.written, i < vgaHeight * vgaWidth

/-- A screen moved up by one row. -/
def scrolled (b : ℕ → UInt16) (blank : UInt16) : ℕ → UInt16 := fun i ↦
  if i < 1920 then b (i + 80) else if i < 2000 then blank else b i

section Loops

variable {t : Terminal} {s k : ℕ}

theorem character_vgaEntry (c color : UInt8) : character (vgaEntry c color) = c := by
  apply UInt8.toNat_inj.mp
  simp [character, vgaEntry, Nat.shiftLeft_eq]

theorem fillLoop_eq (t : Terminal) (s k : ℕ) :
    forRange (fun x t ↦ t.put (s + x) (vgaEntry space t.terminalColor)) k t =
      { t with
        terminalBuffer := fun i ↦
          if s ≤ i ∧ i < s + k then vgaEntry space t.terminalColor else t.terminalBuffer i
        written := (List.range' s k).reverse ++ t.written } := by
  induction k with
  | zero =>
    have hnone (i : ℕ) : ¬ (s ≤ i ∧ i < s + 0) := by omega
    simp only [forRange, if_neg (hnone _), List.range'_zero, List.reverse_nil, List.nil_append]
  | succ k ih =>
    rw [forRange, ih, List.range'_concat]
    simp only [Terminal.put, List.reverse_append, List.reverse_singleton, List.nil_append,
      List.cons_append, Nat.one_mul, Terminal.mk.injEq, true_and, and_true]
    funext i
    by_cases hi : i = s + k
    · subst hi
      rw [update_self, if_pos (by omega)]
    · rw [update_of_ne hi]
      by_cases hlt : s ≤ i ∧ i < s + k
      · rw [if_pos hlt, if_pos (by omega)]
      · rw [if_neg hlt, if_neg (by omega)]

theorem copyLoop_eq (t : Terminal) (k : ℕ) :
    forRange (fun i t ↦ t.put i (t.terminalBuffer (i + vgaWidth))) k t =
      { t with
        terminalBuffer := fun i ↦
          if i < k then t.terminalBuffer (i + vgaWidth) else t.terminalBuffer i
        written := (List.range k).reverse ++ t.written } := by
  induction k with
  | zero => simp [forRange]
  | succ k ih =>
    -- the cell copied lies behind all that were overwritten
    have hbehind : ¬ k + vgaWidth < k := by omega
    rw [forRange, ih, List.range_succ]
    simp only [Terminal.put, if_neg hbehind, List.reverse_append, List.reverse_singleton,
      List.nil_append, List.cons_append, Terminal.mk.injEq, true_and, and_true]
    funext i
    by_cases hi : i = k
    · subst hi
      rw [update_self, if_pos (Nat.lt_succ_self i)]
    · rw [update_of_ne hi]
      by_cases hlt : i < k
      · rw [if_pos hlt, if_pos (by omega)]
      · rw [if_neg hlt, if_neg (by omega)]

theorem terminalScroll_eq (t : Terminal) : terminalScroll t =
    { t with
      terminalBuffer := scrolled t.terminalBuffer (vgaEntry space t.terminalColor)
      written := (List.range 2000).reverse ++ t.written
      scrolls := t.scrolls + 1 } := by
  have hrow (y x : ℕ) : (y + 1) * vgaWidth + x = y * vgaWidth + x + vgaWidth := by
    rw [Nat.succ_mul, Nat.add_right_comm]
  have hcopy := (forRange_forRange (fun i t ↦ t.put i (t.terminalBuffer (i + vgaWidth)))
    (vgaHeight - 1) vgaWidth t).trans (copyLoop_eq t _)
  have hrange : List.range 2000 = List.range 1920 ++ List.range' 1920 80 := by
    rw [List.range_eq_range', List.range_eq_range', List.range'_append]
  simp only [terminalScroll, hrow]
  rw [hcopy, fillLoop_eq, hrange]
  simp only [Terminal.mk.injEq, true_and, and_true]
  refine ⟨?_, by simp [vgaHeight, vgaWidth]⟩
  funext i
  unfold scrolled vgaHeight vgaWidth
  by_cases hlast : 1920 ≤ i ∧ i < 2000
  · rw [if_pos (by omega), if_neg (by omega), if_pos hlast.2]
  · rw [if_neg (by omega)]
    by_cases hi : i < 1920
    · rw [if_pos (by omega), if_pos hi]
    · rw [if_neg (by omega), if_neg hi, if_neg (by omega)]

theorem terminalInitialize_eq (t : Terminal) : terminalInitialize t =
    { terminalRow := 0
      terminalColumn := 0
      terminalColor := vgaEntryColor .magenta .black
      terminalBuffer := fun i ↦ if i < 2000 then vgaEntry space (vgaEntryColor .magenta .black)
        else t.terminalBuffer i
      cursor := 0
      written := (List.range 2000).reverse
      scrolls := 0 } := by
  have hfill (t : Terminal) := (forRange_forRange (fun i t ↦
    t.put i (vgaEntry space t.terminalColor)) vgaHeight vgaWidth t).symm
  have hfill₀ (t : Terminal) := fillLoop_eq t 0 (vgaHeight * vgaWidth)
  simp only [Nat.zero_add, hfill] at hfill₀
  rw [terminalInitialize, hfill₀]
  simp [updateCursor, List.range_eq_range', vgaHeight, vgaWidth]

theorem nextRow_of_last (h : t.terminalRow + 1 = vgaHeight) : nextRow t =
    { t with
      terminalRow := vgaHeight - 1
      terminalColumn := 0
      terminalBuffer := scrolled t.terminalBuffer (vgaEntry space t.terminalColor)
      written := (List.range 2000).reverse ++ t.written
      scrolls := t.scrolls + 1 } := by
  rw [nextRow, if_pos h, terminalScroll_eq]

theorem nextRow_of_ne (h : t.terminalRow + 1 ≠ vgaHeight) :
    nextRow t = { t with terminalRow := t.terminalRow + 1, terminalColumn := 0 } := if_neg h

/-- The cursor moved back by one cell, if there is one. -/
def stepBack (t : Terminal) : Terminal :=
  if t.terminalColumn > 0 then { t with terminalColumn := t.terminalColumn - 1 }
  else if t.terminalRow > 0 then
    { t with terminalRow := t.terminalRow - 1, terminalColumn := vgaWidth - 1 }
  else t

/-- The character stored, and the cursor behind it, perhaps behind its row. -/
def stored (c : UInt8) (t : Terminal) : Terminal :=
  { t.put (t.terminalRow * vgaWidth + t.terminalColumn) (vgaEntry c t.terminalColor) with
    terminalColumn := t.terminalColumn + 1 }

variable {c : UInt8}

theorem putchar_newline : terminalPutcharUnlocked newline t = updateCursor (nextRow t) := rfl

theorem putchar_backspace : terminalPutcharUnlocked backspace t =
    updateCursor ((stepBack t).put ((stepBack t).terminalRow * vgaWidth +
      (stepBack t).terminalColumn) (vgaEntry space (stepBack t).terminalColor)) := rfl

theorem putchar_character (hnl : c ≠ newline) (hbs : c ≠ backspace) :
    terminalPutcharUnlocked c t = updateCursor
      (if t.terminalColumn + 1 = vgaWidth then nextRow (stored c t) else stored c t) := by
  rw [terminalPutcharUnlocked, if_neg hnl, if_neg hbs]
  rfl

end Loops

section Bounds

variable {t : Terminal} {c : UInt8}

theorem index_lt {row column : ℕ} (hr : row < vgaHeight) (hc : column < vgaWidth) :
    row * vgaWidth + column < vgaHeight * vgaWidth := by
  unfold vgaHeight vgaWidth at *
  omega

theorem InBounds.put (h : InBounds t) {i : ℕ} (hi : i < vgaHeight * vgaWidth) (e : UInt16) :
    InBounds (t.put i e) where
  row := h.row
  column := h.column
  written := List.forall_mem_cons.mpr ⟨hi, h.written⟩

theorem InBounds.updateCursor (h : InBounds t) : InBounds (updateCursor t) := ⟨⟨h.row, h.column⟩, h.written⟩

theorem nextRow_inBounds (hr : t.terminalRow < vgaHeight)
    (hw : ∀ i ∈ t.written, i < vgaHeight * vgaWidth) : InBounds (nextRow t) := by
  have hpos : 0 < vgaWidth := by decide
  have hrow : vgaHeight - 1 < vgaHeight := by decide
  by_cases hlast : t.terminalRow + 1 = vgaHeight
  · rw [nextRow_of_last hlast]
    refine ⟨⟨hrow, hpos⟩, fun i hi ↦ ?_⟩
    rcases List.mem_append.mp hi with hi | hi
    · rw [List.mem_reverse, List.mem_range] at hi
      exact hi
    · exact hw i hi
  · rw [nextRow_of_ne hlast]
    exact ⟨⟨Nat.lt_of_le_of_ne hr hlast, hpos⟩, hw⟩

theorem stepBack_inBounds (h : InBounds t) : InBounds (stepBack t) := by
  have hrow := h.row
  have hcol := h.column
  have hlast : vgaWidth - 1 < vgaWidth := by decide
  unfold stepBack
  split
  · exact ⟨⟨hrow, by dsimp only; omega⟩, h.written⟩
  · split
    · exact ⟨⟨by dsimp only; omega, hlast⟩, h.written⟩
    · exact h

theorem terminalPutcharUnlocked_inBounds (c : UInt8) (h : InBounds t) :
    InBounds (terminalPutcharUnlocked c t) := by
  have hcol := h.column
  by_cases hnl : c = newline
  · rw [hnl, putchar_newline]
    exact (nextRow_inBounds h.row h.written).updateCursor
  · by_cases hbs : c = backspace
    · rw [hbs, putchar_backspace]
      have hback := stepBack_inBounds h
      exact (hback.put (index_lt hback.row hback.column) _).updateCursor
    · rw [putchar_character hnl hbs]
      have hput := h.put (index_lt h.row h.column) (vgaEntry c t.terminalColor)
      apply InBounds.updateCursor
      by_cases hfull : t.terminalColumn + 1 = vgaWidth
      · rw [if_pos hfull]
        exact nextRow_inBounds hput.row hput.written
      · rw [if_neg hfull]
        exact ⟨⟨hput.row, Nat.lt_of_le_of_ne hcol hfull⟩, hput.written⟩

theorem terminalInitialize_inBounds (t : Terminal) : InBounds (terminalInitialize t) := by
  have hrow : 0 < vgaHeight := by decide
  have hcol : 0 < vgaWidth := by decide
  rw [terminalInitialize_eq]
  refine ⟨⟨hrow, hcol⟩, fun i hi ↦ ?_⟩
  dsimp only at hi
  rw [List.mem_reverse, List.mem_range] at hi
  exact hi

end Bounds

/-- A text on rows of 80 columns: those that are finished, and the one being written. -/
structure Layout where
  above : List (List UInt8)
  current : List UInt8

def Layout.empty : Layout := ⟨[], []⟩

def Layout.newRow (d : Layout) : Layout := ⟨d.above ++ [d.current], []⟩

/-- A newline starts a new row, and so does the 80th character of a row. -/
def Layout.place (d : Layout) (c : UInt8) : Layout :=
  if c = newline then d.newRow
  else
    let d : Layout := ⟨d.above, d.current ++ [c]⟩
    if d.current.length = vgaWidth then d.newRow else d

def layout (bytes : List UInt8) : Layout := bytes.foldl Layout.place .empty

def Layout.rows (d : Layout) : List (List UInt8) := d.above ++ [d.current]

/-- The last 25 rows, or all if there are fewer. -/
def Layout.lastRows (d : Layout) : List (List UInt8) := d.rows.drop (d.rows.length - vgaHeight)

/-- What is shown in row `y` and column `x`. Missing rows and columns are blank. -/
def Layout.shown (d : Layout) (y x : ℕ) : UInt8 := ((d.lastRows[y]?).getD [])[x]?.getD space

/-- The screen shows the last rows of the text, with the cursor at its end. -/
structure Shows (t : Terminal) (d : Layout) : Prop where
  grid : ∀ y < vgaHeight, ∀ x < vgaWidth,
    character (t.terminalBuffer (y * vgaWidth + x)) = d.shown y x
  row : t.terminalRow = d.lastRows.length - 1
  column : t.terminalColumn = d.current.length

section Simulation

variable {t : Terminal} {d : Layout} {c : UInt8} {n x y : ℕ}

/-- Column `x` of row `n`, counted from the first row of the text. -/
def Layout.cell (d : Layout) (n x : ℕ) : UInt8 := ((d.rows[n]?).getD [])[x]?.getD space

theorem Layout.shown_eq (d : Layout) (y x : ℕ) :
    d.shown y x = d.cell (d.above.length - 24 + y) x := by
  have hlen : d.rows.length - vgaHeight = d.above.length - 24 := by
    simp [Layout.rows, vgaHeight]
  rw [Layout.shown, Layout.cell, Layout.lastRows, List.getElem?_drop, hlen]

theorem Layout.lastRows_length (d : Layout) : d.lastRows.length - 1 = min d.above.length 24 := by
  simp only [Layout.lastRows, Layout.rows, vgaHeight, List.length_drop, List.length_append,
    List.length_singleton]
  omega

theorem Layout.cell_of_lt (h : d.above.length < n) : d.cell n x = space := by
  have hnone : d.rows[n]? = none := by
    simp only [Layout.rows, List.getElem?_eq_none_iff, List.length_append, List.length_singleton]
    omega
  rw [Layout.cell, hnone]
  rfl

theorem Layout.cell_newRow : d.newRow.cell n x = d.cell n x := by
  have hrows : d.newRow.rows = d.rows ++ [[]] := rfl
  by_cases hn : n < d.rows.length
  · rw [Layout.cell, hrows, List.getElem?_append_left hn]
    rfl
  · have hlen : d.rows.length = d.above.length + 1 := by simp [Layout.rows]
    rw [d.cell_of_lt (by omega), Layout.cell, hrows, List.getElem?_append_right (by omega)]
    cases hk : n - d.rows.length <;> simp

theorem Layout.cell_snoc : (Layout.mk d.above (d.current ++ [c])).cell n x =
    if n = d.above.length ∧ x = d.current.length then c else d.cell n x := by
  unfold Layout.cell Layout.rows
  rcases Nat.lt_trichotomy n d.above.length with hn | hn | hn
  · rw [if_neg (by omega), List.getElem?_append_left hn, List.getElem?_append_left hn]
  · subst hn
    simp only [List.getElem?_concat_length, Option.getD_some, true_and]
    rcases Nat.lt_trichotomy x d.current.length with hx | hx | hx
    · rw [if_neg (by omega), List.getElem?_append_left hx]
    · rw [if_pos hx, hx, List.getElem?_concat_length]
      rfl
    · rw [if_neg (by omega), List.getElem?_eq_none (by simp; omega),
        List.getElem?_eq_none (by omega)]
  · have hnone (row : List UInt8) : (d.above ++ [row])[n]? = none := by
      rw [List.getElem?_eq_none_iff, List.length_append, List.length_singleton]
      omega
    rw [if_neg (by omega), hnone, hnone]

/-- Going to the next row keeps step with the text, with a scroll or without. -/
theorem nextRow_shows (hrow : t.terminalRow = d.lastRows.length - 1)
    (hgrid : ∀ y < vgaHeight, ∀ x < vgaWidth,
      character (t.terminalBuffer (y * vgaWidth + x)) = d.shown y x) :
    Shows (nextRow t) d.newRow := by
  have hrow' := d.newRow.lastRows_length
  have habove : d.newRow.above.length = d.above.length + 1 := by simp [Layout.newRow]
  rw [d.lastRows_length] at hrow
  rw [habove] at hrow'
  by_cases hlast : t.terminalRow + 1 = vgaHeight
  · rw [nextRow_of_last hlast]
    unfold vgaHeight at hlast
    refine ⟨fun y hy x hx ↦ ?_, ?_, rfl⟩
    · unfold vgaHeight at hy
      rw [Layout.shown_eq, habove, Layout.cell_newRow]
      by_cases hbottom : y = 24
      · have hindex : ¬ y * vgaWidth + x < 1920 := by unfold vgaWidth; omega
        have hindex' : y * vgaWidth + x < 2000 := by unfold vgaWidth at *; omega
        dsimp only
        rw [scrolled, if_neg hindex, if_pos hindex', character_vgaEntry, Layout.cell_of_lt (by omega)]
      · have hindex : y * vgaWidth + x < 1920 := by unfold vgaWidth at *; omega
        have hbelow : y * vgaWidth + x + 80 = (y + 1) * vgaWidth + x := by unfold vgaWidth; omega
        dsimp only
        rw [scrolled, if_pos hindex, hbelow, hgrid (y + 1) (by unfold vgaHeight; omega) x hx,
          Layout.shown_eq]
        congr 1
        omega
    · dsimp only
      rw [hrow']
      unfold vgaHeight
      omega
  · rw [nextRow_of_ne hlast]
    unfold vgaHeight at hlast
    refine ⟨fun y hy x hx ↦ ?_, ?_, rfl⟩
    · rw [Layout.shown_eq, habove, Layout.cell_newRow]
      dsimp only
      rw [hgrid y hy x hx, Layout.shown_eq]
      congr 1
      omega
    · dsimp only
      rw [hrow']
      omega

theorem updateCursor_shows (h : Shows t d) : Shows (updateCursor t) d := ⟨h.grid, h.row, h.column⟩

/-- One byte keeps the screen and the text in step. -/
theorem terminalPutcharUnlocked_shows (hc : c ≠ backspace) (hs : OnScreen t) (h : Shows t d) :
    Shows (terminalPutcharUnlocked c t) (d.place c) := by
  rw [Layout.place]
  by_cases hnl : c = newline
  · rw [if_pos hnl, hnl, putchar_newline]
    exact updateCursor_shows (nextRow_shows h.row h.grid)
  · rw [if_neg hnl, putchar_character hnl hc]
    apply updateCursor_shows
    have hcol := hs.column
    have hrow := h.row
    rw [d.lastRows_length] at hrow
    set d' : Layout := ⟨d.above, d.current ++ [c]⟩ with hd'
    have hgrid : ∀ y < vgaHeight, ∀ x < vgaWidth,
        character ((stored c t).terminalBuffer (y * vgaWidth + x)) = d'.shown y x := by
      intro y hy x hx
      have hsame : d.above.length - 24 + y = d.above.length ∧ x = d.current.length ↔
          y * vgaWidth + x = t.terminalRow * vgaWidth + t.terminalColumn := by
        rw [← h.column]
        unfold vgaWidth vgaHeight at *
        omega
      rw [Layout.shown_eq, hd', Layout.cell_snoc]
      simp only [stored, Terminal.put]
      by_cases hi : y * vgaWidth + x = t.terminalRow * vgaWidth + t.terminalColumn
      · rw [if_pos (hsame.mpr hi), hi, update_self, character_vgaEntry]
      · rw [if_neg (mt hsame.mp hi), update_of_ne hi, h.grid y hy x hx, Layout.shown_eq]
    have hrow' : (stored c t).terminalRow = d'.lastRows.length - 1 := by
      rw [d'.lastRows_length]
      exact hrow
    have hlen : d'.current.length = t.terminalColumn + 1 := by simp [hd', h.column]
    dsimp only
    by_cases hfull : t.terminalColumn + 1 = vgaWidth
    · rw [if_pos hfull, if_pos (hlen.trans hfull)]
      exact nextRow_shows (d := d') hrow' hgrid
    · rw [if_neg hfull, if_neg (by rwa [hlen])]
      exact ⟨hgrid, hrow', hlen.symm⟩

theorem terminalInitialize_shows (t : Terminal) : Shows (terminalInitialize t) .empty := by
  rw [terminalInitialize_eq]
  refine ⟨fun y hy x hx ↦ ?_, rfl, rfl⟩
  have hindex : y * vgaWidth + x < 2000 := index_lt hy hx
  have hblank : Layout.empty.shown y x = space := by
    rw [Layout.shown_eq]
    cases y <;> cases x <;> rfl
  dsimp only
  rw [if_pos hindex, character_vgaEntry, hblank]

end Simulation

inductive Call
  | putchar (c : UInt8)
  | write (data : List UInt8)
  deriving DecidableEq, Repr

def Call.bytes : Call → List UInt8
  | putchar c => [c]
  | write data => data

def Call.run (t : Terminal) : Call → Terminal
  | putchar c => terminalPutchar c t
  | write data => terminalWrite data t

section Runs

variable {t : Terminal} {d : Layout}

theorem foldl_run (t : Terminal) (calls : List Call) :
    calls.foldl Call.run t = terminalWrite (calls.flatMap Call.bytes) t := by
  induction calls generalizing t with
  | nil => rfl
  | cons call calls ih =>
    rw [List.foldl_cons, ih, List.flatMap_cons, terminalWrite, terminalWrite, List.foldl_append]
    cases call <;> rfl

theorem terminalWrite_inBounds (h : InBounds t) (bytes : List UInt8) :
    InBounds (terminalWrite bytes t) := by
  induction bytes generalizing t with
  | nil => exact h
  | cons c bytes ih => exact ih (terminalPutcharUnlocked_inBounds c h)

theorem terminalWrite_shows (hb : InBounds t) (h : Shows t d) {bytes : List UInt8}
    (hbytes : backspace ∉ bytes) :
    Shows (terminalWrite bytes t) (bytes.foldl Layout.place d) := by
  induction bytes generalizing t d with
  | nil => exact h
  | cons c bytes ih =>
    rw [List.mem_cons, not_or] at hbytes
    exact ih (terminalPutcharUnlocked_inBounds c hb)
      (terminalPutcharUnlocked_shows (Ne.symm hbytes.1) hb.toOnScreen h) hbytes.2

/-- After `terminal_initialize` no call leaves the screen, and without backspaces the
screen shows the tail of all that was written. -/
theorem terminal_shows_tail (t : Terminal) (calls : List Call) :
    InBounds (calls.foldl Call.run (terminalInitialize t)) ∧
      (backspace ∉ calls.flatMap Call.bytes →
        Shows (calls.foldl Call.run (terminalInitialize t))
          (layout (calls.flatMap Call.bytes))) := by
  have hinit := terminalInitialize_inBounds t
  rw [foldl_run]
  refine ⟨terminalWrite_inBounds hinit _, fun hbytes ↦ ?_⟩
  exact terminalWrite_shows hinit (terminalInitialize_shows t) hbytes

def poweredOn : Terminal := ⟨0, 0, 0, fun _ ↦ 0, 0, [], 0⟩

/-- Thirty lines of one character leave the last 24, and a blank row for the cursor. -/
theorem terminal_shows_tail_thirtyLines :
    let calls := List.replicate 30 (Call.write [65, newline])
    Shows (calls.foldl Call.run (terminalInitialize poweredOn))
      (layout (calls.flatMap Call.bytes)) :=
  (terminal_shows_tail poweredOn (List.replicate 30 (.write [65, newline]))).2 (by decide)

end Runs

end KevOS.Tty.Screen
