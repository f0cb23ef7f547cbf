import KevOS.Tty.Screen
import Mathlib.Order.Nat

namespace KevOS.Tty.Window

open Screen Function

/-- A roll of paper with 80 columns and rows without end, of which 25 are in view from `top` on. -/
structure Paper where
  cells : ℕ → ℕ → UInt16
  top : ℕ
  row : ℕ
  column : ℕ
  color : UInt8

def Paper.put (p : Paper) (entry : UInt16) : Paper :=
  { p with cells := update p.cells p.row (update (p.cells p.row) p.column entry) }

/-- Behind the last row in view the paper moves on by one row, which is blank. -/
def Paper.newRow (p : Paper) : Paper :=
  if p.row + 1 = p.top + vgaHeight then
    { p with
      cells := update p.cells (p.row + 1) fun _ ↦ vgaEntry space p.color
      top := p.top + 1
      row := p.row + 1
      column := 0 }
  else { p with row := p.row + 1, column := 0 }

/-- The paper does not move back. -/
def Paper.back (p : Paper) : Paper :=
  if p.column > 0 then { p with column := p.column - 1 }
  else if p.top < p.row then { p with row := p.row - 1, column := vgaWidth - 1 }
  else p

def Paper.type (p : Paper) (c : UInt8) : Paper :=
  if c = newline then p.newRow
  else if c = backspace then p.back.put (vgaEntry space p.color)
  else
    let p := p.put (vgaEntry c p.color)
    if p.column + 1 = vgaWidth then p.newRow else { p with column := p.column + 1 }

def Paper.blank (color : UInt8) : Paper := ⟨fun _ _ ↦ vgaEntry space color, 0, 0, 0, color⟩

/-- A call of the terminal. -/
inductive Action
  | print (call : Call)
  | setColors (fg bg : VgaColor)
  deriving DecidableEq, Repr

def Action.run (t : Terminal) : Action → Terminal
  | print call => call.run t
  | setColors fg bg => terminalSetcolorColors fg bg t

def Paper.apply (p : Paper) : Action → Paper
  | .print call => call.bytes.foldl Paper.type p
  | .setColors fg bg => { p with color := vgaEntryColor fg bg }

/-- The cursor is in view. -/
structure InView (p : Paper) : Prop where
  top : p.top ≤ p.row
  bottom : p.row < p.top + vgaHeight
  column : p.column < vgaWidth

/-- The screen is the part of the paper that is in view. -/
structure Depicts (t : Terminal) (p : Paper) : Prop extends InView p where
  window : ∀ y < vgaHeight, ∀ x < vgaWidth, t.terminalBuffer (y * vgaWidth + x) = p.cells (p.top + y) x
  row_eq : p.row = p.top + t.terminalRow
  column_eq : p.column = t.terminalColumn
  color_eq : p.color = t.terminalColor

section View

variable {p : Paper} {c : UInt8} {a : Action}

theorem InView.newRow (h : InView p) : InView p.newRow := by
  have htop := h.top
  have hbottom := h.bottom
  have hpos : 0 < vgaWidth := by decide
  unfold Paper.newRow
  split_ifs with hlast
  · exact ⟨by dsimp only; omega, by dsimp only; omega, hpos⟩
  · exact ⟨by dsimp only; omega, by dsimp only; omega, hpos⟩

theorem InView.back (h : InView p) : InView p.back := by
  have htop := h.top
  have hbottom := h.bottom
  have hcolumn := h.column
  have hlast : vgaWidth - 1 < vgaWidth := by decide
  unfold Paper.back
  split_ifs with hzero hrow
  · exact ⟨htop, hbottom, by dsimp only; omega⟩
  · exact ⟨by dsimp only; omega, by dsimp only; omega, hlast⟩
  · exact h

theorem InView.put (h : InView p) (e : UInt16) : InView (p.put e) := ⟨h.top, h.bottom, h.column⟩

theorem InView.type (h : InView p) (c : UInt8) : InView (p.type c) := by
  have hcolumn := h.column
  unfold Paper.type
  dsimp only
  split_ifs with hnl hbs hfull
  · exact h.newRow
  · exact h.back.put _
  · exact (h.put _).newRow
  · have hput := h.put (vgaEntry c p.color)
    have hcolumn' := hput.column
    exact ⟨hput.top, hput.bottom, by dsimp only at *; omega⟩

end View

section Simulation

variable {t : Terminal} {p : Paper} {c : UInt8}

/-- Two cells of the screen are the same if their positions are. -/
theorem index_inj {y x y' x' : ℕ} (hx : x < vgaWidth) (hx' : x' < vgaWidth) :
    y * vgaWidth + x = y' * vgaWidth + x' ↔ y = y' ∧ x = x' := by
  unfold vgaWidth at *
  omega

theorem Depicts.put (h : Depicts t p) (e : UInt16) :
    Depicts (t.put (t.terminalRow * vgaWidth + t.terminalColumn) e) (p.put e) where
  toInView := h.toInView.put e
  window y hy x hx := by
    have hcolumn := h.column
    have hwindow := h.window y hy x hx
    rw [h.column_eq] at hcolumn
    have hrow : p.top + y = p.row ↔ y = t.terminalRow := by
      rw [h.row_eq]
      omega
    simp only [Terminal.put, Paper.put, update_apply, index_inj hx hcolumn, hrow, h.column_eq]
    by_cases hy' : y = t.terminalRow
    · by_cases hx' : x = t.terminalColumn
      · rw [if_pos ⟨hy', hx'⟩, if_pos hy', update_apply, if_pos hx']
      · rw [if_neg fun hxy ↦ hx' hxy.2, if_pos hy', update_apply, if_neg hx', hwindow, hrow.mpr hy']
    · rw [if_neg fun hxy ↦ hy' hxy.1, if_neg hy', hwindow]
  row_eq := h.row_eq
  column_eq := h.column_eq
  color_eq := h.color_eq

theorem Depicts.updateCursor (h : Depicts t p) : Depicts (updateCursor t) p :=
  ⟨h.toInView, h.window, h.row_eq, h.column_eq, h.color_eq⟩

/-- A scroll moves the paper on by one row. -/
theorem nextRow_depicts (hview : InView p.newRow)
    (hwindow : ∀ y < vgaHeight, ∀ x < vgaWidth, t.terminalBuffer (y * vgaWidth + x) = p.cells (p.top + y) x)
    (hrow : p.row = p.top + t.terminalRow) (hcolor : p.color = t.terminalColor) : Depicts (nextRow t) p.newRow := by
  by_cases hlast : t.terminalRow + 1 = vgaHeight
  · have hlast' : p.row + 1 = p.top + vgaHeight := by omega
    have hnew : p.newRow = ⟨update p.cells (p.row + 1) fun _ ↦ vgaEntry space p.color, p.top + 1, p.row + 1, 0, p.color⟩ :=
      if_pos hlast'
    have hheight : vgaHeight = 25 := rfl
    refine ⟨hview, fun y hy x hx ↦ ?_, ?_, ?_, ?_⟩
    · rw [hnew, nextRow_of_last hlast]
      dsimp only
      by_cases hbottom : y = 24
      · have hindex : ¬ y * vgaWidth + x < 1920 := by unfold vgaWidth; omega
        have hindex' : y * vgaWidth + x < 2000 := by unfold vgaWidth at *; omega
        have hsame : p.top + 1 + y = p.row + 1 := by omega
        rw [scrolled, if_neg hindex, if_pos hindex', hsame, update_self, hcolor]
      · have hindex : y * vgaWidth + x < 1920 := by unfold vgaWidth at *; omega
        have hbelow : y * vgaWidth + x + 80 = (y + 1) * vgaWidth + x := by unfold vgaWidth; omega
        have hother : p.top + 1 + y ≠ p.row + 1 := by omega
        rw [scrolled, if_pos hindex, hbelow, hwindow (y + 1) (by omega) x hx, update_of_ne hother]
        congr 1
        omega
    · rw [hnew, nextRow_of_last hlast]
      dsimp only
      omega
    · rw [hnew, nextRow_of_last hlast]
    · rw [hnew, nextRow_of_last hlast]
      exact hcolor
  · have hnew : p.newRow = { p with row := p.row + 1, column := 0 } := if_neg (by omega)
    refine ⟨hview, ?_, ?_, ?_, ?_⟩
    · rw [hnew, nextRow_of_ne hlast]
      exact hwindow
    · rw [hnew, nextRow_of_ne hlast]
      dsimp only
      omega
    · rw [hnew, nextRow_of_ne hlast]
    · rw [hnew, nextRow_of_ne hlast]
      exact hcolor

theorem stepBack_depicts (h : Depicts t p) : Depicts (stepBack t) p.back := by
  have hview := h.toInView.back
  have hrow := h.row_eq
  have hcolumn := h.column_eq
  by_cases hzero : t.terminalColumn > 0
  · have hback : p.back = { p with column := p.column - 1 } := if_pos (by omega)
    rw [hback] at hview ⊢
    rw [stepBack, if_pos hzero]
    exact ⟨hview, h.window, hrow, congrArg (· - 1) hcolumn, h.color_eq⟩
  · rw [stepBack, if_neg hzero]
    by_cases htop : t.terminalRow > 0
    · have hback : p.back = { p with row := p.row - 1, column := vgaWidth - 1 } := by
        rw [Paper.back, if_neg (by omega), if_pos (by omega)]
      rw [hback] at hview ⊢
      rw [if_pos htop]
      refine ⟨hview, h.window, ?_, rfl, h.color_eq⟩
      dsimp only
      omega
    · have hback : p.back = p := by rw [Paper.back, if_neg (by omega), if_neg (by omega)]
      rw [hback, if_neg htop]
      exact h

/-- One byte keeps the screen and the paper in step. -/
theorem terminalPutcharUnlocked_depicts (h : Depicts t p) (c : UInt8) :
    Depicts (terminalPutcharUnlocked c t) (p.type c) := by
  have hview := h.toInView.type c
  unfold Paper.type at hview ⊢
  by_cases hnl : c = newline
  · rw [if_pos hnl] at hview ⊢
    rw [hnl, putchar_newline]
    exact (nextRow_depicts hview h.window h.row_eq h.color_eq).updateCursor
  · rw [if_neg hnl] at hview ⊢
    by_cases hbs : c = backspace
    · have hback := stepBack_depicts h
      have hcolor : p.color = (stepBack t).terminalColor := by
        rw [← hback.color_eq, Paper.back]
        split_ifs <;> rfl
      rw [if_pos hbs, hbs, putchar_backspace, hcolor]
      exact (hback.put _).updateCursor
    · have hput := h.put (vgaEntry c t.terminalColor)
      rw [if_neg hbs, h.color_eq] at hview ⊢
      rw [putchar_character hnl hbs]
      apply Depicts.updateCursor
      dsimp only at hview ⊢
      have hcolumn : (p.put (vgaEntry c t.terminalColor)).column = t.terminalColumn := h.column_eq
      rw [hcolumn] at hview ⊢
      by_cases hfull : t.terminalColumn + 1 = vgaWidth
      · rw [if_pos hfull] at hview ⊢
        rw [if_pos hfull]
        exact nextRow_depicts hview hput.window hput.row_eq hput.color_eq
      · rw [if_neg hfull] at hview ⊢
        rw [if_neg hfull]
        exact ⟨hview, hput.window, hput.row_eq, rfl, hput.color_eq⟩

theorem terminalInitialize_depicts (t : Terminal) :
    Depicts (terminalInitialize t) (.blank (vgaEntryColor .magenta .black)) := by
  have hheight : 0 < vgaHeight := by decide
  have hwidth : 0 < vgaWidth := by decide
  rw [terminalInitialize_eq]
  refine ⟨⟨le_rfl, hheight, hwidth⟩, fun y hy x hx ↦ ?_, rfl, rfl, rfl⟩
  have hindex : y * vgaWidth + x < 2000 := index_lt hy hx
  exact if_pos hindex

theorem terminalWrite_depicts (h : Depicts t p) (bytes : List UInt8) :
    Depicts (terminalWrite bytes t) (bytes.foldl Paper.type p) := by
  induction bytes generalizing t p with
  | nil => exact h
  | cons c bytes ih => exact ih (terminalPutcharUnlocked_depicts h c)

theorem run_depicts (h : Depicts t p) (a : Action) : Depicts (a.run t) (p.apply a) := by
  cases a with
  | print call =>
    cases call with
    | putchar c => exact terminalPutcharUnlocked_depicts h c
    | write data => exact terminalWrite_depicts h data
  | setColors fg bg => exact ⟨⟨h.top, h.bottom, h.column⟩, h.window, h.row_eq, h.column_eq, rfl⟩

end Simulation

section Kept

variable {p p' : Paper} {c : UInt8}

/-- The paper only moves on, and what has gone out of view stays as it is. -/
structure MovedOn (p p' : Paper) : Prop where
  top : p.top ≤ p'.top
  kept : ∀ r < p.top, p'.cells r = p.cells r

theorem MovedOn.refl (p : Paper) : MovedOn p p := ⟨le_rfl, fun _ _ ↦ rfl⟩

theorem MovedOn.trans {p'' : Paper} (h : MovedOn p p') (h' : MovedOn p' p'') : MovedOn p p'' where
  top := h.top.trans h'.top
  kept r hr := (h'.kept r (hr.trans_le h.top)).trans (h.kept r hr)

theorem put_movedOn (h : InView p) (e : UInt16) : MovedOn p (p.put e) := by
  refine ⟨le_rfl, fun r hr ↦ ?_⟩
  have hne : r ≠ p.row := (hr.trans_le h.top).ne
  exact update_of_ne hne ..

theorem newRow_movedOn (h : InView p) : MovedOn p p.newRow := by
  have htop := h.top
  unfold Paper.newRow
  split_ifs
  · refine ⟨Nat.le_succ _, fun r hr ↦ ?_⟩
    have hne : r ≠ p.row + 1 := by omega
    exact update_of_ne hne ..
  · exact ⟨le_rfl, fun _ _ ↦ rfl⟩

theorem back_movedOn (p : Paper) : MovedOn p p.back := by
  unfold Paper.back
  split_ifs <;> exact ⟨le_rfl, fun _ _ ↦ rfl⟩

theorem type_movedOn (h : InView p) (c : UInt8) : MovedOn p (p.type c) := by
  unfold Paper.type
  dsimp only
  split_ifs
  · exact newRow_movedOn h
  · exact (back_movedOn p).trans (put_movedOn h.back _)
  · exact (put_movedOn h _).trans (newRow_movedOn (h.put _))
  · have hput := put_movedOn h (vgaEntry c p.color)
    exact ⟨hput.top, hput.kept⟩

theorem foldl_type_movedOn (h : InView p) (bytes : List UInt8) :
    InView (bytes.foldl Paper.type p) ∧ MovedOn p (bytes.foldl Paper.type p) := by
  induction bytes generalizing p with
  | nil => exact ⟨h, .refl p⟩
  | cons c bytes ih =>
    obtain ⟨hview, hmoved⟩ := ih (h.type c)
    exact ⟨hview, (type_movedOn h c).trans hmoved⟩

theorem apply_movedOn (h : InView p) (a : Action) : InView (p.apply a) ∧ MovedOn p (p.apply a) := by
  cases a with
  | print call => exact foldl_type_movedOn h call.bytes
  | setColors fg bg => exact ⟨⟨h.top, h.bottom, h.column⟩, le_rfl, fun _ _ ↦ rfl⟩

theorem foldl_apply_movedOn (h : InView p) (actions : List Action) : MovedOn p (actions.foldl Paper.apply p) := by
  induction actions generalizing p with
  | nil => exact .refl p
  | cons a actions ih =>
    obtain ⟨hview, hmoved⟩ := apply_movedOn h a
    exact hmoved.trans (ih hview)

end Kept

theorem foldl_run_depicts {t : Terminal} {p : Paper} (h : Depicts t p) (actions : List Action) :
    Depicts (actions.foldl Action.run t) (actions.foldl Paper.apply p) := by
  induction actions generalizing t p with
  | nil => exact h
  | cons a actions ih => exact ih (run_depicts h a)

/-- Whatever is printed in whatever colors, with backspaces and scrolls, the screen is a window on one roll of paper,
each character in the color that it was printed in. The window only moves down, and what it has left is
never changed. -/
theorem terminal_refines_paper (t : Terminal) (before after : List Action) :
    let p := before.foldl Paper.apply (.blank (vgaEntryColor .magenta .black))
    Depicts (before.foldl Action.run (terminalInitialize t)) p ∧
      Depicts ((before ++ after).foldl Action.run (terminalInitialize t)) (after.foldl Paper.apply p) ∧
      MovedOn p (after.foldl Paper.apply p) := by
  intro p
  have hbefore := foldl_run_depicts (terminalInitialize_depicts t) before
  refine ⟨hbefore, ?_, foldl_apply_movedOn hbefore.toInView after⟩
  rw [List.foldl_append]
  exact foldl_run_depicts hbefore after

/-- The screen shows the text from row `top` on, with the cursor at its end. -/
structure Displays (t : Terminal) (top : ℕ) (d : Layout) : Prop extends OnScreen t where
  grid : ∀ y < vgaHeight, ∀ x < vgaWidth, character (t.terminalBuffer (y * vgaWidth + x)) = d.cell (top + y) x
  row_eq : d.above.length = top + t.terminalRow
  column_eq : d.current.length = t.terminalColumn

/-- The paper bears the text, with the cursor at its end. -/
structure Bears (p : Paper) (d : Layout) : Prop where
  cells : ∀ r, ∀ x < vgaWidth, character (p.cells r x) = d.cell r x
  row : p.row = d.above.length
  column : p.column = d.current.length

section Text

variable {t : Terminal} {p : Paper} {d : Layout} {c : UInt8} {top : ℕ}

theorem displays_of_bears (h : Depicts t p) (hb : Bears p d) : Displays t p.top d where
  row := by
    have hrow := h.row_eq
    have hbottom := h.bottom
    omega
  column := by
    rw [← h.column_eq]
    exact h.column
  grid y hy x hx := by rw [h.window y hy x hx, hb.cells _ x hx]
  row_eq := hb.row.symm.trans h.row_eq
  column_eq := hb.column.symm.trans h.column_eq

/-- The rows that are out of view can be made up. -/
theorem exists_paper (h : Displays t top d) : ∃ p, p.top = top ∧ Depicts t p ∧ Bears p d := by
  have hrow := h.row
  have hcolumn := h.column
  let cells (r x : ℕ) : UInt16 :=
    if top ≤ r ∧ r < top + vgaHeight then t.terminalBuffer ((r - top) * vgaWidth + x) else vgaEntry (d.cell r x) 0
  refine ⟨⟨cells, top, d.above.length, d.current.length, t.terminalColor⟩, rfl, ⟨⟨?_, ?_, ?_⟩, fun y hy x _ ↦ ?_, h.row_eq,
    h.column_eq, rfl⟩, fun r x hx ↦ ?_, rfl, rfl⟩
  · dsimp only
    rw [h.row_eq]
    omega
  · dsimp only
    rw [h.row_eq]
    omega
  · dsimp only
    rwa [h.column_eq]
  · have hin : top ≤ top + y ∧ top + y < top + vgaHeight := by omega
    simp only [cells, if_pos hin, Nat.add_sub_cancel_left]
  · simp only [cells]
    split_ifs with hin
    · have hy : r - top < vgaHeight := by omega
      have hback : top + (r - top) = r := by omega
      rw [h.grid (r - top) hy x hx, hback]
    · rw [character_vgaEntry]

theorem newRow_bears (hcells : ∀ r, ∀ x < vgaWidth, character (p.cells r x) = d.cell r x)
    (hrow : p.row = d.above.length) : Bears p.newRow d.newRow := by
  have habove : d.newRow.above.length = d.above.length + 1 := by simp [Layout.newRow]
  unfold Paper.newRow
  split_ifs
  · refine ⟨fun r x hx ↦ ?_, by rw [habove, hrow], rfl⟩
    rw [Layout.cell_newRow]
    dsimp only
    by_cases hr : r = p.row + 1
    · have hbelow : d.above.length < r := by omega
      rw [hr, update_self, character_vgaEntry, ← hr, Layout.cell_of_lt hbelow]
    · rw [update_of_ne hr]
      exact hcells r x hx
  · refine ⟨fun r x hx ↦ ?_, by rw [habove, hrow], rfl⟩
    rw [Layout.cell_newRow]
    exact hcells r x hx

theorem type_bears (hb : Bears p d) (hc : c ≠ backspace) : Bears (p.type c) (d.place c) := by
  unfold Paper.type Layout.place
  dsimp only
  by_cases hnl : c = newline
  · rw [if_pos hnl, if_pos hnl]
    exact newRow_bears hb.cells hb.row
  · have hput (r x : ℕ) (hx : x < vgaWidth) : character ((p.put (vgaEntry c p.color)).cells r x) =
        (Layout.mk d.above (d.current ++ [c])).cell r x := by
      rw [Layout.cell_snoc, ← hb.row, ← hb.column, ← hb.cells r x hx]
      simp only [Paper.put, update_apply]
      by_cases hr : r = p.row
      · by_cases hx : x = p.column
        · rw [if_pos hr, if_pos ⟨hr, hx⟩, update_apply, if_pos hx, character_vgaEntry]
        · rw [if_pos hr, if_neg fun h ↦ hx h.2, update_apply, if_neg hx, hr]
      · rw [if_neg hr, if_neg fun h ↦ hr h.1]
    have hcolumn : (p.put (vgaEntry c p.color)).column + 1 = (d.current ++ [c]).length := by
      rw [List.length_append, List.length_singleton, ← hb.column]
      rfl
    rw [if_neg hnl, if_neg hc, if_neg hnl, hcolumn]
    by_cases hfull : (d.current ++ [c]).length = vgaWidth
    · rw [if_pos hfull, if_pos hfull]
      exact @newRow_bears _ ⟨d.above, d.current ++ [c]⟩ hput hb.row
    · rw [if_neg hfull, if_neg hfull]
      exact ⟨hput, hb.row, rfl⟩

/-- Where the paper is after it has moved back behind a character. -/
theorem back_eq (hb : Bears p (d.place c)) (hnl : c ≠ newline) (htop : p.top ≤ d.above.length) :
    p.back = { p with row := d.above.length, column := d.current.length } := by
  have hrow := hb.row
  have hcolumn := hb.column
  rw [Layout.place, if_neg hnl] at hrow hcolumn
  dsimp only at hrow hcolumn
  have hsnoc : (d.current ++ [c]).length = d.current.length + 1 := by simp
  rw [hsnoc] at hrow hcolumn
  unfold Paper.back
  by_cases hfull : d.current.length + 1 = vgaWidth
  · have hwidth : vgaWidth = 80 := rfl
    rw [if_pos hfull] at hrow hcolumn
    have hrow' : p.row = d.above.length + 1 := by simpa [Layout.newRow] using hrow
    have hcolumn' : p.column = 0 := hcolumn
    rw [if_neg (by omega), if_pos (by omega), hrow', ← hfull]
    rfl
  · rw [if_neg hfull] at hrow hcolumn
    have hrow' : p.row = d.above.length := hrow
    have hcolumn' : p.column = d.current.length + 1 := hcolumn.trans hsnoc
    rw [if_pos (by omega), hcolumn', ← hrow']
    rfl

/-- A backspace takes back the last character, unless that is out of view. -/
theorem erase_bears (hb : Bears p (d.place c)) (hnl : c ≠ newline) (htop : p.top ≤ d.above.length) :
    Bears (p.type backspace) d := by
  have hbs : backspace ≠ newline := by decide
  rw [Paper.type, if_neg hbs, if_pos rfl, back_eq hb hnl htop]
  refine ⟨fun r x hx ↦ ?_, rfl, rfl⟩
  have hcell : (d.place c).cell r x = if r = d.above.length ∧ x = d.current.length then c else d.cell r x := by
    rw [Layout.place, if_neg hnl]
    dsimp only
    split
    · rw [Layout.cell_newRow, Layout.cell_snoc]
    · rw [Layout.cell_snoc]
  have hbeyond : d.cell d.above.length d.current.length = space := by
    simp [Layout.cell, Layout.rows]
  have hcells := hb.cells r x hx
  simp only [Paper.put, update_apply]
  by_cases hr : r = d.above.length
  · by_cases hx' : x = d.current.length
    · rw [if_pos hr, update_apply, if_pos hx', character_vgaEntry, hr, hx', hbeyond]
    · rw [hcell, if_neg fun h ↦ hx' h.2] at hcells
      rw [if_pos hr, update_apply, if_neg hx', ← hr, hcells]
  · rw [hcell, if_neg fun h ↦ hr h.1] at hcells
    rw [if_neg hr, hcells]

theorem type_top (c : UInt8) (p : Paper) : (p.type c).top ≤ max p.top ((p.type c).row - 24) := by
  have hheight : vgaHeight = 25 := rfl
  have hnew (p : Paper) : p.newRow.top ≤ max p.top (p.newRow.row - 24) := by
    unfold Paper.newRow
    split_ifs
    · dsimp only
      omega
    · exact le_max_left ..
  have hback (p : Paper) : p.back.top = p.top := by
    unfold Paper.back
    split_ifs <;> rfl
  unfold Paper.type
  dsimp only
  split_ifs
  · exact hnew p
  · exact (Nat.le_of_eq (hback p)).trans (le_max_left ..)
  · exact hnew (p.put _)
  · exact le_max_left ..

theorem Displays.type (h : Displays t top d) (hc : c ≠ backspace) :
    ∃ top', top' ≤ max top ((d.place c).above.length - 24) ∧
      Displays (terminalPutcharUnlocked c t) top' (d.place c) := by
  obtain ⟨p, rfl, hdepicts, hb⟩ := exists_paper h
  have hb' := type_bears hb hc
  refine ⟨(p.type c).top, ?_, displays_of_bears (terminalPutcharUnlocked_depicts hdepicts c) hb'⟩
  rw [← hb'.row]
  exact type_top c p

theorem Displays.erase (h : Displays t top (d.place c)) (hnl : c ≠ newline) (htop : top ≤ d.above.length) :
    Displays (terminalPutcharUnlocked backspace t) top d := by
  obtain ⟨p, rfl, hdepicts, hb⟩ := exists_paper h
  have htop' : (p.type backspace).top = p.top := by
    have hbs : backspace ≠ newline := by decide
    rw [Paper.type, if_neg hbs, if_pos rfl, back_eq hb hnl htop]
    rfl
  rw [← htop']
  exact displays_of_bears (terminalPutcharUnlocked_depicts hdepicts backspace) (erase_bears hb hnl htop)

theorem Displays.write (h : Displays t top d) {bytes : List UInt8} (hbytes : backspace ∉ bytes) :
    ∃ top', Displays (terminalWrite bytes t) top' (bytes.foldl Layout.place d) := by
  induction bytes generalizing t d top with
  | nil => exact ⟨top, h⟩
  | cons c bytes ih =>
    rw [List.mem_cons, not_or] at hbytes
    obtain ⟨top', -, htype⟩ := h.type (Ne.symm hbytes.1)
    exact ih htype hbytes.2

theorem terminalInitialize_displays (t : Terminal) : Displays (terminalInitialize t) 0 .empty := by
  refine displays_of_bears (terminalInitialize_depicts t) ⟨fun r x _ ↦ ?_, rfl, rfl⟩
  rw [Paper.blank, character_vgaEntry]
  cases r <;> cases x <;> rfl

/-- How far text without newlines reaches. -/
theorem place_length (hlen : d.current.length < vgaWidth) {bytes : List UInt8} (hbytes : newline ∉ bytes) :
    let d' := bytes.foldl Layout.place d
    80 * d'.above.length + d'.current.length = 80 * d.above.length + d.current.length + bytes.length ∧
      d'.current.length < vgaWidth := by
  have hwidth : vgaWidth = 80 := rfl
  induction bytes generalizing d with
  | nil => exact ⟨rfl, hlen⟩
  | cons c bytes ih =>
    rw [List.mem_cons, not_or] at hbytes
    have hstep : 80 * (d.place c).above.length + (d.place c).current.length =
        80 * d.above.length + d.current.length + 1 ∧ (d.place c).current.length < vgaWidth := by
      rw [Layout.place, if_neg (Ne.symm hbytes.1)]
      dsimp only
      split_ifs with hfull
      · simp only [Layout.newRow, List.length_append, List.length_singleton, List.length_nil] at hfull ⊢
        omega
      · simp only [List.length_append, List.length_singleton] at hfull ⊢
        omega
    obtain ⟨hsum, hlt⟩ := ih hstep.2 hbytes.2
    refine ⟨?_, hlt⟩
    rw [List.foldl_cons, hsum, hstep.1, List.length_cons]
    omega

end Text

end KevOS.Tty.Window
