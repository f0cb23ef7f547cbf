import KevOS.Shell.Model
import KevOS.Tty.Screen

namespace KevOS.Shell.Echo

open Tty Tty.Screen Function

/-- The cell of the cursor, counted in row-major order. -/
def position (t : Terminal) : ℕ := t.terminalRow * vgaWidth + t.terminalColumn

section Positions

variable {t : Terminal} {c : UInt8}

theorem position_lt (h : OnScreen t) : position t < 2000 := index_lt h.row h.column

@[simp] theorem position_updateCursor (t : Terminal) : position (updateCursor t) = position t := rfl

theorem OnScreen.updateCursor (h : OnScreen t) : OnScreen (updateCursor t) := ⟨h.row, h.column⟩

/-- The character at the cursor, and the cursor behind it. -/
structure Advanced (t t' : Terminal) (c : UInt8) : Prop where
  onScreen : OnScreen t'
  place : position t' = position t + 1
  buffer : t'.terminalBuffer = update t.terminalBuffer (position t) (vgaEntry c t.terminalColor)
  scrolls : t'.scrolls = t.scrolls

/-- The character at the cursor in the last cell, and the screen moved up behind it. -/
structure AdvancedLast (t t' : Terminal) (c : UInt8) : Prop where
  onScreen : OnScreen t'
  place : position t' = 1920
  buffer : t'.terminalBuffer =
    scrolled (update t.terminalBuffer (position t) (vgaEntry c t.terminalColor))
      (vgaEntry space t.terminalColor)
  scrolls : t'.scrolls = t.scrolls + 1

theorem putchar_advanced (h : OnScreen t) (hnl : c ≠ newline) (hbs : c ≠ backspace)
    (hp : position t ≠ 1999) : Advanced t (terminalPutcharUnlocked c t) c := by
  have hrow := h.row
  have hcol := h.column
  rw [putchar_character hnl hbs]
  by_cases hfull : t.terminalColumn + 1 = vgaWidth
  · have hlast : (stored c t).terminalRow + 1 ≠ vgaHeight := by
      intro hlast
      apply hp
      simp only [stored, Terminal.put] at hlast
      unfold position vgaWidth vgaHeight at *
      omega
    have hpos : 0 < vgaWidth := by decide
    rw [if_pos hfull, nextRow_of_ne hlast]
    refine ⟨⟨Nat.lt_of_le_of_ne hrow hlast, hpos⟩, ?_, rfl, rfl⟩
    simp only [position, updateCursor, stored, Terminal.put]
    unfold vgaWidth at *
    omega
  · rw [if_neg hfull]
    exact ⟨⟨hrow, Nat.lt_of_le_of_ne hcol hfull⟩, rfl, rfl, rfl⟩

theorem putchar_advancedLast (h : OnScreen t) (hnl : c ≠ newline) (hbs : c ≠ backspace)
    (hp : position t = 1999) : AdvancedLast t (terminalPutcharUnlocked c t) c := by
  have hrow := h.row
  have hcol := h.column
  have hlast : (stored c t).terminalRow + 1 = vgaHeight := by
    simp only [stored, Terminal.put]
    unfold position vgaWidth vgaHeight at *
    omega
  have hfull : t.terminalColumn + 1 = vgaWidth := by
    unfold position vgaWidth vgaHeight at *
    omega
  have hbottom : vgaHeight - 1 < vgaHeight := by decide
  have hleft : 0 < vgaWidth := by decide
  rw [putchar_character hnl hbs, if_pos hfull, nextRow_of_last hlast]
  exact ⟨⟨hbottom, hleft⟩, rfl, rfl, rfl⟩

structure Erased (t t' : Terminal) : Prop where
  onScreen : OnScreen t'
  place : position t' + 1 = position t
  buffer : t'.terminalBuffer =
    update t.terminalBuffer (position t') (vgaEntry space t.terminalColor)
  scrolls : t'.scrolls = t.scrolls

theorem putchar_erased (h : OnScreen t) (hp : 0 < position t) :
    Erased t (terminalPutcharUnlocked backspace t) := by
  have hrow := h.row
  have hcol := h.column
  have hlast : vgaWidth - 1 < vgaWidth := by decide
  rw [putchar_backspace]
  unfold position at hp
  by_cases hleft : t.terminalColumn > 0
  · have hback : stepBack t = { t with terminalColumn := t.terminalColumn - 1 } := if_pos hleft
    rw [hback]
    refine ⟨⟨hrow, Nat.lt_of_le_of_lt (Nat.sub_le _ _) hcol⟩, ?_, rfl, rfl⟩
    simp only [position, updateCursor, Terminal.put]
    omega
  · have habove : t.terminalRow > 0 := by
      apply Nat.pos_of_ne_zero
      intro hzero
      simp [hzero, Nat.eq_zero_of_not_pos hleft] at hp
    have hback : stepBack t =
        { t with terminalRow := t.terminalRow - 1, terminalColumn := vgaWidth - 1 } :=
      (if_neg hleft).trans (if_pos habove)
    rw [hback]
    refine ⟨⟨Nat.lt_of_le_of_lt (Nat.sub_le _ _) hrow, hlast⟩, ?_, rfl, rfl⟩
    simp only [position, updateCursor, Terminal.put]
    unfold vgaWidth at *
    omega

theorem putchar_cursor (c : UInt8) (h : OnScreen (terminalPutcharUnlocked c t)) :
    (terminalPutcharUnlocked c t).cursor = position (terminalPutcharUnlocked c t) := by
  have hshown : (terminalPutcharUnlocked c t).cursor =
      position (terminalPutcharUnlocked c t) % 65536 := by
    unfold terminalPutcharUnlocked
    split <;> [skip; split] <;> rfl
  rw [hshown]
  exact Nat.mod_eq_of_lt (Nat.lt_trans (position_lt h) (by decide))

end Positions

/-- The screen `t` at entry moved up by `k` rows, and behind its cursor the line `s`. -/
structure Echoed (t : Terminal) (s : Line) (k : ℕ) : Prop where
  onScreen : OnScreen s.terminal
  scrolls : s.terminal.scrolls = t.scrolls + k
  entry : 80 * k ≤ position t
  typed : ∀ j < s.i,
    character (s.terminal.terminalBuffer (position t - 80 * k + j)) = s.buffer j
  place : position s.terminal = position t - 80 * k + s.i
  cursor : t.cursor = position t → s.terminal.cursor = position s.terminal
  before : ∀ p < position t - 80 * k,
    s.terminal.terminalBuffer p = t.terminalBuffer (p + 80 * k)

section Keys

variable {t : Terminal} {s s' : Line} {c : UInt8} {k : ℕ}

theorem echoed_start (b : ℕ → UInt8) (h : OnScreen t) : Echoed t ⟨b, 0, t⟩ 0 where
  onScreen := h
  scrolls := rfl
  entry := Nat.zero_le _
  typed _ hj := absurd hj (Nat.not_lt_zero _)
  place := rfl
  cursor := id
  before _ _ := rfl

theorem Echoed.erase (h : Echoed t s k) (hi : 0 < s.i) :
    Echoed t { s with i := s.i - 1, terminal := terminalPutchar backspace s.terminal } k := by
  have hp := h.place
  have herased := putchar_erased h.onScreen (by omega)
  have hp' := herased.place
  refine ⟨herased.onScreen, herased.scrolls.trans h.scrolls, h.entry, fun j hj ↦ ?_, ?_,
    fun _ ↦ putchar_cursor _ herased.onScreen, fun p hlt ↦ ?_⟩
  · dsimp only at hj ⊢
    rw [terminalPutchar, herased.buffer, update_of_ne (by omega)]
    exact h.typed j (by omega)
  · dsimp only [terminalPutchar]
    omega
  · dsimp only
    rw [terminalPutchar, herased.buffer, update_of_ne (by omega)]
    exact h.before p hlt

def typeKey (c : UInt8) (s : Line) : Line :=
  ⟨update s.buffer s.i c, s.i + 1, terminalPutchar c s.terminal⟩

theorem Echoed.type (h : Echoed t s k) (hnl : c ≠ newline) (hbs : c ≠ backspace)
    (hp : position s.terminal ≠ 1999) : Echoed t (typeKey c s) k := by
  have hpos := h.place
  have hadv := putchar_advanced h.onScreen hnl hbs hp
  refine ⟨hadv.onScreen, hadv.scrolls.trans h.scrolls, h.entry, fun j hj ↦ ?_, ?_,
    fun _ ↦ putchar_cursor _ hadv.onScreen, fun p hlt ↦ ?_⟩
  · dsimp only [typeKey] at hj ⊢
    rw [terminalPutchar, hadv.buffer, hpos]
    by_cases hlast : j = s.i
    · rw [hlast, update_self, update_self, character_vgaEntry]
    · rw [update_of_ne (by omega), update_of_ne hlast]
      exact h.typed j (by omega)
  · exact hadv.place.trans (congrArg (· + 1) hpos)
  · dsimp only [typeKey]
    rw [terminalPutchar, hadv.buffer, update_of_ne (by omega)]
    exact h.before p hlt

/-- A line of fewer than 128 characters that reaches the last cell began far below the first row. -/
theorem Echoed.type_scroll (h : Echoed t s k) (hi : s.i < 127) (hnl : c ≠ newline)
    (hbs : c ≠ backspace) (hp : position s.terminal = 1999) :
    Echoed t (typeKey c s) (k + 1) := by
  have hpos := h.place
  have hentry := h.entry
  have hadv := putchar_advancedLast h.onScreen hnl hbs hp
  have hbehind : position t - 80 * (k + 1) + 80 = position t - 80 * k := by omega
  refine ⟨hadv.onScreen, ?_, by omega, fun j hj ↦ ?_, ?_,
    fun _ ↦ putchar_cursor _ hadv.onScreen, fun p hlt ↦ ?_⟩
  · exact hadv.scrolls.trans (congrArg (· + 1) h.scrolls)
  · dsimp only [typeKey] at hj ⊢
    rw [terminalPutchar, hadv.buffer, scrolled, if_pos (by omega), Nat.add_right_comm, hbehind, hpos]
    by_cases hlast : j = s.i
    · rw [hlast, update_self, update_self, character_vgaEntry]
    · rw [update_of_ne (by omega), update_of_ne hlast]
      exact h.typed j (by omega)
  · refine hadv.place.trans ?_
    dsimp only [typeKey]
    omega
  · dsimp only [typeKey]
    rw [terminalPutchar, hadv.buffer, scrolled, if_pos (by omega), update_of_ne (by omega),
      h.before _ (by omega)]
    congr 1
    omega

theorem Echoed.readLoop (h : Echoed t s k) {keys : List UInt8}
    (hwait : readLoop 128 s keys = .waiting s') : ∃ k', Echoed t s' k' := by
  induction keys generalizing s k with
  | nil =>
    rw [Shell.readLoop] at hwait
    split at hwait
    · injection hwait with hs
      exact ⟨k, hs ▸ h⟩
    · contradiction
  | cons c keys ih =>
    rw [Shell.readLoop] at hwait
    split at hwait
    case isFalse => contradiction
    case isTrue hi =>
      split at hwait
      · contradiction
      case isFalse hnl =>
        split at hwait
        · split at hwait
          case isTrue hpos => exact ih (h.erase hpos) hwait
          case isFalse => exact ih h hwait
        case isFalse hbs =>
          by_cases hp : position s.terminal = 1999
          · exact ih (h.type_scroll hi hnl hbs hp) hwait
          · exact ih (h.type hnl hbs hp) hwait

/-- While `shell_readline` waits for the next key, the screen shows the line typed so far
behind what it showed at entry. -/
theorem echoed_while_waiting (b : ℕ → UInt8) (h : OnScreen t) (keys : List UInt8)
    (hwait : shellReadline b 128 t keys = .waiting s) : ∃ k, Echoed t s k := by
  rw [shellReadline] at hwait
  split at hwait
  case h_1 s' hs =>
    injection hwait with heq
    exact (echoed_start b h).readLoop (heq ▸ hs)
  case h_2 => contradiction

/-- A line typed over the end of the last row, and erased back behind the scroll. -/
theorem echoed_while_waiting_acrossScroll :
    let t : Terminal := { poweredOn with terminalRow := 24, terminalColumn := 78 }
    ∃ s k, shellReadline (fun _ ↦ 0) 128 t [65, 66, 67, backspace, backspace] = .waiting s ∧
      Echoed t s k := by
  intro t
  have hs : OnScreen t := ⟨by decide, by decide⟩
  obtain ⟨k, h⟩ := echoed_while_waiting (fun _ ↦ 0) hs [65, 66, 67, backspace, backspace] rfl
  exact ⟨_, k, rfl, h⟩

end Keys

end KevOS.Shell.Echo
