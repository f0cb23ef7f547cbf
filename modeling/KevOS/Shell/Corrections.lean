import KevOS.Shell.Session
import KevOS.Tty.Window

namespace KevOS.Shell.Corrections

open Lib.Program Machine Tty Tty.Window Tty.Screen Lines Replies Session Function
open Builtins (Kernel)
open Commands (State Builtin)

variable {s s' : Line} {d : Layout} {c : UInt8} {b : ℕ → UInt8} {t : Terminal} {top : ℕ} {keys typed : List UInt8}

/-- While a line is read, the screen shows what is in the array. Its beginning is in view. -/
structure Echoed (d : Layout) (s : Line) : Prop where
  room : s.i ≤ 127
  line : newline ∉ Line.held s
  screen : ∃ top ≤ d.above.length, Displays s.terminal top ((Line.held s).foldl Layout.place d)

section Reading

/-- The last row but two of the screen is still there when the array is full. -/
theorem Echoed.type (hlen : d.current.length < vgaWidth) (h : Echoed d s) (hi : s.i < 127) (hnl : c ≠ newline)
    (hbs : c ≠ backspace) :
    Echoed d { buffer := update s.buffer s.i c, i := s.i + 1, terminal := terminalPutchar c s.terminal } := by
  obtain ⟨top, htop, hscreen⟩ := h.screen
  obtain ⟨top', hle, hscreen'⟩ := hscreen.type hbs
  have hheld := held_type s c (terminalPutchar c s.terminal)
  have hline : newline ∉ Line.held s ++ [c] := by simp [h.line, hnl.symm]
  refine ⟨hi, by rwa [hheld], top', ?_, ?_⟩
  · have hplaced : (Line.held s ++ [c]).foldl Layout.place d = ((Line.held s).foldl Layout.place d).place c :=
      List.foldl_append
    have hwidth : vgaWidth = 80 := rfl
    obtain ⟨hsum, -⟩ := place_length hlen hline
    rw [hplaced, List.length_append, held_length, List.length_singleton] at hsum
    omega
  · rw [hheld, List.foldl_append]
    exact hscreen'

theorem Echoed.erase (hlen : d.current.length < vgaWidth) (h : Echoed d s) (hi : s.i > 0) :
    Echoed d { s with i := s.i - 1, terminal := terminalPutchar backspace s.terminal } := by
  obtain ⟨top, htop, hscreen⟩ := h.screen
  have hheld := held_erase s (terminalPutchar backspace s.terminal)
  have hne : Line.held s ≠ [] := by
    intro hnil
    rw [← held_length s, hnil] at hi
    exact Nat.lt_irrefl 0 hi
  have hsplit := List.dropLast_append_getLast hne
  have hline : newline ∉ (Line.held s).dropLast := fun hmem ↦ h.line (List.mem_of_mem_dropLast hmem)
  refine ⟨(Nat.sub_le _ _).trans h.room, by rwa [hheld], top, htop, ?_⟩
  rw [hheld]
  rw [← hsplit, List.foldl_append] at hscreen
  have hlast : (Line.held s).getLast hne ≠ newline := fun heq ↦ h.line (heq ▸ List.getLast_mem hne)
  have hwidth : vgaWidth = 80 := rfl
  obtain ⟨hsum, hlt⟩ := place_length hlen hline
  exact hscreen.erase hlast (by omega)

theorem readLoop_displays (hlen : d.current.length < vgaWidth) (h : Echoed d s)
    (hdone : readLoop 128 s keys = .done s' []) : ∃ top, Displays s'.terminal top
      ((Line.held s' ++ if s'.i < 127 then [newline] else []).foldl Layout.place d) := by
  induction keys generalizing s with
  | nil =>
    rw [readLoop] at hdone
    split at hdone
    · contradiction
    case isFalse hfull =>
      injection hdone with hs
      subst hs
      obtain ⟨top, -, hscreen⟩ := h.screen
      rw [if_neg hfull, List.append_nil]
      exact ⟨top, hscreen⟩
  | cons c keys ih =>
    rw [readLoop] at hdone
    split at hdone
    case isFalse => injection hdone; contradiction
    case isTrue hi =>
      split at hdone
      case isTrue hnl =>
        injection hdone with hs hrest
        subst hs hrest
        obtain ⟨top, -, hscreen⟩ := h.screen
        obtain ⟨top', -, hscreen'⟩ := hscreen.type (show newline ≠ backspace by decide)
        rw [if_pos hi, List.foldl_append]
        exact ⟨top', hscreen'⟩
      case isFalse hnl =>
        split at hdone
        case isTrue hbs =>
          split at hdone
          case isTrue hpos => exact ih (h.erase hlen hpos) hdone
          case isFalse => exact ih h hdone
        case isFalse hbs => exact ih (h.type hlen hi hnl hbs) hdone

/-- When `shell_readline` comes back, the screen shows the line that it has stored. -/
theorem shellReadline_displays (h : Displays t top d) (hdone : shellReadline b 128 t typed = .done s []) :
    ∃ top', Displays s.terminal top'
      ((Line.held s ++ if s.i < 127 then [newline] else []).foldl Layout.place d) := by
  have hlen : d.current.length < vgaWidth := by
    rw [h.column_eq]
    exact h.column
  have hstart : Echoed d ⟨b, 0, t⟩ := ⟨Nat.zero_le _, List.not_mem_nil, top, by have := h.row_eq; omega, h⟩
  rw [shellReadline] at hdone
  split at hdone
  · contradiction
  case h_2 s₁ rest hs =>
    injection hdone with heq hrest
    subst heq hrest
    have hheld : Line.held { s₁ with buffer := update s₁.buffer s₁.i 0 } = Line.held s₁ := by
      apply List.map_congr_left
      intro j hj
      exact update_of_ne (Nat.ne_of_lt (List.mem_range.mp hj)) _ _
    rw [hheld]
    exact readLoop_displays hlen hstart hs

/-- A line that never grows too long is read to its end. -/
theorem readLoop_fits (hnl : newline ∉ keys) (hfits : ∀ p, p <+: keys → (p.foldl edit (Line.held s)).length < 127) :
    ∃ s', readLoop 128 s (keys ++ [newline]) = .done s' [] := by
  induction keys generalizing s with
  | nil =>
    have hi : s.i < 127 := by simpa using hfits [] List.prefix_rfl
    exact ⟨_, by rw [List.nil_append, readLoop, if_pos hi, if_pos rfl]⟩
  | cons c keys ih =>
    rw [List.mem_cons, not_or] at hnl
    have hi : s.i < 127 := by simpa using hfits [] List.nil_prefix
    have hnext {s₁ : Line} (hedit : Line.held s₁ = edit (Line.held s) c) :
        ∃ s', readLoop 128 s₁ (keys ++ [newline]) = .done s' [] := by
      refine ih hnl.2 fun p hp ↦ ?_
      rw [hedit]
      exact hfits (c :: p) (List.cons_prefix_cons.mpr ⟨rfl, hp⟩)
    have hedit : edit (Line.held s) c = if c = backspace then (Line.held s).dropLast else Line.held s ++ [c] :=
      if_neg (Ne.symm hnl.1)
    rw [List.cons_append, readLoop, if_pos hi, if_neg (Ne.symm hnl.1)]
    split_ifs with hbs hpos
    · exact hnext (by rw [hedit, if_pos hbs, held_erase])
    · have hnil : Line.held s = [] := List.length_eq_zero_iff.mp (by rw [held_length]; omega)
      exact hnext (by rw [hedit, if_pos hbs, hnil]; rfl)
    · exact hnext (by rw [hedit, if_neg hbs, held_type])

/-- What is read of a line that fits. -/
theorem shellReadline_fits (hnl : newline ∉ keys) (hfits : Fits keys) (b : ℕ → UInt8) (t : Terminal) :
    ∃ s : Line, shellReadline b 128 t (keys ++ [newline]) = .done s [] ∧ Line.held s = edited keys ∧ s.i < 127 ∧
      ∀ j (h : j < (edited keys ++ [0]).length), s.buffer j = (edited keys ++ [0])[j] := by
  obtain ⟨s', hloop⟩ := @readLoop_fits ⟨b, 0, t⟩ keys hnl hfits
  have hread : shellReadline b 128 t (keys ++ [newline]) =
      .done { s' with buffer := update s'.buffer s'.i 0 } [] := by rw [shellReadline, hloop]
  obtain ⟨line, hline, -, hheld, hzero, ⟨hi, htyped⟩ | ⟨-, rfl⟩⟩ := shellReadline_done hread
  · obtain rfl : keys = line := List.append_cancel_right htyped
    refine ⟨_, hread, hheld, hi, fun j hj ↦ ?_⟩
    have hlen := held_length { s' with buffer := update s'.buffer s'.i 0 }
    rw [hheld] at hlen
    rw [List.length_append, List.length_singleton] at hj
    by_cases hlast : j = s'.i
    · subst hlast
      have hat : (edited keys ++ [0])[s'.i]? = some 0 := by rw [← hlen, List.getElem?_concat_length]
      rw [hzero]
      exact (List.getElem_of_getElem? hat).2.symm
    · have hlt : j < (edited keys).length := by dsimp only at hlen; omega
      rw [List.getElem_append_left hlt]
      simp only [← hheld, Line.held, List.getElem_map, List.getElem_range]
  · exact absurd (List.mem_append_right _ (List.mem_singleton_self _)) hline

theorem foldl_edit_length (line keys : List UInt8) : (keys.foldl edit line).length ≤ line.length + keys.length := by
  induction keys generalizing line with
  | nil => exact Nat.le_refl _
  | cons c keys ih =>
    have hedit : (edit line c).length ≤ line.length + 1 := by
      unfold edit
      split_ifs
      · exact Nat.zero_le _
      · rw [List.length_dropLast]
        omega
      · simp
    have hrest := ih (edit line c)
    rw [List.foldl_cons, List.length_cons]
    omega

theorem fits_of_length (h : keys.length < 127) : Fits keys := by
  intro p hp
  have hedited := foldl_edit_length [] p
  have hprefix := hp.length_le
  rw [List.length_nil, Nat.zero_add] at hedited
  exact (hedited.trans hprefix).trans_lt h

end Reading

section Session

variable {fuel : ℕ} {other : Builtin → ℕ → Prog State Unit} {buf cmd dirent : ℕ} {m m' : Lib.ByteMemory.Bytes}
  {e : Kernel × List UInt8} {turns : List (Kernel × List UInt8)}

/-- A line that is typed with corrections, and what it comes to. -/
structure Corrected (fuel : ℕ) (m : Lib.ByteMemory.Bytes) (cmd dirent : ℕ) (e : Kernel × List UInt8) : Prop where
  newline : newline ∉ e.2
  fits : Fits e.2
  ready : Ready fuel m cmd dirent (e.1, edited e.2)
  forward : backspace ∉ (reply e.1 fuel (edited e.2)).getD []

theorem turn_displays (h : Corrected fuel m cmd dirent e) (hm : Kept cmd dirent m m') (hcmd : cmd ≠ 0)
    (hroom : cmd + 128 ≤ 4294967296) (ht : Displays t top d) :
    ∃ m'' t' top', turn fuel other buf cmd (m', t) (e.1, e.2 ++ [newline]) = some (m'', t') ∧
      Displays t' top' ((exchange fuel (e.1, edited e.2)).foldl Layout.place d) ∧ Kept cmd dirent m m'' := by
  obtain ⟨s, hread, hheld, hi, hbuffer⟩ := shellReadline_fits h.newline h.fits (fun i ↦ m' (cmd + i))
    (terminalWrite (text "kevos> ") t)
  obtain ⟨m'', hturn, hkept⟩ := @turn_of_read fuel other buf cmd _ _ _ _ dirent (e.1, edited e.2) _ h.ready hm hcmd
    hroom hread hbuffer
  obtain ⟨top₁, hprompt⟩ := ht.write (show backspace ∉ text "kevos> " by decide)
  obtain ⟨top₂, hline⟩ := shellReadline_displays hprompt hread
  rw [hheld, if_pos hi] at hline
  obtain ⟨top₃, hreply⟩ := hline.write h.forward
  obtain ⟨top₄, hend⟩ := hreply.write (show backspace ∉ text "\n" by decide)
  refine ⟨m'', _, top₄, hturn, ?_, hkept⟩
  simp only [exchange, List.foldl_append] at hend ⊢
  exact hend

theorem turns_displays (h : ∀ e ∈ turns, Corrected fuel m cmd dirent e) (hm : Kept cmd dirent m m') (hcmd : cmd ≠ 0)
    (hroom : cmd + 128 ≤ 4294967296) (ht : Displays t top d) :
    ∃ m'' t' top', (turns.map fun e ↦ (e.1, e.2 ++ [newline])).foldlM (turn fuel other buf cmd) (m', t) =
        some (m'', t') ∧
      Displays t' top' ((turns.flatMap fun e ↦ exchange fuel (e.1, edited e.2)).foldl Layout.place d) ∧
      Kept cmd dirent m m'' := by
  induction turns generalizing m' t top d with
  | nil => exact ⟨m', t, top, rfl, ht, hm⟩
  | cons e turns ih =>
    rw [List.forall_mem_cons] at h
    obtain ⟨m₁, t₁, top₁, hturn, ht₁, hm₁⟩ := @turn_displays d t top fuel other buf cmd dirent m m' e h.1 hm hcmd
      hroom ht
    obtain ⟨m'', t', top', hrest, ht', hm''⟩ := ih h.2 hm₁ ht₁
    refine ⟨m'', t', top', ?_, ?_, hm''⟩
    · rw [List.map_cons, List.foldlM_cons, hturn]
      exact hrest
    · rw [List.flatMap_cons, List.foldl_append]
      exact ht'

/-- What is seen is what is executed. However the lines are corrected while they are typed, also back across the
end of a row and while the screen scrolls, the screen ends up with the prompts, the lines that were executed, and the
replies to them, as if each line had been typed at once. -/
theorem shellMain_displays (h : ∀ e ∈ turns, Corrected fuel m cmd dirent e) (hcmd : cmd ≠ 0)
    (hroom : cmd + 128 ≤ 4294967296) (ht : Displays t top d) :
    ∃ m' t' top', shellMain fuel other buf cmd m t (turns.map fun e ↦ (e.1, e.2 ++ [newline])) = some (m', t') ∧
      Displays t' top' ((banner ++ turns.flatMap fun e ↦ exchange fuel (e.1, edited e.2)).foldl Layout.place d) ∧
      Kept cmd dirent m m' := by
  have hplain : backspace ∉ banner := by decide
  obtain ⟨top₁, hbanner⟩ := ht.write hplain
  obtain ⟨m', t', top', hturns, ht', hm'⟩ := @turns_displays _ _ _ fuel other buf cmd dirent m m turns h
    (fun _ _ _ ↦ rfl) hcmd hroom hbanner
  refine ⟨m', t', top', hturns, ?_, hm'⟩
  rw [List.foldl_append]
  exact ht'

/-- The line `fop` is corrected to `foo bar`. -/
theorem shellMain_displays_foo : ∃ m' t' top', shellMain 0 (fun _ _ ↦ pure ()) 0xC000 0x8000
      (lineMemory (text "")) (terminalInitialize poweredOn) [(bareKernel, text "fop" ++ backspace :: text "o bar" ++ [newline])] =
        some (m', t') ∧
    Displays t' top' (layout (banner ++ text "kevos> foo bar\nUnknown command: foo\n\n")) := by
  have hlines : text "kevos> foo bar\nUnknown command: foo\n\n" =
      [(bareKernel, text "fop" ++ backspace :: text "o bar")].flatMap fun e ↦ exchange 0 (e.1, edited e.2) := by decide
  have hcorrected : ∀ e ∈ [(bareKernel, text "fop" ++ backspace :: text "o bar")],
      Corrected 0 (lineMemory (text "")) 0x8000 0xB000 e := by
    intro e he
    obtain rfl := List.mem_singleton.mp he
    exact ⟨by decide, fits_of_length (by decide), ⟨plain_of_all (by decide) (by decide), bareKernel_valid (by decide), rfl,
      by decide, by decide⟩, by decide⟩
  obtain ⟨m', t', top', hrun, hscreen, -⟩ := @shellMain_displays .empty _ 0 0 (fun _ _ ↦ pure ()) 0xC000 0x8000 0xB000
    _ _ hcorrected (by decide) (by decide) (terminalInitialize_displays poweredOn)
  rw [hlines]
  exact ⟨m', t', top', hrun, hscreen⟩

end Session

end KevOS.Shell.Corrections
