import KevOS.Shell.Lines
import KevOS.Shell.Replies

namespace KevOS.Shell.Session

open Lib.Program Lib.ByteMemory Lib.ByteString Machine Libc Tty Builtins Replies Function
open Commands (State shellExecute)
open Commands (Builtin)

section Model

variable (fuel : ℕ) (other : Builtin → ℕ → Prog State Unit) (buf cmd : ℕ)

/-- The array `buffer` of `shell_main` within memory. -/
def place (m : Bytes) (cmd : ℕ) (buffer : ℕ → UInt8) : Bytes := fun a ↦
  if cmd ≤ a ∧ a < cmd + 128 then buffer (a - cmd) else m a

/-- One turn of the loop of `shell_main`, for the characters that `keyboard_getchar` returns. The commands
look at `k`. -/
def turn (s : Bytes × Terminal) (e : Kernel × List UInt8) : Option (Bytes × Terminal) :=
  match shellReadline (fun i ↦ s.1 (cmd + i)) 128 (terminalWrite (text "kevos> ") s.2) e.2 with
  | .done line [] =>
    match (shellExecute (builtin e.1 fuel other) e.1.fsRoot buf cmd).run ⟨place s.1 cmd line.buffer, []⟩ with
    | .ok _ st => some (st.memory, terminalWrite (text "\n") (terminalWrite st.output line.terminal))
    | .error _ _ => none
  | _ => none

def banner : List UInt8 := text "\n--- KevOS Shell v0.1 ---\n" ++ text "Type 'help' for a list of commands.\n\n"

def shellMain (m : Bytes) (t : Terminal) (turns : List (Kernel × List UInt8)) : Option (Bytes × Terminal) :=
  turns.foldlM (turn fuel other buf cmd) (m, terminalWrite banner t)

end Model

/-- What a turn leaves on the screen: the prompt, the line, and the reply to it. -/
def exchange (fuel : ℕ) (e : Kernel × List UInt8) : List UInt8 :=
  text "kevos> " ++ (e.2 ++ [newline]) ++ (reply e.1 fuel e.2).getD [] ++ text "\n"

/-- A line that fits into the array and is typed without corrections. -/
structure Plain (line : List UInt8) : Prop where
  characters : ∀ c ∈ line, c ≠ newline ∧ c ≠ backspace ∧ c ≠ 0
  fits : line.length < 127

variable {fuel : ℕ} {other : Builtin → ℕ → Prog State Unit} {buf cmd : ℕ} {m m' : Bytes} {t : Terminal}
  {line keys : List UInt8} {s : Line} {k : Kernel}

section Reading

theorem plain_of_all (h : line.all (fun c ↦ c ≠ newline ∧ c ≠ backspace ∧ c ≠ 0) = true) (hfits : line.length < 127) :
    Plain line :=
  ⟨fun c hc ↦ of_decide_eq_true (List.all_eq_true.mp h c hc), hfits⟩

theorem terminalWrite_append (u v : List UInt8) (t : Terminal) :
    terminalWrite (u ++ v) t = terminalWrite v (terminalWrite u t) := List.foldl_append

/-- A plain line is stored and echoed character by character. -/
theorem readLoop_plain {chars : List UInt8} (hline : ∀ c ∈ chars, c ≠ newline ∧ c ≠ backspace ∧ c ≠ 0) (hfits : s.i + chars.length < 127) :
    ∃ b, readLoop 128 s (chars ++ [newline]) =
        .done ⟨b, s.i + chars.length, terminalWrite (chars ++ [newline]) s.terminal⟩ [] ∧
      (∀ j (h : j < chars.length), b (s.i + j) = chars[j]) ∧ ∀ j < s.i, b j = s.buffer j := by
  induction chars generalizing s with
  | nil =>
    have hlt : s.i < 128 - 1 := by simpa using hfits
    refine ⟨s.buffer, ?_, fun j h ↦ absurd h (Nat.not_lt_zero j), fun _ _ ↦ rfl⟩
    rw [List.nil_append, readLoop, if_pos hlt, if_pos rfl]
    rfl
  | cons c chars ih =>
    rw [List.forall_mem_cons] at hline
    obtain ⟨⟨hnl, hbs, -⟩, hline⟩ := hline
    rw [List.length_cons] at hfits
    have hlt : s.i < 128 - 1 := by omega
    obtain ⟨b, hrun, hat, hkept⟩ := @ih ⟨update s.buffer s.i c, s.i + 1, terminalPutchar c s.terminal⟩ hline
      (show s.i + 1 + chars.length < 127 by omega)
    refine ⟨b, ?_, fun j h ↦ ?_, fun j h ↦ ?_⟩
    · rw [List.cons_append, readLoop, if_pos hlt, if_neg hnl, if_neg hbs, hrun, List.length_cons]
      dsimp only
      rw [Nat.add_assoc, Nat.add_comm 1]
      rfl
    · cases j with
      | zero => exact (hkept s.i (Nat.lt_succ_self _)).trans (update_self ..)
      | succ j =>
        have hj := hat j (Nat.lt_of_succ_lt_succ h)
        dsimp only at hj
        rw [List.getElem_cons_succ, ← hj, Nat.add_assoc, Nat.add_comm 1]
    · exact (hkept j (Nat.lt_succ_of_lt h)).trans (update_of_ne (Nat.ne_of_lt h) ..)

theorem shellReadline_plain (hline : Plain line) (b : ℕ → UInt8) (t : Terminal) :
    ∃ s : Line, shellReadline b 128 t (line ++ [newline]) = .done s [] ∧
      s.terminal = terminalWrite (line ++ [newline]) t ∧
      ∀ j (h : j < (line ++ [0]).length), s.buffer j = (line ++ [0])[j] := by
  obtain ⟨b', hrun, hat, -⟩ := @readLoop_plain ⟨b, 0, t⟩ line hline.characters
    (show 0 + line.length < 127 by rw [Nat.zero_add]; exact hline.fits)
  dsimp only at hrun hat
  rw [Nat.zero_add] at hrun
  refine ⟨⟨update b' line.length 0, line.length, terminalWrite (line ++ [newline]) t⟩, ?_, rfl, fun j hj ↦ ?_⟩
  · rw [shellReadline, hrun]
  · dsimp only
    rw [List.length_append, List.length_singleton] at hj
    by_cases hlast : j = line.length
    · subst hlast
      simp
    · have hlt : j < line.length := by omega
      rw [update_of_ne hlast, List.getElem_append_left hlt, ← hat j hlt, Nat.zero_add]

end Reading

section Turns

/-- A turn in the memory `m`: a plain line that there is a reply to, and the linker's layout. -/
structure Ready (fuel : ℕ) (m : Bytes) (cmd dirent : ℕ) (e : Kernel × List UInt8) : Prop where
  line : Plain e.2
  valid : Valid e.1 m cmd 128
  dirent_eq : e.1.dirent = dirent
  apart : ∀ a ∈ [e.1.runningText, e.1.readyText], dirent + 132 ≤ a ∨ a + 8 ≤ dirent
  replies : (reply e.1 fuel e.2).isSome

/-- Only the line and the `dirent` of the ramdisk have been written to. -/
def Kept (cmd dirent : ℕ) (m m' : Bytes) : Prop :=
  ∀ a, ¬ (cmd ≤ a ∧ a < cmd + 128) → ¬ (dirent ≤ a ∧ a < dirent + 132) → m' a = m a

variable {dirent : ℕ} {e : Kernel × List UInt8} {turns : List (Kernel × List UInt8)}

theorem place_valid (h : Ready fuel m cmd dirent e) (hm : Kept cmd dirent m m') (b : ℕ → UInt8) :
    Valid e.1 (place m' cmd b) cmd (e.2.length + 1) := by
  have hfits := h.line.fits
  have hrunning := (h.valid.texts _ List.mem_cons_self).2.2.2
  have hready := (h.valid.texts (e.1.readyText, text "Ready") (by simp)).2.2.2
  have hkept : Valid e.1 (place m' cmd b) cmd 128 := by
    refine h.valid.congr fun a ha x hx hx' ↦ ?_
    have hdirent := h.apart a ha
    have hcmd : ¬ (cmd ≤ x ∧ x < cmd + 128) := by
      simp only [List.mem_cons, List.not_mem_nil, or_false] at ha
      rcases ha with rfl | rfl <;> dsimp only at * <;> omega
    rw [place, if_neg hcmd]
    exact hm x hcmd (by omega)
  refine ⟨hkept.memory, hkept.tasks, fun t ht ↦ ?_, hkept.nodes, hkept.dirent⟩
  obtain ⟨hne, hroom, hat, hapart⟩ := hkept.texts t ht
  exact ⟨hne, hroom, hat, by omega⟩

/-- However a line has come into the array, the command is executed, and the reply to it is printed. -/
theorem turn_of_read {typed : List UInt8} (h : Ready fuel m cmd dirent e) (hm : Kept cmd dirent m m') (hcmd : cmd ≠ 0)
    (hroom : cmd + 128 ≤ 4294967296)
    (hread : shellReadline (fun i ↦ m' (cmd + i)) 128 (terminalWrite (text "kevos> ") t) typed = .done s [])
    (hbuffer : ∀ j (h : j < (e.2 ++ [0]).length), s.buffer j = (e.2 ++ [0])[j]) :
    ∃ m'', turn fuel other buf cmd (m', t) (e.1, typed) =
      some (m'', terminalWrite (text "\n") (terminalWrite ((reply e.1 fuel e.2).getD []) s.terminal)) ∧
      Kept cmd dirent m m'' := by
  have hfits := h.line.fits
  obtain ⟨out, hout⟩ := Option.isSome_iff_exists.mp h.replies
  have hline : At (place m' cmd s.buffer) cmd (e.2 ++ [0]) := by
    intro j hj
    have hlen : j < e.2.length + 1 := by simpa using hj
    rw [place, if_pos (by omega), Nat.add_sub_cancel_left, hbuffer j hj]
  have hnul : 0 ∉ e.2 := fun hmem ↦ (h.line.characters 0 hmem).2.2 rfl
  obtain ⟨m'', hsplit, hrun⟩ := @execute_reply e.1 _ [] out cmd fuel other e.2 buf (place_valid h hm s.buffer) hline
    hnul hcmd (by omega) hout
  refine ⟨m'', ?_, fun a ha ha' ↦ ?_⟩
  · unfold turn
    dsimp only
    rw [hread]
    dsimp only
    rw [run_of_returns hrun]
    simp only [List.nil_append, hout, Option.getD_some]
  · have hsame : m'' a = place m' cmd s.buffer a := by
      by_contra hne
      rcases hsplit a hne with hin | ⟨-, rfl⟩
      · rw [h.dirent_eq] at hin
        exact ha' hin
      · refine ha ⟨Nat.le_add_right _ _, ?_⟩
        have hle : (word e.2).length ≤ e.2.length := (List.takeWhile_sublist _).length_le
        omega
    rw [hsame, place, if_neg ha, hm a ha ha']

/-- The prompt, the echo of the line, and the reply. -/
theorem turn_eq (h : Ready fuel m cmd dirent e) (hm : Kept cmd dirent m m') (hcmd : cmd ≠ 0)
    (hroom : cmd + 128 ≤ 4294967296) (t : Terminal) :
    ∃ m'', turn fuel other buf cmd (m', t) (e.1, e.2 ++ [newline]) =
      some (m'', terminalWrite (exchange fuel e) t) ∧ Kept cmd dirent m m'' := by
  obtain ⟨s, hread, hterminal, hbuffer⟩ := shellReadline_plain h.line (fun i ↦ m' (cmd + i))
    (terminalWrite (text "kevos> ") t)
  obtain ⟨m'', hturn, hkept⟩ := @turn_of_read fuel other buf cmd _ _ _ _ dirent e _ h hm hcmd hroom hread hbuffer
  refine ⟨m'', ?_, hkept⟩
  simp only [hturn, hterminal, exchange, terminalWrite_append]

theorem turns_eq (h : ∀ e ∈ turns, Ready fuel m cmd dirent e) (hm : Kept cmd dirent m m') (hcmd : cmd ≠ 0)
    (hroom : cmd + 128 ≤ 4294967296) (t : Terminal) :
    ∃ m'', (turns.map fun e ↦ (e.1, e.2 ++ [newline])).foldlM (turn fuel other buf cmd) (m', t) =
      some (m'', terminalWrite (turns.flatMap (exchange fuel)) t) ∧ Kept cmd dirent m m'' := by
  induction turns generalizing m' t with
  | nil => exact ⟨m', rfl, hm⟩
  | cons e turns ih =>
    rw [List.forall_mem_cons] at h
    obtain ⟨m₁, hturn, hm₁⟩ := @turn_eq fuel other buf cmd m m' dirent e h.1 hm hcmd hroom t
    obtain ⟨m'', hrest, hm''⟩ := ih h.2 hm₁ (terminalWrite (exchange fuel e) t)
    refine ⟨m'', ?_, hm''⟩
    rw [List.map_cons, List.foldlM_cons, hturn, List.flatMap_cons, terminalWrite_append]
    exact hrest

end Turns

/-- Whoever types lines that fit sees the prompt, the line and the reply to it, one after the other. Nothing
else appears on the screen, and no memory is changed but the array of `shell_main` and the `dirent` of the
ramdisk. -/
theorem shellMain_transcript {dirent : ℕ} {turns : List (Kernel × List UInt8)}
    (h : ∀ e ∈ turns, Ready fuel m cmd dirent e) (hcmd : cmd ≠ 0) (hroom : cmd + 128 ≤ 4294967296) (t : Terminal) :
    ∃ m', shellMain fuel other buf cmd m t (turns.map fun e ↦ (e.1, e.2 ++ [newline])) =
      some (m', terminalWrite (banner ++ turns.flatMap (exchange fuel)) t) ∧ Kept cmd dirent m m' := by
  obtain ⟨m', hturns, hm'⟩ := @turns_eq fuel other buf cmd m m dirent turns h (fun _ _ _ ↦ rfl) hcmd hroom
    (terminalWrite banner t)
  refine ⟨m', ?_, hm'⟩
  rw [shellMain, hturns, terminalWrite_append]

theorem shellMain_transcript_unknown : ∃ m', shellMain 0 (fun _ _ ↦ pure ()) 0xC000 0x8000 (lineMemory (text ""))
    Screen.poweredOn [(bareKernel, text "foo bar" ++ [newline])] = some (m', terminalWrite (banner ++
      text "kevos> foo bar\nUnknown command: foo\n\n") Screen.poweredOn) := by
  have hlines : text "kevos> foo bar\nUnknown command: foo\n\n" =
      [(bareKernel, text "foo bar")].flatMap (exchange 0) := by decide
  have hready : ∀ e ∈ [(bareKernel, text "foo bar")], Ready 0 (lineMemory (text "")) 0x8000 0xB000 e := by
    intro e he
    obtain rfl := List.mem_singleton.mp he
    exact ⟨plain_of_all (by decide) (by decide), bareKernel_valid (by decide), rfl, by decide, by decide⟩
  obtain ⟨m', hrun, -⟩ := @shellMain_transcript 0 (fun _ _ ↦ pure ()) 0xC000 0x8000 _ 0xB000 _ hready (by decide)
    (by decide) Screen.poweredOn
  rw [hlines]
  exact ⟨m', hrun⟩

end KevOS.Shell.Session
