import KevOS.Shell.Model
import KevOS.Tty.Screen

namespace KevOS.Shell.Lines

open Tty Function

/-- A key typed at the end of a line. -/
def edit (line : List UInt8) (c : UInt8) : List UInt8 :=
  if c = newline then [] else if c = backspace then line.dropLast else line ++ [c]

/-- What is left of the line that was begun by the last newline. -/
def edited (keys : List UInt8) : List UInt8 := keys.foldl edit []

/-- A command made of one whole line, in a string that ends within its array. -/
structure Complete (d : Command) : Prop where
  line : ∃ line, newline ∉ line ∧ d.typed = line ++ [newline]
  terminated : ∃ j < 128, d.buffer j = 0

/-- The line being typed never holds 127 characters. -/
def Fits (keys : List UInt8) : Prop := ∀ p, p <+: keys → (edited p).length < 127

section Read

variable {s s' : Line} {c : UInt8} {b : ℕ → UInt8} {t : Terminal} {keys typed : List UInt8}

/-- `buffer[0..i)`. -/
def Line.held (s : Line) : List UInt8 := (List.range s.i).map s.buffer

@[simp] theorem held_length (s : Line) : (Line.held s).length = s.i := by simp [Line.held]

theorem held_erase (s : Line) (t : Terminal) :
    Line.held { s with i := s.i - 1, terminal := t } = (Line.held s).dropLast := by
  simp [Line.held, List.dropLast_eq_take, ← List.map_take, List.take_range]

theorem held_type (s : Line) (c : UInt8) (t : Terminal) :
    Line.held ⟨update s.buffer s.i c, s.i + 1, t⟩ = Line.held s ++ [c] := by
  have hsame : (List.range s.i).map (update s.buffer s.i c) = (List.range s.i).map s.buffer := by
    apply List.map_congr_left
    intro j hj
    exact update_of_ne (Nat.ne_of_lt (List.mem_range.mp hj)) _ _
  simp [Line.held, List.range_succ, hsame]

/-- The keys of a call that is done: a line and its newline, or as many characters as fit. -/
structure ReadLine (s s' : Line) (line : List UInt8) : Prop where
  newline : newline ∉ line
  held : Line.held s' = line.foldl edit (Line.held s)
  short : ∀ p, p <+: line → p ≠ line → (p.foldl edit (Line.held s)).length < 127

theorem ReadLine.nil (h : Line.held s' = Line.held s) : ReadLine s s' [] where
  newline := List.not_mem_nil
  held := h
  short _ hp hne := absurd (List.prefix_nil.mp hp) hne

theorem ReadLine.cons {s₁ : Line} (h : ReadLine s₁ s' keys) (hc : c ≠ Tty.newline) (hi : s.i < 127)
    (hedit : Line.held s₁ = edit (Line.held s) c) : ReadLine s s' (c :: keys) where
  newline := List.not_mem_cons_of_ne_of_not_mem hc.symm h.newline
  held := by rw [h.held, hedit, List.foldl_cons]
  short p hp hne := by
    rcases List.prefix_cons_iff.mp hp with rfl | ⟨q, rfl, hq⟩
    · rwa [List.foldl_nil, held_length]
    · rw [List.foldl_cons, ← hedit]
      exact h.short q hq fun heq ↦ hne (by rw [heq])

theorem readLoop_done (hi : s.i ≤ 127) (hdone : readLoop 128 s keys = .done s' []) :
    ∃ line, ReadLine s s' line ∧
      (s'.i < 127 ∧ keys = line ++ [newline] ∨ s'.i = 127 ∧ keys = line) := by
  induction keys generalizing s with
  | nil =>
    rw [readLoop] at hdone
    split at hdone
    · contradiction
    case isFalse hfull =>
      injection hdone with hs
      subst hs
      exact ⟨[], .nil rfl, .inr ⟨by omega, rfl⟩⟩
  | cons c keys ih =>
    have hstep {s₁ : Line} (hi' : s.i < 127) (hc : c ≠ newline)
        (hedit : Line.held s₁ = edit (Line.held s) c) (hi₁ : s₁.i ≤ 127)
        (h : readLoop 128 s₁ keys = .done s' []) :
        ∃ line, ReadLine s s' line ∧
          (s'.i < 127 ∧ c :: keys = line ++ [newline] ∨ s'.i = 127 ∧ c :: keys = line) := by
      obtain ⟨line, hline, hend⟩ := ih hi₁ h
      refine ⟨c :: line, hline.cons hc hi' hedit, ?_⟩
      rcases hend with ⟨hlt, rfl⟩ | ⟨hfull, rfl⟩
      · exact .inl ⟨hlt, rfl⟩
      · exact .inr ⟨hfull, rfl⟩
    rw [readLoop] at hdone
    split at hdone
    case isFalse => injection hdone; contradiction
    case isTrue hi' =>
      split at hdone
      case isTrue hnl =>
        injection hdone with hs hrest
        subst hs hrest hnl
        exact ⟨[], .nil rfl, .inl ⟨hi', rfl⟩⟩
      case isFalse hnl =>
        have hedit : edit (Line.held s) c =
            if c = backspace then (Line.held s).dropLast else Line.held s ++ [c] := if_neg hnl
        split at hdone
        case isTrue hbs =>
          rw [if_pos hbs] at hedit
          split at hdone
          · refine hstep hi' hnl ?_ (Nat.le_trans (Nat.sub_le _ _) hi) hdone
            rw [hedit, held_erase]
          case isFalse hzero =>
            refine hstep hi' hnl ?_ hi hdone
            rw [hedit, ← held_erase s s.terminal, Nat.eq_zero_of_not_pos hzero, Nat.zero_sub,
              ← Nat.eq_zero_of_not_pos hzero]
        case isFalse hbs =>
          rw [if_neg hbs] at hedit
          refine hstep hi' hnl ?_ (Nat.succ_le_of_lt hi') hdone
          rw [hedit, held_type]

/-- What `shell_readline(buffer, 128)` consumes and stores. -/
theorem shellReadline_done (hdone : shellReadline b 128 t typed = .done s []) :
    ∃ line, newline ∉ line ∧ (∀ p, p <+: line → p ≠ line → (edited p).length < 127) ∧
      Line.held s = edited line ∧ s.buffer s.i = 0 ∧
      (s.i < 127 ∧ typed = line ++ [newline] ∨ s.i = 127 ∧ typed = line) := by
  rw [shellReadline] at hdone
  split at hdone
  · contradiction
  case h_2 s' rest hs =>
    injection hdone with heq hrest
    subst heq hrest
    obtain ⟨line, hline, hend⟩ := readLoop_done (Nat.zero_le _) hs
    refine ⟨line, hline.newline, hline.short, ?_, update_self .., hend⟩
    have hheld := hline.held
    rw [← show Line.held s' = edited line from hheld]
    apply List.map_congr_left
    intro j hj
    exact update_of_ne (Nat.ne_of_lt (List.mem_range.mp hj)) _ _

end Read

section Runs

variable {execute : Execute} {b : ℕ → UInt8} {t : Terminal} {s : Line} {keys typed : List UInt8}
  {commands : List Command} {r : Option ((ℕ → UInt8) × Terminal)}

theorem edited_append_newline (keys : List UInt8) : edited (keys ++ [newline]) = [] := by
  simp [edited, edit]

/-- Behind a whole line, a line starts anew. -/
theorem edited_append (h : edited keys = []) (p : List UInt8) : edited (keys ++ p) = edited p := by
  rw [edited, List.foldl_append]
  exact congrArg (p.foldl edit) h

theorem fits_append (h : edited keys = []) : Fits (keys ++ typed) ↔ Fits keys ∧ Fits typed := by
  constructor
  · intro hfits
    refine ⟨fun p hp ↦ hfits p (hp.trans (List.prefix_append _ _)), fun p hp ↦ ?_⟩
    rw [← edited_append h]
    exact hfits _ ((List.prefix_append_right_inj keys).mpr hp)
  · rintro ⟨hkeys, htyped⟩ p hp
    rcases List.prefix_or_prefix_of_prefix hp (List.prefix_append keys typed) with hle | ⟨q, rfl⟩
    · exact hkeys p hle
    · rw [edited_append h]
      exact htyped q ((List.prefix_append_right_inj keys).mp hp)

/-- A call reads a whole line unless the array is full before. -/
theorem complete_iff_fits (hdone : shellReadline b 128 t typed = .done s []) :
    Complete ⟨typed, s.buffer⟩ ↔ Fits typed := by
  obtain ⟨line, hnl, hshort, hheld, hzero, ⟨hi, rfl⟩ | ⟨hi, rfl⟩⟩ := shellReadline_done hdone
  · have hcomplete : Complete ⟨line ++ [newline], s.buffer⟩ :=
      ⟨⟨line, hnl, rfl⟩, s.i, Nat.lt_succ_of_lt hi, hzero⟩
    refine iff_of_true hcomplete fun p hp ↦ ?_
    rcases List.prefix_concat_iff.mp hp with rfl | hp
    · simp [edited_append_newline]
    · by_cases heq : p = line
      · rwa [heq, ← hheld, held_length]
      · exact hshort p hp heq
  · have hfull : (edited typed).length = 127 := by rw [← hheld, held_length, hi]
    apply iff_of_false
    · rintro ⟨⟨line, -, rfl⟩, -⟩
      exact hnl (List.mem_append_right _ (List.mem_singleton_self _))
    · intro hfits
      exact Nat.ne_of_lt (hfits typed List.prefix_rfl) hfull

theorem Complete.edited {d : Command} (h : Complete d) : edited d.typed = [] := by
  obtain ⟨line, -, htyped⟩ := h.line
  rw [htyped, edited_append_newline]

theorem run_edited (hrun : Run execute b t keys commands r) (h : ∀ d ∈ commands, Complete d) :
    edited keys = [] := by
  induction hrun with
  | start => rfl
  | turn _ hread ih =>
    rw [List.forall_mem_append, List.forall_mem_singleton] at h
    rw [edited_append (ih h.1)]
    exact h.2.edited

/-- The commands of a run are whole lines if and only if each of the lines fits in the array. -/
theorem commands_complete_iff (hrun : Run execute b t keys commands r) :
    (∀ d ∈ commands, Complete d) ↔ Fits keys := by
  induction hrun with
  | start =>
    refine iff_of_true (fun d hd ↦ absurd hd List.not_mem_nil) fun p hp ↦ ?_
    rw [List.prefix_nil.mp hp]
    decide
  | turn hrun hread ih =>
    rw [List.forall_mem_append, List.forall_mem_singleton, complete_iff_fits hread]
    constructor
    · rintro ⟨hall, htyped⟩
      exact (fits_append (run_edited hrun hall)).mpr ⟨ih.mp hall, htyped⟩
    · intro hfits
      have hall := ih.mpr fun p hp ↦ hfits p (hp.trans (List.prefix_append _ _))
      exact ⟨hall, ((fits_append (run_edited hrun hall)).mp hfits).2⟩

/-- A line typed to its end, which is one command. -/
theorem commands_complete_iff_ls : ∃ commands r,
    Run (fun b t ↦ some (b, t)) (fun _ ↦ 0) Screen.poweredOn [108, 115, newline] commands r ∧
      ((∀ d ∈ commands, Complete d) ↔ Fits [108, 115, newline]) := by
  have hrun := @Run.turn (fun b t ↦ some (b, t)) (fun _ ↦ 0) Screen.poweredOn [] [108, 115, newline]
    _ _ _ _ .start rfl
  exact ⟨_, _, hrun, commands_complete_iff hrun⟩

theorem readLoop_full {s : Line} (hnl : newline ∉ keys) (hbs : backspace ∉ keys)
    (hlen : s.i + keys.length = 127) : ∃ s', readLoop 128 s keys = .done s' [] := by
  induction keys generalizing s with
  | nil => exact ⟨s, if_neg (Nat.not_lt_of_le (Nat.le_of_eq hlen.symm))⟩
  | cons c keys ih =>
    rw [List.mem_cons, not_or] at hnl hbs
    rw [List.length_cons] at hlen
    rw [readLoop, if_pos (by omega), if_neg (Ne.symm hnl.1), if_neg (Ne.symm hbs.1)]
    apply ih hnl.2 hbs.2
    dsimp only
    omega

theorem turn_of_read {b' : ℕ → UInt8} {t' : Terminal}
    (hrun : Run execute b t keys commands (some (b', t')))
    (hread : ∀ t, ∃ s, shellReadline b' 128 t typed = .done s []) :
    ∃ (s : Line) (r : _), Run execute b t (keys ++ typed) (commands ++ [⟨typed, s.buffer⟩]) r := by
  obtain ⟨s, hs⟩ := hread (terminalWrite (text "kevos> ") t')
  exact ⟨s, _, .turn hrun hs⟩

/-- The 127th character is followed by `shell_execute`, though nobody has pressed Enter. -/
theorem unfinished_line_executed : ∃ commands r,
    Run (fun b t ↦ some (b, t)) (fun _ ↦ 0) Screen.poweredOn (List.replicate 127 65) commands r ∧
      ¬ ∀ d ∈ commands, Complete d := by
  have hnl : newline ∉ List.replicate 127 65 := fun h ↦ absurd (List.eq_of_mem_replicate h) (by decide)
  have hbs : backspace ∉ List.replicate 127 65 := fun h ↦ absurd (List.eq_of_mem_replicate h) (by decide)
  obtain ⟨s, r, hrun⟩ := turn_of_read .start fun t ↦ by
    obtain ⟨s', hs'⟩ := readLoop_full hnl hbs (s := ⟨fun _ ↦ 0, 0, t⟩) (Nat.zero_add _)
    exact ⟨_, by rw [shellReadline, hs']⟩
  refine ⟨_, r, hrun, fun hall ↦ ?_⟩
  obtain ⟨line, -, htyped⟩ := (hall _ (List.mem_append_right _ (List.mem_singleton_self _))).line
  dsimp only at htyped
  apply hnl
  rw [htyped]
  exact List.mem_append_right _ (List.mem_singleton_self _)

end Runs

end KevOS.Shell.Lines
