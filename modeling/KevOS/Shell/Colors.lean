import KevOS.Shell.Replies
import KevOS.Tty.Window

namespace KevOS.Shell.Colors

open Lib.Program Lib.ByteMemory Lib.ByteString Machine Libc CharPtr Format Tty Tty.Screen Tty.Window Builtins Replies Function
open Commands (State say storeChar)
open Cat (Holds holds_iff view isString_of_at storeChar_returns strcmp_literal)

/-- The color that a name stands for. -/
def colorIn (l : List (String × VgaColor)) (name : List UInt8) : VgaColor :=
  ((l.find? fun e ↦ text e.1 = name).map Prod.snd).getD .black

def colorOf (name : List UInt8) : VgaColor := colorIn colorNames name

/-- What the arguments of `setcolor` ask for. -/
def colorsOf (args : List UInt8) : Option (VgaColor × VgaColor) :=
  (arguments args).map fun bg ↦ (colorOf (word args), colorOf bg)

/-- The command `setcolor`, with what it does to the terminal. -/
def setcolorOn (args : ℕ) (m : Bytes) (t : Terminal) : Option (Bytes × Terminal) :=
  match (setcolor args).run ⟨m, []⟩ with
  | .ok none st => some (st.memory, terminalWrite st.output t)
  | .ok (some (fg, bg)) st => some (st.memory, terminalSetcolorColors fg bg (terminalWrite st.output t))
  | .error _ _ => none

/-- The foreground and the background that a cell has, as numbers. -/
def shades (entry : UInt16) : ℕ × ℕ := (entry.toNat / 256 % 16, entry.toNat / 4096)

variable {m : Bytes} {w s : List UInt8} {args : ℕ} {t : Terminal} {p : Paper} {fg bg : VgaColor}

section Command

theorem parseColorLoop_returns {name : List UInt8} {l : List (String × VgaColor)} {a : ℕ}
    (hs : IsString (fun a ↦ some (m a)) (.addr a) name) (hl : ∀ e ∈ l, 0 ∉ text e.1 ∧ (text e.1).length < loopBound) :
    Returns (Holds m w) (parseColorLoop a l) (colorIn l name) (Holds m w) := by
  induction l with
  | nil => exact .pure _
  | cons e l ih =>
    rw [List.forall_mem_cons] at hl
    obtain ⟨⟨hnul, hshort⟩, hl⟩ := hl
    have hcmp := @strcmp_literal m w _ _ _ hs hnul hshort
    by_cases heq : text e.1 = name
    · have hfound : colorIn (e :: l) name = e.2 := by simp [colorIn, heq]
      rw [hfound]
      refine hcmp.bind (.ite_pos ?_ (.pure _))
      rw [heq]
      exact Initrd.RoundTrip.strcmp_self name
    · have hnext : colorIn (e :: l) name = colorIn l name := by simp [colorIn, heq]
      rw [hnext]
      exact hcmp.bind (.ite_neg (Initrd.RoundTrip.strcmp_ne hs.noNul hnul (Ne.symm heq)) (ih hl))

theorem parseColorName_returns {name : List UInt8} {a : ℕ} (hs : IsString (fun a ↦ some (m a)) (.addr a) name) :
    Returns (Holds m w) (parseColorName a) (colorOf name) (Holds m w) :=
  parseColorLoop_returns hs (by decide)

/-- Without a space the loop comes to the end of the string. -/
theorem splitColors_none (hs : IsString (fun a ↦ some (m a)) (.addr args) s) (hspace : 32 ∉ s) {i fuel : ℕ}
    (hi : i ≤ s.length) (hfuel : s.length < i + fuel) :
    Returns (Holds m w) (splitColors args i fuel) 0 (Holds m w) := by
  induction fuel generalizing i with
  | zero => omega
  | succ fuel ih =>
    refine (readChar_returns view (hs.getD hi) fun _ _ ↦ trivial).bind ?_
    rcases Nat.lt_or_eq_of_le hi with hlt | rfl
    · rw [List.getD_eq_getElem s 0 hlt]
      have hnul : s[i] ≠ 0 := fun h ↦ hs.noNul (h ▸ List.getElem_mem hlt)
      have hblank : s[i] ≠ 32 := fun h ↦ hspace (h ▸ List.getElem_mem hlt)
      exact .ite_neg hnul (.ite_neg hblank (ih hlt (by omega)))
    · exact .ite_pos (by simp) (.pure _)

theorem splitColors_some (hs : IsString (fun a ↦ some (m a)) (.addr args) s) {k : ℕ} (hk : k < s.length)
    (hbefore : ∀ j (hj : j < k), s[j] ≠ 32) (hspace : s[k] = 32) {i fuel : ℕ} (hi : i ≤ k) (hfuel : k < i + fuel) :
    Returns (Holds m w) (splitColors args i fuel) (w32 (args + (k + 1))) (Holds (update m (w32 (args + k)) 0) w) := by
  induction fuel generalizing i with
  | zero => omega
  | succ fuel ih =>
    have hlt : i < s.length := hi.trans_lt hk
    refine (readChar_returns view (hs.chars i hlt) fun _ _ ↦ trivial).bind ?_
    have hnul : s[i] ≠ 0 := fun h ↦ hs.noNul (h ▸ List.getElem_mem hlt)
    refine .ite_neg hnul ?_
    rcases Nat.lt_or_eq_of_le hi with hlt' | rfl
    · exact .ite_neg (hbefore i hlt') (ih hlt' (by omega))
    · exact .ite_pos hspace ((storeChar_returns _ _).seq (.pure _))

/-- Whatever the arguments are, `setcolor` asks for two colors or sets them. Only the space between them is
overwritten. -/
theorem setcolor_returns (hat : At m args (s ++ [0])) (hnul : 0 ∉ s) (hargs : args ≠ 0)
    (hfits : args + (s.length + 1) ≤ 4294967296) :
    ∃ m', (∀ a, m' a ≠ m a → 32 ∈ s ∧ a = args + (word s).length) ∧
      Returns (Holds m w) (setcolor args) (colorsOf s)
        (Holds m' (w ++ if 32 ∈ s then [] else text "Usage: setcolor <fg> <bg>\n")) := by
  have hstring := isString_of_at hat hnul hfits
  have hsay (m : Bytes) (w : List UInt8) : Returns (Holds m w) (say "Usage: setcolor <fg> <bg>\n" []) ()
      (Holds m (w ++ text "Usage: setcolor <fg> <bg>\n")) := say_plain (by decide) (by decide) (by decide)
  have hshort := hstring.short
  by_cases hspace : 32 ∈ s
  · obtain ⟨fg, bg, rfl, hfg⟩ := List.eq_append_cons_of_mem hspace
    obtain ⟨hword, harguments⟩ := @word_append fg bg hfg
    have hparts := hnul
    rw [List.mem_append, List.mem_cons, not_or, not_or] at hparts
    have hlen : (fg ++ 32 :: bg).length = fg.length + bg.length + 1 := by
      rw [List.length_append, List.length_cons, Nat.add_assoc]
    have hline : At m args (fg ++ 32 :: (bg ++ [0])) := by simpa using hat
    obtain ⟨-, hfirst, hsecond⟩ := @Cat.split_line m w args fg bg hline hparts.1 hfg hparts.2.2 (by omega)
    have hloop : Returns (Holds m w) (splitColors args 0 loopBound) (w32 (args + (fg.length + 1)))
        (Holds (update m (w32 (args + fg.length)) 0) w) := by
      refine splitColors_some hstring (by omega) (fun j hj hblank ↦ hfg ?_) (by simp) (Nat.zero_le _) (by omega)
      rw [List.getElem_append_left hj] at hblank
      rw [← hblank]
      exact List.getElem_mem hj
    rw [w32_of_lt (by omega), w32_of_lt (by omega)] at hloop
    refine ⟨update m (args + fg.length) 0, fun a ha ↦ ⟨hspace, ?_⟩, ?_⟩
    · rw [hword]
      by_contra hne
      exact ha (update_of_ne hne ..)
    · rw [if_pos hspace, List.append_nil, colorsOf, hword, harguments]
      exact .ite_neg hargs (hloop.bind (.ite_neg (by omega)
        ((parseColorName_returns hfirst).bind ((parseColorName_returns hsecond).bind (.pure _)))))
  · obtain ⟨-, harguments⟩ := word_of_not_mem hspace
    have hloop := @splitColors_none m w s args hstring hspace 0 loopBound (Nat.zero_le _) (by omega)
    refine ⟨m, fun a ha ↦ absurd rfl ha, ?_⟩
    rw [if_neg hspace, colorsOf, harguments]
    exact .ite_neg hargs (hloop.bind (.ite_pos rfl ((hsay m w).seq (.pure _))))

end Command

section Painting

theorem vgaEntryColor_toNat (fg bg : VgaColor) : (vgaEntryColor fg bg).toNat = fg.ctorIdx + 16 * bg.ctorIdx := by
  cases fg <;> cases bg <;> rfl

theorem vgaEntry_toNat (c color : UInt8) : (vgaEntry c color).toNat = c.toNat + 256 * color.toNat := by
  have hc := c.toNat_lt
  have hcolor := color.toNat_lt
  have hor := Nat.shiftLeft_add_eq_or_of_lt hc color.toNat
  rw [Nat.shiftLeft_eq] at hor
  have hshift : (color.toUInt16 <<< 8).toNat = color.toNat * 2 ^ 8 := by
    rw [UInt16.toNat_shiftLeft, UInt8.toNat_toUInt16]
    simp only [Nat.shiftLeft_eq]
    exact Nat.mod_eq_of_lt (by simp; omega)
  rw [vgaEntry, UInt16.toNat_or, UInt8.toNat_toUInt16, hshift, Nat.or_comm, ← hor]
  omega

theorem shades_vgaEntry (c : UInt8) (fg bg : VgaColor) :
    shades (vgaEntry c (vgaEntryColor fg bg)) = (fg.ctorIdx, bg.ctorIdx) := by
  have hfg : fg.ctorIdx < 16 := by cases fg <;> decide
  have hc := c.toNat_lt
  rw [shades, vgaEntry_toNat, vgaEntryColor_toNat, Prod.mk.injEq]
  omega

/-- The cells that differ have the color that is set now, as it was before. -/
structure Painted (p p' : Paper) : Prop where
  color : p'.color = p.color
  cells : ∀ r x, p'.cells r x = p.cells r x ∨ ∃ c, p'.cells r x = vgaEntry c p.color

theorem Painted.trans {p' p'' : Paper} (h : Painted p p') (h' : Painted p' p'') : Painted p p'' where
  color := h'.color.trans h.color
  cells r x := by
    rcases h'.cells r x with hsame | ⟨c, hc⟩
    · rw [hsame]
      exact h.cells r x
    · rw [h.color] at hc
      exact .inr ⟨c, hc⟩

theorem put_painted (c : UInt8) (p : Paper) : Painted p (p.put (vgaEntry c p.color)) := by
  refine ⟨rfl, fun r x ↦ ?_⟩
  simp only [Paper.put, update_apply]
  split_ifs with hr
  · rw [update_apply, hr]
    split_ifs
    · exact .inr ⟨c, rfl⟩
    · exact .inl rfl
  · exact .inl rfl

theorem newRow_painted (p : Paper) : Painted p p.newRow := by
  unfold Paper.newRow
  split_ifs
  · refine ⟨rfl, fun r x ↦ ?_⟩
    dsimp only
    rw [update_apply]
    split_ifs
    · exact .inr ⟨space, rfl⟩
    · exact .inl rfl
  · exact ⟨rfl, fun _ _ ↦ .inl rfl⟩

theorem type_painted (c : UInt8) (p : Paper) : Painted p (p.type c) := by
  have hback : Painted p p.back ∧ p.back.color = p.color := by
    unfold Paper.back
    split_ifs <;> exact ⟨⟨rfl, fun _ _ ↦ .inl rfl⟩, rfl⟩
  unfold Paper.type
  dsimp only
  split_ifs
  · exact newRow_painted p
  · rw [← hback.2]
    exact hback.1.trans (put_painted space p.back)
  · exact (put_painted c p).trans (newRow_painted _)
  · have hput := put_painted c p
    exact ⟨hput.color, hput.cells⟩

theorem foldl_type_painted (bytes : List UInt8) (p : Paper) : Painted p (bytes.foldl Paper.type p) := by
  induction bytes generalizing p with
  | nil => exact ⟨rfl, fun _ _ ↦ .inl rfl⟩
  | cons c bytes ih => exact (type_painted c p).trans (ih _)

end Painting

/-- Whatever `setcolor` is given, it asks for two colors or sets the two that are named, black for those that nobody
knows. From then on all that is printed, and the blanks of scrolls and backspaces, appear in these colors, and
the rest of the screen keeps its own. -/
theorem setcolor_paints (hat : At m args (s ++ [0])) (hnul : 0 ∉ s) (hargs : args ≠ 0)
    (hfits : args + (s.length + 1) ≤ 4294967296) (ht : Depicts t p) (bytes : List UInt8) :
    ∃ m' t', setcolorOn args m t = some (m', t') ∧
      (∀ a, m' a ≠ m a → 32 ∈ s ∧ a = args + (word s).length) ∧
      match colorsOf s with
      | none => t' = terminalWrite (text "Usage: setcolor <fg> <bg>\n") t
      | some (fg, bg) =>
        let p' := bytes.foldl Paper.type { p with color := vgaEntryColor fg bg }
        Depicts (terminalWrite bytes t') p' ∧
          ∀ r x, p'.cells r x = p.cells r x ∨ shades (p'.cells r x) = (fg.ctorIdx, bg.ctorIdx) := by
  obtain ⟨m', hsplit, hrun⟩ := @setcolor_returns m [] s args hat hnul hargs hfits
  obtain ⟨st, hst, hholds⟩ := hrun ⟨m, []⟩ (holds_iff.mpr rfl)
  obtain rfl := holds_iff.mp hholds
  have hspace : 32 ∈ s ↔ (colorsOf s).isSome := by
    by_cases hspace : 32 ∈ s <;> simp [colorsOf, arguments, hspace]
  unfold setcolorOn
  rw [hst]
  cases hcolors : colorsOf s with
  | none =>
    rw [hcolors] at hspace
    refine ⟨m', _, rfl, hsplit, ?_⟩
    dsimp only
    rw [List.nil_append, if_neg (by simpa using hspace)]
  | some colors =>
    obtain ⟨fg, bg⟩ := colors
    rw [hcolors] at hspace
    have hprinted : 32 ∈ s := hspace.mpr rfl
    refine ⟨m', _, rfl, hsplit, ?_⟩
    dsimp only
    rw [List.nil_append, if_pos hprinted]
    have hset : Depicts (terminalSetcolorColors fg bg t) { p with color := vgaEntryColor fg bg } :=
      run_depicts ht (.setColors fg bg)
    refine ⟨terminalWrite_depicts hset bytes, fun r x ↦ ?_⟩
    rcases (foldl_type_painted bytes _).cells r x with hsame | ⟨c, hc⟩
    · exact .inl hsame
    · rw [hc]
      exact .inr (shades_vgaEntry c fg bg)

/-- Red on blue. -/
theorem setcolor_paints_redBlue : ∃ m' t',
    setcolorOn 0x8000 (lineMemory (text "red blue")) (terminalInitialize poweredOn) = some (m', t') ∧
      let p' := (text "hi").foldl Paper.type { Paper.blank (vgaEntryColor .magenta .black) with color := vgaEntryColor .red .blue }
      Depicts (terminalWrite (text "hi") t') p' ∧
        ∀ r x, p'.cells r x = vgaEntry space (vgaEntryColor .magenta .black) ∨ shades (p'.cells r x) = (4, 1) := by
  have hlen : (text "red blue").length = 8 := by decide
  have hat := @at_lineMemory (text "red blue") (by omega)
  obtain ⟨m', t', hrun, -, hpainted⟩ := setcolor_paints hat (by decide) (by decide) (by omega)
    (terminalInitialize_depicts poweredOn) (text "hi")
  have hcolors : colorsOf (text "red blue") = some (.red, .blue) := by decide
  rw [hcolors] at hpainted
  exact ⟨m', t', hrun, hpainted⟩

end KevOS.Shell.Colors
