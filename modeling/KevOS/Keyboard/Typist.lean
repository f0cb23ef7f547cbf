import KevOS.Keyboard.Typing
import Mathlib.Data.List.Infix

namespace KevOS.Keyboard.Typist

open Fifo Typing

/-- The modifiers of a keyboard. -/
structure Modifiers where
  left : Bool
  right : Bool
  caps : Bool

/-- What a code does to the modifiers. -/
def Modifiers.after (code : UInt8) (h : Modifiers) : Modifiers where
  left := if code = 0x2A then true else if code = 0xAA then false else h.left
  right := if code = 0x36 then true else if code = 0xB6 then false else h.right
  caps := if code = 0x3A then !h.caps else h.caps

/-- The text that a stream of codes stands for. -/
def reading : Modifiers → List UInt8 → List UInt8
  | _, [] => []
  | h, code :: codes => ((keyAt code).map (Key.character (h.left || h.right) h.caps)).toList ++ reading (h.after code) codes

/-- Where a character is on the keyboard: whether it takes Shift, and the make code of its key. -/
def keyFor (caps : Bool) (c : UInt8) : Option (Bool × UInt8) :=
  [false, true].findSome? fun shift ↦
    (layout.find? fun entry ↦ entry.2.character shift caps = c).map fun entry ↦ (shift, UInt8.ofNat entry.1)

/-- The codes of one character: its key is pressed and released, with the left Shift key held if necessary. -/
def strokes (caps : Bool) (c : UInt8) : List UInt8 :=
  match keyFor caps c with
  | some (false, code) => [code, code ||| 0x80]
  | some (true, code) => [0x2A, code, code ||| 0x80, 0xAA]
  | none => []

/-- The codes that arrive, in their order. -/
def sent (events : List Event) : List UInt8 :=
  events.filterMap fun | .interrupt code => some code | .getchar => none

def modifiers (k : Driver) : Modifiers := ⟨k.lshiftPressed, k.rshiftPressed, k.capsLock⟩

section Strokes

variable {caps shift : Bool} {c code : UInt8} {h : Modifiers} {codes : List UInt8} {s : List UInt8}

/-- No two keys have the same code, and none has the code of Shift or of Caps Lock. -/
theorem layout_codes : ∀ entry ∈ layout, keyAt (UInt8.ofNat entry.1) = some entry.2 ∧
    keyAt (UInt8.ofNat entry.1 ||| 0x80) = none ∧ UInt8.ofNat entry.1 ∉ [0x2A, 0xAA, 0x36, 0xB6, 0x3A] ∧
      UInt8.ofNat entry.1 ||| 0x80 ∉ [0x2A, 0xAA, 0x36, 0xB6, 0x3A] := by
  decide +kernel

theorem keyFor_spec (h : keyFor caps c = some (shift, code)) :
    (keyAt code).map (Key.character shift caps) = some c ∧ keyAt (code ||| 0x80) = none ∧
      code ∉ [0x2A, 0xAA, 0x36, 0xB6, 0x3A] ∧ code ||| 0x80 ∉ [0x2A, 0xAA, 0x36, 0xB6, 0x3A] := by
  obtain ⟨shift', -, hfound⟩ := List.exists_of_findSome?_eq_some h
  obtain ⟨entry, hentry, heq⟩ := Option.map_eq_some_iff.mp hfound
  obtain ⟨rfl, rfl⟩ := Prod.mk.inj heq
  have hcharacter : entry.2.character shift' caps = c := by simpa using List.find?_some hentry
  obtain ⟨hkey, hcodes⟩ := layout_codes entry (List.mem_of_find?_eq_some hentry)
  exact ⟨by rw [hkey, Option.map_some, hcharacter], hcodes⟩

/-- The printable characters, and Backspace, Tab, Enter and Escape. -/
def Typable (c : UInt8) : Prop := 32 ≤ c ∧ c ≤ 126 ∨ c ∈ [8, 9, 10, 27]

instance : DecidablePred Typable := fun _ ↦ inferInstanceAs (Decidable (_ ∨ _))

theorem keyFor_isSome : ∀ c caps, Typable c → (keyFor caps c).isSome :=
  forall_byte (by decide +kernel)

theorem after_eq_self (hcode : code ∉ [0x2A, 0xAA, 0x36, 0xB6, 0x3A]) (h : Modifiers) : h.after code = h := by
  simp only [List.mem_cons, List.not_mem_nil, or_false, not_or] at hcode
  simp [Modifiers.after, hcode]

/-- The codes of a character stand for it, and leave the modifiers as they were. -/
theorem reading_strokes (hc : Typable c) :
    reading ⟨false, false, caps⟩ (strokes caps c ++ codes) = c :: reading ⟨false, false, caps⟩ codes := by
  obtain ⟨⟨shift, code⟩, hsome⟩ := Option.isSome_iff_exists.mp (keyFor_isSome c caps hc)
  obtain ⟨hchar, hbreak, hcode, hcode'⟩ := keyFor_spec hsome
  have hpress : keyAt 0x2A = none := keyAt_eq_none 0x2A (by decide)
  have hrelease : keyAt 0xAA = none := keyAt_eq_none 0xAA (by decide)
  cases shift with
  | false => simp [strokes, hsome, reading, after_eq_self hcode, after_eq_self hcode', hbreak, hchar]
  | true =>
    have hheld : Modifiers.after 0x2A ⟨false, false, caps⟩ = ⟨true, false, caps⟩ := rfl
    have hleft : Modifiers.after 0xAA ⟨true, false, caps⟩ = ⟨false, false, caps⟩ := rfl
    simp [strokes, hsome, reading, after_eq_self hcode, after_eq_self hcode', hbreak, hchar, hpress, hrelease, hheld,
      hleft]

/-- What is typed can be read back. -/
theorem reading_flatMap_strokes (hs : ∀ c ∈ s, Typable c) :
    reading ⟨false, false, caps⟩ (s.flatMap (strokes caps)) = s := by
  induction s with
  | nil => rfl
  | cons c s ih =>
    rw [List.forall_mem_cons] at hs
    rw [List.flatMap_cons, reading_strokes hs.1, ih hs.2]

end Strokes

section Runs

variable {s : State} {pending : List UInt8} {events : List Event}

theorem after_codes (code : UInt8) (k : Driver) : modifiers (keyboardHandler code k) = (modifiers k).after code := by
  obtain ⟨hl, hr, hcaps⟩ := keyboardHandler_modifiers code k
  rw [modifiers, hl, hr, hcaps]
  rfl

/-- A code that finds room in the ring adds what it types. -/
theorem Queued.offer (h : Queued s pending) (hroom : pending.length ≠ 255) (code : UInt8) :
    Queued (step s (.interrupt code)) (pending ++ (typed s.keyboard code).toList) := by
  obtain ⟨more, hmore⟩ := h.interrupt code
  have haccepted : (keyboardHandler code s.keyboard).accepted =
      s.keyboard.accepted ++ (typed s.keyboard code).toList := by
    cases htyped : typed s.keyboard code with
    | none => rw [(keyboardHandler_of_not_typed htyped).accepted, Option.toList_none, List.append_nil]
    | some c => rw [keyboardHandler_of_typed htyped, (push_of_room h.ring hroom).2, Option.toList_some]
  have hsame := hmore.accepted
  rw [step] at hsame
  dsimp only at hsame
  rw [haccepted, h.accepted, List.append_assoc, List.append_cancel_left_eq, List.append_cancel_left_eq] at hsame
  rw [hsame]
  exact hmore

/-- A step of the reader leaves what was accepted, and the modifiers. -/
theorem Queued.read (h : Queued s pending) : ∃ pending', Queued (step s .getchar) pending' ∧
    (step s .getchar).keyboard.accepted = s.keyboard.accepted ∧
      modifiers (step s .getchar).keyboard = modifiers s.keyboard := by
  obtain ⟨pending', h'⟩ := h.getchar
  obtain ⟨tail, htail⟩ := getcharStep_keyboard s
  refine ⟨pending', h', ?_, ?_⟩
  · rw [step, htail]
  · rw [step, htail]
    rfl

/-- There is room in the ring whenever a code arrives. -/
def Roomy (s : State) (events : List Event) : Prop :=
  ∀ before code after, events = before ++ .interrupt code :: after →
    let s' := before.foldl step s
    s'.keyboard.accepted.length < s'.returned.length + 255

theorem Roomy.tail {e : Event} (h : Roomy s (e :: events)) : Roomy (step s e) events := by
  intro before code after heq
  exact h (e :: before) code after (by rw [heq, List.cons_append])

/-- Whatever the order of the steps, what is accepted is what the codes stand for. -/
theorem accepted_run (h : Queued s pending) (hroom : Roomy s events) :
    let s' := events.foldl step s
    s'.keyboard.accepted = s.keyboard.accepted ++ reading (modifiers s.keyboard) (sent events) := by
  intro s'
  induction events generalizing s pending with
  | nil => simp [s', sent, reading]
  | cons e events ih =>
    cases e with
    | getchar =>
      obtain ⟨pending', h', haccepted, hmodifiers⟩ := Queued.read h
      have hrest := ih h' hroom.tail
      rw [haccepted, hmodifiers] at hrest
      exact hrest
    | interrupt code =>
      have hlt := hroom [] code events rfl
      dsimp only [List.foldl_nil] at hlt
      rw [h.accepted, List.length_append] at hlt
      have hoffer := Queued.offer h (by omega) code
      have haccepted := hoffer.accepted
      have hreturned : (step s (.interrupt code)).returned = s.returned := rfl
      rw [hreturned, ← List.append_assoc, ← h.accepted] at haccepted
      have hrest := ih hoffer hroom.tail
      rw [haccepted] at hrest
      have hmodifiers : modifiers (step s (.interrupt code)).keyboard = (modifiers s.keyboard).after code :=
        after_codes code s.keyboard
      rw [hmodifiers, typed_eq, List.append_assoc] at hrest
      exact hrest

/-- How many steps the reader takes until the ring is empty. -/
def remaining (s : State) (pending : List UInt8) : ℕ :=
  match s.getchar with
  | .test => 3 * pending.length
  | .fetch => 3 * pending.length - 1
  | .advance _ => 3 * pending.length - 2

/-- A reader that is not interrupted returns everything that is in the ring. -/
theorem Queued.drained (h : Queued s pending) {n : ℕ} (hn : remaining s pending ≤ n) :
    ((List.replicate n .getchar).foldl step s).returned = s.keyboard.accepted := by
  induction n generalizing s pending with
  | zero =>
    rw [remaining] at hn
    have hempty : pending = [] := by
      cases hpc : s.getchar with
      | test =>
        rw [hpc] at hn
        dsimp only at hn
        exact List.eq_nil_of_length_eq_zero (by omega)
      | fetch =>
        obtain ⟨c, rest, rfl⟩ := List.exists_cons_of_ne_nil (h.fetch hpc)
        rw [hpc, List.length_cons] at hn
        dsimp only at hn
        omega
      | advance c =>
        obtain ⟨rest, rfl⟩ := h.advance c hpc
        rw [hpc, List.length_cons] at hn
        dsimp only at hn
        omega
    rw [h.accepted, hempty, List.append_nil]
    rfl
  | succ n ih =>
    rw [List.replicate_succ, List.foldl_cons]
    obtain ⟨pending', h', haccepted, -⟩ := Queued.read h
    rw [← haccepted]
    refine ih h' ?_
    have hlength : s.returned.length + pending.length = (step s .getchar).returned.length + pending'.length := by
      rw [← List.length_append, ← h.accepted, ← haccepted, h'.accepted, List.length_append]
    rw [remaining] at hn ⊢
    cases hpc : s.getchar with
    | test =>
      rw [hpc] at hn
      simp only [step, getcharStep, hpc] at hlength ⊢
      split at hlength
      case isTrue hempty =>
        have hnil := h.ring.empty_iff.mp hempty
        rw [if_pos hempty, hpc]
        rw [hnil, List.length_nil] at hlength
        dsimp only
        omega
      case isFalse hne =>
        rw [if_neg hne]
        dsimp only at hlength hn ⊢
        omega
    | fetch =>
      rw [hpc] at hn
      simp only [step, getcharStep, hpc] at hlength ⊢
      dsimp only at hn
      omega
    | advance c =>
      rw [hpc] at hn
      simp only [step, getcharStep, hpc, List.length_append, List.length_singleton] at hlength ⊢
      dsimp only at hn
      omega

end Runs

/-- Whoever types a text with no key held down before, at whatever times, and with the reader at whatever steps in
between, finds the text behind what was typed before, as long as the ring has room for each code. A reader that
goes on returns all of it, within the steps that a full ring takes. -/
theorem typed_text_arrives (before during : List Event) (text : List UInt8)
    (hleft : (before.foldl step initial).keyboard.lshiftPressed = false)
    (hright : (before.foldl step initial).keyboard.rshiftPressed = false)
    (htext : ∀ c ∈ text, Typable c)
    (hsent : sent during = text.flatMap (strokes (before.foldl step initial).keyboard.capsLock))
    (hroom : Roomy (before.foldl step initial) during) :
    let s := before.foldl step initial
    let s' := during.foldl step s
    s'.keyboard.accepted = s.keyboard.accepted ++ text ∧ s'.returned <+: s'.keyboard.accepted ∧
      ∀ n ≥ 765, ((List.replicate n .getchar).foldl step s').returned = s.keyboard.accepted ++ text := by
  intro s s'
  obtain ⟨pending, h⟩ := queued_initial.run before
  obtain ⟨pending', h'⟩ := h.run during
  have haccepted : s'.keyboard.accepted = s.keyboard.accepted ++ text := by
    have hmodifiers : modifiers s.keyboard = ⟨false, false, s.keyboard.capsLock⟩ := by
      rw [modifiers, hleft, hright]
    have hrun := accepted_run h hroom
    rw [hsent, hmodifiers, reading_flatMap_strokes htext] at hrun
    exact hrun
  refine ⟨haccepted, ⟨pending', h'.accepted.symm⟩, fun n hn ↦ ?_⟩
  have hlength : pending'.length ≤ 255 := by
    exact Nat.le_of_lt_succ h'.ring.length_lt
  have hremaining : remaining s' pending' ≤ 765 := by
    rw [remaining]
    split <;> omega
  rw [Queued.drained h' (hremaining.trans hn), haccepted]

/-- The first letter is a capital, and the reader has got hold of it when the second key is pressed. -/
theorem typed_text_arrives_hi :
    let during : List Event := [.interrupt 0x2A, .interrupt 0x23, .getchar, .interrupt 0xA3, .getchar,
      .interrupt 0xAA, .interrupt 0x17, .interrupt 0x97, .getchar]
    (during.foldl step initial).returned = [72] ∧
      ∀ n ≥ 765, ((List.replicate n .getchar).foldl step (during.foldl step initial)).returned = [72, 105] := by
  intro during
  have hroom : Roomy initial during := by
    intro before code after heq
    have hall : ∀ b ∈ during.inits, (b.foldl step initial).keyboard.accepted.length <
        (b.foldl step initial).returned.length + 255 := by decide
    exact hall before ((List.mem_inits before during).mpr ⟨_, heq.symm⟩)
  have htext : ∀ c ∈ [72, 105], Typable c := by
    intro c hc
    rcases List.mem_pair.mp hc with rfl | rfl
    · decide
    · decide
  refine ⟨by decide, ?_⟩
  exact (typed_text_arrives [] during [72, 105] rfl rfl htext (by decide +kernel) hroom).2.2

end KevOS.Keyboard.Typist
