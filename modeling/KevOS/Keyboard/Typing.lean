import KevOS.Keyboard.Fifo
import Mathlib.Data.Fin.Basic
import Mathlib.Data.List.Induction
import Mathlib.Algebra.Group.Nat.Even

namespace KevOS.Keyboard.Typing

open Fifo

/-- What is printed on a key, and what it types with Shift. -/
inductive Key
  | letter (lower : UInt8)
  | symbol (plain shifted : UInt8)
  deriving DecidableEq, Repr

/-- Letters with Shift or with Caps Lock, but not with both, are capitals. -/
def Key.character (shift caps : Bool) : Key → UInt8
  | .letter lower => if shift ≠ caps then lower - 32 else lower
  | .symbol plain shifted => if shift then shifted else plain

/-- Keys next to each other, from the one with the code `first` on. -/
def row (first : ℕ) (keys : List Key) : List (ℕ × Key) := keys.mapIdx fun i key ↦ (first + i, key)

def letters (first : ℕ) (lower : List UInt8) : List (ℕ × Key) := row first (lower.map .letter)

def symbols (first : ℕ) (legends : List (UInt8 × UInt8)) : List (ℕ × Key) :=
  row first (legends.map fun l ↦ .symbol l.1 l.2)

/-- The keys of a US keyboard that have a character, with their make codes in set 1. -/
def layout : List (ℕ × Key) :=
  -- Escape and the digits, up to Backspace
  symbols 0x01 [(27, 27), (49, 33), (50, 64), (51, 35), (52, 36), (53, 37), (54, 94), (55, 38), (56, 42),
    (57, 40), (48, 41), (45, 95), (61, 43), (8, 8)] ++
  -- Tab, Q to P, the brackets, and Enter
  symbols 0x0F [(9, 9)] ++
  letters 0x10 [113, 119, 101, 114, 116, 121, 117, 105, 111, 112] ++
  symbols 0x1A [(91, 123), (93, 125), (10, 10)] ++
  -- A to L, the semicolon, the quote and the grave accent
  letters 0x1E [97, 115, 100, 102, 103, 104, 106, 107, 108] ++
  symbols 0x27 [(59, 58), (39, 34), (96, 126)] ++
  -- the backslash, Z to M, the comma, the full stop and the slash
  symbols 0x2B [(92, 124)] ++
  letters 0x2C [122, 120, 99, 118, 98, 110, 109] ++
  symbols 0x33 [(44, 60), (46, 62), (47, 63)] ++
  -- the star of the keypad, and Space
  symbols 0x37 [(42, 42)] ++ symbols 0x39 [(32, 32)]

/-- The key with this make code, if it has a character. -/
def keyAt (code : UInt8) : Option Key :=
  (layout.find? fun entry ↦ entry.1 = code.toNat).map Prod.snd

theorem forall_byte {P : UInt8 → Prop} (h : ∀ n < 256, P (UInt8.ofNat n)) (b : UInt8) : P b := by
  have hb := h b.toNat b.toNat_lt
  rwa [UInt8.ofNat_toNat] at hb

/-- Break codes, Shift and Caps Lock have no character. -/
theorem keyAt_eq_none : ∀ code : UInt8,
    code &&& 0x80 ≠ 0 ∨ code = 0x2A ∨ code = 0x36 ∨ code = 0x3A → keyAt code = none :=
  forall_byte (by decide +kernel)

/-- Whether the last code of the key was a make code. The latest code comes first. -/
def held (key : UInt8) : List UInt8 → Bool
  | [] => false
  | code :: codes => if code &&& 0x7F = key then decide (code = key) else held key codes

/-- How often the key was pressed down. -/
def presses (key : UInt8) : List UInt8 → ℕ
  | [] => 0
  | code :: codes => presses key codes + if code = key ∧ held key codes = false then 1 else 0

/-- How often the key sent its make code again while it was held. -/
def repeats (key : UInt8) : List UInt8 → ℕ
  | [] => 0
  | code :: codes => repeats key codes + if code = key ∧ held key codes = true then 1 else 0

def shiftHeld (codes : List UInt8) : Bool := held 0x2A codes || held 0x36 codes

def capsOn (codes : List UInt8) : Bool := decide (presses 0x3A codes % 2 = 1)

/-- The character that the keyboard's user types with a code. -/
def expected (codes : List UInt8) (code : UInt8) : Option UInt8 :=
  (keyAt code).map (Key.character (shiftHeld codes) (capsOn codes))

/-- What the handler puts into a buffer that has room. -/
def offered (k : Driver) (code : UInt8) : List UInt8 :=
  (keyboardHandler code { k with kbdBufferTail := k.kbdBufferHead, accepted := [] }).accepted

/-- The codes that have been sent, the latest first. -/
def codes (events : List Event) : List UInt8 :=
  (events.filterMap fun | .interrupt code => some code | .getchar => none).reverse

section Tables

variable {k : Driver} {code c : UInt8} {shift caps : Bool}

/-- The tables of the driver and the inversion of its letters, as a function of the modifiers. -/
def translate (shift caps : Bool) (code : UInt8) : Option UInt8 :=
  let c := if shift then kbdUsShifted code else kbdUs code
  if code = 0x2A ∨ code = 0x36 ∨ code = 0x3A ∨ code &&& 0x80 ≠ 0 then none
  else if c ≠ 0 then some (applyCapsLock caps c) else none

theorem translate_eq_layout : ∀ code shift caps,
    translate shift caps code = (keyAt code).map (Key.character shift caps) :=
  forall_byte (by decide +kernel)

theorem typed_eq (k : Driver) (code : UInt8) : typed k code =
    (keyAt code).map (Key.character (k.lshiftPressed || k.rshiftPressed) k.capsLock) :=
  translate_eq_layout code (k.lshiftPressed || k.rshiftPressed) k.capsLock

theorem offered_eq (k : Driver) (code : UInt8) : offered k code = (typed k code).toList := by
  set k' : Driver := { k with kbdBufferTail := k.kbdBufferHead, accepted := [] }
  have hsame : typed k' code = typed k code := rfl
  rw [offered, ← hsame]
  cases htyped : typed k' code with
  | none => exact (keyboardHandler_of_not_typed htyped).accepted
  | some c =>
    have hroom : (k'.kbdBufferHead + 1) % kbdBufferSize ≠ k'.kbdBufferTail := by
      simp only [k', kbdBufferSize]
      omega
    rw [keyboardHandler_of_typed htyped, push, if_pos hroom]
    rfl

end Tables

section Modifiers

variable {k : Driver} {code c : UInt8} {cs : List UInt8} {events : List Event}

theorem push_modifiers (c : UInt8) (k : Driver) : (push c k).lshiftPressed = k.lshiftPressed ∧
    (push c k).rshiftPressed = k.rshiftPressed ∧ (push c k).capsLock = k.capsLock := by
  unfold push
  dsimp only
  split_ifs
  · exact ⟨rfl, rfl, rfl⟩
  · exact ⟨rfl, rfl, rfl⟩

theorem keyboardHandler_modifiers (code : UInt8) (k : Driver) :
    (keyboardHandler code k).lshiftPressed =
        (if code = 0x2A then true else if code = 0xAA then false else k.lshiftPressed) ∧
      (keyboardHandler code k).rshiftPressed =
        (if code = 0x36 then true else if code = 0xB6 then false else k.rshiftPressed) ∧
      (keyboardHandler code k).capsLock = if code = 0x3A then !k.capsLock else k.capsLock := by
  by_cases hl : code = 0x2A
  · simp [keyboardHandler, hl]
  by_cases hl' : code = 0xAA
  · simp [keyboardHandler, hl']
  by_cases hr : code = 0x36
  · simp [keyboardHandler, hr]
  by_cases hr' : code = 0xB6
  · simp [keyboardHandler, hr']
  by_cases hcaps : code = 0x3A
  · simp [keyboardHandler, hcaps]
  simp only [keyboardHandler, if_neg hl, if_neg hl', if_neg hr, if_neg hr', if_neg hcaps]
  split_ifs
  · exact push_modifiers _ k
  · exact ⟨rfl, rfl, rfl⟩
  · exact ⟨rfl, rfl, rfl⟩

/-- The variables of the driver after the codes `cs`. -/
structure Tracks (k : Driver) (cs : List UInt8) : Prop where
  lshift : k.lshiftPressed = held 0x2A cs
  rshift : k.rshiftPressed = held 0x36 cs
  caps : k.capsLock = decide ((presses 0x3A cs + repeats 0x3A cs) % 2 = 1)

theorem shift_codes : ∀ code : UInt8, (code &&& 0x7F = 0x2A ↔ code = 0x2A ∨ code = 0xAA) ∧
    (code &&& 0x7F = 0x36 ↔ code = 0x36 ∨ code = 0xB6) :=
  forall_byte (by decide +kernel)

/-- The two codes of a key decide whether it is held. -/
theorem held_cons {key brk : UInt8} (hcode : code &&& 0x7F = key ↔ code = key ∨ code = brk) :
    held key (code :: cs) = if code = key then true else if code = brk then false else held key cs := by
  by_cases hmake : code = key
  · rw [held, if_pos (hcode.mpr (.inl hmake)), if_pos hmake, decide_eq_true hmake]
  by_cases hbreak : code = brk
  · rw [held, if_pos (hcode.mpr (.inr hbreak)), if_neg hmake, if_pos hbreak, decide_eq_false hmake]
  · have hother : code &&& 0x7F ≠ key := fun h ↦ (hcode.mp h).elim hmake hbreak
    rw [held, if_neg hother, if_neg hmake, if_neg hbreak]

/-- A make code is a press or a repeat. -/
theorem presses_add_repeats_cons (key code : UInt8) (cs : List UInt8) :
    presses key (code :: cs) + repeats key (code :: cs) =
      presses key cs + repeats key cs + if code = key then 1 else 0 := by
  rw [presses, repeats]
  by_cases hmake : code = key
  · cases held key cs <;> simp [hmake] <;> omega
  · simp [hmake]

theorem Tracks.handler (h : Tracks k cs) (code : UInt8) : Tracks (keyboardHandler code k) (code :: cs) := by
  obtain ⟨hl, hr, hcaps⟩ := keyboardHandler_modifiers code k
  obtain ⟨hleft, hright⟩ := shift_codes code
  refine ⟨?_, ?_, ?_⟩
  · rw [hl, held_cons hleft, h.lshift]
  · rw [hr, held_cons hright, h.rshift]
  · rw [hcaps, presses_add_repeats_cons, h.caps]
    split_ifs
    · rw [← decide_not, decide_eq_decide]
      omega
    · rfl

theorem getcharStep_keyboard (s : State) : ∃ tail, (getcharStep s).keyboard = { s.keyboard with kbdBufferTail := tail } := by
  unfold getcharStep
  dsimp only
  split
  · split_ifs
    · exact ⟨_, rfl⟩
    · exact ⟨_, rfl⟩
  · exact ⟨_, rfl⟩
  · exact ⟨_, rfl⟩

/-- The reader does not touch the modifiers, so only the codes count. -/
theorem tracks_run (events : List Event) : Tracks (events.foldl step initial).keyboard (codes events) := by
  induction events using List.reverseRecOn with
  | nil => exact ⟨rfl, rfl, rfl⟩
  | append_singleton events e ih =>
    rw [List.foldl_append, List.foldl_cons, List.foldl_nil]
    cases e with
    | interrupt code =>
      have hcodes : codes (events ++ [.interrupt code]) = code :: codes events := by simp [codes]
      rw [hcodes]
      exact ih.handler code
    | getchar =>
      have hcodes : codes (events ++ [.getchar]) = codes events := by simp [codes]
      obtain ⟨tail, htail⟩ := getcharStep_keyboard (events.foldl step initial)
      rw [hcodes, step, htail]
      exact ⟨ih.lshift, ih.rshift, ih.caps⟩

end Modifiers

section Streams

variable {key : Key} {shift : Bool} {k : Driver} {cs : List UInt8} {code : UInt8}

def IsLetter (code : UInt8) : Prop := ∃ lower, keyAt code = some (.letter lower)

/-- Caps Lock makes no difference to other keys. -/
theorem character_eq_iff (shift caps caps' : Bool) (key : Key) :
    key.character shift caps = key.character shift caps' ↔ caps = caps' ∨ ∀ lower, key ≠ .letter lower := by
  cases key with
  | letter lower =>
    have hne : lower - 32 ≠ lower := by
      intro h
      have hnat := congrArg UInt8.toNat h
      rw [UInt8.toNat_sub] at hnat
      have hlt := lower.toNat_lt
      have hval : (32 : UInt8).toNat = 32 := rfl
      omega
    cases shift <;> cases caps <;> cases caps' <;> simp [Key.character, hne, Ne.symm hne]
  | symbol plain shifted => simp [Key.character]

theorem capsLock_eq_capsOn_iff (h : Tracks k cs) : k.capsLock = capsOn cs ↔ Even (repeats 0x3A cs) := by
  rw [h.caps, capsOn, decide_eq_decide, Nat.even_iff]
  omega

/-- What the handler offers is what the user types, unless the key is a letter and Caps Lock
has been repeated an odd number of times. -/
theorem offered_eq_expected_iff (h : Tracks k cs) (code : UInt8) :
    offered k code = (expected cs code).toList ↔ (IsLetter code → Even (repeats 0x3A cs)) := by
  rw [offered_eq, typed_eq, expected, shiftHeld, h.lshift, h.rshift, ← capsLock_eq_capsOn_iff h]
  cases hkey : keyAt code with
  | none => simp [IsLetter, hkey]
  | some key =>
    rw [Option.map_some, Option.map_some, Option.toList_some, Option.toList_some, List.cons.injEq,
      and_iff_left rfl, character_eq_iff, IsLetter, hkey]
    simp only [Option.some.injEq]
    constructor
    · rintro (hcaps | hother) ⟨lower, hletter⟩
      · exact hcaps
      · exact absurd hletter (hother lower)
    · intro hcaps
      by_cases hletter : ∃ lower, key = .letter lower
      · exact .inl (hcaps hletter)
      · exact .inr (not_exists.mp hletter)

/-- Every code of a stream offers the reference character, if and only if no letter is typed after
an odd number of repeats of Caps Lock. -/
theorem stream_expected_iff (events : List Event) :
    (∀ before code after, events = before ++ .interrupt code :: after →
      offered (before.foldl step initial).keyboard code = (expected (codes before) code).toList) ↔
    ∀ before code after, events = before ++ .interrupt code :: after → IsLetter code →
      Even (repeats 0x3A (codes before)) := by
  constructor
  · intro h before code after heq
    exact (offered_eq_expected_iff (tracks_run before) code).mp (h before code after heq)
  · intro h before code after heq
    exact (offered_eq_expected_iff (tracks_run before) code).mpr (h before code after heq)

/-- Caps Lock is held until it repeats, and released; the next letter is small. -/
theorem repeated_capsLock_small :
    let events : List Event := [.interrupt 0x3A, .interrupt 0x3A, .interrupt 0xBA]
    offered (events.foldl step initial).keyboard 0x1E = [97] ∧ expected (codes events) 0x1E = some 65 ∧
      ¬ ∀ before code after, events ++ [.interrupt 0x1E] = before ++ .interrupt code :: after →
        offered (before.foldl step initial).keyboard code = (expected (codes before) code).toList := by
  intro events
  have hoffered : offered (events.foldl step initial).keyboard 0x1E = [97] := by decide
  have hexpected : expected (codes events) 0x1E = some 65 := by decide
  refine ⟨hoffered, hexpected, fun h ↦ ?_⟩
  have heq := h events 0x1E [] rfl
  rw [hoffered, hexpected] at heq
  exact absurd heq (by decide)

end Streams

end KevOS.Keyboard.Typing
