import KevOS.Keyboard.Model
import Mathlib.Data.List.Basic

namespace KevOS.Keyboard.Fifo

open Lib.RingBuffer

/-- The character that a key press is going to store, if it has one. -/
def typed (k : Driver) (scancode : UInt8) : Option UInt8 :=
  if scancode = 0x2A ∨ scancode = 0x36 ∨ scancode = 0x3A ∨ scancode &&& 0x80 ≠ 0 then none
  else if keyChar k scancode ≠ 0 then some (applyCapsLock k.capsLock (keyChar k scancode))
  else none

section Handler

variable {k : Driver} {scancode c : UInt8} {pending : List UInt8}

theorem keyboardHandler_of_typed (h : typed k scancode = some c) :
    keyboardHandler scancode k = push c k := by
  unfold typed at h
  split at h
  · contradiction
  case isFalse hkey =>
    simp only [not_or, not_not] at hkey
    obtain ⟨hl, hr, hcaps, hpress⟩ := hkey
    have hne (b : UInt8) (hb : b &&& 0x80 ≠ 0) : scancode ≠ b := fun heq ↦ hb (heq ▸ hpress)
    rw [keyboardHandler, if_neg hl, if_neg (hne 0xAA (by decide)), if_neg hr,
      if_neg (hne 0xB6 (by decide)), if_neg hcaps, if_pos hpress]
    split at h
    case isTrue hc =>
      injection h with hcc
      dsimp only
      rw [if_pos hc, hcc]
    case isFalse => contradiction

/-- Nothing but the modifiers is changed. -/
structure SameRing (k k' : Driver) : Prop where
  buffer : k'.kbdBuffer = k.kbdBuffer
  head : k'.kbdBufferHead = k.kbdBufferHead
  tail : k'.kbdBufferTail = k.kbdBufferTail
  accepted : k'.accepted = k.accepted

theorem keyboardHandler_of_not_typed (h : typed k scancode = none) :
    SameRing k (keyboardHandler scancode k) := by
  unfold keyboardHandler
  split
  · exact ⟨rfl, rfl, rfl, rfl⟩
  split
  · exact ⟨rfl, rfl, rfl, rfl⟩
  split
  · exact ⟨rfl, rfl, rfl, rfl⟩
  split
  · exact ⟨rfl, rfl, rfl, rfl⟩
  split
  · exact ⟨rfl, rfl, rfl, rfl⟩
  split
  case isTrue hl _ hr _ hcaps hpress =>
    rw [typed, if_neg (by simp [hl, hr, hcaps, hpress])] at h
    split at h
    · contradiction
    case isFalse hc =>
      dsimp only
      rw [if_neg hc]
      exact ⟨rfl, rfl, rfl, rfl⟩
  case isFalse => exact ⟨rfl, rfl, rfl, rfl⟩

/-- The ring of the driver holds the characters `pending`. -/
def Pending (k : Driver) (pending : List UInt8) : Prop :=
  Holds kbdBufferSize k.kbdBuffer k.kbdBufferHead k.kbdBufferTail pending

theorem SameRing.transport {k' : Driver} (h : SameRing k k') (hp : Pending k pending) :
    Pending k' pending := by
  rw [Pending, h.buffer, h.head, h.tail]
  exact hp

theorem push_of_full (hp : Pending k pending) (h : pending.length = 255) : push c k = k := by
  have hfull : (k.kbdBufferHead + 1) % kbdBufferSize = k.kbdBufferTail :=
    hp.full_iff.mpr (congrArg (· + 1) h)
  exact if_neg (not_not.mpr hfull)

theorem push_of_room (hp : Pending k pending) (h : pending.length ≠ 255) :
    Pending (push c k) (pending ++ [c]) ∧ (push c k).accepted = k.accepted ++ [c] := by
  have hroom : (k.kbdBufferHead + 1) % kbdBufferSize ≠ k.kbdBufferTail := by
    intro hfull
    exact h (Nat.succ.inj (hp.full_iff.mp hfull))
  rw [push, if_pos hroom]
  exact ⟨hp.push hroom c, rfl⟩

end Handler

/-- The characters that were accepted are those returned and those in the ring, and the
reader has got hold of the first of these. -/
structure Queued (s : State) (pending : List UInt8) : Prop where
  ring : Pending s.keyboard pending
  accepted : s.keyboard.accepted = s.returned ++ pending
  fetch : s.getchar = .fetch → pending ≠ []
  advance : ∀ c, s.getchar = .advance c → ∃ rest, pending = c :: rest

section Steps

variable {s : State} {pending : List UInt8}

theorem queued_initial : Queued initial [] where
  ring := holds_nil _ (by decide)
  accepted := rfl
  fetch h := nomatch h
  advance _ h := nomatch h

theorem Queued.interrupt (h : Queued s pending) (scancode : UInt8) :
    ∃ more, Queued (step s (.interrupt scancode)) (pending ++ more) := by
  have hmore {k : Driver} (more : List UInt8) (hring : Pending k (pending ++ more))
      (haccepted : k.accepted = s.keyboard.accepted ++ more) :
      Queued { s with keyboard := k } (pending ++ more) := by
    refine ⟨hring, ?_, fun hpc ↦ List.append_ne_nil_of_left_ne_nil (h.fetch hpc) _, fun c hpc ↦ ?_⟩
    · dsimp only
      rw [haccepted, h.accepted, List.append_assoc]
    · obtain ⟨rest, hrest⟩ := h.advance c hpc
      exact ⟨rest ++ more, by rw [hrest, List.cons_append]⟩
  rw [step]
  cases htyped : typed s.keyboard scancode with
  | none =>
    have hsame := keyboardHandler_of_not_typed htyped
    refine ⟨[], hmore [] ?_ ?_⟩
    · rw [List.append_nil]
      exact hsame.transport h.ring
    · rw [List.append_nil, hsame.accepted]
  | some c =>
    rw [keyboardHandler_of_typed htyped]
    by_cases hfull : pending.length = 255
    · rw [push_of_full h.ring hfull]
      exact ⟨[], hmore [] (by rw [List.append_nil]; exact h.ring) (List.append_nil _).symm⟩
    · have hroom := push_of_room (c := c) h.ring hfull
      exact ⟨[c], hmore [c] hroom.1 hroom.2⟩

theorem Queued.getchar (h : Queued s pending) :
    ∃ pending', Queued (step s .getchar) pending' := by
  rw [step, getcharStep]
  cases hpc : s.getchar with
  | test =>
    dsimp only
    split
    · exact ⟨pending, h⟩
    case isFalse hne =>
      exact ⟨pending, h.ring, h.accepted, fun _ ↦ mt h.ring.empty_iff.mpr hne, fun _ h ↦ nomatch h⟩
  | fetch =>
    obtain ⟨c, rest, rfl⟩ := List.exists_cons_of_ne_nil (h.fetch hpc)
    refine ⟨c :: rest, h.ring, h.accepted, fun h ↦ (nomatch h), fun d hd ↦ ⟨rest, ?_⟩⟩
    injection hd with hd
    rw [← hd, h.ring.slot_tail]
  | advance c =>
    obtain ⟨rest, rfl⟩ := h.advance c hpc
    refine ⟨rest, h.ring.pop, ?_, fun h ↦ (nomatch h), fun _ h ↦ (nomatch h)⟩
    dsimp only
    rw [h.accepted, List.append_assoc, List.singleton_append]

theorem Queued.step (h : Queued s pending) (e : Event) :
    ∃ pending', Queued (Keyboard.step s e) pending' := by
  cases e with
  | interrupt scancode =>
    obtain ⟨more, hmore⟩ := h.interrupt scancode
    exact ⟨_, hmore⟩
  | getchar => exact h.getchar

theorem Queued.run (h : Queued s pending) (events : List Event) :
    ∃ pending', Queued (events.foldl Keyboard.step s) pending' := by
  induction events generalizing s pending with
  | nil => exact ⟨pending, h⟩
  | cons e events ih =>
    obtain ⟨pending', h'⟩ := h.step e
    exact ih h'

/-- The ring is a queue of at most 255 characters, whatever the order of the steps. -/
theorem run_fifo (events : List Event) :
    let s := events.foldl step initial
    s.keyboard.kbdBufferHead < kbdBufferSize ∧ s.keyboard.kbdBufferTail < kbdBufferSize ∧
      s.returned <+: s.keyboard.accepted ∧
      ∃ pending, s.keyboard.accepted = s.returned ++ pending ∧ Pending s.keyboard pending ∧
        ∀ scancode c, typed s.keyboard scancode = some c →
          (step s (.interrupt scancode)).keyboard.accepted =
            if pending.length = 255 then s.keyboard.accepted else s.keyboard.accepted ++ [c] := by
  intro s
  obtain ⟨pending, h⟩ := queued_initial.run events
  refine ⟨h.ring.head_lt, h.ring.tail_lt, ⟨pending, h.accepted.symm⟩, pending, h.accepted, h.ring,
    fun scancode c htyped ↦ ?_⟩
  rw [step, keyboardHandler_of_typed htyped]
  split
  · rw [push_of_full h.ring ‹_›]
  · exact (push_of_room h.ring ‹_›).2

end Steps

end KevOS.Keyboard.Fifo
