import KevOS.Interrupts.Replay
import KevOS.Lib.Pit8254
import KevOS.Shell.Replies

namespace KevOS.Interrupts.Pit

open Lib.Program Lib.Pit8254 Machine Libc.Format Replay Function
open Shell (text)
open Shell.Commands (State say)
open Shell.Replies (reply signed32)
open Shell.Cat (Holds holds_iff say_returns)

def pitCommandPort : ℕ := 0x43

def pitChannel0Data : ℕ := 0x40

def pitBaseFrequency : ℕ := 1193180

/-- The timer, and memory with the characters written to the terminal. -/
structure Board where
  timer : Timer
  state : State

def outb (port : ℕ) (value : UInt8) : Prog Board Unit :=
  modify fun b ↦ { b with timer := b.timer.write port value }

def pitInit (frequency : ℕ) : Prog Board Unit :=
  if frequency = 0 then throw .fault
  else do
    let divisor := pitBaseFrequency / frequency
    outb pitCommandPort 0x36
    outb pitChannel0Data (UInt8.ofNat (divisor &&& 0xFF))
    outb pitChannel0Data (UInt8.ofNat (divisor >>> 8 &&& 0xFF))
    zoom Board.state (fun b s ↦ { b with state := s }) (say "PIT initialized to %d Hz.\n" [frequency])

/-- How often the output of a channel goes high within `t` clocks, if it is a square wave. -/
def risen (c : Channel) (t : ℕ) : Option ℕ := c.square.map fun n ↦ edges n t

variable {f : ℕ} {b : Board}

section Programming

/-- The channel that the three bytes set up. -/
def programmed (divisor : ℕ) : Channel := ⟨3, 3, false, none, some (divisor % 65536)⟩

theorem write_divisor (divisor : ℕ) (t : Timer) :
    ((t.write pitCommandPort 0x36).write pitChannel0Data (UInt8.ofNat (divisor &&& 0xFF))).write pitChannel0Data
      (UInt8.ofNat (divisor >>> 8 &&& 0xFF)) = update t 0 (programmed divisor) := by
  have hbytes : (UInt8.ofNat (divisor &&& 0xFF)).toNat + 256 * (UInt8.ofNat (divisor >>> 8 &&& 0xFF)).toNat =
      divisor % 65536 := by
    have hlow : divisor &&& 0xFF = divisor % 256 := Nat.and_two_pow_sub_one_eq_mod divisor 8
    have hhigh : divisor >>> 8 &&& 0xFF = divisor / 256 % 256 := by
      rw [Nat.shiftRight_eq_div_pow]
      exact Nat.and_two_pow_sub_one_eq_mod _ 8
    rw [hlow, hhigh, UInt8.toNat_ofNat', UInt8.toNat_ofNat']
    omega
  have hcontrol : t.write pitCommandPort 0x36 = update t 0 ⟨3, 3, false, none, none⟩ := rfl
  have hlow (v : UInt8) : Timer.write pitChannel0Data v (update t 0 ⟨3, 3, false, none, none⟩) =
      update t 0 ⟨3, 3, false, some v, none⟩ := update_idem ..
  have hhigh (u v : UInt8) : Timer.write pitChannel0Data v (update t 0 ⟨3, 3, false, some u, none⟩) =
      update t 0 ⟨3, 3, false, none, some (u.toNat + 256 * v.toNat)⟩ := update_idem ..
  rw [hcontrol, hlow, hhigh, hbytes]
  rfl

theorem run_pitInit (hf : 0 < f) (hlt : f < 4294967296) (b : Board) : (pitInit f).run b =
    .ok () ⟨update b.timer 0 (programmed (pitBaseFrequency / f)), ⟨b.state.memory,
      b.state.output ++ (text "PIT initialized to " ++ signedNumeral (signed32 f) ++ text " Hz.\n")⟩⟩ := by
  have hsay : Returns (Holds b.state.memory b.state.output) (say "PIT initialized to %d Hz.\n" [f]) ()
      (Holds b.state.memory (b.state.output ++
        (text "PIT initialized to " ++ signedNumeral (signed32 f) ++ text " Hz.\n"))) := by
    have href : reference (text "PIT initialized to %d Hz.\n") [.int (signed32 f)] =
        some (text "PIT initialized to " ++ signedNumeral (signed32 f) ++ text " Hz.\n") := by
      have hf : text "PIT initialized to %d Hz.\n" = text "PIT initialized to " ++ 37 :: 100 :: text " Hz.\n" := by
        decide
      rw [hf]
      exact Shell.Replies.reference_item (by decide) (by decide) (Shell.Replies.convert_int _)
        (Shell.Replies.reference_plain (by decide) [])
    exact say_returns href (by decide) (by decide) (.cons (Shell.Replies.passes_signed32 hlt) .nil)
  have hzoom := @zoom_ok State Board Unit Board.state (fun b s ↦ { b with state := s }) _
    (⟨update b.timer 0 (programmed (pitBaseFrequency / f)), b.state⟩ : Board) () _ (Shell.Replies.run_of_returns hsay)
  rw [pitInit, if_neg (Nat.ne_of_gt hf), ← hzoom, ← write_divisor]
  rfl

/-- The count that the channel starts from. -/
theorem square_programmed (divisor : ℕ) : (programmed divisor).square =
    if divisor % 65536 = 1 then none else some (if divisor % 65536 = 0 then 65536 else divisor % 65536) := by
  simp only [programmed, Channel.square]
  by_cases hzero : divisor % 65536 = 0
  · simp [hzero]
  · simp [hzero]

/-- The timer has 16 bits, and at least two clocks to a period. -/
theorem risen_iff (hf : 0 < f) : (∀ t, risen (programmed (pitBaseFrequency / f)) t = some (t / (pitBaseFrequency / f))) ↔
    19 ≤ f ∧ f ≤ 596590 := by
  have hbase : pitBaseFrequency = 1193180 := rfl
  rw [hbase]
  have hlow : f ≤ 18 → 66287 ≤ 1193180 / f := fun h ↦ (Nat.le_div_iff_mul_le hf).mpr (by omega)
  have hslow : 19 ≤ f → 1193180 / f ≤ 62798 := fun h ↦ Nat.div_le_div_left h (by decide)
  have hfast : f ≤ 596590 → 2 ≤ 1193180 / f := fun h ↦ (Nat.le_div_iff_mul_le hf).mpr (by omega)
  have hhigh : 596591 ≤ f → 1193180 / f < 2 := fun h ↦ (Nat.div_lt_iff_lt_mul hf).mpr (by omega)
  generalize 1193180 / f = d at hlow hslow hfast hhigh ⊢
  unfold risen
  rw [square_programmed]
  constructor
  · intro hrate
    by_cases hone : d % 65536 = 1
    · have hnone := hrate 0
      rw [if_pos hone] at hnone
      cases hnone
    · simp only [if_neg hone, Option.map_some, Option.some.injEq] at hrate
      generalize hn : (if d % 65536 = 0 then 65536 else d % 65536) = n at hrate
      have hbounds : 2 ≤ n ∧ n ≤ 65536 := by
        split_ifs at hn <;> omega
      -- The first period is over after `n` clocks.
      have hfirst := hrate n
      rw [edges_eq hbounds.1 hbounds.2, Nat.div_self (by omega)] at hfirst
      have hpos : d ≠ 0 := by
        rintro rfl
        rw [Nat.div_zero] at hfirst
        cases hfirst
      have hle : d ≤ n := by
        by_contra hlt
        rw [Nat.div_eq_of_lt (by omega)] at hfirst
        cases hfirst
      split_ifs at hn <;> omega
  · rintro ⟨hf19, hf2⟩ t
    have hd : d % 65536 = d := Nat.mod_eq_of_lt (by omega)
    rw [hd, if_neg (by omega), if_neg (by omega), Option.map_some, edges_eq (by omega) (by omega)]

end Programming

/-- The timer is programmed whatever state it is in, and its output then goes high at the frequency that was asked
for, if and only if that lies between 19 Hz and 596590 Hz. -/
theorem pitInit_rate (hf : 0 < f) (hlt : f < 4294967296) (b : Board) : ∃ timer, (pitInit f).run b =
      .ok () ⟨timer, ⟨b.state.memory,
        b.state.output ++ (text "PIT initialized to " ++ signedNumeral (signed32 f) ++ text " Hz.\n")⟩⟩ ∧
    (∀ i, i ≠ 0 → timer i = b.timer i) ∧
    ((∀ t, risen (timer 0) t = some (t / (pitBaseFrequency / f))) ↔ 19 ≤ f ∧ f ≤ 596590) := by
  refine ⟨_, run_pitInit hf hlt b, fun i hi ↦ update_of_ne hi .., ?_⟩
  rw [update_self]
  exact risen_iff hf

/-- A timer that waits for the second byte of a count. -/
def halfWritten : Board := ⟨fun _ ↦ ⟨3, 2, true, some 7, none⟩, ⟨fun _ ↦ 0, []⟩⟩

/-- The frequency of the boot. -/
theorem pitInit_rate_boot : ∃ b, (pitInit 100).run halfWritten = .ok () b ∧
    ∀ t, risen (b.timer 0) t = some (t / 11931) := by
  obtain ⟨timer, hrun, -, hrate⟩ := pitInit_rate (show 0 < 100 by decide) (by decide) halfWritten
  exact ⟨_, hrun, hrate.mpr (by decide)⟩

section Uptime

variable {σ : Type} {irqRoutines : ℕ → Option (Handler σ)} {sched : Tasking.Scheduler} {data : σ}
  {events : List (Event σ)} {s : Sys σ} {k : Shell.Builtins.Kernel} {b' : Board} {before t fuel : ℕ}

/-- An interrupt of the timer. -/
def isTimer : Event σ → Bool
  | .irq irq _ => irq.val = 0
  | _ => false

/-- `timer_ticks` counts the interrupts of the timer. -/
theorem effect_ticks (events : List (Event σ)) (n : ℕ) (data : σ) :
    (events.foldl (effect irqRoutines) (w32 n, data)).1 = w32 (n + events.countP isTimer) := by
  induction events generalizing n data with
  | nil => rfl
  | cons e events ih =>
    have hsame : isTimer e = false → (effect irqRoutines (w32 n, data) e).1 = w32 n := by
      intro he
      cases e with
      | irq irq spurious =>
        have hne : irq.val ≠ 0 := of_decide_eq_false he
        exact if_neg fun h ↦ hne (congrArg Fin.val h)
      | _ => rfl
    rw [List.foldl_cons, List.countP_cons]
    cases he : isTimer e with
    | false =>
      have heffect : effect irqRoutines (w32 n, data) e = (w32 n, (effect irqRoutines (w32 n, data) e).2) :=
        Prod.ext (hsame he) rfl
      rw [heffect, ih]
      simp
    | true =>
      have htick : (effect irqRoutines (w32 n, data) e).1 = w32 (n + 1) := by
        cases e with
        | irq irq spurious =>
          have hzero : irq.val = 0 := of_decide_eq_true he
          exact (if_pos (Fin.ext hzero)).trans (w32_w32_add n 0 1)
        | _ => cases he
      have heffect : effect irqRoutines (w32 n, data) e = (w32 (n + 1), (effect irqRoutines (w32 n, data) e).2) :=
        Prod.ext htick rfl
      rw [heffect, ih, Nat.add_assoc, Nat.add_comm 1]
      simp

theorem reply_uptime (k : Shell.Builtins.Kernel) (fuel : ℕ) : reply k fuel (text "uptime") =
    some (text "System uptime: " ++ numeral 10 (k.timerTicks.toNat / 100) ++ text " seconds\n") := by
  have hline : text "uptime" ≠ [] := by decide
  have hword : Shell.Replies.word (text "uptime") = text "uptime" := by decide
  have hcommand : Shell.Replies.commandOf (text "uptime") Shell.Commands.names = some .uptime := by decide
  rw [reply, if_neg hline, hword, hcommand]
  rfl

theorem risen_boot (hinit : (pitInit 100).run b = .ok () b') (t : ℕ) : risen (b'.timer 0) t = some (t / 11931) := by
  rw [run_pitInit (by decide) (by decide)] at hinit
  cases hinit
  dsimp only
  rw [update_self]
  exact (risen_iff (by decide)).mpr (by decide) t

/-- When each of the interrupts that the timer has raised within `t` clocks has been accepted, and `before` others
before it was programmed, the command `uptime` shows how many seconds have passed. It is never behind, and
ahead by no more than one second in four hours, and what was counted before. -/
theorem uptime_shown (hh : History irqRoutines sched data events s) (hflag : s.flag = true)
    (hinit : (pitInit 100).run b = .ok () b')
    (haccepted : (risen (b'.timer 0) t).map (before + ·) = some (events.countP isTimer))
    (hfits : events.countP isTimer < 4294967296) (hk : k.timerTicks.toNat = s.timerTicks) :
    let seconds := t / pitBaseFrequency
    ∃ shown, reply k fuel (text "uptime") = some (text "System uptime: " ++ numeral 10 shown ++ text " seconds\n") ∧
      seconds ≤ shown ∧ shown ≤ seconds + (seconds + 1) / 14913 + before / 100 + 2 := by
  intro seconds
  rw [risen_boot hinit, Option.map_some, Option.some.injEq] at haccepted
  have hticks : s.timerTicks = w32 (0 + events.countP isTimer) := by
    have hserved := congrArg Prod.fst ((history_inv hh).served hflag)
    exact hserved.trans (effect_ticks events 0 data)
  rw [Nat.zero_add, w32_of_lt hfits, ← haccepted] at hticks
  have hbase : seconds = t / 1193180 := rfl
  refine ⟨_, reply_uptime k fuel, ?_, ?_⟩
  · rw [hk, hticks]
    omega
  · rw [hk, hticks]
    omega

/-- The first tick, before there are any tasks. -/
theorem uptime_shown_tick : ∃ shown, reply { Shell.Replies.bareKernel with timerTicks := 1 } 0 (text "uptime") =
    some (text "System uptime: " ++ numeral 10 shown ++ text " seconds\n") ∧ shown ≤ 2 := by
  have hboot : History Acknowledged.keyboardOnly Tasking.RoundRobin.noTasks 0 _ _ :=
    History.start.step (e := .work true 0) rfl
  have htick : History Acknowledged.keyboardOnly Tasking.RoundRobin.noTasks 0 _ _ :=
    ((((hboot.step (e := .irq 0 false) rfl).step (e := .proceed 0) rfl).step (e := .proceed 0) rfl).step
      (e := .proceed 0) rfl).step (e := .proceed 0) rfl
  have hrun := run_pitInit (show 0 < 100 by decide) (by decide) halfWritten
  have haccepted := congrArg (Option.map (0 + ·)) (risen_boot hrun 12000)
  obtain ⟨shown, hreply, -, hle⟩ := uptime_shown (k := { Shell.Replies.bareKernel with timerTicks := 1 }) htick rfl hrun
    haccepted (by decide) rfl
  exact ⟨shown, hreply, hle⟩

end Uptime

end KevOS.Interrupts.Pit
