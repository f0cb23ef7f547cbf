import KevOS.Interrupts.Acknowledged
import KevOS.Lib.Execution

namespace KevOS.Interrupts.Replay

open Lib.Controllers Lib.Execution Machine Tasking Function

variable {σ : Type} {irqRoutines : ℕ → Option (Handler σ)} {sched : Scheduler} {data : σ}
  {events : List (Event σ)} {e : Event σ} {s s' : Sys σ} {t : ℕ × σ} {a : Activation}

section Model

/-- The machine with the events that it has taken. -/
inductive History (irqRoutines : ℕ → Option (Handler σ)) (sched : Scheduler) (data : σ) :
    List (Event σ) → Sys σ → Prop
  | start : History irqRoutines sched data [] (start sched data)
  | step {events : List (Event σ)} {s s' : Sys σ} {e : Event σ} :
      History irqRoutines sched data events s → step irqRoutines s e = some s' →
      History irqRoutines sched data (events ++ [e]) s'

/-- `timer_ticks` and the data after an interrupt that nothing else comes between. -/
def serve (irqRoutines : ℕ → Option (Handler σ)) (irq : Fin 16) (t : ℕ × σ) : ℕ × σ :=
  (if irq = 0 then w32 (t.1 + 1) else t.1,
    (irqRoutines irq).elim t.2 fun handler ↦ (handler t.2 ⟨32 + irq, true⟩).data)

/-- Interrupts are served at once, and tasks work on the data. -/
def effect (irqRoutines : ℕ → Option (Handler σ)) (t : ℕ × σ) : Event σ → ℕ × σ
  | .irq irq _ => serve irqRoutines irq t
  | .work _ data => (t.1, data)
  | _ => t

end Model

/-- The handler of the interrupt has been called. -/
def Handled (a : Activation) : Prop := Command.handle ∉ a.todo

/-- At most the innermost interrupt still waits for its handler, with interrupts disabled. -/
structure Inv (irqRoutines : ℕ → Option (Handler σ)) (t : ℕ × σ) (s : Sys σ) : Prop where
  running : ((∀ a ∈ s.running, Handled a) ∧ (s.timerTicks, s.data) = t) ∨
    ∃ (irq : Fin 16) (rest : List Activation), s.running = ⟨⟨32 + irq, true⟩, [.handle]⟩ :: rest ∧
      (∀ a ∈ rest, Handled a) ∧ s.flag = false ∧ serve irqRoutines irq (s.timerTicks, s.data) = t
  parked : ∀ i, ∀ a ∈ s.parked i, Handled a

section Steps

theorem handled_irqHandlerRest (regs : Registers) : Handled ⟨regs, irqHandlerRest regs.intNo⟩ := by
  unfold Handled irqHandlerRest
  split_ifs <;> simp

/-- An interrupt that waits for its handler has been accepted with interrupts enabled. -/
theorem callHandler_inv {irq : Fin 16} {rest : List Activation} (hrest : ∀ a ∈ rest, Handled a)
    (hparked : ∀ i, ∀ a ∈ s.parked i, Handled a)
    (ht : serve irqRoutines irq (s.timerTicks, s.data) = t) :
    Inv irqRoutines t (callHandler irqRoutines ⟨⟨32 + irq, true⟩, [.handle]⟩ rest (countTick (32 + irq) s)) := by
  have hlt := irq.isLt
  have hline : sub32 (32 + irq) 32 = irq := by rw [sub32_of_le (by omega) (by omega), Nat.add_sub_cancel_left]
  have hzero : 32 + irq.val = 32 ↔ irq = 0 := by
    rw [Nat.add_eq_left]
    exact Fin.val_eq_zero_iff
  have hticks : (countTick (32 + irq) s).timerTicks = (serve irqRoutines irq (s.timerTicks, s.data)).1 := by
    unfold countTick serve
    by_cases h : irq = 0
    · rw [if_pos (hzero.mpr h), if_pos h]
    · rw [if_neg (h ∘ hzero.mp), if_neg h]
  have hdata : (countTick (32 + irq) s).data = s.data ∧ (countTick (32 + irq) s).parked = s.parked := by
    unfold countTick
    split_ifs <;> exact ⟨rfl, rfl⟩
  unfold callHandler
  dsimp only
  rw [hline]
  cases hroutine : irqRoutines irq with
  | none =>
    refine ⟨.inl ⟨?_, ?_⟩, ?_⟩
    · simpa using ⟨handled_irqHandlerRest _, hrest⟩
    · dsimp only
      rw [← ht, hticks, hdata.1, serve, hroutine]
      rfl
    · dsimp only
      rw [hdata.2]
      exact hparked
  | some handler =>
    refine ⟨.inl ⟨?_, ?_⟩, ?_⟩
    · simpa using ⟨handled_irqHandlerRest _, hrest⟩
    · dsimp only
      rw [← ht, hticks, hdata.1, serve, hroutine]
      rfl
    · dsimp only
      rw [hdata.2]
      exact hparked

theorem switch_inv {esp : ℕ} {stack : List Activation} (hi : Inv irqRoutines t s)
    (ht : (s.timerTicks, s.data) = t) (hstack : ∀ a ∈ stack, Handled a) :
    Inv irqRoutines t (switch esp stack s) := by
  unfold switch
  dsimp only
  split
  · exact ⟨.inl ⟨hstack, ht⟩, hi.parked⟩
  · refine ⟨.inl ⟨hi.parked _, ht⟩, fun i ↦ ?_⟩
    dsimp only
    rw [update_apply]
    split
    · exact hstack
    · exact hi.parked i

/-- An interrupt whose handler has been called goes on. -/
theorem proceed_inv {esp : ℕ} (hi : Inv irqRoutines t s) (hs : proceed irqRoutines esp s = some s') :
    Inv irqRoutines t s' := by
  rcases hi.running with ⟨hall, ht⟩ | ⟨irq, rest, hrunning, hrest, -, ht⟩
  · unfold proceed at hs
    cases hrunning : s.running with
    | nil =>
      rw [hrunning] at hs
      cases hs
    | cons a rest =>
      rw [hrunning] at hs hall
      rw [List.forall_mem_cons] at hall
      obtain ⟨regs, todo⟩ := a
      cases todo with
      | nil => cases hs
      | cons command todo =>
        have htodo : Command.handle ∉ command :: todo := hall.1
        have hnext : ∀ a ∈ (⟨regs, todo⟩ : Activation) :: rest, Handled a :=
          List.forall_mem_cons.mpr ⟨fun hmem ↦ htodo (.tail _ hmem), hall.2⟩
        cases command with
        | handle => exact absurd List.mem_cons_self htodo
        | eoi c =>
          cases hs
          exact ⟨.inl ⟨hnext, ht⟩, hi.parked⟩
        | schedule =>
          cases hs
          exact switch_inv hi ht hnext
        | iret =>
          cases hs
          exact ⟨.inl ⟨hall.2, ht⟩, hi.parked⟩
  · unfold proceed at hs
    rw [hrunning] at hs
    cases hs
    exact callHandler_inv hrest hi.parked ht

theorem step_inv (hi : Inv irqRoutines t s) (hs : step irqRoutines s e = some s') :
    Inv irqRoutines (effect irqRoutines t e) s' := by
  have hown (h : s.running = []) : (s.timerTicks, s.data) = t := by
    rcases hi.running with ⟨-, ht⟩ | ⟨irq, rest, hrunning, -⟩
    · exact ht
    · rw [h] at hrunning
      cases hrunning
  cases e with
  | irq irq spurious =>
    simp only [step, Option.ite_none_right_eq_some, Option.some.injEq] at hs
    obtain ⟨hflag, rfl⟩ := hs
    rcases hi.running with ⟨hall, ht⟩ | ⟨-, -, -, -, hoff, -⟩
    · refine ⟨.inr ⟨irq, s.running, ?_, hall, rfl, ?_⟩, hi.parked⟩
      · dsimp only
        rw [hflag]
      · dsimp only
        rw [ht]
        rfl
    · rw [hflag] at hoff
      contradiction
  | proceed esp => exact proceed_inv hi hs
  | taskingInit block =>
    simp only [step, Option.ite_none_right_eq_some, Option.some.injEq] at hs
    obtain ⟨hnone, rfl⟩ := hs
    refine ⟨.inl ⟨?_, hown hnone⟩, hi.parked⟩
    dsimp only
    simp [hnone]
  | taskCreate entry block stackMem =>
    simp only [step, Option.ite_none_right_eq_some, Option.some.injEq] at hs
    obtain ⟨hnone, rfl⟩ := hs
    refine ⟨.inl ⟨?_, hown hnone⟩, fun i ↦ ?_⟩
    · dsimp only
      simp [hnone]
    · dsimp only
      rw [update_apply]
      split
      · simp
      · exact hi.parked i
  | work flag data =>
    simp only [step, Option.ite_none_right_eq_some, Option.some.injEq] at hs
    obtain ⟨hnone, rfl⟩ := hs
    refine ⟨.inl ⟨?_, ?_⟩, hi.parked⟩
    · dsimp only
      simp [hnone]
    · rw [← hown hnone]
      rfl

end Steps

theorem history_inv (hh : History irqRoutines sched data events s) :
    Inv irqRoutines (events.foldl (effect irqRoutines) (0, data)) s := by
  induction hh with
  | start => exact ⟨.inl ⟨nofun, rfl⟩, fun _ ↦ nofun⟩
  | step _ hs ih =>
    rw [List.foldl_append]
    exact step_inv ih hs

/-- With interrupts enabled, no interrupt waits for its handler. -/
theorem Inv.served (hi : Inv irqRoutines t s) (hflag : s.flag = true) : (s.timerTicks, s.data) = t := by
  rcases hi.running with ⟨-, ht⟩ | ⟨-, -, -, -, hoff, -⟩
  · exact ht
  · rw [hflag] at hoff
    contradiction

/-- However interrupts are nested and tasks are switched, no interrupt is lost and none is served twice:
whenever interrupts are enabled, the tick counter and the data are what they would be if each handler had
run at once when its interrupt was accepted. -/
theorem history_replays (hh : History irqRoutines sched data events s) (hflag : s.flag = true) :
    (s.timerTicks, s.data) = events.foldl (effect irqRoutines) (0, data) :=
  (history_inv hh).served hflag

/-- A tick switches to a second task, which takes a key. The next tick switches back into the
interrupt that the first one was taken in, and that returns. -/
def keyBetweenSwitches : List (Event ℕ) :=
  [.taskingInit 1, .taskCreate 0xC0100400 2 0xD0000060, .work true 0,
    .irq 0 false, .proceed 0, .proceed 0, .proceed 0xC0107F00,
    .work true 0, .irq 1 false, .proceed 0, .proceed 0, .proceed 0,
    .irq 0 false, .proceed 0, .proceed 0, .proceed 0xD0001000, .proceed 0]

theorem history_replays_key : ∃ s, History Acknowledged.keyboardOnly RoundRobin.noTasks 0 keyBetweenSwitches s ∧
    s.sched.currentTask = 1 ∧ s.flag = true ∧ (s.timerTicks, s.data) = (2, 1) := by
  have hexec : ∃ q ∈ perform (step Acknowledged.keyboardOnly) ([], start RoundRobin.noTasks 0) keyBetweenSwitches,
      q.2.sched.currentTask = 1 ∧ q.2.flag = true := by decide +kernel
  obtain ⟨q, hq, hcur, hflag⟩ := hexec
  have hh : History Acknowledged.keyboardOnly RoundRobin.noTasks 0 (q.1.map Prod.snd).reverse q.2 := by
    refine @perform_inv _ _ _ _ _ _ (fun h ↦ History _ _ _ (h.map Prod.snd).reverse) (fun hh hs ↦ ?_) .start hq
    rw [List.map_cons, List.reverse_cons]
    exact hh.step hs
  rw [perform_events hq, List.map_nil, List.append_nil, List.reverse_reverse] at hh
  exact ⟨q.2, hh, hcur, hflag, history_replays hh hflag⟩

end KevOS.Interrupts.Replay
