import KevOS.Interrupts.Model
import KevOS.Tasking.RoundRobin

namespace KevOS.Interrupts.Acknowledged

open Lib.Controllers Machine Tasking Function

/-- An interrupt that will send all ends of interrupt that are owed. -/
inductive Pending (p : Lines) : Activation → Prop
  | entered {irq : Fin 16} {flag : Bool} :
      Owed p (picEoi irq) → Pending p ⟨⟨32 + irq, flag⟩, [.handle]⟩
  | timer {regs : Registers} {cs : List Pic} :
      Owed p cs → Pending p ⟨regs, cs.map .eoi ++ [.schedule, .iret]⟩
  | other {regs : Registers} {cs : List Pic} :
      Owed p cs → Pending p ⟨regs, cs.map .eoi ++ [.iret]⟩

/-- A task runs its own code with nothing in service, or the only interrupt there is, with
interrupts disabled. -/
structure Inv {σ : Type} (s : Sys σ) : Prop where
  running : (s.running = [] ∧ ∀ c, s.lines c = ∅) ∨
    ∃ a, s.running = [a] ∧ s.flag = false ∧ Pending s.lines a
  parked : ∀ t, s.parked t = [] ∨ ∃ regs, s.parked t = [⟨regs, [.iret]⟩]

variable {σ : Type} {irqRoutines : ℕ → Option (Handler σ)} {s s' : Sys σ} {p : Lines}

section Commands

/-- An interrupt of the slave is owed to both controllers, also if it is spurious. -/
theorem owed_accept (h : ∀ c, p c = ∅) (irq : Fin 16) (spurious : Bool) :
    Owed (accept irq spurious p) (picEoi irq) := by
  have hp : p = fun _ ↦ ∅ := funext h
  subst hp
  have hsingle (k : Fin 8) : (insert k ∅ : Finset (Fin 8)).card ≤ 1 := by simp
  intro c
  unfold accept picEoi
  by_cases hirq : irq.val < 8
  · rw [dif_pos hirq, if_neg (not_le.mpr hirq)]
    cases spurious with
    | true => exact .inl rfl
    | false =>
      cases c with
      | master => exact .inr ⟨List.mem_cons_self, hsingle _⟩
      | slave => exact .inl rfl
  · rw [dif_neg hirq, if_pos (not_lt.mp hirq)]
    cases c with
    | master =>
      refine .inr ⟨.tail _ List.mem_cons_self, ?_⟩
      cases spurious <;> exact hsingle _
    | slave =>
      cases spurious with
      | true => exact .inl rfl
      | false => exact .inr ⟨List.mem_cons_self, hsingle _⟩

theorem pending_irqHandlerRest {irq : Fin 16} {regs : Registers} (hint : regs.intNo = 32 + irq)
    (h : Owed p (picEoi irq)) : Pending p ⟨regs, irqHandlerRest regs.intNo⟩ := by
  have hlt := irq.isLt
  rw [irqHandlerRest, hint]
  by_cases htimer : 32 + irq.val = 32
  · rw [if_pos htimer]
    rw [Nat.add_eq_left.mp htimer] at h
    exact .timer h
  · rw [if_neg htimer, sub32_of_le (by omega) (by omega), Nat.add_sub_cancel_left,
      Nat.mod_eq_of_lt (by omega)]
    exact .other h

theorem countTick_inv {intNo : ℕ} (hi : Inv s) : Inv (countTick intNo s) := by
  unfold countTick
  split
  · exact ⟨hi.running, hi.parked⟩
  · exact hi

theorem countTick_lines {intNo : ℕ} : (countTick intNo s).lines = s.lines := by
  unfold countTick
  split <;> rfl

theorem countTick_flag {intNo : ℕ} : (countTick intNo s).flag = s.flag := by
  unfold countTick
  split <;> rfl

theorem callHandler_inv (hq : ∀ i handler, irqRoutines i = some handler → Quiet handler)
    (hi : Inv s) (hflag : s.flag = false) {irq : Fin 16} {flag : Bool}
    (h : Owed s.lines (picEoi irq)) :
    Inv (callHandler irqRoutines ⟨⟨32 + irq, flag⟩, [.handle]⟩ [] s) := by
  unfold callHandler
  dsimp only
  cases hroutine : irqRoutines (sub32 (32 + irq) 32) with
  | none =>
    have hpending : Pending s.lines ⟨⟨32 + irq, flag⟩, irqHandlerRest (32 + irq)⟩ :=
      pending_irqHandlerRest rfl h
    exact ⟨.inr ⟨_, rfl, hflag, hpending⟩, hi.parked⟩
  | some handler =>
    obtain ⟨henables, hint⟩ := hq _ _ hroutine s.data ⟨32 + irq, flag⟩
    refine ⟨.inr ⟨_, rfl, ?_, pending_irqHandlerRest hint (h.extras _)⟩, hi.parked⟩
    dsimp only
    rw [hflag, henables]
    rfl

/-- A switch comes between the last end of interrupt and the `iret`. -/
theorem switch_inv {esp : ℕ} {regs : Registers} (hi : Inv s) (hflag : s.flag = false)
    (h : Owed s.lines []) : Inv (switch esp [⟨regs, [.iret]⟩] s) := by
  have hiret (regs : Registers) : Pending s.lines ⟨regs, [.iret]⟩ :=
    @Pending.other _ regs [] h
  unfold switch
  dsimp only
  split
  · exact ⟨.inr ⟨_, rfl, hflag, hiret regs⟩, hi.parked⟩
  · refine ⟨?_, fun t ↦ ?_⟩
    · dsimp only
      rcases hi.parked (schedule { s.sched with esp }).currentTask with hnew | ⟨regs', hnew⟩
      · exact .inl ⟨hnew, owed_nil.mp h⟩
      · exact .inr ⟨_, hnew, hflag, hiret regs'⟩
    · dsimp only
      rw [update_apply]
      split
      · exact .inr ⟨regs, rfl⟩
      · exact hi.parked t

theorem proceed_inv (hq : ∀ i handler, irqRoutines i = some handler → Quiet handler) {esp : ℕ}
    (hi : Inv s) (hs : proceed irqRoutines esp s = some s') : Inv s' := by
  obtain ⟨hrunning, -⟩ | ⟨a, hrunning, hflag, hpending⟩ := hi.running
  · rw [proceed, hrunning] at hs
    cases hs
  · rw [proceed, hrunning] at hs
    cases hpending with
    | entered h =>
      cases hs
      refine callHandler_inv hq (countTick_inv hi) (countTick_flag.trans hflag) ?_
      rw [countTick_lines]
      exact h
    | @timer regs cs h =>
      cases cs with
      | nil =>
        cases hs
        exact switch_inv hi hflag h
      | cons c cs =>
        cases hs
        exact ⟨.inr ⟨_, rfl, hflag, .timer h.endOfInterrupt⟩, hi.parked⟩
    | @other regs cs h =>
      cases cs with
      | nil =>
        cases hs
        exact ⟨.inl ⟨rfl, owed_nil.mp h⟩, hi.parked⟩
      | cons c cs =>
        cases hs
        exact ⟨.inr ⟨_, rfl, hflag, .other h.endOfInterrupt⟩, hi.parked⟩

end Commands

section Runs

theorem Inv.own (hi : Inv s) (hown : s.running = []) : ∀ c, s.lines c = ∅ := by
  obtain ⟨-, hempty⟩ | ⟨a, hrunning, -⟩ := hi.running
  · exact hempty
  · rw [hown] at hrunning
    cases hrunning

/-- With interrupts enabled a task runs its own code. -/
theorem Inv.enabled (hi : Inv s) (hflag : s.flag = true) :
    s.running = [] ∧ ∀ c, s.lines c = ∅ := by
  obtain hown | ⟨-, -, hoff, -⟩ := hi.running
  · exact hown
  · rw [hflag] at hoff
    contradiction

theorem step_inv (hq : ∀ i handler, irqRoutines i = some handler → Quiet handler) {e : Event σ}
    (hi : Inv s) (hs : step irqRoutines s e = some s') : Inv s' := by
  cases e with
  | irq irq spurious =>
    simp only [step, Option.ite_none_right_eq_some, Option.some.injEq] at hs
    obtain ⟨hflag, rfl⟩ := hs
    obtain ⟨hown, hempty⟩ := hi.enabled hflag
    have hpending : Pending (accept irq spurious s.lines) ⟨⟨32 + irq, s.flag⟩, [.handle]⟩ :=
      .entered (owed_accept hempty irq spurious)
    refine ⟨.inr ⟨_, ?_, rfl, hpending⟩, hi.parked⟩
    dsimp only
    rw [hown]
  | proceed esp => exact proceed_inv hq hi hs
  | taskingInit block =>
    simp only [step, Option.ite_none_right_eq_some, Option.some.injEq] at hs
    obtain ⟨hown, rfl⟩ := hs
    exact ⟨.inl ⟨hown, hi.own hown⟩, hi.parked⟩
  | taskCreate entry block stackMem =>
    simp only [step, Option.ite_none_right_eq_some, Option.some.injEq] at hs
    obtain ⟨hown, rfl⟩ := hs
    refine ⟨.inl ⟨hown, hi.own hown⟩, fun t ↦ ?_⟩
    dsimp only
    rw [update_apply]
    split
    · exact .inl rfl
    · exact hi.parked t
  | work flag data =>
    simp only [step, Option.ite_none_right_eq_some, Option.some.injEq] at hs
    obtain ⟨hown, rfl⟩ := hs
    exact ⟨.inl ⟨hown, hi.own hown⟩, hi.parked⟩

theorem run_inv (hq : ∀ i handler, irqRoutines i = some handler → Quiet handler)
    (hr : Run irqRoutines s) : Inv s := by
  induction hr with
  | start sched data => exact ⟨.inl ⟨rfl, fun _ ↦ rfl⟩, fun _ ↦ .inl rfl⟩
  | step _ hs ih => exact step_inv hq ih hs

/-- Whenever a task runs with interrupts enabled, no line waits for an end of interrupt. -/
theorem run_inService_empty (hq : ∀ i handler, irqRoutines i = some handler → Quiet handler)
    (hr : Run irqRoutines s) (hflag : s.flag = true) : ∀ c, s.lines c = ∅ :=
  ((run_inv hq hr).enabled hflag).2

/-- Only the keyboard has a handler, which counts. -/
def keyboardOnly (i : ℕ) : Option (Handler ℕ) :=
  if i = 1 then some fun n regs ↦ ⟨n + 1, regs, false, []⟩ else none

theorem keyboardOnly_quiet (i : ℕ) (handler : Handler ℕ) (h : keyboardOnly i = some handler) :
    Quiet handler := by
  unfold keyboardOnly at h
  split at h
  · cases h
    exact fun _ _ ↦ ⟨rfl, rfl⟩
  · cases h

/-- The timer switches to a new task, which enables interrupts, and then takes a spurious IRQ of
the slave. -/
theorem run_inService_empty_newTask : ∃ s, Run keyboardOnly s ∧ s.sched.currentTask = 2 ∧
    s.flag = true ∧ ∀ c, s.lines c = ∅ := by
  have hboot : Run keyboardOnly (start RoundRobin.noTasks 0) := .start _ 0
  have htasks : Run keyboardOnly _ := ((hboot.step (e := .taskingInit 1) rfl).step
    (e := .taskCreate 0xC0100400 2 0xD0000060) rfl).step (e := .work true 0) rfl
  have hswitch : Run keyboardOnly _ := (((htasks.step (e := .irq 0 false) rfl).step
    (e := .proceed 0) rfl).step (e := .proceed 0) rfl).step (e := .proceed 0xC0107F00) rfl
  have hirq : Run keyboardOnly _ := (hswitch.step (e := .work true 0) rfl).step
    (e := .irq 15 true) rfl
  have hiret : Run keyboardOnly _ := (((hirq.step (e := .proceed 0) rfl).step
    (e := .proceed 0) rfl).step (e := .proceed 0) rfl).step (e := .proceed 0) rfl
  exact ⟨_, hiret, rfl, rfl, run_inService_empty keyboardOnly_quiet hiret rfl⟩

end Runs

end KevOS.Interrupts.Acknowledged
