import KevOS.Lib.Controllers
import KevOS.Tasking.Model
import Mathlib.Order.Fin.Basic

namespace KevOS.Interrupts

open Lib.Controllers Machine Tasking Function

/-- The two 8259s. The slave is wired to line 2 of the master. -/
inductive Pic
  | master
  | slave
  deriving DecidableEq, Repr

/-- The in-service registers. -/
abbrev Lines := Pic → Finset (Fin 8)

/-- What the processor's acceptance of an IRQ does to the registers. A spurious IRQ is one that
its own controller does not know of. -/
def accept (irq : Fin 16) (spurious : Bool) (p : Lines) : Lines :=
  if h : irq.val < 8 then
    if spurious then p else update p .master (insert ⟨irq, h⟩ (p .master))
  else
    let p := update p .master (insert 2 (p .master))
    if spurious then p else update p .slave (insert ⟨irq - 8, by omega⟩ (p .slave))

/-- The controllers that `pic_eoi` writes 0x20 to, in this order. -/
def picEoi (irq : ℕ) : List Pic := if 8 ≤ irq then [.slave, .master] else [.master]

/-- Of `struct registers` what `irq_handler` reads, and the interrupt flag in `eflags`. -/
structure Registers where
  intNo : ℕ
  flag : Bool
  deriving DecidableEq, Repr

/-- What a handler leaves behind: its own data, the frame it was passed, whether it has enabled
interrupts, and the ends of interrupt that it sent by itself. -/
structure Effect (σ : Type) where
  data : σ
  regs : Registers
  enables : Bool
  eois : List Pic

abbrev Handler (σ : Type) := σ → Registers → Effect σ

/-- What is left to do in an interrupt. `handle` is `irq_handler` up to the return of the
custom handler. -/
inductive Command
  | handle
  | eoi (c : Pic)
  | schedule
  | iret
  deriving DecidableEq, Repr

/-- An interrupt on the stack of a task. -/
structure Activation where
  regs : Registers
  todo : List Command
  deriving DecidableEq, Repr

/-- The controllers, the interrupt flag of the processor, the scheduler, `timer_ticks`, the data
of the handlers and tasks, the interrupts that the running task has to return from, the innermost
first, and those that each `task_t` has to return from when it is switched to. -/
structure Sys (σ : Type) where
  lines : Lines
  flag : Bool
  sched : Scheduler
  timerTicks : ℕ
  data : σ
  running : List Activation
  parked : ℕ → List Activation

/-- `irq_handler` once the custom handler has returned. -/
def irqHandlerRest (intNo : ℕ) : List Command :=
  if intNo = 32 then (picEoi 0).map .eoi ++ [.schedule, .iret]
  else (picEoi (sub32 intNo 32 % 256)).map .eoi ++ [.iret]

variable {σ : Type}

/-- `timer_ticks++` in an interrupt of the timer. -/
def countTick (intNo : ℕ) (s : Sys σ) : Sys σ :=
  if intNo = 32 then { s with timerTicks := w32 (s.timerTicks + 1) } else s

def callHandler (irqRoutines : ℕ → Option (Handler σ)) (a : Activation) (rest : List Activation)
    (s : Sys σ) : Sys σ :=
  match irqRoutines (sub32 a.regs.intNo 32) with
  | none => { s with running := ⟨a.regs, irqHandlerRest a.regs.intNo⟩ :: rest }
  | some handler =>
    let e := handler s.data a.regs
    { s with
      lines := e.eois.foldl (fun p c ↦ endOfInterrupt c p) s.lines
      flag := s.flag || e.enables
      data := e.data
      running := ⟨e.regs, irqHandlerRest e.regs.intNo⟩ :: rest }

/-- The call of `schedule` at the stack pointer `esp`, with the interrupts `stack` still to return
from. -/
def switch (esp : ℕ) (stack : List Activation) (s : Sys σ) : Sys σ :=
  let sched := schedule { s.sched with esp }
  if sched.currentTask = s.sched.currentTask then { s with sched, running := stack }
  else
    { s with
      sched
      parked := update s.parked s.sched.currentTask stack
      running := s.parked sched.currentTask }

/-- The innermost interrupt of the running task goes on. -/
def proceed (irqRoutines : ℕ → Option (Handler σ)) (esp : ℕ) (s : Sys σ) : Option (Sys σ) :=
  match s.running with
  | [] => none
  | a :: rest =>
    match a.todo with
    | [] => none
    | .handle :: _ =>
      some (callHandler irqRoutines a rest (countTick a.regs.intNo s))
    | .eoi c :: todo =>
      some { s with lines := endOfInterrupt c s.lines, running := { a with todo } :: rest }
    | .schedule :: todo => some (switch esp ({ a with todo } :: rest) s)
    | .iret :: _ => some { s with flag := a.regs.flag, running := rest }

/-- An IRQ, the next command of an interrupt, or the code of a task itself: `tasking_init`,
`task_create`, and anything that works on its data and sets or clears the interrupt flag. -/
inductive Event (σ : Type)
  | irq (irq : Fin 16) (spurious : Bool)
  | proceed (esp : ℕ)
  | taskingInit (block : ℕ)
  | taskCreate (entry block stackMem : ℕ)
  | work (flag : Bool) (data : σ)

def step (irqRoutines : ℕ → Option (Handler σ)) (s : Sys σ) : Event σ → Option (Sys σ)
  | .irq irq spurious =>
    -- the interrupt gates save the flag and clear it
    if s.flag then
      some { s with
        lines := accept irq spurious s.lines
        flag := false
        running := ⟨⟨32 + irq, s.flag⟩, [.handle]⟩ :: s.running }
    else none
  | .proceed esp => proceed irqRoutines esp s
  | .taskingInit block =>
    if s.running = [] then some { s with sched := taskingInit block s.sched } else none
  | .taskCreate entry block stackMem =>
    if s.running = [] then
      some { s with
        sched := taskCreate entry block stackMem s.sched
        parked := update s.parked block [] }
    else none
  | .work flag data => if s.running = [] then some { s with flag, data } else none

/-- After `pic_remap`, without tasks. -/
def start (sched : Scheduler) (data : σ) : Sys σ where
  lines _ := ∅
  flag := false
  sched := { sched with currentTask := 0, readyQueue := 0, nextTid := 1 }
  timerTicks := 0
  data := data
  running := []
  parked _ := []

inductive Run (irqRoutines : ℕ → Option (Handler σ)) : Sys σ → Prop
  | start (sched : Scheduler) (data : σ) : Run irqRoutines (start sched data)
  | step {s s' : Sys σ} {e : Event σ} :
      Run irqRoutines s → step irqRoutines s e = some s' → Run irqRoutines s'

/-- The handler returns with interrupts disabled and the number of the interrupt in place. -/
def Quiet (handler : Handler σ) : Prop :=
  ∀ data regs, (handler data regs).enables = false ∧ (handler data regs).regs.intNo = regs.intNo

end KevOS.Interrupts
