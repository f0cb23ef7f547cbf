import KevOS.Lib.Execution
import KevOS.Tasking.RoundRobin
import Mathlib.Data.Fintype.Basic

namespace KevOS.Tty.Lock

open Lib.Execution
open Tasking.RoundRobin (Linked Runs schedules schedule_runs schedules_linked)

/-- Where a task stands with respect to `terminal_write` and `terminal_putchar`:
before `spinlock_acquire`, in its loop, or between it and `spinlock_release`. -/
inductive Point
  | outside
  | acquiring
  | inside
  deriving DecidableEq, Repr

/-- What entered the kernel, with the interrupt flag that `iret` puts back. -/
inductive Frame
  | timer (flag : Bool)
  | syscall (flag : Bool)
  deriving DecidableEq, Repr

/-- `user` is set once the task has gone through `jump_to_usermode`; the frames
are those on its kernel stack, innermost first. -/
structure Task where
  user : Bool
  point : Point
  frames : List Frame
  deriving DecidableEq, Repr

/-- Kernel code other than `irq_handler`, the code that may print. -/
def Task.inKernel (t : Task) : Bool :=
  match t.frames with
  | [] => !t.user
  | .syscall _ :: _ => true
  | .timer _ :: _ => false

def Task.inUser (t : Task) : Bool := t.user && t.frames.isEmpty

/-- The one processor. The tasks are numbered along the ready queue. -/
structure Cpu (n : ℕ) where
  running : Fin (n + 1)
  flag : Bool
  ttyLock : Bool
  tasks : Fin (n + 1) → Task

inductive Event
  | call
  | testAndSet
  | release
  | int80
  | timer
  | iret
  | jumpToUsermode
  deriving DecidableEq, Repr

variable {n : ℕ}

def Cpu.current (c : Cpu n) : Task := c.tasks c.running

def Cpu.setCurrent (c : Cpu n) (t : Task) : Cpu n :=
  { c with tasks := Function.update c.tasks c.running t }

/-- An interrupt gate: the flags go to the stack, interrupts are disabled. -/
def Cpu.gate (c : Cpu n) (frame : Bool → Frame) : Cpu n :=
  { c.setCurrent { c.current with frames := frame c.flag :: c.current.frames } with flag := false }

/-- `schedule`: `switch_to` exchanges the stacks and leaves the flags alone. -/
def schedule (c : Cpu n) : Cpu n :=
  if c.running + 1 = c.running then c else { c with running := c.running + 1 }

def step (c : Cpu n) (e : Event) : Option (Cpu n) :=
  let t := c.current
  match e with
  | .call =>
    if t.inKernel ∧ t.point = .outside then some (c.setCurrent { t with point := .acquiring })
    else none
  | .testAndSet =>
    if t.inKernel ∧ t.point = .acquiring then
      -- the exchange stores 1 in any case, the loop looks at the old value
      let old := c.ttyLock
      let c := { c with ttyLock := true }
      some (if old then c else c.setCurrent { t with point := .inside })
    else none
  | .release =>
    if t.inKernel ∧ t.point = .inside then
      some { c.setCurrent { t with point := .outside } with ttyLock := false }
    else none
  | .int80 =>
    if t.inUser ∧ t.point = .outside then some (c.gate .syscall) else none
  | .timer =>
    if c.flag then some (schedule (c.gate .timer)) else none
  | .iret =>
    match t.frames with
    | .timer flag :: rest => some { c.setCurrent { t with frames := rest } with flag }
    | .syscall flag :: rest =>
      if t.point = .outside then some { c.setCurrent { t with frames := rest } with flag }
      else none
    | [] => none
  | .jumpToUsermode =>
    if t.inKernel ∧ t.frames = [] ∧ t.point = .outside then
      some { c.setCurrent { t with user := true } with flag := true }
    else none

/-- The kernel has enabled interrupts and created its tasks; the first runs. -/
def start (n : ℕ) : Cpu n where
  running := 0
  flag := true
  ttyLock := false
  tasks _ := { user := false, point := .outside, frames := [] }

/-- A run, with every state it went through and what happened there. -/
inductive Run : List (Cpu n × Event) → Cpu n → Prop
  | start : Run [] (start n)
  | step {h : List (Cpu n × Event)} {c c' : Cpu n} {e : Event} :
      Run h c → step c e = some c' → Run ((c, e) :: h) c'

def Task.spinning (t : Task) : Prop := t.inKernel ∧ t.point = .acquiring

/-- The running task spins with interrupts disabled, the lock is held, and its
holder does not run. -/
def Deadlocked (c : Cpu n) : Prop :=
  c.current.spinning ∧ c.flag = false ∧ c.ttyLock = true ∧
    ∃ i, i ≠ c.running ∧ (c.tasks i).point = .inside

instance (t : Task) : Decidable t.spinning := inferInstanceAs (Decidable (_ ∧ _))

instance (c : Cpu n) : Decidable (Deadlocked c) := inferInstanceAs (Decidable (_ ∧ _))

/-- A tick that comes between acquire and release finds no other task in the queue. -/
def TickOutside (c : Cpu n) (e : Event) : Prop :=
  e = .timer → c.current.point = .inside → ∀ i, i = c.running

instance (c : Cpu n) (e : Event) : Decidable (TickOutside c e) :=
  inferInstanceAs (Decidable (_ → _ → _))

/-- A task without the processor: it has not run yet, or `switch_to` left it in
`irq_handler`. The first task is the boot code, which runs from the start. -/
inductive Parked (first : Prop) : Task → Prop
  | new : ¬ first → Parked first ⟨false, .outside, []⟩
  | boot (point : Point) : first → Parked first ⟨false, point, [.timer true]⟩
  | user : Parked first ⟨true, .outside, [.timer true]⟩

/-- A task with the processor, and the interrupt flag: of the kernel's code only that
of the first task runs with interrupts enabled. -/
inductive Running (first : Prop) : Bool → Task → Prop
  | resumed {t : Task} : Parked first t → Running first false t
  | new (point : Point) : ¬ first → Running first false ⟨false, point, []⟩
  | boot (point : Point) : first → Running first true ⟨false, point, []⟩
  | user : Running first true ⟨true, .outside, []⟩
  | syscall (point : Point) : Running first false ⟨true, point, [.syscall true]⟩

structure Inv (c : Cpu n) : Prop where
  held : ∀ i, (c.tasks i).point = .inside → c.ttyLock = true
  alone : ∀ i j, (c.tasks i).point = .inside → (c.tasks j).point = .inside → i = j
  running : Running (c.running = 0) c.flag c.current
  parked : ∀ i, i ≠ c.running → Parked (i = 0) (c.tasks i)

section SetCurrent

variable (c : Cpu n) (t : Task)

@[simp] theorem setCurrent_running : (c.setCurrent t).running = c.running := rfl

@[simp] theorem setCurrent_flag : (c.setCurrent t).flag = c.flag := rfl

@[simp] theorem setCurrent_ttyLock : (c.setCurrent t).ttyLock = c.ttyLock := rfl

@[simp] theorem setCurrent_current : (c.setCurrent t).current = t := by
  simp [Cpu.current, Cpu.setCurrent]

theorem setCurrent_tasks (i : Fin (n + 1)) :
    (c.setCurrent t).tasks i = if i = c.running then t else c.tasks i := by
  simp [Cpu.setCurrent, Function.update_apply]

theorem setCurrent_tasks_of_ne {i : Fin (n + 1)} (h : i ≠ c.running) :
    (c.setCurrent t).tasks i = c.tasks i := by
  rw [setCurrent_tasks, if_neg h]

end SetCurrent

theorem gate_current (c : Cpu n) (frame : Bool → Frame) :
    (c.gate frame).current = { c.current with frames := frame c.flag :: c.current.frames } := by
  simp [Cpu.gate, Cpu.current, Cpu.setCurrent]

theorem schedule_running (c : Cpu n) : (schedule c).running = c.running + 1 := by
  simp only [schedule]
  split
  case isTrue h => exact h.symm
  case isFalse => rfl

theorem schedule_flag (c : Cpu n) : (schedule c).flag = c.flag := by
  simp only [schedule]
  split <;> rfl

theorem schedule_tasks (c : Cpu n) : (schedule c).tasks = c.tasks := by
  simp only [schedule]
  split <;> rfl

theorem schedule_ttyLock (c : Cpu n) : (schedule c).ttyLock = c.ttyLock := by
  simp only [schedule]
  split <;> rfl

theorem start_inv (n : ℕ) : Inv (start n) where
  held i := by simp [start]
  alone i j := by simp [start]
  running := .boot .outside rfl
  parked _ hi := .new hi

/-- A task that prints goes on where it was, in the loop or behind it. -/
theorem Running.move {first : Prop} {flag : Bool} {t : Task} (h : Running first flag t)
    (hk : t.inKernel = true) (point : Point) : Running first flag { t with point } := by
  cases h with
  | resumed hp =>
    cases hp with
    | new hf => exact .new point hf
    | boot => contradiction
    | user => contradiction
  | new _ hf => exact .new point hf
  | boot _ hf => exact .boot point hf
  | user => contradiction
  | syscall => exact .syscall point

theorem Running.int80 {first : Prop} {flag : Bool} {t : Task} (h : Running first flag t)
    (hu : t.inUser = true) : Running first false { t with frames := .syscall flag :: t.frames } := by
  cases h with
  | resumed hp => cases hp <;> contradiction
  | user => exact .syscall .outside
  | new | boot | syscall => contradiction

/-- A tick leaves the task it interrupts in `irq_handler`. -/
theorem Running.tick {first : Prop} {t : Task} (h : Running first true t) :
    Parked first { t with frames := .timer true :: t.frames } := by
  cases h with
  | boot point hf => exact .boot point hf
  | user => exact .user

theorem Running.iret_timer {first : Prop} {flag f : Bool} {rest : List Frame} {t : Task}
    (h : Running first flag t) (hf : t.frames = .timer f :: rest) :
    Running first f { t with frames := rest } := by
  cases h with
  | resumed hp =>
    cases hp with
    | new => contradiction
    | boot point hb =>
      cases hf
      exact .boot point hb
    | user =>
      cases hf
      exact .user
  | new | boot | user => contradiction
  | syscall => cases hf

theorem Running.iret_syscall {first : Prop} {flag f : Bool} {rest : List Frame} {t : Task}
    (h : Running first flag t) (hf : t.frames = .syscall f :: rest) (ho : t.point = .outside) :
    Running first f { t with frames := rest } := by
  cases h with
  | resumed hp => cases hp <;> cases hf
  | new | boot | user => contradiction
  | syscall =>
    cases hf
    cases ho
    exact .user

/-- What the running task may do to itself, the flag and the lock. -/
theorem Inv.setCurrent {c : Cpu n} (h : Inv c) {t : Task} {flag lock : Bool}
    (ht : Running (c.running = 0) flag t)
    (hin : t.point = .inside → lock = true ∧ (c.current.point = .inside ∨ c.ttyLock = false))
    (hlock : lock = false → c.ttyLock = false ∨ c.current.point = .inside) :
    Inv { c.setCurrent t with flag := flag, ttyLock := lock } := by
  -- nobody else is inside when the running task is, or when the lock is free
  have hother : c.current.point = .inside ∨ c.ttyLock = false →
      ∀ i, i ≠ c.running → (c.tasks i).point ≠ .inside := by
    intro hc i hi hp
    cases hc with
    | inl hc => exact hi (h.alone i c.running hp hc)
    | inr hc => exact Bool.false_ne_true (hc.symm.trans (h.held i hp))
  refine ⟨fun i hi ↦ ?_, fun i j hi hj ↦ ?_, ?_, fun i hi ↦ ?_⟩
  · by_cases hr : i = c.running
    · rw [hr] at hi
      have hi : t.point = .inside := by rwa [← setCurrent_current c t]
      exact (hin hi).1
    · have hi : (c.tasks i).point = .inside := by rwa [← setCurrent_tasks_of_ne c t hr]
      by_contra hl
      exact hother (hlock (Bool.eq_false_iff.mpr hl)).symm i hr hi
  · simp only [setCurrent_tasks] at hi hj
    split at hi <;> split at hj
    case isTrue.isTrue hir hjr => rw [hir, hjr]
    case isTrue.isFalse hjr => exact absurd hj (hother (hin hi).2 j hjr)
    case isFalse.isTrue hir _ => exact absurd hi (hother (hin hj).2 i hir)
    case isFalse.isFalse => exact h.alone i j hi hj
  · have hcur := setCurrent_current c t
    rw [← hcur] at ht
    exact ht
  · have hother := h.parked i hi
    rw [← setCurrent_tasks_of_ne c t hi] at hother
    exact hother

/-- What the running task may do without moving along `terminal_write`. -/
theorem Inv.setFrames {c : Cpu n} (h : Inv c) {t : Task} {flag : Bool}
    (ht : Running (c.running = 0) flag t) (hp : t.point = c.current.point) :
    Inv { c.setCurrent t with flag := flag } := by
  apply h.setCurrent ht
  · intro hi
    rw [hp] at hi
    exact ⟨h.held c.running hi, .inl hi⟩
  · intro hl
    exact .inl hl

/-- The tick: the interrupted task is parked, and the next one in the queue is resumed. -/
theorem Inv.tick {c : Cpu n} (h : Inv c) (hf : c.flag = true) : Inv (schedule (c.gate .timer)) := by
  have htasks (i : Fin (n + 1)) : (schedule (c.gate .timer)).tasks i =
      if i = c.running then { c.current with frames := .timer c.flag :: c.current.frames }
      else c.tasks i := by
    rw [schedule_tasks, Cpu.gate, setCurrent_tasks]
  have hpoint (i : Fin (n + 1)) :
      ((schedule (c.gate .timer)).tasks i).point = (c.tasks i).point := by
    rw [htasks]
    split
    case isTrue hi => rw [hi]; rfl
    case isFalse => rfl
  have hparked (i : Fin (n + 1)) : Parked (i = 0) ((schedule (c.gate .timer)).tasks i) := by
    rw [htasks]
    split
    case isTrue hi =>
      have hr := h.running
      rw [hf] at hr ⊢
      rw [hi]
      exact hr.tick
    case isFalse hi => exact h.parked i hi
  refine ⟨fun i hi ↦ ?_, fun i j hi hj ↦ ?_, ?_, fun i _ ↦ hparked i⟩
  · rw [hpoint] at hi
    rw [schedule_ttyLock]
    exact h.held i hi
  · rw [hpoint] at hi hj
    exact h.alone i j hi hj
  · rw [schedule_flag]
    exact .resumed (hparked _)

theorem step_inv {c c' : Cpu n} {e : Event} (h : Inv c) (hs : step c e = some c') : Inv c' := by
  cases e with
  | call =>
    simp only [step, Option.ite_none_right_eq_some, Option.some.injEq] at hs
    obtain ⟨⟨hk, hp⟩, rfl⟩ := hs
    apply h.setCurrent (h.running.move hk .acquiring)
    · intro hi
      contradiction
    · intro hl
      exact .inl hl
  | testAndSet =>
    simp only [step, Option.ite_none_right_eq_some, Option.some.injEq] at hs
    obtain ⟨⟨hk, hp⟩, rfl⟩ := hs
    split
    case isTrue hl =>
      have hlock : { c with ttyLock := true } = c := by rw [← hl]
      rw [hlock]
      exact h
    case isFalse hl =>
      apply h.setCurrent (h.running.move hk .inside)
      · intro _
        exact ⟨rfl, .inr (Bool.eq_false_iff.mpr hl)⟩
      · intro hfree
        contradiction
  | release =>
    simp only [step, Option.ite_none_right_eq_some, Option.some.injEq] at hs
    obtain ⟨⟨hk, hp⟩, rfl⟩ := hs
    apply h.setCurrent (h.running.move hk .outside)
    · intro hi
      contradiction
    · intro _
      exact .inr hp
  | int80 =>
    simp only [step, Option.ite_none_right_eq_some, Option.some.injEq] at hs
    obtain ⟨⟨hu, -⟩, rfl⟩ := hs
    exact h.setFrames (h.running.int80 hu) rfl
  | timer =>
    simp only [step, Option.ite_none_right_eq_some, Option.some.injEq] at hs
    obtain ⟨hf, rfl⟩ := hs
    exact h.tick hf
  | iret =>
    simp only [step] at hs
    split at hs
    case h_1 hf =>
      cases hs
      exact h.setFrames (h.running.iret_timer hf) rfl
    case h_2 hf =>
      simp only [Option.ite_none_right_eq_some, Option.some.injEq] at hs
      obtain ⟨ho, rfl⟩ := hs
      exact h.setFrames (h.running.iret_syscall hf ho) rfl
    case h_3 => cases hs
  | jumpToUsermode =>
    simp only [step, Option.ite_none_right_eq_some, Option.some.injEq] at hs
    obtain ⟨⟨-, hf, ho⟩, rfl⟩ := hs
    have huser : { c.current with user := true } = ⟨true, .outside, []⟩ := by simp only [hf, ho]
    apply h.setFrames
    · rw [huser]
      exact .user
    · rfl

theorem run_inv {h : List (Cpu n × Event)} {c : Cpu n} (hr : Run h c) : Inv c := by
  induction hr with
  | start => exact start_inv n
  | step _ hs ih => exact step_inv ih hs

/-- After a step other than a tick the same task runs, and the others are where
they were. -/
theorem step_others {c c' : Cpu n} {e : Event} (hs : step c e = some c') (he : e ≠ .timer) :
    c'.running = c.running ∧ ∀ i, i ≠ c.running → c'.tasks i = c.tasks i := by
  cases e with
  | timer => exact absurd rfl he
  | iret =>
    simp only [step] at hs
    split at hs
    · cases hs
      exact ⟨rfl, fun i hi ↦ setCurrent_tasks_of_ne c _ hi⟩
    · simp only [Option.ite_none_right_eq_some, Option.some.injEq] at hs
      obtain ⟨-, rfl⟩ := hs
      exact ⟨rfl, fun i hi ↦ setCurrent_tasks_of_ne c _ hi⟩
    · cases hs
  | testAndSet =>
    simp only [step, Option.ite_none_right_eq_some, Option.some.injEq] at hs
    obtain ⟨-, rfl⟩ := hs
    split
    · exact ⟨rfl, fun i hi ↦ rfl⟩
    · exact ⟨rfl, fun i hi ↦ setCurrent_tasks_of_ne c _ hi⟩
  | call | release | int80 | jumpToUsermode =>
    simp only [step, Option.ite_none_right_eq_some, Option.some.injEq] at hs
    obtain ⟨-, rfl⟩ := hs
    exact ⟨rfl, fun i hi ↦ setCurrent_tasks_of_ne c _ hi⟩

theorem step_timer {c c' : Cpu n} (hs : step c .timer = some c') :
    c' = schedule (c.gate .timer) := by
  simp only [step, Option.ite_none_right_eq_some, Option.some.injEq] at hs
  exact hs.2.symm

theorem step_running {c c' : Cpu n} {e : Event} (hs : step c e = some c') :
    c'.running = if e = .timer then c.running + 1 else c.running := by
  split
  case isTrue he =>
    subst he
    rw [step_timer hs, schedule_running]
    rfl
  case isFalse he => exact (step_others hs he).1

/-- The task that runs is the one that the kernel's `schedule` has made the current one
after as many calls as there were ticks. -/
theorem run_follows {h : List (Cpu n × Event)} {c : Cpu n} {created : List ℕ}
    {s : Tasking.Scheduler} (hr : Run h c) (hl : Linked created s)
    (hlen : created.length = n + 1) (hboot : s.currentTask = s.readyQueue) (esps : ℕ → ℕ) :
    Runs (schedules esps (h.countP fun p ↦ p.2 = .timer) s) c.running := by
  induction hr with
  | start => exact hboot
  | @step h c c' e _ hs ih =>
    rw [step_running hs, List.countP_cons]
    simp only [decide_eq_true_eq]
    split
    case isTrue => exact schedule_runs (schedules_linked hl esps _).1 hlen ih _
    case isFalse => exact ih

def NobodyParkedInside (c : Cpu n) : Prop :=
  ∀ i, i ≠ c.running → (c.tasks i).point ≠ .inside

theorem step_nobodyParkedInside {c c' : Cpu n} {e : Event} (h : NobodyParkedInside c)
    (hs : step c e = some c') (he : TickOutside c e) : NobodyParkedInside c' := by
  intro i hi hin
  by_cases ht : e = .timer
  · rw [step_running hs, if_pos ht] at hi
    subst ht
    rw [step_timer hs, schedule_tasks, Cpu.gate, setCurrent_tasks] at hin
    split at hin
    case isTrue hr =>
      -- no other task is there to be switched to
      have halone := he rfl hin
      rw [halone (c.running + 1), hr] at hi
      exact hi rfl
    case isFalse hr => exact h i hr hin
  · obtain ⟨hr, htasks⟩ := step_others hs ht
    rw [hr] at hi
    rw [htasks i hi] at hin
    exact h i hi hin

/-- A call made with interrupts disabled, while the lock is another task's. -/
theorem call_deadlocks {c : Cpu n} {i : Fin (n + 1)} (hk : c.current.inKernel = true)
    (ho : c.current.point = .outside) (hf : c.flag = false) (hl : c.ttyLock = true)
    (hi : i ≠ c.running) (hin : (c.tasks i).point = .inside) :
    ∃ d, step c .call = some d ∧ Deadlocked d := by
  refine ⟨c.setCurrent { c.current with point := .acquiring }, ?_, ?_, hf, hl, i, hi, ?_⟩
  · simp only [step]
    rw [if_pos ⟨hk, ho⟩]
  · rw [setCurrent_current]
    exact ⟨hk, rfl⟩
  · rw [setCurrent_tasks_of_ne c _ hi]
    exact hin

/-- A parked task that is not the first one prints with interrupts disabled: at its
start, or in a system call. -/
theorem parked_deadlocks {h : List (Cpu n × Event)} {c : Cpu n} {i : Fin (n + 1)} (hr : Run h c)
    (hp : Parked False c.current) (hf : c.flag = false) (hl : c.ttyLock = true)
    (hi : i ≠ c.running) (hin : (c.tasks i).point = .inside) :
    ∃ later d, Run (later ++ h) d ∧ Deadlocked d := by
  generalize ht : c.current = t at hp
  cases hp with
  | new =>
    obtain ⟨d, hd, hdead⟩ := call_deadlocks (c := c) (i := i) (by rw [ht]; rfl) (by rw [ht]) hf hl hi hin
    exact ⟨[_], d, hr.step hd, hdead⟩
  | boot _ hb => exact hb.elim
  | user =>
    -- back from the tick, and into the kernel again
    have hiret : step c .iret =
        some { c.setCurrent ⟨true, .outside, []⟩ with flag := true } := by
      simp only [step, ht]
    generalize hb : { c.setCurrent ⟨true, .outside, []⟩ with flag := true } = b at hiret
    have hcur : b.current = ⟨true, .outside, []⟩ := by
      rw [← hb]
      change (c.setCurrent ⟨true, .outside, []⟩).current = _
      exact setCurrent_current ..
    have hint : step b .int80 = some (b.gate .syscall) := by
      simp only [step, hcur]
      rfl
    have hgate : (b.gate .syscall).current = ⟨true, .outside, [.syscall true]⟩ := by
      rw [gate_current, hcur, ← hb]
    have hin : ((b.gate .syscall).tasks i).point = .inside := by
      rw [← hb, Cpu.gate]
      simp only
      rw [setCurrent_tasks_of_ne _ _ (by exact hi)]
      simp only
      rw [setCurrent_tasks_of_ne _ _ hi]
      exact hin
    obtain ⟨d, hd, hdead⟩ := call_deadlocks (c := b.gate .syscall) (i := i)
      (by rw [hgate]; rfl) (by rw [hgate]) rfl (by rw [← hb]; exact hl) (by rw [← hb]; exact hi) hin
    exact ⟨[_, _, _], d, ((hr.step hiret).step hint).step hd, hdead⟩

/-- A tick between acquire and release is fatal as soon as there is another task. -/
theorem tick_inside_deadlocks {h : List (Cpu n × Event)} {c : Cpu n} {i : Fin (n + 1)}
    (hr : Run h c) (hf : c.flag = true) (hin : c.current.point = .inside) (hi : i ≠ c.running) :
    ∃ later d, Run (later ++ (c, .timer) :: h) d ∧ Deadlocked d := by
  have hinv := run_inv hr
  have hfirst : c.running = 0 := by
    have hrun := hinv.running
    generalize c.current = t at hrun hin
    rw [hf] at hrun
    cases hrun with
    | boot _ hb => exact hb
    | user => contradiction
  have hnext : c.running + 1 ≠ 0 := by
    intro hz
    cases n with
    | zero => exact hi (Fin.ext (by omega))
    | succ n =>
      rw [hfirst] at hz
      simp at hz
  have hstep : step c .timer = some (schedule (c.gate .timer)) := by
    simp only [step, hf, if_true]
  have htick := hinv.tick hf
  have hne : c.running ≠ (schedule (c.gate .timer)).running := by
    rw [schedule_running, hfirst]
    change (0 : Fin (n + 1)) ≠ c.running + 1
    exact hnext.symm
  have hin' : ((schedule (c.gate .timer)).tasks c.running).point = .inside := by
    rw [schedule_tasks, Cpu.gate, setCurrent_tasks, if_pos rfl]
    exact hin
  have hparked : Parked False (schedule (c.gate .timer)).current := by
    have hother : c.running + 1 ≠ c.running := by
      rw [hfirst] at hnext ⊢
      exact hnext
    have hp := hinv.parked (c.running + 1) hother
    rw [Cpu.current, schedule_running, schedule_tasks, Cpu.gate]
    change Parked False ((c.setCurrent _).tasks (c.running + 1))
    rw [setCurrent_tasks_of_ne c _ hother]
    rwa [eq_false hnext] at hp
  exact parked_deadlocks (hr.step hstep) hparked (by rw [schedule_flag]; rfl)
    (htick.held c.running hin') hne hin'

/-- A run whose ticks all come outside of the critical section, or find no other task,
meets no deadlock on the terminal lock, and every other tick can be followed by one. -/
theorem no_deadlock_of_ticks_outside {h : List (Cpu n × Event)} {c : Cpu n} (hr : Run h c) :
    ((∀ p ∈ h, TickOutside p.1 p.2) → ∀ d ∈ c :: h.map Prod.fst, ¬ Deadlocked d) ∧
      (c.flag = true → ¬ TickOutside c .timer →
        ∃ later d, Run (later ++ (c, .timer) :: h) d ∧ Deadlocked d) := by
  refine ⟨fun ht ↦ ?_, fun hf ht ↦ ?_⟩
  · have hparked : ∀ d ∈ c :: h.map Prod.fst, NobodyParkedInside d := by
      induction hr with
      | start => simp [NobodyParkedInside, start]
      | @step h c c' e _ hs ih =>
        rw [List.forall_mem_cons] at ht
        have hd := ih ht.2
        rw [List.map_cons, List.forall_mem_cons]
        exact ⟨step_nobodyParkedInside (hd c (.head _)) hs ht.1, hd⟩
    intro d hd hdead
    obtain ⟨-, -, -, i, hi, hin⟩ := hdead
    exact hparked d hd i hi hin
  · simp only [TickOutside, not_forall] at ht
    obtain ⟨-, hin, i, hi⟩ := ht
    exact tick_inside_deadlocks hr hf hin hi

/-- Two tasks print, one in the kernel and one in a system call, and a tick finds the first
one in the loop of `spinlock_acquire`. -/
def bothPrint : List Event :=
  [.timer, .jumpToUsermode, .timer, .iret, .call, .timer, .iret, .int80, .call, .testAndSet,
    .release, .iret, .timer, .iret, .testAndSet, .release]

theorem no_deadlock_of_ticks_outside_bothPrint : ∃ (h : List (Cpu 1 × Event)) (c : Cpu 1),
    Run h c ∧ h.map Prod.snd = bothPrint.reverse ∧ ∀ d ∈ c :: h.map Prod.fst, ¬ Deadlocked d := by
  have hexec : ∃ q ∈ perform step ([], start 1) bothPrint, ∀ p ∈ q.1, TickOutside p.1 p.2 := by decide
  obtain ⟨q, hq, ht⟩ := hexec
  have hr : Run q.1 q.2 := perform_inv .step .start hq
  exact ⟨q.1, q.2, hr, perform_events hq, (no_deadlock_of_ticks_outside hr).1 ht⟩

/-- Two tasks, as `kernel_main` leaves them. The second goes to user mode, the
tick that takes it away lets the first print, and the next tick comes while it
prints: the system call of the second then spins for good. -/
def printingShell : List Event :=
  [.timer, .jumpToUsermode, .timer, .iret, .call, .testAndSet, .timer, .iret, .int80, .call]

theorem printingShell_deadlocks : ∃ (h : List (Cpu 1 × Event)) (c : Cpu 1),
    Run h c ∧ h.map Prod.snd = printingShell.reverse ∧ Deadlocked c := by
  have hexec : ∃ q ∈ perform step ([], start 1) printingShell, Deadlocked q.2 := by decide
  obtain ⟨q, hq, hd⟩ := hexec
  exact ⟨q.1, q.2, perform_inv .step .start hq, perform_events hq, hd⟩

end KevOS.Tty.Lock
