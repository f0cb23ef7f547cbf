import KevOS.Tasking.RoundRobin
import Mathlib.Algebra.GroupWithZero.Nat

namespace KevOS.Tasking.Preemption

open RoundRobin (Linked Runs schedules schedule_runs schedules_linked)

/-- What a task has still to return from: an interrupt, with the flag that `iret` restores,
or its own call of `schedule`. -/
inductive Frame
  | timer (flag : Bool)
  | call
  deriving DecidableEq, Repr

/-- `started` is set when `switch_to` has once returned into the task. The innermost frame
comes first. -/
structure Task where
  started : Bool
  frames : List Frame
  deriving DecidableEq, Repr

/-- The processor and its tasks in the order of the ready queue. Task 0 is the boot code,
the others are made by `task_create`. -/
structure Cpu (n : ℕ) where
  running : Fin n
  flag : Bool
  tasks : Fin n → Task

/-- The timer interrupts, a task calls `schedule`, or the `iret` at the end of an interrupt. -/
inductive Event
  | timer
  | call
  | iret
  deriving DecidableEq, Repr

variable {n : ℕ} [NeZero n]

def Cpu.current (c : Cpu n) : Task := c.tasks c.running

def Cpu.setCurrent (c : Cpu n) (t : Task) : Cpu n :=
  { c with tasks := Function.update c.tasks c.running t }

def Cpu.push (c : Cpu n) (frame : Frame) : Cpu n :=
  c.setCurrent { c.current with frames := frame :: c.current.frames }

/-- The `ret` of `switch_to`: to the entry function, out of the call of `schedule`, or
into `irq_handler`, where the `iret` is still to come. -/
def Task.resume (t : Task) : Task :=
  if t.started then
    match t.frames with
    | .call :: rest => { t with frames := rest }
    | _ => t
  else { t with started := true }

/-- The flag stays as it is. With one task `schedule` returns at once. -/
def schedule (c : Cpu n) : Cpu n :=
  let c := { c with running := c.running + 1 }
  c.setCurrent c.current.resume

def step (c : Cpu n) (e : Event) : Option (Cpu n) :=
  match e with
  | .timer =>
    -- the interrupt gate saves the flag and clears it
    if c.flag then some (schedule { c.push (.timer c.flag) with flag := false }) else none
  | .call => if c.current.frames = [] then some (schedule (c.push .call)) else none
  | .iret =>
    match c.current.frames with
    | .timer flag :: rest => some { c.setCurrent { c.current with frames := rest } with flag }
    | _ => none

/-- The tasks are created, interrupts are enabled, and the boot code runs. -/
def start (n : ℕ) [NeZero n] : Cpu n where
  running := 0
  flag := true
  tasks i := { started := i = 0, frames := [] }

/-- A run, with every state it went through and what happened there. -/
inductive Run : List (Cpu n × Event) → Cpu n → Prop
  | start : Run [] (start n)
  | step {h : List (Cpu n × Event)} {c c' : Cpu n} {e : Event} :
      Run h c → step c e = some c' → Run ((c, e) :: h) c'

/-- A task made by `task_create` executes its own code only with interrupts enabled. -/
def Preemptible (c : Cpu n) : Prop := c.running ≠ 0 → c.current.frames = [] → c.flag = true

/-- The task was switched away from by a tick, and goes on with an `iret`. -/
def Task.interrupted (t : Task) : Prop := ∃ flag rest, t.frames = .timer flag :: rest

/-- A task made by `task_create` that was not interrupted is not switched to with
interrupts disabled: neither by a tick nor by a call made with the flag cleared. -/
def Enabled (c : Cpu n) : Event → Prop
  | .timer => c.running + 1 ≠ 0 → (c.tasks (c.running + 1)).interrupted
  | .call => c.running + 1 ≠ 0 → ¬ (c.tasks (c.running + 1)).interrupted → c.flag = true
  | .iret => True

/-- A task returns from `schedule` before anything else happens to it, a new task has
nothing to return from, and every tick found the flag set. -/
structure Task.Valid (t : Task) : Prop where
  call : .call ∈ t.frames → t.frames = [.call]
  fresh : t.started = false → t.frames = []
  saved : .timer false ∉ t.frames

structure Inv (c : Cpu n) : Prop where
  started : c.current.started = true
  call : .call ∉ c.current.frames
  valid : ∀ i, (c.tasks i).Valid

section Steps

variable {c c' : Cpu n} {e : Event} {t : Task}

omit [NeZero n] in
theorem setCurrent_tasks (c : Cpu n) (t : Task) (i : Fin n) :
    (c.setCurrent t).tasks i = if i = c.running then t else c.tasks i := by
  simp [Cpu.setCurrent, Function.update_apply]

omit [NeZero n] in
theorem setCurrent_current (c : Cpu n) (t : Task) : (c.setCurrent t).current = t := by
  simp [Cpu.current, Cpu.setCurrent]

theorem schedule_current (c : Cpu n) : (schedule c).current = (c.tasks (c.running + 1)).resume :=
  setCurrent_current ..

theorem resume_started (t : Task) : t.resume.started = true := by
  unfold Task.resume
  split
  · split <;> assumption
  · rfl

theorem Task.Valid.resume (h : t.Valid) : t.resume.Valid ∧ .call ∉ t.resume.frames := by
  unfold Task.resume
  split
  case isTrue hstarted =>
    split
    case h_1 rest hframes =>
      have hrest : rest = [] := by
        have hcall := h.call (by rw [hframes]; exact List.mem_cons_self)
        rw [hframes] at hcall
        exact (List.cons.inj hcall).2
      subst hrest
      exact ⟨⟨nofun, fun _ ↦ rfl, nofun⟩, nofun⟩
    case h_2 hframes =>
      exact ⟨h, fun hcall ↦ hframes [] (h.call hcall)⟩
  case isFalse hnew =>
    have hframes := h.fresh (Bool.eq_false_iff.mpr hnew)
    rw [hframes]
    exact ⟨⟨nofun, fun _ ↦ rfl, nofun⟩, nofun⟩

/-- A task that was not interrupted goes on in its own code. -/
theorem Task.Valid.resume_frames (h : t.Valid) : t.resume.frames = [] ↔ ¬ t.interrupted := by
  unfold Task.resume Task.interrupted
  split
  case isTrue hstarted =>
    split
    case h_1 rest hframes =>
      have hcall := h.call (by rw [hframes]; exact List.mem_cons_self)
      rw [hframes] at hcall ⊢
      simp [(List.cons.inj hcall).2]
    case h_2 hframes =>
      cases hf : t.frames with
      | nil => simp
      | cons frame rest =>
        cases frame with
        | timer flag => simp
        | call => exact absurd hf (hframes rest)
  case isFalse hnew => simp [h.fresh (Bool.eq_false_iff.mpr hnew)]

theorem start_inv (n : ℕ) [NeZero n] : Inv (start n) where
  started := rfl
  call := nofun
  valid _ := ⟨nofun, fun _ ↦ rfl, nofun⟩

theorem schedule_inv (h : ∀ i, (c.tasks i).Valid) : Inv (schedule c) where
  started := by
    rw [schedule_current]
    exact resume_started _
  call := by
    rw [schedule_current]
    exact (h _).resume.2
  valid i := by
    rw [schedule, setCurrent_tasks]
    split
    · exact (h _).resume.1
    · exact h i

omit [NeZero n] in
theorem push_valid (h : Inv c) {f : Frame} (hf : f = .call → c.current.frames = [])
    (hs : f ≠ .timer false) (i : Fin n) : ((c.push f).tasks i).Valid := by
  rw [Cpu.push, setCurrent_tasks]
  split
  · refine ⟨fun hcall ↦ ?_, fun hnew ↦ ?_, fun hfalse ↦ ?_⟩
    · rcases List.mem_cons.mp hcall with heq | hcall
      · rw [← heq, hf heq.symm]
      · exact absurd hcall h.call
    · rw [h.started] at hnew
      contradiction
    · rcases List.mem_cons.mp hfalse with heq | hfalse
      · exact hs heq.symm
      · exact (h.valid c.running).saved hfalse
  · exact h.valid i

omit [NeZero n] in
theorem push_timer_valid (h : Inv c) (hflag : c.flag = true) (i : Fin n) :
    ((c.push (.timer c.flag)).tasks i).Valid := by
  apply push_valid h
  · intro heq
    contradiction
  · rw [hflag]
    decide

omit [NeZero n] in
theorem push_call_valid (h : Inv c) (hown : c.current.frames = []) (i : Fin n) :
    ((c.push .call).tasks i).Valid := by
  apply push_valid h
  · intro _
    exact hown
  · decide

omit [NeZero n] in
theorem Inv.pop (h : Inv c) {f : Frame} {rest : List Frame} (hf : c.current.frames = f :: rest)
    (flag : Bool) : Inv { c.setCurrent { c.current with frames := rest } with flag } := by
  have hvalid := h.valid c.running
  have hcall := h.call
  have hsaved := hvalid.saved
  rw [← Cpu.current] at hsaved
  rw [hf, List.mem_cons, not_or] at hcall hsaved
  have hcur := setCurrent_current c { c.current with frames := rest }
  refine ⟨?_, ?_, fun i ↦ ?_⟩
  · exact (congrArg Task.started hcur).trans h.started
  · change .call ∉ (c.setCurrent { c.current with frames := rest }).current.frames
    rw [hcur]
    exact hcall.2
  · dsimp only
    rw [setCurrent_tasks]
    split
    · refine ⟨fun hc ↦ absurd hc hcall.2, fun hnew ↦ ?_, hsaved.2⟩
      rw [h.started] at hnew
      contradiction
    · exact h.valid i

theorem step_inv (h : Inv c) (hs : step c e = some c') : Inv c' := by
  cases e with
  | timer =>
    simp only [step, Option.ite_none_right_eq_some, Option.some.injEq] at hs
    obtain ⟨hflag, rfl⟩ := hs
    exact schedule_inv (push_timer_valid h hflag)
  | call =>
    simp only [step, Option.ite_none_right_eq_some, Option.some.injEq] at hs
    obtain ⟨hown, rfl⟩ := hs
    exact schedule_inv (push_call_valid h hown)
  | iret =>
    simp only [step] at hs
    split at hs
    case h_1 flag rest hframes =>
      injection hs with hs
      subst hs
      exact h.pop hframes flag
    case h_2 => contradiction

theorem push_next (f : Frame) (h : c.running + 1 ≠ 0) :
    (c.push f).tasks (c.running + 1) = c.tasks (c.running + 1) := by
  have hne : c.running + 1 ≠ c.running := by
    intro heq
    cases n with
    | zero => exact c.running.elim0
    | succ n =>
      have hval := Fin.val_add_one c.running
      split at hval
      · exact h (Fin.ext hval)
      · rw [heq] at hval
        omega
  rw [Cpu.push, setCurrent_tasks, if_neg hne]

theorem schedule_preemptible_iff (h : ∀ i, (c.tasks i).Valid) :
    Preemptible (schedule c) ↔
      (c.running + 1 ≠ 0 → ¬ (c.tasks (c.running + 1)).interrupted → c.flag = true) := by
  rw [Preemptible, schedule_current, (h _).resume_frames]
  rfl

/-- A step loses the property exactly when it switches as it should not. -/
theorem step_preemptible_iff (h : Inv c) (hs : step c e = some c') :
    Preemptible c' ↔ Enabled c e := by
  cases e with
  | timer =>
    simp only [step, Option.ite_none_right_eq_some, Option.some.injEq] at hs
    obtain ⟨hflag, rfl⟩ := hs
    refine (schedule_preemptible_iff (c := { c.push (.timer c.flag) with flag := false })
      (push_timer_valid h hflag)).trans ?_
    apply forall_congr'
    intro hne
    have hnext := push_next (c := c) (.timer c.flag) hne
    refine ⟨fun hp ↦ ?_, fun hint hnot ↦ ?_⟩
    · by_contra hnot
      rw [← hnext] at hnot
      exact absurd (hp hnot) Bool.false_ne_true
    · rw [← hnext] at hint
      exact absurd hint hnot
  | call =>
    simp only [step, Option.ite_none_right_eq_some, Option.some.injEq] at hs
    obtain ⟨hown, rfl⟩ := hs
    refine (schedule_preemptible_iff (push_call_valid h hown)).trans ?_
    apply forall_congr'
    intro hne
    have hnext : (c.push .call).tasks ((c.push .call).running + 1) = c.tasks (c.running + 1) :=
      push_next (c := c) .call hne
    rw [hnext]
    rfl
  | iret =>
    simp only [step] at hs
    split at hs
    case h_1 flag rest hframes =>
      injection hs with hs
      subst hs
      have hsaved := (h.valid c.running).saved
      rw [← Cpu.current, hframes, List.mem_cons, not_or] at hsaved
      have hflag : flag = true := by
        cases flag with
        | true => rfl
        | false => exact absurd rfl hsaved.1
      exact iff_of_true (fun _ _ ↦ hflag) trivial
    case h_2 => contradiction

theorem run_inv {h : List (Cpu n × Event)} (hr : Run h c) : Inv c := by
  induction hr with
  | start => exact start_inv n
  | step _ hs ih => exact step_inv ih hs

theorem step_running (hs : step c e = some c') :
    c'.running = if e = .iret then c.running else c.running + 1 := by
  cases e with
  | timer =>
    simp only [step, Option.ite_none_right_eq_some, Option.some.injEq] at hs
    obtain ⟨-, rfl⟩ := hs
    rfl
  | call =>
    simp only [step, Option.ite_none_right_eq_some, Option.some.injEq] at hs
    obtain ⟨-, rfl⟩ := hs
    rfl
  | iret =>
    simp only [step] at hs
    split at hs
    · cases hs
      rfl
    · contradiction

/-- The task that runs is the one that the kernel's `schedule` has made the current one
after as many calls as a run makes. -/
theorem run_follows {h : List (Cpu n × Event)} {created : List ℕ} {s : Scheduler} (hr : Run h c)
    (hl : Linked created s) (hlen : created.length = n) (hboot : s.currentTask = s.readyQueue)
    (esps : ℕ → ℕ) : Runs (schedules esps (h.countP fun p ↦ p.2 ≠ .iret) s) c.running := by
  induction hr with
  | start => exact hboot
  | @step h c c' e _ hs ih =>
    rw [step_running hs, List.countP_cons]
    simp only [decide_eq_true_eq]
    by_cases he : e = .iret
    · rw [if_pos he, if_neg (not_not.mpr he)]
      exact ih
    · rw [if_neg he, if_pos he]
      exact schedule_runs (schedules_linked hl esps _).1 hlen ih _

/-- In a run the tasks made by `task_create` can always be preempted if and only if no
step switches to one of them with interrupts disabled that will not restore them. -/
theorem run_preemptible_iff {h : List (Cpu n × Event)} (hr : Run h c) :
    (∀ s ∈ c :: h.map Prod.fst, Preemptible s) ↔ ∀ p ∈ h, Enabled p.1 p.2 := by
  induction hr with
  | start =>
    refine iff_of_true (fun s hs ↦ ?_) nofun
    rw [List.map_nil, List.mem_singleton] at hs
    subst hs
    exact fun _ _ ↦ rfl
  | step hr hs ih =>
    rw [List.forall_mem_cons, List.forall_mem_cons, List.map_cons, ih]
    exact and_congr_left' (step_preemptible_iff (run_inv hr) hs)

/-- Task 1 begins after a call of `schedule`, and a tick takes the processor from it. -/
theorem run_preemptible_iff_calledFirst : ∃ h c, Run (n := 2) h c ∧ c.running = 0 ∧
    ((∀ s ∈ c :: h.map Prod.fst, Preemptible s) ↔ ∀ p ∈ h, Enabled p.1 p.2) :=
  have hr : Run _ _ := ((Run.start (n := 2)).step (e := .call) rfl).step (e := .timer) rfl
  ⟨_, _, hr, rfl, run_preemptible_iff hr⟩

/-- The first tick enters the entry function of a new task with interrupts disabled. -/
theorem firstTick_not_preemptible : ∃ h c, Run (n := 2) h c ∧ ¬ Preemptible c :=
  ⟨_, _, (Run.start (n := 2)).step (e := .timer) rfl, fun hp ↦ absurd (hp (by decide) (by decide)) (by decide)⟩

end Steps

end KevOS.Tasking.Preemption
