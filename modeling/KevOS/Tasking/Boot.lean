import KevOS.Lib.Execution
import KevOS.Tasking.RoundRobin

namespace KevOS.Tasking.Boot

open Lib.Execution Machine RoundRobin Function

/-- The assignment that `kernel_main` makes next, in `tasking_init` or in `task_create`. -/
inductive Point
  | allocCurrent
  | currentId
  | currentRunning
  | currentNext
  | setReadyQueue
  | allocNew
  | newId
  | allocStack
  | kstackBottom
  | frame (words : List ℕ)
  | newEsp
  | newNext
  | publish
  | done
  deriving DecidableEq, Repr

/-- The boot code between two assignments: its variables, the entry functions it has still
to pass to `task_create`, what `kmalloc` returned, and the fields that were assigned. -/
structure State where
  point : Point
  entries : List ℕ
  sched : Scheduler
  bootTask : ℕ
  newTask : ℕ
  stackMem : ℕ
  stack : ℕ
  allocated : List ℕ
  nextAssigned : ℕ → Bool
  espAssigned : ℕ → Bool

/-- The next call of `task_create`, if there is one. -/
def create : List ℕ → Point
  | [] => .done
  | _ :: _ => .allocNew

def pushWords : List ℕ → Point
  | [] => .newEsp
  | words => .frame words

def State.setTask (s : State) (p : ℕ) (t : Tcb) : State := { s with sched := s.sched.setTask p t }

/-- The assignment at the point `s.point`. Where it calls `kmalloc`, `block` is returned, and
a `task_t` there has the contents `contents`. -/
def assign (block : ℕ) (contents : Tcb) (s : State) : State :=
  let current := s.sched.currentTask
  let task := s.sched.task
  let alloc := { s.setTask block contents with
    allocated := block :: s.allocated
    nextAssigned := update s.nextAssigned block false
    espAssigned := update s.espAssigned block false }
  match s.point with
  | .allocCurrent =>
    { alloc with
      point := .currentId
      sched := { alloc.sched with currentTask := block }
      bootTask := block }
  | .currentId =>
    let s' := s.setTask current { task current with id := s.sched.nextTid }
    { s' with
      point := .currentRunning
      sched := { s'.sched with nextTid := w32 (s.sched.nextTid + 1) } }
  | .currentRunning =>
    { s.setTask current { task current with running := true } with point := .currentNext }
  | .currentNext =>
    { s.setTask current { task current with next := current } with
      point := .setReadyQueue
      nextAssigned := update s.nextAssigned current true }
  | .setReadyQueue =>
    { s with point := create s.entries, sched := { s.sched with readyQueue := current } }
  | .allocNew => { alloc with point := .newId, newTask := block }
  | .newId =>
    let s' := s.setTask s.newTask { task s.newTask with id := s.sched.nextTid }
    { s' with
      point := .allocStack
      sched := { s'.sched with nextTid := w32 (s.sched.nextTid + 1) } }
  | .allocStack =>
    { s with point := .kstackBottom, stackMem := block, allocated := block :: s.allocated }
  | .kstackBottom =>
    { s.setTask s.newTask { task s.newTask with kstackBottom := s.stackMem } with
      point := .frame (s.entries.head?.toList ++ [0, 0, 0, 0])
      stack := w32 (s.stackMem + 4096) }
  | .frame words =>
    let stack := sub32 s.stack 4
    { s with
      point := pushWords words.tail
      sched := { s.sched with word := update s.sched.word stack (words.headD 0) }
      stack }
  | .newEsp =>
    { s.setTask s.newTask { task s.newTask with esp := s.stack } with
      point := .newNext
      espAssigned := update s.espAssigned s.newTask true }
  | .newNext =>
    { s.setTask s.newTask { task s.newTask with next := s.sched.next s.sched.readyQueue } with
      point := .publish
      nextAssigned := update s.nextAssigned s.newTask true }
  | .publish =>
    let ready := s.sched.readyQueue
    { s.setTask ready { task ready with next := s.newTask } with
      point := create s.entries.tail
      entries := s.entries.tail
      nextAssigned := update s.nextAssigned ready true }
  | .done => s

/-- A timer interrupt. A switch assigns the `esp` of the task it leaves. -/
def tick (esp : ℕ) (s : State) : State :=
  let sched := schedule { s.sched with esp }
  { s with
    sched
    espAssigned :=
      if sched.currentTask = s.sched.currentTask then s.espAssigned
      else update s.espAssigned s.sched.currentTask true }

inductive Event
  | assign (block : ℕ) (contents : Tcb)
  | tick (esp : ℕ)
  deriving DecidableEq, Repr

/-- The boot code goes on when it is the running task, and `kmalloc` returns blocks that
are not in use. -/
def step (s : State) : Event → Option State
  | .assign block contents =>
    if s.sched.currentTask = s.bootTask ∧ block ≠ 0 ∧ block ∉ s.allocated then
      some (assign block contents s)
    else none
  | .tick esp => some (tick esp s)

/-- `kernel_main` before `tasking_init`, with what lies in memory. -/
def start (entries : List ℕ) (sched : Scheduler) : State where
  point := .allocCurrent
  entries := entries
  sched := { sched with currentTask := 0, readyQueue := 0, nextTid := 1 }
  bootTask := 0
  newTask := 0
  stackMem := 0
  stack := 0
  allocated := []
  nextAssigned _ := false
  espAssigned _ := false

/-- A run, with every state it went through and what happened there. -/
inductive Run (entries : List ℕ) (sched : Scheduler) : List (State × Event) → State → Prop
  | start : Run entries sched [] (start entries sched)
  | step {h : List (State × Event)} {s s' : State} {e : Event} :
      Run entries sched h s → step s e = some s' → Run entries sched ((s, e) :: h) s'

/-- What `schedule` reads has been assigned: the link it follows, that of the task it comes
to, and the stack pointer it loads. -/
def Built (s : State) : Prop :=
  let current := s.sched.currentTask
  current ≠ 0 →
    s.nextAssigned current = true ∧ s.nextAssigned (s.sched.next current) = true ∧
      (s.sched.next current ≠ current → s.espAssigned (s.sched.next current) = true)

/-- Between `current_task = kmalloc(..)` and `current_task->next = current_task`. -/
def Point.window : Point → Bool
  | .currentId | .currentRunning | .currentNext => true
  | _ => false

section Whole

variable {s : State} {entry block stackMem : ℕ} {rest : List ℕ}

theorem assign_taskingInit (contents : Tcb) (hp : s.point = .allocCurrent) :
    ((assign block contents)^[5] s).sched = taskingInit block (s.setTask block contents).sched := by
  simp [assign, hp, taskingInit, State.setTask, Scheduler.setTask, create]

end Whole

/-- The tasks that the links lead through. -/
structure Published (s : State) (tasks : List ℕ) : Prop where
  boot : s.bootTask ∈ tasks
  current : s.sched.currentTask ∈ tasks
  nonnull : 0 ∉ tasks
  allocated : ∀ t ∈ tasks, t ∈ s.allocated
  assigned : ∀ t ∈ tasks, s.nextAssigned t = true
  next : ∀ t ∈ tasks, s.sched.next t ∈ tasks
  esp : ∀ t ∈ tasks, t ≠ s.sched.currentTask → s.espAssigned t = true

/-- The queue has a head, and a task that is being created is not yet part of it. -/
structure Queued (s : State) (tasks : List ℕ) : Prop extends Published s tasks where
  ready : s.sched.readyQueue ∈ tasks

structure Creating (s : State) (tasks : List ℕ) : Prop extends Queued s tasks where
  fresh : s.newTask ∉ tasks
  newNonnull : s.newTask ≠ 0
  newAllocated : s.newTask ∈ s.allocated

/-- What holds at each point of the boot code. -/
def Phase (s : State) : Prop :=
  match s.point with
  | .allocCurrent => s.sched.currentTask = 0 ∧ s.bootTask = 0
  | .currentId | .currentRunning | .currentNext =>
    s.sched.currentTask = s.bootTask ∧ s.bootTask ≠ 0 ∧ s.bootTask ∈ s.allocated ∧
      s.nextAssigned s.bootTask = false
  | .setReadyQueue => ∃ tasks, Published s tasks
  | .allocNew | .done => ∃ tasks, Queued s tasks
  | .newId | .allocStack | .kstackBottom | .frame _ | .newEsp => ∃ tasks, Creating s tasks
  | .newNext => ∃ tasks, Creating s tasks ∧ s.espAssigned s.newTask = true
  | .publish => ∃ tasks, Creating s tasks ∧ s.espAssigned s.newTask = true ∧
      s.nextAssigned s.newTask = true ∧ s.sched.next s.newTask ∈ tasks

section Ticks

variable {s : State} {tasks : List ℕ} {esp : ℕ}

theorem tick_next : (tick esp s).sched.next = s.sched.next := schedule_next

theorem tick_readyQueue : (tick esp s).sched.readyQueue = s.sched.readyQueue := schedule_readyQueue

theorem tick_espAssigned {t : ℕ} (h : s.espAssigned t = true) : (tick esp s).espAssigned t = true := by
  dsimp only [tick]
  split
  · exact h
  · rw [update_apply]
    split
    · rfl
    · exact h

theorem Published.tick (h : Published s tasks) (esp : ℕ) : Published (tick esp s) tasks := by
  have hcur : s.sched.currentTask ≠ 0 := fun he ↦ h.nonnull (he ▸ h.current)
  have hnext : (Boot.tick esp s).sched.currentTask = s.sched.next s.sched.currentTask :=
    schedule_currentTask hcur
  refine ⟨h.boot, ?_, h.nonnull, h.allocated, h.assigned, ?_, fun t ht hne ↦ ?_⟩
  · rw [hnext]
    exact h.next _ h.current
  · rw [tick_next]
    exact h.next
  · by_cases hold : t = s.sched.currentTask
    · -- the task that was left
      subst hold
      have hleft : (Boot.tick esp s).espAssigned = update s.espAssigned s.sched.currentTask true :=
        if_neg (Ne.symm hne)
      rw [hleft, update_self]
    · exact tick_espAssigned (h.esp t ht hold)

theorem Queued.tick (h : Queued s tasks) (esp : ℕ) : Queued (tick esp s) tasks where
  toPublished := h.toPublished.tick esp
  ready := by
    rw [tick_readyQueue]
    exact h.ready

theorem Creating.tick (h : Creating s tasks) (esp : ℕ) : Creating (tick esp s) tasks where
  toQueued := h.toQueued.tick esp
  fresh := h.fresh
  newNonnull := h.newNonnull
  newAllocated := h.newAllocated

theorem tick_phase (h : Phase s) (hw : s.point.window = false) (esp : ℕ) : Phase (tick esp s) := by
  have hpoint : (tick esp s).point = s.point := rfl
  unfold Phase at h ⊢
  rw [hpoint]
  cases hp : s.point <;> rw [hp] at h hw
  case allocCurrent =>
    have hnull : schedule { s.sched with esp } = { s.sched with esp } := if_pos h.1
    refine ⟨?_, h.2⟩
    dsimp only [tick]
    rw [hnull]
    exact h.1
  case currentId => contradiction
  case currentRunning => contradiction
  case currentNext => contradiction
  case setReadyQueue => exact h.imp fun tasks ht ↦ ht.tick esp
  case allocNew => exact h.imp fun tasks ht ↦ ht.tick esp
  case done => exact h.imp fun tasks ht ↦ ht.tick esp
  case newNext => exact h.imp fun tasks ht ↦ ⟨ht.1.tick esp, tick_espAssigned ht.2⟩
  case publish =>
    refine h.imp fun tasks ht ↦ ⟨ht.1.tick esp, tick_espAssigned ht.2.1, ht.2.2.1, ?_⟩
    rw [tick_next]
    exact ht.2.2.2
  all_goals exact h.imp fun tasks ht ↦ ht.tick esp

end Ticks

section Assignments

variable {s s' : State} {tasks : List ℕ} {block p : ℕ} {contents t : Tcb}

theorem setTask_next (s : State) (p : ℕ) (t : Tcb) :
    (s.setTask p t).sched.next = update s.sched.next p t.next := by
  funext q
  simp only [State.setTask, Scheduler.setTask, Scheduler.next, update_apply]
  split <;> rfl

/-- Two states that agree on the published tasks. -/
structure Agree (tasks : List ℕ) (s s' : State) : Prop where
  boot : s'.bootTask = s.bootTask
  current : s'.sched.currentTask = s.sched.currentTask
  allocated : ∀ t ∈ s.allocated, t ∈ s'.allocated
  assigned : ∀ t ∈ tasks, s'.nextAssigned t = s.nextAssigned t
  next : ∀ t ∈ tasks, s'.sched.next t = s.sched.next t
  esp : ∀ t ∈ tasks, s'.espAssigned t = s.espAssigned t

theorem Published.agree (h : Published s tasks) (ha : Agree tasks s s') : Published s' tasks where
  boot := ha.boot ▸ h.boot
  current := ha.current ▸ h.current
  nonnull := h.nonnull
  allocated t ht := ha.allocated t (h.allocated t ht)
  assigned t ht := (ha.assigned t ht).trans (h.assigned t ht)
  next t ht := by
    rw [ha.next t ht]
    exact h.next t ht
  esp t ht hne := by
    rw [ha.current] at hne
    exact (ha.esp t ht).trans (h.esp t ht hne)

theorem Creating.agree (h : Creating s tasks) (ha : Agree tasks s s')
    (hready : s'.sched.readyQueue = s.sched.readyQueue) (hnew : s'.newTask = s.newTask) :
    Creating s' tasks where
  toPublished := h.toPublished.agree ha
  ready := hready ▸ h.ready
  fresh := hnew ▸ h.fresh
  newNonnull := hnew ▸ h.newNonnull
  newAllocated := hnew ▸ ha.allocated _ h.newAllocated

theorem Creating.ne_new (h : Creating s tasks) (hp : p ∈ tasks) : p ≠ s.newTask :=
  fun heq ↦ h.fresh (heq ▸ hp)

/-- The structure of a task that is not yet published may be written. -/
theorem agree_setTask (hp : p ∉ tasks) (t : Tcb) : Agree tasks s (s.setTask p t) where
  boot := rfl
  current := rfl
  allocated _ ht := ht
  assigned _ _ := rfl
  next q hq := by
    have hne : q ≠ p := fun heq ↦ hp (heq ▸ hq)
    rw [setTask_next, update_of_ne hne]
  esp _ _ := rfl

theorem currentNext_published (hcur : s.sched.currentTask = s.bootTask) (hnull : s.bootTask ≠ 0)
    (hmem : s.bootTask ∈ s.allocated) (hp : s.point = .currentNext) :
    Published (assign block contents s) [s.bootTask] := by
  rw [assign, hp]
  dsimp only
  refine ⟨List.mem_singleton_self _, ?_, ?_, ?_, ?_, ?_, ?_⟩
  · rw [List.mem_singleton]
    exact hcur
  · rw [List.mem_singleton]
    exact hnull.symm
  · intro t ht
    rw [List.mem_singleton.mp ht]
    exact hmem
  · intro t ht
    rw [List.mem_singleton.mp ht, hcur]
    exact update_self ..
  · intro t ht
    rw [List.mem_singleton.mp ht, setTask_next, hcur, update_self]
    exact List.mem_singleton_self _
  · intro t ht hne
    rw [List.mem_singleton.mp ht] at hne
    exact absurd hcur.symm hne

theorem allocNew_creating (h : Queued s tasks) (hnull : block ≠ 0) (hfresh : block ∉ s.allocated)
    (hp : s.point = .allocNew) : Creating (assign block contents s) tasks := by
  have hnew : block ∉ tasks := fun hb ↦ hfresh (h.allocated block hb)
  have hne (t : ℕ) (ht : t ∈ tasks) : t ≠ block := fun heq ↦ hnew (heq ▸ ht)
  have hset := agree_setTask (s := s) hnew contents
  rw [assign, hp]
  refine ⟨⟨h.toPublished.agree ?_, h.ready⟩, hnew, hnull, List.mem_cons_self⟩
  exact ⟨rfl, rfl, fun t ht ↦ List.mem_cons_of_mem _ ht, fun t ht ↦ update_of_ne (hne t ht) _ _,
    hset.next, fun t ht ↦ update_of_ne (hne t ht) _ _⟩

theorem publish_queued (h : Creating s tasks) (hesp : s.espAssigned s.newTask = true)
    (hassigned : s.nextAssigned s.newTask = true) (hnext : s.sched.next s.newTask ∈ tasks)
    (hp : s.point = .publish) : Queued (assign block contents s) (s.newTask :: tasks) := by
  have hready : s.newTask ≠ s.sched.readyQueue := fun heq ↦ h.fresh (heq ▸ h.ready)
  rw [assign, hp]
  dsimp only
  refine ⟨⟨List.mem_cons_of_mem _ h.boot, List.mem_cons_of_mem _ h.current, ?_, ?_, ?_, ?_, ?_⟩,
    List.mem_cons_of_mem _ h.ready⟩
  · rw [List.mem_cons, not_or]
    exact ⟨h.newNonnull.symm, h.nonnull⟩
  · exact List.forall_mem_cons.mpr ⟨h.newAllocated, h.allocated⟩
  · intro t ht
    dsimp only
    rw [update_apply]
    split
    · rfl
    · rcases List.mem_cons.mp ht with rfl | ht
      · exact hassigned
      · exact h.assigned t ht
  · intro t ht
    rw [setTask_next, update_apply]
    split
    · exact List.mem_cons_self
    · rcases List.mem_cons.mp ht with rfl | ht
      · exact List.mem_cons_of_mem _ hnext
      · exact List.mem_cons_of_mem _ (h.next t ht)
  · intro t ht hne
    rcases List.mem_cons.mp ht with rfl | ht
    · exact hesp
    · exact h.esp t ht hne

theorem create_phase (h : Queued s tasks) (hp : s.point = create s.entries) : Phase s := by
  unfold Phase
  rw [hp]
  cases s.entries <;> exact ⟨tasks, h⟩

theorem assign_phase (h : Phase s) (hnull : block ≠ 0) (hfresh : block ∉ s.allocated) :
    Phase (assign block contents s) := by
  unfold Phase at h
  split at h
  case h_1 hp =>
    unfold assign Phase
    rw [hp]
    exact ⟨rfl, hnull, List.mem_cons_self, update_self ..⟩
  case h_2 hp =>
    unfold assign Phase
    rw [hp]
    exact h
  case h_3 hp =>
    unfold assign Phase
    rw [hp]
    exact h
  case h_4 hp =>
    have hpub : Published (assign block contents s) [s.bootTask] :=
      currentNext_published h.1 h.2.1 h.2.2.1 hp
    have hpoint : (assign block contents s).point = .setReadyQueue := by rw [assign, hp]
    unfold Phase
    rw [hpoint]
    exact ⟨_, hpub⟩
  case h_5 hp =>
    obtain ⟨tasks, ht⟩ := h
    have hq : Queued (assign block contents s) tasks := by
      rw [assign, hp]
      exact ⟨ht.agree ⟨rfl, rfl, fun _ h ↦ h, fun _ _ ↦ rfl, fun _ _ ↦ rfl, fun _ _ ↦ rfl⟩, ht.current⟩
    apply create_phase hq
    rw [assign, hp]
  case h_6 hp =>
    obtain ⟨tasks, ht⟩ := h
    have hc : Creating (assign block contents s) tasks := allocNew_creating ht hnull hfresh hp
    have hpoint : (assign block contents s).point = .newId := by rw [assign, hp]
    unfold Phase
    rw [hpoint]
    exact ⟨tasks, hc⟩
  case h_7 hp =>
    obtain ⟨tasks, ht⟩ := h
    have hpoint : (assign block contents s).point = .done := by rw [assign, hp]; exact hp
    unfold Phase
    rw [hpoint, assign, hp]
    exact ⟨tasks, ht⟩
  case h_8 hp =>
    obtain ⟨tasks, ht⟩ := h
    have hset := agree_setTask (s := s) ht.fresh { s.sched.task s.newTask with id := s.sched.nextTid }
    unfold assign Phase
    rw [hp]
    exact ⟨tasks, ht.agree ⟨rfl, rfl, fun _ h ↦ h, fun _ _ ↦ rfl, hset.next, fun _ _ ↦ rfl⟩ rfl rfl⟩
  case h_9 hp =>
    obtain ⟨tasks, ht⟩ := h
    unfold assign Phase
    rw [hp]
    exact ⟨tasks, ht.agree ⟨rfl, rfl, fun _ h ↦ List.mem_cons_of_mem _ h, fun _ _ ↦ rfl, fun _ _ ↦ rfl,
      fun _ _ ↦ rfl⟩ rfl rfl⟩
  case h_10 hp =>
    obtain ⟨tasks, ht⟩ := h
    have hset := agree_setTask (s := s) ht.fresh { s.sched.task s.newTask with kstackBottom := s.stackMem }
    unfold assign Phase
    rw [hp]
    exact ⟨tasks, ht.agree ⟨rfl, rfl, fun _ h ↦ h, fun _ _ ↦ rfl, hset.next, fun _ _ ↦ rfl⟩ rfl rfl⟩
  case h_11 words hp =>
    obtain ⟨tasks, ht⟩ := h
    have hc : Creating (assign block contents s) tasks := by
      rw [assign, hp]
      exact ht.agree ⟨rfl, rfl, fun _ h ↦ h, fun _ _ ↦ rfl, fun _ _ ↦ rfl, fun _ _ ↦ rfl⟩ rfl rfl
    have hpoint : (assign block contents s).point = pushWords words.tail := by rw [assign, hp]
    unfold Phase
    rw [hpoint]
    cases words.tail <;> exact ⟨tasks, hc⟩
  case h_12 hp =>
    obtain ⟨tasks, ht⟩ := h
    unfold assign Phase
    rw [hp]
    have hset := agree_setTask (s := s) ht.fresh { s.sched.task s.newTask with esp := s.stack }
    refine ⟨tasks, ht.agree ⟨rfl, rfl, fun _ h ↦ h, fun _ _ ↦ rfl, hset.next, fun t hmem ↦ ?_⟩ rfl rfl,
      update_self ..⟩
    exact update_of_ne (ht.ne_new hmem) _ _
  case h_13 hp =>
    obtain ⟨tasks, ht, hesp⟩ := h
    unfold assign Phase
    rw [hp]
    have hset := agree_setTask (s := s) ht.fresh
      { s.sched.task s.newTask with next := s.sched.next s.sched.readyQueue }
    refine ⟨tasks, ht.agree ⟨rfl, rfl, fun _ h ↦ h, fun t hmem ↦ ?_, hset.next, fun _ _ ↦ rfl⟩ rfl rfl,
      hesp, update_self .., ?_⟩
    · exact update_of_ne (ht.ne_new hmem) _ _
    · rw [setTask_next]
      change update s.sched.next s.newTask _ s.newTask ∈ tasks
      rw [update_self]
      exact ht.next _ ht.ready
  case h_14 hp =>
    obtain ⟨tasks, ht, hesp, hassigned, hnext⟩ := h
    have hq : Queued (assign block contents s) (s.newTask :: tasks) :=
      publish_queued ht hesp hassigned hnext hp
    apply create_phase hq
    rw [assign, hp]

end Assignments

section Runs

variable {s s' : State} {e : Event} {entries : List ℕ} {sched : Scheduler} {h : List (State × Event)}

theorem step_phase (hs : Phase s) (he : ∀ esp, e = .tick esp → s.point.window = false)
    (hstep : step s e = some s') : Phase s' := by
  cases e with
  | assign block contents =>
    simp only [step, Option.ite_none_right_eq_some, Option.some.injEq] at hstep
    obtain ⟨⟨-, hnull, hfresh⟩, rfl⟩ := hstep
    exact assign_phase hs hnull hfresh
  | tick esp =>
    simp only [step, Option.some.injEq] at hstep
    subst hstep
    exact tick_phase hs (he esp rfl) esp

theorem run_phase (hr : Run entries sched h s)
    (hticks : ∀ p ∈ h, ∀ esp, p.2 = .tick esp → p.1.point.window = false) : Phase s := by
  induction hr with
  | start => exact ⟨rfl, rfl⟩
  | step _ hstep ih =>
    rw [List.forall_mem_cons] at hticks
    exact step_phase (ih hticks.2) hticks.1 hstep

theorem Published.built {tasks : List ℕ} (hp : Published s tasks) : Built s := by
  intro _
  have hnext := hp.next _ hp.current
  exact ⟨hp.assigned _ hp.current, hp.assigned _ hnext, hp.esp _ hnext⟩

theorem built_iff_of_window (hs : s.sched.currentTask = s.bootTask ∧ s.bootTask ≠ 0 ∧
    s.bootTask ∈ s.allocated ∧ s.nextAssigned s.bootTask = false) (hw : s.point.window = true) :
    Built s ↔ s.point.window = false := by
  obtain ⟨hcur, hnull, -, hnext⟩ := hs
  apply iff_of_false
  · intro hb
    have hassigned := (hb (hcur ▸ hnull)).1
    rw [hcur, hnext] at hassigned
    contradiction
  · rw [hw]
    exact nofun

theorem built_iff (hs : Phase s) : Built s ↔ s.point.window = false := by
  unfold Phase at hs
  split at hs
  case h_1 hp => exact iff_of_true (fun hne ↦ absurd hs.1 hne) (by rw [hp]; rfl)
  case h_2 hp => exact built_iff_of_window hs (by rw [hp]; rfl)
  case h_3 hp => exact built_iff_of_window hs (by rw [hp]; rfl)
  case h_4 hp => exact built_iff_of_window hs (by rw [hp]; rfl)
  case h_5 hp =>
    obtain ⟨tasks, ht⟩ := hs
    exact iff_of_true ht.built (by rw [hp]; rfl)
  case h_13 hp =>
    obtain ⟨tasks, ht, -⟩ := hs
    exact iff_of_true ht.built (by rw [hp]; rfl)
  case h_14 hp =>
    obtain ⟨tasks, ht, -⟩ := hs
    exact iff_of_true ht.built (by rw [hp]; rfl)
  all_goals
    rename_i hp
    obtain ⟨tasks, ht⟩ := hs
    exact iff_of_true ht.built (by rw [hp]; rfl)

/-- A tick meets a task that is not built if and only if it comes while `tasking_init` has
allocated its task and not yet linked it. -/
theorem ticks_built_iff (hr : Run entries sched h s) :
    (∀ p ∈ h, ∀ esp, p.2 = .tick esp → Built p.1) ↔
      ∀ p ∈ h, ∀ esp, p.2 = .tick esp → p.1.point.window = false := by
  induction hr with
  | start => exact iff_of_true nofun nofun
  | step hr hstep ih =>
    rw [List.forall_mem_cons, List.forall_mem_cons, ih]
    apply and_congr_left
    intro hticks
    have hs := run_phase hr hticks
    exact forall₂_congr fun esp _ ↦ built_iff hs

def Event.isTick : Event → Bool
  | .assign _ _ => false
  | .tick _ => true

/-- The boot code makes one task, with ticks before `tasking_init` and behind it, within
`task_create` and at the end. -/
def oneTaskMade : List Event :=
  let go n := List.replicate n (Event.assign 0xD0004000 ⟨0, 0, 0, 0, false⟩)
  let alloc block := Event.assign block ⟨0, 0, 0, 0xDEADBEE0, false⟩
  [.tick 0xC0107F00, alloc 0xD0000010] ++ go 4 ++ [.tick 0xC0107F00, alloc 0xD0000040] ++ go 1 ++
    [.tick 0xC0107EC0, alloc 0xD0000060] ++ go 7 ++ [.tick 0xC0107EC0] ++ go 2 ++ [.tick 0xC0107F00]

/-- The last tick switches to the new task. -/
theorem ticks_built_iff_oneTask : ∃ h s, Run [0xC0100400] noTasks h s ∧
    h.map Prod.snd = oneTaskMade.reverse ∧ (∀ p ∈ h, ∀ esp, p.2 = .tick esp → Built p.1) ∧
    s.bootTask = 0xD0000010 ∧ s.sched.currentTask = 0xD0000040 ∧ s.sched.esp = 0xD0001060 := by
  have hexec : ∃ q ∈ perform step ([], start [0xC0100400] noTasks) oneTaskMade,
      (∀ p ∈ q.1, p.2.isTick = true → p.1.point.window = false) ∧ q.2.bootTask = 0xD0000010 ∧
        q.2.sched.currentTask = 0xD0000040 ∧ q.2.sched.esp = 0xD0001060 := by decide +kernel
  obtain ⟨q, hq, hticks, hvalues⟩ := hexec
  have hr : Run [0xC0100400] noTasks q.1 q.2 := perform_inv .step .start hq
  have hevents := perform_events hq
  rw [List.map_nil, List.append_nil] at hevents
  refine ⟨q.1, q.2, hr, hevents, (ticks_built_iff hr).mpr fun p hp esp he ↦ hticks p hp ?_, hvalues⟩
  rw [he]
  rfl

/-- A tick behind the allocation follows a link that nobody has written. -/
theorem tick_follows_garbage : ∃ h s, Run [0xC0100400] noTasks h s ∧
    ¬ ∀ p ∈ h, ∀ esp, p.2 = .tick esp → Built p.1 := by
  have hr : Run [0xC0100400] noTasks _ _ := .step (e := .tick 0xC0107000)
    (.step (e := .assign 0xD0000010 ⟨0, 0, 0, 0xDEADBEE0, false⟩) .start rfl) rfl
  refine ⟨_, _, hr, fun hticks ↦ ?_⟩
  have hbuilt := hticks _ List.mem_cons_self 0xC0107000 rfl
  exact absurd (hbuilt (by decide)).1 (by decide)

end Runs

end KevOS.Tasking.Boot
