import KevOS.Tasking.RoundRobin

namespace KevOS.Tasking.Tss

open Lib.Circular Machine RoundRobin

/-- Of the TSS only `esp0` changes later. -/
def tssInstall (kernelStackPtr : ℕ) (s : Scheduler) : Scheduler := { s with esp0 := kernelStackPtr }

inductive Event
  | create (entry block stackMem : ℕ) (contents : Tcb)
  | schedule (esp : ℕ)
  deriving DecidableEq, Repr

/-- `kmalloc` returned `block`, where a `task_t` has the contents `contents`. -/
def apply : Event → Scheduler → Scheduler
  | .create entry block stackMem contents, s =>
    taskCreate entry block stackMem (s.setTask block contents)
  | .schedule esp, s => schedule { s with esp }

/-- `tss_install` with the stack of the boot code, then `tasking_init`. -/
def boot (stackTop block : ℕ) (contents : Tcb) (s : Scheduler) : Scheduler :=
  taskingInit block ((tssInstall stackTop s).setTask block contents)

/-- The runs of the scheduler, with what was called in which state and the tasks created. The
first task lies at `first`, where `kmalloc` found the contents `contents`. -/
inductive Run (stackTop first : ℕ) (contents : Tcb) :
    List (Scheduler × Event) → List ℕ → Scheduler → Prop
  | boot (s : Scheduler) : first ≠ 0 → Run stackTop first contents [] [first] (boot stackTop first contents s)
  | create {h : List (Scheduler × Event)} {created : List ℕ} {s : Scheduler} {block : ℕ}
      (entry stackMem : ℕ) (fresh : Tcb) : Run stackTop first contents h created s →
      block ≠ 0 → block ∉ created →
      Run stackTop first contents ((s, .create entry block stackMem fresh) :: h) (block :: created)
        (apply (.create entry block stackMem fresh) s)
  | schedule {h : List (Scheduler × Event)} {created : List ℕ} {s : Scheduler} (esp : ℕ) :
      Run stackTop first contents h created s →
      Run stackTop first contents ((s, .schedule esp) :: h) created (apply (.schedule esp) s)

/-- An interrupt in user mode switches to the kernel stack of the running task. -/
def OwnStack (stackTop first : ℕ) (s : Scheduler) : Prop :=
  s.esp0 = if s.currentTask = first then stackTop
    else w32 ((s.task s.currentTask).kstackBottom + 4096)

instance (stackTop first : ℕ) (s : Scheduler) : Decidable (OwnStack stackTop first s) :=
  inferInstanceAs (Decidable (_ = _))

/-- A call of `schedule` that switches back to the first task. -/
def ReturnsTo (first : ℕ) (p : Scheduler × Event) : Prop :=
  (∃ esp, p.2 = .schedule esp) ∧ p.1.currentTask ≠ first ∧ p.1.next p.1.currentTask = first

variable {stackTop first : ℕ} {contents : Tcb} {h : List (Scheduler × Event)} {created : List ℕ}
  {s : Scheduler}

section Calls

variable {p block entry stackMem esp : ℕ} {fresh : Tcb}

theorem setTask_next (hp : p ≠ block) : (s.setTask block fresh).next p = s.next p := by
  simp only [Scheduler.next, Scheduler.setTask, Function.update_of_ne hp]

theorem setTask_linked (hl : Linked created s) (hb : block ∉ created) :
    Linked created (s.setTask block fresh) := by
  obtain ⟨t, hloop, hperm⟩ := hl.loop
  refine ⟨⟨t, hloop.congr fun x hx ↦ setTask_next fun heq ↦ hb ?_, hperm⟩, hl.current, hl.nonnull⟩
  rw [← heq]
  exact hperm.mem_iff.mp hx

theorem create_linked (hl : Linked created s) (hb : block ≠ 0) (hnew : block ∉ created) :
    Linked (block :: created) (apply (.create entry block stackMem fresh) s) :=
  taskCreate_linked (setTask_linked hl hnew) hb hnew

theorem create_kstackBottom (hp : p ≠ block) :
    ((apply (.create entry block stackMem fresh) s).task p).kstackBottom = (s.task p).kstackBottom := by
  simp only [apply, taskCreate, Scheduler.setTask]
  by_cases hready : p = s.readyQueue
  · rw [hready] at hp ⊢
    simp only [Function.update_self, Function.update_of_ne hp]
  · simp only [Function.update_of_ne hready, Function.update_of_ne hp]

theorem create_esp0 : (apply (.create entry block stackMem fresh) s).esp0 = s.esp0 := rfl

theorem create_currentTask :
    (apply (.create entry block stackMem fresh) s).currentTask = s.currentTask := rfl

theorem schedule_kstackBottom :
    ((apply (.schedule esp) s).task p).kstackBottom = (s.task p).kstackBottom := by
  simp only [apply, schedule, switchTo]
  split
  · rfl
  · split
    · rfl
    · simp only [Scheduler.setTask, Function.update_apply]
      split
      · simp [*]
      · rfl

theorem apply_currentTask (hcur : s.currentTask ≠ 0) :
    (apply (.schedule esp) s).currentTask = s.next s.currentTask :=
  schedule_currentTask (s := { s with esp }) hcur

theorem schedule_esp0 (hcur : s.currentTask ≠ 0) (hne : s.currentTask ≠ s.next s.currentTask) :
    (apply (.schedule esp) s).esp0 =
      w32 ((s.task (s.next s.currentTask)).kstackBottom + 4096) := by
  simp only [apply, schedule, if_neg hcur]
  split
  · contradiction
  · rfl

theorem schedule_same (hcur : s.currentTask ≠ 0) (heq : s.currentTask = s.next s.currentTask) :
    apply (.schedule esp) s = { s with esp } := by
  simp only [apply, schedule, if_neg hcur]
  split
  · rfl
  · contradiction

end Calls

structure Inv (first : ℕ) (contents : Tcb) (created : List ℕ) (s : Scheduler) : Prop where
  linked : Linked created s
  first_mem : first ∈ created
  kstackBottom : (s.task first).kstackBottom = contents.kstackBottom

theorem run_inv (hr : Run stackTop first contents h created s) : Inv first contents created s := by
  induction hr with
  | boot s hb =>
    refine ⟨taskingInit_linked hb, .head _, ?_⟩
    simp [boot, taskingInit, Scheduler.setTask]
  | @create h created s block entry stackMem fresh _ hb hnew ih =>
    have hne : first ≠ block := fun heq ↦ hnew (heq ▸ ih.first_mem)
    refine ⟨create_linked ih.linked hb hnew, .tail _ ih.first_mem, ?_⟩
    rw [create_kstackBottom hne]
    exact ih.kstackBottom
  | schedule esp _ ih =>
    refine ⟨schedule_linked ih.linked, ih.first_mem, ?_⟩
    rw [schedule_kstackBottom]
    exact ih.kstackBottom

theorem boot_ownStack : OwnStack stackTop first (boot stackTop first contents s) := by
  simp [OwnStack, boot, taskingInit, tssInstall, Scheduler.setTask]

theorem create_ownStack {block entry stackMem : ℕ} {fresh : Tcb} (hi : Inv first contents created s)
    (hnew : block ∉ created) (ho : OwnStack stackTop first s) :
    OwnStack stackTop first (apply (.create entry block stackMem fresh) s) := by
  have hcur : s.currentTask ≠ block := fun heq ↦ hnew (heq ▸ hi.linked.current)
  rw [OwnStack, create_esp0, create_currentTask, create_kstackBottom hcur]
  exact ho

/-- One switch: the TSS gets the stack of the new task, unless that is the first one, whose
`kstack_bottom` nobody has set. -/
theorem schedule_ownStack_iff {esp : ℕ} (hi : Inv first contents created s)
    (ho : OwnStack stackTop first s) : OwnStack stackTop first (apply (.schedule esp) s) ↔
      w32 (contents.kstackBottom + 4096) = stackTop ∨ ¬ ReturnsTo first (s, .schedule esp) := by
  have hcur : s.currentTask ≠ 0 := fun he ↦ hi.linked.nonnull (he ▸ hi.linked.current)
  by_cases heq : s.currentTask = s.next s.currentTask
  · rw [schedule_same hcur heq]
    refine iff_of_true ho (.inr fun hret ↦ hret.2.1 ?_)
    rw [heq]
    exact hret.2.2
  · rw [OwnStack, schedule_esp0 hcur heq, apply_currentTask hcur]
    by_cases hfirst : s.next s.currentTask = first
    · have hne : s.currentTask ≠ first := fun h ↦ heq (h.trans hfirst.symm)
      rw [if_pos hfirst, hfirst, hi.kstackBottom]
      exact ⟨.inl, fun hc ↦ hc.resolve_right (not_not.mpr ⟨⟨esp, rfl⟩, hne, hfirst⟩)⟩
    · rw [if_neg hfirst, schedule_kstackBottom]
      exact iff_of_true rfl (.inr fun hret ↦ hfirst hret.2.2)

/-- `esp0` is the top of the running task's kernel stack in every state of a run, if and only
if no switch goes back to the first task, or its `task_t` happened to hold the right bottom. -/
theorem run_ownStack_iff (hr : Run stackTop first contents h created s) :
    (∀ c ∈ s :: h.map Prod.fst, OwnStack stackTop first c) ↔
      w32 (contents.kstackBottom + 4096) = stackTop ∨ ∀ p ∈ h, ¬ ReturnsTo first p := by
  induction hr with
  | boot s _ =>
    refine iff_of_true (fun c hc ↦ ?_) (.inr fun p hp ↦ absurd hp List.not_mem_nil)
    rw [List.map_nil, List.mem_singleton] at hc
    rw [hc]
    exact boot_ownStack
  | @create h created s block entry stackMem fresh hr hb hnew ih =>
    have hi := run_inv hr
    have hcreate : ¬ ReturnsTo first (s, .create entry block stackMem fresh) := by
      rintro ⟨⟨esp, hesp⟩, -⟩
      cases hesp
    rw [List.map_cons, List.forall_mem_cons, ih, List.forall_mem_cons]
    constructor
    · rintro ⟨-, hc⟩
      exact hc.imp_right fun hall ↦ ⟨hcreate, hall⟩
    · intro hc
      have hprev := hc.imp_right And.right
      exact ⟨create_ownStack hi hnew (ih.mpr hprev s List.mem_cons_self), hprev⟩
  | @schedule h created s esp hr ih =>
    have hi := run_inv hr
    rw [List.map_cons, List.forall_mem_cons, ih, List.forall_mem_cons]
    constructor
    · rintro ⟨ho, hc⟩
      have hs := (schedule_ownStack_iff hi (ih.mpr hc s List.mem_cons_self)).mp ho
      rcases hs with hs | hs
      · exact .inl hs
      · exact hc.imp_right fun hall ↦ ⟨hs, hall⟩
    · intro hc
      have hprev := hc.imp_right And.right
      have ho := ih.mpr hprev s List.mem_cons_self
      exact ⟨(schedule_ownStack_iff hi ho).mpr (hc.imp_right And.left), hprev⟩

/-- A second task is made, and `schedule` switches to it. -/
theorem run_ownStack_iff_switch : ∃ h s, Run 0xC0108000 0x1000 ⟨0, 0, 0, 0, false⟩ h [0x2000, 0x1000] s ∧
    s.currentTask = 0x2000 ∧ s.esp0 = 0x4000 ∧
    ∀ c ∈ s :: h.map Prod.fst, OwnStack 0xC0108000 0x1000 c := by
  let c : Tcb := ⟨0, 0, 0, 0, false⟩
  let s : Scheduler := ⟨fun _ ↦ c, fun _ ↦ 0, 0, 0, 1, 0, 0⟩
  have h₁ : Run 0xC0108000 0x1000 c [] [0x1000] (boot 0xC0108000 0x1000 c s) :=
    .boot s (by decide)
  have h₂ : Run 0xC0108000 0x1000 c _ [0x2000, 0x1000] _ :=
    .create 0x5000 0x3000 c h₁ (by decide) (by decide)
  have h₃ := Run.schedule 0xC0107F00 h₂
  refine ⟨_, _, h₃, by decide, by decide, (run_ownStack_iff h₃).mpr (.inr ?_)⟩
  simp only [List.forall_mem_cons]
  refine ⟨?_, ?_, nofun⟩
  · rintro ⟨-, -, hfirst⟩
    exact absurd hfirst (by decide)
  · rintro ⟨⟨esp, hesp⟩, -⟩
    cases hesp

/-- A second task is made, and `schedule` switches to it and back. -/
theorem exists_run_not_ownStack :
    ∃ h created s, Run 0xC0108000 0x1000 ⟨0, 0, 0, 0, false⟩ h created s ∧
      ¬ OwnStack 0xC0108000 0x1000 s := by
  let c : Tcb := ⟨0, 0, 0, 0, false⟩
  let s : Scheduler := ⟨fun _ ↦ c, fun _ ↦ 0, 0, 0, 1, 0, 0⟩
  have h₁ : Run 0xC0108000 0x1000 c [] [0x1000] (boot 0xC0108000 0x1000 c s) :=
    .boot s (by decide)
  have h₂ : Run 0xC0108000 0x1000 c _ [0x2000, 0x1000] _ :=
    .create 0x5000 0x3000 c h₁ (by decide) (by decide)
  refine ⟨_, _, _, .schedule 0 (.schedule 0 h₂), ?_⟩
  decide

end KevOS.Tasking.Tss
