import KevOS.Lib.Circular
import KevOS.Tasking.Model
import Mathlib.Data.Fin.Basic

namespace KevOS.Tasking.RoundRobin

open Lib.Circular Machine

/-- The runs of the scheduler, with the tasks created. The running task moves the
stack pointer as it likes. -/
inductive Run : List ℕ → Scheduler → Prop
  | init {s : Scheduler} {block : ℕ} : s.nextTid = 1 → block ≠ 0 →
      Run [block] (taskingInit block s)
  | create {created : List ℕ} {s : Scheduler} {block : ℕ} (entry stackMem : ℕ) :
      Run created s → block ≠ 0 → block ∉ created →
      Run (block :: created) (taskCreate entry block stackMem s)
  | schedule {created : List ℕ} {s : Scheduler} (esp : ℕ) :
      Run created s → Run created (schedule { s with esp })

/-- `k` calls of `schedule` in a row, the `i`-th made at the stack pointer `esps i`. -/
def schedules (esps : ℕ → ℕ) : ℕ → Scheduler → Scheduler
  | 0, s => s
  | k + 1, s => schedule { schedules esps k s with esp := esps k }

/-- The next links lead from the head of the queue through the created tasks. -/
structure Linked (created : List ℕ) (s : Scheduler) : Prop where
  loop : ∃ t, Loop s.next s.readyQueue t ∧ (s.readyQueue :: t).Perm created
  current : s.currentTask ∈ created
  nonnull : 0 ∉ created

variable {created : List ℕ} {s : Scheduler} {block p : ℕ} {entry stackMem : ℕ}

theorem taskingInit_linked (hb : block ≠ 0) : Linked [block] (taskingInit block s) where
  loop := by
    refine ⟨[], .self ?_, .refl _⟩
    simp [taskingInit, Scheduler.next, Scheduler.setTask]
  current := by simp [taskingInit]
  nonnull := by simpa using hb.symm

theorem taskCreate_next (h : block ≠ s.readyQueue) :
    (taskCreate entry block stackMem s).next =
      Function.update (Function.update s.next block (s.next s.readyQueue)) s.readyQueue block := by
  funext q
  simp only [taskCreate, Scheduler.next, Scheduler.setTask, Function.update_apply]
  by_cases hq : q = s.readyQueue
  · simp [hq]
  · by_cases hqb : q = block
    · simp [hqb, h, h.symm]
    · simp [hq, hqb]

theorem taskCreate_linked (h : Linked created s) (hb : block ≠ 0) (hnew : block ∉ created) :
    Linked (block :: created) (taskCreate entry block stackMem s) := by
  obtain ⟨t, hloop, hperm⟩ := h.loop
  have hfresh : block ∉ s.readyQueue :: t := by rwa [hperm.mem_iff]
  have hne : block ≠ s.readyQueue := fun he ↦ hfresh (he ▸ .head _)
  refine ⟨⟨block :: t, ?_, ?_⟩, ?_, ?_⟩
  · rw [taskCreate_next hne]
    apply hloop.insert hfresh
    · exact Function.update_self ..
    · rw [Function.update_of_ne hne, Function.update_self]
    · intro x hx
      have hxr : x ≠ s.readyQueue := fun he ↦ (List.nodup_cons.mp hloop.nodup).1 (he ▸ hx)
      have hxb : x ≠ block := fun he ↦ hfresh (he ▸ .tail _ hx)
      rw [Function.update_of_ne hxr, Function.update_of_ne hxb]
  · exact (List.Perm.swap block s.readyQueue t).trans (hperm.cons block)
  · exact .tail _ h.current
  · intro h0
    cases h0 with
    | head => exact hb rfl
    | tail _ h0 => exact h.nonnull h0

theorem schedule_next : (schedule s).next = s.next := by
  funext q
  simp only [schedule, switchTo]
  split
  · rfl
  · split
    · rfl
    · simp only [Scheduler.next, Scheduler.setTask, Function.update_apply]
      split
      · simp [*]
      · rfl

theorem schedule_readyQueue : (schedule s).readyQueue = s.readyQueue := by
  simp only [schedule, switchTo, Scheduler.setTask]
  split
  · rfl
  · split <;> rfl

theorem schedule_currentTask (h : s.currentTask ≠ 0) :
    (schedule s).currentTask = s.next s.currentTask := by
  simp only [schedule, if_neg h]
  split
  · assumption
  · rfl

theorem schedule_linked {esp : ℕ} (h : Linked created s) :
    Linked created (schedule { s with esp }) := by
  obtain ⟨t, hloop, hperm⟩ := h.loop
  have hcur : s.currentTask ≠ 0 := fun he ↦ h.nonnull (he ▸ h.current)
  have hnext : (schedule { s with esp }).currentTask = s.next s.currentTask :=
    schedule_currentTask hcur
  refine ⟨⟨t, ?_, ?_⟩, ?_, h.nonnull⟩
  · rw [schedule_next, schedule_readyQueue]
    exact hloop
  · rw [schedule_readyQueue]
    exact hperm
  · rw [hnext]
    have hmem := h.current
    rw [← hperm.mem_iff] at hmem ⊢
    exact hloop.next_mem hmem

theorem run_linked (hr : Run created s) : Linked created s := by
  induction hr with
  | init _ hb => exact taskingInit_linked hb
  | create entry stackMem _ hb hnew ih => exact taskCreate_linked ih hb hnew
  | schedule esp _ ih => exact schedule_linked ih

/-- The loop of `task_print_list` comes by the rest of the ring. -/
theorem printLoop_eq {first : ℕ} {t : List ℕ} {fuel : ℕ} (hfuel : t.length + 1 ≤ fuel)
    (hc : List.IsChain (fun x y ↦ s.next x = y) (p :: t ++ [first])) (hf : first ∉ t) :
    printLoop s first fuel p = some ((p :: t).map s.line) := by
  induction t generalizing p fuel with
  | nil =>
    obtain ⟨fuel, rfl⟩ := Nat.exists_eq_add_of_le' hfuel
    have hp : s.next p = first := by simpa using hc
    simp [printLoop, hp]
  | cons q t ih =>
    obtain ⟨fuel, rfl⟩ := Nat.exists_eq_add_of_le' (Nat.le_of_add_left_le hfuel : 1 ≤ fuel)
    simp only [List.cons_append, List.isChain_cons_cons] at hc
    rw [List.mem_cons, not_or] at hf
    have hq : q ≠ first := Ne.symm hf.1
    have hlen : t.length + 1 ≤ fuel := by simpa using hfuel
    simp only [printLoop, hc.1, if_pos hq, ih hlen hc.2 hf.2, Option.map_some, List.map_cons]

theorem schedules_linked (h : Linked created s) (esps : ℕ → ℕ) (k : ℕ) :
    Linked created (schedules esps k s) ∧ (schedules esps k s).next = s.next := by
  induction k with
  | zero => exact ⟨h, rfl⟩
  | succ k ih =>
    refine ⟨schedule_linked ih.1, ?_⟩
    rw [schedules, schedule_next]
    exact ih.2

theorem schedules_currentTask (h : Linked created s) (esps : ℕ → ℕ) (k : ℕ) :
    (schedules esps k s).currentTask = s.next^[k] s.currentTask := by
  induction k with
  | zero => rfl
  | succ k ih =>
    obtain ⟨hk, hnext⟩ := schedules_linked h esps k
    have hcur : (schedules esps k s).currentTask ≠ 0 := fun he ↦ hk.nonnull (he ▸ hk.current)
    calc (schedules esps (k + 1) s).currentTask
        = (schedules esps k s).next (schedules esps k s).currentTask := schedule_currentTask hcur
      _ = s.next (s.next^[k] s.currentTask) := by rw [hnext, ih]
      _ = s.next^[k + 1] s.currentTask := (Function.iterate_succ_apply' ..).symm

/-- The `i`-th task runs, counted along the links from the head of the queue. -/
def Runs {n : ℕ} (s : Scheduler) (i : Fin n) : Prop :=
  s.currentTask = s.next^[(i : ℕ)] s.readyQueue

/-- `schedule` hands the processor on along the ring. -/
theorem schedule_runs {n : ℕ} [NeZero n] {i : Fin n} (h : Linked created s)
    (hlen : created.length = n) (hi : Runs s i) (esp : ℕ) :
    Runs (schedule { s with esp }) (i + 1) := by
  obtain ⟨t, hloop, hperm⟩ := h.loop
  have hperiod : s.next^[n] s.readyQueue = s.readyQueue := by
    rw [← hlen, ← hperm.length_eq, List.length_cons]
    exact hloop.period
  have hcur : s.currentTask ≠ 0 := fun he ↦ h.nonnull (he ▸ h.current)
  have hstep : (schedule { s with esp }).currentTask = s.next^[(i : ℕ) + 1] s.readyQueue := by
    rw [Function.iterate_succ_apply', ← hi]
    exact schedule_currentTask hcur
  have hval : ((i + 1 : Fin n) : ℕ) = ((i : ℕ) + 1) % n := by
    rw [Fin.val_add, Fin.val_one', Nat.add_mod_mod]
  rw [Runs, schedule_next, schedule_readyQueue, hstep, hval]
  by_cases hlt : (i : ℕ) + 1 < n
  · rw [Nat.mod_eq_of_lt hlt]
    rfl
  · have hlast : (i : ℕ) + 1 = n := le_antisymm i.isLt (not_lt.mp hlt)
    rw [hlast, Nat.mod_self]
    exact hperiod

theorem countP_running {l : List ℕ} (hl : l.Nodup) (hc : s.currentTask ∈ l) :
    (l.map s.line).countP (fun line ↦ line.status = .running) = 1 := by
  have hline : ∀ p, (s.line p).status = .running ↔ p = s.currentTask := by
    intro p
    simp only [Scheduler.line]
    split
    case isTrue h => exact iff_of_true rfl h
    case isFalse h => exact iff_of_false nofun h
  have hcount := List.count_eq_one_of_mem hl hc
  simp only [List.countP_map, Function.comp_def, hline]
  exact hcount

/-- The tasks stand in one ring through the head of the queue, `task_print_list`
comes by each of them once, and so do as many calls of `schedule` as there are tasks. -/
theorem run_roundRobin (hr : Run created s) :
    let ring := List.iterate s.next s.readyQueue created.length
    created.Nodup ∧ ring.Perm created ∧ s.next^[created.length] s.readyQueue = s.readyQueue ∧
    s.currentTask ∈ ring ∧
    (∀ fuel, created.length ≤ fuel → taskPrintList fuel s = some (ring.map s.line)) ∧
    (ring.map s.line).countP (fun line ↦ line.status = .running) = 1 ∧
    ∀ esps : ℕ → ℕ, ∀ task ∈ created,
      ∃! k, k < created.length ∧ (schedules esps (k + 1) s).currentTask = task := by
  have h := run_linked hr
  obtain ⟨t, hloop, hperm⟩ := h.loop
  have hlen : t.length + 1 = created.length := hperm.length_eq
  have hring : List.iterate s.next s.readyQueue created.length = s.readyQueue :: t := by
    rw [← hlen, hloop.iterate]
  have hcur := hperm.mem_iff.mpr h.current
  intro ring
  have hr : ring = s.readyQueue :: t := hring
  rw [hr]
  refine ⟨hperm.nodup_iff.mp hloop.nodup, hperm, ?_, hcur, ?_, ?_, ?_⟩
  · rw [← hlen]
    exact hloop.period
  · intro fuel hfuel
    exact printLoop_eq (hlen ▸ hfuel) hloop.chain (List.nodup_cons.mp hloop.nodup).1
  · exact countP_running hloop.nodup hcur
  · intro esps task htask
    rw [← hlen]
    simp only [schedules_currentTask h, Function.iterate_succ_apply]
    exact hloop.existsUnique_iterate (hloop.next_mem hcur) (hperm.mem_iff.mpr htask)

def noTasks : Scheduler where
  task _ := ⟨0, 0, 0, 0, false⟩
  word _ := 0
  currentTask := 0
  readyQueue := 0
  nextTid := 1
  esp0 := 0
  esp := 0xC0108000

/-- The shell, and the task that goes to user mode. -/
def twoTasks : Scheduler :=
  taskCreate 0xC0100400 0xD0000030 0xD0000060 (taskingInit 0xD0000010 noTasks)

theorem run_roundRobin_twoTasks : ∃ l, taskPrintList 2 twoTasks = some l ∧
    l.countP (fun line ↦ line.status = .running) = 1 :=
  have hboot : Run [0xD0000010] (taskingInit 0xD0000010 noTasks) := .init rfl (by decide)
  have hrun : Run [0xD0000030, 0xD0000010] twoTasks :=
    .create 0xC0100400 0xD0000060 hboot (by decide) (by decide)
  have hring := run_roundRobin hrun
  ⟨_, hring.2.2.2.2.1 2 le_rfl, hring.2.2.2.2.2.1⟩

end KevOS.Tasking.RoundRobin
