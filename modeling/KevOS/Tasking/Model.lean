import KevOS.Machine

namespace KevOS.Tasking

open Machine

/-- `task_t`; pointers to it are addresses, and null is 0. -/
structure Tcb where
  esp : ℕ
  kstackBottom : ℕ
  id : ℕ
  next : ℕ
  running : Bool
  deriving DecidableEq, Repr

/-- The task structures and stack words in memory, the variables of the
scheduler, the stack of the TSS, and the stack pointer of the processor. -/
structure Scheduler where
  task : ℕ → Tcb
  word : ℕ → ℕ
  currentTask : ℕ
  readyQueue : ℕ
  nextTid : ℕ
  esp0 : ℕ
  esp : ℕ

def Scheduler.next (s : Scheduler) (p : ℕ) : ℕ := (s.task p).next

def Scheduler.setTask (s : Scheduler) (p : ℕ) (t : Tcb) : Scheduler :=
  { s with task := Function.update s.task p t }

/-- `block` is what `kmalloc(sizeof(task_t))` returned. -/
def taskingInit (block : ℕ) (s : Scheduler) : Scheduler :=
  { s.setTask block { s.task block with id := s.nextTid, running := true, next := block } with
    nextTid := w32 (s.nextTid + 1)
    currentTask := block
    readyQueue := block }

/-- The frame `switch_to` pops: `edi`, `esi`, `ebx`, `ebp` and a return address. -/
def initialFrame (entry top : ℕ) (word : ℕ → ℕ) : ℕ → ℕ :=
  [entry, 0, 0, 0, 0].zipIdx.foldl
    (fun m v ↦ Function.update m (sub32 top (4 * (v.2 + 1))) v.1) word

/-- `block` and `stackMem` are what the two calls of `kmalloc` returned. -/
def taskCreate (entry block stackMem : ℕ) (s : Scheduler) : Scheduler :=
  let top := w32 (stackMem + 4096)
  let s := { s with word := initialFrame entry top s.word }
  let s := s.setTask block
    { s.task block with id := s.nextTid, kstackBottom := stackMem, esp := sub32 top 20 }
  let s := s.setTask block { s.task block with next := s.next s.readyQueue }
  let s := s.setTask s.readyQueue { s.task s.readyQueue with next := block }
  { s with nextTid := w32 (s.nextTid + 1) }

/-- Four registers are pushed before the old stack pointer is stored, and popped,
with the return address, after the new one is loaded. -/
def switchTo (oldTask newEsp : ℕ) (s : Scheduler) : Scheduler :=
  { s.setTask oldTask { s.task oldTask with esp := sub32 s.esp 16 } with
    esp := w32 (newEsp + 20) }

def schedule (s : Scheduler) : Scheduler :=
  if s.currentTask = 0 then s
  else
    let oldTask := s.currentTask
    let newTask := s.next s.currentTask
    if oldTask = newTask then s
    else
      let s := { s with currentTask := newTask }
      let s := { s with esp0 := w32 ((s.task newTask).kstackBottom + 4096) }
      switchTo oldTask (s.task newTask).esp s

inductive Status
  | running
  | ready
  deriving DecidableEq, Repr

/-- What `task_print_list` prints about a task. -/
structure Line where
  id : ℕ
  esp : ℕ
  status : Status
  deriving DecidableEq, Repr

def Scheduler.line (s : Scheduler) (curr : ℕ) : Line where
  id := (s.task curr).id
  esp := (s.task curr).esp
  status := if curr = s.currentTask then .running else .ready

def printLoop (s : Scheduler) (first : ℕ) : ℕ → ℕ → Option (List Line)
  | 0, _ => none
  | fuel + 1, curr =>
    let next := s.next curr
    if next ≠ first then (printLoop s first fuel next).map (s.line curr :: ·)
    else some [s.line curr]

/-- `fuel` bounds the turns of the loop. -/
def taskPrintList (fuel : ℕ) (s : Scheduler) : Option (List Line) :=
  printLoop s s.readyQueue fuel s.readyQueue

end KevOS.Tasking
