import KevOS.Lib.I386

namespace KevOS.Tasking.Switch

open Lib.ByteMemory Lib.I386 Function

def switchToCode : List Instr :=
  [.push .ebp, .push .ebx, .push .esi, .push .edi,
    .load 20 .esp .eax, .store .esp .eax,
    .load 24 .esp .esp,
    .pop .edi, .pop .esi, .pop .ebx, .pop .ebp, .ret]

/-- What a task finds again when `switch_to` comes back to it. -/
structure Context where
  esp : UInt32
  ebp : UInt32
  ebx : UInt32
  esi : UInt32
  edi : UInt32
  eip : UInt32
  deriving DecidableEq, Repr

def context (c : Cpu) : Context := ⟨c.esp, c.ebp, c.ebx, c.esi, c.edi, c.eip⟩

/-- The processor with the arguments of `switch_to(old_esp, new_esp)` on the stack. -/
def arguments (oldEsp newEsp : UInt32) (c : Cpu) : Cpu := (c.push newEsp).push oldEsp

/-- `call switch_to`, where `ret` is the address of the next instruction of the caller. -/
def switchTo (oldEsp newEsp ret : UInt32) (c : Cpu) : Cpu :=
  switchToCode.foldl exec ((arguments oldEsp newEsp c).push ret)

/-- The processor, the variables of the scheduler and the stack of the TSS. A `task_t` lies
in memory: `esp`, `kstack_bottom`, `id`, `next` and `running`, in this order. -/
structure Sys where
  cpu : Cpu
  currentTask : UInt32
  readyQueue : UInt32
  nextTid : UInt32
  esp0 : UInt32

def Sys.store (s : Sys) (a v : UInt32) : Sys := { s with cpu := { s.cpu with mem := write s.cpu.mem a v } }

def Sys.load (s : Sys) (a : UInt32) : UInt32 := read s.cpu.mem a

def espField (p : UInt32) : UInt32 := p

def kstackBottomField (p : UInt32) : UInt32 := p + 4

def idField (p : UInt32) : UInt32 := p + 8

def nextField (p : UInt32) : UInt32 := p + 12

def runningField (p : UInt32) : UInt32 := p + 16

/-- `block` is what `kmalloc(sizeof(task_t))` returned. -/
def taskingInit (block : UInt32) (s : Sys) : Sys :=
  let s := { s with currentTask := block }
  let s := { s.store (idField block) s.nextTid with nextTid := s.nextTid + 1 }
  let s := { s with cpu := { s.cpu with mem := update s.cpu.mem (runningField block).toNat 1 } }
  let s := s.store (nextField block) block
  { s with readyQueue := block }

/-- `block` and `stackMem` are what the two calls of `kmalloc` returned. -/
def taskCreate (entry block stackMem : UInt32) (s : Sys) : Sys :=
  let s := { s.store (idField block) s.nextTid with nextTid := s.nextTid + 1 }
  let s := s.store (kstackBottomField block) stackMem
  let stack := stackMem + 4096
  let stack := stack - 4
  let s := s.store stack entry
  let stack := stack - 4
  let s := s.store stack 0
  let stack := stack - 4
  let s := s.store stack 0
  let stack := stack - 4
  let s := s.store stack 0
  let stack := stack - 4
  let s := s.store stack 0
  let s := s.store (espField block) stack
  let s := s.store (nextField block) (s.load (nextField s.readyQueue))
  s.store (nextField s.readyQueue) block

/-- `ret` is the return address of the call of `switch_to`. -/
def schedule (ret : UInt32) (s : Sys) : Sys :=
  if s.currentTask = 0 then s
  else
    let oldTask := s.currentTask
    let newTask := s.load (nextField s.currentTask)
    if oldTask = newTask then s
    else
      let s := { s with currentTask := newTask }
      let s := { s with esp0 := s.load (kstackBottomField newTask) + 4096 }
      { s with cpu := switchTo (espField oldTask) (s.load (espField newTask)) ret s.cpu }

structure Task where
  block : UInt32
  lo : ℕ
  hi : ℕ

/-- Neither the `task_t` nor the stack of two tasks overlap. -/
def Task.Apart (t u : Task) : Prop :=
  (t.block.toNat + 20 ≤ u.block.toNat ∨ u.block.toNat + 20 ≤ t.block.toNat) ∧
    (t.hi ≤ u.lo ∨ u.hi ≤ t.lo)

/-- What `kmalloc` returned for the tasks, and the stack of the boot code, do not overlap. -/
structure Separate (tasks : List Task) : Prop where
  nonnull : ∀ t ∈ tasks, t.block ≠ 0
  fits : ∀ t ∈ tasks, t.block.toNat + 20 ≤ 4294967296 ∧ t.lo ≤ t.hi ∧ t.hi < 4294967296
  apart : ∀ t ∈ tasks, ∀ u ∈ tasks, t.block.toNat + 20 ≤ u.lo ∨ u.hi ≤ t.block.toNat
  pairwise : tasks.Pairwise Task.Apart

/-- The running task writes neither a `task_t` nor the stack of another task. -/
structure OwnWrites (tasks : List Task) (current : UInt32) (m m' : Bytes) : Prop where
  block : ∀ t ∈ tasks, ∀ x, t.block.toNat ≤ x → x < t.block.toNat + 20 → m' x = m x
  stack : ∀ t ∈ tasks, t.block ≠ current → ∀ x, t.lo ≤ x → x < t.hi → m' x = m x

/-- The stack of the running task has room for the call of `switch_to`. -/
def HasRoom (tasks : List Task) (s : Sys) : Prop :=
  ∀ t ∈ tasks, t.block = s.currentTask → t.lo + 28 ≤ s.cpu.esp.toNat ∧ s.cpu.esp.toNat ≤ t.hi

def Sys.callContext (s : Sys) (ret : UInt32) : Context :=
  let newEsp := s.load (espField (s.load (nextField s.currentTask)))
  context { arguments (espField s.currentTask) newEsp s.cpu with eip := ret }

/-- The runs of the scheduler. `parked` records the context in which each task called
`switch_to` last, or that in which it has to begin. -/
inductive Run : List Task → (UInt32 → Context) → Sys → Prop
  | init {s : Sys} {block : UInt32} {lo hi : ℕ} {parked : UInt32 → Context} :
      Separate [⟨block, lo, hi⟩] → Run [⟨block, lo, hi⟩] parked (taskingInit block s)
  | create {tasks : List Task} {parked : UInt32 → Context} {s : Sys} {block stackMem : UInt32}
      (entry : UInt32) : Run tasks parked s →
      Separate (⟨block, stackMem.toNat, stackMem.toNat + 4096⟩ :: tasks) →
      Run (⟨block, stackMem.toNat, stackMem.toNat + 4096⟩ :: tasks)
        (update parked block
          { esp := (taskCreate entry block stackMem s).load (kstackBottomField block) + 4096
            ebp := 0, ebx := 0, esi := 0, edi := 0, eip := entry })
        (taskCreate entry block stackMem s)
  | work {tasks : List Task} {parked : UInt32 → Context} {s : Sys} (cpu : Cpu) :
      Run tasks parked s → OwnWrites tasks s.currentTask s.cpu.mem cpu.mem →
      Run tasks parked { s with cpu }
  | schedule {tasks : List Task} {parked : UInt32 → Context} {s : Sys} (ret : UInt32) :
      Run tasks parked s → HasRoom tasks s →
      Run tasks (update parked s.currentTask (s.callContext ret)) (schedule ret s)

end KevOS.Tasking.Switch
