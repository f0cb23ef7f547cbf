import KevOS.Tasking.Switch
import Mathlib.Data.List.Pairwise

namespace KevOS.Tasking.Switch

open Lib.ByteMemory Lib.I386 Function

section SwitchTo

variable {oldEsp newEsp ret : UInt32} {c : Cpu}

/-- The processor when `switch_to` has pushed its registers. -/
def savedRegisters (oldEsp newEsp ret : UInt32) (c : Cpu) : Cpu :=
  c.pushAll [newEsp, oldEsp, ret, c.ebp, c.ebx, c.esi, c.edi]

/-- What `switch_to` does to memory: it writes below the stack pointer, and stores the
stack pointer it arrives at. -/
structure Saved (oldEsp newEsp ret : UInt32) (c : Cpu) (m : Bytes) : Prop where
  frame : ∀ x, x < c.esp.toNat - 28 ∨ c.esp.toNat ≤ x →
    x < oldEsp.toNat ∨ oldEsp.toNat + 4 ≤ x → m x = c.mem x
  esp : read m oldEsp = c.esp - 28
  stacked : Stacked m (c.esp - 28) [c.edi, c.esi, c.ebx, c.ebp, ret, oldEsp, newEsp]

/-- `old_esp` lies apart from the seven words. -/
structure Callable (oldEsp : UInt32) (c : Cpu) : Prop where
  room : 28 ≤ c.esp.toNat
  apart : oldEsp.toNat + 4 ≤ c.esp.toNat - 28 ∨ c.esp.toNat ≤ oldEsp.toNat

theorem savedRegisters_esp (h : 28 ≤ c.esp.toNat) :
    (savedRegisters oldEsp newEsp ret c).esp = c.esp - 28 := by
  have hlen : 4 * [newEsp, oldEsp, ret, c.ebp, c.ebx, c.esi, c.edi].length ≤ c.esp.toNat := h
  apply UInt32.toNat_inj.mp
  rw [savedRegisters, pushAll_esp hlen]
  exact (toNat_sub (d := 28) h).symm

theorem savedRegisters_stacked (h : 28 ≤ c.esp.toNat) :
    Stacked (savedRegisters oldEsp newEsp ret c).mem (c.esp - 28)
      [c.edi, c.esi, c.ebx, c.ebp, ret, oldEsp, newEsp] := by
  have hstack : Stacked (savedRegisters oldEsp newEsp ret c).mem (savedRegisters oldEsp newEsp ret c).esp
      ([newEsp, oldEsp, ret, c.ebp, c.ebx, c.esi, c.edi].reverse ++ []) :=
    pushAll_stacked h c.esp.toNat_lt trivial
  rwa [savedRegisters_esp h] at hstack

def savedMem (oldEsp newEsp ret : UInt32) (c : Cpu) : Bytes :=
  write (savedRegisters oldEsp newEsp ret c).mem oldEsp (c.esp - 28)

theorem savedMem_saved (h : Callable oldEsp c) :
    Saved oldEsp newEsp ret c (savedMem oldEsp newEsp ret c) where
  frame x hx hx' := by
    rw [savedMem, write_of_ne hx']
    exact pushAll_mem_of_ne h.room hx
  esp := read_write_self ..
  stacked := by
    have hroom := h.room
    have hapart := h.apart
    have hesp : (c.esp - 28).toNat = c.esp.toNat - 28 := toNat_sub (d := 28) hroom
    refine (savedRegisters_stacked hroom).congr (fun x hx hx' ↦ write_of_ne ?_) ?_
    · simp only [List.length_cons, List.length_nil] at hx'
      omega
    · have hlt := c.esp.toNat_lt
      simp only [List.length_cons, List.length_nil]
      omega

/-- What `switch_to` pops, from the stack pointer `n` on. -/
def popped (m : Bytes) (n : UInt32) : Context where
  edi := read m n
  esi := read m (n + 4)
  ebx := read m (n + 4 + 4)
  ebp := read m (n + 4 + 4 + 4)
  eip := read m (n + 4 + 4 + 4 + 4)
  esp := n + 4 + 4 + 4 + 4 + 4

/-- The instructions of `switch_to` behind the four pushes. -/
def restoreCode : List Instr :=
  [.load 20 .esp .eax, .store .esp .eax, .load 24 .esp .esp,
    .pop .edi, .pop .esi, .pop .ebx, .pop .ebp, .ret]

theorem switchTo_saved : switchTo oldEsp newEsp ret c =
    restoreCode.foldl exec (savedRegisters oldEsp newEsp ret c) := by
  have hsplit : switchToCode = [.push .ebp, .push .ebx, .push .esi, .push .edi] ++ restoreCode := rfl
  have hregs (c : Cpu) : [Instr.push .ebp, .push .ebx, .push .esi, .push .edi].foldl exec c =
      (((c.push (c.get .ebp)).push (c.get .ebx)).push (c.get .esi)).push (c.get .edi) := by
    simp only [List.foldl_cons, List.foldl_nil, exec, ne_eq, reduceCtorEq, not_false_eq_true, get_push]
  rw [switchTo, hsplit, List.foldl_append, hregs, arguments]
  simp only [ne_eq, reduceCtorEq, not_false_eq_true, get_push]
  rfl

theorem restoreCode_eq (hold : read c.mem (c.esp + 20) = oldEsp)
    (hnew : read (write c.mem oldEsp c.esp) (c.esp + 24) = newEsp) :
    context (restoreCode.foldl exec c) = popped (write c.mem oldEsp c.esp) newEsp ∧
      (restoreCode.foldl exec c).mem = write c.mem oldEsp c.esp := by
  subst hold hnew
  exact ⟨rfl, rfl⟩

/-- The second half of `switch_to` finds its arguments above the saved registers. -/
theorem switchTo_eq (h : Callable oldEsp c) :
    context (switchTo oldEsp newEsp ret c) = popped (savedMem oldEsp newEsp ret c) newEsp ∧
      (switchTo oldEsp newEsp ret c).mem = savedMem oldEsp newEsp ret c := by
  have hesp : (savedRegisters oldEsp newEsp ret c).esp = c.esp - 28 := savedRegisters_esp h.room
  have h20 (a : UInt32) : a + 4 + 4 + 4 + 4 + 4 = a + 20 := by
    simp only [UInt32.add_assoc]
    rfl
  have h24 (a : UInt32) : a + 4 + 4 + 4 + 4 + 4 + 4 = a + 24 := by
    simp only [UInt32.add_assoc]
    rfl
  have hstack : Stacked (savedRegisters oldEsp newEsp ret c).mem (c.esp - 28)
      [c.edi, c.esi, c.ebx, c.ebp, ret, oldEsp, newEsp] := savedRegisters_stacked h.room
  have hstack' : Stacked (savedMem oldEsp newEsp ret c) (c.esp - 28)
      [c.edi, c.esi, c.ebx, c.ebp, ret, oldEsp, newEsp] := (savedMem_saved h).stacked
  obtain ⟨-, -, -, -, -, hold, -⟩ := hstack
  obtain ⟨-, -, -, -, -, -, hnew, -⟩ := hstack'
  rw [h20, ← hesp] at hold
  rw [h24, savedMem, ← hesp] at hnew
  have hrest := restoreCode_eq hold hnew
  rw [switchTo_saved, savedMem, ← hesp]
  exact hrest

end SwitchTo

section Waiting

variable {m m' : Bytes} {t u : Task} {d : Context} {tasks : List Task}

/-- Below the stored stack pointer of `t` lies the context `d`. -/
structure Waiting (m : Bytes) (t : Task) (d : Context) : Prop where
  lo : t.lo ≤ (read m t.block).toNat
  hi : (read m t.block).toNat + 20 ≤ t.hi
  stacked : Stacked m (read m t.block) [d.edi, d.esi, d.ebx, d.ebp, d.eip]
  esp : d.esp = read m t.block + 20

theorem Waiting.congr (h : Waiting m t d) (hfit : t.hi < 4294967296)
    (hblock : ∀ x, t.block.toNat ≤ x → x < t.block.toNat + 4 → m' x = m x)
    (hstack : ∀ x, t.lo ≤ x → x < t.hi → m' x = m x) : Waiting m' t d := by
  have hlo := h.lo
  have hhi := h.hi
  have hread : read m' t.block = read m t.block := read_congr hblock
  refine ⟨hread ▸ hlo, hread ▸ hhi, ?_, hread ▸ h.esp⟩
  rw [hread]
  apply h.stacked.congr
  · intro x hx hx'
    simp only [List.length_cons, List.length_nil] at hx'
    exact hstack x (by omega) (by omega)
  · simp only [List.length_cons, List.length_nil]
    omega

theorem Waiting.popped (h : Waiting m t d) : popped m (read m t.block) = d := by
  obtain ⟨hedi, hesi, hebx, hebp, heip, -⟩ := h.stacked
  have hesp : read m t.block + 4 + 4 + 4 + 4 + 4 = d.esp := by
    rw [h.esp]
    simp only [UInt32.add_assoc]
    rfl
  rw [Switch.popped, hedi, hesi, hebx, hebp, heip, hesp]

instance : Std.Symm Task.Apart := ⟨fun _ _ h ↦ ⟨h.1.symm, h.2.symm⟩⟩

theorem Separate.eq_or_apart (h : Separate tasks) (ht : t ∈ tasks) (hu : u ∈ tasks) :
    t = u ∨ t.Apart u := by
  by_cases heq : t = u
  · exact .inl heq
  · exact .inr (h.pairwise.forall ht hu heq)

theorem nextField_toNat {p : UInt32} (h : p.toNat + 20 ≤ 4294967296) :
    (nextField p).toNat = p.toNat + 12 := toNat_add (d := 12) (by simp; omega)

structure Inv (tasks : List Task) (parked : UInt32 → Context) (s : Sys) : Prop where
  separate : Separate tasks
  current : ∃ t ∈ tasks, t.block = s.currentTask
  ready : ∃ t ∈ tasks, t.block = s.readyQueue
  next : ∀ t ∈ tasks, ∃ u ∈ tasks, s.load (nextField t.block) = u.block
  waiting : ∀ t ∈ tasks, t.block ≠ s.currentTask → Waiting s.cpu.mem t (parked t.block)

end Waiting

section Steps

variable {tasks : List Task} {parked : UInt32 → Context} {s : Sys} {block stackMem entry ret : UInt32}
  {lo hi : ℕ}

theorem taskingInit_inv (hsep : Separate [⟨block, lo, hi⟩]) :
    Inv [⟨block, lo, hi⟩] parked (taskingInit block s) where
  separate := hsep
  current := ⟨_, List.mem_singleton_self _, rfl⟩
  ready := ⟨_, List.mem_singleton_self _, rfl⟩
  next t ht := by
    rw [List.mem_singleton] at ht
    subst ht
    exact ⟨_, List.mem_singleton_self _, read_write_self ..⟩
  waiting t ht hne := by
    rw [List.mem_singleton] at ht
    subst ht
    exact absurd rfl hne

theorem Inv.work (h : Inv tasks parked s) {c : Cpu}
    (hown : OwnWrites tasks s.currentTask s.cpu.mem c.mem) :
    Inv tasks parked { s with cpu := c } where
  separate := h.separate
  current := h.current
  ready := h.ready
  next t ht := by
    obtain ⟨u, hu, hnext⟩ := h.next t ht
    have hfit := (h.separate.fits t ht).1
    have hfield := nextField_toNat hfit
    refine ⟨u, hu, Eq.trans ?_ hnext⟩
    exact read_congr fun x hx hx' ↦ hown.block t ht x (by omega) (by omega)
  waiting t ht hne :=
    (h.waiting t ht hne).congr (h.separate.fits t ht).2.2
      (fun x hx hx' ↦ hown.block t ht x hx (by omega)) (hown.stack t ht hne)

/-- The memory of `task_create`, when the structure has its number and its stack. -/
def headerMem (block stackMem : UInt32) (s : Sys) : Bytes :=
  write (write s.cpu.mem (idField block) s.nextTid) (kstackBottomField block) stackMem

def stackTop (block stackMem : UInt32) (s : Sys) : Cpu :=
  { s.cpu with esp := stackMem + 4096, mem := headerMem block stackMem s }

/-- The first frame is written as if it was pushed. -/
def firstFrame (entry block stackMem : UInt32) (s : Sys) : Cpu :=
  (stackTop block stackMem s).pushAll [entry, 0, 0, 0, 0]

/-- The memory of `task_create`, when the structure has its stack pointer. -/
def frameMem (entry block stackMem : UInt32) (s : Sys) : Bytes :=
  write (firstFrame entry block stackMem s).mem (espField block) (firstFrame entry block stackMem s).esp

theorem taskCreate_mem : (taskCreate entry block stackMem s).cpu.mem =
    write (write (frameMem entry block stackMem s) (nextField block)
      (read (frameMem entry block stackMem s) (nextField s.readyQueue)))
      (nextField s.readyQueue) block := by
  simp only [taskCreate, Sys.store, Sys.load, frameMem, firstFrame, stackTop, headerMem, Cpu.pushAll,
    List.foldl_cons, List.foldl_nil, Cpu.push]

theorem taskCreate_currentTask : (taskCreate entry block stackMem s).currentTask = s.currentTask := by
  simp only [taskCreate, Sys.store]

theorem taskCreate_readyQueue : (taskCreate entry block stackMem s).readyQueue = s.readyQueue := by
  simp only [taskCreate, Sys.store]

theorem taskCreate_esp : (taskCreate entry block stackMem s).cpu.esp = s.cpu.esp := by
  simp only [taskCreate, Sys.store]

/-- The blocks of a new task lie apart from each other and from the head of the queue. -/
structure Fresh (block stackMem : UInt32) (s : Sys) : Prop where
  blockFits : block.toNat + 20 ≤ 4294967296
  stackFits : stackMem.toNat + 4096 < 4294967296
  apart : block.toNat + 20 ≤ stackMem.toNat ∨ stackMem.toNat + 4096 ≤ block.toNat
  readyFits : s.readyQueue.toNat + 20 ≤ 4294967296
  readyBlock : block.toNat + 20 ≤ s.readyQueue.toNat ∨ s.readyQueue.toNat + 20 ≤ block.toNat
  readyStack : s.readyQueue.toNat + 20 ≤ stackMem.toNat ∨
    stackMem.toNat + 4096 ≤ s.readyQueue.toNat

section Create

variable (h : Fresh block stackMem s)

include h

theorem stackTop_esp : (stackTop block stackMem s).esp.toNat = stackMem.toNat + 4096 :=
  toNat_add (d := 4096) h.stackFits

theorem firstFrame_room :
    4 * [entry, 0, 0, 0, 0].length ≤ (stackTop block stackMem s).esp.toNat := by
  rw [stackTop_esp h]
  simp only [List.length_cons, List.length_nil]
  omega

theorem firstFrame_esp : (firstFrame entry block stackMem s).esp.toNat = stackMem.toNat + 4076 := by
  rw [firstFrame, pushAll_esp (firstFrame_room h), stackTop_esp h]
  simp only [List.length_cons, List.length_nil]
  omega

theorem firstFrame_stacked : Stacked (firstFrame entry block stackMem s).mem
    (firstFrame entry block stackMem s).esp [0, 0, 0, 0, entry] := by
  have hstack : Stacked (firstFrame entry block stackMem s).mem (firstFrame entry block stackMem s).esp
      ([entry, 0, 0, 0, 0].reverse ++ []) := by
    apply pushAll_stacked (firstFrame_room h)
    · have hlt := (stackTop block stackMem s).esp.toNat_lt
      rw [List.length_nil]
      omega
    · trivial
  exact hstack

theorem firstFrame_mem_of_ne {x : ℕ} (hx : x < stackMem.toNat ∨ stackMem.toNat + 4096 ≤ x) :
    (firstFrame entry block stackMem s).mem x = headerMem block stackMem s x := by
  rw [firstFrame, pushAll_mem_of_ne (firstFrame_room h)]
  · rfl
  · rw [stackTop_esp h]
    simp only [List.length_cons, List.length_nil]
    omega

theorem frameMem_of_ne {x : ℕ} (hblock : x < block.toNat ∨ block.toNat + 20 ≤ x)
    (hstack : x < stackMem.toNat ∨ stackMem.toNat + 4096 ≤ x) :
    frameMem entry block stackMem s x = s.cpu.mem x := by
  have hb := h.blockFits
  have hid : (idField block).toNat = block.toNat + 8 := toNat_add (d := 8) (by simp; omega)
  have hkstack : (kstackBottomField block).toNat = block.toNat + 4 := toNat_add (d := 4) (by simp; omega)
  have hesp : (espField block).toNat = block.toNat := rfl
  rw [frameMem, write_of_ne (by omega), firstFrame_mem_of_ne h hstack, headerMem,
    write_of_ne (by omega), write_of_ne (by omega)]

/-- Outside of what it allocated, `task_create` writes one link. -/
theorem taskCreate_mem_of_ne {x : ℕ} (hblock : x < block.toNat ∨ block.toNat + 20 ≤ x)
    (hstack : x < stackMem.toNat ∨ stackMem.toNat + 4096 ≤ x)
    (hlink : x < s.readyQueue.toNat + 12 ∨ s.readyQueue.toNat + 16 ≤ x) :
    (taskCreate entry block stackMem s).cpu.mem x = s.cpu.mem x := by
  have hnext := nextField_toNat h.blockFits
  have hready := nextField_toNat h.readyFits
  rw [taskCreate_mem, write_of_ne (by omega), write_of_ne (by omega), frameMem_of_ne h hblock hstack]

omit h in
theorem taskCreate_next_ready :
    (taskCreate entry block stackMem s).load (nextField s.readyQueue) = block := by
  rw [Sys.load, taskCreate_mem, read_write_self]

theorem taskCreate_next_new :
    (taskCreate entry block stackMem s).load (nextField block) = s.load (nextField s.readyQueue) := by
  have hnext := nextField_toNat h.blockFits
  have hready := nextField_toNat h.readyFits
  have happart := h.readyBlock
  have hstack := h.readyStack
  rw [Sys.load, taskCreate_mem, read_write_of_ne (by omega), read_write_self]
  exact read_congr fun x hx hx' ↦ frameMem_of_ne h (by omega) (by omega)

theorem taskCreate_kstackBottom :
    (taskCreate entry block stackMem s).load (kstackBottomField block) = stackMem := by
  have hb := h.blockFits
  have hkstack : (kstackBottomField block).toNat = block.toNat + 4 := toNat_add (d := 4) (by simp; omega)
  have hesp : (espField block).toNat = block.toNat := rfl
  have hnext := nextField_toNat h.blockFits
  have hready := nextField_toNat h.readyFits
  have happart := h.readyBlock
  have hstack := h.apart
  rw [Sys.load, taskCreate_mem, read_write_of_ne (by omega), read_write_of_ne (by omega), frameMem,
    read_write_of_ne (by omega),
    read_congr fun x hx hx' ↦ firstFrame_mem_of_ne h (x := x) (by omega), headerMem, read_write_self]

theorem taskCreate_waiting :
    Waiting (taskCreate entry block stackMem s).cpu.mem ⟨block, stackMem.toNat, stackMem.toNat + 4096⟩
      { esp := stackMem + 4096, ebp := 0, ebx := 0, esi := 0, edi := 0, eip := entry } := by
  have hs := h.stackFits
  have hsep := h.apart
  have hesp : (firstFrame entry block stackMem s).esp.toNat = stackMem.toNat + 4076 := firstFrame_esp h
  have hread : read (frameMem entry block stackMem s) block =
      (firstFrame entry block stackMem s).esp := read_write_self ..
  have hframe : Waiting (frameMem entry block stackMem s) ⟨block, stackMem.toNat, stackMem.toNat + 4096⟩
      { esp := stackMem + 4096, ebp := 0, ebx := 0, esi := 0, edi := 0, eip := entry } := by
    have htop : stackMem + 4096 = (firstFrame entry block stackMem s).esp + 20 := by
      apply UInt32.toNat_inj.mp
      rw [toNat_add (d := 4096) hs, toNat_add (d := 20) (by rw [hesp]; simp; omega), hesp]
      rfl
    refine ⟨?_, ?_, ?_, ?_⟩
    · dsimp only
      rw [hread, hesp]
      omega
    · refine Nat.le_of_eq ?_
      rw [hread, hesp]
    · dsimp only
      rw [hread]
      refine (firstFrame_stacked h).congr (fun x hx hx' ↦ write_of_ne ?_) ?_
      · have hfield : (espField block).toNat = block.toNat := rfl
        simp only [List.length_cons, List.length_nil] at hx'
        omega
      · simp only [List.length_cons, List.length_nil]
        omega
    · dsimp only
      rw [hread, htop]
  have hnext := nextField_toNat h.blockFits
  have hready := nextField_toNat h.readyFits
  have happart := h.readyBlock
  have hstack := h.readyStack
  refine hframe.congr hs (fun x hx hx' ↦ ?_) fun x hx hx' ↦ ?_
  · dsimp only at hx hx'
    rw [taskCreate_mem, write_of_ne (by omega), write_of_ne (by omega)]
  · dsimp only at hx hx'
    rw [taskCreate_mem, write_of_ne (by omega), write_of_ne (by omega)]

end Create

theorem Inv.fresh (h : Inv tasks parked s)
    (hsep : Separate (⟨block, stackMem.toNat, stackMem.toNat + 4096⟩ :: tasks)) :
    Fresh block stackMem s := by
  obtain ⟨r, hr, hrq⟩ := h.ready
  have hmem := List.mem_cons_self (a := (⟨block, stackMem.toNat, stackMem.toNat + 4096⟩ : Task)) (l := tasks)
  have hfit := hsep.fits _ hmem
  have hnew := (List.pairwise_cons.mp hsep.pairwise).1 r hr
  refine ⟨hfit.1, hfit.2.2, hsep.apart _ hmem _ hmem, ?_, ?_, ?_⟩
  · rw [← hrq]
    exact (h.separate.fits r hr).1
  · rw [← hrq]
    exact hnew.1
  · rw [← hrq]
    exact hsep.apart r (List.mem_cons_of_mem _ hr) _ hmem

/-- The bytes of the earlier tasks are left alone, but for the link of the head of the queue. -/
theorem Inv.taskCreate_same (h : Inv tasks parked s)
    (hsep : Separate (⟨block, stackMem.toNat, stackMem.toNat + 4096⟩ :: tasks)) {t : Task}
    (ht : t ∈ tasks) {x : ℕ}
    (hx : t.block.toNat ≤ x ∧ x < t.block.toNat + 20 ∧ (t.block = s.readyQueue → x < t.block.toNat + 12) ∨
      t.lo ≤ x ∧ x < t.hi) : (taskCreate entry block stackMem s).cpu.mem x = s.cpu.mem x := by
  obtain ⟨r, hr, hrq⟩ := h.ready
  have hmem := List.mem_cons_self (a := (⟨block, stackMem.toNat, stackMem.toNat + 4096⟩ : Task)) (l := tasks)
  have hmemt := List.mem_cons_of_mem (⟨block, stackMem.toNat, stackMem.toNat + 4096⟩ : Task) ht
  obtain ⟨hblocks, hstacks⟩ := (List.pairwise_cons.mp hsep.pairwise).1 t ht
  have hnewt := hsep.apart _ hmem t hmemt
  have htnew := hsep.apart t hmemt _ hmem
  have hrt := h.separate.apart r hr t ht
  have hself : t.block = s.readyQueue ∨
      t.block.toNat + 20 ≤ s.readyQueue.toNat ∨ s.readyQueue.toNat + 20 ≤ t.block.toNat := by
    rcases h.separate.eq_or_apart ht hr with heq | hap
    · exact .inl (heq ▸ hrq)
    · exact .inr (hrq ▸ hap.1)
  dsimp only at hblocks hstacks hnewt htnew
  rw [hrq] at hrt
  apply taskCreate_mem_of_ne (h.fresh hsep)
  · omega
  · omega
  · rcases hx with ⟨hx, hx', hlink⟩ | hx
    · rcases hself with heq | hself
      · have hlt := hlink heq
        rw [heq] at hlt
        exact .inl hlt
      · omega
    · omega

theorem taskCreate_inv (h : Inv tasks parked s) (entry : UInt32)
    (hsep : Separate (⟨block, stackMem.toNat, stackMem.toNat + 4096⟩ :: tasks)) :
    Inv (⟨block, stackMem.toNat, stackMem.toNat + 4096⟩ :: tasks)
      (update parked block
        { esp := (taskCreate entry block stackMem s).load (kstackBottomField block) + 4096
          ebp := 0, ebx := 0, esi := 0, edi := 0, eip := entry })
      (taskCreate entry block stackMem s) where
  separate := hsep
  current := by
    obtain ⟨t, ht, hcur⟩ := h.current
    exact ⟨t, List.mem_cons_of_mem _ ht, hcur.trans taskCreate_currentTask.symm⟩
  ready := by
    obtain ⟨t, ht, hready⟩ := h.ready
    exact ⟨t, List.mem_cons_of_mem _ ht, hready.trans taskCreate_readyQueue.symm⟩
  next t ht := by
    obtain ⟨r, hr, hrq⟩ := h.ready
    rcases List.mem_cons.mp ht with rfl | ht
    · -- the new task is followed by what followed the head of the queue
      obtain ⟨u, hu, hnext⟩ := h.next r hr
      refine ⟨u, List.mem_cons_of_mem _ hu, ?_⟩
      rw [taskCreate_next_new (h.fresh hsep), ← hrq, hnext]
    · by_cases hready : t.block = s.readyQueue
      · refine ⟨_, List.mem_cons_self, ?_⟩
        rw [hready, taskCreate_next_ready]
      · obtain ⟨u, hu, hnext⟩ := h.next t ht
        have hfield := nextField_toNat (h.separate.fits t ht).1
        refine ⟨u, List.mem_cons_of_mem _ hu, Eq.trans ?_ hnext⟩
        apply read_congr
        intro x hx hx'
        apply h.taskCreate_same hsep ht
        exact .inl ⟨by omega, by omega, fun heq ↦ absurd heq hready⟩
  waiting t ht hne := by
    rw [taskCreate_currentTask] at hne
    rcases List.mem_cons.mp ht with rfl | ht
    · dsimp only
      rw [update_self, taskCreate_kstackBottom (h.fresh hsep)]
      exact taskCreate_waiting (h.fresh hsep)
    · have hnew := (List.pairwise_cons.mp hsep.pairwise).1 t ht
      have hblock : t.block ≠ block := by
        rintro heq
        have hap := hnew.1
        dsimp only at hap
        rw [heq] at hap
        omega
      rw [update_of_ne hblock]
      apply (h.waiting t ht hne).congr (h.separate.fits t ht).2.2
      · intro x hx hx'
        exact h.taskCreate_same hsep ht (.inl ⟨hx, by omega, fun _ ↦ by omega⟩)
      · intro x hx hx'
        exact h.taskCreate_same hsep ht (.inr ⟨hx, hx'⟩)

section Schedule

def nextTask (s : Sys) : UInt32 := s.load (nextField s.currentTask)

theorem schedule_of_same (h : s.currentTask = nextTask s) : schedule ret s = s := by
  rw [schedule]
  split
  · rfl
  · exact if_pos h

theorem schedule_of_ne (hnull : s.currentTask ≠ 0) (h : s.currentTask ≠ nextTask s) :
    schedule ret s =
      { s with
        currentTask := nextTask s
        esp0 := s.load (kstackBottomField (nextTask s)) + 4096
        cpu := switchTo (espField s.currentTask) (s.load (espField (nextTask s))) ret s.cpu } := by
  rw [schedule, if_neg hnull]
  exact if_neg h

def switchedMem (ret : UInt32) (s : Sys) : Bytes :=
  savedMem (espField s.currentTask) (s.load (espField (nextTask s))) ret s.cpu

theorem Inv.callable (h : Inv tasks parked s) (hroom : HasRoom tasks s) :
    Callable (espField s.currentTask) s.cpu := by
  obtain ⟨t, ht, hcur⟩ := h.current
  have hrm := hroom t ht hcur
  have hap := h.separate.apart t ht t ht
  rw [hcur] at hap
  have hfield : (espField s.currentTask).toNat = s.currentTask.toNat := rfl
  exact ⟨by omega, by omega⟩

/-- The bytes of a task are left alone, but for those of the running task that are saved. -/
theorem Inv.switched_same (h : Inv tasks parked s) (hroom : HasRoom tasks s) {t : Task}
    (ht : t ∈ tasks) {x : ℕ}
    (hx : t.block.toNat ≤ x ∧ x < t.block.toNat + 20 ∧ (t.block = s.currentTask → t.block.toNat + 4 ≤ x) ∨
      t.block ≠ s.currentTask ∧ t.lo ≤ x ∧ x < t.hi) : switchedMem ret s x = s.cpu.mem x := by
  obtain ⟨c, hc, hcur⟩ := h.current
  have hrm := hroom c hc hcur
  have hct := h.separate.apart c hc t ht
  have htc := h.separate.apart t ht c hc
  have hself : t.block = s.currentTask ∨ t.Apart c := by
    rcases h.separate.eq_or_apart ht hc with heq | hap
    · exact .inl (heq ▸ hcur)
    · exact .inr hap
  have hfield : (espField s.currentTask).toNat = c.block.toNat := by rw [← hcur]; rfl
  apply (savedMem_saved (h.callable hroom)).frame
  · rcases hx with hx | ⟨hne, hx⟩
    · omega
    · have hap := (hself.resolve_left hne).2
      omega
  · rcases hx with ⟨hx, hx', hesp⟩ | ⟨hne, hx⟩
    · rcases hself with heq | ⟨hap, -⟩
      · have hle := hesp heq
        rw [heq, ← hcur] at hle
        omega
      · omega
    · omega

/-- A task that calls `switch_to` is found again as it was. -/
theorem Inv.switched_waiting (h : Inv tasks parked s) (hroom : HasRoom tasks s) {c : Task}
    (hc : c ∈ tasks) (hcur : c.block = s.currentTask) :
    Waiting (switchedMem ret s) c (s.callContext ret) := by
  have hrm := hroom c hc hcur
  have hsaved := @savedMem_saved _ (s.load (espField (nextTask s))) ret _ (h.callable hroom)
  have hread : read (switchedMem ret s) c.block = s.cpu.esp - 28 := by
    rw [hcur]
    exact hsaved.esp
  have hesp : (s.cpu.esp - 28).toNat = s.cpu.esp.toNat - 28 := toNat_sub (d := 28) (by simp; omega)
  refine ⟨?_, ?_, ?_, ?_⟩
  · rw [hread, hesp]
    omega
  · rw [hread, hesp]
    omega
  · obtain ⟨hedi, hesi, hebx, hebp, heip, -⟩ := hsaved.stacked
    rw [hread]
    exact ⟨hedi, hesi, hebx, hebp, heip, trivial⟩
  · rw [hread]
    apply UInt32.toNat_inj.mp
    have hcall : (s.callContext ret).esp = s.cpu.esp - 4 - 4 := rfl
    have hlt := s.cpu.esp.toNat_lt
    rw [hcall, toNat_add (d := 20) (by rw [hesp]; simp; omega), hesp,
      toNat_sub (d := 4) (by rw [toNat_sub (d := 4) (by simp; omega)]; simp; omega),
      toNat_sub (d := 4) (by simp; omega)]
    simp
    omega

/-- Where `schedule` switches to another task, that task finds the context it is waiting for. -/
theorem Inv.resumes (h : Inv tasks parked s) (ret : UInt32) (hroom : HasRoom tasks s)
    (hne : s.currentTask ≠ nextTask s) : (schedule ret s).currentTask = nextTask s ∧
      (schedule ret s).cpu.mem = switchedMem ret s ∧
      context (schedule ret s).cpu = parked (nextTask s) := by
  obtain ⟨c, hc, hcur⟩ := h.current
  obtain ⟨u, hu, hnext⟩ := h.next c hc
  rw [hcur] at hnext
  have hnull : s.currentTask ≠ 0 := hcur ▸ h.separate.nonnull c hc
  have hother : u.block ≠ s.currentTask := fun heq ↦ hne (heq ▸ hnext.symm)
  have hwait : Waiting (switchedMem ret s) u (parked u.block) := by
    apply (h.waiting u hu hother).congr (h.separate.fits u hu).2.2
    · intro x hx hx'
      exact h.switched_same hroom hu (.inl ⟨hx, by omega, fun heq ↦ absurd heq hother⟩)
    · intro x hx hx'
      exact h.switched_same hroom hu (.inr ⟨hother, hx, hx'⟩)
  have hesp : s.load (espField (nextTask s)) = read (switchedMem ret s) u.block := by
    rw [nextTask, hnext]
    symm
    apply read_congr
    intro x hx hx'
    exact h.switched_same hroom hu (.inl ⟨hx, by omega, fun heq ↦ absurd heq hother⟩)
  have hcpu := @switchTo_eq _ (s.load (espField (nextTask s))) ret _ (h.callable hroom)
  rw [← switchedMem] at hcpu
  rw [schedule_of_ne hnull hne]
  refine ⟨rfl, hcpu.2, hcpu.1.trans ?_⟩
  rw [hesp, nextTask, hnext]
  exact hwait.popped

theorem Inv.schedule (h : Inv tasks parked s) (hroom : HasRoom tasks s) :
    Inv tasks (update parked s.currentTask (s.callContext ret)) (Switch.schedule ret s) := by
  by_cases hsame : s.currentTask = nextTask s
  · rw [schedule_of_same hsame]
    refine ⟨h.separate, h.current, h.ready, h.next, fun t ht hne ↦ ?_⟩
    rw [update_of_ne hne]
    exact h.waiting t ht hne
  · obtain ⟨c, hc, hcur⟩ := h.current
    obtain ⟨u, hu, hnext⟩ := h.next c hc
    rw [hcur] at hnext
    obtain ⟨htask, hmem, -⟩ := h.resumes ret hroom hsame
    refine ⟨h.separate, ⟨u, hu, htask ▸ hnext.symm⟩, ?_, fun t ht ↦ ?_, fun t ht hne ↦ ?_⟩
    · have hnull : s.currentTask ≠ 0 := hcur ▸ h.separate.nonnull c hc
      rw [schedule_of_ne hnull hsame]
      exact h.ready
    · obtain ⟨v, hv, hlink⟩ := h.next t ht
      have hfield := nextField_toNat (h.separate.fits t ht).1
      refine ⟨v, hv, ?_⟩
      rw [Sys.load, hmem, ← hlink]
      apply read_congr
      intro x hx hx'
      exact h.switched_same hroom ht (.inl ⟨by omega, by omega, fun _ ↦ by omega⟩)
    · rw [hmem]
      by_cases ht' : t.block = s.currentTask
      · rw [ht', update_self]
        exact h.switched_waiting hroom ht ht'
      · rw [update_of_ne ht']
        apply (h.waiting t ht ht').congr (h.separate.fits t ht).2.2
        · intro x hx hx'
          exact h.switched_same hroom ht (.inl ⟨hx, by omega, fun heq ↦ absurd heq ht'⟩)
        · intro x hx hx'
          exact h.switched_same hroom ht (.inr ⟨ht', hx, hx'⟩)

end Schedule

theorem run_inv (hr : Run tasks parked s) : Inv tasks parked s := by
  induction hr with
  | init hsep => exact taskingInit_inv hsep
  | create entry _ hsep ih => exact taskCreate_inv ih entry hsep
  | work cpu _ hown ih => exact ih.work hown
  | schedule ret _ hroom ih => exact ih.schedule hroom

/-- Whatever the other tasks did, `switch_to` comes back to a task with the registers and
the return address of its own last call, and to a new task at its entry. -/
theorem schedule_resumes (hr : Run tasks parked s) (ret : UInt32) (hroom : HasRoom tasks s)
    (hswitch : (schedule ret s).currentTask ≠ s.currentTask) :
    context (schedule ret s).cpu = parked (schedule ret s).currentTask := by
  have h := run_inv hr
  have hne : s.currentTask ≠ nextTask s := by
    intro hsame
    rw [schedule_of_same hsame] at hswitch
    exact hswitch rfl
  obtain ⟨htask, -, hcontext⟩ := h.resumes ret hroom hne
  rw [htask]
  exact hcontext

/-- The boot code on its stack, before `tasking_init`. -/
def booted : Sys where
  cpu := ⟨0, 1, 2, 3, 4, 0xC0107000, 0, fun _ ↦ 0⟩
  currentTask := 0
  readyQueue := 0
  nextTid := 1
  esp0 := 0

theorem separate_boot : Separate [⟨0xD0000010, 0xC0104000, 0xC0108000⟩] where
  nonnull := by decide
  fits := by decide
  apart := by decide
  pairwise := List.pairwise_singleton ..

theorem separate_proxy : Separate [⟨0xD0000040, (0xD0000070 : UInt32).toNat,
    (0xD0000070 : UInt32).toNat + 4096⟩, ⟨0xD0000010, 0xC0104000, 0xC0108000⟩] where
  nonnull := by decide
  fits := by decide
  apart := by decide
  pairwise := by
    rw [List.pairwise_pair]
    exact ⟨by decide, by decide⟩

def proxyCreated : Sys :=
  taskCreate 0xC0100400 0xD0000040 0xD0000070 (taskingInit 0xD0000010 booted)

/-- The first switch to the second task comes to its entry, on its own stack. -/
theorem schedule_resumes_proxy : nextTask proxyCreated = 0xD0000040 ∧
    context (schedule 0xC0100350 proxyCreated).cpu =
      { esp := 0xD0001070, ebp := 0, ebx := 0, esi := 0, edi := 0, eip := 0xC0100400 } := by
  have hinit : Run _ (fun _ ↦ ⟨0, 0, 0, 0, 0, 0⟩) (taskingInit 0xD0000010 booted) := .init separate_boot
  have hrun := hinit.create 0xC0100400 separate_proxy
  rw [taskCreate_kstackBottom ((run_inv hinit).fresh separate_proxy), ← proxyCreated] at hrun
  have hcur : proxyCreated.currentTask = 0xD0000010 := taskCreate_currentTask
  have hnext : nextTask proxyCreated = 0xD0000040 := by
    rw [nextTask, hcur]
    exact taskCreate_next_ready
  have hswitch : (schedule 0xC0100350 proxyCreated).currentTask = 0xD0000040 := by
    rw [schedule_of_ne (by rw [hcur]; decide) (by rw [hcur, hnext]; decide), hnext]
  have hroom : HasRoom [⟨0xD0000040, (0xD0000070 : UInt32).toNat, (0xD0000070 : UInt32).toNat + 4096⟩,
      ⟨0xD0000010, 0xC0104000, 0xC0108000⟩] proxyCreated := by
    have hesp : proxyCreated.cpu.esp = 0xC0107000 := taskCreate_esp
    intro t ht hblock
    rw [hcur] at hblock
    rw [hesp]
    rw [List.mem_cons, List.mem_singleton] at ht
    rcases ht with rfl | rfl
    · exact absurd hblock (by decide)
    · decide
  have hresumes := schedule_resumes hrun 0xC0100350 hroom (by rw [hswitch, hcur]; decide)
  rw [hswitch, update_self] at hresumes
  exact ⟨hnext, hresumes⟩

end Steps

end KevOS.Tasking.Switch
