import KevOS.Heap.Statements
import KevOS.Heap.FlatMachine

namespace KevOS.Heap.Preempted

open Lib.Program Lib.Tiling Lib.Stepwise Machine Blocks Growth Run FlatMachine

/-- A heap call under way: the request, and the statements that are left. -/
inductive Call
  | kmalloc (n : ℕ) (rest : Steps (HeapState Flat) ℕ)
  | kfree (rest : Steps (HeapState Flat) Unit)

structure Task where
  interrupts : Bool
  call : Option Call

/-- Two tasks on one processor, and the heap they share. The live pointers come with the
sizes requested. -/
structure Cpu where
  heap : HeapState Flat
  running : Bool
  tasks : Bool → Task
  live : List (ℕ × ℕ)

/-- A timer interrupt, `cli` or `sti`, the beginning of a call, or its next statement. -/
inductive Event
  | timer
  | setInterrupts (flag : Bool)
  | kmalloc (fuel n : ℕ)
  | kfree (p n : ℕ)
  | statement
  deriving DecidableEq, Repr

def Cpu.current (c : Cpu) : Task := c.tasks c.running

def Cpu.other (c : Cpu) : Task := c.tasks (!c.running)

def Cpu.setCurrent (c : Cpu) (t : Task) : Cpu :=
  { c with tasks := Function.update c.tasks c.running t }

/-- The running task is at `call`. -/
def Cpu.moveTo (c : Cpu) (call : Option Call) (heap : HeapState Flat) (live : List (ℕ × ℕ)) : Cpu :=
  { c.setCurrent { c.current with call } with heap, live }

/-- The next statement of the running task. Once none is left, the call returns. -/
def statement (c : Cpu) : Option Cpu :=
  match c.current.call with
  | none => none
  | some (.kmalloc n (.ret p)) =>
    some (c.moveTo none c.heap (if p = 0 then c.live else (p, n) :: c.live))
  | some (.kmalloc n (.stmt x k)) =>
    match x.run c.heap with
    | .ok r s => some (c.moveTo (some (.kmalloc n (k r))) s c.live)
    | .error _ _ => none
  | some (.kfree (.ret _)) => some (c.moveTo none c.heap c.live)
  | some (.kfree (.stmt x k)) =>
    match x.run c.heap with
    | .ok r s => some (c.moveTo (some (.kfree (k r))) s c.live)
    | .error _ _ => none

def step (c : Cpu) : Event → Option Cpu
  | .timer => if c.current.interrupts then some { c with running := !c.running } else none
  | .setInterrupts flag =>
    if c.current.call.isNone then some (c.setCurrent { c.current with interrupts := flag }) else none
  | .kmalloc fuel n =>
    if c.current.call.isNone then some (c.moveTo (some (.kmalloc n (kmallocSteps fuel n))) c.heap c.live)
    else none
  | .kfree p n =>
    -- a pointer that is being freed is not live any more
    if c.current.call.isNone ∧ (p = 0 ∨ (p, n) ∈ c.live) then
      some (c.moveTo (some (.kfree (kfreeSteps p))) c.heap
        (if p = 0 then c.live else c.live.erase (p, n)))
    else none
  | .statement => statement c

/-- A run that begins with `kheap_init` in `s₀`, with every state it went through and what
happened there. -/
inductive Interleaving (s₀ : HeapState Flat) : List (Cpu × Event) → Cpu → Prop
  | start {s : HeapState Flat} (interrupts : Bool → Bool) (running : Bool) :
      kheapInit.run s₀ = .ok () s →
      Interleaving s₀ [] ⟨s, running, fun t ↦ ⟨interrupts t, none⟩, []⟩
  | step {h : List (Cpu × Event)} {c c' : Cpu} {e : Event} :
      Interleaving s₀ h c → step c e = some c' → Interleaving s₀ ((c, e) :: h) c'

/-- The memory of two live pointers does not overlap. -/
def Apart (x y : ℕ × ℕ) : Prop := x.1 + x.2 ≤ y.1 ∨ y.1 + y.2 ≤ x.1

/-- Live pointers do not overlap, and outside of the calls the list is a tiling of the heap
whose used blocks they are. -/
structure Safe (c : Cpu) : Prop where
  disjoint : c.live.Pairwise Apart
  tiles : (∀ t, (c.tasks t).call = none) → ∃ bs, WellFormed (G := flatWindow) c.heap bs ∧ Live bs c.live

/-- No step of a heap call is made while the other task is in the middle of one. -/
def Undisturbed (c : Cpu) : Event → Prop
  | .kmalloc _ n => c.other.call = none ∧ (n = 0 ∨ ValidSize n)
  | .kfree _ _ | .statement => c.other.call = none
  | _ => True

section Invariant

variable {c c' : Cpu} {e : Event} {bs : List Block} {live live₀ : List (ℕ × ℕ)}
  {s s₀ : HeapState Flat} {hi lo : ℕ} {call : Call} {contents : ℕ → Lib.ByteMemory.Bytes}
  {frames : List ℕ}

/-- A call under way ends as one that was made in `s₀`, where `live₀` were live. -/
inductive Continues (s₀ : HeapState Flat) (live₀ : List (ℕ × ℕ)) (s : HeapState Flat)
    (live : List (ℕ × ℕ)) : Call → Prop
  | kmalloc {fuel n : ℕ} {rest : Steps (HeapState Flat) ℕ} : n = 0 ∨ ValidSize n → live = live₀ →
      rest.run.run s = (kmalloc fuel n).run s₀ → Continues s₀ live₀ s live (.kmalloc n rest)
  | kfree {p n : ℕ} {rest : Steps (HeapState Flat) Unit} : (p, n) ∈ live₀ →
      live = live₀.erase (p, n) → rest.run.run s = (kfree p).run s₀ →
      Continues s₀ live₀ s live (.kfree rest)
  | kfreeNull {rest : Steps (HeapState Flat) Unit} : live = live₀ →
      rest.run.run s = (kfree 0).run s₀ → Continues s₀ live₀ s live (.kfree rest)

inductive Inv (c : Cpu) : Prop
  | idle {bs : List Block} {hi : ℕ} : Represented flatWindow c.heap bs hi → Live bs c.live →
      (∀ t, (c.tasks t).call = none) → Inv c
  | busy {bs : List Block} {hi : ℕ} {s₀ : HeapState Flat} {live₀ : List (ℕ × ℕ)} {t : Bool}
      {call : Call} : Represented flatWindow s₀ bs hi → Live bs live₀ →
      (c.tasks t).call = some call → (c.tasks !t).call = none →
      Continues s₀ live₀ c.heap c.live call → Inv c

theorem moveTo_call (c : Cpu) (call : Option Call) (t : Bool) :
    ((c.moveTo call s live).tasks t).call = if t = c.running then call else (c.tasks t).call := by
  unfold Cpu.moveTo Cpu.setCurrent
  by_cases h : t = c.running
  · subst h
    simp
  · simp [h]

/-- Only the heap, the live pointers and the calls matter. -/
theorem Inv.congr (h : Inv c) (hheap : c'.heap = c.heap) (hlive : c'.live = c.live)
    (hcall : ∀ t, (c'.tasks t).call = (c.tasks t).call) : Inv c' := by
  cases h with
  | idle hrep hl hnone =>
    exact .idle (hheap ▸ hrep) (hlive ▸ hl) fun t ↦ (hcall t).trans (hnone t)
  | busy hrep hl ht hother hc =>
    refine .busy hrep hl ((hcall _).trans ht) ((hcall _).trans hother) ?_
    rw [hheap, hlive]
    exact hc

theorem live_disjoint (hl : Live bs live) (ht : Tiles heapNodeSize lo bs hi) :
    live.Pairwise Apart := by
  refine (List.pairwise_map.mp (hl.nodup ht)).imp_of_mem fun {x y} hx hy hne ↦ ?_
  obtain ⟨b, hb, hbx, hn⟩ := hl.room x.1 x.2 hx
  obtain ⟨d, hd, hdy, hk⟩ := hl.room y.1 y.2 hy
  obtain ⟨hb, -⟩ := HeapList.mem_usedBlocks.mp hb
  obtain ⟨hd, -⟩ := HeapList.mem_usedBlocks.mp hd
  unfold Apart
  rw [← hbx, ← hdy] at hne ⊢
  unfold Block.payload at hne ⊢
  rcases ht.disjoint hb hd with rfl | hbd | hdb
  · exact absurd rfl hne
  · unfold Block.stop at hbd
    omega
  · unfold Block.stop at hdb
    omega

theorem Inv.safe (h : Inv c) : Safe c := by
  cases h with
  | idle hrep hl _ => exact ⟨live_disjoint hl hrep.shape.tiles, fun _ ↦ ⟨_, Represented.wellFormed hrep, hl⟩⟩
  | @busy bs hi s₀ live₀ t call hrep hl ht _ hc =>
    have hdisjoint := live_disjoint hl hrep.shape.tiles
    refine ⟨?_, fun hnone ↦ absurd ((hnone t).symm.trans ht) nofun⟩
    cases hc with
    | kmalloc _ hlive => exact hlive ▸ hdisjoint
    | kfree _ hlive => exact hlive ▸ hdisjoint.sublist List.erase_sublist
    | kfreeNull hlive => exact hlive ▸ hdisjoint

/-- With the other task outside of the heap, only the running task can be inside. -/
theorem Inv.current (h : Inv c) (hother : c.other.call = none) :
    (c.current.call = none ∧ ∃ bs hi, Represented flatWindow c.heap bs hi ∧ Live bs c.live) ∨
      ∃ bs hi s₀ live₀ call, Represented flatWindow s₀ bs hi ∧ Live bs live₀ ∧
        c.current.call = some call ∧ Continues s₀ live₀ c.heap c.live call := by
  cases h with
  | @idle bs hi hrep hl hnone => exact .inl ⟨hnone _, bs, hi, hrep, hl⟩
  | @busy bs hi s₀ live₀ t call hrep hl ht _ hc =>
    have hrunning : t = c.running := by
      by_contra hne
      have ht' : t = !c.running := Bool.eq_not_of_ne hne
      rw [Cpu.other, ← ht', ht] at hother
      contradiction
    subst hrunning
    exact .inr ⟨bs, hi, s₀, live₀, call, hrep, hl, ht, hc⟩

theorem moveTo_other {call : Option Call} (h : c.other.call = none) {t : Bool} (ht : t ≠ c.running) :
    ((c.moveTo call s live).tasks t).call = none := by
  rw [moveTo_call, if_neg ht, Bool.eq_not_of_ne ht]
  exact h

theorem Inv.goOn (hrep : Represented flatWindow s₀ bs hi) (hl : Live bs live₀)
    (hother : c.other.call = none) (hc : Continues s₀ live₀ s live call) :
    Inv (c.moveTo (some call) s live) :=
  .busy (t := c.running) hrep hl ((moveTo_call c _ _).trans (if_pos rfl))
    (moveTo_other hother (Bool.not_ne_self _)) hc

theorem Inv.finish (hrep : Represented flatWindow s bs hi) (hl : Live bs live)
    (hother : c.other.call = none) : Inv (c.moveTo none s live) := by
  refine .idle hrep hl fun t ↦ ?_
  by_cases ht : t = c.running
  · rw [moveTo_call, if_pos ht]
  · exact moveTo_other hother ht

section Calls

variable {n : ℕ} {β : Type} {x : Prog (HeapState Flat) β} {r : β} {s' : HeapState Flat}

theorem Continues.kmalloc_stmt {k : β → Steps (HeapState Flat) ℕ}
    (h : Continues s₀ live₀ s live (.kmalloc n (.stmt x k))) (hx : x.run s = .ok r s') :
    Continues s₀ live₀ s' live (.kmalloc n (k r)) := by
  cases h with
  | kmalloc hn hlive hrun => exact .kmalloc hn hlive ((run_stmt_ok hx).symm.trans hrun)

theorem Continues.kfree_stmt {k : β → Steps (HeapState Flat) Unit}
    (h : Continues s₀ live₀ s live (.kfree (.stmt x k))) (hx : x.run s = .ok r s') :
    Continues s₀ live₀ s' live (.kfree (k r)) := by
  cases h with
  | kfree hp hlive hrun => exact .kfree hp hlive ((run_stmt_ok hx).symm.trans hrun)
  | kfreeNull hlive hrun => exact .kfreeNull hlive ((run_stmt_ok hx).symm.trans hrun)

theorem live_ne_zero {p : ℕ} (hl : Live bs live) (hp : (p, n) ∈ live) : p ≠ 0 := by
  obtain ⟨b, -, rfl, -⟩ := hl.room p n hp
  unfold Block.payload heapNodeSize
  omega

theorem Continues.kmalloc_ret {p : ℕ} (hrep : Represented flatWindow s₀ bs hi) (hl : Live bs live₀)
    (h : Continues s₀ live₀ s live (.kmalloc n (.ret p))) :
    ∃ bs hi, Represented flatWindow s bs hi ∧ Live bs (if p = 0 then live else (p, n) :: live) := by
  cases h with
  | @kmalloc fuel _ _ hn hlive hrun =>
    have hret : (Heap.kmalloc fuel n).run s₀ = .ok p s := hrun.symm
    subst hlive
    rcases hn with rfl | hn
    · have hnull : (Heap.kmalloc fuel 0).run s₀ = .ok 0 s₀ := rfl
      cases hret.symm.trans hnull
      exact ⟨bs, hi, hrep, hl⟩
    · obtain ⟨bs', hi', ha, hb⟩ := kmalloc_ok hn hrep hret
      have hl' := hl.allocated hn ha
      have hne : p ≠ 0 := live_ne_zero hl' List.mem_cons_self
      rw [if_neg hne]
      exact ⟨bs', hi', hb.represented, hl'⟩

theorem Continues.kfree_ret {u : Unit} (hrep : Represented flatWindow s₀ bs hi) (hl : Live bs live₀)
    (h : Continues s₀ live₀ s live (.kfree (.ret u))) :
    ∃ bs hi, Represented flatWindow s bs hi ∧ Live bs live := by
  cases h with
  | @kfree p n _ hp hlive hrun =>
    have hret : (Heap.kfree p).run s₀ = .ok () s := hrun.symm
    have hlive' := hl.released hrep.shape.tiles hp
    obtain ⟨b, hb, rfl, -⟩ := hl.room p n hp
    obtain ⟨s', hrun', hrep', -⟩ := kfree_ok hrep (HeapList.mem_usedBlocks.mp hb).1
    cases hret.symm.trans hrun'
    exact ⟨_, hi, hrep', hlive ▸ hlive'⟩
  | kfreeNull hlive hrun =>
    have hnull : (Heap.kfree 0).run s₀ = .ok () s₀ := rfl
    have hret : (Heap.kfree 0).run s₀ = .ok () s := hrun.symm
    cases hret.symm.trans hnull
    exact ⟨bs, hi, hrep, hlive ▸ hl⟩

end Calls

theorem statement_inv (h : Inv c) (hother : c.other.call = none) (hs : statement c = some c') :
    Inv c' := by
  rcases h.current hother with ⟨hnone, -⟩ | ⟨bs, hi, s₀, live₀, call, hrep, hl, hcall, hc⟩
  · rw [statement, hnone] at hs
    contradiction
  rw [statement, hcall] at hs
  cases call with
  | kmalloc n rest =>
    cases rest with
    | ret p =>
      cases hs
      obtain ⟨bs', hi', hrep', hl'⟩ := hc.kmalloc_ret hrep hl
      exact .finish hrep' hl' hother
    | stmt x k =>
      cases hx : x.run c.heap with
      | error e s => simp [hx] at hs
      | ok r s =>
        simp only [hx, Option.some.injEq] at hs
        exact hs ▸ .goOn hrep hl hother (hc.kmalloc_stmt hx)
  | kfree rest =>
    cases rest with
    | ret u =>
      cases hs
      obtain ⟨bs', hi', hrep', hl'⟩ := hc.kfree_ret hrep hl
      exact .finish hrep' hl' hother
    | stmt x k =>
      cases hx : x.run c.heap with
      | error e s => simp [hx] at hs
      | ok r s =>
        simp only [hx, Option.some.injEq] at hs
        exact hs ▸ .goOn hrep hl hother (hc.kfree_stmt hx)

theorem step_inv (h : Inv c) (hundisturbed : Undisturbed c e) (hs : step c e = some c') : Inv c' := by
  cases e with
  | timer =>
    simp only [step, Option.ite_none_right_eq_some, Option.some.injEq] at hs
    obtain ⟨-, rfl⟩ := hs
    exact h.congr rfl rfl fun _ ↦ rfl
  | setInterrupts flag =>
    simp only [step, Option.ite_none_right_eq_some, Option.some.injEq] at hs
    obtain ⟨-, rfl⟩ := hs
    refine h.congr rfl rfl fun t ↦ ?_
    by_cases ht : t = c.running
    · subst ht
      simp [Cpu.setCurrent, Cpu.current]
    · simp [Cpu.setCurrent, ht]
  | kmalloc fuel n =>
    simp only [step, Option.ite_none_right_eq_some, Option.some.injEq, Option.isNone_iff_eq_none] at hs
    obtain ⟨hnone, rfl⟩ := hs
    obtain ⟨hother, hn⟩ := hundisturbed
    rcases h.current hother with ⟨-, bs, hi, hrep, hl⟩ | ⟨_, _, _, _, _, -, -, hcall, -⟩
    · have hrun : (kmallocSteps fuel n).run.run c.heap = (Heap.kmalloc fuel n).run c.heap := by
        rw [run_kmallocSteps]
      exact .goOn hrep hl hother (.kmalloc hn rfl hrun)
    · rw [hnone] at hcall
      contradiction
  | kfree p n =>
    simp only [step, Option.ite_none_right_eq_some, Option.some.injEq, Option.isNone_iff_eq_none] at hs
    obtain ⟨⟨hnone, hp⟩, rfl⟩ := hs
    have hother : c.other.call = none := hundisturbed
    rcases h.current hother with ⟨-, bs, hi, hrep, hl⟩ | ⟨_, _, _, _, _, -, -, hcall, -⟩
    · by_cases hzero : p = 0
      · subst hzero
        refine .goOn hrep hl hother (.kfreeNull rfl ?_)
        rw [run_kfreeSteps]
      · rw [if_neg hzero]
        refine .goOn hrep hl hother (.kfree (hp.resolve_left hzero) rfl ?_)
        rw [run_kfreeSteps]
    · rw [hnone] at hcall
      contradiction
  | statement => exact statement_inv h hundisturbed hs

theorem interleaving_inv {h : List (Cpu × Event)}
    (hr : Interleaving (Flat.start contents frames) h c)
    (hundisturbed : ∀ p ∈ h, Undisturbed p.1 p.2) : Inv c := by
  induction hr with
  | start interrupts running hinit =>
    exact .idle (kheapInit_ok (G := flatWindow) trivial start_acc rfl hinit) ⟨.nil, by simp⟩ fun _ ↦ rfl
  | step hr hs ih =>
    rw [List.forall_mem_cons] at hundisturbed
    exact step_inv (ih hundisturbed.2) hundisturbed.1 hs

/-- If no heap call is disturbed by one of the other task, the heap is safe in every state
of every interleaving. -/
theorem safe_of_undisturbed (contents : ℕ → Lib.ByteMemory.Bytes) (frames : List ℕ)
    {h : List (Cpu × Event)} {c : Cpu} (hr : Interleaving (Flat.start contents frames) h c)
    (hundisturbed : ∀ p ∈ h, Undisturbed p.1 p.2) : Safe c :=
  (interleaving_inv hr hundisturbed).safe

end Invariant

section Schedules

variable {c : Cpu} {h : List (Cpu × Event)} {s₀ s s' : HeapState Flat} {n p : ℕ}
  {rest : Steps (HeapState Flat) ℕ} {call : Option Call} {live : List (ℕ × ℕ)}

@[simp] theorem moveTo_current : (c.moveTo call s live).current = { c.current with call } := by
  simp [Cpu.moveTo, Cpu.setCurrent, Cpu.current]

@[simp] theorem moveTo_other_eq : (c.moveTo call s live).other = c.other := by
  simp [Cpu.moveTo, Cpu.setCurrent, Cpu.other]

theorem step_stmt {β : Type} {x : Prog (HeapState Flat) β} {k : β → Steps (HeapState Flat) ℕ} {r : β}
    (hcall : c.current.call = some (.kmalloc n (.stmt x k))) (hx : x.run c.heap = .ok r s) :
    step c .statement = some (c.moveTo (some (.kmalloc n (k r))) s c.live) := by
  simp [step, statement, hcall, hx]

/-- From `c` on the running task executes what is left of its call, in the steps `l`, and nothing
else happens. -/
structure Finishes (s₀ : HeapState Flat) (h : List (Cpu × Event)) (c : Cpu) (s : HeapState Flat)
    (live : List (ℕ × ℕ)) (l : List (Cpu × Event)) (c' : Cpu) : Prop where
  run : Interleaving s₀ (l ++ h) c'
  heap : c'.heap = s
  live : c'.live = live
  running : c'.running = c.running
  current : c'.current = { c.current with call := none }
  other : c'.other = c.other
  steps : ∀ q ∈ l, q.1.other = c.other ∧ q.2 = .statement

/-- The calls are alike, but for what the last statement does to the live pointers. -/
theorem Interleaving.finishes {α : Type} {rest : Steps (HeapState Flat) α} {r : α}
    (wrap : Steps (HeapState Flat) α → Call) (done : List (ℕ × ℕ) → α → List (ℕ × ℕ))
    (hstmt : ∀ {c : Cpu} {β : Type} {x : Prog (HeapState Flat) β} {k b s}, c.current.call = some (wrap (.stmt x k)) →
      x.run c.heap = .ok b s → Preempted.step c .statement = some (c.moveTo (some (wrap (k b))) s c.live))
    (hret : ∀ {c : Cpu} {r}, c.current.call = some (wrap (.ret r)) →
      Preempted.step c .statement = some (c.moveTo none c.heap (done c.live r)))
    (hr : Interleaving s₀ h c) (hcall : c.current.call = some (wrap rest)) (hrun : rest.run.run c.heap = .ok r s') :
    ∃ l c', Finishes s₀ h c s' (done c.live r) l c' := by
  induction rest generalizing c h with
  | ret r =>
    cases hrun
    refine ⟨[(c, .statement)], _, hr.step (hret hcall), rfl, rfl, rfl, moveTo_current, moveTo_other_eq, ?_⟩
    exact List.forall_mem_singleton.mpr ⟨rfl, rfl⟩
  | stmt x k ih =>
    obtain ⟨b, s₁, hx, hk⟩ := bind_eq_ok.mp hrun
    obtain ⟨l, c', hf⟩ := ih b (hr.step (hstmt hcall hx)) (by rw [moveTo_current]) hk
    have hcurrent := hf.current
    have hother := hf.other
    rw [moveTo_current] at hcurrent
    rw [moveTo_other_eq] at hother
    refine ⟨l ++ [(c, .statement)], c', ?_, hf.heap, hf.live, hf.running, hcurrent, hother, fun q hq ↦ ?_⟩
    · rw [List.append_assoc]
      exact hf.run
    · rcases List.mem_append.mp hq with hq | hq
      · obtain ⟨ho, hs⟩ := hf.steps q hq
        exact ⟨ho.trans moveTo_other_eq, hs⟩
      · obtain rfl := List.mem_singleton.mp hq
        exact ⟨rfl, rfl⟩

/-- What is left of an allocation, executed without an interruption. -/
theorem Interleaving.kmalloc_rest (hr : Interleaving s₀ h c) (hcall : c.current.call = some (.kmalloc n rest))
    (hrun : rest.run.run c.heap = .ok p s') (hp : p ≠ 0) : ∃ l c', Finishes s₀ h c s' ((p, n) :: c.live) l c' := by
  obtain ⟨l, c', hf⟩ := hr.finishes (.kmalloc n) (fun live p ↦ if p = 0 then live else (p, n) :: live)
    step_stmt (fun hcall ↦ by simp [Preempted.step, statement, hcall]) hcall hrun
  rw [if_neg hp] at hf
  exact ⟨l, c', hf⟩

theorem Interleaving.kfree_rest {rest : Steps (HeapState Flat) Unit} (hr : Interleaving s₀ h c)
    (hcall : c.current.call = some (.kfree rest)) (hrun : rest.run.run c.heap = .ok () s') :
    ∃ l c', Finishes s₀ h c s' c.live l c' :=
  hr.finishes .kfree (fun live _ ↦ live)
    (fun hcall hx ↦ by simp [Preempted.step, statement, hcall, hx])
    (fun hcall ↦ by simp [Preempted.step, statement, hcall]) hcall hrun

theorem kmallocSteps_of_ne {fuel : ℕ} (hn : n ≠ 0) : (kmallocSteps fuel n : Steps (HeapState Flat) ℕ) =
    .stmt get fun s ↦ searchSteps (roundUp n) fuel s.vars.heapHead := by
  rw [kmallocSteps, if_neg hn]
  rfl

/-- The block that has been found to fit is taken next. -/
theorem searchSteps_of_ne {fuel curr : ℕ} (hc : curr ≠ 0) :
    ∃ k, (searchSteps n (fuel + 1) curr : Steps (HeapState Flat) ℕ) = .stmt (fits curr n) k ∧
      k true = takeBlockSteps curr n := by
  rw [searchSteps, if_neg hc]
  exact ⟨_, rfl, rfl⟩

/-- Taking a block that has been taken already. -/
theorem takeBlock_taken {a hi : ℕ} {f : Bool} {r : List Block}
    (hrep : Represented flatWindow s (⟨a, n, f⟩ :: r) hi) (hn : n + 24 < 4294967296) :
    ∃ s', (takeBlock a n).run s = .ok (w32 (a + heapNodeSize)) s' := by
  have hmem : (⟨a, n, f⟩ : Block) ∈ (⟨a, n, f⟩ : Block) :: r := List.mem_cons_self
  have hreach := hrep.laid.reaches hmem
  have hsize : (Nodes.nodeAt (flatWindow.view s.mem) a).size = n := (hrep.blocks.data _ hmem).1
  have hread := Nodes.readSize_run flatWindow.toWindow hrep.sees hreach
  rw [hsize] at hread
  obtain ⟨s', hwrite, -⟩ := Nodes.writeFree_returns flatWindow.toWindow hreach false s hrep.sees
  refine ⟨s', ?_⟩
  rw [takeBlock, run_bind_ok hread, if_neg (by unfold w32 heapNodeSize; omega)]
  exact (run_bind_ok hwrite).trans rfl

/-- Both tasks run with interrupts enabled, and neither has called the heap yet. -/
def twoTasks (s : HeapState Flat) : Cpu := ⟨s, false, fun _ ↦ ⟨true, none⟩, []⟩

theorem exists_twoTasks : ∃ s, kheapInit.run smallFlat = .ok () s ∧
    Represented flatWindow s [initialBlock] (kheapStart + kheapInitialSize) :=
  kheapInit_flat (by simp) (by simp)

theorem kmalloc_hundred (hrep : Represented flatWindow s [initialBlock] (kheapStart + kheapInitialSize)) :
    ∃ s', (kmalloc 1 100).run s = .ok (kheapStart + heapNodeSize) s' ∧
      Represented flatWindow s' (carve 104 initialBlock) (kheapStart + kheapInitialSize) := by
  have hp : place (roundUp 100) [initialBlock] =
      some (kheapStart + heapNodeSize, carve 104 initialBlock) := rfl
  obtain ⟨s', hrun, hb⟩ := kmalloc_placed validSize_hundred hrep hp le_rfl
  exact ⟨s', hrun, hb.represented⟩

/-- A run without a disturbance, between two calls. -/
structure Calm (h : List (Cpu × Event)) (c : Cpu) : Prop where
  run : Interleaving smallFlat h c
  idle : ∀ t, c.tasks t = ⟨true, none⟩
  undisturbed : ∀ q ∈ h, Undisturbed q.1 q.2

/-- What the tasks do, but for the statements of their calls, with the task that runs. -/
def happened (h : List (Cpu × Event)) : List (Bool × Event) :=
  (h.filter fun q ↦ q.2 ≠ .statement).map fun q ↦ (q.1.running, q.2)

@[simp] theorem happened_nil : happened [] = [] := rfl

@[simp] theorem happened_timer : happened ((c, .timer) :: h) = (c.running, .timer) :: happened h := rfl

theorem Calm.current (hc : Calm h c) : c.current = ⟨true, none⟩ := hc.idle c.running

theorem Calm.other (hc : Calm h c) : c.other = ⟨true, none⟩ := hc.idle !c.running

theorem Calm.timer (hc : Calm h c) : Calm ((c, .timer) :: h) { c with running := !c.running } := by
  have hstep : step c .timer = some { c with running := !c.running } := by
    simp [step, hc.current]
  exact ⟨hc.run.step hstep, hc.idle, List.forall_mem_cons.mpr ⟨trivial, hc.undisturbed⟩⟩

/-- A call from its beginning to its end. -/
theorem Calm.finishes {e : Event} {l : List (Cpu × Event)} {c' : Cpu} {live' : List (ℕ × ℕ)} (hc : Calm h c)
    (he : Undisturbed c e) (hne : e ≠ .statement)
    (hf : Finishes smallFlat ((c, e) :: h) (c.moveTo call c.heap live) s live' l c') :
    Calm (l ++ (c, e) :: h) c' ∧ happened (l ++ (c, e) :: h) = (c.running, e) :: happened h ∧
      c'.running = c.running := by
  have hcurrent := hf.current
  have hother := hf.other
  rw [moveTo_current, hc.current] at hcurrent
  rw [moveTo_other_eq, hc.other] at hother
  have hrunning : c'.running = c.running := hf.running
  refine ⟨⟨hf.run, fun t ↦ ?_, fun q hq ↦ ?_⟩, ?_, hrunning⟩
  · by_cases ht : t = c'.running
    · rw [ht]
      exact hcurrent
    · rw [Bool.eq_not_of_ne ht]
      exact hother
  · rcases List.mem_append.mp hq with hq | hq
    · obtain ⟨ho, hs⟩ := hf.steps q hq
      rw [moveTo_other_eq, hc.other] at ho
      have hnone : q.1.other.call = none := by rw [ho]
      rw [hs]
      exact hnone
    · rcases List.mem_cons.mp hq with rfl | hq
      · exact he
      · exact hc.undisturbed q hq
  · have hl : l.filter (fun q ↦ q.2 ≠ .statement) = [] := by
      refine List.filter_eq_nil_iff.mpr fun q hq ↦ ?_
      simp [(hf.steps q hq).2]
    rw [happened, List.filter_append, hl, List.nil_append, List.filter_cons_of_pos (by simpa using hne)]
    rfl

theorem Calm.kmalloc {bs bs' : List Block} {hi : ℕ} (hc : Calm h c) (hrep : Represented flatWindow c.heap bs hi)
    (hn : ValidSize n) (hplace : place (roundUp n) bs = some (p, bs')) (hp : p ≠ 0) :
    ∃ h' c', Calm h' c' ∧ happened h' = (c.running, .kmalloc bs.length n) :: happened h ∧ c'.running = c.running ∧
      c'.live = (p, n) :: c.live ∧ Represented flatWindow c'.heap bs' hi := by
  obtain ⟨s', hrun, hb⟩ := kmalloc_placed hn hrep hplace le_rfl
  rw [← run_kmallocSteps] at hrun
  have hstep : step c (.kmalloc bs.length n) =
      some (c.moveTo (some (.kmalloc n (kmallocSteps bs.length n))) c.heap c.live) := by
    simp [step, hc.current]
  obtain ⟨l, c', hf⟩ := (hc.run.step hstep).kmalloc_rest (by rw [moveTo_current]) hrun hp
  obtain ⟨hcalm, hhappened, hrunning⟩ := hc.finishes (e := .kmalloc bs.length n) ⟨by rw [hc.other], .inr hn⟩ nofun hf
  exact ⟨_, c', hcalm, hhappened, hrunning, hf.live, hf.heap ▸ hb.represented⟩

theorem Calm.kfree {bs : List Block} {hi : ℕ} {b : Block} (hc : Calm h c) (hrep : Represented flatWindow c.heap bs hi)
    (hb : b ∈ bs) (hp : b.payload heapNodeSize = p) (hlive : (p, n) ∈ c.live) (hne : p ≠ 0) :
    ∃ h' c', Calm h' c' ∧ happened h' = (c.running, .kfree p n) :: happened h ∧ c'.running = c.running ∧
      c'.live = c.live.erase (p, n) ∧ Represented flatWindow c'.heap (released p bs) hi := by
  subst hp
  obtain ⟨s', hrun, hrep', -⟩ := kfree_ok hrep hb
  rw [← run_kfreeSteps] at hrun
  set p := b.payload heapNodeSize
  have hstep : step c (.kfree p n) =
      some (c.moveTo (some (.kfree (kfreeSteps p))) c.heap (c.live.erase (p, n))) := by
    simp [step, hc.current, hne, hlive]
  obtain ⟨l, c', hf⟩ := (hc.run.step hstep).kfree_rest (by rw [moveTo_current]) hrun
  have hnone : c.other.call = none := by rw [hc.other]
  obtain ⟨hcalm, hhappened, hrunning⟩ := hc.finishes (e := .kfree p n) hnone nofun hf
  exact ⟨_, c', hcalm, hhappened, hrunning, hf.live, hf.heap ▸ hrep'⟩

/-- The heap with a block of 100 bytes, which may be free, and one of 200 bytes. -/
def twoBlocks (free : Bool) : List Block :=
  [⟨kheapStart, 104, free⟩, ⟨kheapStart + 120, 200, false⟩, ⟨kheapStart + 336, 0x1FFEA0, true⟩]

/-- Both tasks allocate and free, and are switched between their calls. -/
theorem safe_of_undisturbed_hundred : ∃ h c p q, Interleaving smallFlat h c ∧
    happened h = [(true, .kfree q 200), (false, .timer), (false, .kmalloc 3 100), (false, .kfree p 100), (true, .timer),
      (true, .kmalloc 2 200), (false, .timer), (false, .kmalloc 1 100)] ∧
    c.live = [(p, 100)] ∧ Safe c := by
  obtain ⟨s, hinit, hrep⟩ := exists_twoTasks
  have hstart : Calm [] (twoTasks s) := ⟨.start _ _ hinit, fun _ ↦ rfl, nofun⟩
  have hp : place (roundUp 100) [initialBlock] = some (kheapStart + 16, carve 104 initialBlock) := rfl
  have hq : place (roundUp 200) (carve 104 initialBlock) = some (kheapStart + 136, twoBlocks false) := rfl
  have hfreed : released (kheapStart + 16) (twoBlocks false) = twoBlocks true := rfl
  have hagain : place (roundUp 100) (twoBlocks true) = some (kheapStart + 16, twoBlocks false) := rfl
  have hsecond : (⟨kheapStart + 120, 200, false⟩ : Block) ∈ twoBlocks false := by decide
  obtain ⟨h₁, c₁, hc₁, hh₁, hr₁, hl₁, hrep₁⟩ := hstart.kmalloc hrep validSize_hundred hp (by decide)
  obtain ⟨h₂, c₂, hc₂, hh₂, hr₂, hl₂, hrep₂⟩ := hc₁.timer.kmalloc hrep₁ validSize_twoHundred hq (by decide)
  have hlive₂ : c₂.live = [(kheapStart + 136, 200), (kheapStart + 16, 100)] := hl₂.trans (congrArg _ hl₁)
  obtain ⟨h₃, c₃, hc₃, hh₃, hr₃, hl₃, hrep₃⟩ := hc₂.timer.kfree (p := kheapStart + 16) (n := 100) hrep₂
    (b := ⟨kheapStart, 104, false⟩) List.mem_cons_self rfl (by simp [hlive₂]) (by decide)
  rw [hfreed] at hrep₃
  obtain ⟨h₄, c₄, hc₄, hh₄, hr₄, hl₄, hrep₄⟩ := hc₃.kmalloc hrep₃ validSize_hundred hagain (by decide)
  have hlive₄ : c₄.live = [(kheapStart + 16, 100), (kheapStart + 136, 200)] := by
    rw [hl₄, hl₃]
    exact congrArg (_ :: ·) (by rw [show c₂.live = _ from hlive₂]; rfl)
  obtain ⟨h₅, c₅, hc₅, hh₅, hr₅, hl₅, -⟩ := hc₄.timer.kfree (p := kheapStart + 136) (n := 200) hrep₄ hsecond rfl
    (by simp [hlive₄]) (by decide)
  have hrunning : (twoTasks s).running = false := rfl
  have hlength : (carve 104 initialBlock).length = 2 := rfl
  refine ⟨h₅, c₅, kheapStart + 16, kheapStart + 136, hc₅.run, ?_, ?_, safe_of_undisturbed _ _ hc₅.run hc₅.undisturbed⟩
  · simp [hh₁, hh₂, hh₃, hh₄, hh₅, hr₁, hr₂, hr₃, hr₄, hrunning, hlength, twoBlocks]
  · rw [hl₅]
    exact congrArg (·.erase (kheapStart + 136, 200)) hlive₄

/-- A tick between the choice of a block and its claim hands the block out twice. -/
theorem block_allocated_twice : ∃ h c, Interleaving smallFlat h c ∧
    c.live = [(kheapStart + heapNodeSize, 100), (kheapStart + heapNodeSize, 100)] ∧ ¬ Safe c := by
  obtain ⟨s, hinit, hrep⟩ := exists_twoTasks
  obtain ⟨s₁, hrun₁, hrep₁⟩ := kmalloc_hundred hrep
  rw [← run_kmallocSteps] at hrun₁
  obtain ⟨s₂, hrun₂⟩ := takeBlock_taken (a := kheapStart) (n := 104) hrep₁ (by decide)
  have hhead : s.vars.heapHead = kheapStart := hrep.head
  have hfits := Allocate.fits_run (b := initialBlock) (l := []) (r := []) (n := 104)
    flatWindow.toWindow hrep.sees hrep.laid hrep.blocks
  rw [decide_eq_true (show Fits 104 initialBlock by decide), initialBlock] at hfits
  have hround : roundUp 100 = 104 := by decide
  -- the first task finds the block
  have hstart : Interleaving smallFlat [] (twoTasks s) := .start _ _ hinit
  have hcalled := hstart.step (e := .kmalloc 1 100) rfl
  have hfirst : ((twoTasks s).moveTo (some (.kmalloc 100 (kmallocSteps 1 100))) s []).current.call =
      some (.kmalloc 100 (.stmt get fun s ↦ searchSteps (roundUp 100) 1 s.vars.heapHead)) := by
    rw [moveTo_current, kmallocSteps_of_ne (by decide)]
  have hentered := hcalled.step (step_stmt hfirst (r := s) (s := s) rfl)
  obtain ⟨k, hk, htake⟩ := @searchSteps_of_ne 104 0 kheapStart (by decide)
  have hsecond (c : Cpu) (live : List (ℕ × ℕ)) : (c.moveTo
      (some (.kmalloc 100 (searchSteps (roundUp 100) 1 s.vars.heapHead))) s live).current.call =
        some (.kmalloc 100 (.stmt (fits kheapStart 104) k)) := by
    rw [moveTo_current, hhead, hround, hk]
  have hfound := hentered.step (step_stmt (hsecond _ _) hfits)
  -- the second one allocates it
  have hswitched := hfound.step (e := .timer) rfl
  have hagain := hswitched.step (e := .kmalloc 1 100) rfl
  obtain ⟨l₁, c₁, hr₁, hheap₁, hlive₁, hrunning₁, hcurrent₁, hother₁, -⟩ :=
    hagain.kmalloc_rest (by rw [moveTo_current]) hrun₁ (by decide)
  -- and the first one goes on
  have hback : step c₁ .timer = some { c₁ with running := !c₁.running } := by
    have hinterrupts : c₁.current.interrupts = true := by rw [hcurrent₁]; rfl
    rw [step, if_pos hinterrupts]
  have hcall₁ : ({ c₁ with running := !c₁.running } : Cpu).current.call =
      some (.kmalloc 100 (takeBlockSteps kheapStart 104)) := by
    change c₁.other.call = _
    rw [hother₁, ← htake]
    rfl
  rw [← run_takeBlockSteps, ← hheap₁] at hrun₂
  obtain ⟨l₂, c₂, hr₂, -, hlive₂, -⟩ := (hr₁.step hback).kmalloc_rest hcall₁ hrun₂ (by decide)
  have hlive : c₂.live =
      [(kheapStart + heapNodeSize, 100), (kheapStart + heapNodeSize, 100)] := by
    rw [hlive₂]
    exact congrArg _ hlive₁
  refine ⟨_, c₂, hr₂, hlive, fun hsafe ↦ ?_⟩
  have hapart := hsafe.disjoint
  rw [hlive, List.pairwise_pair] at hapart
  exact absurd hapart (by unfold Apart; decide)

end Schedules

end KevOS.Heap.Preempted
