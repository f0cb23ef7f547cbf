import KevOS.Memory.HeapRuns

namespace KevOS.Memory.Requests

open Lib.Program Lib.ByteMemory Lib.Tiling Machine Pmm Vmm Heap Nodes Blocks HeapList Allocate Growth Run
open Stores Sizes Mapped Frames Boot Exhausted Backing HeapWindow HeapRuns Finset

/-- What `kheap_init` finds, with nothing stored so far. -/
def beforeCalls (p : Paged) : HeapState (Logged KernelMemory) := logFrom (beforeHeap p)

section Statements

variable (P : Platform) (p : Paged)

def freeFrames (s : HeapState (Logged KernelMemory)) : Finset ℕ := P.free s.mem.mem.mem.mem.mem

/-- `kheap_expand` gets no page: no frame is left, or the last one is for the first page of a table
and the directory, which `vmm_map_page` empties in the table's place, lies in frame 0. -/
def NoPage (s : HeapState (Logged KernelMemory)) : Prop :=
  freeFrames P s = ∅ ∨
    (#(freeFrames P s) = 1 ∧ s.mem.mem.mem.mem.cr3 = 0 ∧ 0x400000 ∣ s.vars.heapCurrentEnd)

/-- The call does not take the heap to the page tables: there are not enough frames for that, or
it is served by a block of the list or by pages in front of them. -/
def Contained (s : HeapState (Logged KernelMemory)) (n : ℕ) : Prop :=
  #(P.free p.mem.mem) ≤ 195775 ∨ (n ≤ 0xFFFFFFF0 ∨ 0xFFFFFFF8 < n) ∧
    ((∃ bs, WellFormed (G := loggedWindow (kernelWindow P p)) s bs ∧ ∃ b ∈ bs, Fits (roundUp n) b) ∨
      s.vars.heapCurrentEnd + pagesNeeded (roundUp n) * pageSize ≤ vmmPageTables)

/-- The requests that `kmalloc` can be trusted with: those whose sums do not wrap around, those
for which it never stops looking, and the largest ones when there is nothing left to give. -/
def Manageable (s : HeapState (Logged KernelMemory)) (n : ℕ) : Prop :=
  n ≤ 0xFFFFEFF0 ∨ (0xFFFFFFF0 < n ∧ n ≤ 0xFFFFFFF8) ∨
    (0xFFFFFFF8 < n ∧ NoPage P s ∧ NoFreeBlock (kernelWindow P p) s)

end Statements

variable {P : Platform} {p : Paged} {s s' : HeapState (Logged KernelMemory)} {t t' : KernelMemory}
  {bs : List Block} {live : List (ℕ × ℕ)} {calls : List (HeapState (Logged KernelMemory) × ℕ)}
  {dir table total hi n q pages fuel : ℕ} {m₀ : Bytes} {e : Stop}

section Mapping

/-- Also where the page cannot be had, its address is one of the heap's. -/
theorem backPage_below (h : HeapBacked P dir table total m₀ t)
    (hroom : total ≤ 195775 ∨ heapPage t.vars.length + 4096 ≤ vmmPageTables)
    (hr : (backPage (heapPage t.vars.length)).run t = .error e t') :
    ∀ virt ∈ t'.vars, InHeap vmmPageTables virt := by
  by_cases hfree : P.free t.mem.mem.mem = ∅
  · cases (backPage_none h hfree).symm.trans hr
    exact h.mapped
  · have hne := nonempty_iff_ne_empty.mpr hfree
    have hk := hroom.elim (fun hfew ↦ HeapBacked.place_of_few h hfew hne) id
    obtain ⟨f, s₁, ht, -⟩ := h.took hne
    rw [backPage_some ht] at hr
    cases hm : (vmmMapPage f (heapPage t.vars.length) 7).run s₁ with
    | ok u q => cases (mapHeapPage_ok (s := { t with mem := s₁ }) hk hm).symm.trans hr
    | error e' q =>
      cases (mapHeapPage_error (s := { t with mem := s₁ }) hk hm).symm.trans hr
      exact List.forall_mem_cons.mpr
        ⟨⟨Nat.le_add_right .., (Nat.lt_add_of_pos_right (by decide)).trans_le hk⟩, h.mapped⟩

theorem mapped_of_represented (h : Represented (loggedWindow (kernelWindow P p)) s bs hi) :
    ∀ virt ∈ s.mem.mem.vars, InHeap vmmPageTables virt := h.inv.1.mapped

theorem heapPage_of_represented (h : Represented (loggedWindow (kernelWindow P p)) s bs hi) :
    hi = heapPage s.mem.mem.vars.length :=
  (inHeap_inj h.acc (Nat.le_add_right ..) h.shape.started.le).symm

/-- A heap that stops growing has asked for addresses of its own only. -/
theorem kheapExpand_below (h : Represented (loggedWindow (kernelWindow P p)) s bs hi)
    (hroom : #(P.free p.mem.mem) ≤ 195775 ∨ hi + pages * pageSize ≤ vmmPageTables)
    (hr : (kheapExpand pages).run s = .error e s') :
    ∀ virt ∈ s'.mem.mem.vars, InHeap vmmPageTables virt := by
  obtain ⟨j, s₁, t, hj, ⟨⟨hinv, -⟩, hacc, -⟩, hback, rfl⟩ := h.expand_stop hr
  have hstarted := h.shape.started
  have hend : hi + j * pageSize = heapPage s₁.mem.mem.vars.length :=
    (inHeap_inj hacc (Nat.le_add_right ..) (by omega)).symm
  rw [backPage_unlogged, hend] at hback
  obtain ⟨m, hm, rfl⟩ := zoom_eq_error hback
  refine backPage_below hinv.1 (hroom.imp_right fun hlim ↦ ?_) hm
  have hmul := Nat.mul_le_mul_right pageSize (show j + 1 ≤ pages from hj)
  rw [Nat.succ_mul] at hmul
  rw [← hend]
  unfold pageSize at *
  omega

/-- There is another page, unless there is none. -/
theorem kheapExpand_one (h : Represented (loggedWindow (kernelWindow P p)) s bs hi)
    (hroom : #(P.free p.mem.mem) ≤ 195775 ∨ hi + pageSize ≤ vmmPageTables) :
    (∃ s₁, (kheapExpand 1).run s = .ok () s₁) ↔ ¬ NoPage P s := by
  have hbacked : HeapBacked P p.mem.cr3 (firstTable p) _ _ s.mem.mem := h.inv.1
  have hpage := heapPage_of_represented h
  have hend : s.vars.heapCurrentEnd = heapPage s.mem.mem.vars.length := by rw [h.vars, ← hpage]
  have htable : 0x400000 ∣ s.vars.heapCurrentEnd ↔ s.mem.mem.vars.length % 1024 = 0 := by
    rw [hend]
    unfold heapPage kheapStart
    omega
  rw [NoPage, htable, hbacked.backed.cr3]
  constructor
  · rintro ⟨s₁, hrun⟩ hnone
    obtain ⟨t, hback, -⟩ := kheapExpand_succ.mp hrun
    rw [backPage_unlogged, hend] at hback
    obtain ⟨m, hm, -⟩ := zoom_eq_ok hback
    obtain hfree | ⟨hone, hdir, hmod⟩ := hnone
    · cases (backPage_none hbacked hfree).symm.trans hm
    · obtain ⟨m', hfault, -⟩ := hbacked.grow_directory (hbacked.grow_ok hm).1 hmod hdir hone
      cases hfault.symm.trans hm
  · intro hsome
    obtain ⟨hfree, hone⟩ := not_or.mp hsome
    have hne := nonempty_iff_ne_empty.mpr hfree
    have hpos : 0 < #(freeFrames P s) := card_pos.mpr hne
    have hk : heapPage s.mem.mem.vars.length + 4096 ≤ vmmPageTables := by
      rw [hpage] at hroom
      exact hroom.elim (fun hfew ↦ HeapBacked.place_of_few hbacked hfew hne) id
    obtain ⟨m, hm, -⟩ := hbacked.grow hne hk fun hmod hdir ↦
      lt_of_le_of_ne hpos fun heq ↦ hone ⟨heq.symm, hdir, hmod⟩
    refine ⟨_, kheapExpand_succ.mpr ⟨⟨m, s.mem.stores⟩, ?_, rfl⟩⟩
    rw [backPage_unlogged, hend]
    exact zoom_ok hm

end Mapping

section Calls

theorem wellFormed_unique {bs' : List Block} (h : Represented (loggedWindow (kernelWindow P p)) s bs hi)
    (h' : WellFormed (G := loggedWindow (kernelWindow P p)) s bs') : bs' = bs := by
  have hwell := Run.Represented.wellFormed h
  exact tiles_unique h'.tiles hwell.tiles h'.list.2.data hwell.list.2.data

/-- Where the call may have to grow the heap, the pages come before the page tables. -/
theorem room_of_contained (h : Represented (loggedWindow (kernelWindow P p)) s bs hi)
    (hin : Contained P p s n) (hp : place (roundUp n) bs = none) :
    #(P.free p.mem.mem) ≤ 195775 ∨ hi + pagesNeeded (roundUp n) * pageSize ≤ vmmPageTables := by
  refine hin.imp_right fun hc ↦ hc.2.elim ?_ fun hlim ↦ ?_
  · rintro ⟨bs', hwell, b, hb, hfit⟩
    cases wellFormed_unique h hwell
    exact absurd hfit (place_eq_none.mp hp b hb)
  · rwa [h.vars] at hlim

/-- There is nothing left to give, and the call is for more than `kmalloc` can count. -/
theorem not_expands (h : Represented (loggedWindow (kernelWindow P p)) s bs hi) (hpage : NoPage P s)
    (s₁ : HeapState (Logged KernelMemory)) : (kheapExpand 1).run s ≠ .ok () s₁ := by
  intro hrun
  have hlim := (h.expand hrun).1
  rw [Nat.one_mul] at hlim
  exact (kheapExpand_one h (.inr hlim)).mp ⟨s₁, hrun⟩ hpage

theorem honours_iff (h : Represented (loggedWindow (kernelWindow P p)) s bs hi) (hn : 0 < n)
    (hlt : n < 4294967296) (hin : Contained P p s n) :
    Honours (kernelWindow P p) s n ↔ Manageable P p s n := by
  constructor
  · intro hon
    by_contra hm
    simp only [Manageable, not_or, not_and, not_le] at hm
    obtain ⟨hlo, hmid, hhi⟩ := hm
    by_cases hmul : n ≤ 0xFFFFFFF0
    · exact not_honours_of_noPages h hlo hmul hon
    · have hbig := hmid (not_le.mp hmul)
      refine not_honours_of_wrapped h hbig hlt ?_ hon
      by_cases hfree : NoFreeBlock (kernelWindow P p) s
      · have hpages : pagesNeeded (roundUp n) = 1 := by
          rw [roundUp_wraps hbig hlt]
          decide
        have hnone : place (roundUp n) bs = none := by
          rw [roundUp_wraps hbig hlt]
          exact (noFreeBlock_iff h).mp hfree
        have hroom := room_of_contained h hin hnone
        rw [hpages, Nat.one_mul] at hroom
        exact .inr ((kheapExpand_one h hroom).mpr fun hpage ↦ hhi hbig hpage hfree)
      · exact .inl hfree
  · rintro (hle | ⟨hlo, hhi⟩ | ⟨hlo, hpage, hfree⟩)
    · exact honours_of_validSize h ((validSize_iff hn hlt).mpr hle)
    · exact (stuck_of_endless h hlo hhi).honours
    · exact (stuck_of_exhausted h hlo hlt (not_expands h hpage) hfree).honours

/-- No call for a manageable size maps a page over the page tables, also where it does not come
back. -/
theorem kmalloc_below (h : Represented (loggedWindow (kernelWindow P p)) s bs hi) (hn : 0 < n)
    (hlt : n < 4294967296) (hin : Contained P p s n) (hm : Manageable P p s n) (fuel : ℕ) :
    ∀ virt ∈ (stateAfter (kmalloc fuel n) s).mem.mem.vars, InHeap vmmPageTables virt := by
  obtain hle | ⟨hlo, hhi⟩ | ⟨hlo, hpage, hfree⟩ := hm
  · have hvalid := (validSize_iff hn hlt).mpr hle
    cases hr : (kmalloc fuel n).run s with
    | ok q s' =>
      obtain ⟨bs', hi', -, hb⟩ := kmalloc_ok hvalid h hr
      rw [stateAfter_ok hr]
      exact mapped_of_represented hb.represented
    | error e s' =>
      rw [stateAfter_error hr]
      cases hp : place (roundUp n) bs with
      | some r =>
        rw [kmalloc_eq_search hn h] at hr
        rw [Outcomes.search_error_of_place h hvalid.add_lt hp hr]
        exact mapped_of_represented h
      | none =>
        obtain ⟨bs', hi', h'⟩ | hexp := Outcomes.kmalloc_error hvalid h hr
        · exact mapped_of_represented h'
        · exact kheapExpand_below h (room_of_contained h hin hp) hexp
  · have hstuck := stuck_of_endless h hlo hhi
    have hfew : #(P.free p.mem.mem) ≤ 195775 := hin.resolve_right fun hc ↦ by omega
    cases hr : (kmalloc fuel n).run s with
    | ok q s' => exact absurd hr (hstuck.never fuel q s')
    | error e s' =>
      rw [stateAfter_error hr]
      obtain ⟨t, bs', hi', ht, rfl | hexp⟩ := hstuck.stops fuel e s' hr
      · exact mapped_of_represented ht
      · exact kheapExpand_below ht (.inl hfew) hexp
  · obtain ⟨e, s', hr, rfl | hexp⟩ := kmalloc_exhausted h hlo hlt (not_expands h hpage) hfree fuel
    · rw [stateAfter_error hr]
      exact mapped_of_represented h
    · rw [stateAfter_error hr]
      have hnone := (noFreeBlock_iff h).mp hfree
      have hround := roundUp_wraps hlo hlt
      have hroom := room_of_contained h hin (by rwa [hround])
      rw [hround] at hroom
      exact kheapExpand_below h hroom hexp

end Calls

section Runs

/-- The manageable requests that are served are those without any wrapping. -/
theorem validSize_of_returns (h : Represented (loggedWindow (kernelWindow P p)) s bs hi) (hn : 0 < n)
    (hlt : n < 4294967296) (hm : Manageable P p s n) (hrun : (kmalloc fuel n).run s = .ok q s') :
    ValidSize n := by
  obtain hle | ⟨hlo, hhi⟩ | ⟨hlo, hpage, hfree⟩ := hm
  · exact (validSize_iff hn hlt).mpr hle
  · exact absurd hrun ((stuck_of_endless h hlo hhi).never _ _ _)
  · exact absurd hrun ((stuck_of_exhausted h hlo hlt (not_expands h hpage) hfree).never _ _ _)

theorem beforeCalls_inv (hb : Booted P p) :
    (loggedWindow (kernelWindow P p)).inv (beforeCalls p).mem :=
  loggedWindow_inv (G := kernelWindow P p) (heapBacked_of_started (started_of_booted hb)) rfl

theorem heapRun_represented (hb : Booted P p) (h : HeapRun (beforeCalls p) s live) :
    ∃ bs hi, Represented (loggedWindow (kernelWindow P p)) s bs hi := by
  obtain ⟨bs, hi, hrep, -⟩ := heapRun_inv (beforeCalls_inv hb) rfl rfl h
  exact ⟨bs, hi, hrep⟩

/-- While all requests are manageable, the run is one without any wrapping. -/
theorem heapRun_of_callRun (hb : Booted P p) (h : CallRun (beforeCalls p) s live calls)
    (hcalls : ∀ c ∈ calls, Manageable P p c.1 c.2) : HeapRun (beforeCalls p) s live := by
  induction h with
  | init hrun => exact .init hrun
  | alloc _ hn hlt hrun ih =>
    rw [List.forall_mem_cons] at hcalls
    have hheap := ih hcalls.2
    obtain ⟨bs, hi, hrep⟩ := heapRun_represented hb hheap
    exact .alloc hheap (validSize_of_returns hrep hn hlt hcalls.1 hrun) hrun
  | release _ hp hrun ih => exact .release (ih hcalls) hp hrun
  | store v _ hp ha ha' hrun ih => exact .store v (ih hcalls) hp ha ha' hrun

/-- In every run that made manageable requests only, the next request that does not take the heap
to the page tables is honoured exactly when it is manageable, too. A page at `VMM_PAGE_TABLES`
ends the run, so that the requests before were all contained. -/
theorem kmalloc_honours_iff (hb : Booted P p) {n : ℕ} (h : CallRun (beforeCalls p) s live calls)
    (hcalls : ∀ c ∈ calls, Manageable P p c.1 c.2) (hn : 0 < n) (hlt : n < 4294967296)
    (hin : Contained P p s n) :
    (Honours (kernelWindow P p) s n ↔ Manageable P p s n) ∧
      (Manageable P p s n → ∀ fuel, ∀ virt ∈ (stateAfter (kmalloc fuel n) s).mem.mem.vars,
        InHeap vmmPageTables virt) := by
  obtain ⟨bs, hi, hrep⟩ := heapRun_represented hb (heapRun_of_callRun hb h hcalls)
  exact ⟨honours_iff hrep hn hlt hin, kmalloc_below hrep hn hlt hin⟩

end Runs

section Modest

/-- `kheap_init` does the same when its stores are logged. -/
theorem kheapInit_logged (hb : Booted P p) (hmany : 513 < #(P.free p.mem.mem)) :
    ∃ s, kheapInit.run (beforeCalls p) = .ok () s ∧
      Represented (loggedWindow (kernelWindow P p)) s [initialBlock] (kheapStart + kheapInitialSize) := by
  have hstart := heapBacked_of_started (started_of_booted hb)
  have htables : 512 + heapTables 512 = 513 := by decide
  obtain ⟨s₁, hexp⟩ := kheapExpand_many (s := beforeHeap p) (K := 512) hstart (by omega) (by decide) rfl
    (show kheapStart + kheapInitialSize / pageSize * pageSize ≤ heapPage 512 by decide)
  exact kheapInit_of_expand (beforeCalls_inv hb) rfl rfl (kheapExpand_logged hexp [])

/-- The block that is there first serves a request for 100 bytes, and the rest of it is free still. -/
theorem kmalloc_first (h : Represented (loggedWindow (kernelWindow P p)) s [initialBlock]
    (kheapStart + kheapInitialSize)) : ∃ q s' bs, (kmalloc 1 100).run s = .ok q s' ∧
      Represented (loggedWindow (kernelWindow P p)) s' bs (kheapStart + kheapInitialSize) ∧
      ∃ b ∈ bs, b.free = true := by
  have hvalid : ValidSize 100 := ⟨by decide, by decide, by decide⟩
  have hp : place (roundUp 100) [initialBlock] =
      some (kheapStart + heapNodeSize, carve (roundUp 100) initialBlock ++ []) := rfl
  obtain ⟨s', hrun, hb⟩ := kmalloc_placed hvalid h hp (show [initialBlock].length ≤ 1 from le_rfl)
  exact ⟨_, s', _, hrun, hb.represented, ⟨kheapStart + 120, 0x1FFF78, true⟩, by decide, rfl⟩

/-- On a PC with 128 MiB, after a request for 100 bytes: 4 MiB are honoured, and almost 4 GiB are not. -/
theorem kmalloc_honours_iff_modestPc : ∃ p s s' q, Booted modestPlatform p ∧
    CallRun (beforeCalls p) s' [(q, 100)] [(s, 100)] ∧
    Honours (kernelWindow modestPlatform p) s' 0x400000 ∧
    ¬ Honours (kernelWindow modestPlatform p) s' 0xFFFFFFF9 := by
  obtain ⟨p, hb, hsparse, hmany⟩ := exists_booted_modestPc
  obtain ⟨s, hinit, hrep⟩ := kheapInit_logged hb (by omega)
  obtain ⟨q, s', bs, hrun, hrep', b, hmem, hfree⟩ := kmalloc_first hrep
  have hcalls : CallRun (beforeCalls p) s' [(q, 100)] [(s, 100)] :=
    .alloc (.init hinit) (by decide) (by decide) hrun
  have hmanageable : ∀ c ∈ [(s, 100)], Manageable modestPlatform p c.1 c.2 :=
    List.forall_mem_singleton.mpr (.inl (show 100 ≤ 0xFFFFEFF0 by decide))
  have hin (n : ℕ) : Contained modestPlatform p s' n := .inl hsparse.few
  refine ⟨p, s, s', q, hb, hcalls, ?_, fun hon ↦ ?_⟩
  · exact (kmalloc_honours_iff hb hcalls hmanageable (by decide) (by decide) (hin 0x400000)).1.mpr
      (.inl (by decide))
  · have hm := (kmalloc_honours_iff hb hcalls hmanageable (by decide) (by decide) (hin 0xFFFFFFF9)).1.mp hon
    obtain hle | ⟨-, hle⟩ | ⟨-, -, bs', hwell, hused⟩ := hm
    · omega
    · omega
    · cases wellFormed_unique hrep' hwell
      exact Bool.false_ne_true ((hused b hmem).symm.trans hfree)

/-- The first request after `kheap_init` is for almost 4 GiB, and is handed a block of 0 bytes. -/
theorem kmalloc_undersized : ∃ p s s', Booted modestPlatform p ∧ CallRun (beforeCalls p) s [] [] ∧
    (kmalloc 1 0xFFFFFFF9).run s = .ok (kheapStart + heapNodeSize) s' ∧
    (nodeAt (heapByte s'.mem.mem) kheapStart).size = 0 ∧
    ¬ Honours (kernelWindow modestPlatform p) s 0xFFFFFFF9 := by
  obtain ⟨p, hb, -, hmany⟩ := exists_booted_modestPc
  obtain ⟨s, hinit, hrep⟩ := kheapInit_logged hb (by omega)
  have hp : place 0 [initialBlock] = some (kheapStart + heapNodeSize, carve 0 initialBlock ++ []) :=
    rfl
  obtain ⟨m', hreturns, hr, -⟩ := search_returns (loggedWindow (kernelWindow modestPlatform p)).toWindow
    (e := ⟨kheapStart, kheapStart + kheapInitialSize⟩) hrep.laid hrep.blocks (by decide) hp
    (show [initialBlock].length ≤ 1 from le_rfl)
  obtain ⟨s', hrun, hs'⟩ := hreturns s hrep.sees
  have hview : heapByte s'.mem.mem = m' := hs'.2.2
  have hzero : (nodeAt (heapByte s'.mem.mem) kheapStart).size = 0 := by
    rw [hview]
    exact (hr.data ⟨kheapStart, 0, false⟩ List.mem_cons_self).1
  rw [← roundUp_wraps (n := 0xFFFFFFF9) (by decide) (by decide),
    ← kmalloc_eq_search (by decide) hrep] at hrun
  refine ⟨p, s, s', hb, .init hinit, hrun, hzero, not_honours_of_small (by decide) hrun (by decide) ?_⟩
  have hnode : (nodeAt (heapByte s'.mem.mem) (kheapStart + heapNodeSize - heapNodeSize)).size = 0 := hzero
  exact hnode.symm ▸ (by decide)

end Modest

end KevOS.Memory.Requests
