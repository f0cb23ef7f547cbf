import KevOS.Heap.Growth
import KevOS.Memory.Backing
import KevOS.Vmm.Windows

namespace KevOS.Memory.HeapWindow

open Lib.Program Lib.ByteMemory Lib.Paging Machine Pmm Pmm.Init Vmm MapPage Vmm.Windows Heap Growth
open Mapped Frames Backing Finset

variable {P : Platform} {s s' : KernelMemory} {m m₀ : Bytes} {dir table total k n held a hi : ℕ}

instance : Decidable (InHeap hi a) := inferInstanceAs (Decidable (_ ∧ _))

section Addresses

/-- An address of the heap lies in one of its pages. -/
theorem Pages.translate_inHeap (h : Pages m dir table k n) (ha : InHeap (heapPage k) a) :
    ∃ j < k, ∃ f, a / 4096 = heapPage j / 4096 ∧ 4096 ∣ f ∧
      Lib.Paging.translate m dir (heapPage j) = some f ∧
      Lib.Paging.translate m dir a = some (f + a % 4096) := by
  obtain ⟨hlo, hhi⟩ := ha
  obtain ⟨j, hj, hpage⟩ : ∃ j < k, a = heapPage j + a % 4096 := by
    refine ⟨(a - kheapStart) / 4096, ?_, ?_⟩
    · unfold heapPage kheapStart at *
      omega
    · unfold heapPage kheapStart at *
      omega
  obtain ⟨e, he, -⟩ := h.pages j hj
  have htr : Lib.Paging.translate m dir (heapPage j) = some (frameOf e.2) := by
    rw [translate_heapPage, he]
    rfl
  have hmod := heapPage_mod j
  refine ⟨j, hj, frameOf e.2, by omega, frameOf_dvd _, htr, ?_⟩
  have hadd := translate_add (k := a % 4096) htr (by omega)
  rwa [← hpage] at hadd

/-- Two bytes of the heap are two bytes of memory. -/
theorem Pages.translate_inj (h : Pages m dir table k n) {b p : ℕ} (ha : InHeap (heapPage k) a)
    (hb : InHeap (heapPage k) b) (hp : Lib.Paging.translate m dir a = some p)
    (hq : Lib.Paging.translate m dir b = some p) : a = b := by
  obtain ⟨i, hi, f, hai, hf, hfi, hta⟩ := Pages.translate_inHeap h ha
  obtain ⟨j, hj, g, hbj, hg, hgj, htb⟩ := Pages.translate_inHeap h hb
  have hpf := Option.some.inj (hta.symm.trans hp)
  have hqg := Option.some.inj (htb.symm.trans hq)
  have hfg : f = g := by omega
  have hij : i = j := h.distinct i hi j hj (by rw [hfi, hgj, hfg])
  subst hij
  omega

/-- Nor is it a byte of a table, or of the bitmap. -/
theorem Backed.heap_apart {t : Paged} (h : Backed P dir table total k n held t) {p : ℕ}
    (ha : InHeap (heapPage k) a) (hp : Lib.Paging.translate t.mem.mem dir a = some p) :
    ¬ P.InBitmap p ∧ ¬ InTables t.mem.mem dir p := by
  obtain ⟨j, hj, f, -, hf, hfj, hta⟩ := Pages.translate_inHeap h.pages ha
  obtain rfl := Option.some.inj (hta.symm.trans hp)
  obtain ⟨hdir, hslots⟩ := h.pages.apart j hj f hfj
  have haligned := h.pages.hierarchy.aligned
  refine ⟨h.not_inBitmap (.inr (.inr ⟨j, hj, hfj⟩)) (by omega) (by omega), ?_⟩
  rintro (hin | ⟨d, hd, hpd, hin⟩)
  · omega
  · have hne := hslots d hd hpd
    have hfd := frameOf_dvd (entry t.mem.mem dir d)
    omega

end Addresses

/-- A page of the heap has been mapped by every call, and the tables that `m₀` has in its
directory are still there. -/
structure HeapBacked (P : Platform) (dir table total : ℕ) (m₀ : Bytes) (s : KernelMemory) :
    Prop where
  backed : Backed P dir table total s.vars.length (heapTables s.vars.length)
    (s.vars.length + heapTables s.vars.length) s.mem
  mapped : ∀ virt ∈ s.vars, InHeap vmmPageTables virt
  directory : ∀ d < 1024, Present (entry m₀ dir d) → entry s.mem.mem.mem dir d = entry m₀ dir d

/-- The byte at an address of the heap, as far as the heap goes. -/
def heapByte (s : KernelMemory) : Bytes :=
  byteAt s.mem.mem.mem s.mem.mem.cr3 (InHeap (heapPage s.vars.length)) s.mem.mem.mem

section Accesses

/-- The addresses of the heap do not lead to the tables, or to the bitmap. -/
theorem Backed.steady {t : Paged} (h : Backed P dir table total k n held t) :
    Steady t.mem.mem dir (InHeap (heapPage k))
      fun q ↦ P.InBitmap q ∨ InTables t.mem.mem dir q where
  lt a ha := ha.2.trans_le (h.pages.bounded.trans (by decide))
  congr m hm a ha := by
    have hd : dirIndex a < 1023 := by
      have hbound := ha.2.trans_le h.pages.bounded
      unfold dirIndex
      unfold vmmPageTables at hbound
      omega
    exact translate_congr (walk_of_sameTables (fun q hq ↦ hm q (.inr hq)) hd)
  apart a ha := by
    obtain ⟨j, -, f, -, -, -, htr⟩ := Pages.translate_inHeap h.pages ha
    obtain ⟨hbitmap, htables⟩ := Backed.heap_apart h ha htr
    exact ⟨_, htr, fun hin ↦ hin.elim hbitmap htables⟩
  inj a b p ha hb hp hq := Pages.translate_inj h.pages ha hb hp hq

theorem HeapBacked.load8 (h : HeapBacked P dir table total m₀ s)
    (ha : InHeap (heapPage s.vars.length) a) : (load8 a).run s = .ok (heapByte s a) s := by
  have hb := h.backed
  obtain rfl := hb.cr3
  exact (Kernel.window (Kernel.window (steadyWindow (Backed.steady hb)) s.mem.vars) s.vars).load8_eq
    ⟨⟨⟨rfl, fun _ _ ↦ rfl⟩, rfl⟩, rfl⟩ ha

/-- The byte at an address of the heap may be changed, and no other changes with it. -/
theorem HeapBacked.store8 (h : HeapBacked P dir table total m₀ s) (v : UInt8)
    (ha : InHeap (heapPage s.vars.length) a) :
    ∃ s', (store8 a v).run s = .ok () s' ∧ HeapBacked P dir table total m₀ s' ∧
      s'.vars = s.vars ∧ heapByte s' = Function.update (heapByte s) a v := by
  have hb := h.backed
  obtain rfl := hb.cr3
  have hsteady := Backed.steady hb
  obtain ⟨⟨⟨⟨m, cr3⟩, e⟩, l⟩, hrun, ⟨⟨⟨rfl, hsame⟩, rfl⟩, rfl⟩, -, hview⟩ :=
    (Kernel.window (Kernel.window (steadyWindow hsteady) s.mem.vars) s.vars).store8_ok v
      ⟨⟨⟨rfl, fun _ _ ↦ rfl⟩, rfl⟩, rfl⟩ ha
  refine ⟨_, hrun, ⟨hb.congr hsame, h.mapped, fun d hd hp ↦ ?_⟩, rfl, ?_⟩
  · rw [← h.directory d hd hp]
    exact entry_of_sameTables (fun q hq ↦ hsame q (.inr hq)) hd
  · have hsame' : heapByte ⟨⟨⟨m, s.mem.mem.cr3⟩, s.mem.vars⟩, s.vars⟩ =
        byteAt s.mem.mem.mem s.mem.mem.cr3 (InHeap (heapPage s.vars.length)) m :=
      byteAt_congr fun b hb ↦ hsteady.congr m hsame b hb
    exact hsame'.trans hview

end Accesses

section Growing

variable {s₁ t : Paged} {f phys virt flags : ℕ}

theorem unreserved_zero : P.Unreserved 0 := by
  have hstart := P.img.start_le
  have hphys := physEnd_eq P.img
  unfold Platform.Unreserved Reserved kernelStartBlock pageSize
  rw [physStart_eq]
  omega

theorem mapHeapPage_beyond (h : vmmPageTables < virt + pageSize) :
    (mapHeapPage phys virt flags).run s = .error .halt { s with vars := virt :: s.vars } := by
  rw [mapHeapPage, run_modify_bind, if_neg (by omega)]
  rfl

theorem mapHeapPage_ok (hle : virt + pageSize ≤ vmmPageTables)
    (hr : (vmmMapPage phys virt flags).run s.mem = .ok () t) :
    (mapHeapPage phys virt flags).run s = .ok () ⟨t, virt :: s.vars⟩ := by
  rw [mapHeapPage, run_modify_bind, if_pos hle]
  exact onMem_ok (s := ⟨s.mem, virt :: s.vars⟩) hr

theorem mapHeapPage_error {e : Stop} (hle : virt + pageSize ≤ vmmPageTables)
    (hr : (vmmMapPage phys virt flags).run s.mem = .error e t) :
    (mapHeapPage phys virt flags).run s = .error e ⟨t, virt :: s.vars⟩ := by
  rw [mapHeapPage, run_modify_bind, if_pos hle]
  exact onMem_error (s := ⟨s.mem, virt :: s.vars⟩) hr

theorem backPage_none (h : HeapBacked P dir table total m₀ s)
    (hfree : P.free s.mem.mem.mem = ∅) : (backPage virt).run s = .error .halt s := by
  have halloc : (allocPage : Prog KernelMemory ℕ).run s = .ok 0 s :=
    onMem_ok (h.backed.alloc_none hfree)
  rw [backPage, run_bind_ok halloc]
  rfl

theorem backPage_some (ht : Took P dir table total k n held s.mem f s₁) :
    (backPage virt).run s = (mapHeapPage f virt 7).run { s with mem := s₁ } := by
  have halloc : (allocPage : Prog KernelMemory ℕ).run s = .ok f { s with mem := s₁ } :=
    onMem_ok ht.run
  rw [backPage, run_bind_ok halloc, if_neg ht.pos]
  rfl

variable {q : Paged}

/-- Frame 0 is nobody's, if the directory is not in it. -/
theorem spare_zero (h : Backed P dir table total k n held q)
    (ht : Took P dir table total k n held q f s₁) (hdir : dir ≠ 0) : Spare P s₁.mem.mem dir k 0 := by
  refine ⟨Nat.dvd_zero _, by decide, fun ho ↦ ?_, ht.backed.zero, unreserved_zero⟩
  have htables (a : ℕ) (ha : InTables q.mem.mem dir a) : s₁.mem.mem a = q.mem.mem a :=
    ht.outside a (h.not_inBitmap_of_inTables ha)
  rcases h.owned_zero (Owned.congr h.pages.bounded htables ho) with h0 | hempty
  · exact hdir h0
  · have hin := ht.was_free
    rw [hempty] at hin
    exact notMem_empty _ hin

/-- Mapping the next page, when there is a frame for its table, too. Frame 0 will do, unless
the directory is in it. -/
theorem mapPage_took (h : Backed P dir table total k (heapTables k) held q)
    (ht : Took P dir table total k (heapTables k) held q f s₁)
    (hk : heapPage k + 4096 ≤ vmmPageTables)
    (hroom : k % 1024 = 0 → dir = 0 → (P.free s₁.mem.mem).Nonempty) :
    ∃ s', (vmmMapPage f (heapPage k) 7).run s₁ = .ok () s' ∧
      Backed P dir table total (k + 1) (heapTables (k + 1)) (held + 1 + (heapTables (k + 1) - heapTables k))
        s' ∧ Extends dir k q.mem.mem s'.mem.mem := by
  have hext := extends_of_took h ht
  by_cases hmod : k % 1024 = 0
  · obtain ⟨-, htables⟩ := heapTables_of_dvd hmod
    rw [htables, Nat.add_sub_cancel_left, ← htables]
    by_cases hfree : P.free s₁.mem.mem = ∅
    · have hdir : dir ≠ 0 := fun h0 ↦ (hroom hmod h0).ne_empty hfree
      have hcount : held + 1 = total := by
        have hcard := card_erase_add_one ht.was_free
        rw [← ht.free_eq, hfree, card_empty] at hcard
        rcases h.count with hc | ⟨hempty, -⟩
        · omega
        · rw [hempty] at hcard
          cases hcard
      have hzero := spare_zero h ht hdir
      obtain ⟨s', hrun, hs', hext'⟩ := mapPage_across ht.backed hk hmod
        (ht.backed.alloc_none hfree) (ht.backed.overdraw hfree hcount) (Extends.refl ..) hzero
        (fun _ ↦ hfree) ht.spare ht.pos ht.pos
      exact ⟨s', hrun, hs', hext.trans hext'⟩
    · obtain ⟨t, s₂, ht'⟩ := ht.backed.alloc (nonempty_iff_ne_empty.mpr hfree)
      have htables (a : ℕ) (ha : InTables s₁.mem.mem dir a) : s₂.mem.mem a = s₁.mem.mem a :=
        ht'.outside a (ht.backed.not_inBitmap_of_inTables ha)
      have hspare : Spare P s₂.mem.mem dir k f := by
        refine ⟨ht.spare.aligned, ht.spare.lt, fun ho ↦
          ht.spare.fresh (Owned.congr ht.backed.pages.bounded htables ho), ?_, ht.spare.unreserved⟩
        rw [ht'.free_eq]
        exact fun hin ↦ ht.spare.taken (mem_of_mem_erase hin)
      have hne : f ≠ t := fun heq ↦ ht.spare.taken (heq ▸ ht'.was_free)
      obtain ⟨s', hrun, hs', hext'⟩ := mapPage_across ht.backed hk hmod ht'.run ht'.backed
        (extends_of_took ht.backed ht') ht'.spare (fun h0 ↦ absurd h0 ht'.pos) hspare ht.pos hne
      exact ⟨s', hrun, hs', hext.trans hext'⟩
  · obtain ⟨-, htables⟩ := heapTables_of_not_dvd hmod
    obtain ⟨s', hrun, hs', hext'⟩ := mapPage_inside ht.backed hk hmod ht.spare ht.pos
    rw [Nat.sub_eq_zero_of_le htables.le, Nat.add_zero]
    exact ⟨s', hrun, hs', hext.trans hext'⟩

/-- Without one, the directory itself is emptied. -/
theorem mapPage_directory (h : Backed P dir table total k (heapTables k) held q)
    (hk : heapPage k + 4096 ≤ vmmPageTables) (hmod : k % 1024 = 0) (hdir : dir = 0)
    (hfree : P.free q.mem.mem = ∅) : ∃ s', (vmmMapPage f (heapPage k) 7).run q = .error .fault s' ∧
      entry s'.mem.mem dir 0 = 0 := by
  obtain ⟨hslot, -⟩ := heapTables_of_dvd hmod
  have hd := dirIndex_next_lt hk
  have hp := h.not_present_next hslot hd
  have halloc := h.alloc_none hfree
  obtain rfl := h.cr3
  refine ⟨_, vmmMapPage_directory h.pages.hierarchy hd hp (hdir ▸ halloc) h.pages.hierarchy
    (hdir ▸ by decide), ?_⟩
  exact word_fill_zero (by omega) (by omega)

theorem heapTables_le_succ (k : ℕ) : heapTables k ≤ heapTables (k + 1) := by
  unfold heapTables
  omega

section Outcomes

variable (h : HeapBacked P dir table total m₀ s)
include h

theorem HeapBacked.took (hfree : (P.free s.mem.mem.mem).Nonempty) :
    ∃ f s₁, Took P dir table total s.vars.length (heapTables s.vars.length)
      (s.vars.length + heapTables s.vars.length) s.mem f s₁ ∧
      #(P.free s₁.mem.mem) + 1 = #(P.free s.mem.mem.mem) := by
  obtain ⟨f, s₁, ht⟩ := h.backed.alloc hfree
  refine ⟨f, s₁, ht, ?_⟩
  rw [ht.free_eq]
  exact card_erase_add_one ht.was_free

/-- The heap grows by a page, while there is room for one, with its table. -/
theorem HeapBacked.grow (hfree : (P.free s.mem.mem.mem).Nonempty)
    (hk : heapPage s.vars.length + 4096 ≤ vmmPageTables)
    (hroom : s.vars.length % 1024 = 0 → dir = 0 → 1 < #(P.free s.mem.mem.mem)) :
    ∃ s', (backPage (heapPage s.vars.length)).run s = .ok () s' ∧
      HeapBacked P dir table total m₀ s' ∧ s'.vars = heapPage s.vars.length :: s.vars ∧
      Extends dir s.vars.length s.mem.mem.mem s'.mem.mem.mem := by
  obtain ⟨f, s₁, ht, hcard⟩ := h.took hfree
  obtain ⟨q, hrun, hq, hext⟩ := mapPage_took h.backed ht hk fun hmod hdir ↦ by
    have hone := hroom hmod hdir
    exact card_pos.mp (by omega)
  have hle := heapTables_le_succ s.vars.length
  rw [show s.vars.length + heapTables s.vars.length + 1 + (heapTables (s.vars.length + 1) -
    heapTables s.vars.length) = s.vars.length + 1 + heapTables (s.vars.length + 1) by omega] at hq
  refine ⟨⟨q, heapPage s.vars.length :: s.vars⟩, ?_, ⟨hq, ?_, fun d hd hp ↦ ?_⟩, rfl, hext⟩
  · rw [backPage_some ht]
    exact mapHeapPage_ok (s := { s with mem := s₁ }) hk hrun
  · exact List.forall_mem_cons.mpr
      ⟨⟨Nat.le_add_right .., (Nat.lt_add_of_pos_right (by decide)).trans_le hk⟩, h.mapped⟩
  · have hold := h.directory d hd hp
    rw [← hold] at hp ⊢
    exact hext.entries d hd hp

/-- The first page of a table takes the last page there is, and the directory is in frame 0. -/
theorem HeapBacked.grow_directory (hk : heapPage s.vars.length + 4096 ≤ vmmPageTables)
    (hmod : s.vars.length % 1024 = 0) (hdir : dir = 0) (hcard : #(P.free s.mem.mem.mem) = 1) :
    ∃ s', (backPage (heapPage s.vars.length)).run s = .error .fault s' ∧
      entry s'.mem.mem.mem dir 0 = 0 := by
  obtain ⟨f, s₁, ht, hcard₁⟩ := h.took (card_pos.mp (by omega))
  obtain ⟨q, hrun, hzero⟩ := mapPage_directory (f := f) ht.backed hk hmod hdir
    (card_eq_zero.mp (by omega))
  exact ⟨_, (backPage_some ht).trans (mapHeapPage_error (s := { s with mem := s₁ }) hk hrun), hzero⟩

/-- Whenever the heap grows, the page is backed like those before it. -/
theorem HeapBacked.grow_ok {s' : KernelMemory}
    (hr : (backPage (heapPage s.vars.length)).run s = .ok () s') :
    heapPage s.vars.length + 4096 ≤ vmmPageTables ∧ HeapBacked P dir table total m₀ s' ∧
      s'.vars = heapPage s.vars.length :: s.vars ∧
      Extends dir s.vars.length s.mem.mem.mem s'.mem.mem.mem := by
  have hfree : (P.free s.mem.mem.mem).Nonempty := by
    rw [nonempty_iff_ne_empty]
    intro hempty
    cases (backPage_none h hempty).symm.trans hr
  have hk : heapPage s.vars.length + 4096 ≤ vmmPageTables := by
    by_contra hbeyond
    obtain ⟨f, s₁, ht, -⟩ := h.took hfree
    rw [backPage_some ht, mapHeapPage_beyond (s := { s with mem := s₁ }) (not_le.mp hbeyond)] at hr
    cases hr
  have hroom (hmod : s.vars.length % 1024 = 0) (hdir : dir = 0) : 1 < #(P.free s.mem.mem.mem) := by
    by_contra hone
    have hpos := card_pos.mpr hfree
    obtain ⟨s'', hfault, -⟩ := h.grow_directory hk hmod hdir (by omega)
    cases hfault.symm.trans hr
  obtain ⟨s'', hrun, hs'', hvars, hext⟩ := h.grow hfree hk hroom
  cases hrun.symm.trans hr
  exact ⟨hk, hs'', hvars, hext⟩

end Outcomes

/-- While the heap grows, its bytes stay. -/
theorem heapByte_extends {s' : KernelMemory} (h : HeapBacked P dir table total m₀ s)
    (h' : HeapBacked P dir table total m₀ s') (hvars : s'.vars.length = s.vars.length + 1)
    (hext : Extends dir s.vars.length s.mem.mem.mem s'.mem.mem.mem)
    (ha : InHeap (heapPage s.vars.length) a) : heapByte s' a = heapByte s a := by
  obtain ⟨j, hj, f, hpage, hf, hfj, htr⟩ := Pages.translate_inHeap h.backed.pages ha
  have hmod := heapPage_mod j
  have htr' : Lib.Paging.translate s'.mem.mem.mem dir a = some (f + a % 4096) := by
    have hadd := translate_add (k := a % 4096) ((hext.pages j hj).trans hfj) (by omega)
    rwa [show heapPage j + a % 4096 = a by omega] at hadd
  have ha' : InHeap (heapPage s'.vars.length) a := by
    rw [hvars, heapPage_succ]
    exact ⟨ha.1, ha.2.trans (Nat.lt_add_of_pos_right (by decide))⟩
  rw [← h.backed.cr3] at htr
  rw [← h'.backed.cr3] at htr'
  rw [heapByte, heapByte, byteAt_of_translate ha htr, byteAt_of_translate ha' htr']
  exact hext.contents j hj f hfj _ (by omega) (by omega)

/-- The heap of the kernel, as its calls see it. -/
def heapWindow (P : Platform) (dir table total : ℕ) (m₀ : Bytes) : GrowWindow KernelMemory where
  inv s := HeapBacked P dir table total m₀ s
  acc s := InHeap (heapPage s.vars.length)
  view s := heapByte s
  load8_eq h ha := h.load8 ha
  store8_ok v h ha := by
    obtain ⟨s', hrun, hs', hvars, hbytes⟩ := h.store8 v ha
    exact ⟨s', hrun, hs', by rw [hvars], hbytes⟩
  grow_ok {s s' hi} h hacc hlo _ hr := by
    obtain rfl := inHeap_inj hacc (Nat.le_add_right ..) hlo
    obtain ⟨hk, h', hvars, hext⟩ := h.grow_ok hr
    have hlen : s'.vars.length = s.vars.length + 1 := by rw [hvars, List.length_cons]
    refine ⟨hk, h', ?_, fun a ha ↦ heapByte_extends h h' hlen hext ha⟩
    rw [hlen, heapPage_succ]

end Growing

end KevOS.Memory.HeapWindow
