import KevOS.Heap.Headers
import KevOS.Memory.FullHeap

namespace KevOS.Memory.Overwritten

open Lib.Program Lib.ByteMemory Lib.Paging Lib.Tiling Machine Pmm Vmm Vmm.Init Vmm.Windows Heap
open Nodes Blocks HeapList Headers Growth Mapped Frames Backing HeapWindow HeapRuns FullHeap Finset

variable {P : Platform} {t : Paged} {m : Bytes} {dir table total n held a i d : ℕ}

section Tables

/-- The recursive slot leads to the table of slot `d` as long as the directory is the same. -/
theorem translate_header {m₀ : Bytes} (h : Hierarchy Shared m₀ dir)
    (hm : ∀ q, InPage dir q → m q = m₀ q) (hd : d < 1024) (hp : Present (entry m₀ dir d))
    (hi : i < 4096) : Lib.Paging.translate m dir (tableAddr d 0 + i) =
      some (frameOf (entry m₀ dir d) + i) := by
  have hsame {c : ℕ} (hc : c < 1024) : entry m dir c = entry m₀ dir c :=
    entry_congr (fun q hlo hhi ↦ hm q ⟨hlo, hhi⟩) hc
  have htr := (h.congr fun _ ↦ hsame).translate_tableAddr hd ((hsame hd).symm ▸ hp) (i := 0) (by decide)
  have hmod : tableAddr d 0 % 4096 = 4 * 0 := tableAddr_mod (by decide)
  rw [hsame hd, Nat.mul_zero, Nat.add_zero] at htr
  exact translate_add htr (by omega)

variable (h : Backed P dir table total 195584 n held t)
include h

theorem Backed.frame_apart (hd : d < 1023) (hp : Present (entry t.mem.mem dir d)) (hi : i < 4096) :
    ¬ P.InBitmap (frameOf (entry t.mem.mem dir d) + i) ∧
      ¬ InPage dir (frameOf (entry t.mem.mem dir d) + i) := by
  have hne := h.pages.hierarchy.apart d hd hp
  have haligned := h.pages.hierarchy.aligned
  have hdvd := frameOf_dvd (entry t.mem.mem dir d)
  refine ⟨h.not_inBitmap (.inr (.inl ⟨d, hd, hp, rfl⟩)) (by omega) (by omega), ?_⟩
  unfold InPage
  omega

/-- The tables by which the heap is reached. -/
def InHeapTables (m : Bytes) (dir q : ℕ) : Prop :=
  ∃ d < 1023, 832 ≤ d ∧ Present (entry m dir d) ∧ InPage (frameOf (entry m dir d)) q

/-- A full heap, and a header behind it: there lie the first entries of the table for the
first 4 MiB. -/
theorem Backed.steady_heap : Steady t.mem.mem dir (InHeap (vmmPageTables + 16))
    fun q ↦ P.InBitmap q ∨ InPage dir q ∨ InHeapTables t.mem.mem dir q := by
  have hsteady := HeapWindow.Backed.steady h
  have hpages := h.pages
  have hid := hpages.identity
  have hend : heapPage 195584 = vmmPageTables := by decide
  rw [hend] at hsteady
  have hsplit {a : ℕ} (ha : InHeap (vmmPageTables + 16) a) :
      InHeap vmmPageTables a ∨ ∃ i < 16, a = tableAddr 0 0 + i := by
    obtain ⟨hlo, hhi⟩ := ha
    by_cases hlt : a < vmmPageTables
    · exact .inl ⟨hlo, hlt⟩
    · exact .inr ⟨a - vmmPageTables, by omega, (Nat.add_sub_of_le (not_lt.mp hlt)).symm⟩
  have hheader {m : Bytes} (hm : ∀ q, InPage dir q → m q = t.mem.mem q) {i : ℕ} (hi : i < 16) :
      Lib.Paging.translate m dir (tableAddr 0 0 + i) = some (table + i) := by
    have htr := translate_header hpages.hierarchy hm (by decide) hid.slot_present (i := i) (by omega)
    rwa [hid.slot_frame] at htr
  have htables {q : ℕ} (hq : P.InBitmap q ∨ InPage dir q ∨ InHeapTables t.mem.mem dir q) :
      P.InBitmap q ∨ InTables t.mem.mem dir q := by
    rcases hq with hq | hq | ⟨d, hd, -, hp, hin⟩
    · exact .inl hq
    · exact .inr (.inl hq)
    · exact .inr (.inr ⟨d, hd, hp, hin⟩)
  have hshared {i : ℕ} (hi : i < 16) : InTables t.mem.mem dir (table + i) := by
    refine .inr ⟨0, by decide, hid.slot_present, ?_⟩
    rw [hid.slot_frame]
    omega
  refine ⟨fun a ha ↦ ha.2.trans (by decide), fun m hm a ha ↦ ?_, fun a ha ↦ ?_,
    fun a b p ha hb hap hbp ↦ ?_⟩
  · rcases hsplit ha with ⟨hlo, hhi⟩ | ⟨i, hi, rfl⟩
    · have hd : dirIndex a < 1023 ∧ 832 ≤ dirIndex a := by
        unfold dirIndex
        unfold kheapStart at hlo
        unfold vmmPageTables at hhi
        omega
      refine translate_congr (walk_congr ?_ fun hp ↦ ?_)
      · exact entry_congr (fun q hq hq' ↦ hm q (.inr (.inl ⟨hq, hq'⟩))) (by omega)
      · exact entry_congr (fun q hq hq' ↦ hm q (.inr (.inr ⟨_, hd.1, hd.2, hp, hq, hq'⟩)))
          (tableIndex_lt a)
    · rw [hheader (fun q hq ↦ hm q (.inr (.inl hq))) hi, hheader (fun _ _ ↦ rfl) hi]
  · rcases hsplit ha with ha | ⟨i, hi, rfl⟩
    · obtain ⟨p, hp, hout⟩ := hsteady.apart a ha
      exact ⟨p, hp, fun hin ↦ hout (htables hin)⟩
    · refine ⟨_, hheader (fun _ _ ↦ rfl) hi, ?_⟩
      have hapart := Backed.frame_apart h (i := i) (by decide) hid.slot_present (by omega)
      rw [hid.slot_frame] at hapart
      rintro (hin | hin | ⟨d, hd, hlo, hp, hin⟩)
      · exact hapart.1 hin
      · exact hapart.2 hin
      · have hdvd := frameOf_dvd (entry t.mem.mem dir d)
        have hdvd' : 4096 ∣ table := hid.slot_frame ▸ frameOf_dvd _
        unfold InPage at hin
        have heq : frameOf (entry t.mem.mem dir 0) = frameOf (entry t.mem.mem dir d) := by
          rw [hid.slot_frame]
          omega
        rcases hpages.hierarchy.distinct 0 (by decide) d hd hid.slot_present hp heq with h0 | ⟨-, hs⟩
        · omega
        · unfold Shared at hs
          omega
  · rcases hsplit ha with ha | ⟨i, hi, rfl⟩ <;> rcases hsplit hb with hb | ⟨j, hj, rfl⟩
    · exact hsteady.inj a b p ha hb hap hbp
    · obtain ⟨q, hq, hout⟩ := hsteady.apart a ha
      cases hq.symm.trans hap
      cases (hheader (fun _ _ ↦ rfl) hj).symm.trans hbp
      exact absurd (.inr (hshared hj)) hout
    · obtain ⟨q, hq, hout⟩ := hsteady.apart b hb
      cases hq.symm.trans hbp
      cases (hheader (fun _ _ ↦ rfl) hi).symm.trans hap
      exact absurd (.inr (hshared hi)) hout
    · have hi' := (hheader (fun _ _ ↦ rfl) hi).symm.trans hap
      have hj' := (hheader (fun _ _ ↦ rfl) hj).symm.trans hbp
      have heq := Option.some.inj (hi'.trans hj'.symm)
      omega

/-- The first entries of the table for the first 4 MiB, and of the heap's first table. -/
def InHeaders (a : ℕ) : Prop :=
  (tableAddr 0 0 ≤ a ∧ a < tableAddr 0 0 + 16) ∨ (tableAddr 832 0 ≤ a ∧ a < tableAddr 832 0 + 16)

instance (a : ℕ) : Decidable (InHeaders a) := inferInstanceAs (Decidable (_ ∨ _))

theorem Backed.present_first : Present (entry t.mem.mem dir 832) := by
  obtain ⟨e, he, -⟩ := h.pages.pages 0 (by decide)
  obtain ⟨⟨hp, -⟩, hslot, -⟩ := walk_eq_some.mp he
  rw [dirIndex_heapPage] at hslot
  exact hslot.symm ▸ hp

/-- Only the directory leads there. -/
theorem Backed.steady_headers : Steady t.mem.mem dir InHeaders
    fun q ↦ P.InBitmap q ∨ InPage dir q := by
  have hpages := h.pages
  have hid := hpages.identity
  have hfirst := Backed.present_first h
  have hsplit {a : ℕ} (ha : InHeaders a) : ∃ d i, (d = 0 ∨ d = 832) ∧ i < 16 ∧ a = tableAddr d 0 + i ∧
      Present (entry t.mem.mem dir d) := by
    rcases ha with ⟨hlo, hhi⟩ | ⟨hlo, hhi⟩
    · exact ⟨0, a - tableAddr 0 0, .inl rfl, by omega, by omega, hid.slot_present⟩
    · exact ⟨832, a - tableAddr 832 0, .inr rfl, by omega, by omega, hfirst⟩
  have hheader {m : Bytes} (hm : ∀ q, InPage dir q → m q = t.mem.mem q) {d i : ℕ} (hd : d < 1024)
      (hp : Present (entry t.mem.mem dir d)) (hi : i < 16) :
      Lib.Paging.translate m dir (tableAddr d 0 + i) = some (frameOf (entry t.mem.mem dir d) + i) :=
    translate_header hpages.hierarchy hm hd hp (by omega)
  refine ⟨fun a ha ↦ ?_, fun m hm a ha ↦ ?_, fun a ha ↦ ?_, fun a b p ha hb hap hbp ↦ ?_⟩
  · unfold InHeaders tableAddr at ha
    omega
  · obtain ⟨d, i, hd, hi, rfl, hp⟩ := hsplit ha
    rw [hheader (fun q hq ↦ hm q (.inr hq)) (by omega) hp hi, hheader (fun _ _ ↦ rfl) (by omega) hp hi]
  · obtain ⟨d, i, hd, hi, rfl, hp⟩ := hsplit ha
    obtain ⟨hbitmap, hdir⟩ := Backed.frame_apart h (i := i) (by omega) hp (by omega)
    exact ⟨_, hheader (fun _ _ ↦ rfl) (by omega) hp hi, fun hin ↦ hin.elim hbitmap hdir⟩
  · obtain ⟨d, i, hd, hi, rfl, hp⟩ := hsplit ha
    obtain ⟨c, j, hc, hj, rfl, hp'⟩ := hsplit hb
    have hi' := (hheader (fun _ _ ↦ rfl) (by omega) hp hi).symm.trans hap
    have hj' := (hheader (fun _ _ ↦ rfl) (by omega) hp' hj).symm.trans hbp
    have hsum := Option.some.inj (hi'.trans hj'.symm)
    have hdvd := frameOf_dvd (entry t.mem.mem dir d)
    have hdvd' := frameOf_dvd (entry t.mem.mem dir c)
    have hij : i = j := by omega
    have heq : frameOf (entry t.mem.mem dir d) = frameOf (entry t.mem.mem dir c) := by omega
    rcases hpages.hierarchy.distinct d (by omega) c (by omega) hp hp' heq with rfl | ⟨hs, hs'⟩
    · rw [hij]
    · unfold Shared at hs hs'
      have hdc : d = c := by omega
      rw [hdc, hij]

end Tables

section Filling

variable {p : Paged}

/-- The first block, in use. -/
def firstBlock : Block := ⟨kheapStart, kheapInitialSize - heapNodeSize, false⟩

/-- A block in use from there up to the page tables. -/
def lastBlock : Block :=
  ⟨kheapStart + kheapInitialSize, vmmPageTables - (kheapStart + kheapInitialSize) - heapNodeSize, false⟩

/-- Two requests fill the heap up to the page tables. -/
theorem exists_full (hb : Booted P p) (hmany : 195776 ≤ #(P.free p.mem.mem)) :
    ∃ dir table s live sizes, HeapCalls p s live sizes ∧ NoneWraps sizes ∧
      Represented (heapWindow P dir table #(P.free p.mem.mem) p.mem.mem) s [firstBlock, lastBlock]
        vmmPageTables := by
  obtain ⟨dir, table, hp⟩ := exists_started hb
  obtain ⟨s₂, hinit, hrep⟩ := kheapInit_many hp (by omega)
  have hfirst : ValidSize firstBlock.size := (Sizes.validSize_iff (by decide) (by decide)).mpr (by decide)
  have hplace : place (roundUp firstBlock.size) [initialBlock] =
      some (kheapStart + heapNodeSize, [firstBlock]) := by decide
  obtain ⟨s₃, hrun₃, hb₃⟩ := kmalloc_placed hfirst hrep hplace le_rfl
  have hrep₃ := hb₃.represented
  have hlast : ValidSize lastBlock.size := (Sizes.validSize_iff (by decide) (by decide)).mpr (by decide)
  have hnone : place (roundUp lastBlock.size) [firstBlock] = none := by decide
  have htables : 195584 + heapTables 195584 = 195775 := by decide
  have hroom : s₃.vars.heapCurrentEnd + pagesNeeded (roundUp lastBlock.size) * pageSize ≤
      heapPage 195584 := by
    rw [hrep₃.vars]
    decide
  obtain ⟨s₄, hexp₄⟩ := kheapExpand_many hrep₃.inv (by omega) (by decide)
    (Represented.heapCurrentEnd hrep₃) hroom
  obtain ⟨q, bs, s₅, hplace₅, hrun₅, hb₅⟩ := kmalloc_grown hlast hrep₃ hnone le_rfl hexp₄
  have hblocks : place (roundUp lastBlock.size) (grown (roundUp lastBlock.size)
      (kheapStart + kheapInitialSize) [firstBlock]) =
      some (lastBlock.payload heapNodeSize, [firstBlock, lastBlock]) := by decide
  cases hblocks.symm.trans hplace₅
  have hend : kheapStart + kheapInitialSize + pagesNeeded (roundUp lastBlock.size) * pageSize =
      vmmPageTables := by decide
  refine ⟨dir, table, s₅, _, _, .alloc (.alloc (.init hinit) hfirst.pos (by decide) hrun₃) hlast.pos
    (by decide) hrun₅, ?_, hend ▸ hb₅.represented⟩
  unfold NoneWraps
  decide

end Filling

section Run

variable {p : Paged} {s : HeapState KernelMemory} {m₀ : Bytes} {Q : HeapState KernelMemory → Prop}

theorem reaches_headers (hd : d = 0 ∨ d = 832) : Reaches InHeaders (tableAddr d 0) := by
  intro i hi
  rcases hd with rfl | rfl
  · exact .inl ⟨Nat.le_add_right .., Nat.add_lt_add_left hi _⟩
  · exact .inr ⟨Nat.le_add_right .., Nat.add_lt_add_left hi _⟩

/-- The blocks of the full heap with the false one behind them. -/
structure Chained (m : Bytes) (free : Bool) : Prop where
  first_used : (nodeAt m firstBlock.addr).free = false
  first_next : (nodeAt m firstBlock.addr).next = lastBlock.addr
  last_used : (nodeAt m lastBlock.addr).free = false
  last_next : (nodeAt m lastBlock.addr).next = vmmPageTables
  false_node : nodeAt m vmmPageTables = ⟨0xFFFFFFF0, free, 0, lastBlock.addr⟩

theorem apart_first : Apart vmmPageTables firstBlock.addr := .inr (by decide)

theorem apart_last : Apart vmmPageTables lastBlock.addr := .inr (by decide)

theorem Chained.setFree {free : Bool} (h : Chained m free) (free' : Bool) :
    Chained (setFree m vmmPageTables free') free' := by
  have hfirst : nodeAt (Nodes.setFree m vmmPageTables free') firstBlock.addr =
      nodeAt m firstBlock.addr := nodeAt_of_sameOff sameOff_setFree apart_first
  have hlast : nodeAt (Nodes.setFree m vmmPageTables free') lastBlock.addr =
      nodeAt m lastBlock.addr := nodeAt_of_sameOff sameOff_setFree apart_last
  refine ⟨?_, ?_, ?_, ?_, ?_⟩
  · rw [hfirst]
    exact h.first_used
  · rw [hfirst]
    exact h.first_next
  · rw [hlast]
    exact h.last_used
  · rw [hlast]
    exact h.last_next
  · rw [nodeAt_setFree, h.false_node]

section Calls

variable {W : Window KernelMemory} {e : HeapVars}
  (hvars : e = ⟨kheapStart, vmmPageTables⟩)

theorem reaches_end {x : ℕ} (hlo : kheapStart ≤ x) (hhi : x ≤ vmmPageTables) :
    Reaches (InHeap (vmmPageTables + 16)) x :=
  fun i hi ↦ ⟨hlo.trans (Nat.le_add_right ..), by omega⟩

theorem reaches_first : Reaches (InHeap (vmmPageTables + 16)) firstBlock.addr :=
  reaches_end (by decide) (by decide)

theorem reaches_last : Reaches (InHeap (vmmPageTables + 16)) lastBlock.addr :=
  reaches_end (by decide) (by decide)

theorem reaches_false : Reaches (InHeap (vmmPageTables + 16)) vmmPageTables :=
  reaches_end (by decide) (by decide)

/-- The search comes by the two blocks of the heap, and then takes the false one. -/
theorem search_chained {n p fuel : ℕ} (h : Chained m true) (hn : n ≤ 0xFFFFFFF0)
    (htake : Returns ((Kernel.window W e).Sees (InHeap (vmmPageTables + 16)) m)
      (takeBlock vmmPageTables n) p Q) :
    Returns ((Kernel.window W e).Sees (InHeap (vmmPageTables + 16)) m)
      (search n (fuel + 3) firstBlock.addr) p Q := by
  have hfree : (nodeAt m vmmPageTables).free = true := by rw [h.false_node]
  have hsize : n ≤ (nodeAt m vmmPageTables).size := by
    rw [h.false_node]
    exact hn
  exact search_next W (by decide) reaches_first h.first_used h.first_next (by decide) <|
    search_next W (by decide) reaches_last h.last_used h.last_next (by decide) <|
      search_here W (by decide) reaches_false hfree hsize htake

include hvars

/-- The request grows the full heap by no page, and is served behind its end. -/
theorem kmalloc_wraps (hr : Represents m [firstBlock, lastBlock]) :
    ∃ m', Returns ((Kernel.window W e).Sees (InHeap (vmmPageTables + 16)) m)
        (kmalloc 5 0xFFFFFFE0) (vmmPageTables + heapNodeSize)
        ((Kernel.window W e).Sees (InHeap (vmmPageTables + 16)) m') ∧ Chained m' false := by
  subst hvars
  have hfirst := hr.data firstBlock (by simp)
  have hlast := hr.data lastBlock (by simp)
  have hnext : (nodeAt m firstBlock.addr).next = lastBlock.addr :=
    hr.next_eq (l := []) (r := [lastBlock])
  have hend : (nodeAt m lastBlock.addr).next = 0 := hr.next_eq (l := [firstBlock]) (r := [])
  have hround : roundUp 0xFFFFFFE0 = 0xFFFFFFE0 := by decide
  obtain ⟨m₁, hext, hnode, hlast₁, hother⟩ := extend_nothing W (n := 0xFFFFFFE0) (e := ⟨kheapStart, vmmPageTables⟩)
    (m := m) (by decide) reaches_last reaches_false (by decide) apart_last (by decide) (by decide) hlast.2
  have hfirst₁ : nodeAt m₁ firstBlock.addr = nodeAt m firstBlock.addr :=
    hother _ apart_first (.inr (by decide))
  have hchain : Chained m₁ true := by
    refine ⟨?_, ?_, ?_, ?_, hnode⟩
    · rw [hfirst₁]
      exact hfirst.2
    · rw [hfirst₁]
      exact hnext
    · rw [hlast₁]
      exact hlast.2
    · rw [hlast₁]
  refine ⟨_, ?_, hchain.setFree false⟩
  have hwhole := takeBlock_whole W (e := ⟨kheapStart, vmmPageTables⟩) (m := m₁) (n := 0xFFFFFFE0)
    reaches_false (by rw [hnode]; decide)
  refine kmalloc_of_search W (by decide) ?_
  rw [hround]
  exact search_next W (by decide) reaches_first hfirst.2 hnext (by decide) <|
    search_last W (by decide) reaches_last hlast.2 hend hext (search_chained hchain (by decide) hwhole)

omit hvars in
theorem kfree_chained (h : Chained m false) :
    Returns ((Kernel.window W e).Sees (InHeap (vmmPageTables + 16)) m)
      (kfree (vmmPageTables + heapNodeSize)) ()
      ((Kernel.window W e).Sees (InHeap (vmmPageTables + 16)) (setFree m vmmPageTables true)) :=
  kfree_alone W reaches_false (by decide) (congrArg HeapNode.next h.false_node)
    (congrArg HeapNode.prev h.false_node) (by decide) reaches_last apart_last h.last_used

/-- The next request splits the false block, as soon as that is free. -/
theorem kmalloc_chained {q : ℕ} (h : Chained m true)
    (htake : Returns ((Kernel.window W e).Sees (InHeap (vmmPageTables + 16)) m)
      (takeBlock vmmPageTables 0x33FFF0) q Q) :
    Returns ((Kernel.window W e).Sees (InHeap (vmmPageTables + 16)) m) (kmalloc 3 0x33FFF0) q Q := by
  subst hvars
  have hround : roundUp 0x33FFF0 = 0x33FFF0 := by decide
  refine kmalloc_of_search W (by decide) ?_
  rw [hround]
  exact search_chained h (by decide) htake

end Calls

/-- The entry for the heap's first page is not that of a page any more. -/
structure Lost (P : Platform) (m₀ : Bytes) (dir : ℕ) (s : HeapState KernelMemory) : Prop where
  cr3 : directoryOf s = dir
  same : ∀ q, P.InBitmap q ∨ InPage dir q → memoryOf s q = m₀ q
  vars : s.vars = ⟨kheapStart, vmmPageTables⟩
  first : entry (memoryOf s) (frameOf (entry m₀ dir 832)) 0 = 0xFFCBFFF0

/-- The kernel's memory as it is seen through steady addresses. -/
def steadyMemory {A T : ℕ → Prop} [DecidablePred A] (h : Steady m₀ dir A T) (v : PmmVars)
    (l : List ℕ) : Window KernelMemory := Kernel.window (Kernel.window (steadyWindow h) v) l

/-- Splitting the false block writes the size of the rest over the first entry of the heap's
first table. -/
theorem takeBlock_overwrites {v : PmmVars} {l : List ℕ}
    (h : Backed P dir table total 195584 n held t)
    (hs : (Kernel.window (steadyMemory (Backed.steady_heap h) v l) ⟨kheapStart, vmmPageTables⟩).Sees
      (InHeap (vmmPageTables + 16)) m s) (hc : Chained m true) :
    ∃ s', (takeBlock vmmPageTables 0x33FFF0).run s = .ok (vmmPageTables + heapNodeSize) s' ∧
      Lost P t.mem.mem dir s' := by
  obtain ⟨⟨⟨⟨⟨hcr3, hsame⟩, hv⟩, hl⟩, hvars⟩, -, hview⟩ := hs
  have hsteady := Backed.steady_heap h
  have hsteady' := Backed.steady_headers h
  set m' := byteAt t.mem.mem dir InHeaders s.mem.mem.mem.mem
  have hs' : (Kernel.window (steadyMemory hsteady' v l) ⟨kheapStart, vmmPageTables⟩).Sees InHeaders m' s :=
    ⟨⟨⟨⟨⟨hcr3, fun q hq ↦ hsame q (hq.imp_right .inl)⟩, hv⟩, hl⟩, hvars⟩, rfl, rfl⟩
  have hreach : Reaches InHeaders vmmPageTables := reaches_headers (d := 0) (.inl rfl)
  have hnode : nodeAt m' vmmPageTables = nodeAt m vmmPageTables := by
    refine nodeAt_congr fun i hi ↦ ?_
    have ha : InHeap (vmmPageTables + 16) (vmmPageTables + i) := reaches_false i hi
    obtain ⟨q, hq, -⟩ := hsteady.apart _ ha
    have hold : m (vmmPageTables + i) = s.mem.mem.mem.mem q := by
      rw [← hview]
      exact byteAt_of_translate ha hq
    rw [hold]
    exact byteAt_of_translate (hreach i hi) hq
  rw [hc.false_node] at hnode
  obtain ⟨m₁, htake, hsize⟩ := takeBlock_split (steadyMemory hsteady' v l) (e := ⟨kheapStart, vmmPageTables⟩)
    (m := m') (n := 0x33FFF0) hreach (reaches_headers (d := 832) (.inr rfl)) (by decide)
    (.inr (by decide)) (by decide) (by rw [hnode]; decide) (by rw [hnode])
  rw [hnode] at hsize
  obtain ⟨s₁, hrun, ⟨⟨⟨⟨hcr3₁, hsame₁⟩, -⟩, -⟩, hvars₁⟩, -, hview₁⟩ := htake s hs'
  refine ⟨s₁, hrun, hcr3₁, hsame₁, hvars₁, ?_⟩
  have hbyte {i : ℕ} (hi : i < 16) :
      m₁ (tableAddr 832 0 + i) = memoryOf s₁ (frameOf (entry t.mem.mem dir 832) + i) := by
    rw [← hview₁]
    exact byteAt_of_translate (reaches_headers (.inr rfl) i hi)
      (translate_header h.pages.hierarchy (fun _ _ ↦ rfl) (by decide) (Backed.present_first h) (by omega))
  have hword : word (memoryOf s₁) (frameOf (entry t.mem.mem dir 832)) = word m₁ (tableAddr 832 0) := by
    have hzero := hbyte (i := 0) (by decide)
    rw [Nat.add_zero, Nat.add_zero] at hzero
    unfold word
    rw [hzero, hbyte (by decide), hbyte (by decide), hbyte (by decide)]
  have hvalue : sub32 (sub32 0xFFFFFFF0 0x33FFF0) heapNodeSize = 0xFFCBFFF0 := by decide
  rw [entry, Nat.mul_zero, Nat.add_zero, hword]
  exact hsize.trans hvalue

theorem Lost.not_privatelyBacked (h : Lost P m₀ dir s) : ¬ PrivatelyBacked P s := by
  intro hbacked
  have hin : InHeap s.vars.heapCurrentEnd kheapStart := by
    rw [h.vars]
    exact ⟨le_rfl, by decide⟩
  obtain ⟨e, he, -⟩ := hbacked.mapped kheapStart (by decide) hin
  obtain ⟨⟨-, hp⟩, hslot, htable⟩ := walk_eq_some.mp he
  have hindex : dirIndex kheapStart = 832 := by decide
  have hindex' : tableIndex kheapStart = 0 := by decide
  have hsame : entry (memoryOf s) dir 832 = entry m₀ dir 832 :=
    entry_congr (fun q hlo hhi ↦ h.same q (.inr ⟨hlo, hhi⟩)) (by decide)
  rw [h.cr3, hindex, hsame] at hslot
  rw [← hslot, hindex', h.first] at htable
  rw [← htable] at hp
  exact absurd hp (by decide)

/-- With frames for the whole heap, four requests, of which the third one wraps around, take
the heap's first page away. -/
theorem exists_overwritten (hb : Booted P p) (hmany : 195776 ≤ #(P.free p.mem.mem)) :
    ∃ s live sizes, HeapCalls p s live sizes ∧ (P.free (memoryOf s)).Nonempty ∧
      s.vars.heapCurrentEnd ≤ vmmPageTables ∧ ¬ PrivatelyBacked P s := by
  obtain ⟨dir, table, s, live, sizes, hcalls, -, hrep⟩ := exists_full hb hmany
  have hend := Represented.heapCurrentEnd hrep
  rw [hrep.vars] at hend
  change vmmPageTables = heapPage s.mem.vars.length at hend
  have hlen : s.mem.vars.length = 195584 := by
    unfold heapPage kheapStart vmmPageTables at hend
    omega
  have hbacked := hrep.inv.backed
  rw [hlen] at hbacked
  obtain rfl := hbacked.cr3
  have hsteady := Backed.steady_heap hbacked
  set m := byteAt s.mem.mem.mem.mem s.mem.mem.mem.cr3 (InHeap (vmmPageTables + 16)) s.mem.mem.mem.mem
  set W := steadyMemory hsteady s.mem.mem.vars s.mem.vars
  have hsees : (Kernel.window W ⟨kheapStart, vmmPageTables⟩).Sees (InHeap (vmmPageTables + 16)) m s :=
    ⟨⟨⟨⟨⟨rfl, fun _ _ ↦ rfl⟩, rfl⟩, rfl⟩, hrep.vars⟩, rfl, rfl⟩
  have hr : Represents m [firstBlock, lastBlock] := by
    refine hrep.blocks.congr fun b hb ↦ nodeAt_congr fun i hi ↦ ?_
    have ha : InHeap vmmPageTables (b.addr + i) := by
      have hbounds := hrep.shape.tiles.bounds hb
      unfold Block.stop heapNodeSize at hbounds
      exact ⟨by omega, by omega⟩
    have ha' : InHeap (vmmPageTables + 16) (b.addr + i) := ⟨ha.1, ha.2.trans (by decide)⟩
    obtain ⟨q, hq, -⟩ := hsteady.apart _ ha'
    have hbyte : heapByte s.mem (b.addr + i) = s.mem.mem.mem.mem q := by
      rw [hend] at ha
      exact byteAt_of_translate ha hq
    exact (byteAt_of_translate ha' hq).trans hbyte.symm
  obtain ⟨m₁, ht₁, hc₁⟩ := kmalloc_wraps (W := W) rfl hr
  obtain ⟨s₁, hrun₁, hs₁⟩ := ht₁ s hsees
  obtain ⟨s₂, hrun₂, hs₂⟩ := kfree_chained hc₁ s₁ hs₁
  obtain ⟨s₃, hrun₃, hs₃⟩ := kmalloc_chained (W := W) rfl (hc₁.setFree true)
    (fun u hu ↦ takeBlock_overwrites hbacked hu (hc₁.setFree true)) s₂ hs₂
  have hlast : HeapCalls p s₃ _ _ := .alloc (.release (.alloc hcalls (by decide) (by decide) hrun₁)
    List.mem_cons_self hrun₂) (by decide) (by decide) hrun₃
  refine ⟨s₃, _, _, hlast, ?_, ?_, hs₃.not_privatelyBacked⟩
  · rw [Platform.free_congr fun q hq ↦ hs₃.same q (.inl hq)]
    have hcount := hbacked.count
    rw [show heapTables 195584 = 191 by decide] at hcount
    exact card_pos.mp (by omega)
  · rw [hs₃.vars]

/-- On a PC with 2 GiB the heap can lose a page without any want of memory. -/
theorem privatelyBacked_lost_roomyPc : ∃ p s live sizes, Booted roomyPlatform p ∧
    HeapCalls p s live sizes ∧ (roomyPlatform.free (memoryOf s)).Nonempty ∧
    s.vars.heapCurrentEnd ≤ vmmPageTables ∧ ¬ PrivatelyBacked roomyPlatform s := by
  obtain ⟨p, hb, hmany⟩ := exists_booted_roomyPc
  obtain ⟨s, live, sizes, hlost⟩ := exists_overwritten hb hmany
  exact ⟨p, s, live, sizes, hb, hlost⟩

end Run

end KevOS.Memory.Overwritten
