import KevOS.Memory.HeapRuns
import KevOS.Shell.Replies

namespace KevOS.Shell.HeapTest

open Lib.Program Lib.ByteMemory Lib.Tiling Machine Libc CharPtr Format
open Heap Heap.Blocks Heap.HeapList Heap.Growth Heap.Run
open Memory Memory.Mapped Memory.Frames Memory.Backing Memory.HeapWindow Memory.HeapRuns

section Model

/-- The heap, and the characters written to the terminal. -/
structure Tested (τ : Type) where
  heap : HeapState τ
  output : List UInt8

variable {τ α : Type} [ByteMem τ] [PageSource τ] [PageMapper τ]

def onHeap (x : Prog (HeapState τ) α) : Prog (Tested τ) α :=
  zoom Tested.heap (fun t s ↦ { t with heap := s }) x

instance : Console (Tested τ) where
  loadChar a := onHeap (load8 a)
  putchar c := modify fun t ↦ { t with output := t.output ++ [c] }

def print (format : String) (parameters : List ℕ) : Prog (Tested τ) Unit := do
  let _ ← printf (.literal (text format)) parameters
  pure ()

/-- The loop `data[i] = 'K' + i`, with `n` turns left. -/
def storeLetters (data i : ℕ) : ℕ → Prog (HeapState τ) Unit
  | 0 => pure ()
  | n + 1 => do
    store8 (w32 (data + i)) (UInt8.ofNat (75 + i))
    storeLetters data (i + 1) n

/-- The answer to the request for 4 MB. -/
def checkLarge (c : ℕ) : Prog (Tested τ) Unit :=
  if c ≠ 0 then do
    print "Allocated C (4MB) at 0x%x (Success!)\n" [c]
    onHeap (kfree c)
  else print "Failed to allocate 4MB block!\n" []

def testHeap (fuel : ℕ) : Prog (Tested τ) Unit := do
  print "--- Heap Test Started ---\n" []
  let a ← onHeap (kmalloc fuel 1024)
  let b ← onHeap (kmalloc fuel 1024)
  print "Allocated A (1KB) at 0x%x\n" [a]
  print "Allocated B (1KB) at 0x%x\n" [b]
  let data := a
  onHeap (storeLetters data 0 10)
  onHeap (store8 (w32 (data + 10)) 0)
  print "Data verification in A: %s\n" [data]
  print "Freeing A and B...\n" []
  onHeap (kfree a)
  onHeap (kfree b)
  print "Requesting 4MB to trigger heap expansion...\n" []
  let c ← onHeap (kmalloc fuel (4 * 1024 * 1024))
  checkLarge c
  print "--- Heap Test Completed Successfully ---\n" []

end Model

variable {τ : Type} [ByteMem τ] [PageSource τ] [PageMapper τ] {G : GrowWindow τ}

section Stages

variable {start s₀ s s' : HeapState τ} {hi n p i k : ℕ} {bs₀ bs : List Block} {b c : Block}
  {live : List (ℕ × ℕ)} {extra : List Block}

/-- The heap while the test has the blocks `extra`: what was there before is as it was. -/
structure Stage (G : GrowWindow τ) (start s₀ : HeapState τ) (bs₀ : List Block) (s : HeapState τ)
    (bs : List Block) (hi : ℕ) (live : List (ℕ × ℕ)) (extra : List Block) : Prop where
  run : HeapRun start s live
  represented : Represented G s bs hi
  live : Live bs live
  used : (usedBlocks bs).Perm (extra ++ usedBlocks bs₀)
  keeps : Keeps bs₀ (G.view s₀.mem) (G.view s.mem)

theorem usedBlocks_allocated {bs' : List Block} {hi' : ℕ} (h : Allocated n bs hi p bs' hi') :
    ∃ c : Block, c.payload heapNodeSize = p ∧ roundUp n ≤ c.size ∧ (usedBlocks bs').Perm (c :: usedBlocks bs) := by
  cases h with
  | placed hp =>
    obtain ⟨c, hc, hle, hperm⟩ := usedBlocks_place hp
    exact ⟨c, hc, hle, hperm⟩
  | grown _ hp =>
    obtain ⟨c, hc, hle, hperm⟩ := usedBlocks_place hp
    rw [usedBlocks_grown] at hperm
    exact ⟨c, hc, hle, hperm⟩

/-- While the heap can grow, a request is served, with any fuel that is enough. -/
theorem Stage.alloc (h : Stage G start s₀ bs₀ s bs hi live extra) (hn : ValidSize n)
    (hexp : ∃ s₁, (kheapExpand (pagesNeeded (roundUp n))).run s = .ok () s₁) :
    ∃ p s' bs' hi' c, c.payload heapNodeSize = p ∧ n ≤ c.size ∧ hi' ≤ hi + 4096 * pagesNeeded (roundUp n) ∧
      (∃ least, ∀ fuel, least ≤ fuel → (kmalloc fuel n).run s = .ok p s') ∧
      Stage G start s₀ bs₀ s' bs' hi' ((p, n) :: live) (c :: extra) := by
  have hrep := h.represented
  have hpage : pageSize = 4096 := rfl
  obtain ⟨p, s', bs', hi', hrun, ha, hb⟩ := kmalloc_served hn hrep hexp
  have hmore : ∀ fuel, 2 * bs.length + 1 ≤ fuel → (kmalloc fuel n).run s = .ok p s' := by
    intro fuel hfuel
    rw [kmalloc_eq_search hn.pos hrep] at hrun ⊢
    exact Allocate.search_mono_le hfuel hrun
  obtain ⟨c, hc, hle, hperm⟩ := usedBlocks_allocated ha
  have hbound : hi' ≤ hi + 4096 * pagesNeeded (roundUp n) := by
    cases ha with
    | placed => omega
    | grown => rw [hpage]; omega
  have hsub : usedBlocks bs₀ ⊆ usedBlocks bs := fun b hb ↦ h.used.mem_iff.mpr (List.mem_append_right _ hb)
  exact ⟨p, s', bs', hi', c, hc, hn.roundUp.2.2.trans hle, hbound, ⟨_, hmore⟩,
    h.run.alloc hn hrun, hb.represented, h.live.allocated hn ha, hperm.trans (h.used.cons c),
    h.keeps.trans (Keeps.mono hb.keeps hsub)⟩

/-- The pointers that are in use are all different. -/
theorem Stage.nodup (h : Stage G start s₀ bs₀ s bs hi live extra) :
    ((extra ++ usedBlocks bs₀).map (Block.payload heapNodeSize)).Nodup :=
  (h.used.map _).nodup_iff.mp
    ((h.represented.shape.tiles.nodup_payload (by decide)).sublist (List.filter_sublist.map _))

theorem Stage.payload_ne {l r : List Block} (h : Stage G start s₀ bs₀ s bs hi live (l ++ c :: r))
    (hb : b ∈ l ++ r ++ usedBlocks bs₀) : b.payload heapNodeSize ≠ c.payload heapNodeSize := by
  intro heq
  have hnodup := h.nodup
  rw [List.append_assoc, List.map_append, List.cons_append, List.map_cons, List.nodup_middle, List.nodup_cons] at hnodup
  refine hnodup.1 (heq ▸ ?_)
  rw [← List.map_append, ← List.append_assoc]
  exact List.mem_map_of_mem hb

theorem Stage.release {l r : List Block} (h : Stage G start s₀ bs₀ s bs hi live (l ++ c :: r))
    (hp : (c.payload heapNodeSize, n) ∈ live) : ∃ s', (kfree (c.payload heapNodeSize)).run s = .ok () s' ∧
      Stage G start s₀ bs₀ s' (released (c.payload heapNodeSize) bs) hi
        (live.erase (c.payload heapNodeSize, n)) (l ++ r) := by
  have hmem : c ∈ usedBlocks bs := h.used.mem_iff.mpr (by simp)
  obtain ⟨s', hrun, hrep, hkeeps⟩ := kfree_ok h.represented (mem_usedBlocks.mp hmem).1
  have hfilter : ((usedBlocks bs).filter fun b ↦ b.payload heapNodeSize ≠ c.payload heapNodeSize).Perm
      (l ++ r ++ usedBlocks bs₀) := by
    have hfront : (l ++ c :: r ++ usedBlocks bs₀).Perm (c :: (l ++ r ++ usedBlocks bs₀)) := by simp
    refine ((h.used.trans hfront).filter _).trans ?_
    rw [List.filter_cons_of_neg (by simp), List.filter_eq_self.mpr fun b hb ↦ decide_eq_true (h.payload_ne hb)]
  refine ⟨s', hrun, h.run.release hp hrun, hrep, h.live.released h.represented.shape.tiles hp, ?_, ?_⟩
  · rw [usedBlocks_released]
    exact hfilter
  · refine h.keeps.trans (Keeps.mono hkeeps fun b hb ↦ ?_)
    rw [usedBlocks_markFree]
    exact hfilter.mem_iff.mpr (List.mem_append_right _ hb)

/-- A byte stored to a block of the test. -/
theorem Stage.store {l r : List Block} (h : Stage G start s₀ bs₀ s bs hi live (l ++ c :: r))
    (hp : (c.payload heapNodeSize, n) ∈ live) (hin : i < n) (v : UInt8) :
    ∃ s', (store8 (w32 (c.payload heapNodeSize + i)) v).run s = .ok () s' ∧
      G.view s'.mem = Function.update (G.view s.mem) (c.payload heapNodeSize + i) v ∧
      Stage G start s₀ bs₀ s' bs hi live (l ++ c :: r) := by
  have htiles := h.represented.shape.tiles
  have hbounded := h.represented.shape.bounded
  have hlimit := vmmPageTables_lt
  obtain ⟨b, hb, hbc, hn⟩ := h.live.room _ _ hp
  obtain ⟨hmem, -⟩ := mem_usedBlocks.mp hb
  have hbounds := htiles.bounds hmem
  have hpayload : b.payload heapNodeSize = b.addr + heapNodeSize := rfl
  have hstop : b.stop heapNodeSize = b.addr + heapNodeSize + b.size := rfl
  have haddr : InHeap hi (c.payload heapNodeSize + i) := by
    rw [← hbc]
    exact ⟨by omega, by omega⟩
  have hword : w32 (c.payload heapNodeSize + i) = c.payload heapNodeSize + i := w32_of_lt (by have := haddr.2; omega)
  obtain ⟨s', hrun, hs'⟩ := (Kernel.window G.toWindow ⟨kheapStart, hi⟩).store8_returns haddr v s h.represented.sees
  have hview : G.view s'.mem = Function.update (G.view s.mem) (c.payload heapNodeSize + i) v := hs'.2.2
  rw [hword]
  refine ⟨s', hrun, hview, h.run.store v hp (Nat.le_add_right _ _) (by omega) hrun,
    Represented.store h.represented h.live hp (Nat.le_add_right _ _) (by omega) hrun, h.live, h.used,
    h.keeps.trans fun d hd a hlo hhi ↦ ?_⟩
  -- The blocks that were there before lie apart from those of the test.
  have hdne := h.payload_ne (List.mem_append_right _ hd)
  have hdmem := (mem_usedBlocks.mp (h.used.mem_iff.mpr (List.mem_append_right _ hd))).1
  have hne : a ≠ c.payload heapNodeSize + i := by
    rcases htiles.disjoint hdmem hmem with rfl | hlt | hlt
    · exact absurd hbc hdne
    · omega
    · have hdpayload : d.payload heapNodeSize = d.addr + heapNodeSize := rfl
      omega
  rw [hview, Function.update_of_ne hne]

theorem storeLetters_ok {l r : List Block} (h : Stage G start s₀ bs₀ s bs hi live (l ++ c :: r))
    (hp : (c.payload heapNodeSize, n) ∈ live) (hin : i + k ≤ n) :
    ∃ s', (storeLetters (c.payload heapNodeSize) i k).run s = .ok () s' ∧
      (∀ a, G.view s'.mem a = if c.payload heapNodeSize + i ≤ a ∧ a < c.payload heapNodeSize + (i + k) then
        UInt8.ofNat (75 + (a - c.payload heapNodeSize)) else G.view s.mem a) ∧
      Stage G start s₀ bs₀ s' bs hi live (l ++ c :: r) := by
  induction k generalizing s i with
  | zero =>
    refine ⟨s, rfl, fun a ↦ ?_, h⟩
    rw [if_neg (by omega)]
  | succ k ih =>
    obtain ⟨s₁, hrun, hmem, h₁⟩ := h.store hp (show i < n by omega) (UInt8.ofNat (75 + i))
    obtain ⟨s', hrest, hmem', h'⟩ := ih h₁ (show i + 1 + k ≤ n by omega)
    refine ⟨s', (run_bind_ok hrun).trans hrest, fun a ↦ ?_, h'⟩
    rw [hmem', hmem]
    by_cases ha : a = c.payload heapNodeSize + i
    · rw [if_neg (by omega), if_pos (by omega), ha, Function.update_self, Nat.add_sub_cancel_left]
    · rw [Function.update_of_ne ha]
      by_cases hin : c.payload heapNodeSize + i ≤ a ∧ a < c.payload heapNodeSize + (i + (k + 1))
      · rw [if_pos hin, if_pos (by omega)]
      · rw [if_neg hin, if_neg (by omega)]

end Stages

section Lines

variable {s s' : HeapState τ} {bs : List Block} {w out before after : List UInt8} {format : String}
  {values : List Value}
  {words : List ℕ} {a hi number : ℕ} {v : UInt8} {α : Type} {x : Prog (HeapState τ) α} {r : α}

/-- The characters at the addresses of the heap. -/
def heapChars (G : GrowWindow τ) (s : HeapState τ) (a : ℕ) : Option UInt8 :=
  if kheapStart ≤ a ∧ a < s.vars.heapCurrentEnd then some (G.view s.mem a) else none

/-- The heap may be read, as far as it goes. -/
def Readable (G : GrowWindow τ) (s : HeapState τ) : Prop :=
  G.inv s.mem ∧ G.acc s.mem = InHeap s.vars.heapCurrentEnd

theorem readable_of_represented (h : Represented G s bs hi) : Readable G s := by
  refine ⟨h.inv, ?_⟩
  rw [h.vars]
  exact h.acc

theorem heapChars_of_inHeap (h : Represented G s bs hi) (ha : InHeap hi a) :
    heapChars G s a = some (G.view s.mem a) := by
  rw [heapChars, h.vars]
  exact if_pos ha

theorem load8_heapChars (h : Readable G s) (hv : heapChars G s a = some v) : (load8 a).run s = .ok v s := by
  unfold heapChars at hv
  split_ifs at hv with hin
  cases hv
  have hacc : G.acc s.mem a := by
    rw [h.2]
    exact hin
  exact (Kernel.window G.toWindow s.vars).load8_eq ⟨h.1, rfl⟩ hacc

/-- The console while the heap is `s`. -/
def view (G : GrowWindow τ) (s : HeapState τ) : View (Tested τ) where
  char _ := heapChars G s
  written := Tested.output
  reads _ := []
  ready t := t.heap = s ∧ Readable G s
  load_ok {t a c} ht hc := by
    obtain ⟨rfl, hs⟩ := ht
    exact ⟨t, zoom_ok (load8_heapChars hs hc), rfl, rfl, fun b hb ↦ .inl hb, rfl, hs⟩
  put_ok {t} c ht := ⟨{ t with output := t.output ++ [c] }, rfl, rfl, rfl, List.Subset.refl _, ht⟩

omit [ByteMem τ] [PageSource τ] [PageMapper τ] in
theorem onHeap_ok (h : x.run s = .ok r s') : (onHeap x).run ⟨s, w⟩ = .ok r ⟨s', w⟩ := zoom_ok h

theorem print_ok (hs : Readable G s) (href : reference (text format) values = some out) (hnul : 0 ∉ text format)
    (hshort : (text format).length < loopBound) (hwords : List.Forall₂ (Passes (heapChars G s)) values words) :
    (print format words).run ⟨s, w⟩ = .ok () ⟨s, w ++ out⟩ := by
  have hprint : Returns ((view G s).Sees (heapChars G s) Set.univ w) (printf (.literal (text format)) (words ++ []))
      (w32 out.length) ((view G s).Sees (heapChars G s) Set.univ (w ++ out)) :=
    printf_returns (view G s) href (isString_literal hnul hshort) (Cat.inside_univ _ _) hwords
      fun _ _ _ ↦ Cat.inside_univ _ _
  rw [List.append_nil] at hprint
  obtain ⟨⟨heap, output⟩, hrun, hsees⟩ := hprint ⟨s, w⟩ ⟨rfl, rfl, fun _ ha ↦ absurd ha List.not_mem_nil, rfl, hs⟩
  obtain rfl : heap = s := hsees.ready.1
  obtain rfl : output = w ++ out := hsees.written
  exact run_bind_ok hrun

theorem print_plain (hr : Readable G s) (hs : 37 ∉ text format) (hnul : 0 ∉ text format)
    (hshort : (text format).length < loopBound) : (print format []).run ⟨s, w⟩ = .ok () ⟨s, w ++ text format⟩ :=
  print_ok hr (Replies.reference_plain hs []) hnul hshort .nil

theorem print_hex (hr : Readable G s) (hf : text format = before ++ 37 :: 120 :: after) (hb : 37 ∉ before)
    (ha : 37 ∉ after) (hnul : 0 ∉ text format) (hshort : (text format).length < loopBound) (hn : number < 4294967296) :
    (print format [number]).run ⟨s, w⟩ = .ok () ⟨s, w ++ (before ++ numeral 16 number ++ after)⟩ := by
  have href : reference (text format) [.unsigned number] = some (before ++ numeral 16 number ++ after) := by
    rw [hf]
    exact Replies.reference_item hb (by decide) (Replies.convert_hex number) (Replies.reference_plain ha [])
  exact print_ok hr href hnul hshort (.cons ⟨rfl, hn⟩ .nil)

/-- The letters that the test stores. -/
def letters : List UInt8 := (List.range 10).map fun i ↦ UInt8.ofNat (75 + i)

theorem isString_letters (h : Represented G s bs hi) (hlo : kheapStart ≤ a) (hhi : a + 11 ≤ hi)
    (hchars : ∀ i < 10, G.view s.mem (a + i) = UInt8.ofNat (75 + i)) (hstop : G.view s.mem (a + 10) = 0) :
    IsString (heapChars G s) (.addr a) letters := by
  have hbounded := h.shape.bounded
  have hlimit := vmmPageTables_lt
  have hchar (i : ℕ) (hi : i ≤ 10) : charAt (heapChars G s) (.addr a) i = some (G.view s.mem (a + i)) := by
    have hword : w32 (a + i) = a + i := w32_of_lt (by omega)
    rw [charAt, hword]
    exact heapChars_of_inHeap h ⟨by omega, by omega⟩
  refine ⟨fun i hi ↦ ?_, ?_, by decide, by decide⟩
  · have hlt : i < 10 := by simpa [letters] using hi
    rw [hchar i hlt.le, hchars i hlt]
    simp [letters]
  · have hlength : letters.length = 10 := by decide
    rw [hlength, hchar 10 le_rfl, hstop]

end Lines

section Transcript

variable {start s₀ s s' : HeapState τ} {live : List (ℕ × ℕ)} {bs bs₀ : List Block} {lo hi limit c n : ℕ}
  {w : List UInt8}

def hexLine (before : String) (number : ℕ) (after : String) : List UInt8 :=
  text before ++ numeral 16 number ++ text after

/-- What is printed when the blocks are at `a`, `b` and `c`. -/
def transcript (a b c : ℕ) : List UInt8 :=
  text "--- Heap Test Started ---\n" ++ hexLine "Allocated A (1KB) at 0x" a "\n" ++
    hexLine "Allocated B (1KB) at 0x" b "\n" ++ (text "Data verification in A: " ++ letters ++ text "\n") ++
    text "Freeing A and B...\n" ++ text "Requesting 4MB to trigger heap expansion...\n" ++
    hexLine "Allocated C (4MB) at 0x" c " (Success!)\n" ++ text "--- Heap Test Completed Successfully ---\n"

theorem usedBlocks_eq_of_perm {cs : List Block} (hb : Tiles heapNodeSize lo bs hi) (hc : Tiles heapNodeSize lo cs limit)
    (h : (usedBlocks bs).Perm (usedBlocks cs)) : usedBlocks bs = usedBlocks cs := by
  refine List.Perm.eq_of_pairwise ?_ (hb.pairwise.sublist List.filter_sublist)
    (hc.pairwise.sublist List.filter_sublist) h
  intro b c _ _ hbc hcb
  have hsize : 0 < heapNodeSize := by decide
  unfold Block.stop at hbc hcb
  omega

theorem Stage.payload_bounds {c : Block} {extra : List Block}
    (h : Stage G start s₀ bs₀ s bs hi live extra) (hc : c ∈ extra) :
    kheapStart ≤ c.payload heapNodeSize ∧ c.payload heapNodeSize + c.size ≤ hi ∧ hi < 4294967296 := by
  have hmem : c ∈ bs := (mem_usedBlocks.mp (h.used.mem_iff.mpr (List.mem_append_left _ hc))).1
  have hbounds := h.represented.shape.tiles.bounds hmem
  have hbounded := h.represented.shape.bounded
  have hlimit := vmmPageTables_lt
  have hstart : 0 < kheapStart := by decide
  unfold Block.payload
  unfold Block.stop at hbounds
  omega

theorem checkLarge_ok (hs : Readable G s) (hc : c ≠ 0) (hlt : c < 4294967296) (hrun : (kfree c).run s = .ok () s') :
    (checkLarge c).run ⟨s, w⟩ = .ok () ⟨s', w ++ hexLine "Allocated C (4MB) at 0x" c " (Success!)\n"⟩ := by
  rw [checkLarge, if_pos hc]
  have hline := @print_hex _ _ _ _ G s w (text "Allocated C (4MB) at 0x") (text " (Success!)\n")
    "Allocated C (4MB) at 0x%x (Success!)\n" c hs (by decide) (by decide) (by decide) (by decide) (by decide) hlt
  exact (run_bind_ok hline).trans (onHeap_ok hrun)

/-- The string is there when the letters have been stored. -/
theorem Stage.fill {c : Block} {l r : List Block} (h : Stage G start s₀ bs₀ s bs hi live (l ++ c :: r))
    (hp : (c.payload heapNodeSize, n) ∈ live) (hn : 11 ≤ n) (hle : n ≤ c.size) :
    ∃ s₁ s', (storeLetters (c.payload heapNodeSize) 0 10).run s = .ok () s₁ ∧
      (store8 (w32 (c.payload heapNodeSize + 10)) 0).run s₁ = .ok () s' ∧
      IsString (heapChars G s') (.addr (c.payload heapNodeSize)) letters ∧
      Stage G start s₀ bs₀ s' bs hi live (l ++ c :: r) := by
  obtain ⟨hlo, hhi, -⟩ := h.payload_bounds (by simp : c ∈ l ++ c :: r)
  obtain ⟨s₁, hletters, hmem, h₁⟩ := storeLetters_ok h hp (show 0 + 10 ≤ n by omega)
  obtain ⟨s', hzero, hmem', h'⟩ := h₁.store hp (show 10 < n by omega) 0
  refine ⟨s₁, s', hletters, hzero, isString_letters h'.represented hlo (by omega) (fun i hi ↦ ?_) ?_, h'⟩
  · rw [hmem', Function.update_of_ne (by omega), hmem, if_pos (by omega), Nat.add_sub_cancel_left]
  · rw [hmem', Function.update_self]

/-- The calls of the test one after the other. -/
theorem testHeap_run {a b c fuel : ℕ} {s₁ s₂ s₃ s₄ s₅ s₆ s₇ s' : HeapState τ} (hs : Readable G s) (hs₂ : Readable G s₂)
    (hs₄ : Readable G s₄) (hs₆ : Readable G s₆) (hs₇ : Readable G s₇) (hs' : Readable G s') (hapos : 0 < a)
    (ha : a < 4294967296) (hb : b < 4294967296) (hcpos : 0 < c) (hc : c < 4294967296)
    (hrun₁ : (kmalloc fuel 1024).run s = .ok a s₁) (hrun₂ : (kmalloc fuel 1024).run s₁ = .ok b s₂)
    (hletters : (storeLetters a 0 10).run s₂ = .ok () s₃) (hzero : (store8 (w32 (a + 10)) 0).run s₃ = .ok () s₄)
    (hstring : IsString (heapChars G s₄) (.addr a) letters) (hfreea : (kfree a).run s₄ = .ok () s₅)
    (hfreeb : (kfree b).run s₅ = .ok () s₆) (hrun₃ : (kmalloc fuel (4 * 1024 * 1024)).run s₆ = .ok c s₇)
    (hfreec : (kfree c).run s₇ = .ok () s') :
    (testHeap fuel).run ⟨s, w⟩ = .ok () ⟨s', w ++ transcript a b c⟩ := by
  have hbegin := @print_plain _ _ _ _ G s w "--- Heap Test Started ---\n" hs (by decide) (by decide) (by decide)
  have hlinea := fun w ↦ @print_hex _ _ _ _ G s₂ w (text "Allocated A (1KB) at 0x") (text "\n")
    "Allocated A (1KB) at 0x%x\n" a hs₂ (by decide) (by decide) (by decide) (by decide) (by decide) ha
  have hlineb := fun w ↦ @print_hex _ _ _ _ G s₂ w (text "Allocated B (1KB) at 0x") (text "\n")
    "Allocated B (1KB) at 0x%x\n" b hs₂ (by decide) (by decide) (by decide) (by decide) (by decide) hb
  have hformat : text "Data verification in A: %s\n" = text "Data verification in A: " ++ 37 :: 115 :: text "\n" := by
    decide
  have href : reference (text "Data verification in A: %s\n") [.string (some letters)] =
      some (text "Data verification in A: " ++ letters ++ text "\n") := by
    rw [hformat]
    exact Replies.reference_item (by decide) (by decide) (Replies.convert_string letters)
      (Replies.reference_plain (by decide) [])
  have hdata := fun w ↦ @print_ok _ _ _ _ G s₄ w _ _ _ [a] hs₄ href (by decide) (by decide)
    (.cons ⟨by omega, hstring⟩ .nil)
  have hfreeing := fun w ↦ @print_plain _ _ _ _ G s₄ w "Freeing A and B...\n" hs₄ (by decide) (by decide) (by decide)
  have hrequest := fun w ↦ @print_plain _ _ _ _ G s₆ w "Requesting 4MB to trigger heap expansion...\n" hs₆ (by decide)
    (by decide) (by decide)
  have hlarge := fun w ↦ @checkLarge_ok _ _ _ _ G s₇ s' c w hs₇ (by omega) hc hfreec
  have hend := fun w ↦ @print_plain _ _ _ _ G s' w "--- Heap Test Completed Successfully ---\n" hs' (by decide)
    (by decide) (by decide)
  rw [testHeap]
  refine (run_bind_ok hbegin).trans ?_
  refine (run_bind_ok (onHeap_ok hrun₁)).trans ((run_bind_ok (onHeap_ok hrun₂)).trans ?_)
  refine (run_bind_ok (hlinea _)).trans ((run_bind_ok (hlineb _)).trans ?_)
  refine (run_bind_ok (onHeap_ok hletters)).trans ((run_bind_ok (onHeap_ok hzero)).trans ?_)
  refine (run_bind_ok (hdata _)).trans ((run_bind_ok (hfreeing _)).trans ?_)
  refine (run_bind_ok (onHeap_ok hfreea)).trans ((run_bind_ok (onHeap_ok hfreeb)).trans ?_)
  refine (run_bind_ok (hrequest _)).trans ((run_bind_ok (onHeap_ok hrun₃)).trans ?_)
  refine (run_bind_ok (hlarge _)).trans ((hend _).trans ?_)
  simp only [transcript, hexLine, List.append_assoc]

end Transcript

section Kernel

variable {P : Platform} {p : Paged} {start s₀ s : HeapState KernelMemory} {bs₀ bs : List Block} {hi K pages : ℕ}
  {live : List (ℕ × ℕ)} {extra : List Block}

theorem Stage.begin (hb : Booted P p) (h : HeapRun (beforeHeap p) s live) :
    ∃ bs, Stage (kernelWindow P p) (beforeHeap p) s bs s bs s.vars.heapCurrentEnd live [] := by
  obtain ⟨bs, hi, hrep, hlive⟩ := heapRun_live hb h
  have hend : s.vars.heapCurrentEnd = hi := by rw [hrep.vars]
  rw [hend]
  exact ⟨bs, h, hrep, hlive, .rfl, fun _ _ _ _ _ ↦ rfl⟩

/-- With frames enough the heap can grow. -/
theorem Stage.expands (h : Stage (kernelWindow P p) start s₀ bs₀ s bs hi live extra)
    (hmany : K + heapTables K < (P.free p.mem.mem).card) (hK : heapPage K ≤ vmmPageTables)
    (hlim : hi + 4096 * pages ≤ heapPage K) : ∃ s₁, (kheapExpand pages).run s = .ok () s₁ := by
  have hrep := h.represented
  have hend : s.vars.heapCurrentEnd = hi := by rw [hrep.vars]
  refine kheapExpand_many hrep.inv hmany hK (Represented.heapCurrentEnd hrep) ?_
  unfold pageSize
  omega

/-- The frames that are free now were so at the start, but for those of the heap and its tables. -/
theorem Stage.enough (h : Stage (kernelWindow P p) start s₀ bs₀ s bs hi live extra) (pages : ℕ)
    (hframes : pages + pages / 1024 + 1 < (P.free (memoryOf s)).card) :
    ∃ K, hi + 4096 * pages = heapPage K ∧ K + heapTables K < (P.free p.mem.mem).card := by
  have hrep := h.represented
  have hpage : hi = heapPage s.mem.vars.length := by
    have hend := Represented.heapCurrentEnd hrep
    rwa [hrep.vars] at hend
  have hfree : (P.free (memoryOf s)).Nonempty := Finset.card_pos.mp (by omega)
  have hcount : (P.free (memoryOf s)).card + (s.mem.vars.length + heapTables s.mem.vars.length) =
      (P.free p.mem.mem).card := HeapBacked.count_of_nonempty hrep.inv hfree
  refine ⟨s.mem.vars.length + pages, ?_, ?_⟩
  · rw [hpage]
    unfold heapPage
    omega
  · unfold heapTables at hcount ⊢
    omega

/-- With frames for 1027 pages and their tables `test_heap` comes back, shows what it stored, and leaves the heap as it
was: the same blocks are in use, with the same contents, and unless the heap has grown its list is the one from
before. -/
theorem testHeap_restores (hb : Booted P p) (h : HeapRun (beforeHeap p) s live)
    (hframes : 1030 ≤ (P.free (memoryOf s)).card) (hlim : s.vars.heapCurrentEnd + 4096 * 1027 ≤ vmmPageTables)
    (w : List UInt8) :
    ∃ least a b c s', (∀ fuel, least ≤ fuel → (testHeap fuel).run ⟨s, w⟩ = .ok () ⟨s', w ++ transcript a b c⟩) ∧
      HeapRun (beforeHeap p) s' live ∧
      (∀ q k, (q, k) ∈ live → SamePayload (G := kernelWindow P p) s s' q) ∧
      ∃ bs bs', WellFormed (G := kernelWindow P p) s bs ∧ WellFormed (G := kernelWindow P p) s' bs' ∧
        usedBlocks bs' = usedBlocks bs ∧ (s'.vars.heapCurrentEnd = s.vars.heapCurrentEnd → bs' = bs) := by
  have hsmall : ValidSize 1024 := ⟨by decide, by decide, by decide⟩
  have hlarge : ValidSize (4 * 1024 * 1024) := ⟨by decide, by decide, by decide⟩
  have hpages : pagesNeeded (roundUp 1024) = 1 := by decide
  have hpages' : pagesNeeded (roundUp (4 * 1024 * 1024)) = 1025 := by decide
  obtain ⟨bs, h₀⟩ := Stage.begin hb h
  obtain ⟨K, hend, hmany⟩ := h₀.enough 1027 (by omega)
  have hK : heapPage K ≤ vmmPageTables := hend ▸ hlim
  obtain ⟨a, s₁, bs₁, hi₁, ca, hca, hsizea, hhi₁, ⟨least₁, hrun₁⟩, h₁⟩ :=
    h₀.alloc hsmall (h₀.expands hmany hK (by omega))
  obtain ⟨b, s₂, bs₂, hi₂, cb, hcb, -, hhi₂, ⟨least₂, hrun₂⟩, h₂⟩ :=
    h₁.alloc hsmall (h₁.expands hmany hK (by omega))
  subst hca hcb
  have hstart : 0 < kheapStart := by decide
  have hboundsa := h₂.payload_bounds (by simp : ca ∈ [cb, ca])
  have hboundsb := h₂.payload_bounds (by simp : cb ∈ [cb, ca])
  obtain ⟨s₃, s₄, hletters, hzero, hstring, h₄⟩ := Stage.fill (l := [cb]) h₂ (by simp) (by decide) hsizea
  obtain ⟨s₅, hfreea, h₅⟩ := Stage.release (l := [cb]) h₄ (n := 1024) (by simp)
  have hab : cb.payload heapNodeSize ≠ ca.payload heapNodeSize := Stage.payload_ne (l := [cb]) h₂ (by simp)
  rw [List.erase_cons_tail (by simpa using hab), List.erase_cons_head] at h₅
  obtain ⟨s₆, hfreeb, h₆⟩ := Stage.release (l := []) h₅ (n := 1024) (by simp)
  rw [List.erase_cons_head] at h₆
  obtain ⟨c, s₇, bs₇, hi₇, cc, hcc, -, -, ⟨least₃, hrun₃⟩, h₇⟩ :=
    h₆.alloc hlarge (h₆.expands hmany hK (by omega))
  subst hcc
  have hboundsc := h₇.payload_bounds (by simp : cc ∈ [cc])
  obtain ⟨s', hfreec, h'⟩ := Stage.release (l := []) h₇ (n := 4 * 1024 * 1024) (by simp)
  rw [List.erase_cons_head] at h'
  have hused := usedBlocks_eq_of_perm h'.represented.shape.tiles h₀.represented.shape.tiles h'.used
  refine ⟨least₁ + least₂ + least₃, ca.payload heapNodeSize, cb.payload heapNodeSize, cc.payload heapNodeSize, s',
    fun fuel hfuel ↦ ?_, h'.run, fun q k hq ↦ ?_, bs, _, Run.Represented.wellFormed h₀.represented,
    Run.Represented.wellFormed h'.represented, hused, fun hend ↦ ?_⟩
  · exact testHeap_run (readable_of_represented h₀.represented) (readable_of_represented h₂.represented)
      (readable_of_represented h₄.represented) (readable_of_represented h₆.represented)
      (readable_of_represented h₇.represented) (readable_of_represented h'.represented) (by omega) (by omega) (by omega)
      (by omega) (by omega) (hrun₁ fuel (by omega)) (hrun₂ fuel (by omega)) hletters hzero hstring hfreea hfreeb
      (hrun₃ fuel (by omega)) hfreec
  · obtain ⟨d, hd, rfl, -⟩ := h₀.live.room q k hq
    exact Keeps.samePayload h'.keeps h₀.represented hd
  · have htiles := h'.represented.shape.tiles
    rw [show hi₇ = s.vars.heapCurrentEnd by rw [← hend, h'.represented.vars]] at htiles
    exact eq_of_usedBlocks (by decide) htiles h₀.represented.shape.tiles h'.represented.shape.merged
      h₀.represented.shape.merged hused

/-- On a PC with 128 MiB, with a block of 100 bytes in use. -/
theorem testHeap_restores_modestPc : ∃ p s q fuel a b c s', Booted modestPlatform p ∧
    HeapRun (beforeHeap p) s [(q, 100)] ∧ (testHeap fuel).run ⟨s, []⟩ = .ok () ⟨s', transcript a b c⟩ ∧
    SamePayload (G := kernelWindow modestPlatform p) s s' q := by
  have hvalid : ValidSize 100 := ⟨by decide, by decide, by decide⟩
  have hpages : pagesNeeded (roundUp 100) = 1 := by decide
  have htables : 1540 + heapTables 1540 = 1542 := by decide
  have hlimit : heapPage 1540 = kheapStart + kheapInitialSize + 4096 * 1028 := by decide
  obtain ⟨p, hb, -, hmany⟩ := exists_booted_modestPc
  obtain ⟨s, hinit, hrep⟩ := kheapInit_many (started_of_booted hb) (by omega)
  have hend : s.vars.heapCurrentEnd = kheapStart + kheapInitialSize := by rw [hrep.vars]
  obtain ⟨bs, h⟩ := Stage.begin hb (.init hinit)
  obtain ⟨q, s₁, bs₁, hi₁, c₁, -, -, hhi₁, -, h₁⟩ :=
    h.alloc hvalid (h.expands (K := 1540) (by omega) (by decide) (by omega))
  have hend₁ : s₁.vars.heapCurrentEnd = hi₁ := by rw [h₁.represented.vars]
  have hlen : s₁.mem.vars.length ≤ 513 := by
    have hpage := Represented.heapCurrentEnd h₁.represented
    unfold heapPage at hpage
    unfold kheapInitialSize at hend
    omega
  have hframes : 1030 ≤ (modestPlatform.free (memoryOf s₁)).card := by
    have hcount : (modestPlatform.free (memoryOf s₁)).card + (s₁.mem.vars.length + heapTables s₁.mem.vars.length) =
        (modestPlatform.free p.mem.mem).card ∨ modestPlatform.free (memoryOf s₁) = ∅ ∧
        s₁.mem.vars.length + heapTables s₁.mem.vars.length = (modestPlatform.free p.mem.mem).card + 1 :=
      h₁.represented.inv.backed.count
    unfold heapTables at hcount
    omega
  have hroom : s₁.vars.heapCurrentEnd + 4096 * 1027 ≤ vmmPageTables := by
    have hlimit' : heapPage 1540 ≤ vmmPageTables := by decide
    omega
  obtain ⟨least, a, b, c, s', hrun, -, hsame, -⟩ := testHeap_restores hb h₁.run hframes hroom []
  exact ⟨p, s₁, q, least, a, b, c, s', hb, h₁.run, hrun least le_rfl, hsame q 100 (by simp)⟩

end Kernel

end KevOS.Shell.HeapTest
