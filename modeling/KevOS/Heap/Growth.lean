import KevOS.Heap.Allocate

namespace KevOS.Heap.Growth

open Lib.Program Lib.ByteMemory Lib.Tiling Machine Nodes Blocks HeapList Free Allocate

def InHeap (hi a : ℕ) : Prop := kheapStart ≤ a ∧ a < hi

theorem inHeap_inj {hi hi' : ℕ} (h : InHeap hi = InHeap hi') (hlo : kheapStart ≤ hi)
    (hlo' : kheapStart ≤ hi') : hi = hi' := by
  by_contra hne
  have hmin := congrFun h (min hi hi')
  unfold InHeap at hmin
  rw [eq_iff_iff] at hmin
  omega

/-- A window onto the heap's addresses, with what the heap relies on when it grows:
a page that was backed can be reached, below the page tables, and the bytes in
front of it are as before. -/
structure GrowWindow (τ : Type) [ByteMem τ] [PageSource τ] [PageMapper τ] extends Window τ where
  grow_ok {s s' : τ} {hi : ℕ} : inv s → acc s = InHeap hi → kheapStart ≤ hi → 4096 ∣ hi →
    (backPage hi).run s = .ok () s' →
    hi + 4096 ≤ vmmPageTables ∧ inv s' ∧ acc s' = InHeap (hi + 4096) ∧
      ∀ a, InHeap hi a → view s' a = view s a

variable {τ : Type} [ByteMem τ] [PageSource τ] [PageMapper τ] (G : GrowWindow τ)

/-- The memory of a heap state holds these blocks. -/
structure Represented (s : HeapState τ) (bs : List Block) (hi : ℕ) : Prop where
  inv : G.inv s.mem
  acc : G.acc s.mem = InHeap hi
  vars : s.vars = ⟨kheapStart, hi⟩
  blocks : Represents (G.view s.mem) bs
  shape : Shape bs hi

/-- The call took this heap to that one, and left the payloads in use alone. -/
structure Became (s : HeapState τ) (bs : List Block) (s' : HeapState τ) (bs' : List Block)
    (hi' : ℕ) : Prop where
  represented : Represented G s' bs' hi'
  keeps : Keeps bs (G.view s.mem) (G.view s'.mem)

variable {G} {s s' s₁ : HeapState τ} {bs bs' l : List Block} {b c : Block} {hi n p fuel : ℕ}

theorem Represented.sees (h : Represented G s bs hi) :
    (Kernel.window G.toWindow ⟨kheapStart, hi⟩).Sees (InHeap hi) (G.view s.mem) s :=
  ⟨⟨h.inv, h.vars⟩, h.acc, rfl⟩

theorem Represented.of_sees {m : Bytes}
    (hs : (Kernel.window G.toWindow ⟨kheapStart, hi⟩).Sees (InHeap hi) m s)
    (hr : Represents m bs) (hshape : Shape bs hi) : Represented G s bs hi := by
  obtain ⟨⟨hi, hv⟩, ha, rfl⟩ := hs
  exact ⟨hi, ha, hv, hr, hshape⟩

/-- The same, for a program of which only the final memory is known. -/
theorem Became.of_returns {α : Type} {x : Prog (HeapState τ) α} {r : α} {m : Bytes}
    (h : Represented G s bs hi)
    (ht : Returns ((Kernel.window G.toWindow ⟨kheapStart, hi⟩).Sees (InHeap hi) (G.view s.mem)) x r
      ((Kernel.window G.toWindow ⟨kheapStart, hi⟩).Sees (InHeap hi) m))
    (hr : Represents m bs') (hk : Keeps bs (G.view s.mem) m) (hshape : Shape bs' hi) :
    ∃ s', x.run s = .ok r s' ∧ Became G s bs s' bs' hi := by
  obtain ⟨s', hrun, hs'⟩ := ht s h.sees
  have hm : G.view s'.mem = m := hs'.2.2
  exact ⟨s', hrun, .of_sees hs' hr hshape, by rwa [hm]⟩

theorem Became.trans {s₂ : HeapState τ} {bs₂ : List Block} {hi₁ hi₂ : ℕ}
    (h : Became G s bs s₁ bs' hi₁) (h' : Became G s₁ bs' s₂ bs₂ hi₂)
    (hused : usedBlocks bs ⊆ usedBlocks bs') : Became G s bs s₂ bs₂ hi₂ :=
  ⟨h'.represented, h.keeps.trans (h'.keeps.mono hused)⟩

theorem Represented.laid (h : Represented G s bs hi) : Laid (InHeap hi) kheapStart bs hi where
  tiles := h.shape.tiles
  pos := by decide
  lt := by
    have hb := h.shape.bounded
    unfold vmmPageTables at hb
    omega
  reach _ hy hy' := ⟨hy, hy'⟩

theorem Represented.head (h : Represented G s bs hi) : s.vars.heapHead = firstAddr bs := by
  rw [h.vars]
  have htiles := h.shape.tiles
  have hlt := h.shape.started
  cases bs with
  | nil =>
    unfold Tiles at htiles
    omega
  | cons b bs => exact htiles.1.symm

section Expanding

omit [ByteMem τ] in
theorem kheapExpand_succ {pages : ℕ} : (kheapExpand (pages + 1)).run s = .ok () s' ↔
    ∃ mem, (backPage s.vars.heapCurrentEnd).run s.mem = .ok () mem ∧
      (kheapExpand pages).run ⟨mem, { s.vars with
        heapCurrentEnd := w32 (s.vars.heapCurrentEnd + pageSize) }⟩ = .ok () s' := by
  rw [kheapExpand, run_get_bind, bind_eq_ok]
  constructor
  · rintro ⟨_, s₁, hzoom, hrest⟩
    obtain ⟨mem, hback, rfl⟩ := zoom_eq_ok hzoom
    exact ⟨mem, hback, hrest⟩
  · rintro ⟨mem, hback, hrest⟩
    exact ⟨(), _, zoom_ok hback, hrest⟩

omit [ByteMem τ] in
theorem kheapExpand_add {j k : ℕ} (h : (kheapExpand j).run s = .ok () s') :
    (kheapExpand (j + k)).run s = (kheapExpand k).run s' := by
  induction j generalizing s with
  | zero =>
    cases h
    rw [Nat.zero_add]
  | succ j ih =>
    obtain ⟨mem, hback, hrest⟩ := kheapExpand_succ.mp h
    rw [Nat.succ_add, kheapExpand, run_get_bind, run_bind_ok (onMem_ok hback), run_modify_bind]
    exact ih hrest

omit [ByteMem τ] in
theorem kheapExpand_stops {j pages : ℕ} {t : τ} {e : Stop} (h : (kheapExpand j).run s = .ok () s₁)
    (hback : (backPage s₁.vars.heapCurrentEnd).run s₁.mem = .error e t) (hj : j < pages) :
    (kheapExpand pages).run s = .error e { s₁ with mem := t } := by
  obtain ⟨k, rfl⟩ := Nat.exists_eq_add_of_lt hj
  rw [Nat.add_assoc, kheapExpand_add h, kheapExpand, run_get_bind]
  exact run_bind_error (onMem_error hback)

omit [ByteMem τ] in
theorem kheapExpand_error {pages : ℕ} {e : Stop} (h : (kheapExpand pages).run s = .error e s') :
    ∃ j s₁ t, j < pages ∧ (kheapExpand j).run s = .ok () s₁ ∧
      (backPage s₁.vars.heapCurrentEnd).run s₁.mem = .error e t ∧ s' = { s₁ with mem := t } := by
  induction pages generalizing s with
  | zero => cases h
  | succ pages ih =>
    rw [kheapExpand, run_get_bind, bind_eq_error] at h
    obtain h | ⟨_, s₁, h, hrest⟩ := h
    · obtain ⟨t, ht, rfl⟩ := zoom_eq_error h
      exact ⟨0, s, t, Nat.succ_pos _, rfl, ht, rfl⟩
    · obtain ⟨t, ht, rfl⟩ := zoom_eq_ok h
      rw [run_modify_bind] at hrest
      obtain ⟨j, s₂, t', hj, hrun, hback, rfl⟩ := ih hrest
      exact ⟨j + 1, s₂, t', Nat.succ_lt_succ hj, kheapExpand_succ.mpr ⟨t, ht, hrun⟩, hback, rfl⟩

omit [ByteMem τ] in
/-- The heap grows by any number of pages for which `P` promises the next one. -/
theorem kheapExpand_progress {P : ℕ → ℕ → τ → Prop} (hP : ∀ k hi t, P (k + 1) hi t →
      hi + pageSize ≤ vmmPageTables →
      ∃ t', (backPage hi).run t = .ok () t' ∧ P k (hi + pageSize) t') {pages : ℕ}
    (hs : P pages s.vars.heapCurrentEnd s.mem) (hlim : s.vars.heapCurrentEnd + pages * pageSize ≤ vmmPageTables) :
    ∃ s', (kheapExpand pages).run s = .ok () s' := by
  induction pages generalizing s with
  | zero => exact ⟨s, rfl⟩
  | succ pages ih =>
    have hlimit := vmmPageTables_lt
    have hend : s.vars.heapCurrentEnd + (pages + 1) * pageSize =
        s.vars.heapCurrentEnd + pageSize + pages * pageSize := by
      rw [Nat.succ_mul]
      omega
    rw [hend] at hlim
    obtain ⟨t, hback, ht⟩ := hP pages s.vars.heapCurrentEnd s.mem hs (by omega)
    have hw : w32 (s.vars.heapCurrentEnd + pageSize) = s.vars.heapCurrentEnd + pageSize :=
      w32_of_lt (by omega)
    obtain ⟨s', hrun⟩ := ih (s := ⟨t, { s.vars with
      heapCurrentEnd := s.vars.heapCurrentEnd + pageSize }⟩) ht hlim
    exact ⟨s', kheapExpand_succ.mpr ⟨t, hback, by rwa [hw]⟩⟩

theorem kheapExpand_ok {pages : ℕ} (hinv : G.inv s.mem)
    (hacc : G.acc s.mem = InHeap s.vars.heapCurrentEnd) (hlo : kheapStart ≤ s.vars.heapCurrentEnd)
    (hal : 4096 ∣ s.vars.heapCurrentEnd) (hlim : s.vars.heapCurrentEnd ≤ vmmPageTables)
    (hr : (kheapExpand pages).run s = .ok () s') :
    s.vars.heapCurrentEnd + pages * pageSize ≤ vmmPageTables ∧ G.inv s'.mem ∧
      G.acc s'.mem = InHeap (s.vars.heapCurrentEnd + pages * pageSize) ∧
      s'.vars = { s.vars with heapCurrentEnd := s.vars.heapCurrentEnd + pages * pageSize } ∧
      ∀ a, InHeap s.vars.heapCurrentEnd a → G.view s'.mem a = G.view s.mem a := by
  induction pages generalizing s with
  | zero =>
    cases hr
    rw [Nat.zero_mul, Nat.add_zero]
    exact ⟨hlim, hinv, hacc, rfl, fun _ _ ↦ rfl⟩
  | succ pages ih =>
    obtain ⟨mem, hback, hrest⟩ := kheapExpand_succ.mp hr
    obtain ⟨hlim', hinv', hacc', hview⟩ := G.grow_ok hinv hacc hlo hal hback
    have hw : w32 (s.vars.heapCurrentEnd + pageSize) = s.vars.heapCurrentEnd + 4096 := by
      unfold vmmPageTables at hlim'
      exact w32_of_lt (by unfold pageSize; omega)
    rw [hw] at hrest
    obtain ⟨h₁, h₂, h₃, h₄, h₅⟩ := ih (s := ⟨mem, { s.vars with
      heapCurrentEnd := s.vars.heapCurrentEnd + 4096 }⟩) hinv' hacc' (by dsimp only; omega)
      (by dsimp only; omega) hlim' hrest
    have hend : s.vars.heapCurrentEnd + 4096 + pages * pageSize =
        s.vars.heapCurrentEnd + (pages + 1) * pageSize := by
      unfold pageSize
      omega
    rw [hend] at h₁ h₃ h₄
    refine ⟨h₁, h₂, h₃, h₄, fun a ha ↦ ?_⟩
    rw [h₅ a ⟨ha.1, ha.2.trans_le (Nat.le_add_right _ _)⟩, hview a ha]

/-- A heap keeps its blocks while its end moves up. -/
theorem Represented.expand {pages : ℕ} (h : Represented G s bs hi)
    (hr : (kheapExpand pages).run s = .ok () s') :
    hi + pages * pageSize ≤ vmmPageTables ∧
      (Kernel.window G.toWindow ⟨kheapStart, hi + pages * pageSize⟩).Sees
        (InHeap (hi + pages * pageSize)) (G.view s'.mem) s' ∧
      Represents (G.view s'.mem) bs ∧ Keeps bs (G.view s.mem) (G.view s'.mem) := by
  have hvars := h.vars
  have hstarted := h.shape.started
  obtain ⟨h₁, h₂, h₃, h₄, h₅⟩ := kheapExpand_ok (G := G) h.inv (by rw [hvars]; exact h.acc)
    (by rw [hvars]; exact hstarted.le) (by rw [hvars]; exact h.shape.aligned)
    (by rw [hvars]; exact h.shape.bounded) hr
  rw [hvars] at h₁ h₃ h₄ h₅
  have hsame (y : ℕ) (hy : kheapStart ≤ y ∧ y < hi) : G.view s'.mem y = G.view s.mem y := h₅ y hy
  refine ⟨h₁, ⟨⟨h₂, h₄⟩, h₃, rfl⟩, h.blocks.congr fun b hb ↦ ?_, fun b hb y hy hy' ↦ hsame y ?_⟩
  · have hbounds := h.shape.tiles.bounds hb
    unfold Block.stop heapNodeSize at hbounds
    exact nodeAt_congr fun i hi' ↦ hsame _ (by omega)
  · have hbounds := h.shape.tiles.bounds (mem_usedBlocks.mp hb).1
    unfold Block.payload at hy
    omega

/-- A heap that stops growing has its blocks still, in the pages that were added. -/
theorem Represented.expand_stop {pages : ℕ} {e : Stop} (h : Represented G s bs hi)
    (hr : (kheapExpand pages).run s = .error e s') : ∃ j s₁ t, j < pages ∧
      (Kernel.window G.toWindow ⟨kheapStart, hi + j * pageSize⟩).Sees (InHeap (hi + j * pageSize))
        (G.view s₁.mem) s₁ ∧
      (backPage (hi + j * pageSize)).run s₁.mem = .error e t ∧ s' = { s₁ with mem := t } := by
  obtain ⟨j, s₁, t, hj, hrun, hback, rfl⟩ := kheapExpand_error hr
  obtain ⟨-, hsees, -⟩ := h.expand hrun
  have hvars : s₁.vars = ⟨kheapStart, hi + j * pageSize⟩ := hsees.1.2
  rw [hvars] at hback
  exact ⟨j, s₁, t, hj, hsees, hback, rfl⟩

end Expanding

section Extending

theorem usedBlocks_concat_free {x : Block} (hx : x.free = true) :
    usedBlocks (bs ++ [x]) = usedBlocks bs := by
  rw [usedBlocks, List.filter_append, List.filter_singleton, hx]
  exact List.append_nil _

/-- Once the pages are there, the new block is linked in and merged. -/
theorem extend_of_expand (h : Represented G s (l ++ [c]) hi)
    (hn : 0 < pagesNeeded n) (hr : (kheapExpand (pagesNeeded n)).run s = .ok () s₁) :
    ∃ s', (extend c.addr n).run s = .ok () s' ∧
      Became G s (l ++ [c]) s' (grown n hi (l ++ [c])) (hi + pagesNeeded n * pageSize) := by
  obtain ⟨hpages, hpages'⟩ := pagesNeeded_bounds hn
  obtain ⟨hlim, hs₁, hr₁, hk₁⟩ := h.expand hr
  have hshape := h.shape.grown hn hlim
  set hi' := hi + pagesNeeded n * pageSize with hhi'
  set x : Block := ⟨hi, pagesNeeded n * pageSize - heapNodeSize, true⟩ with hx
  have hlimit := vmmPageTables_lt
  have hstarted := h.shape.started
  have hreach : ∀ y, kheapStart ≤ y → y < hi' → InHeap hi' y := fun y hy hy' ↦ ⟨hy, hy'⟩
  have hstop : x.stop heapNodeSize = hi' := by
    unfold Block.stop
    dsimp only [x]
    omega
  have hlaid : Laid (InHeap hi') kheapStart (l ++ [c]) hi :=
    ⟨h.shape.tiles, by decide, by omega, fun y hy hy' ↦ hreach y hy (by omega)⟩
  have hlaid' : Laid (InHeap hi') kheapStart (l ++ [c] ++ [x]) hi' :=
    ⟨tiles_append.mpr ⟨hi, h.shape.tiles, rfl, hstop⟩, by decide, by omega, hreach⟩
  have hapart : ∀ d ∈ l ++ [c], Apart x.addr d.addr := fun d hd ↦ by
    have hbounds := (h.shape.tiles.bounds hd).2
    unfold Block.stop heapNodeSize at hbounds
    exact .inr (show d.addr + 16 ≤ hi by omega)
  have hreachx : Reaches (InHeap hi') hi := hlaid'.reaches (b := x) (by simp)
  have hreachc : Reaches (InHeap hi') c.addr := hlaid.reaches (by simp)
  have hlink := represents_link (s := x.size) hlaid hr₁ hapart (show hi < 4294967296 by omega)
    (show pagesNeeded n * pageSize - heapNodeSize < 4294967296 by omega)
  have hsize : sub32 (w32 (pagesNeeded n * pageSize)) heapNodeSize = x.size := by
    rw [w32_of_lt hpages', sub32_of_le (by omega) hpages']
  have hptr : w32 (hi + heapNodeSize) = x.payload heapNodeSize :=
    w32_of_lt (show hi + heapNodeSize < 4294967296 by omega)
  have hk₂ : Keeps (l ++ [c] ++ [x]) (G.view s₁.mem)
      (link (G.view s₁.mem) c.addr hi x.size (firstAddr [])) :=
    .trans (keeps_header (c := x) hlaid'.tiles (by simp) rfl sameOff_newNode)
      (keeps_header (c := c) hlaid'.tiles (by simp) rfl sameOff_setNext)
  rw [List.append_cons] at hlink
  obtain ⟨m', ht, hrep, hk₃⟩ := kfree_returns G.toWindow (e := ⟨kheapStart, hi'⟩) hlaid' hlink
    h.shape.merged .nil
  have hused : usedBlocks (l ++ [c]) ⊆ usedBlocks (l ++ [c] ++ [x]) := by
    rw [usedBlocks_concat_free (x := x) rfl]
    exact fun _ hb ↦ hb
  have htriple : Returns ((Kernel.window G.toWindow ⟨kheapStart, hi'⟩).Sees (InHeap hi')
      (G.view s₁.mem)) (do
        writeSize hi x.size
        writeFree hi true
        writeNext hi 0
        writePrev hi c.addr
        writeNext c.addr hi
        kfree (x.payload heapNodeSize)) ()
      ((Kernel.window G.toWindow ⟨kheapStart, hi'⟩).Sees (InHeap hi') m') :=
    (writeSize_returns _ hreachx _).seq <| (writeFree_returns _ hreachx _).seq <|
      (writeNext_returns _ hreachx _).seq <| (writePrev_returns _ hreachx _).seq <|
        (writeNext_returns _ hreachc _).seq ht
  obtain ⟨s', hrun, hs'⟩ := htriple s₁ hs₁
  have hm : G.view s'.mem = m' := hs'.2.2
  refine ⟨s', ?_, .of_sees hs' hrep hshape, ?_⟩
  · rw [extend, run_get_bind, run_bind_ok hr, hsize, h.vars, hptr]
    exact hrun
  · rw [hm]
    exact hk₁.trans ((hk₂.trans hk₃).mono hused)

theorem Represented.exists_last (h : Represented G s bs hi) : ∃ l c, bs = l ++ [c] := by
  have htiles := h.shape.tiles
  have hstarted := h.shape.started
  rcases List.eq_nil_or_concat bs with rfl | ⟨l, c, rfl⟩
  · unfold Tiles at htiles
    omega
  · exact ⟨l, c, List.concat_eq_append⟩

end Extending

section Allocating

/-- What `kmalloc` may do with the blocks: place the request, or grow and place it. -/
inductive Allocated (n : ℕ) (bs : List Block) (hi p : ℕ) (bs' : List Block) : ℕ → Prop
  | placed : place (roundUp n) bs = some (p, bs') → Allocated n bs hi p bs' hi
  | grown : place (roundUp n) bs = none →
      place (roundUp n) (Blocks.grown (roundUp n) hi bs) = some (p, bs') →
      Allocated n bs hi p bs' (hi + pagesNeeded (roundUp n) * pageSize)

theorem kmalloc_eq_search (hn : 0 < n) (h : Represented G s bs hi) (fuel : ℕ) :
    (kmalloc fuel n).run s = (search (roundUp n) fuel (firstAddr bs)).run s := by
  rw [← h.head, kmalloc, if_neg hn.ne']
  rfl

/-- A request that fits some block is placed in the first such block. -/
theorem kmalloc_placed (hn : ValidSize n) (h : Represented G s bs hi)
    (hp : place (roundUp n) bs = some (p, bs')) (hf : bs.length ≤ fuel) :
    ∃ s', (kmalloc fuel n).run s = .ok p s' ∧ Became G s bs s' bs' hi := by
  obtain ⟨hdvd, hle, -⟩ := hn.roundUp
  obtain ⟨m', ht, hr, hk⟩ := search_returns G.toWindow (e := ⟨kheapStart, hi⟩) h.laid
    h.blocks hn.add_lt hp hf
  rw [kmalloc_eq_search hn.pos h]
  exact Became.of_returns h ht hr hk (h.shape.place ⟨hdvd, hle⟩ hp)

theorem length_push_le (b : Block) (bs : List Block) :
    (push heapNodeSize b bs).length ≤ bs.length + 1 := by
  cases bs with
  | nil => exact le_rfl
  | cons c bs =>
    rw [push]
    split <;> simp

theorem length_grown_le : (Blocks.grown n hi bs).length ≤ bs.length + 1 := by
  have hfold (l : List Block) : (coalesce heapNodeSize l).length ≤ l.length := by
    induction l with
    | nil => exact le_rfl
    | cons b l ih =>
      have hb := length_push_le b (coalesce heapNodeSize l)
      rw [List.length_cons]
      change (push heapNodeSize b (coalesce heapNodeSize l)).length ≤ _
      omega
  have hl := hfold (bs ++ [⟨hi, pagesNeeded n * pageSize - heapNodeSize, true⟩])
  rw [List.length_append] at hl
  exact hl

/-- A search that finds nothing goes on in the heap that has grown. -/
theorem search_grown (hn : 0 < pagesNeeded n) (h : Represented G s bs hi) (hp : place n bs = none)
    (hr : (kheapExpand (pagesNeeded n)).run s = .ok () s₁) :
    ∃ s₂, Became G s bs s₂ (Blocks.grown n hi bs) (hi + pagesNeeded n * pageSize) ∧
      ∀ fuel, (search n (fuel + bs.length) (firstAddr bs)).run s =
        (search n fuel (firstAddr (Blocks.grown n hi bs))).run s₂ := by
  obtain ⟨l, c, rfl⟩ := h.exists_last
  obtain ⟨s₂, hext, hb⟩ := extend_of_expand h hn hr
  refine ⟨s₂, hb, fun fuel ↦ ?_⟩
  rw [List.length_append, List.length_singleton, search_grows G.toWindow h.sees h.laid h.blocks hp,
    run_bind_ok hext, run_get_bind, hb.represented.head]

/-- A request that fits nowhere is placed once the heap has grown. -/
theorem kmalloc_grown (hn : ValidSize n) (h : Represented G s bs hi)
    (hp : place (roundUp n) bs = none) (hf : 2 * bs.length + 1 ≤ fuel)
    (hr : (kheapExpand (pagesNeeded (roundUp n))).run s = .ok () s₁) :
    ∃ p bs' s', place (roundUp n) (Blocks.grown (roundUp n) hi bs) = some (p, bs') ∧
      (kmalloc fuel n).run s = .ok p s' ∧
      Became G s bs s' bs' (hi + pagesNeeded (roundUp n) * pageSize) := by
  obtain ⟨s₂, hb, hsearch⟩ := search_grown hn.pagesNeeded_pos h hp hr
  obtain ⟨⟨p, bs'⟩, hplace⟩ : ∃ r, place (roundUp n) (Blocks.grown (roundUp n) hi bs) = some r := by
    rw [← Option.isSome_iff_exists, Option.isSome_iff_ne_none, Ne, place_eq_none]
    intro hnone
    have hfits : ∃ b ∈ Blocks.grown (roundUp n) hi bs, Fits (roundUp n) b :=
      exists_fits_grown hn.lt
    obtain ⟨b, hb, hfit⟩ := hfits
    exact hnone b hb hfit
  have hlen : (Blocks.grown (roundUp n) hi bs).length ≤ bs.length + 1 := length_grown_le
  obtain ⟨fuel, rfl⟩ := Nat.exists_eq_add_of_le' (show bs.length ≤ fuel by omega)
  have hfuel : (Blocks.grown (roundUp n) hi bs).length ≤ fuel := by omega
  obtain ⟨s', hrun, hb'⟩ := kmalloc_placed hn hb.represented hplace hfuel
  refine ⟨p, bs', s', hplace, ?_, hb.trans hb' (by rw [usedBlocks_grown]; exact fun _ h ↦ h)⟩
  rw [kmalloc_eq_search hn.pos h, hsearch, ← kmalloc_eq_search hn.pos hb.represented, hrun]

/-- A request is served if the heap can grow as far as may be needed. -/
theorem kmalloc_served (hn : ValidSize n) (h : Represented G s bs hi)
    (hexp : ∃ s₁, (kheapExpand (pagesNeeded (roundUp n))).run s = .ok () s₁) :
    ∃ p s' bs' hi', (kmalloc (2 * bs.length + 1) n).run s = .ok p s' ∧
      Allocated n bs hi p bs' hi' ∧ Became G s bs s' bs' hi' := by
  cases hp : place (roundUp n) bs with
  | some r =>
    obtain ⟨p, bs'⟩ := r
    obtain ⟨s', hrun, hb⟩ := kmalloc_placed hn h hp (show bs.length ≤ 2 * bs.length + 1 by omega)
    exact ⟨p, s', bs', hi, hrun, .placed hp, hb⟩
  | none =>
    obtain ⟨s₁, hexp⟩ := hexp
    obtain ⟨p, bs', s', hp', hrun, hb⟩ := kmalloc_grown hn h hp le_rfl hexp
    exact ⟨p, s', bs', _, hrun, .grown hp hp', hb⟩

/-- Whenever `kmalloc` comes back, it has placed the request, after growing at most once. -/
theorem kmalloc_ok (hn : ValidSize n) (h : Represented G s bs hi)
    (hr : (kmalloc fuel n).run s = .ok p s') :
    ∃ bs' hi', Allocated n bs hi p bs' hi' ∧ Became G s bs s' bs' hi' := by
  rw [kmalloc_eq_search hn.pos h] at hr
  -- More fuel gives the same run, so there may be enough of it.
  have hrun := search_mono_le (Nat.le_add_right fuel (2 * bs.length + 1)) hr
  cases hp : place (roundUp n) bs with
  | some r =>
    obtain ⟨q, bs'⟩ := r
    have hfuel : bs.length ≤ fuel + (2 * bs.length + 1) := by omega
    obtain ⟨s'', hrun', hb⟩ := kmalloc_placed hn h hp hfuel
    rw [kmalloc_eq_search hn.pos h, hrun] at hrun'
    cases hrun'
    exact ⟨bs', hi, .placed hp, hb⟩
  | none =>
    have hexpand : ∃ s₁, (kheapExpand (pagesNeeded (roundUp n))).run s = .ok () s₁ := by
      obtain ⟨l, c, rfl⟩ := h.exists_last
      have hsearch := search_grows G.toWindow h.sees h.laid h.blocks hp
        (fuel + (l.length + 1) + 1)
      have hfuel : fuel + (l.length + 1) + 1 + (l.length + 1) = fuel + (2 * (l ++ [c]).length + 1) := by
        rw [List.length_append, List.length_singleton]
        omega
      rw [hfuel, hrun] at hsearch
      obtain ⟨_, s₂, hext, -⟩ := bind_eq_ok.mp hsearch.symm
      rw [extend, run_get_bind] at hext
      obtain ⟨_, s₁, hexp, -⟩ := bind_eq_ok.mp hext
      exact ⟨s₁, hexp⟩
    obtain ⟨s₁, hexp⟩ := hexpand
    have hfuel : 2 * bs.length + 1 ≤ fuel + (2 * bs.length + 1) := by omega
    obtain ⟨q, bs', s'', hplace, hrun', hb⟩ := kmalloc_grown hn h hp hfuel hexp
    rw [kmalloc_eq_search hn.pos h, hrun] at hrun'
    cases hrun'
    exact ⟨bs', _, .grown hp hplace, hb⟩

end Allocating

section Freeing

theorem kfree_ok (h : Represented G s bs hi) (hb : b ∈ bs) :
    ∃ s', (kfree (b.payload heapNodeSize)).run s = .ok () s' ∧
      Represented G s' (released (b.payload heapNodeSize) bs) hi ∧
      Keeps (markFree heapNodeSize (b.payload heapNodeSize) bs) (G.view s.mem) (G.view s'.mem) := by
  obtain ⟨l, r, rfl⟩ := List.append_of_mem hb
  have hmerged := h.shape.merged
  obtain ⟨m', ht, hr, hk⟩ := kfree_returns G.toWindow (e := ⟨kheapStart, hi⟩) h.laid h.blocks
    hmerged.left_of_append hmerged.right_of_append.tail
  have hmark := markFree_eq (by decide) h.shape.tiles
  rw [← hmark] at hr hk
  obtain ⟨s', hrun, hs'⟩ := ht s h.sees
  have hm : G.view s'.mem = m' := hs'.2.2
  exact ⟨s', hrun, .of_sees hs' hr (h.shape.released _), by rwa [hm]⟩

end Freeing

section Starting

def initialBlock : Block := ⟨kheapStart, kheapInitialSize - heapNodeSize, true⟩

theorem kheapInit_of_expand (hinv : G.inv s.mem) (hacc : G.acc s.mem = InHeap kheapStart)
    (hvars : s.vars = .initial)
    (hexp : (kheapExpand (kheapInitialSize / pageSize)).run s = .ok () s₁) :
    ∃ s', kheapInit.run s = .ok () s' ∧
      Represented G s' [initialBlock] (kheapStart + kheapInitialSize) := by
  obtain ⟨-, h₂, h₃, h₄, -⟩ := kheapExpand_ok (G := G) hinv (by rw [hvars]; exact hacc)
    (by rw [hvars]; exact le_rfl) (by rw [hvars]; decide) (by rw [hvars]; decide) hexp
  rw [hvars] at h₃ h₄
  set hi := kheapStart + kheapInitialSize with hhi
  have hpages : HeapVars.initial.heapCurrentEnd + kheapInitialSize / pageSize * pageSize = hi := by
    decide
  rw [hpages] at h₃ h₄
  have hreach : Reaches (InHeap hi) kheapStart := fun i hi' ↦
    ⟨Nat.le_add_right _ _, Nat.add_lt_add_left (hi'.trans (by decide)) _⟩
  set m := newNode (G.view s₁.mem) kheapStart (kheapInitialSize - heapNodeSize) 0 0
  have ht : Returns ((Kernel.window G.toWindow ⟨kheapStart, hi⟩).Sees (InHeap hi) (G.view s₁.mem))
      (do
        writeSize kheapStart (kheapInitialSize - heapNodeSize)
        writeFree kheapStart true
        writeNext kheapStart 0
        writePrev kheapStart 0) ()
      ((Kernel.window G.toWindow ⟨kheapStart, hi⟩).Sees (InHeap hi) m) :=
    (writeSize_returns _ hreach _).seq <| (writeFree_returns _ hreach _).seq <|
      (writeNext_returns _ hreach _).seq (writePrev_returns _ hreach _)
  obtain ⟨s', hrun, hs'⟩ := ht { s₁ with vars := { s₁.vars with heapHead := kheapStart } }
    ⟨⟨h₂, by rw [h₄]⟩, h₃, rfl⟩
  have hnode : nodeAt m kheapStart = ⟨kheapInitialSize - heapNodeSize, true, 0, 0⟩ :=
    nodeAt_newNode (by decide) (by decide) (by decide)
  refine ⟨s', by rw [kheapInit, run_bind_ok hexp, run_modify_bind, hrun],
    .of_sees hs' ⟨⟨congrArg HeapNode.prev hnode, congrArg HeapNode.next hnode, trivial⟩, ?_⟩ ?_⟩
  · exact List.forall_mem_singleton.mpr
      ⟨congrArg HeapNode.size hnode, congrArg HeapNode.free hnode⟩
  · have hstop : initialBlock.stop heapNodeSize = kheapStart + kheapInitialSize := by decide
    exact ⟨⟨rfl, hstop⟩, List.forall_mem_singleton.mpr (by decide), List.isChain_singleton _,
      by decide, by decide, by decide⟩

theorem kheapInit_ok (hinv : G.inv s.mem) (hacc : G.acc s.mem = InHeap kheapStart)
    (hvars : s.vars = .initial) (hr : kheapInit.run s = .ok () s') :
    Represented G s' [initialBlock] (kheapStart + kheapInitialSize) := by
  rw [kheapInit] at hr
  obtain ⟨_, s₁, hexp, -⟩ := bind_eq_ok.mp hr
  obtain ⟨s'', hrun, hrep⟩ := kheapInit_of_expand hinv hacc hvars hexp
  rw [kheapInit, hr] at hrun
  cases hrun
  exact hrep

end Starting

end KevOS.Heap.Growth
