import KevOS.Heap.Allocate

namespace KevOS.Heap.Headers

open Lib.Program Lib.ByteMemory Machine Nodes Allocate

variable {τ : Type} [ByteMem τ] [PageSource τ] [PageMapper τ] (W : Window τ) {A : ℕ → Prop}
  {m m' : Bytes} {e : HeapVars} {curr x y n p fuel : ℕ} {Q : HeapState τ → Prop}

section Searching

omit [PageSource τ] [PageMapper τ] in
theorem fits_returns (h : Reaches A curr) : Returns ((Kernel.window W e).Sees A m) (fits curr n)
    (decide ((nodeAt m curr).free = true ∧ n ≤ (nodeAt m curr).size))
    ((Kernel.window W e).Sees A m) := by
  unfold fits
  refine (readFree_returns W h).bind ?_
  by_cases hfree : (nodeAt m curr).free = true
  · rw [if_pos hfree]
    refine (readSize_returns W h).bind ?_
    simp only [hfree, true_and]
    exact .pure _
  · rw [if_neg hfree, decide_eq_false fun hfit ↦ hfree hfit.1]
    exact .pure _

omit [PageSource τ] [PageMapper τ] in
theorem fits_used (h : Reaches A curr) (hused : (nodeAt m curr).free = false) :
    Returns ((Kernel.window W e).Sees A m) (fits curr n) false ((Kernel.window W e).Sees A m) := by
  have hfits := @fits_returns _ _ W A m e curr n h
  rwa [decide_eq_false fun hfit ↦ Bool.false_ne_true (hused.symm.trans hfit.1)] at hfits

theorem kmalloc_of_search (hn : n ≠ 0)
    (h : Returns ((Kernel.window W e).Sees A m) (search (roundUp n) fuel e.heapHead) p Q) :
    Returns ((Kernel.window W e).Sees A m) (kmalloc fuel n) p Q := by
  refine .ite_neg hn (Returns.get fun t ht ↦ ?_)
  have hvars : t.vars = e := ht.1.2
  rw [hvars]
  exact h

variable (hcurr : curr ≠ 0) (h : Reaches A curr)
include hcurr h

/-- The search passes a used block. -/
theorem search_next (hused : (nodeAt m curr).free = false) (hnext : (nodeAt m curr).next = x)
    (hx : x ≠ 0) (hrest : Returns ((Kernel.window W e).Sees A m) (search n fuel x) p Q) :
    Returns ((Kernel.window W e).Sees A m) (search n (fuel + 1) curr) p Q := by
  rw [search, if_neg hcurr]
  refine (fits_used W h hused).bind ?_
  rw [if_neg Bool.false_ne_true]
  refine (readNext_returns W h).bind ?_
  rw [hnext, if_neg hx]
  exact hrest

/-- Behind a used block that is the last one, the search makes the heap grow. -/
theorem search_last (hused : (nodeAt m curr).free = false) (hnext : (nodeAt m curr).next = 0)
    (hext : Returns ((Kernel.window W e).Sees A m) (extend curr n) ()
      ((Kernel.window W e).Sees A m'))
    (hrest : Returns ((Kernel.window W e).Sees A m') (search n fuel e.heapHead) p Q) :
    Returns ((Kernel.window W e).Sees A m) (search n (fuel + 1) curr) p Q := by
  rw [search, if_neg hcurr]
  refine (fits_used W h hused).bind ?_
  rw [if_neg Bool.false_ne_true]
  refine (readNext_returns W h).bind ?_
  rw [hnext, if_pos rfl]
  refine hext.seq (Returns.get fun t ht ↦ ?_)
  have hvars : t.vars = e := ht.1.2
  rw [hvars]
  exact hrest

theorem search_here (hfree : (nodeAt m curr).free = true) (hsize : n ≤ (nodeAt m curr).size)
    (htake : Returns ((Kernel.window W e).Sees A m) (takeBlock curr n) p Q) :
    Returns ((Kernel.window W e).Sees A m) (search n (fuel + 1) curr) p Q := by
  rw [search, if_neg hcurr]
  refine (fits_returns W h).bind ?_
  rw [decide_eq_true ⟨hfree, hsize⟩, if_pos rfl]
  exact htake

end Searching

section Blocks

omit [PageSource τ] [PageMapper τ]

variable (h : Reaches A curr)
include h

theorem takeBlock_whole (hsize : (nodeAt m curr).size < w32 (n + heapNodeSize + 8)) :
    Returns ((Kernel.window W e).Sees A m) (takeBlock curr n) (w32 (curr + heapNodeSize))
      ((Kernel.window W e).Sees A (setFree m curr false)) :=
  (readSize_returns W h).bind <|
    .ite_neg (not_le.mpr hsize) ((writeFree_returns W h _).seq (.pure _))

/-- The last block is split, whatever its size is: the rest gets a header of its own. -/
theorem takeBlock_split (hy : Reaches A y) (hnew : w32 (curr + heapNodeSize + n) = y)
    (hapart : Apart y curr) (hlt : curr < 4294967296)
    (hsize : w32 (n + heapNodeSize + 8) ≤ (nodeAt m curr).size)
    (hnext : (nodeAt m curr).next = 0) :
    ∃ m', Returns ((Kernel.window W e).Sees A m) (takeBlock curr n) (w32 (curr + heapNodeSize))
        ((Kernel.window W e).Sees A m') ∧
      (nodeAt m' y).size = sub32 (sub32 (nodeAt m curr).size n) heapNodeSize := by
  set v := sub32 (sub32 (nodeAt m curr).size n) heapNodeSize with hv
  have hvlt : v < 4294967296 := Nat.mod_lt _ (by decide)
  set m₁ := newNode m y v 0 curr with hm₁
  set m₂ := setFree (setSize (setNext m₁ curr y) curr n) curr false with hm₂
  have hfirst : nodeAt (setFree (setSize m y v) y true) curr = nodeAt m curr :=
    nodeAt_of_sameOff (sameOff_setSize.trans sameOff_setFree) hapart
  have hsecond : nodeAt (setPrev (setNext (setFree (setSize m y v) y true) y 0) y curr) curr =
      nodeAt m curr := nodeAt_of_sameOff sameOff_newNode hapart
  have hnode : nodeAt m₁ y = ⟨v, true, 0, curr⟩ := nodeAt_newNode hvlt (by decide) hlt
  have hkeep : nodeAt m₂ y = nodeAt m₁ y :=
    nodeAt_of_sameOff (sameOff_setNext.trans (sameOff_setSize.trans sameOff_setFree)) hapart.symm
  refine ⟨m₂, (readSize_returns W h).bind ?_, by rw [hkeep, hnode]⟩
  refine .ite_pos hsize (Returns.seq ?_ ((writeFree_returns W h _).seq (.pure _)))
  unfold splitBlock
  rw [hnew]
  refine (readSize_returns W h).bind ?_
  rw [← hv]
  refine (writeSize_returns W hy _).seq ((writeFree_returns W hy _).seq ?_)
  refine (readNext_returns W h).bind ?_
  rw [hfirst, hnext]
  refine (writeNext_returns W hy _).seq ((writePrev_returns W hy _).seq ?_)
  refine (readNext_returns W h).bind ?_
  rw [hsecond, hnext]
  exact (writePrevOf_returns W (fun hne ↦ absurd rfl hne) _).seq
    ((writeNext_returns W h _).seq (writeSize_returns W h _))

/-- A block without a next one, behind a used one, is only marked as free. -/
theorem kfree_alone (hlt : curr + heapNodeSize < 4294967296) (hnext : (nodeAt m curr).next = 0)
    (hprev : (nodeAt m curr).prev = x) (hx : x ≠ 0) (hreach : Reaches A x) (hapart : Apart curr x)
    (hused : (nodeAt m x).free = false) :
    Returns ((Kernel.window W e).Sees A m) (kfree (curr + heapNodeSize)) ()
      ((Kernel.window W e).Sees A (setFree m curr true)) := by
  have hnode : sub32 (curr + heapNodeSize) heapNodeSize = curr := by
    rw [sub32_of_le (Nat.le_add_left ..) hlt, Nat.add_sub_cancel]
  have hself : nodeAt (setFree m curr true) curr = { nodeAt m curr with free := true } :=
    nodeAt_setFree true
  have hother : nodeAt (setFree m curr true) x = nodeAt m x := nodeAt_of_sameOff sameOff_setFree hapart
  have hmergeNext : Returns ((Kernel.window W e).Sees A (setFree m curr true)) (mergeNext curr) ()
      ((Kernel.window W e).Sees A (setFree m curr true)) := by
    refine (readNext_returns W h).bind ?_
    rw [hself, hnext]
    exact .ite_neg (not_not.mpr rfl) (.pure ())
  have hmergePrev : Returns ((Kernel.window W e).Sees A (setFree m curr true)) (mergePrev curr) ()
      ((Kernel.window W e).Sees A (setFree m curr true)) := by
    refine (readPrev_returns W h).bind ?_
    rw [hself, hprev]
    refine .ite_pos hx ((readFree_returns W hreach).bind ?_)
    rw [hother, hused]
    exact .ite_neg Bool.false_ne_true (.pure ())
  unfold kfree
  refine .ite_pos (by unfold heapNodeSize; omega) ?_
  rw [hnode]
  exact (writeFree_returns W h _).seq (hmergeNext.seq hmergePrev)

end Blocks

section Growing

/-- Growing by no page at all puts a header at the end of the heap, and calls it a block of
almost 4 GiB. -/
theorem extend_nothing (hneeded : pagesNeeded n = 0) (h : Reaches A curr)
    (hx : Reaches A e.heapCurrentEnd) (hlt : e.heapCurrentEnd + heapNodeSize < 4294967296)
    (hapart : Apart e.heapCurrentEnd curr) (hcurr : curr ≠ 0) (hclt : curr < 4294967296)
    (hused : (nodeAt m curr).free = false) :
    ∃ m', Returns ((Kernel.window W e).Sees A m) (extend curr n) () ((Kernel.window W e).Sees A m') ∧
      nodeAt m' e.heapCurrentEnd = ⟨0xFFFFFFF0, true, 0, curr⟩ ∧
      nodeAt m' curr = { nodeAt m curr with next := e.heapCurrentEnd } ∧
      ∀ y, Apart e.heapCurrentEnd y → Apart curr y → nodeAt m' y = nodeAt m y := by
  obtain ⟨x, hend⟩ : ∃ x, e.heapCurrentEnd = x := ⟨_, rfl⟩
  rw [hend] at hx hlt hapart ⊢
  have hxlt : x < 4294967296 := by
    unfold heapNodeSize at hlt
    omega
  set m₁ := newNode m x 0xFFFFFFF0 0 curr
  set m₂ := setNext m₁ curr x
  have hx₁ : nodeAt m₁ x = ⟨0xFFFFFFF0, true, 0, curr⟩ := nodeAt_newNode (by decide) (by decide) hclt
  have hx₂ : nodeAt m₂ x = ⟨0xFFFFFFF0, true, 0, curr⟩ :=
    (nodeAt_of_sameOff sameOff_setNext hapart.symm).trans hx₁
  have hc₁ : nodeAt m₁ curr = nodeAt m curr := nodeAt_of_sameOff sameOff_newNode hapart
  have hc₂ : nodeAt m₂ curr = { nodeAt m curr with next := x } := by
    rw [nodeAt_setNext hxlt, hc₁]
  have hfree := kfree_alone W (e := e) hx hlt (congrArg HeapNode.next hx₂)
    (congrArg HeapNode.prev hx₂) hcurr h hapart ((congrArg HeapNode.free hc₂).trans hused)
  refine ⟨setFree m₂ x true, ?_, ?_, ?_, fun y hxy hcy ↦ ?_⟩
  · unfold extend
    refine Returns.get fun t ht ↦ ?_
    have hvars : t.vars = e := ht.1.2
    have hsize : sub32 (w32 (0 * pageSize)) heapNodeSize = 0xFFFFFFF0 := by decide
    have hptr : w32 (x + heapNodeSize) = x + heapNodeSize := w32_of_lt hlt
    dsimp only
    rw [hvars, hend, hneeded, hsize, hptr]
    exact (Returns.pure ()).seq <| (writeSize_returns W hx _).seq <| (writeFree_returns W hx _).seq <|
      (writeNext_returns W hx _).seq <| (writePrev_returns W hx _).seq <|
        (writeNext_returns W h _).seq hfree
  · rw [nodeAt_setFree, hx₂]
  · rw [nodeAt_of_sameOff sameOff_setFree hapart, hc₂]
  · rw [nodeAt_of_sameOff sameOff_setFree hxy, nodeAt_of_sameOff sameOff_setNext hcy,
      nodeAt_of_sameOff sameOff_newNode hxy]

end Growing

end KevOS.Heap.Headers
