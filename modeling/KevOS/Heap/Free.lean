import KevOS.Heap.HeapList

namespace KevOS.Heap.Free

open Lib.Program Lib.ByteMemory Lib.Tiling Machine Nodes Blocks HeapList

/-- A tiling that lies in reachable 32-bit memory, away from null. -/
structure Laid (A : ℕ → Prop) (lo : ℕ) (bs : List Block) (hi : ℕ) : Prop where
  tiles : Tiles heapNodeSize lo bs hi
  pos : 0 < lo
  lt : hi < 4294967296
  reach : ∀ y, lo ≤ y → y < hi → A y

section Layout

variable {A : ℕ → Prop} {m : Bytes} {lo hi y v : ℕ} {a b d : Block} {bs l r : List Block}

theorem Laid.reaches (h : Laid A lo bs hi) (hb : b ∈ bs) : Reaches A b.addr := by
  intro i hi'
  have hbounds := h.tiles.bounds hb
  unfold Block.stop heapNodeSize at hbounds
  exact h.reach _ (by omega) (by omega)

/-- The first block of the rest of the list, unless the list ends there. -/
theorem Laid.reaches_first {l r : List Block} (h : Laid A lo (l ++ r) hi) (hne : firstAddr r ≠ 0) :
    Reaches A (firstAddr r) := by
  cases r with
  | nil => exact absurd rfl hne
  | cons d r => exact h.reaches (List.mem_append_right l List.mem_cons_self)

theorem Laid.addr_ne_zero (h : Laid A lo bs hi) (hb : b ∈ bs) : b.addr ≠ 0 := by
  have hbounds := h.tiles.bounds hb
  have hpos := h.pos
  omega

theorem Laid.stop_lt (h : Laid A lo bs hi) (hb : b ∈ bs) :
    b.addr + 16 + b.size < 4294967296 := by
  have hbounds := h.tiles.bounds hb
  have hlt := h.lt
  unfold Block.stop heapNodeSize at hbounds
  omega

theorem Laid.apart (h : Laid A lo (l ++ b :: r) hi) :
    ∀ c ∈ l ++ r, Apart b.addr c.addr := by
  have hp := h.tiles.pairwise
  rw [List.pairwise_append, List.pairwise_cons] at hp
  unfold Block.stop heapNodeSize at hp
  intro c hc
  unfold Apart
  rcases List.mem_append.mp hc with hc | hc
  · have hcb := hp.2.2 c hc b List.mem_cons_self
    omega
  · have hbc := hp.2.1.1 c hc
    omega

theorem nodeAt_relink_of_apart (h : ∀ d ∈ r.head?, Apart d.addr y) :
    nodeAt (setPrevOf m (firstAddr r) v) y = nodeAt m y := by
  cases r with
  | nil => rfl
  | cons d r => exact nodeAt_of_sameOff sameOff_setPrevOf (h d rfl)

theorem nodeAt_relink (hd : d ∈ r.head?) (hne : d.addr ≠ 0) (hv : v < 4294967296) :
    nodeAt (setPrevOf m (firstAddr r) v) d.addr = { nodeAt m d.addr with prev := v } := by
  cases r with
  | nil => cases hd
  | cons c r =>
    cases hd
    exact nodeAt_setPrevOf hne hv

theorem Laid.keeps_relink (h : Laid A lo bs hi) (hr : ∀ d ∈ r.head?, d ∈ bs) :
    Keeps bs m (setPrevOf m (firstAddr r) v) := by
  cases r with
  | nil => exact .refl _ _
  | cons d r => exact keeps_header h.tiles (hr d rfl) rfl sameOff_setPrevOf

end Layout

section Merging

/-- The block at `a` takes over the one at `b` behind it. -/
def absorb (m : Bytes) (a b : ℕ) : Bytes :=
  setPrevOf (setNext (setSize m a (w32 ((nodeAt m a).size + w32 ((nodeAt m b).size + heapNodeSize))))
    a (nodeAt m b).next) (nodeAt m b).next a

variable {A : ℕ → Prop} {m : Bytes} {lo hi : ℕ} {a b : Block} {l r : List Block}

theorem represents_absorb (hl : Laid A lo (l ++ a :: b :: r) hi)
    (hr : Represents m (l ++ a :: b :: r)) :
    Represents (absorb m a.addr b.addr)
      (l ++ ⟨a.addr, a.size + (b.size + heapNodeSize), a.free⟩ :: r) := by
  have ha : a ∈ l ++ a :: b :: r := by simp
  have hb : b ∈ l ++ a :: b :: r := by simp
  have hlt := hl.stop_lt ha
  have hlt' := hl.stop_lt hb
  -- The two blocks lie one behind the other, so their sizes add up below 4 GiB.
  have hseam := (tiles_cons_split.mp hl.tiles).2.1
  unfold Block.stop heapNodeSize at hseam
  have hsize : w32 ((nodeAt m a.addr).size + w32 ((nodeAt m b.addr).size + heapNodeSize)) =
      a.size + (b.size + heapNodeSize) := by
    rw [(hr.data a ha).1, (hr.data b hb).1]
    unfold heapNodeSize
    rw [w32_of_lt (x := b.size + 16) (by omega), w32_of_lt (by omega)]
  have hnext := hr.next_next_eq
  have hapart := hl.apart
  have hapart' (d : Block) (hd : d ∈ r.head?) :
      ∀ c ∈ l ++ a :: b :: r.tail, Apart d.addr c.addr := by
    intro c hc
    obtain ⟨r', rfl⟩ := List.head?_eq_some_iff.mp hd
    have hsplit : l ++ a :: b :: d :: r' = (l ++ [a, b]) ++ d :: r' := by simp
    rw [hsplit] at hl
    exact hl.apart c (by simpa using hc)
  have hhead (d : Block) (hd : d ∈ r.head?) : d ∈ r := List.mem_of_mem_head? hd
  unfold absorb
  rw [hsize, hnext]
  refine hr.remove rfl ?_ (fun d hd ↦ ?_) (fun c hc ↦ ?_)
  · rw [nodeAt_relink_of_apart fun d hd ↦ hapart' d hd a (by simp),
      nodeAt_setNext (by rw [← hnext]; exact nodeAt_next_lt _ _),
      nodeAt_setSize (by unfold heapNodeSize; omega), HeapNode.mk.injEq]
    exact ⟨rfl, (hr.data a ha).2, rfl, rfl⟩
  · have hda : Apart a.addr d.addr := hapart d (by simp [hhead d hd])
    rw [nodeAt_relink hd (hl.addr_ne_zero (by simp [hhead d hd])) (by omega),
      nodeAt_of_sameOff sameOff_setNext hda, nodeAt_of_sameOff sameOff_setSize hda]
  · have hca : Apart a.addr c.addr := by
      refine hapart c ?_
      rcases List.mem_append.mp hc with hc | hc
      · exact List.mem_append_left _ hc
      · exact List.mem_append_right _ (List.mem_cons_of_mem _ (List.mem_of_mem_tail hc))
    have hcd : ∀ d ∈ r.head?, Apart d.addr c.addr := fun d hd ↦ hapart' d hd c (by
      rcases List.mem_append.mp hc with hc | hc
      · exact List.mem_append_left _ hc
      · simp [hc])
    rw [nodeAt_relink_of_apart hcd, nodeAt_of_sameOff sameOff_setNext hca,
      nodeAt_of_sameOff sameOff_setSize hca]

theorem keeps_absorb (hl : Laid A lo (l ++ a :: b :: r) hi)
    (hr : Represents m (l ++ a :: b :: r)) :
    Keeps (l ++ a :: b :: r) m (absorb m a.addr b.addr) := by
  have hnext := hr.next_next_eq
  unfold absorb
  rw [hnext]
  refine .trans (keeps_header (c := a) hl.tiles (by simp) rfl
    (sameOff_setSize.trans sameOff_setNext)) (hl.keeps_relink fun d hd ↦ ?_)
  simp [List.mem_of_mem_head? hd]

variable {τ : Type} [ByteMem τ] (W : Window τ) {e : HeapVars}

theorem mergeNext_returns (hl : Laid A lo (l ++ b :: r) hi) (hr : Represents m (l ++ b :: r))
    (hb : b.free = true) :
    ∃ m', Returns ((Kernel.window W e).Sees A m) (mergeNext b.addr) ()
        ((Kernel.window W e).Sees A m') ∧
      Represents m' (l ++ push heapNodeSize b r) ∧ Keeps (l ++ b :: r) m m' := by
  have hreach := hl.reaches (b := b) (by simp)
  cases r with
  | nil =>
    refine ⟨m, (readNext_returns W hreach).bind ?_, hr, .refl _ _⟩
    rw [hr.next_eq]
    exact .ite_neg (fun h ↦ h rfl) (.pure ())
  | cons c r =>
    have hreach' := hl.reaches (b := c) (by simp)
    have hne : firstAddr (c :: r) ≠ 0 := hl.addr_ne_zero (b := c) (by simp)
    have hfree := (hr.data c (by simp)).2
    by_cases hc : c.free = true
    · refine ⟨absorb m b.addr c.addr, (readNext_returns W hreach).bind ?_, ?_, keeps_absorb hl hr⟩
      · rw [hr.next_eq]
        refine .ite_pos hne ((readFree_returns W hreach').bind (.ite_pos (hfree.trans hc) ?_))
        refine (readSize_returns W hreach).bind ((readSize_returns W hreach').bind ?_)
        refine (writeSize_returns W hreach _).seq ((readNext_returns W hreach').bind ?_)
        rw [nodeAt_of_sameOff sameOff_setSize (hl.apart c (by simp))]
        refine (writeNext_returns W hreach _).seq (writePrevOf_returns W (fun hn ↦ ?_) _)
        rw [hr.next_next_eq] at hn ⊢
        rw [List.append_cons, List.append_cons] at hl
        exact hl.reaches_first hn
      · rw [push_merge hb hc, ← hb]
        exact represents_absorb hl hr
    · refine ⟨m, (readNext_returns W hreach).bind ?_, ?_, .refl _ _⟩
      · rw [hr.next_eq]
        refine .ite_pos hne ((readFree_returns W hreach').bind (.ite_neg ?_ (.pure ())))
        rwa [hfree]
      · rwa [push_keep fun h ↦ hc h.2]

/-- With a block in front, which takes this one over if it is free. -/
theorem mergePrev_returns (hl : Laid A lo (l ++ a :: b :: r) hi)
    (hr : Represents m (l ++ a :: b :: r)) (hb : b.free = true) :
    ∃ m', Returns ((Kernel.window W e).Sees A m) (mergePrev b.addr) ()
        ((Kernel.window W e).Sees A m') ∧
      Represents m' (l ++ push heapNodeSize a (b :: r)) ∧ Keeps (l ++ a :: b :: r) m m' := by
  have hreach := hl.reaches (b := b) (by simp)
  have hreach' := hl.reaches (b := a) (by simp)
  have hprev := hr.next_prev_eq
  have hne : a.addr ≠ 0 := hl.addr_ne_zero (by simp)
  have hfree := (hr.data a (by simp)).2
  by_cases ha : a.free = true
  · refine ⟨absorb m a.addr b.addr, (readPrev_returns W hreach).bind ?_, ?_, keeps_absorb hl hr⟩
    · rw [hprev]
      refine .ite_pos hne ((readFree_returns W hreach').bind (.ite_pos (hfree.trans ha) ?_))
      refine (readSize_returns W hreach').bind ((readSize_returns W hreach).bind ?_)
      refine (writeSize_returns W hreach' _).seq ((readNext_returns W hreach).bind ?_)
      rw [nodeAt_of_sameOff sameOff_setSize (hl.apart b (by simp))]
      refine (writeNext_returns W hreach' _).seq (writePrevOf_returns W (fun hn ↦ ?_) _)
      rw [hr.next_next_eq] at hn ⊢
      rw [List.append_cons, List.append_cons] at hl
      exact hl.reaches_first hn
    · rw [push_merge ha hb, ← ha]
      exact represents_absorb hl hr
  · refine ⟨m, (readPrev_returns W hreach).bind ?_, ?_, .refl _ _⟩
    · rw [hprev]
      refine .ite_pos hne ((readFree_returns W hreach').bind (.ite_neg ?_ (.pure ())))
      rwa [hfree]
    · rwa [push_keep fun h ↦ ha h.1]

theorem mergePrev_first (hl : Laid A lo (b :: r) hi) (hr : Represents m (b :: r)) :
    Returns ((Kernel.window W e).Sees A m) (mergePrev b.addr) ()
      ((Kernel.window W e).Sees A m) := by
  refine (readPrev_returns W (hl.reaches (b := b) (by simp))).bind ?_
  rw [Represents.prev_eq (l := []) hr]
  exact .ite_neg (fun h ↦ h rfl) (.pure ())

end Merging

section Freeing

variable {τ : Type} [ByteMem τ] (W : Window τ) {A : ℕ → Prop} {m : Bytes} {e : HeapVars}
  {lo hi : ℕ} {b : Block} {l r : List Block}

/-- Freeing a block between two merged parts of the list merges it with its
neighbours, and leaves the payloads of the other used blocks alone. -/
theorem kfree_returns (hl : Laid A lo (l ++ b :: r) hi) (hr : Represents m (l ++ b :: r))
    (hleft : NoAdjacentFree l) (hright : NoAdjacentFree r) :
    ∃ m', Returns ((Kernel.window W e).Sees A m) (kfree (b.payload heapNodeSize)) ()
        ((Kernel.window W e).Sees A m') ∧
      Represents m' (coalesce heapNodeSize (l ++ { b with free := true } :: r)) ∧
      Keeps (l ++ { b with free := true } :: r) m m' := by
  have hb : b ∈ l ++ b :: r := by simp
  have hreach := hl.reaches hb
  have hlt := hl.stop_lt hb
  have hnode : sub32 (b.payload heapNodeSize) heapNodeSize = b.addr := by
    unfold Block.payload heapNodeSize
    rw [sub32_of_le (by omega) (by omega)]
    omega
  set b' : Block := { b with free := true } with hb'
  set m₁ := setFree m b.addr true
  have hl₁ : Laid A lo (l ++ b' :: r) hi := by
    obtain ⟨htl, htr⟩ := tiles_cons_split.mp hl.tiles
    exact ⟨tiles_cons_split.mpr ⟨htl, htr⟩, hl.pos, hl.lt, hl.reach⟩
  have hr₁ : Represents m₁ (l ++ b' :: r) := by
    refine hr.update rfl ?_ fun c hc ↦ nodeAt_of_sameOff sameOff_setFree (hl.apart c hc)
    rw [nodeAt_setFree]
    have hsize := (hr.data b hb).1
    rw [HeapNode.mk.injEq]
    exact ⟨hsize, rfl, rfl, rfl⟩
  have hk₁ : Keeps (l ++ b' :: r) m m₁ :=
    keeps_header (c := b') hl₁.tiles (by simp) rfl sameOff_setFree
  obtain ⟨m₂, ht₂, hr₂, hk₂⟩ := mergeNext_returns W (e := e) hl₁ hr₁ rfl
  obtain ⟨c, r', hpush, haddr, hfree, -⟩ := exists_push_eq (k := heapNodeSize) b' r
  have hl₂ : Laid A lo (l ++ c :: r') hi := by
    obtain ⟨mid, htl, htr⟩ := tiles_append.mp hl₁.tiles
    refine ⟨tiles_append.mpr ⟨mid, htl, ?_⟩, hl.pos, hl.lt, hl.reach⟩
    rw [← hpush]
    exact tiles_push htr
  have hused : usedBlocks (l ++ b' :: r) ⊆ usedBlocks (l ++ c :: r') := by
    have hp : usedBlocks (c :: r') = usedBlocks (b' :: r) := by
      rw [← hpush]
      exact usedBlocks_push
    unfold usedBlocks at hp ⊢
    rw [List.filter_append, List.filter_append, hp]
    exact fun _ h ↦ h
  rw [hpush] at hr₂
  have hptr : b.payload heapNodeSize ≠ 0 := by
    unfold Block.payload heapNodeSize
    omega
  have hrun {Q : HeapState τ → Prop}
      (h : Returns ((Kernel.window W e).Sees A m₂) (mergePrev b.addr) () Q) :
      Returns ((Kernel.window W e).Sees A m) (kfree (b.payload heapNodeSize)) () Q := by
    refine .ite_pos hptr ?_
    rw [hnode]
    exact (writeFree_returns W hreach true).seq (ht₂.seq h)
  rcases List.eq_nil_or_concat l with rfl | ⟨l', a, rfl⟩
  · refine ⟨m₂, hrun ?_, ?_, hk₁.trans hk₂⟩
    · rw [← show c.addr = b.addr from haddr]
      exact mergePrev_first W hl₂ hr₂
    · rw [List.nil_append, coalesce, List.foldr_cons]
      change Represents m₂ (push heapNodeSize b' (coalesce heapNodeSize r))
      rw [coalesce_of_noAdjacentFree hright, hpush]
      exact hr₂
  · simp only [List.concat_eq_append, List.append_assoc, List.singleton_append] at *
    obtain ⟨m₃, ht₃, hr₃, hk₃⟩ := mergePrev_returns W (e := e) hl₂ hr₂ hfree
    refine ⟨m₃, hrun ?_, ?_, hk₁.trans (hk₂.trans (hk₃.mono hused))⟩
    · rw [← show c.addr = b.addr from haddr]
      exact ht₃
    · rw [coalesce_seam hleft hright, hpush]
      exact hr₃

end Freeing

end KevOS.Heap.Free
