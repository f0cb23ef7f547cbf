import KevOS.Heap.Free

namespace KevOS.Heap.Allocate

open Lib.Program Lib.ByteMemory Lib.Tiling Machine Nodes Blocks HeapList Free

section Linking

/-- The four writes that make a free block at `x`. -/
def newNode (m : Bytes) (x size next prev : ℕ) : Bytes :=
  setPrev (setNext (setFree (setSize m x size) x true) x next) x prev

/-- A new free block at `x`, linked in between `c` and `next`. -/
def link (m : Bytes) (c x size next : ℕ) : Bytes :=
  setNext (setPrevOf (newNode m x size next c) next x) c x

variable {A : ℕ → Prop} {m : Bytes} {lo hi x s n p : ℕ} {b c : Block} {l r : List Block}

theorem sameOff_newNode {next prev : ℕ} : SameOff x m (newNode m x s next prev) :=
  sameOff_setSize.trans (sameOff_setFree.trans (sameOff_setNext.trans sameOff_setPrev))

theorem nodeAt_newNode {next prev : ℕ} (hs : s < 4294967296) (hn : next < 4294967296)
    (hp : prev < 4294967296) : nodeAt (newNode m x s next prev) x = ⟨s, true, next, prev⟩ := by
  unfold newNode
  rw [nodeAt_setPrev hp, nodeAt_setNext hn, nodeAt_setFree, nodeAt_setSize hs]

theorem Laid.firstAddr_lt (h : Laid A lo (l ++ r) hi) : firstAddr r < 4294967296 := by
  cases r with
  | nil => exact (by decide : 0 < 4294967296)
  | cons d r =>
    have hlt := h.stop_lt (b := d) (by simp)
    exact (by omega : d.addr < 4294967296)

theorem represents_link (hl : Laid A lo (l ++ c :: r) hi) (hr : Represents m (l ++ c :: r))
    (hx : ∀ d ∈ l ++ c :: r, Apart x d.addr) (hlt : x < 4294967296) (hs : s < 4294967296) :
    Represents (link m c.addr x s (firstAddr r)) (l ++ c :: ⟨x, s, true⟩ :: r) := by
  have hc : c ∈ l ++ c :: r := by simp
  have hcx := hx c hc
  have hapart := hl.apart
  have hfirst : firstAddr r < 4294967296 := by
    rw [List.append_cons] at hl
    exact Laid.firstAddr_lt hl
  have hclt := hl.stop_lt hc
  have hmem (d : Block) (hd : d ∈ r.head?) : d ∈ r := List.mem_of_mem_head? hd
  have hdc (d : Block) (hd : d ∈ r.head?) : Apart d.addr c.addr :=
    (hapart d (List.mem_append_right _ (hmem d hd))).symm
  have hxd (d : Block) (hd : d ∈ r) : Apart x d.addr := hx d (by simp [hd])
  have hdata := hr.data c hc
  unfold link
  refine hr.insert rfl ?_ ?_ (fun d hd ↦ ?_) (fun d hd ↦ ?_)
  · rw [nodeAt_setNext hlt, nodeAt_relink_of_apart hdc, nodeAt_of_sameOff sameOff_newNode hcx,
      HeapNode.mk.injEq]
    exact ⟨hdata.1, hdata.2, rfl, rfl⟩
  · rw [nodeAt_of_sameOff sameOff_setNext hcx.symm,
      nodeAt_relink_of_apart fun d hd ↦ (hxd d (hmem d hd)).symm,
      nodeAt_newNode hs hfirst (by omega)]
  · rw [nodeAt_of_sameOff sameOff_setNext (hdc d hd).symm,
      nodeAt_relink hd (hl.addr_ne_zero (by simp [hmem d hd])) hlt,
      nodeAt_of_sameOff sameOff_newNode (hxd d (hmem d hd))]
  · have hdr : d ∈ l ++ r := by
      rcases List.mem_append.mp hd with hd | hd
      · exact List.mem_append_left _ hd
      · exact List.mem_append_right _ (List.mem_of_mem_tail hd)
    have hdx : Apart x d.addr := by
      refine hx d ?_
      rcases List.mem_append.mp hdr with hd | hd
      · exact List.mem_append_left _ hd
      · exact List.mem_append_right _ (List.mem_cons_of_mem _ hd)
    have hhead : ∀ e ∈ r.head?, Apart e.addr d.addr := by
      intro e he
      obtain ⟨r', rfl⟩ := List.head?_eq_some_iff.mp he
      have hsplit : l ++ c :: e :: r' = (l ++ [c]) ++ e :: r' := by simp
      rw [hsplit] at hl
      refine hl.apart d ?_
      rcases List.mem_append.mp hd with hd | hd
      · simp [hd]
      · exact List.mem_append_right _ hd
    rw [nodeAt_of_sameOff sameOff_setNext (hapart d hdr), nodeAt_relink_of_apart hhead,
      nodeAt_of_sameOff sameOff_newNode hdx]

theorem keeps_link (hl : Laid A lo (l ++ c :: r) hi) (hk : Keeps (l ++ c :: r) m
    (newNode m x s (firstAddr r) c.addr)) :
    Keeps (l ++ c :: r) m (link m c.addr x s (firstAddr r)) :=
  hk.trans (.trans (hl.keeps_relink fun d hd ↦ by simp [List.mem_of_mem_head? hd])
    (keeps_header (c := c) hl.tiles (by simp) rfl sameOff_setNext))

variable {τ : Type} [ByteMem τ] (W : Window τ) {e : HeapVars}

theorem splitBlock_returns (hl : Laid A lo (l ++ b :: r) hi) (hr : Represents m (l ++ b :: r))
    (hb : b.free = true) (hn : n + 24 ≤ b.size) :
    ∃ m', Returns ((Kernel.window W e).Sees A m) (splitBlock b.addr n) ()
        ((Kernel.window W e).Sees A m') ∧
      Represents m' (l ++ ⟨b.addr, n, b.free⟩ ::
        ⟨b.addr + heapNodeSize + n, b.size - n - heapNodeSize, true⟩ :: r) ∧
      Keeps (l ++ b :: r) m m' := by
  have hmem : b ∈ l ++ b :: r := by simp
  have hlt := hl.stop_lt hmem
  have hbounds := hl.tiles.bounds hmem
  have hreach := hl.reaches hmem
  set x := b.addr + heapNodeSize + n with hx
  have hxb : x = b.addr + 16 + n := rfl
  have hxw : w32 (b.addr + heapNodeSize + n) = x := w32_of_lt (by omega)
  unfold Block.stop heapNodeSize at hbounds
  have hreachx : Reaches A x := fun i hi' ↦ hl.reach _ (by omega) (by omega)
  have hxapart : ∀ d ∈ l ++ b :: r, Apart x d.addr := by
    have hp := hl.tiles.pairwise
    rw [List.pairwise_append, List.pairwise_cons] at hp
    unfold Block.stop heapNodeSize at hp
    intro d hd
    unfold Apart
    rcases List.mem_append.mp hd with hd | hd
    · have hdb := hp.2.2 d hd b List.mem_cons_self
      omega
    · rcases List.mem_cons.mp hd with rfl | hd
      · omega
      · have hbd := hp.2.1.1 d hd
        omega
  have hbx := hxapart b hmem
  have hsize : sub32 (sub32 (nodeAt m b.addr).size n) heapNodeSize = b.size - n - heapNodeSize := by
    rw [(hr.data b hmem).1]
    unfold heapNodeSize
    rw [sub32_of_le (a := b.size) (by omega) (by omega), sub32_of_le (by omega) (by omega)]
  have hnext := hr.next_eq
  set s := b.size - n - heapNodeSize with hs
  have hlink := represents_link (s := s) hl hr hxapart (by omega) (by omega)
  have hklink : Keeps (l ++ b :: r) m (link m b.addr x s (firstAddr r)) :=
    keeps_link hl (keeps_of_sameOff hl.tiles hmem
      ⟨by omega, by unfold Block.stop heapNodeSize; omega⟩ (.inr hb) sameOff_newNode)
  refine ⟨setSize (link m b.addr x s (firstAddr r)) b.addr n, ?_, ?_, hklink.trans
    (keeps_header hl.tiles hmem rfl sameOff_setSize)⟩
  · unfold splitBlock
    rw [hxw]
    refine (readSize_returns W hreach).bind ?_
    rw [hsize]
    refine (writeSize_returns W hreachx _).seq ((writeFree_returns W hreachx _).seq ?_)
    refine (readNext_returns W hreach).bind ?_
    rw [nodeAt_of_sameOff (sameOff_setSize.trans sameOff_setFree) hbx, hnext]
    refine (writeNext_returns W hreachx _).seq ((writePrev_returns W hreachx _).seq ?_)
    refine (readNext_returns W hreach).bind ?_
    have hsame : SameOff x m (newNode m x s (firstAddr r) b.addr) := sameOff_newNode
    unfold newNode at hsame
    rw [nodeAt_of_sameOff hsame hbx, hnext]
    refine (writePrevOf_returns W (fun hne ↦ ?_) _).seq
      ((writeNext_returns W hreach _).seq (writeSize_returns W hreach _))
    rw [List.append_cons] at hl
    exact hl.reaches_first hne
  · have hdata := hlink.data b (by simp)
    refine hlink.update (a := ⟨b.addr, n, b.free⟩) rfl ?_ fun d hd ↦ ?_
    · rw [nodeAt_setSize (by omega), HeapNode.mk.injEq]
      exact ⟨rfl, hdata.2, rfl, rfl⟩
    · refine nodeAt_of_sameOff sameOff_setSize ?_
      rcases List.mem_append.mp hd with hd | hd
      · exact hl.apart d (List.mem_append_left _ hd)
      · rcases List.mem_cons.mp hd with rfl | hd
        · exact hbx.symm
        · exact hl.apart d (List.mem_append_right _ hd)

theorem takeBlock_returns (hl : Laid A lo (l ++ b :: r) hi) (hr : Represents m (l ++ b :: r))
    (hb : Fits n b) (hn : n + 24 < 4294967296) :
    ∃ m', Returns ((Kernel.window W e).Sees A m) (takeBlock b.addr n) (b.payload heapNodeSize)
        ((Kernel.window W e).Sees A m') ∧
      Represents m' (l ++ (carve n b ++ r)) ∧ Keeps (l ++ b :: r) m m' := by
  have hmem : b ∈ l ++ b :: r := by simp
  have hreach := hl.reaches hmem
  have hlt := hl.stop_lt hmem
  have hsize := (hr.data b hmem).1
  have hptr : w32 (b.addr + heapNodeSize) = b.payload heapNodeSize := by
    unfold heapNodeSize
    exact w32_of_lt (by omega)
  have hw : w32 (n + heapNodeSize + 8) = n + heapNodeSize + 8 := by
    unfold heapNodeSize
    exact w32_of_lt (by omega)
  -- The block's own flag is written last, whatever stands behind it now.
  have hflag {m₁ : Bytes} {c : Block} {r' : List Block} (hc : c.addr = b.addr)
      (hr₁ : Represents m₁ (l ++ c :: r')) (ha : ∀ d ∈ l ++ r', Apart b.addr d.addr) :
      Represents (setFree m₁ b.addr false) (l ++ ⟨b.addr, c.size, false⟩ :: r') := by
    refine hr₁.update (a := ⟨b.addr, c.size, false⟩) hc.symm ?_ fun d hd ↦
      nodeAt_of_sameOff sameOff_setFree (ha d hd)
    have hdata := hr₁.data c (by simp)
    rw [hc] at hdata ⊢
    rw [nodeAt_setFree, HeapNode.mk.injEq]
    exact ⟨hdata.1, rfl, rfl, rfl⟩
  have hkflag (m₁ : Bytes) : Keeps (l ++ b :: r) m₁ (setFree m₁ b.addr false) :=
    keeps_header hl.tiles hmem rfl sameOff_setFree
  unfold takeBlock carve
  by_cases hsplit : n + heapNodeSize + 8 ≤ b.size
  · obtain ⟨m₁, ht₁, hr₁, hk₁⟩ := splitBlock_returns W (e := e) hl hr hb.1 hsplit
    refine ⟨setFree m₁ b.addr false, (readSize_returns W hreach).bind ?_, ?_, hk₁.trans (hkflag m₁)⟩
    · rw [hsize, hw, hptr]
      exact .ite_pos hsplit (ht₁.seq ((writeFree_returns W hreach _).seq (.pure _)))
    · rw [if_pos hsplit]
      refine hflag (c := ⟨b.addr, n, b.free⟩) rfl hr₁ fun d hd ↦ ?_
      rcases List.mem_append.mp hd with hd | hd
      · exact hl.apart d (List.mem_append_left _ hd)
      · rcases List.mem_cons.mp hd with rfl | hd
        · exact .inl (Nat.le_add_right _ _)
        · exact hl.apart d (List.mem_append_right _ hd)
  · refine ⟨setFree m b.addr false, (readSize_returns W hreach).bind ?_, ?_, hkflag m⟩
    · rw [hsize, hw, hptr]
      exact .ite_neg hsplit ((writeFree_returns W hreach _).seq (.pure _))
    · rw [if_neg hsplit]
      exact hflag rfl hr hl.apart

end Linking

section Searching

variable {τ : Type} [ByteMem τ] (W : Window τ) {A : ℕ → Prop} {m : Bytes} {e : HeapVars}
  {lo hi n p : ℕ} {b c : Block} {l r r' : List Block}

theorem fits_run {s : HeapState τ} (hs : (Kernel.window W e).Sees A m s)
    (hl : Laid A lo (l ++ b :: r) hi) (hr : Represents m (l ++ b :: r)) :
    (fits b.addr n).run s = .ok (decide (Fits n b)) s := by
  have hmem : b ∈ l ++ b :: r := by simp
  have hdata := hr.data b hmem
  unfold fits
  rw [run_bind_ok (readFree_run W hs (hl.reaches hmem)), hdata.2]
  by_cases hb : b.free = true
  · rw [if_pos hb, run_bind_ok (readSize_run W hs (hl.reaches hmem)), hdata.1]
    simp only [Fits, hb, true_and]
    rfl
  · rw [if_neg hb, decide_eq_false fun h : Fits n b ↦ hb h.1]
    rfl

variable [PageSource τ] [PageMapper τ]

/-- One turn of the loop at a block that does not fit. -/
theorem search_step {s : HeapState τ} (hs : (Kernel.window W e).Sees A m s)
    (hl : Laid A lo (l ++ b :: r) hi) (hr : Represents m (l ++ b :: r)) (hb : ¬ Fits n b)
    (fuel : ℕ) :
    (search n (fuel + 1) b.addr).run s =
      (if firstAddr r = 0 then (do
          extend b.addr n
          let s ← get
          search n fuel s.vars.heapHead)
        else search n fuel (firstAddr r)).run s := by
  have hmem : b ∈ l ++ b :: r := by simp
  rw [search, if_neg (hl.addr_ne_zero hmem), run_bind_ok (fits_run W hs hl hr),
    decide_eq_false hb, if_neg Bool.false_ne_true,
    run_bind_ok (readNext_run W hs (hl.reaches hmem)), hr.next_eq]

theorem search_skips {s : HeapState τ} (hs : (Kernel.window W e).Sees A m s)
    (hl : Laid A lo (l ++ (r ++ c :: r')) hi) (hr : Represents m (l ++ (r ++ c :: r')))
    (hskip : ∀ d ∈ r, ¬ Fits n d) (fuel : ℕ) :
    (search n (fuel + r.length) (firstAddr (r ++ c :: r'))).run s =
      (search n fuel c.addr).run s := by
  induction r generalizing l with
  | nil => rfl
  | cons b r ih =>
    rw [List.forall_mem_cons] at hskip
    have hl' := hl
    have hr' := hr
    rw [List.cons_append, List.append_cons] at hl' hr'
    have hne : firstAddr (r ++ c :: r') ≠ 0 := by
      cases r with
      | nil => exact hl.addr_ne_zero (b := c) (by simp)
      | cons d r => exact hl.addr_ne_zero (b := d) (by simp)
    have hstep := search_step W hs (r := r ++ c :: r') hl hr hskip.1 (fuel + r.length)
    rw [if_neg hne] at hstep
    exact hstep.trans (ih hl' hr' hskip.2)

/-- A search that runs out of fuel before it comes by a block that fits has changed nothing. -/
theorem search_short {s : HeapState τ} (hs : (Kernel.window W e).Sees A m s)
    (hl : Laid A lo (l ++ (r ++ c :: r')) hi) (hr : Represents m (l ++ (r ++ c :: r')))
    (hskip : ∀ d ∈ r, ¬ Fits n d) {fuel : ℕ} (hf : fuel ≤ r.length) :
    (search n fuel (firstAddr (r ++ c :: r'))).run s = .error .fuel s := by
  obtain ⟨d, t, hd⟩ : ∃ d t, r.drop fuel ++ c :: r' = d :: t := by
    cases r.drop fuel with
    | nil => exact ⟨c, r', rfl⟩
    | cons d t => exact ⟨d, t ++ c :: r', rfl⟩
  have hsplit : r ++ c :: r' = r.take fuel ++ d :: t := by
    rw [← hd, ← List.append_assoc, List.take_append_drop]
  rw [hsplit] at hl hr ⊢
  have hrun := search_skips W hs hl hr (fun b hb ↦ hskip b (List.mem_of_mem_take hb)) 0
  rw [List.length_take, min_eq_left hf, Nat.zero_add] at hrun
  exact hrun

theorem search_fits {s : HeapState τ} (hs : (Kernel.window W e).Sees A m s)
    (hl : Laid A lo (l ++ b :: r) hi) (hr : Represents m (l ++ b :: r)) (hb : Fits n b)
    (fuel : ℕ) : (search n (fuel + 1) b.addr).run s = (takeBlock b.addr n).run s := by
  rw [search, if_neg (hl.addr_ne_zero (b := b) (by simp)), run_bind_ok (fits_run W hs hl hr),
    decide_eq_true hb, if_pos rfl]

/-- The search stops at the first block that fits. -/
theorem search_returns (hl : Laid A lo r hi) (hr : Represents m r)
    (hn : n + 24 < 4294967296) (hp : place n r = some (p, r')) {fuel : ℕ} (hf : r.length ≤ fuel) :
    ∃ m', Returns ((Kernel.window W e).Sees A m) (search n fuel (firstAddr r)) p
        ((Kernel.window W e).Sees A m') ∧ Represents m' r' ∧ Keeps r m m' := by
  obtain ⟨a, b, t, rfl, ha, hb, rfl, rfl⟩ := exists_of_place hp
  rw [List.length_append, List.length_cons] at hf
  obtain ⟨fuel, rfl⟩ := Nat.exists_eq_add_of_le' (show a.length + 1 ≤ fuel by omega)
  obtain ⟨m', ht, hr', hk⟩ := takeBlock_returns W (e := e) hl hr hb hn
  refine ⟨m', fun s hs ↦ ?_, hr', hk⟩
  obtain ⟨s', hrun, hs'⟩ := ht s hs
  refine ⟨s', ?_, hs'⟩
  rw [Nat.add_comm a.length, ← Nat.add_assoc, search_skips W (l := []) hs hl hr ha,
    search_fits W hs hl hr hb, hrun]

/-- When nothing fits, the search grows the heap behind the last block and starts again. -/
theorem search_grows {s : HeapState τ} (hs : (Kernel.window W e).Sees A m s)
    (hl : Laid A lo (l ++ [c]) hi) (hr : Represents m (l ++ [c]))
    (hp : place n (l ++ [c]) = none) (fuel : ℕ) :
    (search n (fuel + (l.length + 1)) (firstAddr (l ++ [c]))).run s =
      (do extend c.addr n; let s ← get; search n fuel s.vars.heapHead).run s := by
  rw [place_eq_none, List.forall_mem_append] at hp
  have hskips := search_skips W (l := []) hs hl hr hp.1 (fuel + 1)
  rw [Nat.add_comm l.length, ← Nat.add_assoc, hskips]
  exact search_step W (r := []) hs hl hr (hp.2 c List.mem_cons_self) fuel

theorem search_mono {fuel curr : ℕ} {s s' : HeapState τ} (h : (search n fuel curr).run s = .ok p s') :
    (search n (fuel + 1) curr).run s = .ok p s' := by
  induction fuel generalizing curr s with
  | zero => cases h
  | succ fuel ih =>
    rw [search] at h ⊢
    by_cases hc : curr = 0
    · rw [if_pos hc] at h ⊢
      exact h
    · rw [if_neg hc, bind_eq_ok] at h ⊢
      obtain ⟨b, s₁, hb, h⟩ := h
      refine ⟨b, s₁, hb, ?_⟩
      by_cases hb' : b = true
      · rw [if_pos hb'] at h ⊢
        exact h
      · rw [if_neg hb', bind_eq_ok] at h ⊢
        obtain ⟨next, s₂, hnext, h⟩ := h
        refine ⟨next, s₂, hnext, ?_⟩
        by_cases hnext' : next = 0
        · rw [if_pos hnext', bind_eq_ok] at h ⊢
          obtain ⟨u, s₃, hu, h⟩ := h
          exact ⟨u, s₃, hu, ih h⟩
        · rw [if_neg hnext'] at h ⊢
          exact ih h

theorem search_mono_le {fuel fuel' curr : ℕ} {s s' : HeapState τ} (hle : fuel ≤ fuel')
    (h : (search n fuel curr).run s = .ok p s') : (search n fuel' curr).run s = .ok p s' := by
  induction hle with
  | refl => exact h
  | step _ ih => exact search_mono ih

end Searching

end KevOS.Heap.Allocate
