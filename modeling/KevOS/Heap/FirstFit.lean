import KevOS.Heap.FlatMachine

namespace KevOS.Heap.FirstFit

open Lib.Program Lib.ByteMemory Lib.Tiling Machine Blocks HeapList Growth Run FlatMachine

/-- The request for `r` bytes takes the free block `b`, the lowest one that can hold them, and
leaves the others as they are, up to what it cuts off `b`. -/
structure Takes (r : ℕ) (bs bs' : List Block) (b : Block) (size : ℕ) : Prop where
  fits : Fits r b
  lowest : ∀ c ∈ bs, Fits r c → b.addr ≤ c.addr
  size_ge : r ≤ size
  size_lt : size < r + (heapNodeSize + 8)
  others : ∃ front back, bs = front ++ b :: back ∧
    (bs' = front ++ ⟨b.addr, size, false⟩ :: back ∧ size = b.size ∨
      bs' = front ++ ⟨b.addr, size, false⟩ ::
        ⟨b.addr + heapNodeSize + size, b.size - size - heapNodeSize, true⟩ :: back)

/-- The blocks after one expansion for `r` bytes: the pages are a new block, or the end of the
last one if that is free. -/
def Extended (r hi : ℕ) (bs bs' : List Block) : Prop :=
  ∃ front last, bs = front ++ [last] ∧ bs' =
    if last.free then front ++ [⟨last.addr, last.size + pagesNeeded r * pageSize, true⟩]
    else bs ++ [⟨hi, pagesNeeded r * pageSize - heapNodeSize, true⟩]

/-- What an allocation of `r` bytes does to a heap that ends at `hi`, with the end it has then. -/
inductive Outcome (r hi : ℕ) (bs bs' : List Block) (p : ℕ) : ℕ → Prop
  | fits {b : Block} {size : ℕ} : Takes r bs bs' b size → p = b.payload heapNodeSize →
      Outcome r hi bs bs' p hi
  | grows {mid : List Block} {b : Block} {size : ℕ} : (∀ c ∈ bs, ¬ Fits r c) →
      Extended r hi bs mid → Takes r mid bs' b size → p = b.payload heapNodeSize →
      Outcome r hi bs bs' p (hi + pagesNeeded r * pageSize)

variable {n r hi p : ℕ} {bs bs' : List Block}

theorem takes_of_place {lo : ℕ} (ht : Tiles heapNodeSize lo bs hi)
    (h : place r bs = some (p, bs')) :
    ∃ b size, Takes r bs bs' b size ∧ p = b.payload heapNodeSize := by
  obtain ⟨front, b, back, rfl, hfront, hb, rfl, rfl⟩ := exists_of_place h
  have hlowest : ∀ c ∈ front ++ b :: back, Fits r c → b.addr ≤ c.addr := by
    intro c hc hfit
    obtain ⟨-, hback⟩ := tiles_cons_split.mp ht
    rcases List.mem_append.mp hc with hc | hc
    · exact absurd hfit (hfront c hc)
    · rcases List.mem_cons.mp hc with rfl | hc
      · exact le_rfl
      · have hle := (hback.bounds hc).1
        unfold Block.stop at hle
        omega
  have hle := hb.2
  by_cases hsplit : r + heapNodeSize + 8 ≤ b.size
  · refine ⟨b, r, ⟨hb, hlowest, le_rfl, ?_, front, back, rfl, .inr ?_⟩, rfl⟩
    · exact Nat.lt_add_of_pos_right (by decide)
    · rw [carve, if_pos hsplit]
      rfl
  · refine ⟨b, b.size, ⟨hb, hlowest, hle, by omega, front, back, rfl, .inl ⟨?_, rfl⟩⟩, rfl⟩
    rw [carve, if_neg hsplit]
    rfl

/-- Nothing but the last block meets the new one. -/
theorem extended_grown (hn : 0 < pagesNeeded r)
    (hne : ∃ front last, bs = front ++ [last]) (hm : NoAdjacentFree bs) :
    Extended r hi bs (grown r hi bs) := by
  obtain ⟨front, last, rfl⟩ := hne
  obtain ⟨hpages, -⟩ := pagesNeeded_bounds hn
  set x : Block := ⟨hi, pagesNeeded r * pageSize - heapNodeSize, true⟩ with hx
  have hpush := noAdjacentFree_append_push (k := heapNodeSize) (r := [x]) hm
    (List.isChain_singleton x)
  have hgrown : grown r hi (front ++ [last]) = front ++ push heapNodeSize last [x] := by
    rw [grown, List.append_assoc, coalesce_append]
    exact foldr_push_of_noAdjacentFree hpush
  refine ⟨front, last, rfl, ?_⟩
  rw [hgrown]
  by_cases hfree : last.free = true
  · rw [if_pos hfree, push_merge hfree rfl, hx]
    have hsize : last.size + (pagesNeeded r * pageSize - heapNodeSize + heapNodeSize) =
        last.size + pagesNeeded r * pageSize := by omega
    rw [hsize]
  · rw [if_neg hfree, push_keep fun h ↦ hfree h.1, List.append_assoc]
    rfl

/-- With enough frames and addresses left, `kmalloc` ends, by first fit and growing at most
once. -/
theorem kmalloc_firstFit (contents : ℕ → Bytes) (frames : List ℕ) {s : HeapState Flat}
    {live : List (ℕ × ℕ)} (h : HeapRun (Flat.start contents frames) s live) (hn : ValidSize n)
    (hframes : pagesNeeded (roundUp n) ≤ s.mem.frames.length)
    (hne : ∀ phys ∈ s.mem.frames, phys ≠ 0)
    (hlim : s.vars.heapCurrentEnd + pagesNeeded (roundUp n) * pageSize ≤ vmmPageTables) :
    ∃ bs p s' bs', IsHeapList flatWindow s bs ∧ IsHeapList flatWindow s' bs' ∧
      Outcome (roundUp n) s.vars.heapCurrentEnd bs bs' p s'.vars.heapCurrentEnd ∧
      ∀ fuel, 2 * bs.length + 1 ≤ fuel → (kmalloc fuel n).run s = .ok p s' := by
  obtain ⟨bs, hi, hrep, -⟩ := run_inv h
  have hend : s.vars.heapCurrentEnd = hi := by rw [hrep.vars]
  have hmore {p : ℕ} {s' : HeapState Flat}
      (hr : (kmalloc (2 * bs.length + 1) n).run s = .ok p s') :
      ∀ fuel, 2 * bs.length + 1 ≤ fuel → (kmalloc fuel n).run s = .ok p s' := by
    intro fuel hfuel
    rw [kmalloc_eq_search hn.pos hrep] at hr ⊢
    exact Allocate.search_mono_le hfuel hr
  rw [hend]
  cases hp : place (roundUp n) bs with
  | some q =>
    obtain ⟨p, bs'⟩ := q
    obtain ⟨s', hrun, hbecame⟩ := kmalloc_placed hn hrep hp (show bs.length ≤ 2 * bs.length + 1 by omega)
    have hrep' := hbecame.represented
    obtain ⟨b, size, htakes, hpayload⟩ := takes_of_place hrep.shape.tiles hp
    refine ⟨bs, p, s', bs', ⟨hrep.head, hrep.blocks⟩, ⟨hrep'.head, hrep'.blocks⟩, ?_, hmore hrun⟩
    rw [show s'.vars.heapCurrentEnd = hi by rw [hrep'.vars]]
    exact .fits htakes hpayload
  | none =>
    obtain ⟨s₁, hexp⟩ := kheapExpand_flat hframes hne hlim
    obtain ⟨p, bs', s', hp', hrun, hbecame⟩ := kmalloc_grown hn hrep hp le_rfl hexp
    have hrep' := hbecame.represented
    have hextended : Extended (roundUp n) hi bs (grown (roundUp n) hi bs) :=
      extended_grown hn.pagesNeeded_pos hrep.exists_last hrep.shape.merged
    have hgrown := hrep.shape.grown hn.pagesNeeded_pos (by rwa [hend] at hlim)
    obtain ⟨b, size, htakes, hpayload⟩ := takes_of_place hgrown.tiles hp'
    refine ⟨bs, p, s', bs', ⟨hrep.head, hrep.blocks⟩, ⟨hrep'.head, hrep'.blocks⟩, ?_, hmore hrun⟩
    rw [show s'.vars.heapCurrentEnd = hi + pagesNeeded (roundUp n) * pageSize by rw [hrep'.vars]]
    exact .grows (place_eq_none.mp hp) hextended htakes hpayload

section Frames

variable {s s' : HeapState Flat} {a : ℕ}

theorem store8_frames {v : UInt8} (h : (store8 a v).run s = .ok () s') :
    s'.mem.frames = s.mem.frames := by
  obtain ⟨f, hf, rfl⟩ := zoom_eq_ok h
  change (Flat.store8 a v).run s.mem = _ at hf
  rw [Flat.store8, run_get_bind] at hf
  cases hm : s.mem.mem (w32 a) with
  | none =>
    rw [hm] at hf
    cases hf
  | some u =>
    rw [hm] at hf
    cases hf
    rfl

theorem store32_frames {v : ℕ} (h : (store32 a v).run s = .ok () s') :
    s'.mem.frames = s.mem.frames := by
  rw [store32] at h
  obtain ⟨_, s₁, h₁, h⟩ := bind_eq_ok.mp h
  obtain ⟨_, s₂, h₂, h⟩ := bind_eq_ok.mp h
  obtain ⟨_, s₃, h₃, h⟩ := bind_eq_ok.mp h
  rw [store8_frames h, store8_frames h₃, store8_frames h₂, store8_frames h₁]

theorem kheapExpand_frames {pages : ℕ} (h : (kheapExpand pages).run s = .ok () s') :
    s'.mem.frames = s.mem.frames.drop pages := by
  induction pages generalizing s with
  | zero =>
    cases h
    rfl
  | succ pages ih =>
    obtain ⟨mem, hback, hrest⟩ := kheapExpand_succ.mp h
    obtain ⟨phys, frames, hframes, -, -, rfl⟩ := of_backPage_flat hback
    rw [ih hrest, hframes, List.drop_succ_cons]

theorem kheapInit_frames (h : kheapInit.run s = .ok () s') :
    s'.mem.frames = s.mem.frames.drop 512 := by
  rw [kheapInit] at h
  obtain ⟨_, s₁, hexpand, h⟩ := bind_eq_ok.mp h
  rw [run_modify_bind] at h
  obtain ⟨_, s₂, hsize, h⟩ := bind_eq_ok.mp h
  obtain ⟨_, s₃, hfree, h⟩ := bind_eq_ok.mp h
  obtain ⟨_, s₄, hnext, h⟩ := bind_eq_ok.mp h
  have hpages : kheapInitialSize / pageSize = 512 := by decide
  rw [hpages] at hexpand
  rw [store32_frames h, store32_frames hnext, store8_frames hfree, store32_frames hsize]
  dsimp only
  rw [kheapExpand_frames hexpand]

end Frames

def roomyFlat : HeapState Flat :=
  Flat.start (fun _ _ ↦ 0) ((List.range 513).map fun i ↦ 4096 * (i + 1))

theorem kmalloc_firstFit_roomyFlat : ∃ s bs p s' bs', HeapRun roomyFlat s [] ∧
    IsHeapList flatWindow s bs ∧ IsHeapList flatWindow s' bs' ∧
    Outcome (roundUp 100) s.vars.heapCurrentEnd bs bs' p s'.vars.heapCurrentEnd ∧
    ∀ fuel, 2 * bs.length + 1 ≤ fuel → (kmalloc fuel 100).run s = .ok p s' := by
  have hpages : pagesNeeded (roundUp 100) = 1 := by decide
  obtain ⟨s, hinit, hrep⟩ : ∃ s, kheapInit.run roomyFlat = .ok () s ∧
      Represented flatWindow s [initialBlock] (kheapStart + kheapInitialSize) :=
    kheapInit_flat (by simp) (by simp)
  have hsplit : roomyFlat.mem.frames =
      (List.range 512).map (fun i ↦ 4096 * (i + 1)) ++ [4096 * 513] := by
    rw [roomyFlat, Flat.start, List.range_succ, List.map_append]
    rfl
  have hframes : s.mem.frames = [4096 * 513] := by
    rw [kheapInit_frames hinit, hsplit, List.drop_left' (by simp)]
  obtain ⟨bs, p, s', bs', hlist, hlist', houtcome, hrun⟩ := kmalloc_firstFit _ _ (.init hinit)
    validSize_hundred (by rw [hpages, hframes]; decide) (by rw [hframes]; decide)
    (by rw [hpages, hrep.vars]; decide)
  exact ⟨s, bs, p, s', bs', .init hinit, hlist, hlist', houtcome, hrun⟩

end KevOS.Heap.FirstFit
