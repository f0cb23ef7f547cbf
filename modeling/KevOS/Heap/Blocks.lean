import KevOS.Heap.Model
import KevOS.Lib.Tiling

namespace KevOS.Heap.Blocks

open Machine Lib.Tiling

def Fits (n : ℕ) (b : Block) : Prop := b.free = true ∧ n ≤ b.size

instance (n : ℕ) (b : Block) : Decidable (Fits n b) := inferInstanceAs (Decidable (_ ∧ _))

/-- Use a free block for `n` bytes. The rest becomes a block of its own if it can
hold a header and 8 bytes. -/
def carve (n : ℕ) (b : Block) : List Block :=
  if n + heapNodeSize + 8 ≤ b.size then
    [⟨b.addr, n, false⟩, ⟨b.addr + heapNodeSize + n, b.size - n - heapNodeSize, true⟩]
  else [{ b with free := false }]

/-- First fit: the payload address and the new blocks. -/
def place (n : ℕ) : List Block → Option (ℕ × List Block)
  | [] => none
  | b :: bs =>
    if Fits n b then some (b.payload heapNodeSize, carve n b ++ bs)
    else (place n bs).map fun r ↦ (r.1, b :: r.2)

/-- The blocks after growing a heap that ended at `hi` for a request of `n` bytes. -/
def grown (n hi : ℕ) (bs : List Block) : List Block :=
  coalesce heapNodeSize (bs ++ [⟨hi, pagesNeeded n * pageSize - heapNodeSize, true⟩])

/-- The blocks after freeing the payload at `p`. -/
def released (p : ℕ) (bs : List Block) : List Block :=
  coalesce heapNodeSize (markFree heapNodeSize p bs)

/-- The blocks of a heap that ends at `hi`. -/
structure Shape (bs : List Block) (hi : ℕ) : Prop where
  tiles : Tiles heapNodeSize kheapStart bs hi
  sized : ∀ b ∈ bs, 8 ∣ b.size ∧ 8 ≤ b.size
  merged : NoAdjacentFree bs
  started : kheapStart < hi
  aligned : 4096 ∣ hi
  bounded : hi ≤ vmmPageTables

/-- A request whose rounding and page count do not wrap around. -/
structure ValidSize (n : ℕ) : Prop where
  pos : 0 < n
  lt : roundUp n + heapNodeSize + pageSize - 1 < 4294967296
  round : n + 7 < 4294967296

section Sizes

variable {n : ℕ}

theorem roundUp_eq (h : n + 7 < 4294967296) : roundUp n = (n + 7) / 8 * 8 := by
  rw [roundUp, w32_of_lt h, Lib.Bits.land_align8 h]

theorem ValidSize.roundUp (h : ValidSize n) :
    8 ∣ roundUp n ∧ 8 ≤ roundUp n ∧ n ≤ roundUp n := by
  have hpos := h.pos
  rw [roundUp_eq h.round]
  omega

theorem ValidSize.add_lt (hn : ValidSize n) : KevOS.Heap.roundUp n + 24 < 4294967296 := by
  have h := hn.lt
  unfold heapNodeSize pageSize at h
  omega

/-- The new pages hold the request and a header. -/
theorem pagesNeeded_spec (h : n + heapNodeSize + pageSize - 1 < 4294967296) :
    n + heapNodeSize ≤ pagesNeeded n * pageSize ∧
      pagesNeeded n * pageSize < 4294967296 ∧ 0 < pagesNeeded n := by
  unfold pagesNeeded
  rw [w32_of_lt h]
  unfold heapNodeSize pageSize at *
  omega

theorem ValidSize.pagesNeeded_pos (hn : ValidSize n) : 0 < pagesNeeded (KevOS.Heap.roundUp n) :=
  (pagesNeeded_spec hn.lt).2.2

theorem pagesNeeded_bounds (h : 0 < pagesNeeded n) :
    heapNodeSize + 8 ≤ pagesNeeded n * pageSize ∧ pagesNeeded n * pageSize < 4294967296 := by
  have hlt := w32_lt (n + heapNodeSize + pageSize - 1)
  unfold pagesNeeded heapNodeSize pageSize at *
  omega

end Sizes

variable {n lo hi p : ℕ} {b : Block} {bs bs' l r : List Block}

section Placing

theorem place_eq_none : place n bs = none ↔ ∀ b ∈ bs, ¬ Fits n b := by
  induction bs with
  | nil => simp [place]
  | cons b bs ih =>
    rw [List.forall_mem_cons, ← ih, place]
    by_cases hb : Fits n b <;> simp [hb]

/-- The block that is taken is the first one that fits. -/
theorem exists_of_place (h : place n bs = some (p, bs')) :
    ∃ l b r, bs = l ++ b :: r ∧ (∀ c ∈ l, ¬ Fits n c) ∧ Fits n b ∧
      p = b.payload heapNodeSize ∧ bs' = l ++ (carve n b ++ r) := by
  induction bs generalizing bs' with
  | nil => cases h
  | cons c bs ih =>
    rw [place] at h
    by_cases hc : Fits n c
    · rw [if_pos hc] at h
      cases h
      exact ⟨[], c, bs, rfl, by simp, hc, rfl, rfl⟩
    · rw [if_neg hc, Option.map_eq_some_iff] at h
      obtain ⟨⟨q, bs''⟩, h, heq⟩ := h
      cases heq
      obtain ⟨l, b, r, rfl, hl, hb, hp, hbs⟩ := ih h
      refine ⟨c :: l, b, r, rfl, List.forall_mem_cons.mpr ⟨hc, hl⟩, hb, hp, ?_⟩
      rw [hbs, List.cons_append]

theorem tiles_carve (h : Tiles heapNodeSize lo (b :: r) hi) :
    Tiles heapNodeSize lo (carve n b ++ r) hi := by
  obtain ⟨rfl, h⟩ := h
  unfold carve
  split
  · refine ⟨rfl, rfl, ?_⟩
    have hs : Block.stop heapNodeSize
        ⟨b.addr + heapNodeSize + n, b.size - n - heapNodeSize, true⟩ = b.stop heapNodeSize := by
      unfold Block.stop
      dsimp only
      omega
    rwa [hs]
  · exact ⟨rfl, h⟩

theorem noAdjacentFree_carve (h : NoAdjacentFree (l ++ b :: r)) (hb : Fits n b) :
    NoAdjacentFree (l ++ (carve n b ++ r)) := by
  obtain ⟨hl, hr, hseam⟩ := List.isChain_append.mp h
  have hused (c : Block) (hc : c.free = false) (t : List Block) (ht : NoAdjacentFree t) :
      NoAdjacentFree (l ++ c :: t) :=
    hl.append (.cons ht fun d _ ↦ by simp [hc]) fun x _ y hy ↦ by
      cases hy
      simp [hc]
  unfold carve
  split
  · refine hused _ rfl _ (.cons hr.tail fun c hc hfree ↦ ?_)
    exact hr.rel_head? hc ⟨hb.1, hfree.2⟩
  · exact hused _ rfl _ hr.tail

theorem sized_carve (hn : 8 ∣ n ∧ 8 ≤ n) (hb : 8 ∣ b.size ∧ 8 ≤ b.size) :
    ∀ c ∈ carve n b, 8 ∣ c.size ∧ 8 ≤ c.size := by
  unfold carve heapNodeSize
  split
  · intro c hc
    rcases List.mem_pair.mp hc with rfl | rfl
    · exact hn
    · dsimp only
      omega
  · intro c hc
    rw [List.mem_singleton.mp hc]
    exact hb

/-- Exactly one used block comes out of the carved block, at its address. -/
theorem usedBlocks_carve (hb : Fits n b) :
    ∃ s, n ≤ s ∧ usedBlocks (carve n b) = [⟨b.addr, s, false⟩] := by
  unfold carve
  split
  · exact ⟨n, le_rfl, rfl⟩
  · exact ⟨b.size, hb.2, rfl⟩

theorem usedBlocks_place (h : place n bs = some (p, bs')) :
    ∃ c, c.payload heapNodeSize = p ∧ n ≤ c.size ∧
      (usedBlocks bs').Perm (c :: usedBlocks bs) := by
  obtain ⟨l, b, r, rfl, -, hb, rfl, rfl⟩ := exists_of_place h
  obtain ⟨s, hs, hc⟩ := usedBlocks_carve hb
  refine ⟨⟨b.addr, s, false⟩, rfl, hs, ?_⟩
  have hsplit : usedBlocks (l ++ (carve n b ++ r)) =
      usedBlocks l ++ ⟨b.addr, s, false⟩ :: usedBlocks r := by
    rw [usedBlocks, List.filter_append, List.filter_append]
    change usedBlocks l ++ (usedBlocks (carve n b) ++ usedBlocks r) = _
    rw [hc]
    rfl
  have hbs : usedBlocks (l ++ b :: r) = usedBlocks l ++ usedBlocks r := by
    rw [usedBlocks, List.filter_append, List.filter_cons_of_neg (by simp [hb.1])]
    rfl
  rw [hsplit, hbs]
  exact List.perm_middle

theorem Shape.place (hs : Shape bs hi) (hn : 8 ∣ n ∧ 8 ≤ n) (h : place n bs = some (p, bs')) :
    Shape bs' hi := by
  obtain ⟨l, b, r, rfl, -, hb, -, rfl⟩ := exists_of_place h
  obtain ⟨mid, htl, htr⟩ := tiles_append.mp hs.tiles
  have hsized := hs.sized
  rw [List.forall_mem_append, List.forall_mem_cons] at hsized
  obtain ⟨hl, hsb, hr⟩ := hsized
  refine ⟨tiles_append.mpr ⟨mid, htl, tiles_carve htr⟩, ?_, noAdjacentFree_carve hs.merged hb,
    hs.started, hs.aligned, hs.bounded⟩
  rw [List.forall_mem_append, List.forall_mem_append]
  exact ⟨hl, sized_carve hn hsb, hr⟩

end Placing

section Merging

theorem sized_push (hb : 8 ∣ b.size ∧ 8 ≤ b.size) (h : ∀ c ∈ bs, 8 ∣ c.size ∧ 8 ≤ c.size) :
    ∀ c ∈ push heapNodeSize b bs, 8 ∣ c.size ∧ 8 ≤ c.size := by
  cases bs with
  | nil => simpa using hb
  | cons c bs =>
    rw [List.forall_mem_cons] at h
    by_cases hbc : b.free = true ∧ c.free = true
    · rw [push_merge hbc.1 hbc.2]
      refine List.forall_mem_cons.mpr ⟨?_, h.2⟩
      unfold heapNodeSize
      dsimp only
      omega
    · rw [push_keep hbc]
      exact List.forall_mem_cons.mpr ⟨hb, List.forall_mem_cons.mpr h⟩

theorem sized_coalesce (h : ∀ c ∈ bs, 8 ∣ c.size ∧ 8 ≤ c.size) :
    ∀ c ∈ coalesce heapNodeSize bs, 8 ∣ c.size ∧ 8 ≤ c.size := by
  induction bs with
  | nil => simp [coalesce]
  | cons b bs ih =>
    rw [List.forall_mem_cons] at h
    exact sized_push h.1 (ih h.2)

theorem Shape.released (hs : Shape bs hi) (p : ℕ) : Shape (released p bs) hi where
  tiles := tiles_coalesce (tiles_markFree hs.tiles)
  sized := by
    refine sized_coalesce fun c hc ↦ ?_
    obtain ⟨b, hb, rfl⟩ := List.mem_map.mp hc
    by_cases hp : b.payload heapNodeSize = p
    · rw [if_pos hp]
      exact hs.sized b hb
    · rw [if_neg hp]
      exact hs.sized b hb
  merged := noAdjacentFree_coalesce _
  started := hs.started
  aligned := hs.aligned
  bounded := hs.bounded

theorem Shape.grown (hs : Shape bs hi) (hn : 0 < pagesNeeded n)
    (hlim : hi + pagesNeeded n * pageSize ≤ vmmPageTables) :
    Shape (grown n hi bs) (hi + pagesNeeded n * pageSize) := by
  obtain ⟨hpages, -⟩ := pagesNeeded_bounds hn
  have hstarted := hs.started
  have haligned := hs.aligned
  unfold heapNodeSize pageSize at hpages
  refine ⟨tiles_coalesce (tiles_append.mpr ⟨hi, hs.tiles, rfl, ?_⟩), sized_coalesce ?_,
    noAdjacentFree_coalesce _, by omega, ?_, hlim⟩
  · unfold Block.stop heapNodeSize pageSize
    simp only [Tiles]
    omega
  · refine List.forall_mem_append.mpr ⟨hs.sized, List.forall_mem_singleton.mpr ?_⟩
    unfold heapNodeSize pageSize
    dsimp only
    omega
  · unfold pageSize
    omega

theorem usedBlocks_released :
    usedBlocks (released p bs) = (usedBlocks bs).filter fun b ↦ b.payload heapNodeSize ≠ p :=
  (usedBlocks_coalesce _).trans usedBlocks_markFree

theorem usedBlocks_grown : usedBlocks (grown n hi bs) = usedBlocks bs := by
  rw [grown, usedBlocks_coalesce]
  simp [usedBlocks, List.filter_append]

theorem exists_fits_grown (hn : n + heapNodeSize + pageSize - 1 < 4294967296) :
    ∃ b ∈ grown n hi bs, Fits n b := by
  obtain ⟨hpages, -, -⟩ := pagesNeeded_spec hn
  -- Merging only ever makes a free block larger.
  have hfold (l : List Block) (b : Block) (hb : Fits n b) :
      ∃ c ∈ coalesce heapNodeSize (l ++ [b]), Fits n c := by
    induction l with
    | nil => exact ⟨b, by simp [coalesce], hb⟩
    | cons a l ih =>
      obtain ⟨c, hc, hfit⟩ := ih
      change ∃ d ∈ push heapNodeSize a (coalesce heapNodeSize (l ++ [b])), Fits n d
      cases hcs : coalesce heapNodeSize (l ++ [b]) with
      | nil => simp [hcs] at hc
      | cons d bs =>
        rw [hcs] at hc
        by_cases had : a.free = true ∧ d.free = true
        · rw [push_merge had.1 had.2]
          rcases List.mem_cons.mp hc with rfl | hc
          · refine ⟨_, List.mem_cons_self, rfl, ?_⟩
            have hle := hfit.2
            dsimp only
            omega
          · exact ⟨c, List.mem_cons_of_mem _ hc, hfit⟩
        · rw [push_keep had]
          exact ⟨c, List.mem_cons_of_mem _ hc, hfit⟩
  exact hfold bs _ ⟨rfl, by dsimp only; omega⟩

end Merging

end KevOS.Heap.Blocks
