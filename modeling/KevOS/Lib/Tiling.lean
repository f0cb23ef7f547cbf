import Mathlib.Data.List.Chain
import Mathlib.Data.List.Nodup
import Mathlib.Data.Nat.Notation

namespace KevOS.Lib.Tiling

/-- A block of memory behind its header. -/
structure Block where
  addr : ℕ
  size : ℕ
  free : Bool
  deriving DecidableEq, Repr

-- Headers take `k` bytes.
variable (k : ℕ)

def Block.payload (b : Block) : ℕ := b.addr + k

def Block.stop (b : Block) : ℕ := b.addr + k + b.size

/-- The blocks lie one behind the other from `lo` to `hi`. -/
def Tiles : ℕ → List Block → ℕ → Prop
  | lo, [], hi => lo = hi
  | lo, b :: bs, hi => b.addr = lo ∧ Tiles (b.stop k) bs hi

def NoAdjacentFree (bs : List Block) : Prop :=
  bs.IsChain fun b c ↦ ¬ (b.free = true ∧ c.free = true)

def usedBlocks (bs : List Block) : List Block := bs.filter fun b ↦ !b.free

/-- Put a block in front, merged with the first one if both are free. -/
def push (b : Block) : List Block → List Block
  | [] => [b]
  | c :: bs =>
    if b.free && c.free then ⟨b.addr, b.size + (c.size + k), true⟩ :: bs else b :: c :: bs

/-- Merge all free neighbours. -/
def coalesce (bs : List Block) : List Block := bs.foldr (push k) []

/-- Mark the block whose payload starts at `p` as free. -/
def markFree (p : ℕ) (bs : List Block) : List Block :=
  bs.map fun b ↦ if b.payload k = p then { b with free := true } else b

variable {k} {lo hi p : ℕ} {a b c : Block} {bs l r : List Block}

section Tilings

theorem tiles_append :
    Tiles k lo (l ++ r) hi ↔ ∃ mid, Tiles k lo l mid ∧ Tiles k mid r hi := by
  induction l generalizing lo with
  | nil => simp [Tiles]
  | cons b l ih => simp only [List.cons_append, Tiles, ih, and_assoc, exists_and_left]

theorem Tiles.le (h : Tiles k lo bs hi) : lo ≤ hi := by
  induction bs generalizing lo with
  | nil => exact h.le
  | cons b bs ih =>
    obtain ⟨rfl, h⟩ := h
    have hle := ih h
    unfold Block.stop at hle
    omega

/-- What lies before and behind one block of a tiling. -/
theorem tiles_cons_split : Tiles k lo (l ++ b :: r) hi ↔
    Tiles k lo l b.addr ∧ Tiles k (b.stop k) r hi := by
  rw [tiles_append]
  constructor
  · rintro ⟨mid, hl, rfl, hr⟩
    exact ⟨hl, hr⟩
  · rintro ⟨hl, hr⟩
    exact ⟨b.addr, hl, rfl, hr⟩

theorem Tiles.bounds (h : Tiles k lo bs hi) (hb : b ∈ bs) : lo ≤ b.addr ∧ b.stop k ≤ hi := by
  obtain ⟨l, r, rfl⟩ := List.append_of_mem hb
  obtain ⟨hl, hr⟩ := tiles_cons_split.mp h
  exact ⟨hl.le, hr.le⟩

theorem Tiles.disjoint (h : Tiles k lo bs hi) (hb : b ∈ bs) (hc : c ∈ bs) :
    b = c ∨ b.stop k ≤ c.addr ∨ c.stop k ≤ b.addr := by
  obtain ⟨l, r, rfl⟩ := List.append_of_mem hb
  obtain ⟨hl, hr⟩ := tiles_cons_split.mp h
  rcases List.mem_append.mp hc with hc | hc
  · exact .inr (.inr (hl.bounds hc).2)
  · rcases List.mem_cons.mp hc with rfl | hc
    · exact .inl rfl
    · exact .inr (.inl (hr.bounds hc).1)

theorem Tiles.pairwise (h : Tiles k lo bs hi) : bs.Pairwise fun b c ↦ b.stop k ≤ c.addr := by
  induction bs generalizing lo with
  | nil => exact .nil
  | cons b bs ih =>
    obtain ⟨-, h⟩ := h
    exact .cons (fun c hc ↦ (h.bounds hc).1) (ih h)

theorem Tiles.nodup_payload (hh : 0 < k) (h : Tiles k lo bs hi) :
    (bs.map (Block.payload k)).Nodup := by
  refine List.pairwise_map.mpr (h.pairwise.imp fun {b c} hbc ↦ ?_)
  unfold Block.stop at hbc
  unfold Block.payload
  omega

end Tilings

section Merging

@[simp] theorem push_nil : push k b [] = [b] := rfl

theorem push_merge (hb : b.free = true) (hc : c.free = true) :
    push k b (c :: bs) = ⟨b.addr, b.size + (c.size + k), true⟩ :: bs := by
  rw [push, hb, hc, Bool.and_self, if_pos rfl]

theorem push_keep (h : ¬ (b.free = true ∧ c.free = true)) :
    push k b (c :: bs) = b :: c :: bs := by
  rw [push, if_neg (by rwa [Bool.and_eq_true])]

theorem push_of_noAdjacentFree (h : NoAdjacentFree (b :: bs)) : push k b bs = b :: bs := by
  cases bs with
  | nil => rfl
  | cons c bs => exact push_keep (List.isChain_cons_cons.mp h).1

/-- The first block of `push b bs` starts where `b` does, and is free when `b` is. -/
theorem exists_push_eq (b : Block) (bs : List Block) :
    ∃ c r, push k b bs = c :: r ∧ c.addr = b.addr ∧ c.free = b.free ∧ b.size ≤ c.size := by
  cases bs with
  | nil => exact ⟨b, [], rfl, rfl, rfl, le_rfl⟩
  | cons c bs =>
    by_cases h : b.free = true ∧ c.free = true
    · exact ⟨_, bs, push_merge h.1 h.2, rfl, h.1.symm, Nat.le_add_right _ _⟩
    · exact ⟨b, c :: bs, push_keep h, rfl, rfl, le_rfl⟩

theorem tiles_push (h : Tiles k lo (b :: bs) hi) : Tiles k lo (push k b bs) hi := by
  cases bs with
  | nil => exact h
  | cons c bs =>
    by_cases hbc : b.free = true ∧ c.free = true
    · obtain ⟨rfl, hc, h⟩ := h
      rw [push_merge hbc.1 hbc.2]
      refine ⟨rfl, ?_⟩
      have hs : Block.stop k ⟨b.addr, b.size + (c.size + k), true⟩ = c.stop k := by
        simp only [Block.stop, hc]
        omega
      rwa [hs]
    · rwa [push_keep hbc]

theorem noAdjacentFree_push (h : NoAdjacentFree bs) : NoAdjacentFree (push k b bs) := by
  cases bs with
  | nil => exact List.isChain_singleton _
  | cons c bs =>
    by_cases hbc : b.free = true ∧ c.free = true
    · rw [push_merge hbc.1 hbc.2]
      -- The merged block is free, as `c` was, so its neighbour is not.
      refine List.isChain_cons.mpr ⟨fun d hd hfree ↦ ?_, h.tail⟩
      exact h.rel_head? hd ⟨hbc.2, hfree.2⟩
    · rw [push_keep hbc]
      exact List.isChain_cons_cons.mpr ⟨hbc, h⟩

theorem usedBlocks_push : usedBlocks (push k b bs) = usedBlocks (b :: bs) := by
  cases bs with
  | nil => rfl
  | cons c bs =>
    by_cases hbc : b.free = true ∧ c.free = true
    · rw [push_merge hbc.1 hbc.2]
      simp [usedBlocks, hbc.1, hbc.2]
    · rw [push_keep hbc]

theorem coalesce_append (l r : List Block) :
    coalesce k (l ++ r) = l.foldr (push k) (coalesce k r) := List.foldr_append

theorem foldr_push_of_noAdjacentFree (h : NoAdjacentFree (l ++ r)) :
    l.foldr (push k) r = l ++ r := by
  induction l with
  | nil => rfl
  | cons b l ih =>
    rw [List.foldr_cons, ih h.tail, List.cons_append]
    exact push_of_noAdjacentFree h

theorem coalesce_of_noAdjacentFree (h : NoAdjacentFree bs) : coalesce k bs = bs := by
  have hr := foldr_push_of_noAdjacentFree (k := k) (l := bs) (r := []) (by rwa [List.append_nil])
  rwa [List.append_nil] at hr

theorem noAdjacentFree_coalesce (bs : List Block) : NoAdjacentFree (coalesce k bs) := by
  induction bs with
  | nil => exact .nil
  | cons b bs ih => exact noAdjacentFree_push ih

theorem tiles_coalesce (h : Tiles k lo bs hi) : Tiles k lo (coalesce k bs) hi := by
  induction bs generalizing lo with
  | nil => exact h
  | cons b bs ih => exact tiles_push ⟨h.1, ih h.2⟩

theorem usedBlocks_coalesce (bs : List Block) : usedBlocks (coalesce k bs) = usedBlocks bs := by
  induction bs with
  | nil => rfl
  | cons b bs ih =>
    change usedBlocks (push k b (coalesce k bs)) = _
    rw [usedBlocks_push]
    simp only [usedBlocks, List.filter_cons] at ih ⊢
    rw [ih]

/-- Merging at the seam keeps the part in front as it is. -/
theorem noAdjacentFree_append_push (hl : NoAdjacentFree (l ++ [a])) (hr : NoAdjacentFree r) :
    NoAdjacentFree (l ++ push k a r) := by
  obtain ⟨c, r', hp, -, hfree, -⟩ := exists_push_eq (k := k) a r
  have hpush := noAdjacentFree_push (k := k) (b := a) hr
  rw [hp] at hpush ⊢
  refine (List.isChain_append.mp hl).1.append hpush fun x hx y hy ↦ ?_
  cases hy
  rw [hfree]
  exact (List.isChain_append.mp hl).2.2 x hx a rfl

/-- A block that may have become free between two merged lists is merged with the
block behind it, then with the one in front. -/
theorem coalesce_seam (hl : NoAdjacentFree (l ++ [a])) (hr : NoAdjacentFree r) :
    coalesce k (l ++ a :: b :: r) = l ++ push k a (push k b r) := by
  have hseam := noAdjacentFree_append_push (k := k) hl (noAdjacentFree_push (k := k) (b := b) hr)
  rw [coalesce_append]
  change l.foldr (push k) (push k a (push k b (coalesce k r))) = _
  rw [coalesce_of_noAdjacentFree hr, foldr_push_of_noAdjacentFree hseam]

end Merging

section Marking

/-- The payload address picks out one block. -/
theorem markFree_eq (hh : 0 < k) (h : Tiles k lo (l ++ b :: r) hi) :
    markFree k (b.payload k) (l ++ b :: r) = l ++ { b with free := true } :: r := by
  have hnd := h.nodup_payload hh
  rw [List.map_append, List.map_cons, List.nodup_middle, List.nodup_cons, List.mem_append] at hnd
  have hne (c : Block) (hc : c ∈ l ∨ c ∈ r) : c.payload k ≠ b.payload k := fun heq ↦
    hnd.1 (heq ▸ hc.imp List.mem_map_of_mem List.mem_map_of_mem)
  have hid (m : List Block) (hm : ∀ c ∈ m, c.payload k ≠ b.payload k) :
      markFree k (b.payload k) m = m := by
    refine (List.map_congr_left fun c hc ↦ ?_).trans (List.map_id m)
    rw [if_neg (hm c hc), id]
  unfold markFree at hid ⊢
  rw [List.map_append, List.map_cons, if_pos rfl, hid l fun c hc ↦ hne c (.inl hc),
    hid r fun c hc ↦ hne c (.inr hc)]

theorem tiles_markFree (h : Tiles k lo bs hi) : Tiles k lo (markFree k p bs) hi := by
  induction bs generalizing lo with
  | nil => exact h
  | cons b bs ih =>
    have htail := ih h.2
    by_cases hb : b.payload k = p
    · simpa only [markFree, List.map_cons, if_pos hb] using ⟨h.1, htail⟩
    · simpa only [markFree, List.map_cons, if_neg hb] using ⟨h.1, htail⟩

theorem usedBlocks_markFree :
    usedBlocks (markFree k p bs) = (usedBlocks bs).filter fun b ↦ b.payload k ≠ p := by
  induction bs with
  | nil => rfl
  | cons b bs ih =>
    unfold usedBlocks markFree at ih ⊢
    by_cases hb : b.payload k = p <;> cases hf : b.free <;> simp [hb, hf, ih]

theorem markFree_comm (p q : ℕ) (bs : List Block) :
    markFree k p (markFree k q bs) = markFree k q (markFree k p bs) := by
  unfold markFree
  rw [List.map_map, List.map_map]
  refine List.map_congr_left fun b _ ↦ ?_
  have hpay : Block.payload k { b with free := true } = b.payload k := rfl
  by_cases hp : b.payload k = p <;> by_cases hq : b.payload k = q
  · simp only [Function.comp_apply, if_pos hp, if_pos hq, hpay]
  · simp only [Function.comp_apply, if_pos hp, if_neg hq, hpay]
  · simp only [Function.comp_apply, if_neg hp, if_pos hq, hpay]
  · simp only [Function.comp_apply, if_neg hp, if_neg hq]

/-- Three free neighbours become the same block in either order of merging. -/
theorem push_merged (hb : b.free = true) (hc : c.free = true) (bs : List Block) :
    push k ⟨b.addr, b.size + (c.size + k), true⟩ bs = push k b (push k c bs) := by
  cases bs with
  | nil => rw [push_nil, push_nil, push_merge hb hc]
  | cons d bs =>
    by_cases hd : d.free = true
    · rw [push_merge rfl hd, push_merge hc hd, push_merge hb rfl]
      congr 2
      dsimp only
      omega
    · rw [push_keep fun h ↦ hd h.2, push_keep fun h ↦ hd h.2, push_merge hb hc]

/-- Marking spares the blocks that are free already. -/
theorem markFree_cons_free (hb : b.free = true) (bs : List Block) :
    markFree k p (b :: bs) = b :: markFree k p bs := by
  have hsame : { b with free := true } = b := by rw [← hb]
  rw [markFree, List.map_cons, hsame, ite_self, ← markFree]

theorem coalesce_markFree_push (p : ℕ) (b : Block) (bs : List Block) :
    coalesce k (markFree k p (push k b bs)) = coalesce k (markFree k p (b :: bs)) := by
  cases bs with
  | nil => rfl
  | cons c bs =>
    by_cases h : b.free = true ∧ c.free = true
    · rw [push_merge h.1 h.2, markFree_cons_free rfl, markFree_cons_free h.1, markFree_cons_free h.2]
      exact push_merged h.1 h.2 _
    · rw [push_keep h]

/-- What has been merged before a block is freed is merged afterwards anyway. -/
theorem coalesce_markFree_coalesce (p : ℕ) (bs : List Block) :
    coalesce k (markFree k p (coalesce k bs)) = coalesce k (markFree k p bs) := by
  induction bs with
  | nil => rfl
  | cons b bs ih =>
    calc coalesce k (markFree k p (push k b (coalesce k bs)))
        = coalesce k (markFree k p (b :: coalesce k bs)) := coalesce_markFree_push p b _
      _ = push k (if b.payload k = p then { b with free := true } else b)
            (coalesce k (markFree k p (coalesce k bs))) := rfl
      _ = coalesce k (markFree k p (b :: bs)) := by rw [ih]; rfl

/-- Without used blocks there is one free block, as long as the whole range. -/
theorem eq_singleton_of_free (ht : Tiles k lo bs hi) (hm : NoAdjacentFree bs) (hne : lo < hi)
    (hfree : usedBlocks bs = []) : bs = [⟨lo, hi - lo - k, true⟩] := by
  have hall : ∀ b ∈ bs, b.free = true := by simpa [usedBlocks] using hfree
  match bs with
  | [] => exact absurd ht hne.ne
  | [b] =>
    obtain ⟨haddr, hstop⟩ := ht
    have hb := hall b List.mem_cons_self
    cases b with
    | mk addr size free =>
      simp only [Block.stop, Tiles] at haddr hstop hb
      rw [haddr, hb, show size = hi - lo - k by omega]
  | b :: c :: bs =>
    have hpair := (List.isChain_cons_cons.mp hm).1
    exact absurd ⟨hall b (by simp), hall c (by simp)⟩ hpair

end Marking

section Uniqueness

variable {cs : List Block}

theorem usedBlocks_cons_free (hb : b.free = true) : usedBlocks (b :: bs) = usedBlocks bs := by
  simp [usedBlocks, hb]

theorem usedBlocks_cons_used (hb : b.free = false) : usedBlocks (b :: bs) = b :: usedBlocks bs := by
  simp [usedBlocks, hb]

/-- A free block reaches up to the next used one. -/
theorem Tiles.stop_of_free (ht : Tiles k lo (b :: bs) hi) (hm : NoAdjacentFree (b :: bs)) (hb : b.free = true) :
    b.stop k = ((usedBlocks bs).head?.map Block.addr).getD hi := by
  cases bs with
  | nil => exact ht.2
  | cons c bs =>
    have hc : c.free = false := by
      have hpair := (List.isChain_cons_cons.mp hm).1
      simpa [hb] using hpair
    rw [usedBlocks_cons_used hc]
    exact ht.2.1.symm

/-- The used blocks alone determine a tiling whose free blocks are merged. -/
theorem eq_of_usedBlocks (hk : 0 < k) (hb : Tiles k lo bs hi) (hc : Tiles k lo cs hi) (hmb : NoAdjacentFree bs)
    (hmc : NoAdjacentFree cs) (h : usedBlocks bs = usedBlocks cs) : bs = cs := by
  -- A used block cannot stand where a free one does, which takes room itself.
  have hclash {lo : ℕ} {b c : Block} {bs cs : List Block} (ht : Tiles k lo (b :: bs) hi) (hc : c.addr = lo)
      (hused : usedBlocks bs = c :: usedBlocks cs) : False := by
    have hmem : c ∈ bs := List.mem_of_mem_filter (hused ▸ List.mem_cons_self)
    have hle := (ht.2.bounds hmem).1
    have haddr := ht.1
    unfold Block.stop at hle
    omega
  have hempty {lo : ℕ} {c : Block} {cs : List Block} (hlo : lo = hi) (ht : Tiles k lo (c :: cs) hi) : False := by
    have hle := ht.2.le
    have haddr := ht.1
    unfold Block.stop at hle
    omega
  induction bs generalizing lo cs with
  | nil =>
    cases cs with
    | nil => rfl
    | cons c cs => exact (hempty hb hc).elim
  | cons b bs ih =>
    cases cs with
    | nil => exact (hempty hc hb).elim
    | cons c cs =>
      have hrest (hbc : b = c) (hused : usedBlocks bs = usedBlocks cs) : b :: bs = c :: cs := by
        subst hbc
        rw [ih hb.2 hc.2 hmb.tail hmc.tail hused]
      cases hfb : b.free with
      | true =>
        rw [usedBlocks_cons_free hfb] at h
        cases hfc : c.free with
        | true =>
          rw [usedBlocks_cons_free hfc] at h
          have hstop := (hb.stop_of_free hmb hfb).trans ((congrArg (fun l ↦ (l.head?.map Block.addr).getD hi) h).trans
            (hc.stop_of_free hmc hfc).symm)
          have haddr := hb.1.trans hc.1.symm
          have hsize : b.size = c.size := by
            unfold Block.stop at hstop
            omega
          refine hrest ?_ h
          calc b = ⟨b.addr, b.size, b.free⟩ := rfl
            _ = ⟨c.addr, c.size, c.free⟩ := by rw [haddr, hsize, hfb, hfc]
        | false =>
          rw [usedBlocks_cons_used hfc] at h
          exact (hclash hb hc.1 h).elim
      | false =>
        rw [usedBlocks_cons_used hfb] at h
        cases hfc : c.free with
        | true =>
          rw [usedBlocks_cons_free hfc] at h
          exact (hclash hc hb.1 h.symm).elim
        | false =>
          rw [usedBlocks_cons_used hfc] at h
          injection h with hbc hused
          exact hrest hbc hused

end Uniqueness

end KevOS.Lib.Tiling
