import KevOS.Heap.FlatMachine
import Mathlib.Data.List.Perm.Basic

namespace KevOS.Heap.FreeOrder

open Lib.Program Lib.ByteMemory Lib.Tiling Machine Blocks HeapList Growth Run FlatMachine

/-- Free one pointer after the other. -/
def kfreeAll {τ : Type} [ByteMem τ] : List ℕ → Prog (HeapState τ) Unit
  | [] => pure ()
  | p :: ps => do
    kfree p
    kfreeAll ps

/-- The blocks after freeing all the payloads `ps`. -/
def releasedAll (ps : List ℕ) (bs : List Block) : List Block :=
  ps.foldl (fun bs p ↦ released p bs) bs

section Blocks

variable {bs : List Block} {ps qs : List ℕ} {p q hi : ℕ}

theorem released_comm (p q : ℕ) (bs : List Block) :
    released p (released q bs) = released q (released p bs) := by
  unfold released
  rw [coalesce_markFree_coalesce, coalesce_markFree_coalesce, markFree_comm]

theorem releasedAll_perm (h : ps.Perm qs) (bs : List Block) : releasedAll ps bs = releasedAll qs bs :=
  h.foldl_eq' (fun p _ q _ bs ↦ released_comm q p bs) bs

theorem Shape.releasedAll (h : Shape bs hi) (ps : List ℕ) : Shape (releasedAll ps bs) hi := by
  induction ps generalizing bs with
  | nil => exact h
  | cons p ps ih => exact ih (h.released p)

theorem mem_usedBlocks_releasedAll {b : Block} (h : b ∈ usedBlocks (releasedAll ps bs)) :
    b ∈ usedBlocks bs ∧ b.payload heapNodeSize ∉ ps := by
  induction ps generalizing bs with
  | nil => exact ⟨h, List.not_mem_nil⟩
  | cons p ps ih =>
    obtain ⟨hb, hps⟩ := ih h
    rw [usedBlocks_released, List.mem_filter, decide_eq_true_iff] at hb
    rw [List.mem_cons, not_or]
    exact ⟨hb.1, hb.2, hps⟩

/-- When no used block is left, the heap is one free block. -/
theorem Shape.eq_singleton (h : Shape bs hi) (hfree : usedBlocks bs = []) :
    bs = [⟨kheapStart, hi - kheapStart - heapNodeSize, true⟩] :=
  eq_singleton_of_free h.tiles h.merged h.started hfree

end Blocks

section Runs

variable {τ : Type} [ByteMem τ] [PageSource τ] [PageMapper τ] {G : GrowWindow τ}
  {s : HeapState τ} {bs : List Block} {ps : List ℕ} {hi : ℕ}

/-- Used blocks stay in use until their own payload is freed. -/
theorem kfreeAll_ok (h : Represented G s bs hi) (hnodup : ps.Nodup)
    (hps : ∀ p ∈ ps, ∃ b ∈ usedBlocks bs, b.payload heapNodeSize = p) :
    ∃ s', (kfreeAll ps).run s = .ok () s' ∧ Represented G s' (releasedAll ps bs) hi := by
  induction ps generalizing s bs with
  | nil => exact ⟨s, rfl, h⟩
  | cons p ps ih =>
    rw [List.nodup_cons] at hnodup
    rw [List.forall_mem_cons] at hps
    obtain ⟨⟨b, hb, rfl⟩, hps⟩ := hps
    obtain ⟨s₁, hrun, hrep, -⟩ := kfree_ok h (mem_usedBlocks.mp hb).1
    have hrest : ∀ q ∈ ps, ∃ c ∈ usedBlocks (released (b.payload heapNodeSize) bs),
        c.payload heapNodeSize = q := by
      intro q hq
      obtain ⟨c, hc, rfl⟩ := hps q hq
      have hne : c.payload heapNodeSize ≠ b.payload heapNodeSize := by
        intro heq
        exact hnodup.1 (heq ▸ hq)
      refine ⟨c, ?_, rfl⟩
      rw [usedBlocks_released, List.mem_filter]
      exact ⟨hc, by simpa using hne⟩
    obtain ⟨s', hrun', hrep'⟩ := ih hrep hnodup.2 hrest
    exact ⟨s', (run_bind_ok hrun).trans hrun', hrep'⟩

end Runs

variable {contents : ℕ → Bytes} {frames : List ℕ} {s : HeapState Flat} {live : List (ℕ × ℕ)}
  {ps : List ℕ}

/-- In every run, freeing live pointers leaves the same list in whatever order it is done, and
one free block when none of them is left. -/
theorem kfreeAll_order (h : HeapRun (Flat.start contents frames) s live) (hnodup : ps.Nodup)
    (hps : ps ⊆ live.map Prod.fst) :
    ∃ bs, (∀ qs, qs.Perm ps → ∃ s', (kfreeAll qs).run s = .ok () s' ∧
        WellFormed (G := flatWindow) s' bs ∧ s'.vars.heapCurrentEnd = s.vars.heapCurrentEnd) ∧
      (live.map Prod.fst ⊆ ps →
        bs = [⟨kheapStart, s.vars.heapCurrentEnd - kheapStart - heapNodeSize, true⟩]) := by
  obtain ⟨bs, hi, hrep, hl⟩ := run_inv h
  have hend : s.vars.heapCurrentEnd = hi := by rw [hrep.vars]
  refine ⟨releasedAll ps bs, ?_, ?_⟩
  · intro qs hperm
    have hused : ∀ q ∈ qs, ∃ b ∈ usedBlocks bs, b.payload heapNodeSize = q := by
      intro q hq
      obtain ⟨⟨p, n⟩, hp, rfl⟩ := List.mem_map.mp (hps (hperm.subset hq))
      obtain ⟨b, hb, hbp, -⟩ := hl.room p n hp
      exact ⟨b, hb, hbp⟩
    obtain ⟨s', hrun, hrep'⟩ := kfreeAll_ok hrep (hperm.nodup_iff.mpr hnodup) hused
    have hend' : s'.vars.heapCurrentEnd = hi := by rw [hrep'.vars]
    rw [releasedAll_perm hperm] at hrep'
    exact ⟨s', hrun, Run.Represented.wellFormed hrep', hend'.trans hend.symm⟩
  · intro hall
    rw [hend]
    apply Shape.eq_singleton (Shape.releasedAll hrep.shape ps)
    rw [List.eq_nil_iff_forall_not_mem]
    intro b hb
    obtain ⟨hb, hnot⟩ := mem_usedBlocks_releasedAll hb
    have hlive : b.payload heapNodeSize ∈ live.map Prod.fst :=
      hl.perm.subset (List.mem_map_of_mem hb)
    exact hnot (hall hlive)

/-- Two allocations, freed in either order. -/
theorem kfreeAll_order_smallFlat : ∃ s p q bs, HeapRun smallFlat s [(q, 100), (p, 100)] ∧ p ≠ q ∧
    (∃ s', (kfreeAll [p, q]).run s = .ok () s' ∧ WellFormed (G := flatWindow) s' bs) ∧
    (∃ s', (kfreeAll [q, p]).run s = .ok () s' ∧ WellFormed (G := flatWindow) s' bs) ∧
    bs.length = 1 := by
  have hstart : ∃ s, kheapInit.run smallFlat = .ok () s ∧
      Represented flatWindow s [initialBlock] (kheapStart + kheapInitialSize) :=
    kheapInit_flat (by simp) (by simp)
  obtain ⟨s₀, hinit, hrep⟩ := hstart
  have hp : place (roundUp 100) [initialBlock] = some _ := rfl
  obtain ⟨s₁, hrun, hb⟩ := kmalloc_placed validSize_hundred hrep hp le_rfl
  have hq : place (roundUp 100) (carve (roundUp 100) initialBlock ++ []) = some _ := rfl
  obtain ⟨s, hrun', -⟩ := kmalloc_placed validSize_hundred hb.represented hq le_rfl
  have hrun₂ := HeapRun.alloc (.alloc (.init hinit) validSize_hundred hrun) validSize_hundred hrun'
  obtain ⟨bs, horder, hone⟩ := kfreeAll_order hrun₂ (by decide) (List.Subset.refl _)
  obtain ⟨s', hr, hw, -⟩ := horder _ (List.Perm.refl _)
  obtain ⟨s'', hr', hw', -⟩ := horder _ (List.Perm.swap _ _ _)
  exact ⟨s, _, _, bs, hrun₂, by decide, ⟨s'', hr', hw'⟩, ⟨s', hr, hw⟩,
    by rw [hone (List.Subset.refl _)]; rfl⟩

end KevOS.Heap.FreeOrder
