import KevOS.Heap.Growth

namespace KevOS.Heap.Run

open Lib.Program Lib.ByteMemory Lib.Tiling Machine Nodes Blocks HeapList Growth

/-- The runs of a heap from `s₀` on: `kheapInit`, then allocations, releases of live
pointers, and writes of their owners. The live pointers come with the sizes requested. -/
inductive HeapRun {τ : Type} [ByteMem τ] [PageSource τ] [PageMapper τ] (s₀ : HeapState τ) :
    HeapState τ → List (ℕ × ℕ) → Prop
  | init {s : HeapState τ} : kheapInit.run s₀ = .ok () s → HeapRun s₀ s []
  | alloc {s s' : HeapState τ} {live : List (ℕ × ℕ)} {fuel n p : ℕ} : HeapRun s₀ s live →
      ValidSize n → (kmalloc fuel n).run s = .ok p s' → HeapRun s₀ s' ((p, n) :: live)
  | release {s s' : HeapState τ} {live : List (ℕ × ℕ)} {p n : ℕ} : HeapRun s₀ s live →
      (p, n) ∈ live → (kfree p).run s = .ok () s' → HeapRun s₀ s' (live.erase (p, n))
  | store {s s' : HeapState τ} {live : List (ℕ × ℕ)} {p n a : ℕ} (v : UInt8) : HeapRun s₀ s live →
      (p, n) ∈ live → p ≤ a → a < p + n → (store8 a v).run s = .ok () s' → HeapRun s₀ s' live

/-- The used blocks are the live pointers, with room for what was requested. -/
structure Live (bs : List Block) (live : List (ℕ × ℕ)) : Prop where
  perm : ((usedBlocks bs).map (Block.payload heapNodeSize)).Perm (live.map Prod.fst)
  room : ∀ p n, (p, n) ∈ live → ∃ b ∈ usedBlocks bs, b.payload heapNodeSize = p ∧ n ≤ b.size

section Blocks

variable {bs bs' : List Block} {live : List (ℕ × ℕ)} {hi hi' n p lo : ℕ}

theorem Live.nodup (h : Live bs live) (ht : Tiles heapNodeSize lo bs hi) :
    (live.map Prod.fst).Nodup :=
  h.perm.nodup_iff.mp ((ht.nodup_payload (by decide)).sublist (List.filter_sublist.map _))

theorem Live.of_place (h : Live bs live) (hn : n ≤ roundUp n)
    (hp : place (roundUp n) bs = some (p, bs')) : Live bs' ((p, n) :: live) := by
  obtain ⟨c, rfl, hc, hperm⟩ := usedBlocks_place hp
  refine ⟨(hperm.map _).trans (h.perm.cons _), fun q k hq ↦ ?_⟩
  rcases List.mem_cons.mp hq with heq | hq
  · cases heq
    exact ⟨c, hperm.mem_iff.mpr List.mem_cons_self, rfl, hn.trans hc⟩
  · obtain ⟨b, hb, hbq⟩ := h.room q k hq
    exact ⟨b, hperm.mem_iff.mpr (List.mem_cons_of_mem _ hb), hbq⟩

theorem Live.of_used (h : Live bs live) (heq : usedBlocks bs' = usedBlocks bs) : Live bs' live :=
  ⟨by rw [heq]; exact h.perm, by rw [heq]; exact h.room⟩

theorem Live.allocated (h : Live bs live) (hn : ValidSize n) (ha : Allocated n bs hi p bs' hi') :
    Live bs' ((p, n) :: live) := by
  obtain ⟨-, -, hle⟩ := hn.roundUp
  cases ha with
  | placed hp => exact h.of_place hle hp
  | grown _ hp => exact (h.of_used usedBlocks_grown).of_place hle hp

theorem Live.released (h : Live bs live) (ht : Tiles heapNodeSize lo bs hi) (hp : (p, n) ∈ live) :
    Live (Blocks.released p bs) (live.erase (p, n)) := by
  have hnd := h.nodup ht
  have hlive : (live.map Prod.fst).Perm (p :: (live.erase (p, n)).map Prod.fst) :=
    (List.perm_cons_erase hp).map Prod.fst
  rw [hlive.nodup_iff, List.nodup_cons] at hnd
  have hmem : p ∈ (usedBlocks bs).map (Block.payload heapNodeSize) := by
    rw [h.perm.mem_iff]
    exact List.mem_map_of_mem hp
  refine ⟨?_, fun q k hq ↦ ?_⟩
  · have hused := List.perm_cons_erase hmem
    rw [(h.perm.nodup_iff.mpr (h.nodup ht)).erase_eq_filter] at hused
    have hfilter : (usedBlocks (Blocks.released p bs)).map (Block.payload heapNodeSize) =
        ((usedBlocks bs).map (Block.payload heapNodeSize)).filter (· != p) := by
      rw [usedBlocks_released, List.filter_map]
      congr 2
      funext b
      rw [Bool.eq_iff_iff]
      simp
    rw [hfilter]
    exact (hused.symm.trans (h.perm.trans hlive)).cons_inv
  · obtain ⟨b, hb, rfl, hk⟩ := h.room q k (List.mem_of_mem_erase hq)
    have hne : b.payload heapNodeSize ≠ p := by
      rintro rfl
      exact hnd.1 (List.mem_map_of_mem (f := Prod.fst) hq)
    refine ⟨b, ?_, rfl, hk⟩
    rw [usedBlocks_released, List.mem_filter]
    exact ⟨hb, by simpa using hne⟩

end Blocks

section Runs

variable {τ : Type} [ByteMem τ] [PageSource τ] [PageMapper τ] {G : GrowWindow τ}
  {s₀ s s' : HeapState τ} {bs : List Block} {live : List (ℕ × ℕ)} {hi n p a fuel : ℕ}

/-- A write inside a live payload changes no header. -/
theorem Represented.store (h : Represented G s bs hi) (hl : Live bs live) (hp : (p, n) ∈ live)
    (ha : p ≤ a) (ha' : a < p + n) {v : UInt8} (hr : (store8 a v).run s = .ok () s') :
    Represented G s' bs hi := by
  obtain ⟨b, hb, rfl, hn⟩ := hl.room p n hp
  obtain ⟨hmem, -⟩ := mem_usedBlocks.mp hb
  have hbounds := h.shape.tiles.bounds hmem
  unfold Block.payload Block.stop at *
  have hacc : InHeap hi a := ⟨by omega, by omega⟩
  obtain ⟨-, hs'⟩ := ((Kernel.window G.toWindow _).store8_returns hacc v).eq_of_run h.sees hr
  refine .of_sees hs' (h.blocks.congr fun c hc ↦ nodeAt_congr fun i hi' ↦ ?_) h.shape
  refine Function.update_of_ne ?_ _ _
  have hcb := h.shape.tiles.disjoint hc hmem
  unfold Block.stop heapNodeSize at *
  rcases hcb with rfl | hcb | hcb <;> omega

theorem heapRun_inv (hinv : G.inv s₀.mem) (hacc : G.acc s₀.mem = InHeap kheapStart)
    (hvars : s₀.vars = .initial) (h : HeapRun s₀ s live) :
    ∃ bs hi, Represented G s bs hi ∧ Live bs live := by
  induction h with
  | init hr => exact ⟨_, _, kheapInit_ok hinv hacc hvars hr, .nil, by simp⟩
  | alloc _ hn hr ih =>
    obtain ⟨bs, hi, hrep, hl⟩ := ih
    obtain ⟨bs', hi', ha, hb⟩ := kmalloc_ok hn hrep hr
    exact ⟨bs', hi', hb.represented, hl.allocated hn ha⟩
  | release _ hp hr ih =>
    obtain ⟨bs, hi, hrep, hl⟩ := ih
    obtain ⟨b, hb, rfl, -⟩ := hl.room _ _ hp
    obtain ⟨s', hrun, hrep', -⟩ := kfree_ok hrep (mem_usedBlocks.mp hb).1
    rw [hrun] at hr
    cases hr
    exact ⟨_, hi, hrep', hl.released hrep.shape.tiles hp⟩
  | store v _ hp ha ha' hr ih =>
    obtain ⟨bs, hi, hrep, hl⟩ := ih
    exact ⟨bs, hi, Represented.store hrep hl hp ha ha' hr, hl⟩

/-- Releasing a live pointer always comes back. -/
theorem Represented.kfree_returns (h : Represented G s bs hi) (hl : Live bs live) (hp : (p, n) ∈ live) :
    ∃ s', (kfree p).run s = .ok () s' := by
  obtain ⟨b, hb, rfl, -⟩ := hl.room p n hp
  obtain ⟨s', hrun, -⟩ := kfree_ok h (mem_usedBlocks.mp hb).1
  exact ⟨s', hrun⟩

variable (G) in
/-- The list of `heap_node`s that starts at `heap_head`. -/
def IsHeapList (s : HeapState τ) (bs : List Block) : Prop :=
  s.vars.heapHead = firstAddr bs ∧ Represents (G.view s.mem) bs

/-- The list is doubly linked, tiles the heap, and has neither odd sizes nor free neighbours. -/
structure WellFormed (s : HeapState τ) (bs : List Block) : Prop where
  list : IsHeapList G s bs
  tiles : Tiles heapNodeSize kheapStart bs s.vars.heapCurrentEnd
  sized : ∀ b ∈ bs, 8 ∣ b.size ∧ 8 ≤ b.size
  merged : NoAdjacentFree bs

theorem Represented.wellFormed (h : Represented G s bs hi) : WellFormed (G := G) s bs := by
  have hend : s.vars.heapCurrentEnd = hi := by rw [h.vars]
  refine ⟨⟨h.head, h.blocks⟩, ?_, h.shape.sized, h.shape.merged⟩
  rw [hend]
  exact h.shape.tiles

variable (G) in
/-- The payload at `p`, as long as its header says. -/
def InPayload (s : HeapState τ) (p a : ℕ) : Prop :=
  p ≤ a ∧ a < p + (nodeAt (G.view s.mem) (p - heapNodeSize)).size

/-- One live pointer `p`, for a request of `n` bytes. -/
structure Sound (s : HeapState τ) (bs : List Block) (p n : ℕ) : Prop where
  aligned : 8 ∣ p
  inside : ∀ a, InPayload G s p a → kheapStart ≤ a ∧ a < s.vars.heapCurrentEnd
  room : n ≤ (nodeAt (G.view s.mem) (p - heapNodeSize)).size
  no_header : ∀ a, InPayload G s p a → ∀ b ∈ bs, a < b.addr ∨ b.addr + heapNodeSize ≤ a

/-- The live pointers do not share a byte, with each other or with a header. -/
structure Isolated (s : HeapState τ) (bs : List Block) (live : List (ℕ × ℕ)) : Prop where
  list : IsHeapList G s bs
  sound : ∀ p n, (p, n) ∈ live → Sound (G := G) s bs p n
  disjoint : live.Pairwise fun x y ↦ ∀ a, InPayload G s x.1 a → ¬ InPayload G s y.1 a

/-- The payload at `p` has the same contents in both states. -/
def SamePayload (s s' : HeapState τ) (p : ℕ) : Prop :=
  ∀ a, InPayload G s p a → G.view s'.mem a = G.view s.mem a

variable {b : Block}

theorem Represented.inPayload (h : Represented G s bs hi) (hb : b ∈ bs) :
    InPayload G s (b.payload heapNodeSize) a ↔
      b.payload heapNodeSize ≤ a ∧ a < b.stop heapNodeSize := by
  have hnode : b.payload heapNodeSize - heapNodeSize = b.addr := Nat.add_sub_cancel ..
  rw [InPayload, hnode, (h.blocks.data b hb).1]
  rfl

theorem aligned_of_tiles {lo hi : ℕ} {bs : List Block} (ht : Tiles heapNodeSize lo bs hi)
    (hlo : 8 ∣ lo) (hs : ∀ b ∈ bs, 8 ∣ b.size ∧ 8 ≤ b.size) : ∀ b ∈ bs, 8 ∣ b.addr := by
  induction bs generalizing lo with
  | nil => simp
  | cons c bs ih =>
    obtain ⟨rfl, ht⟩ := ht
    rw [List.forall_mem_cons] at hs ⊢
    have hstop : 8 ∣ c.stop heapNodeSize := by
      unfold Block.stop heapNodeSize
      omega
    exact ⟨hlo, ih ht hstop hs.2⟩

theorem Represented.isolated (h : Represented G s bs hi) (hl : Live bs live) :
    Isolated (G := G) s bs live := by
  have ht := h.shape.tiles
  have hend : s.vars.heapCurrentEnd = hi := by rw [h.vars]
  refine ⟨⟨h.head, h.blocks⟩, fun p n hp ↦ ?_, ?_⟩
  · obtain ⟨b, hb, rfl, hn⟩ := hl.room p n hp
    obtain ⟨hmem, -⟩ := mem_usedBlocks.mp hb
    have hbounds := ht.bounds hmem
    have halign := aligned_of_tiles ht (by decide) h.shape.sized b hmem
    have hnode : b.payload heapNodeSize - heapNodeSize = b.addr := Nat.add_sub_cancel ..
    refine ⟨?_, fun a ha ↦ ?_, ?_, fun a ha c hc ↦ ?_⟩
    · unfold Block.payload heapNodeSize
      omega
    · rw [Represented.inPayload h hmem] at ha
      unfold Block.payload at ha
      omega
    · rw [hnode, (h.blocks.data b hmem).1]
      exact hn
    · rw [Represented.inPayload h hmem] at ha
      unfold Block.payload Block.stop at ha
      rcases ht.disjoint hc hmem with rfl | hcb | hcb
      · omega
      · unfold Block.stop at hcb
        omega
      · unfold Block.stop at hcb
        omega
  · have hnd := hl.nodup ht
    refine (List.pairwise_map.mp hnd).imp_of_mem fun {x y} hx hy hne a hxa hya ↦ ?_
    obtain ⟨b, hb, hbx, -⟩ := hl.room x.1 x.2 hx
    obtain ⟨c, hc, hcy, -⟩ := hl.room y.1 y.2 hy
    obtain ⟨hb, -⟩ := mem_usedBlocks.mp hb
    obtain ⟨hc, -⟩ := mem_usedBlocks.mp hc
    rw [← hbx, Represented.inPayload h hb] at hxa
    rw [← hcy, Represented.inPayload h hc] at hya
    unfold Block.payload at hxa hya
    rcases ht.disjoint hb hc with rfl | hbc | hcb
    · exact hne (hbx.symm.trans hcy)
    · omega
    · omega

theorem Keeps.samePayload (hk : Keeps bs (G.view s.mem) (G.view s'.mem))
    (h : Represented G s bs hi) (hb : b ∈ usedBlocks bs) :
    SamePayload (G := G) s s' (b.payload heapNodeSize) := by
  intro a ha
  rw [Represented.inPayload h (mem_usedBlocks.mp hb).1] at ha
  exact hk b hb a ha.1 ha.2

theorem kmalloc_samePayload (h : Represented G s bs hi) (hl : Live bs live) (hn : ValidSize n)
    (hr : (kmalloc fuel n).run s = .ok p s') {q k : ℕ} (hq : (q, k) ∈ live) :
    SamePayload (G := G) s s' q := by
  obtain ⟨b, hb, rfl, -⟩ := hl.room q k hq
  obtain ⟨bs', hi', -, hbecame⟩ := kmalloc_ok hn h hr
  exact Keeps.samePayload hbecame.keeps h hb

theorem kfree_samePayload (h : Represented G s bs hi) (hl : Live bs live) (hp : (p, n) ∈ live)
    (hr : (kfree p).run s = .ok () s') {q k : ℕ} (hq : (q, k) ∈ live.erase (p, n)) :
    SamePayload (G := G) s s' q := by
  obtain ⟨c, hc, rfl, -⟩ := hl.room p n hp
  obtain ⟨s'', hrun, -, hkeeps⟩ := kfree_ok h (mem_usedBlocks.mp hc).1
  rw [hrun] at hr
  cases hr
  obtain ⟨b, hb, rfl, -⟩ := (hl.released h.shape.tiles hp).room q k hq
  rw [usedBlocks_released, List.mem_filter] at hb
  intro a ha
  rw [Represented.inPayload h (mem_usedBlocks.mp hb.1).1] at ha
  refine hkeeps b ?_ a ha.1 ha.2
  rw [usedBlocks_markFree, List.mem_filter]
  exact hb

end Runs

end KevOS.Heap.Run
