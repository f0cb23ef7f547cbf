import KevOS.Heap.Nodes
import KevOS.Heap.Blocks
import KevOS.Lib.Linked

namespace KevOS.Heap.HeapList

open Lib.Program Lib.ByteMemory Lib.Linked Lib.Tiling Machine Nodes Blocks

/-- The list of headers in memory is the list of blocks. -/
structure Represents (m : Bytes) (bs : List Block) : Prop where
  links : Seg (fun a ↦ (nodeAt m a).next) (fun a ↦ (nodeAt m a).prev) 0 (bs.map Block.addr) 0
  data : ∀ b ∈ bs, (nodeAt m b.addr).size = b.size ∧ (nodeAt m b.addr).free = b.free

/-- The payloads of the used blocks keep their contents. -/
def Keeps (bs : List Block) (m m' : Bytes) : Prop :=
  ∀ b ∈ usedBlocks bs, ∀ a, b.payload heapNodeSize ≤ a → a < b.stop heapNodeSize → m' a = m a

/-- The address of the first block, null when there is none. -/
def firstAddr (bs : List Block) : ℕ := first (bs.map Block.addr) 0

/-- The address of the last block, null when there is none. -/
def lastAddr (bs : List Block) : ℕ := last 0 (bs.map Block.addr)

variable {m m' m'' : Bytes} {lo hi : ℕ} {a a' b c x : Block} {bs bs' l r : List Block}

section Frame

theorem Keeps.refl (bs : List Block) (m : Bytes) : Keeps bs m m := fun _ _ _ _ _ ↦ rfl

theorem Keeps.trans (h : Keeps bs m m') (h' : Keeps bs m' m'') : Keeps bs m m'' :=
  fun b hb x hx hx' ↦ (h' b hb x hx hx').trans (h b hb x hx hx')

theorem Keeps.mono (h : Keeps bs' m m') (hsub : usedBlocks bs ⊆ usedBlocks bs') : Keeps bs m m' :=
  fun b hb ↦ h b (hsub hb)

theorem mem_usedBlocks : b ∈ usedBlocks bs ↔ b ∈ bs ∧ b.free = false := by
  rw [usedBlocks, List.mem_filter, Bool.not_eq_true']

/-- Writing a header that lies in a block of the tiling, at its start unless the
block is free, touches no payload in use. -/
theorem keeps_of_sameOff {y : ℕ} (ht : Tiles heapNodeSize lo bs hi) (hc : c ∈ bs)
    (hy : c.addr ≤ y ∧ y + 16 ≤ c.stop heapNodeSize) (hstart : y = c.addr ∨ c.free = true)
    (h : SameOff y m m') : Keeps bs m m' := by
  intro b hb z hz hz'
  obtain ⟨hb, hused⟩ := mem_usedBlocks.mp hb
  unfold Block.payload Block.stop heapNodeSize at *
  rcases ht.disjoint hb hc with rfl | hbc | hcb
  · rcases hstart with rfl | hfree
    · exact h z (by omega)
    · simp [hused] at hfree
  · unfold Block.stop at hbc
    exact h z (by omega)
  · unfold Block.stop at hcb
    exact h z (by omega)

theorem keeps_header {y : ℕ} (ht : Tiles heapNodeSize lo bs hi) (hc : c ∈ bs) (hy : y = c.addr)
    (h : SameOff y m m') : Keeps bs m m' :=
  keeps_of_sameOff ht hc (by subst hy; unfold Block.stop heapNodeSize; omega) (.inl hy) h

end Frame

section Edits

theorem Represents.congr (h : Represents m bs)
    (heq : ∀ b ∈ bs, nodeAt m' b.addr = nodeAt m b.addr) : Represents m' bs := by
  have haddr : ∀ y ∈ bs.map Block.addr, nodeAt m' y = nodeAt m y :=
    List.forall_mem_map.mpr heq
  refine ⟨seg_congr (fun y hy ↦ ?_) (fun y hy ↦ ?_) h.links, fun b hb ↦ ?_⟩
  · rw [haddr y hy]
  · rw [haddr y hy]
  · rw [heq b hb]
    exact h.data b hb

theorem Represents.next_eq (h : Represents m (l ++ b :: r)) :
    (nodeAt m b.addr).next = firstAddr r := by
  have hl := h.links
  rw [List.map_append, List.map_cons] at hl
  have hnext := seg_next hl
  exact hnext

theorem Represents.prev_eq (h : Represents m (l ++ b :: r)) :
    (nodeAt m b.addr).prev = lastAddr l := by
  have hl := h.links
  rw [List.map_append, List.map_cons] at hl
  have hprev := seg_prev hl
  exact hprev

theorem Represents.next_next_eq (h : Represents m (l ++ a :: b :: r)) :
    (nodeAt m b.addr).next = firstAddr r := by
  rw [List.append_cons] at h
  exact h.next_eq

theorem Represents.next_prev_eq (h : Represents m (l ++ a :: b :: r)) :
    (nodeAt m b.addr).prev = a.addr := by
  rw [List.append_cons] at h
  rw [h.prev_eq, lastAddr, List.map_append]
  exact last_concat ..

/-- A block whose header changes in its size or flag only. -/
theorem Represents.update (h : Represents m (l ++ b :: r)) (hb : a.addr = b.addr)
    (hnode : nodeAt m' b.addr = { nodeAt m b.addr with size := a.size, free := a.free })
    (hother : ∀ c ∈ l ++ r, nodeAt m' c.addr = nodeAt m c.addr) :
    Represents m' (l ++ a :: r) := by
  have hmap : (l ++ a :: r).map Block.addr = (l ++ b :: r).map Block.addr := by
    rw [List.map_append, List.map_append, List.map_cons, List.map_cons, hb]
  have hlinks (y : ℕ) (hy : y ∈ (l ++ b :: r).map Block.addr) :
      (nodeAt m' y).next = (nodeAt m y).next ∧ (nodeAt m' y).prev = (nodeAt m y).prev := by
    obtain ⟨c, hc, rfl⟩ := List.mem_map.mp hy
    rcases List.mem_append.mp hc with hc | hc
    · rw [hother c (List.mem_append_left _ hc)]
      exact ⟨rfl, rfl⟩
    · rcases List.mem_cons.mp hc with rfl | hc
      · rw [hnode]
        exact ⟨rfl, rfl⟩
      · rw [hother c (List.mem_append_right _ hc)]
        exact ⟨rfl, rfl⟩
  refine ⟨?_, ?_⟩
  · rw [hmap]
    exact seg_congr (fun y hy ↦ (hlinks y hy).1) (fun y hy ↦ (hlinks y hy).2) h.links
  · have hdata := h.data
    rw [List.forall_mem_append] at hother hdata ⊢
    rw [List.forall_mem_cons] at hdata ⊢
    refine ⟨fun c hc ↦ ?_, ?_, fun c hc ↦ ?_⟩
    · rw [hother.1 c hc]
      exact hdata.1 c hc
    · rw [hb, hnode]
      exact ⟨rfl, rfl⟩
    · rw [hother.2 c hc]
      exact hdata.2.2 c hc

/-- The first block of `r` after an edit in front of it. -/
theorem data_of_prev (hd : ∀ d ∈ r, (nodeAt m d.addr).size = d.size ∧ (nodeAt m d.addr).free = d.free)
    {v : ℕ} (hr : ∀ d ∈ r.head?, nodeAt m' d.addr = { nodeAt m d.addr with prev := v })
    (hother : ∀ d ∈ r.tail, nodeAt m' d.addr = nodeAt m d.addr) :
    ∀ d ∈ r, (nodeAt m' d.addr).size = d.size ∧ (nodeAt m' d.addr).free = d.free := by
  cases r with
  | nil => simp
  | cons d r =>
    rw [List.forall_mem_cons] at hd ⊢
    refine ⟨?_, fun e he ↦ ?_⟩
    · rw [hr d rfl]
      exact hd.1
    · rw [hother e he]
      exact hd.2 e he

theorem next_of_prev {v : ℕ}
    (hr : ∀ d ∈ r.head?, nodeAt m' d.addr = { nodeAt m d.addr with prev := v })
    (hother : ∀ d ∈ r.tail, nodeAt m' d.addr = nodeAt m d.addr) :
    ∀ y ∈ r.map Block.addr, (nodeAt m' y).next = (nodeAt m y).next := by
  rw [List.forall_mem_map]
  cases r with
  | nil => simp
  | cons d r =>
    rw [List.forall_mem_cons]
    refine ⟨?_, fun e he ↦ ?_⟩
    · rw [hr d rfl]
    · rw [hother e he]

/-- The links around an edit behind `c`, with `v` for what the first block of `r` has before it. -/
theorem links_around {v : ℕ} (hprev : (nodeAt m' c.addr).prev = (nodeAt m c.addr).prev)
    (hr : ∀ d ∈ r.head?, nodeAt m' d.addr = { nodeAt m d.addr with prev := v })
    (hl : ∀ d ∈ l, nodeAt m' d.addr = nodeAt m d.addr)
    (ht : ∀ d ∈ r.tail, nodeAt m' d.addr = nodeAt m d.addr) :
    (∀ y ∈ (r.map Block.addr).head?, (nodeAt m' y).prev = v) ∧
      (∀ y ∈ l.map Block.addr ++ r.map Block.addr, (nodeAt m' y).next = (nodeAt m y).next) ∧
      ∀ y ∈ l.map Block.addr ++ c.addr :: (r.map Block.addr).tail,
        (nodeAt m' y).prev = (nodeAt m y).prev := by
  have hl' : ∀ y ∈ l.map Block.addr, nodeAt m' y = nodeAt m y := List.forall_mem_map.mpr hl
  have ht' : ∀ y ∈ (r.map Block.addr).tail, nodeAt m' y = nodeAt m y := by
    rw [← List.map_tail]
    exact List.forall_mem_map.mpr ht
  refine ⟨?_, ?_, ?_⟩
  · rw [List.head?_map]
    intro y hy
    obtain ⟨d, hd, rfl⟩ := Option.map_eq_some_iff.mp hy
    rw [hr d hd]
  · refine List.forall_mem_append.mpr ⟨fun y hy ↦ ?_, next_of_prev hr ht⟩
    rw [hl' y hy]
  · refine List.forall_mem_append.mpr ⟨fun y hy ↦ ?_, List.forall_mem_cons.mpr ⟨hprev, fun y hy ↦ ?_⟩⟩
    · rw [hl' y hy]
    · rw [ht' y hy]

/-- Link a new block in behind `c`, whose size may change too. -/
theorem Represents.insert (h : Represents m (l ++ c :: r)) (ha : a.addr = c.addr)
    (hnode : nodeAt m' c.addr = ⟨a.size, a.free, x.addr, (nodeAt m c.addr).prev⟩)
    (hx : nodeAt m' x.addr = ⟨x.size, x.free, firstAddr r, c.addr⟩)
    (hr : ∀ d ∈ r.head?, nodeAt m' d.addr = { nodeAt m d.addr with prev := x.addr })
    (hother : ∀ d ∈ l ++ r.tail, nodeAt m' d.addr = nodeAt m d.addr) :
    Represents m' (l ++ a :: x :: r) := by
  have hlinks := h.links
  have hdata := h.data
  rw [List.forall_mem_append] at hother hdata
  rw [List.forall_mem_cons] at hdata
  rw [List.map_append, List.map_cons] at hlinks
  obtain ⟨hfirst, hnexts, hprevs⟩ := links_around (by rw [hnode]) hr hother.1 hother.2
  refine ⟨?_, ?_⟩
  · rw [List.map_append, List.map_cons, List.map_cons, ha]
    refine hlinks.insert ?_ ?_ ?_ hfirst hnexts hprevs
    · rw [hnode]
    · rw [hx]
      rfl
    · rw [hx]
  · rw [List.forall_mem_append, List.forall_mem_cons, List.forall_mem_cons]
    refine ⟨fun d hd ↦ ?_, ?_, ?_, data_of_prev hdata.2.2 hr hother.2⟩
    · rw [hother.1 d hd]
      exact hdata.1 d hd
    · rw [ha, hnode]
      exact ⟨rfl, rfl⟩
    · rw [hx]
      exact ⟨rfl, rfl⟩

/-- Unlink the block behind `c`, whose size may change too. -/
theorem Represents.remove (h : Represents m (l ++ c :: b :: r)) (ha : a.addr = c.addr)
    (hnode : nodeAt m' c.addr = ⟨a.size, a.free, firstAddr r, (nodeAt m c.addr).prev⟩)
    (hr : ∀ d ∈ r.head?, nodeAt m' d.addr = { nodeAt m d.addr with prev := c.addr })
    (hother : ∀ d ∈ l ++ r.tail, nodeAt m' d.addr = nodeAt m d.addr) :
    Represents m' (l ++ a :: r) := by
  have hlinks := h.links
  have hdata := h.data
  rw [List.forall_mem_append] at hother hdata
  rw [List.forall_mem_cons, List.forall_mem_cons] at hdata
  rw [List.map_append, List.map_cons, List.map_cons] at hlinks
  obtain ⟨hfirst, hnexts, hprevs⟩ := links_around (by rw [hnode]) hr hother.1 hother.2
  refine ⟨?_, ?_⟩
  · rw [List.map_append, List.map_cons, ha]
    refine hlinks.remove ?_ hfirst hnexts hprevs
    rw [hnode]
    rfl
  · rw [List.forall_mem_append, List.forall_mem_cons]
    refine ⟨fun d hd ↦ ?_, ?_, data_of_prev hdata.2.2.2 hr hother.2⟩
    · rw [hother.1 d hd]
      exact hdata.1 d hd
    · rw [ha, hnode]
      exact ⟨rfl, rfl⟩

end Edits

end KevOS.Heap.HeapList
