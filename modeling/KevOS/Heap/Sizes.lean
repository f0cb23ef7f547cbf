import KevOS.Heap.Run
import KevOS.Heap.Stores

namespace KevOS.Heap.Sizes

open Lib.Program Lib.ByteMemory Lib.Tiling Machine Nodes Blocks HeapList Allocate Growth Run
  Outcomes Stores

section Classes

variable {bs : List Block} {hi n : ℕ}

theorem validSize_iff (hn : 0 < n) (hlt : n < 4294967296) : ValidSize n ↔ n ≤ 0xFFFFEFF0 := by
  constructor
  · intro h
    have hr := h.lt
    rw [roundUp_eq h.round] at hr
    unfold heapNodeSize pageSize at hr
    omega
  · intro h
    have hround : n + 7 < 4294967296 := by omega
    refine ⟨hn, ?_, hround⟩
    rw [roundUp_eq hround]
    unfold heapNodeSize pageSize
    omega

theorem roundUp_wraps (hn : 0xFFFFFFF8 < n) (hlt : n < 4294967296) : roundUp n = 0 := by
  have hw : w32 (n + 7) = n + 7 - 4294967296 := by
    unfold w32
    omega
  rw [roundUp, hw, Lib.Bits.land_align8 (by omega)]
  omega

/-- The largest request that is rounded up to something. -/
theorem roundUp_endless (hn : 0xFFFFFFF0 < n) (hn' : n ≤ 0xFFFFFFF8) : roundUp n = 0xFFFFFFF8 := by
  rw [roundUp_eq (by omega)]
  omega

theorem pagesNeeded_wraps {r : ℕ} (hr : 0xFFFFEFF8 ≤ r) (hr' : r ≤ 0xFFFFFFF0) :
    pagesNeeded r = 0 := by
  unfold pagesNeeded w32 heapNodeSize pageSize
  omega

theorem block_size_lt (h : Shape bs hi) {b : Block} (hb : b ∈ bs) : b.size < 0x30000000 := by
  have hbounds := h.tiles.bounds hb
  have hlim := h.bounded
  unfold Block.stop kheapStart at hbounds
  unfold vmmPageTables at hlim
  omega

end Classes

variable {τ : Type} [ByteMem τ] [PageSource τ] [PageMapper τ]

/-- The runs of the heap with requests of any size. The calls that came back are listed, with
the states they were made in. -/
inductive CallRun (s₀ : HeapState τ) :
    HeapState τ → List (ℕ × ℕ) → List (HeapState τ × ℕ) → Prop
  | init {s : HeapState τ} : kheapInit.run s₀ = .ok () s → CallRun s₀ s [] []
  | alloc {s s' : HeapState τ} {live : List (ℕ × ℕ)} {calls : List (HeapState τ × ℕ)}
      {fuel n p : ℕ} : CallRun s₀ s live calls → 0 < n → n < 4294967296 →
      (kmalloc fuel n).run s = .ok p s' → CallRun s₀ s' ((p, n) :: live) ((s, n) :: calls)
  | release {s s' : HeapState τ} {live : List (ℕ × ℕ)} {calls : List (HeapState τ × ℕ)} {p n : ℕ} :
      CallRun s₀ s live calls → (p, n) ∈ live → (kfree p).run s = .ok () s' →
      CallRun s₀ s' (live.erase (p, n)) calls
  | store {s s' : HeapState τ} {live : List (ℕ × ℕ)} {calls : List (HeapState τ × ℕ)} {p n a : ℕ}
      (v : UInt8) : CallRun s₀ s live calls → (p, n) ∈ live → p ≤ a → a < p + n →
      (store8 a v).run s = .ok () s' → CallRun s₀ s' live calls

section Statements

variable (G : GrowWindow τ)

/-- One call of `kmalloc`, for any request: a block that is large enough, the list in order, and
no store outside of the heap, also where the call does not come back. -/
structure Honours (s : HeapState (Logged τ)) (n : ℕ) : Prop where
  served : ∀ fuel p s', (kmalloc fuel n).run s = .ok p s' →
    (p = 0 ∧ ∀ bs, IsHeapList (loggedWindow G) s bs → IsHeapList (loggedWindow G) s' bs) ∨
      ∃ bs, IsHeapList (loggedWindow G) s' bs ∧
        ∃ b ∈ bs, b.payload heapNodeSize = p ∧ n ≤ b.size
  tiles : ∀ fuel p s', (kmalloc fuel n).run s = .ok p s' →
    ∃ bs, IsHeapList (loggedWindow G) s' bs ∧
      Tiles heapNodeSize kheapStart bs s'.vars.heapCurrentEnd
  stores_ok : ∀ fuel p s', (kmalloc fuel n).run s = .ok p s' → StoresInHeap s'
  stores_error : ∀ fuel e s', (kmalloc fuel n).run s = .error e s' → StoresInHeap s'

def NoFreeBlock (s : HeapState (Logged τ)) : Prop :=
  ∃ bs, WellFormed (G := loggedWindow G) s bs ∧ ∀ b ∈ bs, b.free = false

end Statements

variable {G : GrowWindow τ} {s s' : HeapState (Logged τ)} {bs bs' : List Block}
  {hi n p fuel : ℕ} {e : Stop}

section Valid

theorem honours_of_validSize (h : Represented (loggedWindow G) s bs hi) (hn : ValidSize n) :
    Honours G s n where
  served fuel p s' hrun := by
    obtain ⟨bs', hi', halloc, hb⟩ := kmalloc_ok hn h hrun
    obtain ⟨mid, hplace⟩ : ∃ mid, place (roundUp n) mid = some (p, bs') := by
      cases halloc with
      | placed hp => exact ⟨_, hp⟩
      | grown _ hp => exact ⟨_, hp⟩
    obtain ⟨c, hc, hle, hperm⟩ := usedBlocks_place hplace
    have hmem := (mem_usedBlocks.mp (hperm.mem_iff.mpr List.mem_cons_self)).1
    exact .inr ⟨bs', ⟨hb.represented.head, hb.represented.blocks⟩, c, hmem, hc,
      hn.roundUp.2.2.trans hle⟩
  tiles fuel p s' hrun := by
    obtain ⟨bs', hi', -, hb⟩ := kmalloc_ok hn h hrun
    have hw := Run.Represented.wellFormed hb.represented
    exact ⟨bs', hw.list, hw.tiles⟩
  stores_ok fuel p s' hrun := by
    obtain ⟨bs', hi', -, hb⟩ := kmalloc_ok hn h hrun
    exact storesInHeap_of_represented hb.represented
  stores_error fuel e s' hrun := by
    obtain ⟨bs', hi', h'⟩ | hexp := kmalloc_error hn h hrun
    · exact storesInHeap_of_represented h'
    · exact storesInHeap_of_kheapExpand h hexp

end Valid

section Stuck

/-- A call that never comes back: it stops in a heap in order, or while it adds a page to one. -/
structure Stuck (G : GrowWindow τ) (s : HeapState (Logged τ)) (n : ℕ) : Prop where
  never : ∀ fuel p s', (kmalloc fuel n).run s ≠ .ok p s'
  stops : ∀ fuel e s', (kmalloc fuel n).run s = .error e s' →
    ∃ t bs hi, Represented (loggedWindow G) t bs hi ∧
      (s' = t ∨ (kheapExpand 1).run t = .error e s')

theorem Stuck.honours (h : Stuck G s n) : Honours G s n where
  served fuel p s' hrun := absurd hrun (h.never fuel p s')
  tiles fuel p s' hrun := absurd hrun (h.never fuel p s')
  stores_ok fuel p s' hrun := absurd hrun (h.never fuel p s')
  stores_error fuel e s' hrun := by
    obtain ⟨t, bs, hi, ht, rfl | hexp⟩ := h.stops fuel e s' hrun
    · exact storesInHeap_of_represented ht
    · exact storesInHeap_of_kheapExpand ht hexp

/-- The rounded request is larger than any heap, and the page count is one. -/
theorem stuck_of_endless (h : Represented (loggedWindow G) s bs hi) (hn : 0xFFFFFFF0 < n)
    (hn' : n ≤ 0xFFFFFFF8) : Stuck G s n := by
  have hbig : ∀ bs hi, Shape bs hi → ∀ b ∈ bs, ¬ Fits 0xFFFFFFF8 b := by
    intro bs hi hshape b hb hfit
    have hlt := block_size_lt hshape hb
    have hle := hfit.2
    omega
  have hnever (fuel : ℕ) := @search_never _ _ _ _ _ _ _ _ _ fuel (by decide) hbig h
  have heq (fuel : ℕ) : (kmalloc fuel n).run s = (search 0xFFFFFFF8 fuel (firstAddr bs)).run s := by
    rw [kmalloc_eq_search (by omega) h, roundUp_endless hn hn']
  refine ⟨fun fuel p s' hrun ↦ ?_, fun fuel e s' hrun ↦ ?_⟩
  · rw [heq] at hrun
    exact (hnever fuel).1 p s' hrun
  · rw [heq] at hrun
    exact (hnever fuel).2 e s' hrun

theorem tiles_unique {m : Bytes} {lo : ℕ} (h : Tiles heapNodeSize lo bs hi)
    (h' : Tiles heapNodeSize lo bs' hi)
    (hd : ∀ b ∈ bs, (nodeAt m b.addr).size = b.size ∧ (nodeAt m b.addr).free = b.free)
    (hd' : ∀ b ∈ bs', (nodeAt m b.addr).size = b.size ∧ (nodeAt m b.addr).free = b.free) :
    bs = bs' := by
  have hnil {lo : ℕ} {b : Block} {bs : List Block} (h : Tiles heapNodeSize lo (b :: bs) lo) :
      False := by
    have hbounds := h.bounds List.mem_cons_self
    unfold Block.stop heapNodeSize at hbounds
    omega
  induction bs generalizing lo bs' with
  | nil =>
    cases bs' with
    | nil => rfl
    | cons b' bs' =>
      cases (show lo = hi from h)
      exact (hnil h').elim
  | cons b bs ih =>
    cases bs' with
    | nil =>
      cases (show lo = hi from h')
      exact (hnil h).elim
    | cons b' bs' =>
      rw [List.forall_mem_cons] at hd hd'
      obtain ⟨haddr, h⟩ := h
      obtain ⟨haddr', h'⟩ := h'
      have heq : b = b' := by
        have hsize := hd.1
        have hsize' := hd'.1
        rw [haddr] at hsize
        rw [haddr'] at hsize'
        rw [Block.mk.injEq]
        exact ⟨haddr.trans haddr'.symm, hsize.1.symm.trans hsize'.1, hsize.2.symm.trans hsize'.2⟩
      subst heq
      rw [ih h h' hd.2 hd'.2]

theorem noFreeBlock_iff (h : Represented (loggedWindow G) s bs hi) :
    NoFreeBlock G s ↔ place 0 bs = none := by
  have hwell := Run.Represented.wellFormed h
  rw [place_eq_none]
  constructor
  · rintro ⟨bs', hwell', hused⟩ b hb hfit
    cases tiles_unique hwell.tiles hwell'.tiles hwell.list.2.data hwell'.list.2.data
    exact Bool.false_ne_true ((hused b hb).symm.trans hfit.1)
  · intro hnone
    refine ⟨bs, hwell, fun b hb ↦ ?_⟩
    rw [← Bool.not_eq_true]
    exact fun hfree ↦ hnone b hb ⟨hfree, Nat.zero_le _⟩

/-- The request is rounded to 0, and there is nothing to give. -/
theorem kmalloc_exhausted (h : Represented (loggedWindow G) s bs hi) (hn : 0xFFFFFFF8 < n)
    (hlt : n < 4294967296) (hgrow : ∀ s₁, (kheapExpand 1).run s ≠ .ok () s₁)
    (hfree : NoFreeBlock G s) (fuel : ℕ) : ∃ e s', (kmalloc fuel n).run s = .error e s' ∧
      (s' = s ∨ (kheapExpand 1).run s = .error e s') := by
  have hp := (noFreeBlock_iff h).mp hfree
  rw [kmalloc_eq_search (by omega) h, roundUp_wraps hn hlt]
  obtain hshort | ⟨e, s', hexp, hstop⟩ | ⟨-, -, ⟨s₀, hexp⟩, -⟩ := search_round h (by decide) hp fuel
  · exact ⟨_, _, hshort, .inl rfl⟩
  · exact ⟨e, s', hstop, .inr hexp⟩
  · exact absurd hexp (hgrow s₀)

theorem stuck_of_exhausted (h : Represented (loggedWindow G) s bs hi) (hn : 0xFFFFFFF8 < n)
    (hlt : n < 4294967296) (hgrow : ∀ s₁, (kheapExpand 1).run s ≠ .ok () s₁)
    (hfree : NoFreeBlock G s) : Stuck G s n := by
  refine ⟨fun fuel p s' hrun ↦ ?_, fun fuel e s' hrun ↦ ?_⟩ <;>
    obtain ⟨e', t, herr, ht⟩ := kmalloc_exhausted h hn hlt hgrow hfree fuel <;>
    cases herr.symm.trans hrun
  exact ⟨s, bs, hi, h, ht⟩

end Stuck

section Unmapped

/-- What `extend` does to the blocks when it has added no page: the header of the new block goes
to the end of the heap. -/
theorem extend_stored {c : ℕ} (hpages : pagesNeeded n = 0) (hend : s.vars.heapCurrentEnd = hi) :
    ∃ x : Prog (HeapState (Logged τ)) Unit, (extend c n).run s = x.run s ∧ Always (Stored hi) x := by
  refine ⟨do
    writeSize hi (sub32 (w32 (0 * pageSize)) heapNodeSize)
    writeFree hi true
    writeNext hi 0
    writePrev hi c
    writeNext c hi
    kfree (w32 (hi + heapNodeSize)), ?_, ?_⟩
  · rw [extend, run_get_bind, hpages, hend]
    exact run_bind_ok (show (kheapExpand 0).run s = .ok () s from rfl)
  · exact .bind (store32_stored _ _) (fun _ ↦ Logs.bind (store8_logs _ _) fun _ ↦
      Logs.bind (store32_logs _ _) fun _ ↦ Logs.bind (store32_logs _ _) fun _ ↦
      Logs.bind (store32_logs _ _) fun _ ↦ kfree_logs _) Stored.trans

/-- From here to the last multiple of 8 the page count wraps around to 0. -/
theorem not_honours_of_noPages (h : Represented (loggedWindow G) s bs hi) (hn : 0xFFFFEFF0 < n)
    (hn' : n ≤ 0xFFFFFFF0) : ¬ Honours G s n := by
  intro hon
  have hround : roundUp n = (n + 7) / 8 * 8 := roundUp_eq (by omega)
  have hpages : pagesNeeded (roundUp n) = 0 := pagesNeeded_wraps (by omega) (by omega)
  have hlimit := vmmPageTables_lt
  have hbounded := h.shape.bounded
  have hend : s.vars.heapCurrentEnd = hi := by rw [h.vars]
  have hp : place (roundUp n) bs = none := by
    refine place_eq_none.mpr fun b hb hfit ↦ ?_
    have hlt := block_size_lt h.shape hb
    have hle := hfit.2
    omega
  obtain ⟨l, c, rfl⟩ := h.exists_last
  obtain ⟨x, hx, hstored⟩ := @extend_stored _ _ _ _ s hi _ c.addr hpages hend
  -- With just this fuel the search ends behind `extend`.
  have hrun : (kmalloc (0 + (l.length + 1)) n).run s = (x >>= fun _ ↦ throw .fuel).run s := by
    rw [kmalloc_eq_search (by omega) h, search_grows (loggedWindow G).toWindow h.sees h.laid h.blocks hp,
      EStateM.run_bind, EStateM.run_bind, hx]
    cases x.run s <;> rfl
  have hall : Always (Stored hi) (x >>= fun _ ↦ throw .fuel : Prog (HeapState (Logged τ)) ℕ) :=
    hstored.bind (fun _ ↦ .throw Logs.refl _) Stored.trans
  have hout {s' : HeapState (Logged τ)} (hs' : Stored hi s s') : ¬ StoresInHeap s' := by
    obtain ⟨⟨hvars, -⟩, hmem⟩ := hs'
    intro hin
    have hhi := hin _ hmem
    rw [hvars, hend, w32_of_lt (by omega)] at hhi
    exact lt_irrefl hi hhi.2
  cases hr : (kmalloc (0 + (l.length + 1)) n).run s with
  | ok p s' => exact hout (hall.ok s p s' (hrun.symm.trans hr)) (hon.stores_ok _ p s' hr)
  | error e s' => exact hout (hall.error s e s' (hrun.symm.trans hr)) (hon.stores_error _ e s' hr)

end Unmapped

section Wrapped

/-- The block that is taken keeps its address and does not get larger. -/
theorem exists_carve (b : Block) (n : ℕ) : ∃ c ∈ carve n b, c.addr = b.addr ∧ c.size ≤ b.size := by
  unfold carve
  split
  · exact ⟨_, List.mem_cons_self, rfl, by dsimp only; omega⟩
  · exact ⟨_, List.mem_cons_self, rfl, le_rfl⟩

/-- A request rounded to 0 is served by any free block. -/
theorem search_zero (h : Represented (loggedWindow G) s bs hi) (hp : place 0 bs ≠ none) :
    ∃ p s', (search 0 bs.length (firstAddr bs)).run s = .ok p s' ∧ p ≠ 0 ∧
      (nodeAt ((loggedWindow G).view s'.mem) (p - heapNodeSize)).size < 0x30000000 := by
  obtain ⟨⟨p, bs'⟩, hp⟩ := Option.ne_none_iff_exists'.mp hp
  obtain ⟨m', hreturns, hrep, -⟩ := search_returns (loggedWindow G).toWindow (e := ⟨kheapStart, hi⟩)
    h.laid h.blocks (by decide) hp le_rfl
  obtain ⟨s', hrun, hs'⟩ := hreturns s h.sees
  obtain ⟨l, b, r, rfl, -, -, rfl, rfl⟩ := exists_of_place hp
  obtain ⟨c, hc, haddr, hsize⟩ := exists_carve b 0
  have hview : (loggedWindow G).view s'.mem = m' := hs'.2.2
  have hdata := (hrep.data c (List.mem_append_right _ (List.mem_append_left _ hc))).1
  have hlt := block_size_lt h.shape (b := b) (by simp)
  refine ⟨_, s', hrun, ?_, ?_⟩
  · exact (Nat.lt_of_lt_of_le (by decide) (Nat.le_add_left heapNodeSize b.addr)).ne'
  · rw [show b.payload heapNodeSize - heapNodeSize = b.addr from Nat.add_sub_cancel ..,
      hview, ← haddr, hdata]
    exact hsize.trans_lt hlt

theorem not_honours_of_small (hn : 0x30000000 ≤ n) (hrun : (kmalloc fuel n).run s = .ok p s')
    (hp : p ≠ 0) (hsize : (nodeAt ((loggedWindow G).view s'.mem) (p - heapNodeSize)).size < 0x30000000) :
    ¬ Honours G s n := by
  intro hon
  obtain ⟨rfl, -⟩ | ⟨bs, hlist, b, hb, rfl, hle⟩ := hon.served fuel p s' hrun
  · exact hp rfl
  · have hdata := (hlist.2.data b hb).1
    rw [show b.payload heapNodeSize - heapNodeSize = b.addr from Nat.add_sub_cancel ..] at hsize
    omega

/-- The request is rounded to 0, and a block or a page is there to give. -/
theorem not_honours_of_wrapped (h : Represented (loggedWindow G) s bs hi) (hn : 0xFFFFFFF8 < n)
    (hlt : n < 4294967296)
    (hmore : ¬ NoFreeBlock G s ∨ ∃ s₁, (kheapExpand 1).run s = .ok () s₁) : ¬ Honours G s n := by
  have heq (fuel : ℕ) : (kmalloc fuel n).run s = (search 0 fuel (firstAddr bs)).run s := by
    rw [kmalloc_eq_search (by omega) h, roundUp_wraps hn hlt]
  by_cases hp : place 0 bs = none
  · obtain ⟨s₁, hexp⟩ := hmore.resolve_left fun hfree ↦ hfree ((noFreeBlock_iff h).mpr hp)
    obtain ⟨s₂, hbecame, hgo⟩ := search_grown (by decide) h hp hexp
    obtain ⟨b, hb, hfit⟩ : ∃ b ∈ grown 0 hi bs, Fits 0 b := exists_fits_grown (by decide)
    obtain ⟨p, s', hrun, hne, hsize⟩ := search_zero hbecame.represented
      fun hnone ↦ place_eq_none.mp hnone b hb hfit
    rw [← hgo, ← heq] at hrun
    exact not_honours_of_small (by omega) hrun hne hsize
  · obtain ⟨p, s', hrun, hne, hsize⟩ := search_zero h hp
    rw [← heq] at hrun
    exact not_honours_of_small (by omega) hrun hne hsize

end Wrapped

end KevOS.Heap.Sizes
