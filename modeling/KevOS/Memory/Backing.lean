import KevOS.Memory.Frames

namespace KevOS.Memory.Backing

open Lib.Program Lib.ByteMemory Lib.Paging Machine Pmm Vmm MapPage Heap Mapped Frames Finset

/-- The tables for the first `k` pages of the heap, 1024 pages each. -/
def heapTables (k : ℕ) : ℕ := (k + 1023) / 1024

/-- What the heap relies on while its memory grows: the directory's entries that are in
use, and the frames and contents of its first `k` pages, stay. -/
structure Extends (dir k : ℕ) (m m' : Bytes) : Prop where
  entries : ∀ d < 1024, Present (entry m dir d) → entry m' dir d = entry m dir d
  pages : ∀ j < k, Lib.Paging.translate m' dir (heapPage j) = Lib.Paging.translate m dir (heapPage j)
  contents : ∀ j < k, ∀ f, Lib.Paging.translate m dir (heapPage j) = some f →
    ∀ a, f ≤ a → a < f + 4096 → m' a = m a

section Extending

variable {P : Platform} {m m' m'' : Bytes} {s s₁ : Paged} {dir table total k n held f t : ℕ}

theorem Extends.refl (dir k : ℕ) (m : Bytes) : Extends dir k m m :=
  ⟨fun _ _ _ ↦ rfl, fun _ _ ↦ rfl, fun _ _ _ _ _ _ _ ↦ rfl⟩

theorem Extends.trans (h : Extends dir k m m') (h' : Extends dir k m' m'') :
    Extends dir k m m'' where
  entries d hd hp := (h'.entries d hd (by rwa [h.entries d hd hp])).trans (h.entries d hd hp)
  pages j hj := (h'.pages j hj).trans (h.pages j hj)
  contents j hj f hf a ha ha' :=
    (h'.contents j hj f ((h.pages j hj).trans hf) a ha ha').trans (h.contents j hj f hf a ha ha')

theorem Extends.mono {l : ℕ} (h : Extends dir k m m') (hl : l ≤ k) : Extends dir l m m' :=
  ⟨h.entries, fun j hj ↦ h.pages j (hj.trans_le hl), fun j hj ↦ h.contents j (hj.trans_le hl)⟩

theorem extends_of_took (h : Backed P dir table total k n held s)
    (ht : Took P dir table total k n held s f s₁) : Extends dir k s.mem.mem s₁.mem.mem := by
  have htables (a : ℕ) (ha : InTables s.mem.mem dir a) : s₁.mem.mem a = s.mem.mem a :=
    ht.outside a (h.not_inBitmap_of_inTables ha)
  refine ⟨fun d hd _ ↦ entry_of_sameTables htables hd, fun j hj ↦ translate_congr
    (walk_of_sameTables htables (dirIndex_heapPage_lt h.pages.bounded hj)), fun j hj f hf a ha ha' ↦
    ht.outside a (h.not_inBitmap (.inr (.inr ⟨j, hj, hf⟩)) ha ha')⟩

theorem extends_mapNext (h : Pages m dir table k n)
    (hp : Present (entry m dir (dirIndex (heapPage k)))) (hk : heapPage k + 4096 ≤ vmmPageTables)
    (hf : 4096 ∣ f) (hlt : f < 4294967296) : Extends dir k m (mapNext m dir k f) := by
  refine ⟨fun d hd _ ↦ h.entry_mapNext hp hk hd, fun j hj ↦ h.translate_mapNext hp hk hf hlt hj,
    fun j hj g hg a ha ha' ↦ ?_⟩
  have hne := (h.apart j hj g hg).2 _ (dirIndex_next_lt hk) hp
  have hdvd : 4096 ∣ g := Owned.aligned h (.inr (.inr ⟨j, hj, hg⟩))
  have hdvd' := frameOf_dvd (entry m dir (dirIndex (heapPage k)))
  have hi := tableIndex_lt (heapPage k)
  exact setWord_of_ne (by omega)

theorem extends_tableNext (h : Pages m dir table k n)
    (hp : ¬ Present (entry m dir (dirIndex (heapPage k)))) (hd : dirIndex (heapPage k) < 1023)
    (ht : 4096 ∣ t) (hlt : t < 4294967296) (hfresh : ¬ Owned m dir k t) :
    Extends dir k m (tableNext m dir k t) := by
  refine ⟨fun d hd' hpd ↦ h.entry_tableNext hd ht hfresh hd' ?_, fun j hj ↦
    translate_congr (h.walk_tableNext hp hd ht hlt hfresh hj), fun j hj g hg a ha ha' ↦ ?_⟩
  · rintro rfl
    exact hp hpd
  · have howned : Owned m dir k g := .inr (.inr ⟨j, hj, hg⟩)
    have hne : g ≠ t := fun heq ↦ hfresh (heq ▸ howned)
    have hnedir := (h.apart j hj g hg).1
    have hdvd := Owned.aligned h howned
    have hdvd' := h.hierarchy.aligned
    rw [Mapped.tableNext, addTable, frameOf_directoryEntry ht, fill_of_ne (by omega)]
    exact setWord_of_ne (by omega)

end Extending

section MapPage

variable {P : Platform} {s s₁ : Paged} {dir table total k n held f t : ℕ}

theorem heapTables_of_dvd (h : k % 1024 = 0) :
    dirIndex (heapPage k) = 832 + heapTables k ∧ heapTables (k + 1) = heapTables k + 1 := by
  rw [dirIndex_heapPage]
  unfold heapTables
  omega

theorem heapTables_of_not_dvd (h : k % 1024 ≠ 0) :
    dirIndex (heapPage k) < 832 + heapTables k ∧ heapTables (k + 1) = heapTables k := by
  rw [dirIndex_heapPage]
  unfold heapTables
  omega

/-- `vmm_map_page` for a page whose table is there. -/
theorem mapPage_inside (h : Backed P dir table total k (heapTables k) held s)
    (hk : heapPage k + 4096 ≤ vmmPageTables) (hmod : k % 1024 ≠ 0)
    (hf : Spare P s.mem.mem dir k f) (hpos : f ≠ 0) :
    ∃ s', (vmmMapPage f (heapPage k) 7).run s = .ok () s' ∧
      Backed P dir table total (k + 1) (heapTables (k + 1)) held s' ∧
      Extends dir k s.mem.mem s'.mem.mem := by
  obtain rfl := h.cr3
  obtain ⟨hslot, htables⟩ := heapTables_of_not_dvd hmod
  have hd := dirIndex_next_lt hk
  have hp : Present (entry s.mem.mem s.mem.cr3 (dirIndex (heapPage k))) := by
    rw [h.pages.slots _ hd]
    exact .inr ⟨by rw [dirIndex_heapPage]; omega, hslot⟩
  rw [htables]
  exact ⟨_, vmmMapPage_present h.pages.hierarchy hd hp, h.mapNext hp hk hf hpos,
    extends_mapNext h.pages hp hk hf.aligned hf.lt⟩

/-- `vmm_map_page` for the first page of a table, with a frame for the table. -/
theorem mapPage_across (h : Backed P dir table total k (heapTables k) held s)
    (hk : heapPage k + 4096 ≤ vmmPageTables) (hmod : k % 1024 = 0)
    (halloc : allocPage.run s = .ok t s₁) (h₁ : Backed P dir table total k (heapTables k) (held + 1) s₁)
    (hext : Extends dir k s.mem.mem s₁.mem.mem)
    (ht : Spare P s₁.mem.mem dir k t) (hzero : t = 0 → P.free s₁.mem.mem = ∅)
    (hf : Spare P s₁.mem.mem dir k f) (hpos : f ≠ 0) (hne : f ≠ t) :
    ∃ s', (vmmMapPage f (heapPage k) 7).run s = .ok () s' ∧
      Backed P dir table total (k + 1) (heapTables (k + 1)) (held + 1) s' ∧
      Extends dir k s.mem.mem s'.mem.mem := by
  have hcr3 := h.cr3
  obtain rfl := h₁.cr3
  obtain ⟨hslot, htables⟩ := heapTables_of_dvd hmod
  have hd := dirIndex_next_lt hk
  have hp := h.not_present_next hslot hd
  have hp₁ := h₁.not_present_next hslot hd
  rw [← hcr3] at hp
  have hfresh : t ≠ s₁.mem.cr3 ∧ ∀ d < 1023, Present (entry s₁.mem.mem s₁.mem.cr3 d) →
      frameOf (entry s₁.mem.mem s₁.mem.cr3 d) ≠ t :=
    ⟨fun heq ↦ ht.fresh (.inl heq), fun d hd hpd heq ↦ ht.fresh (.inr (.inl ⟨d, hd, hpd, heq⟩))⟩
  have hrun := @vmmMapPage_absent _ _ _ _ f _ 7 _ _ (hcr3 ▸ h.pages.hierarchy) hd hp halloc
    h₁.pages.hierarchy ht.aligned ht.lt hfresh.1 hfresh.2
  have h₂ := h₁.tableNext hslot hd ht hzero
  have hf₂ := h₁.spare_tableNext hslot hd ht hf hne
  have hpresent : Present (entry (tableNext s₁.mem.mem s₁.mem.cr3 k t) s₁.mem.cr3
      (dirIndex (heapPage k))) := by
    rw [h₁.pages.entry_tableNext_self hd ht.aligned ht.lt ht.fresh]
    exact directoryEntry_present ht.aligned
  have hext₁ := extends_tableNext h₁.pages hp₁ hd ht.aligned ht.lt ht.fresh
  have hext₂ := extends_mapNext h₂.pages hpresent hk hf.aligned hf.lt
  rw [htables]
  exact ⟨_, hrun, h₂.mapNext hpresent hk hf₂ hpos, hext.trans (hext₁.trans hext₂)⟩

end MapPage

end KevOS.Memory.Backing
