import KevOS.Memory.Model
import KevOS.Vmm.Init

namespace KevOS.Memory.Mapped

open Lib.ByteMemory Lib.Paging Machine Vmm MapPage Init Heap

/-- The address of the heap's page `j`. -/
def heapPage (j : ℕ) : ℕ := kheapStart + 4096 * j

def Writable (e : ℕ) : Prop := e / 2 % 2 = 1

instance (e : ℕ) : Decidable (Writable e) := inferInstanceAs (Decidable (_ = _))

/-- The frames in use: the directory, its tables, and those of the heap's first `k` pages. -/
def Owned (m : Bytes) (dir k f : ℕ) : Prop :=
  f = dir ∨ (∃ d < 1023, Present (entry m dir d) ∧ frameOf (entry m dir d) = f) ∨
    ∃ j < k, Lib.Paging.translate m dir (heapPage j) = some f

/-- The first `k` pages of the heap are mapped, each to a frame of its own, through the
`n` tables that were added behind the one of `vmm_init`. -/
structure Pages (m : Bytes) (dir table k n : ℕ) : Prop where
  hierarchy : Hierarchy Shared m dir
  identity : Identity m dir table
  bounded : heapPage k ≤ vmmPageTables
  slots : ∀ d < 1023, Present (entry m dir d) ↔ Shared d ∨ (832 ≤ d ∧ d < 832 + n)
  writable : ∀ d < 1023, 832 ≤ d → Present (entry m dir d) → Writable (entry m dir d)
  pages : ∀ j < k, ∃ e, walk m dir (heapPage j) = some e ∧ Writable e.1 ∧ Writable e.2
  distinct : ∀ i < k, ∀ j < k, Lib.Paging.translate m dir (heapPage i) =
    Lib.Paging.translate m dir (heapPage j) → i = j
  apart : ∀ j < k, ∀ f, Lib.Paging.translate m dir (heapPage j) = some f →
    f ≠ dir ∧ ∀ d < 1023, Present (entry m dir d) → frameOf (entry m dir d) ≠ f

section Pages

variable {m m' : Bytes} {dir table k n i j f e : ℕ}

theorem heapPage_mod (j : ℕ) : heapPage j % 4096 = 0 := by
  unfold heapPage kheapStart
  omega

theorem dirIndex_heapPage (j : ℕ) : dirIndex (heapPage j) = 832 + j / 1024 := by
  unfold dirIndex heapPage kheapStart
  omega

theorem dirIndex_heapPage_lt (h : heapPage k ≤ vmmPageTables) (hj : j < k) :
    dirIndex (heapPage j) < 1023 := by
  rw [dirIndex_heapPage]
  unfold heapPage kheapStart vmmPageTables at h
  omega

theorem heapPage_succ (k : ℕ) : heapPage (k + 1) = heapPage k + 4096 := by
  unfold heapPage
  omega

theorem dirIndex_next_lt (h : heapPage k + 4096 ≤ vmmPageTables) : dirIndex (heapPage k) < 1023 := by
  rw [← heapPage_succ] at h
  exact dirIndex_heapPage_lt h (Nat.lt_succ_self k)

theorem not_shared_heapPage (j : ℕ) : ¬ Shared (dirIndex (heapPage j)) := by
  rw [dirIndex_heapPage]
  unfold Shared
  omega

theorem heapPage_ne (h : i ≠ j) : heapPage i / 4096 ≠ heapPage j / 4096 := by
  unfold heapPage kheapStart
  omega

theorem translate_heapPage : Lib.Paging.translate m dir (heapPage j) =
    (walk m dir (heapPage j)).map fun e ↦ frameOf e.2 := by
  unfold Lib.Paging.translate
  simp only [heapPage_mod, Nat.add_zero]

theorem translate_congr {a : ℕ} (h : walk m' dir a = walk m dir a) :
    Lib.Paging.translate m' dir a = Lib.Paging.translate m dir a := by
  unfold Lib.Paging.translate
  rw [h]

end Pages

section Steps

variable {m m' : Bytes} {dir table k n f t : ℕ}

theorem Pages.congr (h : Pages m dir table k n) (hm : ∀ a, InTables m dir a → m' a = m a) :
    Pages m' dir table k n := by
  have hd {d : ℕ} (hd : d < 1024) : entry m' dir d = entry m dir d := entry_of_sameTables hm hd
  have hw {j : ℕ} (hj : j < k) : walk m' dir (heapPage j) = walk m dir (heapPage j) :=
    walk_of_sameTables hm (dirIndex_heapPage_lt h.bounded hj)
  refine ⟨h.hierarchy.congr fun _ ↦ hd, h.identity.of_entries (hd (by decide)) fun i hi ↦ ?_,
    h.bounded, fun d hlt ↦ ?_, fun d hlt ↦ ?_, fun j hj ↦ ?_, fun i hi j hj ↦ ?_, fun j hj f hf ↦ ?_⟩
  · have ht := entry_table_of_sameTables hm (by decide) h.identity.slot_present hi
    rwa [h.identity.slot_frame] at ht
  · rw [hd (by omega)]
    exact h.slots d hlt
  · rw [hd (by omega)]
    exact h.writable d hlt
  · rw [hw hj]
    exact h.pages j hj
  · rw [translate_congr (hw hi), translate_congr (hw hj)]
    exact h.distinct i hi j hj
  · rw [translate_congr (hw hj)] at hf
    refine ⟨(h.apart j hj f hf).1, fun d hlt ↦ ?_⟩
    rw [hd (by omega)]
    exact (h.apart j hj f hf).2 d hlt

theorem Owned.congr (hbounded : heapPage k ≤ vmmPageTables)
    (hm : ∀ a, InTables m dir a → m' a = m a) (ho : Owned m' dir k f) : Owned m dir k f := by
  rcases ho with rfl | ⟨d, hd, hp, hf⟩ | ⟨j, hj, hf⟩
  · exact .inl rfl
  · rw [entry_of_sameTables hm (by omega)] at hp hf
    exact .inr (.inl ⟨d, hd, hp, hf⟩)
  · rw [translate_congr (walk_of_sameTables hm (dirIndex_heapPage_lt hbounded hj))] at hf
    exact .inr (.inr ⟨j, hj, hf⟩)

/-- The memory with the next page of the heap mapped to `f`. -/
def mapNext (m : Bytes) (dir k f : ℕ) : Bytes :=
  setEntry m dir (heapPage k) (pageEntry f 7)

/-- The memory with the table of the next page added, in the frame `t`. -/
def tableNext (m : Bytes) (dir k t : ℕ) : Bytes :=
  addTable m dir (dirIndex (heapPage k)) (directoryEntry t 7)

theorem writable_add {v : ℕ} (hf : 4096 ∣ f) : Writable (f + v) ↔ Writable v := by
  unfold Writable
  omega

theorem writable_pageEntry (hf : 4096 ∣ f) : Writable (pageEntry f 7) := by
  rw [pageEntry_eq hf, writable_add hf]
  decide

theorem writable_directoryEntry (hf : 4096 ∣ f) : Writable (directoryEntry f 7) := by
  rw [directoryEntry_eq hf, writable_add hf]
  decide

section MapNext

variable (h : Pages m dir table k n) (hp : Present (entry m dir (dirIndex (heapPage k))))
  (hk : heapPage k + 4096 ≤ vmmPageTables)
include h hp hk

theorem Pages.entry_mapNext {d : ℕ} (hd : d < 1024) :
    entry (mapNext m dir k f) dir d = entry m dir d :=
  h.hierarchy.entry_setEntry (dirIndex_next_lt hk) hp hd

variable (hf : 4096 ∣ f) (hlt : f < 4294967296)
include hf hlt

theorem Pages.mapsPage_mapNext :
    MapsPage m (mapNext m dir k f) dir (heapPage k) (pageEntry f 7) :=
  h.hierarchy.mapsPage_setEntry (dirIndex_next_lt hk)
    (not_shared_heapPage k) hp (pageEntry_present f 7) (pageEntry_lt hf hlt)

theorem Pages.translate_mapNext {j : ℕ} (hj : j < k) :
    Lib.Paging.translate (mapNext m dir k f) dir (heapPage j) =
      Lib.Paging.translate m dir (heapPage j) :=
  translate_congr ((h.mapsPage_mapNext hp hk hf hlt).other _ (dirIndex_heapPage_lt h.bounded hj)
    (heapPage_ne hj.ne))

theorem Pages.translate_mapNext_self :
    Lib.Paging.translate (mapNext m dir k f) dir (heapPage k) = some f := by
  rw [translate_heapPage, (h.mapsPage_mapNext hp hk hf hlt).self]
  exact congrArg some (frameOf_pageEntry hf)

theorem Pages.owned_mapNext {g : ℕ} (ho : Owned (mapNext m dir k f) dir (k + 1) g) :
    Owned m dir k g ∨ g = f := by
  rcases ho with rfl | ⟨d, hd, hpd, hg⟩ | ⟨j, hj, hg⟩
  · exact .inl (.inl rfl)
  · rw [h.entry_mapNext hp hk (by omega)] at hpd hg
    exact .inl (.inr (.inl ⟨d, hd, hpd, hg⟩))
  · rcases Nat.lt_succ_iff_lt_or_eq.mp hj with hj | rfl
    · rw [h.translate_mapNext hp hk hf hlt hj] at hg
      exact .inl (.inr (.inr ⟨j, hj, hg⟩))
    · rw [h.translate_mapNext_self hp hk hf hlt] at hg
      exact .inr (Option.some.inj hg).symm

/-- One more page of the heap. -/
theorem Pages.mapNext (hfresh : ¬ Owned m dir k f) :
    Pages (mapNext m dir k f) dir table (k + 1) n := by
  have hmaps := h.mapsPage_mapNext hp hk hf hlt
  have hentry {d : ℕ} (hd : d < 1024) := h.entry_mapNext hp hk (f := f) hd
  have hold {j : ℕ} (hj : j < k) := h.translate_mapNext hp hk hf hlt hj
  have hself := h.translate_mapNext_self hp hk hf hlt
  have hd := dirIndex_next_lt hk
  have hfar {j : ℕ} (hj : j < k) : Lib.Paging.translate m dir (heapPage j) ≠ some f :=
    fun heq ↦ hfresh (.inr (.inr ⟨j, hj, heq⟩))
  refine ⟨h.hierarchy.setEntry hd hp, h.identity.of_entries (hentry (by decide)) fun i hi ↦ ?_,
    by rwa [heapPage_succ], fun d hlt ↦ ?_, fun d hlt ↦ ?_, fun j hj ↦ ?_, fun i hi j hj heq ↦ ?_,
    fun j hj g hg ↦ ?_⟩
  · have hne : table ≠ frameOf (entry m dir (dirIndex (heapPage k))) := by
      rw [← h.identity.slot_frame]
      intro heq
      rcases h.hierarchy.distinct 0 (by decide) _ hd h.identity.slot_present hp heq with h0 | ⟨-, hs⟩
      · exact not_shared_heapPage k (.inl h0.symm)
      · exact not_shared_heapPage k hs
    have htable : 4096 ∣ table := h.identity.slot_frame ▸ frameOf_dvd _
    exact entry_setWord_of_ne (frameOf_dvd _) htable (tableIndex_lt _) hi (.inl hne)
  · rw [hentry (by omega)]
    exact h.slots d hlt
  · rw [hentry (by omega)]
    exact h.writable d hlt
  · rcases Nat.lt_succ_iff_lt_or_eq.mp hj with hj | rfl
    · rw [hmaps.other _ (dirIndex_heapPage_lt h.bounded hj) (heapPage_ne hj.ne)]
      exact h.pages j hj
    · refine ⟨_, hmaps.self, ?_, writable_pageEntry hf⟩
      rw [hentry (by omega)]
      exact h.writable _ hd (by rw [dirIndex_heapPage]; omega) hp
  · rcases Nat.lt_succ_iff_lt_or_eq.mp hi with hi | rfl <;>
      rcases Nat.lt_succ_iff_lt_or_eq.mp hj with hj | rfl
    · rw [hold hi, hold hj] at heq
      exact h.distinct i hi j hj heq
    · rw [hold hi, hself] at heq
      exact absurd heq (hfar hi)
    · rw [hold hj, hself] at heq
      exact absurd heq.symm (hfar hj)
    · rfl
  · have hslots {c : ℕ} (hc : c < 1023) := hentry (show c < 1024 by omega)
    rcases Nat.lt_succ_iff_lt_or_eq.mp hj with hj | rfl
    · rw [hold hj] at hg
      refine ⟨(h.apart j hj g hg).1, fun c hc ↦ ?_⟩
      rw [hslots hc]
      exact (h.apart j hj g hg).2 c hc
    · rw [hself] at hg
      cases hg
      refine ⟨fun heq ↦ hfresh (.inl heq), fun c hc hpc heq ↦ hfresh (.inr (.inl ⟨c, hc, ?_⟩))⟩
      rw [hslots hc] at hpc heq
      exact ⟨hpc, heq⟩

end MapNext

section TableNext

variable (h : Pages m dir table k n) (hp : ¬ Present (entry m dir (dirIndex (heapPage k))))
  (hd : dirIndex (heapPage k) < 1023) (ht : 4096 ∣ t) (hlt : t < 4294967296)
  (hfresh : ¬ Owned m dir k t)
include ht hfresh

omit ht in
theorem frame_ne_of_fresh (hft : frameOf (directoryEntry t 7) = t) :
    frameOf (directoryEntry t 7) ≠ dir ∧ ∀ d < 1023, Present (entry m dir d) →
      frameOf (entry m dir d) ≠ frameOf (directoryEntry t 7) := by
  rw [hft]
  exact ⟨fun heq ↦ hfresh (.inl heq), fun d hd hpd heq ↦ hfresh (.inr (.inl ⟨d, hd, hpd, heq⟩))⟩

include h hd hlt

omit hlt in
theorem Pages.entry_tableNext {d : ℕ} (hd' : d < 1024) (hne : d ≠ dirIndex (heapPage k)) :
    entry (tableNext m dir k t) dir d = entry m dir d := by
  obtain ⟨hdir, -⟩ := frame_ne_of_fresh hfresh (frameOf_directoryEntry ht)
  exact h.hierarchy.entry_addTable_of_ne hd hdir hd' hne

theorem Pages.entry_tableNext_self :
    entry (tableNext m dir k t) dir (dirIndex (heapPage k)) = directoryEntry t 7 := by
  obtain ⟨hdir, -⟩ := frame_ne_of_fresh hfresh (frameOf_directoryEntry ht)
  exact h.hierarchy.entry_addTable_self hd (directoryEntry_lt ht hlt) hdir

include hp

theorem Pages.walk_tableNext {j : ℕ} (hj : j < k) :
    walk (tableNext m dir k t) dir (heapPage j) = walk m dir (heapPage j) := by
  obtain ⟨hdir, hslots⟩ := frame_ne_of_fresh hfresh (frameOf_directoryEntry ht)
  exact h.hierarchy.walk_addTable hd (directoryEntry_lt ht hlt) hdir hslots hp
    (dirIndex_heapPage_lt h.bounded hj)

theorem Pages.owned_tableNext {g : ℕ} (ho : Owned (tableNext m dir k t) dir k g) :
    Owned m dir k g ∨ g = t := by
  rcases ho with rfl | ⟨d, hd', hpd, hg⟩ | ⟨j, hj, hg⟩
  · exact .inl (.inl rfl)
  · by_cases hne : d = dirIndex (heapPage k)
    · rw [hne, h.entry_tableNext_self hd ht hlt hfresh, frameOf_directoryEntry ht] at hg
      exact .inr hg.symm
    · rw [h.entry_tableNext hd ht hfresh (by omega) hne] at hpd hg
      exact .inl (.inr (.inl ⟨d, hd', hpd, hg⟩))
  · rw [translate_congr (h.walk_tableNext hp hd ht hlt hfresh hj)] at hg
    exact .inl (.inr (.inr ⟨j, hj, hg⟩))

/-- One more table, for the page that comes next. -/
theorem Pages.tableNext (hn : dirIndex (heapPage k) = 832 + n) :
    Pages (tableNext m dir k t) dir table k (n + 1) := by
  obtain ⟨hdir, hslots⟩ := frame_ne_of_fresh hfresh (frameOf_directoryEntry ht)
  have hself := h.entry_tableNext_self hd ht hlt hfresh
  have hother {c : ℕ} (hc : c < 1023) (hne : c ≠ dirIndex (heapPage k)) :=
    h.entry_tableNext hd ht hfresh (show c < 1024 by omega) hne
  have hwalk {j : ℕ} (hj : j < k) := h.walk_tableNext hp hd ht hlt hfresh hj
  have hzero : 0 ≠ dirIndex (heapPage k) := fun h0 ↦ not_shared_heapPage k (.inl h0.symm)
  refine ⟨h.hierarchy.addTable hd (directoryEntry_lt ht hlt) hdir hslots,
    h.identity.of_entries (hother (by decide) hzero) fun i hi ↦ ?_, h.bounded, fun c hc ↦ ?_,
    fun c hc h832 ↦ ?_, fun j hj ↦ ?_, fun i hi j hj ↦ ?_, fun j hj g hg ↦ ?_⟩
  · have htable : 4096 ∣ table := h.identity.slot_frame ▸ frameOf_dvd _
    have hne := hslots 0 (by decide) h.identity.slot_present
    rw [h.identity.slot_frame] at hne
    have hnedir := h.hierarchy.apart 0 (by decide) h.identity.slot_present
    rw [h.identity.slot_frame] at hnedir
    rw [Mapped.tableNext, addTable, entry_fill_of_ne (frameOf_dvd _) htable hi hne]
    exact entry_setWord_of_ne h.hierarchy.aligned htable (by omega) hi (.inl hnedir)
  · by_cases hne : c = dirIndex (heapPage k)
    · rw [hne, hself]
      have hpresent : Present (directoryEntry t 7) := directoryEntry_present ht
      exact iff_of_true hpresent (.inr (by omega))
    · rw [hother hc hne, h.slots c hc]
      exact or_congr_right (by omega)
  · by_cases hne : c = dirIndex (heapPage k)
    · rw [hne, hself]
      exact fun _ ↦ writable_directoryEntry ht
    · rw [hother hc hne]
      exact h.writable c hc h832
  · rw [hwalk hj]
    exact h.pages j hj
  · rw [translate_congr (hwalk hi), translate_congr (hwalk hj)]
    exact h.distinct i hi j hj
  · rw [translate_congr (hwalk hj)] at hg
    refine ⟨(h.apart j hj g hg).1, fun c hc hpc heq ↦ ?_⟩
    by_cases hne : c = dirIndex (heapPage k)
    · rw [hne, hself, frameOf_directoryEntry ht] at heq
      rw [heq] at hfresh
      exact hfresh (.inr (.inr ⟨j, hj, hg⟩))
    · rw [hother hc hne] at hpc heq
      exact (h.apart j hj g hg).2 c hc hpc heq

end TableNext

end Steps

end KevOS.Memory.Mapped
