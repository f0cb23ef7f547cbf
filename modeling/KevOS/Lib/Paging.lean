import KevOS.Lib.Bits

namespace KevOS.Lib.Paging

open Function ByteMemory

/-- The frame of a table entry. The bits below are flags. -/
def frameOf (e : ℕ) : ℕ := e / 4096 * 4096

def Present (e : ℕ) : Prop := e % 2 = 1

instance (e : ℕ) : Decidable (Present e) := inferInstanceAs (Decidable (_ = _))

def UserBit (e : ℕ) : Prop := e / 4 % 2 = 1

instance (e : ℕ) : Decidable (UserBit e) := inferInstanceAs (Decidable (_ = _))

/-- Entry `i` of the table, or of the directory, in the frame `t`. -/
def entry (m : Bytes) (t i : ℕ) : ℕ := word m (t + 4 * i)

def dirIndex (a : ℕ) : ℕ := a / 4194304

def tableIndex (a : ℕ) : ℕ := a / 4096 % 1024

/-- The two-level walk for the address `a`: the directory entry and the table
entry it comes by. -/
def walk (m : Bytes) (dir a : ℕ) : Option (ℕ × ℕ) :=
  let pde := entry m dir (dirIndex a)
  let pte := entry m (frameOf pde) (tableIndex a)
  if Present pde ∧ Present pte then some (pde, pte) else none

def translate (m : Bytes) (dir a : ℕ) : Option ℕ :=
  (walk m dir a).map fun e ↦ frameOf e.2 + a % 4096

section Entries

variable {m m' : Bytes} {t t' i j v e f : ℕ}

theorem frameOf_dvd (e : ℕ) : 4096 ∣ frameOf e := ⟨e / 4096, Nat.mul_comm _ _⟩

theorem frameOf_add (hf : 4096 ∣ f) (hv : v < 4096) : frameOf (f + v) = f := by
  unfold frameOf
  omega

theorem present_add (hf : 4096 ∣ f) : Present (f + v) ↔ Present v := by
  unfold Present
  omega

theorem tableIndex_lt (a : ℕ) : tableIndex a < 1024 := Nat.mod_lt _ (by decide)

theorem entry_congr (h : ∀ b, t ≤ b → b < t + 4096 → m' b = m b) (hi : i < 1024) :
    entry m' t i = entry m t i := word_congr fun b hb hb' ↦ h b (by omega) (by omega)

theorem entry_setWord_self (hv : v < 4294967296) : entry (setWord m (t + 4 * i) v) t i = v :=
  word_setWord_self hv

theorem entry_setWord_of_ne (ht : 4096 ∣ t) (ht' : 4096 ∣ t') (hi : i < 1024) (hj : j < 1024)
    (h : t' ≠ t ∨ j ≠ i) : entry (setWord m (t + 4 * i) v) t' j = entry m t' j := by
  apply word_setWord_of_ne
  omega

theorem entry_fill_self (hi : i < 1024) : entry (fill m t 0 4096) t i = 0 :=
  word_fill_zero (by omega) (by omega)

theorem entry_fill_of_ne (ht : 4096 ∣ t) (ht' : 4096 ∣ t') (hj : j < 1024) (h : t' ≠ t) :
    entry (fill m t 0 4096) t' j = entry m t' j := by
  apply word_fill_of_ne
  omega

end Entries

section Walks

variable {m m' : Bytes} {dir a b p : ℕ} {e : ℕ × ℕ}

theorem walk_eq_some : walk m dir a = some e ↔
    (Present e.1 ∧ Present e.2) ∧ entry m dir (dirIndex a) = e.1 ∧
      entry m (frameOf e.1) (tableIndex a) = e.2 := by
  obtain ⟨d, t⟩ := e
  simp only [walk, Option.ite_none_right_eq_some, Option.some.injEq, Prod.mk.injEq]
  constructor
  · rintro ⟨hp, rfl, rfl⟩
    exact ⟨hp, rfl, rfl⟩
  · rintro ⟨hp, rfl, rfl⟩
    exact ⟨hp, rfl, rfl⟩

theorem walk_of_not_present (h : ¬ Present (entry m dir (dirIndex a))) : walk m dir a = none :=
  if_neg fun hp ↦ h hp.1

theorem walk_congr (hd : entry m' dir (dirIndex a) = entry m dir (dirIndex a))
    (ht : Present (entry m dir (dirIndex a)) →
      entry m' (frameOf (entry m dir (dirIndex a))) (tableIndex a) =
        entry m (frameOf (entry m dir (dirIndex a))) (tableIndex a)) :
    walk m' dir a = walk m dir a := by
  by_cases hp : Present (entry m dir (dirIndex a))
  · simp only [walk, hd, ht hp]
  · rw [walk_of_not_present hp, walk_of_not_present (hd ▸ hp)]

theorem translate_eq_some : translate m dir a = some p ↔
    ∃ e, walk m dir a = some e ∧ frameOf e.2 + a % 4096 = p := Option.map_eq_some_iff

theorem walk_page (h : b / 4096 = a / 4096) : walk m dir b = walk m dir a := by
  have hd : dirIndex b = dirIndex a := by
    unfold dirIndex
    omega
  have ht : tableIndex b = tableIndex a := by
    unfold tableIndex
    rw [h]
  simp only [walk, hd, ht]

theorem translate_add {k : ℕ} (h : translate m dir a = some p) (hk : a % 4096 + k < 4096) :
    translate m dir (a + k) = some (p + k) := by
  obtain ⟨e, he, rfl⟩ := translate_eq_some.mp h
  have hpage : (a + k) / 4096 = a / 4096 := by omega
  refine translate_eq_some.mpr ⟨e, ?_, by omega⟩
  rw [walk_page hpage, he]

/-- The `n` bytes from `p` on are none of those the walk for `a` reads. -/
def Clear (m : Bytes) (dir a p n : ℕ) : Prop :=
  (p + n ≤ dir + 4 * dirIndex a ∨ dir + 4 * dirIndex a + 4 ≤ p) ∧
    (p + n ≤ frameOf (entry m dir (dirIndex a)) + 4 * tableIndex a ∨
      frameOf (entry m dir (dirIndex a)) + 4 * tableIndex a + 4 ≤ p)

theorem walk_of_clear {n : ℕ} (h : Clear m dir a p n)
    (hm : ∀ b, b < p ∨ p + n ≤ b → m' b = m b) : walk m' dir a = walk m dir a := by
  obtain ⟨hd, ht⟩ := h
  apply walk_congr
  · exact word_congr fun b hb hb' ↦ hm b (by omega)
  · intro _
    exact word_congr fun b hb hb' ↦ hm b (by omega)

theorem entry_of_clear {n : ℕ} (h : Clear m dir a p n)
    (hm : ∀ b, b < p ∨ p + n ≤ b → m' b = m b) :
    entry m' dir (dirIndex a) = entry m dir (dirIndex a) :=
  word_congr fun b hb hb' ↦ hm b (by have hd := h.1; omega)

end Walks

/-- A write that is clear of a translation keeps it. -/
theorem translate_of_clear {m m' : Bytes} {dir a p n : ℕ} (h : translate m dir a = some p)
    (hc : Clear m dir a p n) (hm : ∀ b, b < p ∨ p + n ≤ b → m' b = m b) :
    translate m' dir a = some p := by
  rw [translate, walk_of_clear hc hm]
  exact h

theorem Clear.succ {m m' : Bytes} {dir a p n : ℕ} (hc : Clear m dir a p (n + 1))
    (hm : ∀ b, b < p ∨ p + (n + 1) ≤ b → m' b = m b) (hpage : (a + 1) / 4096 = a / 4096) :
    Clear m' dir (a + 1) (p + 1) n := by
  have hd : dirIndex (a + 1) = dirIndex a := by
    unfold dirIndex
    omega
  have ht : tableIndex (a + 1) = tableIndex a := by
    unfold tableIndex
    rw [hpage]
  have he := entry_of_clear hc hm
  unfold Clear at hc ⊢
  rw [hd, ht, he]
  omega

/-- What the processor reads to translate the addresses below the last slot. -/
def InTables (m : Bytes) (dir a : ℕ) : Prop :=
  (dir ≤ a ∧ a < dir + 4096) ∨ ∃ d < 1023, Present (entry m dir d) ∧
    frameOf (entry m dir d) ≤ a ∧ a < frameOf (entry m dir d) + 4096

theorem inTables_page {m : Bytes} {dir a b : ℕ} (hdir : 4096 ∣ dir) (hpage : b / 4096 = a / 4096)
    (ha : InTables m dir a) : InTables m dir b := by
  rcases ha with hin | ⟨d, hd, hp, hin⟩
  · left
    omega
  · have hf := frameOf_dvd (entry m dir d)
    exact .inr ⟨d, hd, hp, by omega⟩

section SameTables

variable {m m' : Bytes} {dir a d i : ℕ} (hm : ∀ a, InTables m dir a → m' a = m a)
include hm

theorem entry_of_sameTables (hd : d < 1024) : entry m' dir d = entry m dir d :=
  entry_congr (fun _ hb hb' ↦ hm _ (.inl ⟨hb, hb'⟩)) hd

theorem entry_table_of_sameTables (hd : d < 1023) (hp : Present (entry m dir d)) (hi : i < 1024) :
    entry m' (frameOf (entry m dir d)) i = entry m (frameOf (entry m dir d)) i :=
  entry_congr (fun _ hb hb' ↦ hm _ (.inr ⟨d, hd, hp, hb, hb'⟩)) hi

theorem inTables_of_sameTables (ha : InTables m' dir a) : InTables m dir a := by
  refine ha.imp_right fun ⟨d, hd, hp, hin⟩ ↦ ⟨d, hd, ?_⟩
  rw [entry_of_sameTables hm (by omega)] at hp hin
  exact ⟨hp, hin⟩

theorem walk_of_sameTables (ha : dirIndex a < 1023) : walk m' dir a = walk m dir a :=
  walk_congr (entry_of_sameTables hm (by omega)) fun hp ↦
    entry_table_of_sameTables hm ha hp (tableIndex_lt a)

end SameTables

/-- The directory is its own last table. Tables are apart from the directory and
from each other, but for the slots in `shared`, which use one table. -/
structure Hierarchy (shared : ℕ → Prop) (m : Bytes) (dir : ℕ) : Prop where
  aligned : 4096 ∣ dir
  self_present : Present (entry m dir 1023)
  self_frame : frameOf (entry m dir 1023) = dir
  apart : ∀ d < 1023, Present (entry m dir d) → frameOf (entry m dir d) ≠ dir
  distinct : ∀ d < 1023, ∀ d' < 1023, Present (entry m dir d) → Present (entry m dir d') →
    frameOf (entry m dir d) = frameOf (entry m dir d') → d = d' ∨ (shared d ∧ shared d')

/-- Where entry `i` of table `d` appears once the directory is its own last table. -/
def tableAddr (d i : ℕ) : ℕ := 0xFFC00000 + 4 * (d * 1024 + i)

/-- Enter `e` for the page of `a`. -/
def setEntry (m : Bytes) (dir a e : ℕ) : Bytes :=
  setWord m (frameOf (entry m dir (dirIndex a)) + 4 * tableIndex a) e

def install (m : Bytes) (dir d e : ℕ) : Bytes := setWord m (dir + 4 * d) e

/-- Put an empty table into slot `d`. -/
def addTable (m : Bytes) (dir d e : ℕ) : Bytes := fill (install m dir d e) (frameOf e) 0 4096

section Hierarchies

variable {shared : ℕ → Prop} {m m' : Bytes} {dir a b d d' i e : ℕ}

theorem Hierarchy.congr (h : Hierarchy shared m dir)
    (hm : ∀ d < 1024, entry m' dir d = entry m dir d) : Hierarchy shared m' dir where
  aligned := h.aligned
  self_present := by rw [hm 1023 (by decide)]; exact h.self_present
  self_frame := by rw [hm 1023 (by decide)]; exact h.self_frame
  apart d hd := by rw [hm d (by omega)]; exact h.apart d hd
  distinct d hd d' hd' := by rw [hm d (by omega), hm d' (by omega)]; exact h.distinct d hd d' hd'

/-- Any slots may share a table. -/
theorem Hierarchy.weaken (h : Hierarchy shared m dir) : Hierarchy (fun _ ↦ True) m dir :=
  ⟨h.aligned, h.self_present, h.self_frame, h.apart, fun _ _ _ _ _ _ _ ↦ .inr ⟨trivial, trivial⟩⟩

theorem tableAddr_dirIndex (hd : d < 1024) (hi : i < 1024) : dirIndex (tableAddr d i) = 1023 := by
  unfold dirIndex tableAddr
  omega

theorem tableAddr_tableIndex (hd : d < 1024) (hi : i < 1024) :
    tableIndex (tableAddr d i) = d := by
  unfold tableIndex tableAddr
  omega

theorem tableAddr_mod (hi : i < 1024) : tableAddr d i % 4096 = 4 * i := by
  unfold tableAddr
  omega

/-- The recursive slot leads to the tables. -/
theorem Hierarchy.translate_tableAddr (h : Hierarchy shared m dir) (hd : d < 1024)
    (hp : Present (entry m dir d)) (hi : i < 1024) :
    translate m dir (tableAddr d i) = some (frameOf (entry m dir d) + 4 * i) := by
  refine translate_eq_some.mpr ⟨(entry m dir 1023, entry m dir d), ?_, ?_⟩
  · rw [walk_eq_some, tableAddr_dirIndex hd hi, tableAddr_tableIndex hd hi, h.self_frame]
    exact ⟨⟨h.self_present, hp⟩, rfl, rfl⟩
  · rw [tableAddr_mod hi]

/-- A write into a table does not change how the table is reached. -/
theorem Hierarchy.clear_tableAddr (h : Hierarchy shared m dir) (hd : d < 1023)
    (hp : Present (entry m dir d)) (hi : i < 1024) {p n : ℕ}
    (hlo : frameOf (entry m dir d) ≤ p) (hhi : p + n ≤ frameOf (entry m dir d) + 4096) :
    Clear m dir (tableAddr d i) p n := by
  have hne := h.apart d hd hp
  have haligned := h.aligned
  have hdvd := frameOf_dvd (entry m dir d)
  unfold Clear
  rw [tableAddr_dirIndex (by omega) hi, tableAddr_tableIndex (by omega) hi, h.self_frame]
  omega

/-- Nor does a write into the directory, but for its last entry. -/
theorem Hierarchy.clear_directory (h : Hierarchy shared m dir) (hd : d < 1023) :
    Clear m dir (tableAddr 1023 d) (dir + 4 * d) 4 := by
  unfold Clear
  rw [tableAddr_dirIndex (by decide) (by omega), tableAddr_tableIndex (by decide) (by omega),
    h.self_frame]
  omega

theorem page_eq_of_index (hd : dirIndex b = dirIndex a) (ht : tableIndex b = tableIndex a) :
    b / 4096 = a / 4096 := by
  unfold dirIndex tableIndex at *
  omega

section SetEntry

variable (h : Hierarchy shared m dir) (ha : dirIndex a < 1023)
  (hp : Present (entry m dir (dirIndex a)))
include h ha hp

theorem Hierarchy.entry_setEntry (hd : d < 1024) :
    entry (setEntry m dir a e) dir d = entry m dir d :=
  entry_setWord_of_ne (frameOf_dvd _) h.aligned (tableIndex_lt a) hd
    (.inl (h.apart _ ha hp).symm)

theorem Hierarchy.setEntry : Hierarchy shared (setEntry m dir a e) dir :=
  h.congr fun _ hd ↦ h.entry_setEntry ha hp hd

theorem Hierarchy.walk_setEntry (he : Present e) (he' : e < 4294967296) :
    walk (Paging.setEntry m dir a e) dir a = some (entry m dir (dirIndex a), e) := by
  rw [walk_eq_some, h.entry_setEntry ha hp (by omega)]
  exact ⟨⟨hp, he⟩, rfl, entry_setWord_self he'⟩

theorem Hierarchy.walk_setEntry_of_ne (hs : ¬ shared (dirIndex a)) (hb : dirIndex b < 1023)
    (hab : b / 4096 ≠ a / 4096) :
    walk (Paging.setEntry m dir a e) dir b = walk m dir b := by
  apply walk_congr (h.entry_setEntry ha hp (by omega))
  intro hpb
  apply entry_setWord_of_ne (frameOf_dvd _) (frameOf_dvd _) (tableIndex_lt a) (tableIndex_lt b)
  by_contra hc
  rw [not_or, not_not, not_not] at hc
  have hd := h.distinct _ hb _ ha hpb hp hc.1
  cases hd with
  | inl hd => exact hab (page_eq_of_index hd hc.2)
  | inr hd => exact hs hd.2

end SetEntry

section AddTable

theorem entry_install_self (he' : e < 4294967296) : entry (install m dir d e) dir d = e :=
  entry_setWord_self he'

variable (h : Hierarchy shared m dir) (hd : d < 1023)
include h hd

theorem Hierarchy.entry_install_of_ne (hd' : d' < 1024) (hne : d' ≠ d) :
    entry (install m dir d e) dir d' = entry m dir d' :=
  entry_setWord_of_ne h.aligned h.aligned (by omega) hd' (.inr hne)

variable (he' : e < 4294967296) (hdir : frameOf e ≠ dir)
  (hfresh : ∀ d' < 1023, Present (entry m dir d') → frameOf (entry m dir d') ≠ frameOf e)
include hdir

omit hd in
theorem Hierarchy.entry_addTable (hd' : d' < 1024) :
    entry (addTable m dir d e) dir d' = entry (install m dir d e) dir d' :=
  entry_fill_of_ne (frameOf_dvd e) h.aligned hd' hdir.symm

theorem Hierarchy.entry_addTable_of_ne (hd' : d' < 1024) (hne : d' ≠ d) :
    entry (addTable m dir d e) dir d' = entry m dir d' :=
  (h.entry_addTable hdir hd').trans (h.entry_install_of_ne hd hd' hne)

include he'

theorem Hierarchy.entry_addTable_self : entry (addTable m dir d e) dir d = e :=
  (h.entry_addTable hdir (by omega)).trans (entry_install_self he')

/-- A slot may use a table that others use, if the hierarchy lets them share. -/
theorem Hierarchy.install_joined (hjoin : ∀ c < 1023, Present (entry m dir c) →
    frameOf (entry m dir c) = frameOf e → shared c ∧ shared d) :
    Hierarchy shared (install m dir d e) dir where
  aligned := h.aligned
  self_present := by
    rw [h.entry_install_of_ne hd (by decide) (by omega)]
    exact h.self_present
  self_frame := by
    rw [h.entry_install_of_ne hd (by decide) (by omega)]
    exact h.self_frame
  apart c hc := by
    by_cases hcd : c = d
    · rw [hcd, entry_install_self he']
      exact fun _ ↦ hdir
    · rw [h.entry_install_of_ne hd (by omega) hcd]
      exact h.apart c hc
  distinct c hc c' hc' := by
    by_cases hcd : c = d <;> by_cases hcd' : c' = d
    · exact fun _ _ _ ↦ .inl (hcd.trans hcd'.symm)
    · rw [hcd, entry_install_self he', h.entry_install_of_ne hd (by omega) hcd']
      exact fun _ hp hf ↦ .inr (hjoin c' hc' hp hf.symm).symm
    · rw [hcd', entry_install_self he', h.entry_install_of_ne hd (by omega) hcd]
      exact fun hp _ hf ↦ .inr (hjoin c hc hp hf)
    · rw [h.entry_install_of_ne hd (by omega) hcd, h.entry_install_of_ne hd (by omega) hcd']
      exact h.distinct c hc c' hc'

include hfresh

theorem Hierarchy.install : Hierarchy shared (install m dir d e) dir :=
  h.install_joined hd he' hdir fun c hc hp hf ↦ absurd hf (hfresh c hc hp)

theorem Hierarchy.addTable : Hierarchy shared (addTable m dir d e) dir :=
  (h.install hd he' hdir hfresh).congr fun _ hd' ↦ h.entry_addTable hdir hd'

/-- An empty table maps nothing, and no table in use is touched. -/
theorem Hierarchy.walk_addTable (hp : ¬ Present (entry m dir d)) (hb : dirIndex b < 1023) :
    walk (Paging.addTable m dir d e) dir b = walk m dir b := by
  by_cases hbd : dirIndex b = d
  · have hnone : walk m dir b = none := walk_of_not_present (by rwa [hbd])
    have hzero : entry (Paging.addTable m dir d e) (frameOf e) (tableIndex b) = 0 :=
      entry_fill_self (tableIndex_lt b)
    rw [hnone, walk, hbd, h.entry_addTable_self hd he' hdir]
    apply if_neg
    intro hpp
    rw [hzero] at hpp
    exact absurd hpp.2 (by decide)
  · apply walk_congr
    · exact h.entry_addTable_of_ne hd hdir (by omega) hbd
    · intro hpb
      have hne := hfresh _ hb hpb
      rw [Paging.addTable, entry_fill_of_ne (frameOf_dvd e) (frameOf_dvd _) (tableIndex_lt b) hne]
      exact entry_setWord_of_ne h.aligned (frameOf_dvd _) (by omega) (tableIndex_lt b)
        (.inl (h.apart _ hb hpb))

end AddTable

/-- The page of `a` gets the entry `e`. Every other page keeps its translation, the
tables' own addresses apart. -/
structure MapsPage (m m' : Bytes) (dir a e : ℕ) : Prop where
  self : walk m' dir a = some (entry m' dir (dirIndex a), e)
  other : ∀ b, dirIndex b < 1023 → b / 4096 ≠ a / 4096 → walk m' dir b = walk m dir b

theorem Hierarchy.mapsPage_setEntry (h : Hierarchy shared m dir) (ha : dirIndex a < 1023)
    (hs : ¬ shared (dirIndex a)) (hp : Present (entry m dir (dirIndex a))) (he : Present e)
    (he' : e < 4294967296) : MapsPage m (Paging.setEntry m dir a e) dir a e where
  self := by
    rw [h.entry_setEntry ha hp (by omega)]
    exact h.walk_setEntry ha hp he he'
  other _ hb hab := h.walk_setEntry_of_ne ha hp hs hb hab

theorem Hierarchy.mapsPage_addTable {t : ℕ} (h : Hierarchy shared m dir) (ha : dirIndex a < 1023)
    (hs : ¬ shared (dirIndex a)) (hp : ¬ Present (entry m dir (dirIndex a))) (ht : Present t)
    (ht' : t < 4294967296) (hdir : frameOf t ≠ dir)
    (hfresh : ∀ d < 1023, Present (entry m dir d) → frameOf (entry m dir d) ≠ frameOf t)
    (he : Present e) (he' : e < 4294967296) :
    MapsPage m (Paging.setEntry (Paging.addTable m dir (dirIndex a) t) dir a e) dir a e := by
  have hadd := h.addTable ha ht' hdir hfresh
  have hself := h.entry_addTable_self ha ht' hdir
  have hset := hadd.mapsPage_setEntry ha hs (hself.symm ▸ ht) he he'
  refine ⟨hset.self, fun b hb hab ↦ ?_⟩
  rw [hset.other b hb hab, h.walk_addTable ha ht' hdir hfresh hp hb]

end Hierarchies

end KevOS.Lib.Paging
