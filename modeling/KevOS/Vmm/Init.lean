import KevOS.Vmm.MapPage

namespace KevOS.Vmm.Init

open Lib.Program Lib.ByteMemory Lib.Bits Lib.Paging Machine

def InPage (p a : ℕ) : Prop := p ≤ a ∧ a < p + 4096

/-- What `boot.S` and `vmm_init` map in one table. -/
def identityLimit : ℕ := 0x400000

/-- The directory at `dir` maps the first 4 MiB to themselves, by the table at `table`. -/
structure Identity (m : Bytes) (dir table : ℕ) : Prop where
  slot_present : Present (entry m dir 0)
  slot_frame : frameOf (entry m dir 0) = table
  pages : ∀ i < 1024, Present (entry m table i) ∧ frameOf (entry m table i) = 4096 * i

section IdentityMaps

variable {m m' : Bytes} {dir table a : ℕ}

theorem Identity.translate (h : Identity m dir table) (ha : a < identityLimit) :
    translate m dir a = some a := by
  have hd : dirIndex a = 0 := Nat.div_eq_of_lt ha
  obtain ⟨hp, hf⟩ := h.pages (tableIndex a) (tableIndex_lt a)
  refine translate_eq_some.mpr ⟨(entry m dir 0, entry m table (tableIndex a)), ?_, ?_⟩
  · rw [walk_eq_some, hd, h.slot_frame]
    exact ⟨⟨h.slot_present, hp⟩, rfl, rfl⟩
  · rw [hf]
    unfold tableIndex
    unfold identityLimit at ha
    omega

theorem Identity.of_entries (h : Identity m dir table) (hd : entry m' dir 0 = entry m dir 0)
    (ht : ∀ i < 1024, entry m' table i = entry m table i) : Identity m' dir table := by
  refine ⟨?_, ?_, fun i hi ↦ ?_⟩
  · rw [hd]
    exact h.slot_present
  · rw [hd]
    exact h.slot_frame
  · rw [ht i hi]
    exact h.pages i hi

theorem Identity.congr (h : Identity m dir table)
    (hm : ∀ a, InPage dir a ∨ InPage table a → m' a = m a) : Identity m' dir table :=
  h.of_entries (entry_congr (fun b hb hb' ↦ hm b (.inl ⟨hb, hb'⟩)) (by decide))
    fun _ ↦ entry_congr fun b hb hb' ↦ hm b (.inr ⟨hb, hb'⟩)

/-- The low addresses that are not the tables' own. -/
def LowAddress (dir table a : ℕ) : Prop := a < identityLimit ∧ ¬ InPage dir a ∧ ¬ InPage table a

/-- Physical memory, seen through the identity map. -/
def identityWindow (dir table : ℕ) : Window Vm where
  inv v := v.cr3 = dir ∧ Identity v.mem dir table
  acc _ := LowAddress dir table
  view v := v.mem
  load8_eq {v a} hv ha := by
    obtain ⟨rfl, hid⟩ := hv
    have hlt : a < 4294967296 := ha.1.trans (by decide)
    exact Vm.load8_ok hlt (hid.translate ha.1)
  store8_ok {v a} x hv ha := by
    obtain ⟨rfl, hid⟩ := hv
    have hlt : a < 4294967296 := ha.1.trans (by decide)
    refine ⟨_, Vm.store8_ok hlt (hid.translate ha.1), ⟨rfl, hid.congr fun b hb ↦ ?_⟩, rfl, rfl⟩
    have hne : b ≠ a := by
      intro hba
      subst hba
      exact hb.elim ha.2.1 ha.2.2
    exact Function.update_of_ne hne ..

theorem sees_iff {π : Type} {e : π} {s : Kernel Vm π} :
    (Kernel.window (identityWindow dir table) e).Sees (LowAddress dir table) m s ↔
      s = ⟨⟨m, dir⟩, e⟩ ∧ Identity m dir table := by
  constructor
  · rintro ⟨⟨⟨hc, hid⟩, hv⟩, -, hm⟩
    obtain ⟨⟨mem, cr3⟩, vars⟩ := s
    cases hc
    cases hv
    cases hm
    exact ⟨rfl, hid⟩
  · rintro ⟨rfl, hid⟩
    exact ⟨⟨⟨rfl, hid⟩, rfl⟩, rfl, rfl⟩

end IdentityMaps

/-- The slots that use the first page table. -/
def Shared (d : ℕ) : Prop := d = 0 ∨ d = 768

instance (d : ℕ) : Decidable (Shared d) := inferInstanceAs (Decidable (_ ∨ _))

section Contents

variable {m : Bytes} {t dir i k n a flags : ℕ}

theorem lor_flags (h : 4096 ∣ a) : a ||| vmmPresent ||| vmmWritable ||| vmmUser = a + 7 := by
  rw [Nat.lor_assoc, Nat.lor_assoc]
  exact lor_page (Nat.mod_eq_zero_of_dvd h) (by decide)

theorem lor_directoryFlags (h : 4096 ∣ a) : a ||| vmmPresent ||| vmmWritable = a + 3 := by
  rw [Nat.lor_assoc]
  exact lor_page (Nat.mod_eq_zero_of_dvd h) (by decide)

/-- What the loop of `vmm_init` writes, but for the flags. -/
def identityEntries (flags : ℕ) (m : Bytes) (t i : ℕ) : ℕ → Bytes
  | 0 => m
  | n + 1 => identityEntries flags (setWord m (t + 4 * i) (4096 * i + flags)) t (i + 1) n

theorem identityEntries_of_not_inPage (hin : i + n ≤ 1024) (ha : ¬ InPage t a) :
    identityEntries flags m t i n a = m a := by
  induction n generalizing m i with
  | zero => rfl
  | succ n ih =>
    rw [identityEntries, ih (by omega)]
    apply setWord_of_ne
    unfold InPage at ha
    omega

theorem entry_identityEntries_of_lt (hk : k < i) :
    entry (identityEntries flags m t i n) t k = entry m t k := by
  induction n generalizing m i with
  | zero => rfl
  | succ n ih =>
    rw [identityEntries, ih (by omega)]
    apply word_setWord_of_ne
    omega

theorem entry_identityEntries (hflags : flags < 4096) (hik : i ≤ k) (hk : k < i + n)
    (hlt : k < 1024) : entry (identityEntries flags m t i n) t k = 4096 * k + flags := by
  induction n generalizing m i with
  | zero => omega
  | succ n ih =>
    rw [identityEntries]
    by_cases h : i = k
    · subst h
      rw [entry_identityEntries_of_lt (by omega)]
      exact entry_setWord_self (by omega)
    · exact ih (by omega) (by omega)

/-- A directory at `dir` that maps the first 4 MiB twice, by the table at `t`. -/
def lowTables (flags : ℕ) (m : Bytes) (dir t : ℕ) : Bytes :=
  install (install (identityEntries flags (fill m t 0 4096) t 0 1024) dir 0 (t + flags))
    dir 768 (t + flags)

/-- Physical memory as `vmm_init` leaves it. -/
def started (m : Bytes) (dir t : ℕ) : Bytes := install (lowTables 7 m dir t) dir 1023 (dir + 3)

theorem install_of_not_inPage {d e : ℕ} (hd : d < 1024) (ha : ¬ InPage dir a) :
    install m dir d e a = m a := by
  apply setWord_of_ne
  unfold InPage at ha
  omega

theorem lowTables_of_not_inPage (ha : ¬ InPage dir a) (ha' : ¬ InPage t a) :
    lowTables flags m dir t a = m a := by
  rw [lowTables, install_of_not_inPage (by decide) ha, install_of_not_inPage (by decide) ha,
    identityEntries_of_not_inPage (by decide) ha']
  apply fill_of_ne
  unfold InPage at ha'
  omega

theorem started_of_not_inPage (ha : ¬ InPage dir a) (ha' : ¬ InPage t a) :
    started m dir t a = m a := by
  rw [started, install_of_not_inPage (by decide) ha, lowTables_of_not_inPage ha ha']

variable (hdir : 4096 ∣ dir) (ht : 4096 ∣ t) (hne : dir ≠ t)
include hdir ht hne

theorem entry_install_table {d e : ℕ} (hd : d < 1024) (hk : k < 1024) :
    entry (install m dir d e) t k = entry m t k :=
  entry_setWord_of_ne hdir ht hd hk (.inl hne.symm)

theorem entry_lowTables_table (hflags : flags < 4096) (hk : k < 1024) :
    entry (lowTables flags m dir t) t k = 4096 * k + flags := by
  rw [lowTables, entry_install_table hdir ht hne (by decide) hk,
    entry_install_table hdir ht hne (by decide) hk]
  exact entry_identityEntries hflags (Nat.zero_le k) (by omega) hk

theorem entry_lowTables_dir (htlt : t + flags < 4294967296)
    (hzero : ∀ d < 1024, entry m dir d = 0) (hk : k < 1024) :
    entry (lowTables flags m dir t) dir k = if Shared k then t + flags else 0 := by
  have hself (m : Bytes) (d : ℕ) : entry (install m dir d (t + flags)) dir d = t + flags :=
    entry_setWord_self htlt
  have hother (m : Bytes) {d : ℕ} (hd : d < 1024) (hkd : k ≠ d) :
      entry (install m dir d (t + flags)) dir k = entry m dir k :=
    entry_setWord_of_ne hdir hdir hd hk (.inr hkd)
  rw [lowTables]
  by_cases h₁ : k = 768
  · subst h₁
    rw [hself]
    rfl
  · rw [hother _ (by decide) h₁]
    by_cases h₂ : k = 0
    · subst h₂
      rw [hself]
      rfl
    · have hs : ¬ Shared k := not_or.mpr ⟨h₂, h₁⟩
      have hentries : entry (identityEntries flags (fill m t 0 4096) t 0 1024) dir k =
          entry (fill m t 0 4096) dir k := by
        apply entry_congr _ hk
        intro b hb hb'
        apply identityEntries_of_not_inPage (by decide)
        unfold InPage
        omega
      rw [hother _ (by decide) h₂, if_neg hs, hentries, entry_fill_of_ne ht hdir hk hne]
      exact hzero k hk

theorem entry_started_table (hk : k < 1024) : entry (started m dir t) t k = 4096 * k + 7 := by
  rw [started, entry_install_table hdir ht hne (by decide) hk]
  exact entry_lowTables_table hdir ht hne (by decide) hk

theorem entry_started_dir (hdlt : dir < 4294967296) (htlt : t < 4294967296)
    (hzero : ∀ d < 1024, entry m dir d = 0) (hk : k < 1024) :
    entry (started m dir t) dir k =
      if k = 1023 then dir + 3 else if Shared k then t + 7 else 0 := by
  rw [started]
  by_cases h : k = 1023
  · subst h
    rw [if_pos rfl]
    exact entry_setWord_self (by omega)
  · rw [if_neg h, ← entry_lowTables_dir hdir ht hne (show t + 7 < 4294967296 by omega) hzero hk]
    exact entry_setWord_of_ne hdir hdir (by decide) hk (.inr h)

theorem started_identity (hdlt : dir < 4294967296) (htlt : t < 4294967296)
    (hzero : ∀ d < 1024, entry m dir d = 0) : Identity (started m dir t) dir t := by
  have hslot := entry_started_dir hdir ht hne hdlt htlt hzero (k := 0) (by decide)
  rw [if_neg (by decide), if_pos (.inl rfl)] at hslot
  refine ⟨?_, ?_, fun i hi ↦ ?_⟩
  · rw [hslot, present_add ht]
    decide
  · rw [hslot]
    exact frameOf_add ht (by decide)
  · have hi4 : 4096 ∣ 4096 * i := Nat.dvd_mul_right ..
    rw [entry_started_table hdir ht hne hi, present_add hi4]
    exact ⟨by decide, frameOf_add hi4 (by decide)⟩

theorem started_slot (hdlt : dir < 4294967296) (htlt : t < 4294967296)
    (hzero : ∀ d < 1024, entry m dir d = 0) (hk : k < 1023) :
    (Shared k ∧ entry (started m dir t) dir k = t + 7) ∨
      (¬ Shared k ∧ ¬ Present (entry (started m dir t) dir k)) := by
  have hslot := entry_started_dir hdir ht hne hdlt htlt hzero (k := k) (by omega)
  rw [if_neg (by omega)] at hslot
  by_cases hs : Shared k
  · rw [if_pos hs] at hslot
    exact .inl ⟨hs, hslot⟩
  · rw [if_neg hs] at hslot
    rw [hslot]
    exact .inr ⟨hs, by decide⟩

theorem started_hierarchy (hdlt : dir < 4294967296) (htlt : t < 4294967296)
    (hzero : ∀ d < 1024, entry m dir d = 0) : Hierarchy Shared (started m dir t) dir := by
  have hself := entry_started_dir hdir ht hne hdlt htlt hzero (k := 1023) (by decide)
  rw [if_pos rfl] at hself
  refine ⟨hdir, ?_, ?_, fun d hd hp ↦ ?_, fun d hd d' hd' hp hp' _ ↦ ?_⟩
  · rw [hself, present_add hdir]
    decide
  · rw [hself]
    exact frameOf_add hdir (by decide)
  · obtain ⟨-, heq⟩ | ⟨-, hnot⟩ := started_slot hdir ht hne hdlt htlt hzero hd
    · rw [heq, frameOf_add ht (by decide)]
      exact hne.symm
    · exact absurd hp hnot
  · obtain ⟨hs, -⟩ | ⟨-, hnot⟩ := started_slot hdir ht hne hdlt htlt hzero hd
    · obtain ⟨hs', -⟩ | ⟨-, hnot⟩ := started_slot hdir ht hne hdlt htlt hzero hd'
      · exact .inr ⟨hs, hs'⟩
      · exact absurd hp' hnot
    · exact absurd hp hnot

end Contents

section Run

variable {π : Type} {d₀ t₀ dir t : ℕ} {m m₁ m₂ : Bytes} {e e₁ e₂ : π}

/-- The bytes are reached through the identity map of the directory at `d₀`. -/
def Low (d₀ t₀ : ℕ) (e : π) (m : Bytes) : Kernel Vm π → Prop :=
  (Kernel.window (identityWindow d₀ t₀) e).Sees (LowAddress d₀ t₀) m

theorem identityMap_returns {i n : ℕ} (hin : i + n ≤ 1024)
    (hA : ∀ a, InPage t a → LowAddress d₀ t₀ a) :
    Returns (Low d₀ t₀ e m) (identityMap t i n) () (Low d₀ t₀ e (identityEntries 7 m t i n)) := by
  induction n generalizing i m with
  | zero => exact .pure ()
  | succ n ih =>
    have hval : w32 (i * pageSize) ||| vmmPresent ||| vmmWritable ||| vmmUser = 4096 * i + 7 := by
      unfold pageSize
      rw [w32_of_lt (by omega), lor_flags (Nat.dvd_mul_left ..), Nat.mul_comm]
    rw [identityMap, hval]
    refine Returns.seq (Window.store32_returns _ (fun j hj ↦ hA _ ?_) _) (ih (by omega))
    unfold InPage
    omega

variable [PageSource (Kernel Vm π)]

/-- With two frames that the identity map reaches, `vmm_init` comes back on its own
tables. -/
theorem vmmInit_returns (hdir : 4096 ∣ dir) (ht : 4096 ∣ t)
    (hAdir : ∀ a, InPage dir a → LowAddress d₀ t₀ a) (hAt : ∀ a, InPage t a → LowAddress d₀ t₀ a)
    (halloc₁ : Returns (Low d₀ t₀ e m) allocPage dir (Low d₀ t₀ e₁ m₁))
    (halloc₂ : Returns (Low d₀ t₀ e₁ (fill m₁ dir 0 4096)) allocPage t (Low d₀ t₀ e₂ m₂)) :
    Returns (Low d₀ t₀ e m) vmmInit () (fun s ↦ s = ⟨⟨started m₂ dir t, dir⟩, e₂⟩) := by
  have hstore (d : ℕ) (hd : d < 1024) : ∀ j < 4, LowAddress d₀ t₀ (dir + 4 * d + j) := by
    intro j hj
    apply hAdir
    unfold InPage
    omega
  have hslot : kernelVirtBase >>> 22 = 768 := by decide
  have hload : Returns (Low d₀ t₀ e₂ (started m₂ dir t)) (loadCr3 dir) ()
      (fun s ↦ s = ⟨⟨started m₂ dir t, dir⟩, e₂⟩) := by
    apply Returns.modify
    intro s hs
    obtain ⟨rfl, -⟩ := sees_iff.mp hs
    rfl
  rw [vmmInit, hslot]
  refine halloc₁.bind (.seq (Window.memset_returns _ 0 4096 fun a ha ha' ↦ hAdir a ⟨ha, ha'⟩) ?_)
  refine halloc₂.bind (.seq (Window.memset_returns _ 0 4096 fun a ha ha' ↦ hAt a ⟨ha, ha'⟩) ?_)
  refine .seq (identityMap_returns le_rfl hAt) ?_
  rw [lor_flags ht, lor_directoryFlags hdir]
  refine .seq (Window.store32_returns _ (hstore 0 (by decide)) _) ?_
  refine .seq (Window.store32_returns _ (hstore 768 (by decide)) _) ?_
  exact .seq (Window.store32_returns _ (hstore 1023 (by decide)) _) hload

end Run

/-- Where `boot.S` keeps its page directory. Its page table comes right behind. -/
structure BootTables where
  bootPageDirectory : ℕ
  aligned : 4096 ∣ bootPageDirectory

def BootTables.bootPageTable1 (b : BootTables) : ℕ := b.bootPageDirectory + 4096

/-- What `boot.S` puts there. -/
structure BootTables.Loaded (b : BootTables) (m : Bytes) : Prop where
  directory : ∀ d < 1024, entry m b.bootPageDirectory d = if Shared d then b.bootPageTable1 + 3 else 0
  table : ∀ i < 1024, entry m b.bootPageTable1 i = 4096 * i + 3

section Boot

variable {b : BootTables} {m m' : Bytes} {a p : ℕ}

theorem BootTables.table_aligned (b : BootTables) : 4096 ∣ b.bootPageTable1 :=
  Nat.dvd_add b.aligned (dvd_refl _)

theorem BootTables.loaded_lowTables (b : BootTables) (hlt : b.bootPageTable1 + 3 < 4294967296)
    (hzero : ∀ d < 1024, entry m b.bootPageDirectory d = 0) :
    b.Loaded (lowTables 3 m b.bootPageDirectory b.bootPageTable1) := by
  have hne : b.bootPageDirectory ≠ b.bootPageTable1 := by
    unfold BootTables.bootPageTable1
    omega
  exact ⟨fun d hd ↦ entry_lowTables_dir b.aligned b.table_aligned hne hlt hzero hd,
    fun i hi ↦ entry_lowTables_table b.aligned b.table_aligned hne (by decide) hi⟩

theorem BootTables.Loaded.identity (h : b.Loaded m) :
    Identity m b.bootPageDirectory b.bootPageTable1 := by
  have hslot := h.directory 0 (by decide)
  rw [if_pos (.inl rfl)] at hslot
  refine ⟨?_, ?_, fun i hi ↦ ?_⟩
  · rw [hslot, present_add b.table_aligned]
    decide
  · rw [hslot]
    exact frameOf_add b.table_aligned (by decide)
  · have hi4 : 4096 ∣ 4096 * i := Nat.dvd_mul_right ..
    rw [h.table i hi, present_add hi4]
    exact ⟨by decide, frameOf_add hi4 (by decide)⟩

theorem BootTables.Loaded.congr (h : b.Loaded m)
    (hm : ∀ a, InPage b.bootPageDirectory a ∨ InPage b.bootPageTable1 a → m' a = m a) :
    b.Loaded m' where
  directory d hd := by
    rw [← h.directory d hd]
    exact entry_congr (fun a ha ha' ↦ hm a (.inl ⟨ha, ha'⟩)) hd
  table i hi := by
    rw [← h.table i hi]
    exact entry_congr (fun a ha ha' ↦ hm a (.inr ⟨ha, ha'⟩)) hi

/-- A frame below 4 MiB that holds no table of `boot.S`. -/
structure BootTables.LowFrame (b : BootTables) (p : ℕ) : Prop where
  aligned : 4096 ∣ p
  lt : p < identityLimit
  ne_directory : p ≠ b.bootPageDirectory
  ne_table : p ≠ b.bootPageTable1

theorem BootTables.LowFrame.lowAddress (h : b.LowFrame p) (ha : InPage p a) :
    LowAddress b.bootPageDirectory b.bootPageTable1 a := by
  obtain ⟨haligned, hlt, hd, ht⟩ := h
  have hb := b.aligned
  have hb' := b.table_aligned
  unfold LowAddress InPage identityLimit at *
  omega

theorem BootTables.LowFrame.loaded_fill (hp : b.LowFrame p) (h : b.Loaded m) :
    b.Loaded (fill m p 0 4096) := by
  apply h.congr
  intro a ha
  apply fill_of_ne
  obtain ⟨haligned, -, hd, ht⟩ := hp
  have hb := b.aligned
  have hb' := b.table_aligned
  unfold InPage at ha
  omega

/-- Before `vmm_init` the processor reaches nothing below `KERNEL_VIRT_BASE` but the
first 4 MiB. -/
theorem BootTables.Loaded.low_of_translate (h : b.Loaded m) (ha : a < kernelVirtBase)
    (htr : translate m b.bootPageDirectory a = some p) : a < identityLimit := by
  obtain ⟨e, hwalk, -⟩ := translate_eq_some.mp htr
  obtain ⟨⟨hp, -⟩, he, -⟩ := walk_eq_some.mp hwalk
  unfold kernelVirtBase at ha
  have hd : dirIndex a < 768 := by
    unfold dirIndex
    omega
  rw [h.directory _ (by omega)] at he
  by_cases hs : Shared (dirIndex a)
  · have hzero : dirIndex a = 0 := hs.resolve_right (by omega)
    unfold dirIndex at hzero
    unfold identityLimit
    omega
  · rw [if_neg hs] at he
    rw [← he] at hp
    exact absurd hp (by decide)

end Boot

end KevOS.Vmm.Init
