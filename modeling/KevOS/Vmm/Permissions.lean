import KevOS.Vmm.Mapping

namespace KevOS.Vmm.Permissions

open Lib.Program Lib.ByteMemory Lib.Bits Lib.Paging Machine MapPage Init Mapping

/-- The arguments of a call of `vmm_map_page`. -/
structure Call where
  phys : ℕ
  virt : ℕ
  flags : ℕ
  deriving DecidableEq, Repr

/-- The runs of `MapRun` with the calls made, the last one first. -/
inductive Run (b : BootTables) : List Call → Kernel Vm Supply → Prop
  | init {s₀ s : Kernel Vm Supply} : s₀.mem.cr3 = b.bootPageDirectory → b.Loaded s₀.mem.mem →
      Fresh b s₀.vars.frames → (∀ f ∈ s₀.vars.frames.take 2, f < kernelVirtBase) →
      vmmInit.run s₀ = .ok () s → Run b [] s
  | map {calls : List Call} {s s' : Kernel Vm Supply} {c : Call} : Run b calls s →
      Mappable c.phys c.virt → (vmmMapPage c.phys c.virt c.flags).run s = .ok () s' →
      Run b (c :: calls) s'

/-- The last call for the page of `a`. -/
def lastCall (calls : List Call) (a : ℕ) : Option Call :=
  calls.find? fun c ↦ c.virt / 4096 = a / 4096

/-- The first call for the 4 MiB that directory entry `d` stands for. -/
def firstCall (calls : List Call) (d : ℕ) : Option Call :=
  calls.reverse.find? fun c ↦ dirIndex c.virt = d

/-- The processor grants a permission if both levels of the walk do. -/
def Effective (flag : ℕ) (s : Kernel Vm Supply) (a : ℕ) : Prop :=
  ∃ e, walk s.mem.mem s.mem.cr3 a = some e ∧ e.1 &&& flag ≠ 0 ∧ e.2 &&& flag ≠ 0

structure TakesEffect (s : Kernel Vm Supply) (a flags : ℕ) : Prop where
  user : Effective vmmUser s a ↔ flags &&& vmmUser ≠ 0
  writable : Effective vmmWritable s a ↔ flags &&& vmmWritable ≠ 0

section Calls

variable {calls : List Call} {c f : Call} {a d : ℕ}

theorem lastCall_cons_of_eq (h : a / 4096 = c.virt / 4096) : lastCall (c :: calls) a = some c := by
  rw [lastCall, List.find?_cons_of_pos]
  exact decide_eq_true h.symm

theorem lastCall_cons_of_ne (h : a / 4096 ≠ c.virt / 4096) :
    lastCall (c :: calls) a = lastCall calls a := by
  rw [lastCall, List.find?_cons_of_neg, lastCall]
  simpa using h.symm

theorem of_lastCall (h : lastCall calls a = some c) : c.virt / 4096 = a / 4096 := by
  simpa using List.find?_some h

theorem firstCall_cons : firstCall (c :: calls) d =
    (firstCall calls d).or (if dirIndex c.virt = d then some c else none) := by
  rw [firstCall, List.reverse_cons, List.find?_append, firstCall, List.find?_singleton]
  simp only [decide_eq_true_eq]

theorem dirIndex_of_page {b : ℕ} (h : a / 4096 = b / 4096) : dirIndex a = dirIndex b := by
  unfold dirIndex
  omega

end Calls

section Flags

variable {f flags : ℕ}

theorem land_directoryEntry_user (hf : 4096 ∣ f) :
    directoryEntry f flags &&& 2 ^ 2 ≠ 0 ↔ flags &&& 2 ^ 2 ≠ 0 := by
  have hbit : f.testBit 2 = false := testBit_of_page hf (by decide)
  have hpresent : vmmPresent.testBit 2 = false := by decide
  have hwritable : vmmWritable.testBit 2 = false := by decide
  have huser : vmmUser.testBit 2 = true := by decide
  rw [directoryEntry, land_two_pow_ne_zero, land_two_pow_ne_zero, Nat.testBit_or, Nat.testBit_or,
    Nat.testBit_or, Nat.testBit_and, hbit, hpresent, hwritable, huser, Bool.or_false,
    Bool.or_false, Bool.false_or, Bool.and_true]

theorem land_directoryEntry_writable : directoryEntry f flags &&& 2 ^ 1 ≠ 0 := by
  have hwritable : vmmWritable.testBit 1 = true := by decide
  rw [directoryEntry, land_two_pow_ne_zero, Nat.testBit_or, Nat.testBit_or, hwritable,
    Bool.or_true, Bool.true_or]

/-- The low bits of a table entry are the flags. -/
theorem land_pageEntry (hf : 4096 ∣ f) {k : ℕ} (hk : 0 < k) (hk' : k < 12) :
    pageEntry f flags &&& 2 ^ k ≠ 0 ↔ flags &&& 2 ^ k ≠ 0 := by
  have hbit : f.testBit k = false := testBit_of_page hf hk'
  have hmask : Nat.testBit 0xFFF k = true := by
    rw [show 0xFFF = 2 ^ 12 - 1 from rfl, Nat.testBit_two_pow_sub_one]
    exact decide_eq_true hk'
  have hone : vmmPresent.testBit k = false := by
    rw [← Bool.not_eq_true, vmmPresent, Nat.testBit_one_eq_true_iff_self_eq_zero]
    omega
  rw [pageEntry, land_two_pow_ne_zero, land_two_pow_ne_zero, Nat.testBit_or, Nat.testBit_or,
    Nat.testBit_and, hbit, hmask, hone, Bool.false_or, Bool.and_true, Bool.or_false]

end Flags

section Step

variable {b : BootTables} {s s' : Kernel Vm Supply} {calls : List Call} {c : Call}

/-- What a call does to the directory: a missing table is entered with the call's own user
bit, and a table that is there keeps its entry. -/
theorem mapPage_directory {phys virt flags : ℕ} (hs : MapInv s) (h : Mappable phys virt)
    (hr : (vmmMapPage phys virt flags).run s = .ok () s') :
    (∀ d < 1024, Present (entry s.mem.mem s.mem.cr3 d) ∨ d ≠ dirIndex virt →
      entry s'.mem.mem s'.mem.cr3 d = entry s.mem.mem s.mem.cr3 d) ∧
    (¬ Present (entry s.mem.mem s.mem.cr3 (dirIndex virt)) →
      ∃ f, 4096 ∣ f ∧ entry s'.mem.mem s'.mem.cr3 (dirIndex virt) = directoryEntry f flags) := by
  have hv := h.dirIndex_lt
  by_cases hp : Present (entry s.mem.mem s.mem.cr3 (dirIndex virt))
  · rw [vmmMapPage_present hs.hierarchy hv hp] at hr
    cases hr
    exact ⟨fun d hd _ ↦ hs.hierarchy.entry_setEntry hv hp hd, fun hn ↦ absurd hp hn⟩
  · cases hframes : s.vars.frames with
    | nil =>
      rw [vmmMapPage_stop hs.hierarchy hv hp (allocPage_nil hframes)] at hr
      cases hr
    | cons f frames =>
      have hmem : f ∈ s.vars.frames := hframes ▸ .head _
      obtain ⟨hf, hlt⟩ := hs.frame f hmem
      have hdir := hs.ne_directory f hmem
      have hfresh := hs.ne_table f hmem
      rw [vmmMapPage_absent hs.hierarchy hv hp (allocPage_cons hframes) hs.hierarchy hf hlt hdir
        hfresh] at hr
      cases hr
      have ht : directoryEntry f flags < 4294967296 := directoryEntry_lt hf hlt
      have hframe : frameOf (directoryEntry f flags) = f := frameOf_directoryEntry hf
      rw [← hframe] at hdir hfresh
      have hadd := hs.hierarchy.addTable hv ht hdir hfresh
      have hself := hs.hierarchy.entry_addTable_self hv ht hdir
      have hpt : Present (directoryEntry f flags) := directoryEntry_present hf
      rw [← hself] at hpt
      simp only [withPhys_mem, withPhys_cr3]
      refine ⟨fun d hd hne ↦ ?_, fun _ ↦ ⟨f, hf, ?_⟩⟩
      · have hne' : d ≠ dirIndex virt := by
          rcases hne with hpd | hne
          · rintro rfl
            exact hp hpd
          · exact hne
        rw [hadd.entry_setEntry hv hpt hd, hs.hierarchy.entry_addTable_of_ne hv hdir hd hne']
      · rw [hadd.entry_setEntry hv hpt (by omega), hself]

/-- Each table has the user bit of the call it was made for, each page the flags of the last
call for it. -/
structure Inv (calls : List Call) (s : Kernel Vm Supply) : Prop where
  inv : MapInv s
  absent : ∀ d < 1023, ¬ Shared d → firstCall calls d = none →
    ¬ Present (entry s.mem.mem s.mem.cr3 d)
  table : ∀ d < 1023, ∀ f, firstCall calls d = some f →
    ∃ t, 4096 ∣ t ∧ entry s.mem.mem s.mem.cr3 d = directoryEntry t f.flags
  page : ∀ a c, lastCall calls a = some c → Mappable c.phys c.virt ∧
    walk s.mem.mem s.mem.cr3 a =
      some (entry s.mem.mem s.mem.cr3 (dirIndex a), pageEntry c.phys c.flags)

theorem Inv.map (hi : Inv calls s) (h : Mappable c.phys c.virt)
    (hr : (vmmMapPage c.phys c.virt c.flags).run s = .ok () s') : Inv (c :: calls) s' := by
  obtain ⟨hkeep, hnew⟩ := mapPage_directory hi.inv h hr
  obtain ⟨hinv, hcr3, hmaps⟩ := mapPage_of_run hi.inv h hr
  have hv := h.dirIndex_lt
  refine ⟨hinv, fun d hd hs hnone ↦ ?_, fun d hd f hf ↦ ?_, fun a c' hc' ↦ ?_⟩
  · rw [firstCall_cons, Option.or_eq_none_iff] at hnone
    have hne : d ≠ dirIndex c.virt := by
      rintro rfl
      simp at hnone
    rw [hkeep d (by omega) (.inr hne)]
    exact hi.absent d hd hs hnone.1
  · rw [firstCall_cons, Option.or_eq_some_iff] at hf
    obtain hf | ⟨hnone, hf⟩ := hf
    · obtain ⟨t, ht, heq⟩ := hi.table d hd f hf
      have hp : Present (entry s.mem.mem s.mem.cr3 d) := heq ▸ directoryEntry_present ht
      exact ⟨t, ht, (hkeep d (by omega) (.inl hp)).trans heq⟩
    · rw [Option.ite_none_right_eq_some] at hf
      obtain ⟨rfl, hf⟩ := hf
      cases hf
      exact hnew (hi.absent _ hd h.not_shared hnone)
  · by_cases hpage : a / 4096 = c.virt / 4096
    · rw [lastCall_cons_of_eq hpage] at hc'
      cases hc'
      rw [dirIndex_of_page hpage, walk_page hpage, hcr3]
      exact ⟨h, hmaps.self⟩
    · rw [lastCall_cons_of_ne hpage] at hc'
      obtain ⟨hc, hwalk⟩ := hi.page a c' hc'
      have hda : dirIndex a < 1023 := by
        rw [← dirIndex_of_page (of_lastCall hc')]
        exact hc.dirIndex_lt
      have hp := (walk_eq_some.mp hwalk).1.1
      refine ⟨hc, ?_⟩
      rw [hkeep _ (by omega) (.inl hp), hcr3, hmaps.other a hda hpage]
      exact hwalk

theorem Inv.init {s₀ : Kernel Vm Supply} (hcr3 : s₀.mem.cr3 = b.bootPageDirectory)
    (hloaded : b.Loaded s₀.mem.mem) (hfresh : Fresh b s₀.vars.frames)
    (hlow : ∀ f ∈ s₀.vars.frames.take 2, f < kernelVirtBase) (hr : vmmInit.run s₀ = .ok () s) :
    Inv [] s := by
  refine ⟨mapInv_init hcr3 hloaded hfresh hlow hr, fun d hd hs _ ↦ ?_, fun d _ f hf ↦ ?_,
    fun a c hc ↦ ?_⟩
  · obtain ⟨dir, t, frames, hframes, hdir, ht, rfl⟩ := vmmInit_eq hcr3 hloaded hfresh hlow hr
    rw [hframes] at hfresh
    have hne : dir ≠ t := fun heq ↦ (List.nodup_cons.mp hfresh.nodup).1 (heq ▸ .head _)
    have hdlt : dir < 4294967296 := (hfresh.frame dir (.head _)).2
    have htlt : t < 4294967296 := (hfresh.frame t (.tail _ (.head _))).2
    have hzero : ∀ d < 1024, entry (fill s₀.mem.mem dir 0 4096) dir d = 0 :=
      fun d hd ↦ entry_fill_self hd
    obtain ⟨hs', -⟩ | ⟨-, hnot⟩ := started_slot hdir.aligned ht.aligned hne hdlt htlt hzero hd
    · exact absurd hs' hs
    · exact hnot
  · cases hf
  · cases hc

theorem run_inv (h : Run b calls s) : Inv calls s := by
  induction h with
  | init hcr3 hloaded hfresh hlow hr => exact .init hcr3 hloaded hfresh hlow hr
  | map _ hc hr ih => exact ih.map hc hr

/-- A page that was mapped has the permissions of its table and of its last call. -/
theorem Inv.effective_iff (hi : Inv calls s) {a : ℕ} (hc : lastCall calls a = some c) :
    ∃ f, firstCall calls (dirIndex a) = some f ∧
      (Effective vmmUser s a ↔ f.flags &&& vmmUser ≠ 0 ∧ c.flags &&& vmmUser ≠ 0) ∧
      (Effective vmmWritable s a ↔ c.flags &&& vmmWritable ≠ 0) := by
  obtain ⟨h, hwalk⟩ := hi.page a c hc
  have hpage := dirIndex_of_page (of_lastCall hc)
  have hd : dirIndex a < 1023 := hpage ▸ h.dirIndex_lt
  have hs : ¬ Shared (dirIndex a) := hpage ▸ h.not_shared
  have hp := (walk_eq_some.mp hwalk).1.1
  obtain ⟨f, hf⟩ : ∃ f, firstCall calls (dirIndex a) = some f := by
    rw [← Option.ne_none_iff_exists']
    exact fun hnone ↦ hi.absent _ hd hs hnone hp
  obtain ⟨t, ht, hentry⟩ := hi.table _ hd f hf
  have heffective (flag : ℕ) : Effective flag s a ↔
      directoryEntry t f.flags &&& flag ≠ 0 ∧ pageEntry c.phys c.flags &&& flag ≠ 0 := by
    rw [Effective, hwalk, hentry]
    simp only [Option.some.injEq, exists_eq_left']
  refine ⟨f, hf, ?_, ?_⟩
  · rw [heffective, show vmmUser = 2 ^ 2 from rfl, land_directoryEntry_user ht,
      land_pageEntry h.frame (by decide) (by decide)]
  · rw [heffective, show vmmWritable = 2 ^ 1 from rfl, and_iff_right land_directoryEntry_writable,
      land_pageEntry h.frame (by decide) (by decide)]

/-- Every page has the permissions of its last call, if and only if no page is asked for the
user in a region whose first call was not. -/
theorem run_takesEffect_iff (h : Run b calls s) :
    (∀ a c, lastCall calls a = some c → TakesEffect s a c.flags) ↔
      ∀ a c f, lastCall calls a = some c → firstCall calls (dirIndex a) = some f →
        c.flags &&& vmmUser ≠ 0 → f.flags &&& vmmUser ≠ 0 := by
  refine forall₂_congr fun a c ↦ ?_
  rw [forall_comm]
  refine forall_congr' fun hc ↦ ?_
  obtain ⟨f, hf, huser, hwritable⟩ := (run_inv h).effective_iff hc
  constructor
  · intro heffect f' hf' hu
    cases hf.symm.trans hf'
    exact (huser.mp (heffect.user.mpr hu)).1
  · intro hfirst
    exact ⟨huser.trans (and_iff_right_of_imp (hfirst f hf)), hwritable⟩

end Step

/-- A page for the kernel. -/
def kernelCall : Call := ⟨0x300000, 0xD0000000, 3⟩

/-- A page for the user, in the same 4 MiB. -/
def userCall : Call := ⟨0x301000, 0xD0001000, 7⟩

theorem mappable_kernelCall : Mappable kernelCall.phys kernelCall.virt :=
  ⟨by decide, by decide, by decide, by decide, by decide⟩

theorem mappable_userCall : Mappable userCall.phys userCall.virt :=
  ⟨by decide, by decide, by decide, by decide, by decide⟩

/-- Two pages of one region, mapped one after the other. -/
theorem exists_run_pair {c c' : Call} (hc : Mappable c.phys c.virt) (hc' : Mappable c'.phys c'.virt)
    (hd : dirIndex c.virt = dirIndex c'.virt) : ∃ s, Run smallBoot [c', c] s := by
  have h₀ : Run smallBoot [] _ :=
    .init rfl loaded_smallSupply fresh_smallSupply (by decide) vmmInit_smallSupply
  obtain ⟨s₁, hr, -⟩ := @mapPage_returns _ _ _ c.flags (run_inv h₀).inv hc (.inr (List.cons_ne_nil _ _))
  have h₁ : Run smallBoot [c] s₁ := h₀.map hc hr
  have hlast : lastCall [c] c.virt = some c := lastCall_cons_of_eq rfl
  obtain ⟨-, hwalk⟩ := (run_inv h₁).page c.virt c hlast
  have hp := (walk_eq_some.mp hwalk).1.1
  rw [hd] at hp
  obtain ⟨s₂, hr', -⟩ := @mapPage_returns _ _ _ c'.flags (run_inv h₁).inv hc' (.inl hp)
  exact ⟨s₂, h₁.map hc' hr'⟩

/-- With the page for the user mapped first, both pages have their permissions. -/
theorem run_takesEffect_iff_userCall : ∃ s, Run smallBoot [kernelCall, userCall] s ∧
    lastCall [kernelCall, userCall] 0xD0000000 = some kernelCall ∧
    lastCall [kernelCall, userCall] 0xD0001000 = some userCall ∧
    ∀ a c, lastCall [kernelCall, userCall] a = some c → TakesEffect s a c.flags := by
  obtain ⟨s, h⟩ := exists_run_pair mappable_userCall mappable_kernelCall (by decide)
  refine ⟨s, h, by decide, by decide, (run_takesEffect_iff h).mpr fun a c f hc hf _ ↦ ?_⟩
  have hregion : dirIndex a = dirIndex c.virt := dirIndex_of_page (of_lastCall hc).symm
  have hmem : c ∈ [kernelCall, userCall] := List.mem_of_find?_eq_some hc
  have hfirst : firstCall [kernelCall, userCall] (dirIndex a) = some userCall := by
    rw [hregion]
    simp only [List.mem_cons, List.not_mem_nil, or_false] at hmem
    rcases hmem with rfl | rfl <;> decide
  cases hfirst.symm.trans hf
  decide

/-- The page for the user comes by the table that was made for the kernel. -/
theorem userCall_not_effective : ∃ s, Run smallBoot [userCall, kernelCall] s ∧
    lastCall [userCall, kernelCall] 0xD0001000 = some userCall ∧
    ¬ TakesEffect s 0xD0001000 userCall.flags := by
  obtain ⟨s, h⟩ := exists_run_pair mappable_kernelCall mappable_userCall (by decide)
  refine ⟨s, h, by decide, fun heffect ↦ ?_⟩
  have hlast : lastCall [userCall, kernelCall] 0xD0001000 = some userCall := by decide
  have hfirst : firstCall [userCall, kernelCall] (dirIndex 0xD0001000) = some kernelCall := by
    decide
  obtain ⟨f, hf, huser, -⟩ := (run_inv h).effective_iff hlast
  cases hfirst.symm.trans hf
  have hbit := (huser.mp (heffect.user.mpr (by decide))).1
  exact hbit (by decide)

end KevOS.Vmm.Permissions
