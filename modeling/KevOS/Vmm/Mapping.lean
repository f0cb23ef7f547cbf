import KevOS.Vmm.Init

namespace KevOS.Vmm.Mapping

open Lib.Program Lib.ByteMemory Lib.Paging Machine MapPage Init

/-- The frames the next calls of `pmm_alloc_page` return. -/
structure Supply where
  frames : List ℕ

/-- Allocations that fail are not considered. -/
def Supply.allocPage : Prog (Kernel Vm Supply) ℕ := do
  let s ← get
  match s.vars.frames with
  | [] => throw .halt
  | f :: frames =>
    set (⟨s.mem, ⟨frames⟩⟩ : Kernel Vm Supply)
    pure f

instance : PageSource (Kernel Vm Supply) := ⟨Supply.allocPage⟩

/-- Page frames that nothing uses yet. -/
structure Fresh (b : BootTables) (frames : List ℕ) : Prop where
  nodup : frames.Nodup
  frame : ∀ f ∈ frames, 4096 ∣ f ∧ f < 4294967296
  unused : ∀ f ∈ frames, f ≠ b.bootPageDirectory ∧ f ≠ b.bootPageTable1

/-- The arguments of `vmm_map_page`: a frame, and an address that is neither among the
page tables nor in one of the two windows of the first page table. -/
structure Mappable (phys virt : ℕ) : Prop where
  frame : 4096 ∣ phys
  phys_lt : phys < 4294967296
  virt_lt : virt < 4294967296
  not_recursive : dirIndex virt ≠ vmmRecursiveSlot
  not_shared : ¬ Shared (dirIndex virt)

/-- The states `vmm_init` and calls of `vmm_map_page` reach. The directory and the first
table are frames below 3 GiB, where the kernel's own window begins. -/
inductive MapRun (b : BootTables) : Kernel Vm Supply → Prop
  | init {s₀ s : Kernel Vm Supply} : s₀.mem.cr3 = b.bootPageDirectory → b.Loaded s₀.mem.mem →
      Fresh b s₀.vars.frames → (∀ f ∈ s₀.vars.frames.take 2, f < kernelVirtBase) →
      vmmInit.run s₀ = .ok () s → MapRun b s
  | map {s s' : Kernel Vm Supply} {phys virt flags : ℕ} : MapRun b s → Mappable phys virt →
      (vmmMapPage phys virt flags).run s = .ok () s' → MapRun b s'

/-- Nothing in the tables uses the frames that are left. -/
structure MapInv (s : Kernel Vm Supply) : Prop where
  hierarchy : Hierarchy Shared s.mem.mem s.mem.cr3
  nodup : s.vars.frames.Nodup
  frame : ∀ f ∈ s.vars.frames, 4096 ∣ f ∧ f < 4294967296
  ne_directory : ∀ f ∈ s.vars.frames, f ≠ s.mem.cr3
  ne_table : ∀ f ∈ s.vars.frames, ∀ d < 1023, Present (entry s.mem.mem s.mem.cr3 d) →
    frameOf (entry s.mem.mem s.mem.cr3 d) ≠ f

section Supplies

variable {s s' : Kernel Vm Supply} {f : ℕ} {frames : List ℕ}

theorem allocPage_cons (h : s.vars.frames = f :: frames) :
    allocPage.run s = .ok f { s with vars := ⟨frames⟩ } := by
  change Supply.allocPage.run s = _
  rw [Supply.allocPage, run_get_bind, h]
  rfl

theorem allocPage_nil (h : s.vars.frames = []) : allocPage.run s = .error .halt s := by
  change Supply.allocPage.run s = _
  rw [Supply.allocPage, run_get_bind, h]
  rfl

theorem of_allocPage (h : allocPage.run s = .ok f s') :
    ∃ frames, s.vars.frames = f :: frames ∧ s' = { s with vars := ⟨frames⟩ } := by
  cases hf : s.vars.frames with
  | nil =>
    rw [allocPage_nil hf] at h
    cases h
  | cons g frames =>
    rw [allocPage_cons hf] at h
    cases h
    exact ⟨frames, rfl, rfl⟩

end Supplies

section Initial

variable {b : BootTables} {s₀ s s' : Kernel Vm Supply} {a n : ℕ}

/-- A `memset` that comes back has reached its first byte. -/
theorem translate_of_memset {π : Type} {s s' : Kernel Vm π} (ha : a < 4294967296)
    (hr : (memset a 0 (n + 1)).run s = .ok () s') :
    ∃ p, translate s.mem.mem s.mem.cr3 a = some p := by
  rw [← Option.isSome_iff_exists, Option.isSome_iff_ne_none]
  intro hnone
  rw [memset, run_bind_error (store8_kernel_fault ha hnone)] at hr
  cases hr

theorem allocPage_low {d₀ t₀ f : ℕ} {frames : List ℕ} {m : Bytes} :
    Returns (Low d₀ t₀ (⟨f :: frames⟩ : Supply) m) allocPage f (Low d₀ t₀ ⟨frames⟩ m) := by
  intro s hs
  obtain ⟨rfl, hid⟩ := sees_iff.mp hs
  exact ⟨_, allocPage_cons rfl, sees_iff.mpr ⟨rfl, hid⟩⟩

/-- A frame that `vmm_init` has taken and cleared lies in the first 4 MiB. -/
theorem of_alloc_memset {m : Bytes} {l : List ℕ} {f : ℕ} {s₁ s₂ : Kernel Vm Supply}
    (hloaded : b.Loaded m) (hfresh : Fresh b l) (hlow : ∀ g ∈ l.head?, g < kernelVirtBase)
    (halloc : allocPage.run ⟨⟨m, b.bootPageDirectory⟩, ⟨l⟩⟩ = .ok f s₁)
    (hmemset : (memset f 0 pageSize).run s₁ = .ok () s₂) :
    ∃ frames, l = f :: frames ∧ b.LowFrame f ∧
      s₂ = ⟨⟨fill m f 0 4096, b.bootPageDirectory⟩, ⟨frames⟩⟩ := by
  obtain ⟨frames, hframes, rfl⟩ := of_allocPage halloc
  dsimp only at hframes hmemset
  subst hframes
  have hlt : f < kernelVirtBase := hlow f rfl
  obtain ⟨p, htr⟩ := translate_of_memset (hlt.trans (by decide)) hmemset
  have hf : b.LowFrame f := ⟨(hfresh.frame f (.head _)).1, hloaded.low_of_translate hlt htr,
    (hfresh.unused f (.head _)).1, (hfresh.unused f (.head _)).2⟩
  have hlow₁ : Low b.bootPageDirectory b.bootPageTable1 (⟨frames⟩ : Supply) m
      ⟨⟨m, b.bootPageDirectory⟩, ⟨frames⟩⟩ := sees_iff.mpr ⟨rfl, hloaded.identity⟩
  have hfill := (Window.memset_returns (Kernel.window _ _) 0 4096
    fun _ ha ha' ↦ hf.lowAddress ⟨ha, ha'⟩).eq_of_run hlow₁ hmemset
  exact ⟨frames, rfl, hf, (sees_iff.mp hfill.2).1⟩

theorem vmmInit_eq (hcr3 : s₀.mem.cr3 = b.bootPageDirectory) (hloaded : b.Loaded s₀.mem.mem)
    (hfresh : Fresh b s₀.vars.frames) (hlow : ∀ f ∈ s₀.vars.frames.take 2, f < kernelVirtBase)
    (hr : vmmInit.run s₀ = .ok () s) : ∃ dir t frames, s₀.vars.frames = dir :: t :: frames ∧
      b.LowFrame dir ∧ b.LowFrame t ∧
      s = ⟨⟨started (fill s₀.mem.mem dir 0 4096) dir t, dir⟩, ⟨frames⟩⟩ := by
  obtain ⟨⟨m, cr3⟩, ⟨l⟩⟩ := s₀
  cases hcr3
  have hrun := hr
  rw [vmmInit] at hr
  obtain ⟨dir, s₁, halloc₁, hr⟩ := bind_eq_ok.mp hr
  obtain ⟨_, s₂, hmemset₁, hr⟩ := bind_eq_ok.mp hr
  have hlow₁ : ∀ f ∈ l.head?, f < kernelVirtBase := by
    intro f hf
    cases l with
    | nil => cases hf
    | cons g l =>
      cases hf
      exact hlow f (.head _)
  obtain ⟨rest, rfl, hdir, rfl⟩ := of_alloc_memset hloaded hfresh hlow₁ halloc₁ hmemset₁
  obtain ⟨t, s₃, halloc₂, hr⟩ := bind_eq_ok.mp hr
  obtain ⟨_, s₄, hmemset₂, -⟩ := bind_eq_ok.mp hr
  have hfresh₂ : Fresh b rest := ⟨hfresh.nodup.of_cons, fun f hf ↦ hfresh.frame f (.tail _ hf),
    fun f hf ↦ hfresh.unused f (.tail _ hf)⟩
  have hlow₂ : ∀ f ∈ rest.head?, f < kernelVirtBase := by
    intro f hf
    cases rest with
    | nil => cases hf
    | cons g l =>
      cases hf
      exact hlow f (.tail _ (.head _))
  obtain ⟨frames, rfl, ht, -⟩ :=
    of_alloc_memset (hdir.loaded_fill hloaded) hfresh₂ hlow₂ halloc₂ hmemset₂
  have hinit := vmmInit_returns hdir.aligned ht.aligned (fun _ ↦ hdir.lowAddress)
    (fun _ ↦ ht.lowAddress) (@allocPage_low _ _ _ _ m) (@allocPage_low _ _ _ frames _)
  have hs := hinit.eq_of_run (sees_iff.mpr ⟨rfl, hloaded.identity⟩) hrun
  exact ⟨dir, t, frames, rfl, hdir, ht, hs.2⟩

theorem mapInv_init (hcr3 : s₀.mem.cr3 = b.bootPageDirectory) (hloaded : b.Loaded s₀.mem.mem)
    (hfresh : Fresh b s₀.vars.frames) (hlow : ∀ f ∈ s₀.vars.frames.take 2, f < kernelVirtBase)
    (hr : vmmInit.run s₀ = .ok () s) : MapInv s := by
  obtain ⟨dir, t, frames, hframes, hdir, ht, rfl⟩ := vmmInit_eq hcr3 hloaded hfresh hlow hr
  rw [hframes] at hfresh
  have hnodup := hfresh.nodup
  simp only [List.nodup_cons, List.mem_cons, not_or] at hnodup
  obtain ⟨⟨hne, hdirnot⟩, htnot, hnodup⟩ := hnodup
  have hdlt : dir < 4294967296 := (hfresh.frame dir (.head _)).2
  have htlt : t < 4294967296 := (hfresh.frame t (.tail _ (.head _))).2
  have hzero : ∀ d < 1024, entry (fill s₀.mem.mem dir 0 4096) dir d = 0 :=
    fun d hd ↦ entry_fill_self hd
  refine ⟨started_hierarchy hdir.aligned ht.aligned hne hdlt htlt hzero, hnodup,
    fun f hf ↦ hfresh.frame f (.tail _ (.tail _ hf)), fun f hf ↦ ?_, fun f hf d hd hp ↦ ?_⟩
  · rintro rfl
    exact hdirnot hf
  · obtain ⟨-, heq⟩ | ⟨-, hnot⟩ :=
      started_slot hdir.aligned ht.aligned hne hdlt htlt hzero hd
    · dsimp only
      rw [heq, frameOf_add ht.aligned (by decide)]
      rintro rfl
      exact htnot hf
    · exact absurd hp hnot

end Initial

section Step

variable {b : BootTables} {s s' : Kernel Vm Supply} {phys virt flags f : ℕ} {frames : List ℕ}

theorem Mappable.dirIndex_lt (h : Mappable phys virt) : dirIndex virt < 1023 := by
  have hlt := h.virt_lt
  have hne := h.not_recursive
  unfold dirIndex vmmRecursiveSlot at *
  omega

theorem mapPage_of_present (hs : MapInv s) (h : Mappable phys virt)
    (hp : Present (entry s.mem.mem s.mem.cr3 (dirIndex virt))) :
    ∃ s', (vmmMapPage phys virt flags).run s = .ok () s' ∧ MapInv s' ∧ s'.mem.cr3 = s.mem.cr3 ∧
      MapsPage s.mem.mem s'.mem.mem s.mem.cr3 virt (pageEntry phys flags) := by
  have hv := h.dirIndex_lt
  have hentry {d : ℕ} (hd : d < 1024) :
      entry (setEntry s.mem.mem s.mem.cr3 virt (pageEntry phys flags)) s.mem.cr3 d =
        entry s.mem.mem s.mem.cr3 d := hs.hierarchy.entry_setEntry hv hp hd
  refine ⟨_, vmmMapPage_present hs.hierarchy hv hp, ?_, rfl, ?_⟩
  · refine ⟨hs.hierarchy.setEntry hv hp, hs.nodup, hs.frame, hs.ne_directory, fun f hf d hd ↦ ?_⟩
    simp only [withPhys_mem, withPhys_cr3, hentry (show d < 1024 by omega)]
    exact hs.ne_table f hf d hd
  · exact hs.hierarchy.mapsPage_setEntry hv h.not_shared hp (pageEntry_present phys flags)
      (pageEntry_lt h.frame h.phys_lt)

theorem mapPage_of_absent (hs : MapInv s) (h : Mappable phys virt)
    (hp : ¬ Present (entry s.mem.mem s.mem.cr3 (dirIndex virt)))
    (hframes : s.vars.frames = f :: frames) :
    ∃ s', (vmmMapPage phys virt flags).run s = .ok () s' ∧ MapInv s' ∧ s'.mem.cr3 = s.mem.cr3 ∧
      MapsPage s.mem.mem s'.mem.mem s.mem.cr3 virt (pageEntry phys flags) := by
  have hv := h.dirIndex_lt
  have hmem : f ∈ s.vars.frames := hframes ▸ .head _
  obtain ⟨hf, hlt⟩ := hs.frame f hmem
  have hdir := hs.ne_directory f hmem
  have hfresh := hs.ne_table f hmem
  have hnodup := hs.nodup
  rw [hframes, List.nodup_cons] at hnodup
  have hrun := @vmmMapPage_absent _ _ _ _ phys _ flags _ _ hs.hierarchy hv hp
    (allocPage_cons hframes) hs.hierarchy hf hlt hdir hfresh
  set t := directoryEntry f flags
  have ht : t < 4294967296 := directoryEntry_lt hf hlt
  have hframe : frameOf t = f := frameOf_directoryEntry hf
  have hpresent : Present t := directoryEntry_present hf
  rw [← hframe] at hdir hfresh
  have hadd := hs.hierarchy.addTable hv ht hdir hfresh
  set m := addTable s.mem.mem s.mem.cr3 (dirIndex virt) t
  have hself : entry m s.mem.cr3 (dirIndex virt) = t :=
    hs.hierarchy.entry_addTable_self hv ht hdir
  have hpt : Present (entry m s.mem.cr3 (dirIndex virt)) := hself.symm ▸ hpresent
  refine ⟨_, hrun, ?_, rfl, ?_⟩
  · have hsub {g : ℕ} (hg : g ∈ frames) : g ∈ s.vars.frames := hframes ▸ .tail _ hg
    refine ⟨hadd.setEntry hv hpt, hnodup.2, fun g hg ↦ hs.frame g (hsub hg),
      fun g hg ↦ hs.ne_directory g (hsub hg), fun g hg d hd ↦ ?_⟩
    simp only [withPhys_mem, withPhys_cr3, hadd.entry_setEntry hv hpt (show d < 1024 by omega)]
    by_cases hdv : d = dirIndex virt
    · rw [hdv, hself, hframe]
      rintro - rfl
      exact hnodup.1 hg
    · rw [hs.hierarchy.entry_addTable_of_ne hv hdir (by omega) hdv]
      exact hs.ne_table g (hsub hg) d hd
  · exact hs.hierarchy.mapsPage_addTable hv h.not_shared hp hpresent ht hdir hfresh
      (pageEntry_present phys flags) (pageEntry_lt h.frame h.phys_lt)

theorem mapPage_returns (hs : MapInv s) (h : Mappable phys virt)
    (halloc : Present (entry s.mem.mem s.mem.cr3 (dirIndex virt)) ∨ s.vars.frames ≠ []) :
    ∃ s', (vmmMapPage phys virt flags).run s = .ok () s' ∧ MapInv s' ∧ s'.mem.cr3 = s.mem.cr3 ∧
      MapsPage s.mem.mem s'.mem.mem s.mem.cr3 virt (pageEntry phys flags) := by
  by_cases hp : Present (entry s.mem.mem s.mem.cr3 (dirIndex virt))
  · exact mapPage_of_present hs h hp
  · obtain ⟨f, frames, hframes⟩ := List.exists_cons_of_ne_nil (halloc.resolve_left hp)
    exact mapPage_of_absent hs h hp hframes

theorem mapPage_of_run (hs : MapInv s) (h : Mappable phys virt)
    (hr : (vmmMapPage phys virt flags).run s = .ok () s') :
    MapInv s' ∧ s'.mem.cr3 = s.mem.cr3 ∧
      MapsPage s.mem.mem s'.mem.mem s.mem.cr3 virt (pageEntry phys flags) := by
  by_cases hp : Present (entry s.mem.mem s.mem.cr3 (dirIndex virt))
  · obtain ⟨t, hrun, ht⟩ := @mapPage_of_present _ _ _ flags hs h hp
    rw [hrun] at hr
    cases hr
    exact ht
  · cases hframes : s.vars.frames with
    | nil =>
      rw [vmmMapPage_stop hs.hierarchy h.dirIndex_lt hp (allocPage_nil hframes)] at hr
      cases hr
    | cons f frames =>
      obtain ⟨t, hrun, ht⟩ := @mapPage_of_absent _ _ _ flags _ _ hs h hp hframes
      rw [hrun] at hr
      cases hr
      exact ht

theorem mapRun_inv (hs : MapRun b s) : MapInv s := by
  induction hs with
  | init hcr3 hloaded hfresh hlow hr => exact mapInv_init hcr3 hloaded hfresh hlow hr
  | map _ h hr ih => exact (mapPage_of_run ih h hr).1

/-- One call of `vmm_map_page` maps the page asked for and no other, through a table that
the recursive addresses show. -/
theorem vmmMapPage_maps (hs : MapRun b s) (h : Mappable phys virt) (flags : ℕ)
    (halloc : Present (entry s.mem.mem s.mem.cr3 (dirIndex virt)) ∨ s.vars.frames ≠ []) :
    ∃ s' pde, (vmmMapPage phys virt flags).run s = .ok () s' ∧ s'.mem.cr3 = s.mem.cr3 ∧
      walk s'.mem.mem s'.mem.cr3 virt = some (pde, phys + ((flags &&& 0xFFF) ||| vmmPresent)) ∧
      (∀ a < 4294967296, dirIndex a ≠ vmmRecursiveSlot → a / 4096 ≠ virt / 4096 →
        walk s'.mem.mem s'.mem.cr3 a = walk s.mem.mem s.mem.cr3 a) ∧
      ∀ i < 1024, translate s'.mem.mem s'.mem.cr3
        (vmmPageTables + 4 * (dirIndex virt * 1024 + i)) = some (frameOf pde + 4 * i) := by
  have hinv := mapRun_inv hs
  obtain ⟨s', hrun, hinv', hcr3, hmaps⟩ := @mapPage_returns _ _ _ flags hinv h halloc
  have hself := hmaps.self
  rw [← hcr3] at hself
  have hpresent := (walk_eq_some.mp hself).1.1
  refine ⟨s', _, hrun, hcr3, by rw [hself, pageEntry_eq h.frame], fun a ha hrec hpage ↦ ?_,
    fun i hi ↦ ?_⟩
  · have hd : dirIndex a < 1023 := by
      unfold dirIndex vmmRecursiveSlot at *
      omega
    rw [hcr3]
    exact hmaps.other a hd hpage
  · exact hinv'.hierarchy.translate_tableAddr (Nat.lt_succ_of_lt h.dirIndex_lt) hpresent hi

/-- A kernel with its boot tables at 0x110000, and the lowest frames to give out. -/
def smallBoot : BootTables := ⟨0x110000, by decide⟩

def smallSupply : Kernel Vm Supply :=
  ⟨⟨lowTables 3 (fun _ ↦ 0) smallBoot.bootPageDirectory smallBoot.bootPageTable1,
    smallBoot.bootPageDirectory⟩, ⟨[0, 0x1000, 0x200000]⟩⟩

theorem loaded_smallSupply : smallBoot.Loaded smallSupply.mem.mem :=
  smallBoot.loaded_lowTables (by decide) fun _ _ ↦ rfl

theorem fresh_smallSupply : Fresh smallBoot smallSupply.vars.frames :=
  ⟨by decide, by decide, by decide⟩

theorem vmmInit_lowFrames {s : Kernel Vm Supply} {frames : List ℕ}
    (hcr3 : s.mem.cr3 = smallBoot.bootPageDirectory) (h : smallBoot.Loaded s.mem.mem)
    (hframes : s.vars.frames = 0 :: 0x1000 :: frames) :
    vmmInit.run s = .ok () ⟨⟨started (fill s.mem.mem 0 0 4096) 0 0x1000, 0⟩, ⟨frames⟩⟩ := by
  have hdir : smallBoot.LowFrame 0 := ⟨by decide, by decide, by decide, by decide⟩
  have ht : smallBoot.LowFrame 0x1000 := ⟨by decide, by decide, by decide, by decide⟩
  have hinit := vmmInit_returns hdir.aligned ht.aligned (fun _ ↦ hdir.lowAddress)
    (fun _ ↦ ht.lowAddress) (@allocPage_low _ _ _ _ s.mem.mem) (@allocPage_low _ _ _ frames _)
  obtain ⟨⟨m, cr3⟩, ⟨l⟩⟩ := s
  cases hcr3
  cases hframes
  obtain ⟨s, hrun, rfl⟩ := hinit _ (sees_iff.mpr ⟨rfl, h.identity⟩)
  exact hrun

theorem vmmInit_smallSupply : vmmInit.run smallSupply =
    .ok () ⟨⟨started (fill smallSupply.mem.mem 0 0 4096) 0 0x1000, 0⟩, ⟨[0x200000]⟩⟩ :=
  vmmInit_lowFrames rfl loaded_smallSupply rfl

theorem exists_mapRun_smallSupply : ∃ s, MapRun smallBoot s ∧ s.vars.frames = [0x200000] := by
  exact ⟨_, .init rfl loaded_smallSupply fresh_smallSupply (by decide) vmmInit_smallSupply, rfl⟩

theorem vmmMapPage_maps_smallSupply : ∃ s s' pde, MapRun smallBoot s ∧
    (vmmMapPage 0x300000 0xD0000000 7).run s = .ok () s' ∧
    walk s'.mem.mem s'.mem.cr3 0xD0000000 = some (pde, 0x300007) := by
  obtain ⟨s, hs, hframes⟩ := exists_mapRun_smallSupply
  have hpage : Mappable 0x300000 0xD0000000 :=
    ⟨by decide, by decide, by decide, by decide, by decide⟩
  obtain ⟨s', pde, hrun, -, hwalk, -⟩ := vmmMapPage_maps hs hpage 7
    (.inr (by rw [hframes]; exact List.cons_ne_nil _ _))
  exact ⟨s, s', pde, hs, hrun, hwalk⟩

end Step

end KevOS.Vmm.Mapping
