import KevOS.Heap.Run

namespace KevOS.Heap.FlatMachine

open Lib.Program Lib.ByteMemory Lib.Tiling Machine Blocks HeapList Growth Run

/-- The machine as the heap knows it: virtual memory whose pages come into being
when they are mapped, with whatever the frame held, and the frames that are left. -/
structure Flat where
  mem : ℕ → Option UInt8
  contents : ℕ → Bytes
  frames : List ℕ

def Flat.start (contents : ℕ → Bytes) (frames : List ℕ) : HeapState Flat :=
  ⟨⟨fun _ ↦ none, contents, frames⟩, .initial⟩

def Flat.load8 (a : ℕ) : Prog Flat UInt8 := do
  let f ← get
  match f.mem (w32 a) with
  | some v => pure v
  | none => throw .fault

def Flat.store8 (a : ℕ) (v : UInt8) : Prog Flat Unit := do
  let f ← get
  match f.mem (w32 a) with
  | some _ => set { f with mem := Function.update f.mem (w32 a) (some v) }
  | none => throw .fault

def Flat.allocPage : Prog Flat ℕ := do
  let f ← get
  match f.frames with
  | [] => pure 0
  | phys :: frames =>
    set { f with frames := frames }
    pure phys

/-- Memory in which a frame with these contents has been mapped at `virt`. -/
def mapped (mem : ℕ → Option UInt8) (contents : Bytes) (virt : ℕ) : ℕ → Option UInt8 := fun a ↦
  if virt ≤ a ∧ a < virt + pageSize then some (contents (a - virt)) else mem a

/-- The machine ends where the page tables are mapped. -/
def Flat.mapPage (phys virt : ℕ) : Prog Flat Unit := do
  let f ← get
  if virt + pageSize ≤ vmmPageTables then
    set { f with mem := mapped f.mem (f.contents phys) virt }
  else throw .fault

instance : ByteMem Flat := ⟨Flat.load8, Flat.store8⟩

instance : PageSource Flat := ⟨Flat.allocPage⟩

instance : PageMapper Flat := ⟨fun phys virt _ ↦ Flat.mapPage phys virt⟩

section Window

variable {f f' : Flat} {phys virt : ℕ} {frames : List ℕ}

theorem allocPage_none (h : f.frames = []) : (allocPage : Prog Flat ℕ).run f = .ok 0 f := by
  change Flat.allocPage.run f = _
  rw [Flat.allocPage, run_get_bind, h]
  rfl

theorem allocPage_some (h : f.frames = phys :: frames) :
    (allocPage : Prog Flat ℕ).run f = .ok phys { f with frames := frames } := by
  change Flat.allocPage.run f = _
  rw [Flat.allocPage, run_get_bind, h]
  rfl

theorem mapPage_ok (hlim : virt + pageSize ≤ vmmPageTables) : (Flat.mapPage phys virt).run f =
    .ok () { f with mem := mapped f.mem (f.contents phys) virt } := by
  rw [Flat.mapPage, run_get_bind, if_pos hlim]
  rfl

theorem mapPage_error (hlim : ¬ virt + pageSize ≤ vmmPageTables) :
    (Flat.mapPage phys virt).run f = .error .fault f := by
  rw [Flat.mapPage, run_get_bind, if_neg hlim]
  rfl

theorem backPage_flat (h : f.frames = phys :: frames) (hne : phys ≠ 0)
    (hlim : virt + pageSize ≤ vmmPageTables) : (backPage virt).run f =
      .ok () ⟨mapped f.mem (f.contents phys) virt, f.contents, frames⟩ := by
  rw [backPage, run_bind_ok (allocPage_some h), if_neg hne]
  exact mapPage_ok hlim

theorem of_backPage_flat (h : (backPage virt).run f = .ok () f') :
    ∃ phys frames, f.frames = phys :: frames ∧ phys ≠ 0 ∧ virt + pageSize ≤ vmmPageTables ∧
      f' = ⟨mapped f.mem (f.contents phys) virt, f.contents, frames⟩ := by
  cases hf : f.frames with
  | nil =>
    rw [backPage, run_bind_ok (allocPage_none hf), if_pos rfl] at h
    cases h
  | cons phys frames =>
    refine ⟨phys, frames, rfl, ?_⟩
    rw [backPage, run_bind_ok (allocPage_some hf)] at h
    by_cases hne : phys = 0
    · rw [if_pos hne] at h
      cases h
    · rw [if_neg hne] at h
      by_cases hlim : virt + pageSize ≤ vmmPageTables
      · cases (mapPage_ok hlim).symm.trans h
        exact ⟨hne, hlim, rfl⟩
      · cases (mapPage_error hlim).symm.trans h

theorem load8_ok {a : ℕ} {v : UInt8} (h : f.mem (w32 a) = some v) :
    (Flat.load8 a).run f = .ok v f := by
  rw [Flat.load8, run_get_bind, h]
  rfl

theorem store8_ok {a : ℕ} {u v : UInt8} (h : f.mem (w32 a) = some u) :
    (Flat.store8 a v).run f = .ok () { f with mem := Function.update f.mem (w32 a) (some v) } := by
  rw [Flat.store8, run_get_bind, h]
  rfl

/-- Mapped memory is plain bytes, and grows page by page. -/
def flatWindow : GrowWindow Flat where
  inv _ := True
  acc f a := a < 4294967296 ∧ (f.mem a).isSome = true
  view f a := (f.mem a).getD 0
  load8_eq {f a} _ ha := by
    obtain ⟨v, hv⟩ := Option.isSome_iff_exists.mp ha.2
    have hload : (Flat.load8 a).run f = .ok v f := load8_ok (by rwa [w32_of_lt ha.1])
    rw [hv]
    exact hload
  store8_ok {f a} v _ ha := by
    obtain ⟨u, hu⟩ := Option.isSome_iff_exists.mp ha.2
    refine ⟨{ f with mem := Function.update f.mem a (some v) }, ?_, trivial, ?_, ?_⟩
    · have hstore : (Flat.store8 a v).run f = _ := store8_ok (u := u) (by rwa [w32_of_lt ha.1])
      rw [w32_of_lt ha.1] at hstore
      exact hstore
    · funext b
      by_cases hb : b = a
      · subst hb
        simp [hu]
      · simp [Function.update_of_ne hb]
    · funext b
      by_cases hb : b = a
      · subst hb
        simp
      · simp [Function.update_of_ne hb]
  grow_ok {f f' hi} _ hacc hlo _ hr := by
    obtain ⟨phys, frames, -, -, hlim, rfl⟩ := of_backPage_flat hr
    have hlimit := vmmPageTables_lt
    unfold pageSize at hlim
    refine ⟨hlim, trivial, ?_, fun a ha ↦ ?_⟩
    · funext a
      have ha := congrFun hacc a
      unfold mapped pageSize InHeap at *
      by_cases hnew : hi ≤ a ∧ a < hi + 4096
      · simp only [if_pos hnew, Option.isSome_some, and_true, eq_iff_iff]
        omega
      · simp only [if_neg hnew, ha, eq_iff_iff]
        omega
    · have hold : ¬ (hi ≤ a ∧ a < hi + pageSize) := by
        have hlt := ha.2
        omega
      simp only [mapped, if_neg hold]

end Window

section Progress

theorem start_acc {contents : ℕ → Bytes} {frames : List ℕ} :
    flatWindow.acc (Flat.start contents frames).mem = InHeap kheapStart := by
  funext a
  have hempty : ¬ InHeap kheapStart a := fun h ↦ absurd h.1 (not_le.mpr h.2)
  rw [eq_iff_iff, iff_false_right hempty]
  rintro ⟨-, h⟩
  cases h

/-- There are `k` frames left, none of them at address 0. -/
def Flat.Ready (k : ℕ) (f : Flat) : Prop := k ≤ f.frames.length ∧ ∀ phys ∈ f.frames, phys ≠ 0

theorem Flat.Ready.next {k hi : ℕ} {f : Flat} (h : f.Ready (k + 1))
    (hlim : hi + pageSize ≤ vmmPageTables) : ∃ f', (backPage hi).run f = .ok () f' ∧ f'.Ready k := by
  obtain ⟨mem, contents, frames⟩ := f
  obtain ⟨hlen, hne⟩ := h
  cases frames with
  | nil => cases hlen
  | cons phys frames =>
    rw [List.forall_mem_cons] at hne
    exact ⟨_, backPage_flat rfl hne.1 hlim, Nat.le_of_succ_le_succ hlen, hne.2⟩

theorem kheapExpand_flat {pages : ℕ} {s : HeapState Flat} (hframes : pages ≤ s.mem.frames.length)
    (hne : ∀ phys ∈ s.mem.frames, phys ≠ 0)
    (hlim : s.vars.heapCurrentEnd + pages * pageSize ≤ vmmPageTables) :
    ∃ s', (kheapExpand pages).run s = .ok () s' :=
  kheapExpand_progress (P := fun k _ f ↦ Flat.Ready k f) (fun _ _ _ ↦ Flat.Ready.next)
    ⟨hframes, hne⟩ hlim

theorem kheapInit_flat {contents : ℕ → Bytes} {frames : List ℕ} (hframes : 512 ≤ frames.length)
    (hne : ∀ phys ∈ frames, phys ≠ 0) :
    ∃ s, kheapInit.run (Flat.start contents frames) = .ok () s ∧
      Represented flatWindow s [initialBlock] (kheapStart + kheapInitialSize) := by
  obtain ⟨s₁, hexp⟩ := kheapExpand_flat (s := Flat.start contents frames)
    hframes hne
    (show kheapStart + kheapInitialSize / pageSize * pageSize ≤ vmmPageTables by decide)
  exact kheapInit_of_expand trivial start_acc rfl hexp

end Progress

section Runs

variable {contents : ℕ → Bytes} {frames : List ℕ} {s : HeapState Flat} {live : List (ℕ × ℕ)}

theorem run_inv (h : HeapRun (Flat.start contents frames) s live) :
    ∃ bs hi, Represented flatWindow s bs hi ∧ Live bs live :=
  heapRun_inv (G := flatWindow) trivial start_acc rfl h

theorem kfree_returns (h : HeapRun (Flat.start contents frames) s live) {p n : ℕ}
    (hp : (p, n) ∈ live) : ∃ s', (kfree p).run s = .ok () s' := by
  obtain ⟨bs, hi, hrep, hl⟩ := run_inv h
  exact Run.Represented.kfree_returns hrep hl hp

/-- In every state of every run the list from `heap_head` is consistently linked and
tiles the heap, with sizes that are multiples of 8 and no two free neighbours. -/
theorem heap_wellFormed (contents : ℕ → Bytes) (frames : List ℕ) {s : HeapState Flat}
    {live : List (ℕ × ℕ)} (h : HeapRun (Flat.start contents frames) s live) :
    ∃ bs, WellFormed (G := flatWindow) s bs := by
  obtain ⟨bs, hi, hrep, -⟩ := run_inv h
  exact ⟨bs, Run.Represented.wellFormed hrep⟩

/-- In every run live allocations share no byte with each other or with a header,
and no call touches a payload that stays live. -/
theorem heap_isolated (contents : ℕ → Bytes) (frames : List ℕ) {s : HeapState Flat}
    {live : List (ℕ × ℕ)} (h : HeapRun (Flat.start contents frames) s live) :
    (∃ bs, Isolated (G := flatWindow) s bs live) ∧
    (∀ fuel n p s', ValidSize n → (kmalloc fuel n).run s = .ok p s' →
      ∀ q k, (q, k) ∈ live → SamePayload (G := flatWindow) s s' q) ∧
    (∀ p n s', (p, n) ∈ live → (kfree p).run s = .ok () s' →
      ∀ q k, (q, k) ∈ live.erase (p, n) → SamePayload (G := flatWindow) s s' q) := by
  obtain ⟨bs, hi, hrep, hl⟩ := run_inv h
  exact ⟨⟨bs, Run.Represented.isolated hrep hl⟩,
    fun _ _ _ _ hn hr _ _ hq ↦ kmalloc_samePayload hrep hl hn hr hq,
    fun _ _ _ hp hr _ _ hq ↦ kfree_samePayload hrep hl hp hr hq⟩

/-- 512 frames, enough to start the heap, each of them blank. -/
def smallFlat : HeapState Flat :=
  Flat.start (fun _ _ ↦ 0) ((List.range 512).map fun i ↦ 4096 * (i + 1))

theorem validSize_hundred : ValidSize 100 := ⟨by decide, by decide, by decide⟩

theorem validSize_twoHundred : ValidSize 200 := ⟨by decide, by decide, by decide⟩

/-- Two blocks are in use, and there is room for more. -/
theorem exists_run_smallFlat : ∃ s p q bs hi, HeapRun smallFlat s [(q, 200), (p, 100)] ∧
    Represented flatWindow s bs hi ∧ (place (roundUp 100) bs).isSome := by
  have hstart : ∃ s, kheapInit.run smallFlat = .ok () s ∧
      Represented flatWindow s [initialBlock] (kheapStart + kheapInitialSize) :=
    kheapInit_flat (by simp) (by simp)
  obtain ⟨s, hinit, hrep⟩ := hstart
  have hp : place (roundUp 100) [initialBlock] = some _ := rfl
  obtain ⟨s₁, hrun₁, hb₁⟩ := kmalloc_placed validSize_hundred hrep hp le_rfl
  have hq : place (roundUp 200) (Blocks.carve (roundUp 100) initialBlock ++ []) = some _ := rfl
  obtain ⟨s₂, hrun₂, hb₂⟩ := kmalloc_placed validSize_twoHundred hb₁.represented hq le_rfl
  exact ⟨s₂, _, _, _, _, .alloc (.alloc (.init hinit) validSize_hundred hrun₁) validSize_twoHundred hrun₂,
    hb₂.represented, rfl⟩

theorem heap_wellFormed_smallFlat : ∃ s p q bs, HeapRun smallFlat s [(q, 200), (p, 100)] ∧
    WellFormed (G := flatWindow) s bs := by
  obtain ⟨s, p, q, -, -, h, -⟩ := exists_run_smallFlat
  obtain ⟨bs, hbs⟩ := heap_wellFormed _ _ h
  exact ⟨s, p, q, bs, h, hbs⟩

/-- Another block is given out, and the first of the two is released: the second keeps its bytes. -/
theorem heap_isolated_smallFlat : ∃ s p q bs, HeapRun smallFlat s [(q, 200), (p, 100)] ∧
    Isolated (G := flatWindow) s bs [(q, 200), (p, 100)] ∧
    (∃ fuel r s', (kmalloc fuel 100).run s = .ok r s' ∧ SamePayload (G := flatWindow) s s' p ∧
      SamePayload (G := flatWindow) s s' q) ∧
    ∃ s', (kfree p).run s = .ok () s' ∧ SamePayload (G := flatWindow) s s' q := by
  obtain ⟨s, p, q, bs, hi, h, hrep, hsome⟩ := exists_run_smallFlat
  obtain ⟨⟨bs', hbs'⟩, halloc, hfree⟩ := heap_isolated _ _ h
  obtain ⟨⟨r, bs₁⟩, hplace⟩ := Option.isSome_iff_exists.mp hsome
  obtain ⟨s₁, hrun, -⟩ := kmalloc_placed validSize_hundred hrep hplace le_rfl
  obtain ⟨s₂, hrun'⟩ := kfree_returns h (p := p) (n := 100) (by simp)
  have hsame := halloc _ 100 r s₁ validSize_hundred hrun
  have hne : q ≠ p := by
    obtain ⟨bs, hi, hrep, hl⟩ := run_inv h
    simpa using hl.nodup hrep.shape.tiles
  have herase : [(q, 200), (p, 100)].erase (p, 100) = [(q, 200)] := by simp [hne]
  refine ⟨s, p, q, bs', h, hbs', ⟨_, r, s₁, hrun, hsame p 100 (by simp), hsame q 200 (by simp)⟩, s₂, hrun', ?_⟩
  exact hfree p 100 s₂ (by simp) hrun' q 200 (by rw [herase]; simp)

end Runs

end KevOS.Heap.FlatMachine
