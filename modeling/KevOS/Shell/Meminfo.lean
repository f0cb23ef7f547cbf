import KevOS.Pmm.Refinement
import KevOS.Pmm.Survival
import KevOS.Shell.Replies

namespace KevOS.Shell.Meminfo

open Lib.Program Machine Libc.Format Pmm Pmm.Physical Pmm.Refinement Finset

def pmmGetTotalMemory : Prog PmmState ℕ := do
  let s ← get
  pure (w32 (s.vars.pmmMaxBlocks * pageSize))

/-- Calls of the memory manager after `pmm_init`, with how many pages have been handed out and taken back. -/
inductive Traffic (s₀ : PmmState) : ℕ → ℕ → PmmState → Prop
  | start : Traffic s₀ 0 0 s₀
  | alloc {out back p : ℕ} {s s' : PmmState} : Traffic s₀ out back s → (free s).Nonempty →
      pmmAllocPage.run s = .ok p s' → Traffic s₀ (out + 1) back s'
  | exhausted {out back p : ℕ} {s s' : PmmState} : Traffic s₀ out back s → free s = ∅ →
      pmmAllocPage.run s = .ok p s' → Traffic s₀ out back s'
  | release {out back ptr : ℕ} {s s' : PmmState} : Traffic s₀ out back s →
      ptr / pageSize < s.vars.pmmMaxBlocks ∧ ptr / pageSize ∉ free s →
      (pmmFreePage ptr).run s = .ok () s' → Traffic s₀ out (back + 1) s'
  | ignored {out back ptr : ℕ} {s s' : PmmState} : Traffic s₀ out back s →
      ¬ (ptr / pageSize < s.vars.pmmMaxBlocks ∧ ptr / pageSize ∉ free s) →
      (pmmFreePage ptr).run s = .ok () s' → Traffic s₀ out back s'

variable {img : KernelImage} {mmap : List MultibootMmapEntry} {s₀ s₁ s : PmmState} {k : Shell.Builtins.Kernel}
  {out back fuel : ℕ}

theorem traffic_inv (hs₀ : Consistent img mmap s₀) (ht : Traffic s₀ out back s) :
    Consistent img mmap s ∧ #(free s) + out = #(free s₀) + back := by
  induction ht with
  | start => exact ⟨hs₀, rfl⟩
  | alloc _ hne hr ih =>
    obtain ⟨hc, hcount⟩ := ih
    refine ⟨consistent_step hc (.alloc hr), ?_⟩
    obtain ⟨i, hi, -, rfl⟩ | ⟨hempty, -⟩ := pmmAllocPage_cases hc hr
    · have hmem : i ∈ free _ := mem_coe.mp hi.1
      have hcard := card_erase_add_one hmem
      rw [free_lockPage]
      omega
    · exact absurd hempty hne.ne_empty
  | exhausted _ hempty hr ih =>
    obtain ⟨hc, hcount⟩ := ih
    rw [pmmAllocPage_none hc hempty] at hr
    cases hr
    exact ⟨hc, hcount⟩
  | release _ hused hr ih =>
    obtain ⟨hc, hcount⟩ := ih
    refine ⟨consistent_step hc (.release _ hr), ?_⟩
    obtain ⟨hlt, hfree, rfl⟩ | ⟨hno, -⟩ := pmmFreePage_cases hc hr
    · rw [free_unlockPage hused.1, card_insert_of_notMem hfree]
      omega
    · rw [hc.blocks] at hused
      exact absurd hno (by simpa using hused)
  | ignored _ hno hr ih =>
    obtain ⟨hc, hcount⟩ := ih
    rw [pmmFreePage_nop hc (by rw [hc.blocks, not_and_or, not_not, not_lt] at hno; exact hno)] at hr
    cases hr
    exact ⟨hc, hcount⟩

/-- The lines of `meminfo`. -/
def report (freeKb usedKb : ℕ) : List UInt8 :=
  text "--- Physical Memory Info ---\n" ++ (text "Free Memory: " ++ numeral 10 freeKb ++ text " KB\n") ++
    (text "Used Memory: " ++ numeral 10 usedKb ++ text " KB\n")

theorem reply_meminfo (k : Shell.Builtins.Kernel) (fuel : ℕ) : Replies.reply k fuel (text "meminfo") =
    some (report (k.freeMemory / 1024) (sub32 k.totalMemory k.freeMemory / 1024)) := by
  have hline : text "meminfo" ≠ [] := by decide
  have hword : Replies.word (text "meminfo") = text "meminfo" := by decide
  have hcommand : Replies.commandOf (text "meminfo") Commands.names = some .meminfo := by decide
  rw [Replies.reply, if_neg hline, hword, hcommand]
  rfl

/-- Since boot `meminfo` shows the books of the memory manager: each page that is handed out moves 4 KB from free to
used, each page that is taken back moves them the other way, and calls that find nothing or release nothing
move nothing. -/
theorem meminfo_balances (hmap : EndsBelow4G mmap) (hinit : (pmmInit img mmap).run s₀ = .ok () s₁)
    (ht : Traffic s₁ out back s) (hfree : pmmGetFreeMemory.run s = .ok k.freeMemory s)
    (htotal : pmmGetTotalMemory.run s = .ok k.totalMemory s) :
    ∃ n, n + out = #(free s₁) + back ∧ n ≤ maxBlocks mmap ∧
      Replies.reply k fuel (text "meminfo") = some (report (4 * n) (4 * (maxBlocks mmap - n))) := by
  obtain ⟨hc, hcount⟩ := traffic_inv (of_pmmInit hinit).1 ht
  have hlt := maxBlocks_lt_of_endsBelow hmap
  have hpage : pageSize = 4096 := rfl
  have hle : #(free s) ≤ maxBlocks mmap := by
    have hsum := Bitmap.card_used_add_free s.mem s.vars.pmmBitmap s.vars.pmmMaxBlocks
    rw [← hc.blocks]
    exact (Nat.le_add_left _ _).trans_eq hsum
  rw [pmmGetFreeMemory_run hlt hc] at hfree
  injection hfree with hfree
  have htotal' : pmmGetTotalMemory.run s = .ok (w32 (s.vars.pmmMaxBlocks * pageSize)) s := rfl
  rw [htotal', hc.blocks, hpage, w32_of_lt (by omega)] at htotal
  injection htotal with htotal
  refine ⟨#(free s), hcount, hle, ?_⟩
  rw [reply_meminfo, ← hfree, ← htotal, sub32_of_le (by omega) (by omega)]
  congr 2 <;> omega

/-- Memory before boot. -/
def blankState : PmmState := ⟨fun _ ↦ 0, .initial⟩

/-- The first page has been handed out. -/
theorem meminfo_balances_smallPc : ∃ s₁ s p n k, (pmmInit smallImage smallPc).run blankState = .ok () s₁ ∧
    pmmAllocPage.run s₁ = .ok p s ∧ pmmGetFreeMemory.run s = .ok k.freeMemory s ∧ n + 1 = #(free s₁) ∧
    Replies.reply k 0 (text "meminfo") = some (report (4 * n) (4 * (maxBlocks smallPc - n))) := by
  obtain ⟨s₁, hinit, hc, -, hfree⟩ := pmmInit_ok smallImage smallPc blankState
  have hne : (free s₁).Nonempty := ⟨0, (hfree 0).mpr (Survival.bootFree_low_smallPc (by decide))⟩
  obtain ⟨i, hi⟩ := exists_isLeast_free hne
  have hrun := pmmAllocPage_ok hc hi
  obtain ⟨n, hn, -, hreply⟩ := @meminfo_balances smallImage smallPc blankState s₁ (lockPage s₁ i)
    { Replies.bareKernel with
      freeMemory := w32 (sub32 (lockPage s₁ i).vars.pmmMaxBlocks (lockPage s₁ i).vars.pmmUsedBlocks * pageSize)
      totalMemory := w32 ((lockPage s₁ i).vars.pmmMaxBlocks * pageSize) } 1 0 0
    endsBelow4G_smallPc hinit (.alloc .start hne hrun) rfl rfl
  exact ⟨s₁, _, _, n, _, hinit, hrun, rfl, hn, hreply⟩

end KevOS.Shell.Meminfo
