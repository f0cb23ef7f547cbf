import KevOS.Protection.Tables

namespace KevOS.Protection

open Lib.ByteMemory Lib.Privilege Lib.Loop Function
open Interrupts.Stubs (Vector)

variable {L : Layout} {labels : Labels} {m m' : Bytes} {s s' : System}
  {g i p flush stack stack' access selector offset : ℕ}

section Segments

theorem segment?_eq (hg : s.gdtr = ⟨g, 47⟩) (hi : i < 6) (hs : selector / 8 = i)
    (ht : selector / 4 % 2 = 0) : s.segment? m selector = some (segmentAt m g i) := by
  unfold System.segment? Table.entry?
  rw [if_neg (by omega), hg, hs, if_pos (show 8 * i + 7 ≤ 47 by omega)]
  rfl

/-- The kernel's own segments can be loaded, and its code can be jumped to. -/
theorem kernelSegments_load (hg : s.gdtr = ⟨L.gdtEntries, 47⟩)
    (hseg : ∀ i < 6, segmentAt m L.gdtEntries i = segmentOf L access i) (ho : offset < 4294967296) :
    loadData s m 0 0x10 = .ok () ∧ loadStack s m 0 0x10 = .ok () ∧ farJump s m 0 0x08 offset = .ok () := by
  have hcode : s.segment? m 0x08 = some (flat 0x9A) :=
    (segment?_eq hg (show 1 < 6 by decide) rfl rfl).trans (congrArg some (hseg 1 (by decide)))
  have hdata : s.segment? m 0x10 = some (flat 0x92) :=
    (segment?_eq hg (show 2 < 6 by decide) rfl rfl).trans (congrArg some (hseg 2 (by decide)))
  refine ⟨?_, ?_, ?_⟩
  · rw [loadData, hdata]
    rfl
  · rw [loadStack, stackSegment, hdata]
    rfl
  · have hlast : ¬ (flat 0x9A).last < offset := by
      have hall : (flat 0x9A).last = 4294967295 := by decide
      omega
    rw [farJump, hcode]
    simp only [if_neg hlast]
    rfl

theorem gdtFlush_ok (hg : tableAt m p = ⟨L.gdtEntries, 47⟩)
    (hseg : ∀ i < 6, segmentAt m L.gdtEntries i = segmentOf L access i) (hf : flush < 4294967296) :
    gdtFlush p flush m s = .ok { s with gdtr := ⟨L.gdtEntries, 47⟩ } := by
  have hload := @kernelSegments_load L m { s with gdtr := ⟨L.gdtEntries, 47⟩ } access flush rfl hseg hf
  unfold gdtFlush
  rw [hg]
  simp only [hload.1, hload.2.1, hload.2.2]
  rfl

/-- `ltr` finds the task state segment available, and marks it busy. -/
theorem loadTask_ok (hg : s.gdtr = ⟨L.gdtEntries, 47⟩)
    (hseg : ∀ i < 6, segmentAt m L.gdtEntries i = segmentOf L 0xE9 i) :
    loadTask s m gdtTssSegment =
      .ok ({ s with tr := gdtTssSegment, tss := ⟨L.tssEntry, 103⟩ },
        update m (L.gdtEntries + 45) (m (L.gdtEntries + 45) ||| 2)) := by
  have htss : s.segment? m gdtTssSegment = some (segmentOf L 0xE9 5) :=
    (segment?_eq hg (show 5 < 6 by decide) rfl rfl).trans (congrArg some (hseg 5 (by decide)))
  have hlast : (segmentOf L 0xE9 5).last = 103 := by simp [segmentOf, Segment.last]
  unfold loadTask
  rw [htss, if_neg (by decide)]
  simp only [hlast, hg]
  simp [segmentOf, kind, present, availableTss, gdtTssSegment]

theorem segmentAt_busy (hseg : ∀ i < 6, segmentAt m g i = segmentOf L 0xE9 i) (hi : i < 6) :
    segmentAt (update m (g + 45) (m (g + 45) ||| 2)) g i = segmentOf L 0xEB i := by
  by_cases h5 : i = 5
  · subst h5
    have haccess : (m (g + 8 * 5 + 5)).toNat = (segmentAt m g 5).access := @access_eq m g 5
    rw [hseg 5 (by decide)] at haccess
    have hbyte : m (g + 8 * 5 + 5) = 0xE9 := UInt8.toNat_inj.mp haccess
    have hupdate : segmentAt (update m (g + 8 * 5 + 5) (m (g + 8 * 5 + 5) ||| 2)) g 5 =
      { segmentAt m g 5 with access := (m (g + 8 * 5 + 5) ||| 2).toNat } := @segmentAt_update m g 5 _
    rw [hseg 5 (by decide), hbyte] at hupdate
    rw [show g + 45 = g + 8 * 5 + 5 from rfl, hbyte, hupdate]
    rfl
  · rw [segmentAt_congr fun x hx hx' ↦ update_of_ne (by omega) _ _, hseg i hi]
    interval_cases i <;> first | rfl | contradiction

end Segments

section Stages

/-- The tables after `gdt_install` and `tss_install`. -/
theorem segmentAt_tssInstall (hL : L.Valid) (hi : i < 6) :
    segmentAt (tssFields L stack (gdtInstall L m)) L.gdtEntries i = segmentOf L 0xE9 i := by
  obtain ⟨-, hgt, -, -, -, -, -⟩ := hL.disjoint
  rw [segmentAt_congr fun x hx hx' ↦ tssFields_of_ne (by omega), segmentAt_gdtInstall hL hi]

/-- What `idt_install` finds stays in place, but for its own table and the operand of `lidt`. -/
theorem idtInstall_installed (hL : L.Valid) (hl : labels.Valid)
    (hseg : ∀ i < 6, segmentAt m L.gdtEntries i = segmentOf L 0xEB i)
    (htask : ∀ k < 26, word m (L.tssEntry + 4 * k) = taskWord stack (4 * k)) :
    Installed L labels stack ⟨⟨L.gdtEntries, 47⟩, ⟨L.idtEntries, 2047⟩, gdtTssSegment, ⟨L.tssEntry, 103⟩⟩
      (idtInstall L labels m) := by
  obtain ⟨-, -, hgi, hgp, hti, htp, -⟩ := hL.disjoint
  have hsame : ∀ x, (x < L.idtEntries ∨ L.idtEntries + 2048 ≤ x) → (x < L.idtPtr ∨ L.idtPtr + 6 ≤ x) →
      idtInstall L labels m x = m x := by
    intro x hx hx'
    rw [idtInstall_of_ne hx, setWord_of_ne (by omega), setHalf_of_ne (by omega)]
  refine ⟨rfl, rfl, rfl, rfl, fun i hi ↦ ?_, fun n hn ↦ gateAt_idtInstall hl hn, fun k hk ↦ ?_⟩
  · rw [segmentAt_congr fun x hx hx' ↦ hsame x (by omega) (by omega), hseg i hi]
  · rw [word_congr fun x hx hx' ↦ hsame x (by omega) (by omega), htask k hk]

end Stages

/-- Nothing stops the boot, and the tables are as they should be. -/
theorem boot_installed (hL : L.Valid) (hl : labels.Valid) (hs : stack < 4294967296) (m : Bytes) (s : System) :
    ∃ s' m', boot L labels stack m s = .ok (s', m') ∧ Installed L labels stack s' m' := by
  obtain ⟨-, hgt, -, -, -, -, -⟩ := hL.disjoint
  have hflush := @gdtFlush_ok L (gdtInstall L m) s L.gdtPtr labels.flush 0xE9 (tableAt_gdtInstall hL)
    (fun i hi ↦ segmentAt_gdtInstall hL hi) hl.flush
  have hltr := @loadTask_ok L (tssFields L stack (gdtInstall L m)) { s with gdtr := ⟨L.gdtEntries, 47⟩ } rfl
    fun i hi ↦ segmentAt_tssInstall hL hi
  have hseg : ∀ i < 6, _ = segmentOf L 0xEB i :=
    fun i hi ↦ @segmentAt_busy L (tssFields L stack (gdtInstall L m)) L.gdtEntries i
      (fun i hi ↦ segmentAt_tssInstall hL hi) hi
  refine ⟨_, _, ?_, idtInstall_installed hL hl hseg fun k hk ↦ ?_⟩
  · unfold boot tssInstall
    simp only [hflush, hltr, tableAt_idtInstall hL, bind, Except.bind, pure, Except.pure]
  · rw [word_congr fun x hx hx' ↦ update_of_ne (by omega) _ _, word_tssFields hs hk]

/-- `tss_set_stack` changes one word. -/
theorem Installed.setStack (hL : L.Valid) (h : Installed L labels stack s m) (hs : stack' < 4294967296) :
    Installed L labels stack' s (tssSetStack L stack' m) := by
  obtain ⟨-, hgt, -, -, hti, -, -⟩ := hL.disjoint
  have hsame : ∀ x, x < L.tssEntry ∨ L.tssEntry + 104 ≤ x → tssSetStack L stack' m x = m x :=
    fun x hx ↦ setWord_of_ne (by omega)
  refine ⟨h.gdtr, h.idtr, h.tr, h.tss, fun i hi ↦ ?_, fun n hn ↦ ?_, fun k hk ↦ ?_⟩
  · rw [segmentAt_congr fun x hx hx' ↦ hsame x (by omega), h.segments i hi]
  · rw [gateAt_congr fun x hx hx' ↦ hsame x (by omega), h.gates n hn]
  · rw [tssSetStack, word_setWord hs (by decide), h.task k hk]
    unfold taskWord
    split_ifs <;> rfl

/-- The tables outlive the boot. -/
theorem Run.installed (hL : L.Valid) (hl : labels.Valid) (hr : Run L labels stack s m) :
    stack < 4294967296 ∧ Installed L labels stack s m := by
  induction hr with
  | @boot kernelStackPtr m m₁ s s₁ hs hboot =>
    obtain ⟨s', m', hok, hi⟩ := boot_installed hL hl hs m s
    obtain ⟨rfl, rfl⟩ := Prod.mk.inj (Except.ok.inj (hok.symm.trans hboot))
    exact ⟨hs, hi⟩
  | setStack _ hs ih => exact ⟨hs, ih.2.setStack hL hs⟩
  | store _ hsame ih => exact ⟨ih.1, ih.2.congr hsame⟩

section Loaded

/-- Addresses that the linker could have chosen. -/
def kernelLayout : Layout where
  gdtEntries := 0x10A000
  gdtPtr := 0x10A030
  tssEntry := 0x10A040
  idtEntries := 0x10A0C0
  idtPtr := 0x10A8C0

def kernelLabels : Labels where
  isr num := 0x101000 + 16 * (num % 32)
  irq num := 0x101200 + 16 * (num % 16)
  isr128 := 0x101300
  flush := 0x101400

theorem kernelLayout_valid : kernelLayout.Valid where
  apart := by decide
  gdtEntries := by decide
  gdtPtr := by decide
  tssEntry := by decide
  idtEntries := by decide
  idtPtr := by decide

theorem kernelLabels_valid : kernelLabels.Valid where
  entry v := by
    cases v with
    | isr num =>
      show 0x101000 + 16 * (num.val % 32) < 4294967296
      omega
    | irq num =>
      show 0x101200 + 16 * (num.val % 16) < 4294967296
      omega
    | syscall => decide
  flush := by decide

theorem exists_run (hs : stack < 4294967296) : ∃ s m, Run kernelLayout kernelLabels stack s m := by
  have s : System := ⟨⟨0, 0⟩, ⟨0, 0⟩, 0, ⟨0, 0⟩⟩
  obtain ⟨s', m', hboot, -⟩ := boot_installed kernelLayout_valid kernelLabels_valid hs (fun _ ↦ 0) s
  exact ⟨s', m', .boot hs hboot⟩

end Loaded

end KevOS.Protection
