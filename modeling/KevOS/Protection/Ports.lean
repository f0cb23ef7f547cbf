import KevOS.Protection.Boot

namespace KevOS.Protection

open Lib.ByteMemory Lib.Privilege Function

variable {L : Layout} {labels : Labels} {m : Bytes} {s : System} {t i j k stack port iopl : ℕ}

/-- A bit of a word is a bit of one of its bytes. -/
theorem testBit_word (hj : j < 4) (hi : i < 8) :
    (word m t).testBit (8 * j + i) = (m (t + j)).toNat.testBit i := by
  have h₀ := (m t).toNat_lt
  have h₁ := (m (t + 1)).toNat_lt
  have h₂ := (m (t + 2)).toNat_lt
  have h₃ := (m (t + 3)).toNat_lt
  have hbyte : word m t / 2 ^ (8 * j) % 2 ^ 8 = (m (t + j)).toNat := by
    unfold word
    interval_cases j <;> simp <;> omega
  rw [← hbyte, Nat.testBit_mod_two_pow, Nat.testBit_div_two_pow, decide_eq_true hi, Bool.true_and,
    Nat.add_comm]

theorem half_bit_eq_zero (hi : i < 8) :
    half m t / 2 ^ i % 2 ^ 1 = 0 ↔ (m t).toNat.testBit i = false := by
  have h₀ := (m t).toNat_lt
  have hbyte : half m t % 2 ^ 8 = (m t).toNat := by
    unfold half
    omega
  have hbit : (half m t).testBit i = (m t).toNat.testBit i := by
    rw [← hbyte, Nat.testBit_mod_two_pow, decide_eq_true hi, Bool.true_and]
  rw [← hbit, Nat.testBit_eq_decide_div_mod_eq]
  simp

/-- The bits that are set in the fields of `tss_entry` other than `esp0`. -/
def blockedPorts : List ℕ :=
  [68, 576, 577, 580, 608, 609, 611, 640, 641, 644, 672, 673, 676, 704, 705, 708, 736, 737, 740]

theorem testBit_taskWord_zero : ∀ k < 26, k ≠ 1 → ∀ i < 32,
    (taskWord 0 (4 * k)).testBit i = decide (32 * k + i ∈ blockedPorts) := by decide +kernel

theorem testBit_taskWord (hk : k < 26) (hi : i < 32) : (taskWord stack (4 * k)).testBit i = true ↔
    (k = 1 ∧ stack.testBit i = true) ∨ 32 * k + i ∈ blockedPorts := by
  by_cases h1 : k = 1
  · have hnot : 32 * k + i ∉ blockedPorts := by
      simp [blockedPorts]
      omega
    subst h1
    simp [taskWord]
    exact fun hmem ↦ absurd hmem hnot
  · have h4 : ¬ 4 * k = 4 := by omega
    have hword : taskWord stack (4 * k) = taskWord 0 (4 * k) := by
      simp only [taskWord, if_neg h4]
    rw [hword, testBit_taskWord_zero k hk h1 i hi]
    simp [h1]

/-- The bitmap of `tss_entry` starts at the structure itself, so that a program in ring 3 may use each of
the ports 0 to 823 whose bit is not set there by chance: the controllers of the interrupts, the timer and
the keyboard are among them. -/
theorem run_ports (hL : L.Valid) (hl : labels.Valid) (hr : Run L labels stack s m) (hi : iopl < 3) (port : ℕ) :
    portAllowed s m 3 iopl port 1 = true ↔
      port < 824 ∧ port ∉ blockedPorts ∧ ¬ (port / 32 = 1 ∧ stack.testBit (port % 32) = true) := by
  have h := (hr.installed hL hl).2
  have hlevel : ¬ 3 ≤ iopl := by omega
  have hmap : half m (L.tssEntry + 102) = 0 := by
    have hword : word m (L.tssEntry + 100) = 0 := h.task 25 (by decide)
    rw [word_eq_half] at hword
    have hhalf : half m (L.tssEntry + 102) = half m (L.tssEntry + 100 + 2) := rfl
    omega
  unfold portAllowed
  simp only [h.tss, hmap, Nat.zero_add, decide_eq_true_eq, hlevel, false_or]
  by_cases hport : port < 824
  · have hk : port / 32 < 26 := by omega
    have hbits : 32 * (port / 32) + port % 32 = port := Nat.div_add_mod port 32
    have hsplit : 8 * (port / 8 % 4) + port % 8 = port % 32 := by omega
    have haddr : L.tssEntry + 4 * (port / 32) + port / 8 % 4 = L.tssEntry + port / 8 := by omega
    have hbit := testBit_word (m := m) (t := L.tssEntry + 4 * (port / 32)) (j := port / 8 % 4) (i := port % 8)
      (by omega) (by omega)
    rw [h.task _ hk, hsplit, haddr] at hbit
    have htask := @testBit_taskWord (port % 32) (port / 32) stack hk (by omega)
    rw [hbits, hbit] at htask
    rw [half_bit_eq_zero (by omega), ← Bool.not_eq_true, htask]
    constructor
    · rintro ⟨-, hnone⟩
      exact ⟨hport, fun hmem ↦ hnone (.inr hmem), fun hset ↦ hnone (.inl hset)⟩
    · rintro ⟨-, hmem, hset⟩
      refine ⟨by omega, fun hany ↦ ?_⟩
      exact hany.elim hset hmem
  · refine iff_of_false (fun hfit ↦ ?_) fun hfit ↦ hport hfit.1
    have hlimit := hfit.1
    omega

/-- A program can mask every interrupt, at port 0x21. -/
theorem run_ports_masks : ∃ s m, Run kernelLayout kernelLabels 0x200000 s m ∧ portAllowed s m 3 0 0x21 1 = true := by
  obtain ⟨s, m, hr⟩ := exists_run (show 0x200000 < 4294967296 by decide)
  exact ⟨s, m, hr, (run_ports kernelLayout_valid kernelLabels_valid hr (by decide) 0x21).mpr (by decide)⟩

end KevOS.Protection
