import KevOS.Protection.Boot

namespace KevOS.Protection

open Lib.ByteMemory Lib.Privilege Function
open Interrupts.Stubs (Vector)

variable {L : Layout} {labels : Labels} {m : Bytes} {s : System} {n cpl stack selector offset : ℕ}
  {v : Vector}

section Lookup

theorem vectorOf_number (h : vectorOf n = some v) : v.number.toNat = n := by
  unfold vectorOf at h
  split_ifs at h with h32 h48 h128
  · obtain rfl := Option.some.inj h
    exact Nat.mod_eq_of_lt (show n < 4294967296 by omega)
  · obtain rfl := Option.some.inj h
    have hsum : 32 + (n - 32) = n := by omega
    rw [Vector.number, hsum]
    exact Nat.mod_eq_of_lt (show n < 4294967296 by omega)
  · obtain rfl := Option.some.inj h
    rw [h128]
    rfl

theorem vectorOf_syscall_iff : vectorOf n = some .syscall ↔ n = 128 := by
  constructor
  · intro h
    exact (vectorOf_number h).symm
  · rintro rfl
    rfl

namespace Installed

variable (h : Installed L labels stack s m)

include h

theorem segment? {i : ℕ} (hi : i < 6) (hs : selector / 8 = i) (ht : selector / 4 % 2 = 0) :
    s.segment? m selector = some (segmentOf L 0xEB i) := by
  rw [segment?_eq h.gdtr hi hs ht, h.segments i hi]

theorem entry? (hn : n < 256) : ∃ low high, s.idtr.entry? m n = some (low, high) ∧
    Gate.ofWords low high = gateOf labels n := by
  have hfit : 8 * n + 7 ≤ 2047 := by omega
  refine ⟨_, _, ?_, h.gates n hn⟩
  rw [h.idtr, Table.entry?, if_pos hfit]

theorem innerStack_eq (ext : ℕ) : innerStack s m 0 ext = .ok (0x10, stack) := by
  have hesp : word m (L.tssEntry + 4) = stack := h.task 1 (by decide)
  have hss : word m (L.tssEntry + 8) = 0x10 := h.task 2 (by decide)
  have hhalf : half m (L.tssEntry + 8) = 0x10 := by
    rw [word_eq_half] at hss
    have hlt := (m (L.tssEntry + 8)).toNat_lt
    have hlt' := (m (L.tssEntry + 8 + 1)).toNat_lt
    have hbound : half m (L.tssEntry + 8) < 65536 := by
      unfold half
      omega
    omega
  have hstack : stackSegment s m 0 0x10 ext (.fault 10) = .ok () := by
    rw [stackSegment, h.segment? (show 2 < 6 by decide) rfl rfl]
    simp [segmentOf, flat, writable, kind, dpl, present]
  unfold innerStack
  rw [h.tss]
  simp [hesp, hhalf, hstack]

/-- A gate into the kernel's code segment. -/
theorem enter_eq (hcpl : cpl = 0 ∨ cpl = 3) {access : ℕ} (ho : offset < 4294967296)
    (ha : kind access = interruptGate) (ext : ℕ) :
    enter s m cpl ⟨offset, 0x08, access⟩ ext =
      .ok ⟨0x08, offset, 0, if cpl = 0 then none else some (0x10, stack), true⟩ := by
  have hlast : ¬ (flat 0x9A).last < offset := by
    have hall : (flat 0x9A).last = 4294967295 := by decide
    omega
  have hcode : s.segment? m 0x08 = some (flat 0x9A) := h.segment? (show 1 < 6 by decide) rfl rfl
  have hkind : isCode (flat 0x9A).access = true ∧ dpl (flat 0x9A).access = 0 ∧
    present (flat 0x9A).access = true ∧ conforming (flat 0x9A).access = false := by decide
  obtain ⟨hcode', hdpl, hpresent, hconf⟩ := hkind
  unfold enter
  simp only [hcode]
  rcases hcpl with rfl | rfl
  · simp [hcode', hdpl, hpresent, hconf, hlast, ha]
  · simp [hcode', hdpl, hpresent, hconf, hlast, ha, h.innerStack_eq]

end Installed

end Lookup

section Gates

variable (h : Installed L labels stack s m) (hl : labels.Valid)

include h hl

/-- An exception or a device gets to the stub with its number, in ring 0, with interrupts disabled. -/
theorem deliver_stub (hcpl : cpl = 0 ∨ cpl = 3) (hn : n < 256) (hv : vectorOf n = some v) :
    deliver s m cpl false n =
      .ok ⟨0x08, labels.entry v, 0, if cpl = 0 then none else some (0x10, stack), true⟩ := by
  obtain ⟨low, high, hentry, hgate⟩ := h.entry? hn
  rw [gateOf, hv] at hgate
  dsimp only at hgate
  have haccess : (if v = .syscall then 0xEE else 0x8E) = 0xEE ∨ (if v = .syscall then 0xEE else 0x8E) = 0x8E :=
    ite_eq_or_eq _ _ _
  unfold deliver
  simp only [hentry, hgate]
  rcases haccess with ha | ha
  · rw [ha]
    simp [kind, present, interruptGate]
    exact h.enter_eq hcpl (hl.entry v) (by decide) 1
  · rw [ha]
    simp [kind, present, interruptGate]
    exact h.enter_eq hcpl (hl.entry v) (by decide) 1

omit hl in
theorem deliver_empty (software : Bool) (hn : n < 256) (hv : vectorOf n = none) :
    deliver s m cpl software n = .error (generalProtection (8 * n + 2 + if software then 0 else 1)) := by
  obtain ⟨low, high, hentry, hgate⟩ := h.entry? hn
  rw [gateOf, hv] at hgate
  dsimp only at hgate
  unfold deliver
  simp [hentry, hgate, kind, interruptGate, trapGate]

theorem deliver_syscall : deliver s m 3 true 128 = .ok ⟨0x08, labels.isr128, 0, some (0x10, stack), true⟩ := by
  obtain ⟨low, high, hentry, hgate⟩ := h.entry? (show 128 < 256 by decide)
  have hgate' : Gate.ofWords low high = ⟨labels.isr128, 0x08, 0xEE⟩ := hgate
  unfold deliver
  simp only [hentry, hgate']
  simp [kind, present, interruptGate, dpl]
  exact h.enter_eq (.inr rfl) (hl.entry .syscall) (by decide) 0

omit hl in
/-- The other gates are for ring 0. -/
theorem deliver_forbidden (hn : n < 256) (hv : vectorOf n = some v) (hne : v ≠ .syscall) :
    deliver s m 3 true n = .error (generalProtection (8 * n + 2)) := by
  obtain ⟨low, high, hentry, hgate⟩ := h.entry? hn
  rw [gateOf, hv] at hgate
  dsimp only at hgate
  rw [if_neg hne] at hgate
  unfold deliver
  simp [hentry, hgate, kind, dpl, interruptGate, trapGate]

end Gates

/-- In every state after the boot a program in ring 3 gets into the kernel by `int $0x80` and by no
other `int` instruction: these raise general protection faults, which the stub of vector 13 takes.
Exceptions and devices enter at the stub with their number, and ring 0 is entered from ring 3 on the
stack that was set last. -/
theorem run_deliver (hL : L.Valid) (hl : labels.Valid) (hr : Run L labels stack s m) (hn : n < 256) :
    (deliver s m 3 true n =
      if n = 128 then .ok ⟨0x08, labels.isr128, 0, some (0x10, stack), true⟩
      else .error (.fault 13 (8 * n + 2))) ∧
    ∀ cpl, cpl = 0 ∨ cpl = 3 → deliver s m cpl false n =
      match vectorOf n with
      | some v => .ok ⟨0x08, labels.entry v, 0, if cpl = 0 then none else some (0x10, stack), true⟩
      | none => .error (.fault 13 (8 * n + 3)) := by
  have h := (hr.installed hL hl).2
  refine ⟨?_, fun cpl hcpl ↦ ?_⟩
  · split_ifs with h128
    · rw [h128]
      exact deliver_syscall h hl
    · cases hv : vectorOf n with
      | none => exact deliver_empty h true hn hv
      | some v =>
        refine deliver_forbidden h hn hv ?_
        rintro rfl
        exact h128 (vectorOf_syscall_iff.mp hv)
  · cases hv : vectorOf n with
    | none => exact deliver_empty h false hn hv
    | some v => exact deliver_stub h hl hcpl hn hv

/-- Once the kernel has booted, `int $3` of a program is a general protection fault. -/
theorem run_deliver_breakpoint : ∃ s m, Run kernelLayout kernelLabels 0x200000 s m ∧
    deliver s m 3 true 3 = .error (.fault 13 26) := by
  obtain ⟨s, m, hr⟩ := exists_run (show 0x200000 < 4294967296 by decide)
  exact ⟨s, m, hr, (run_deliver kernelLayout_valid kernelLabels_valid hr (show 3 < 256 by decide)).1⟩

end KevOS.Protection
