import KevOS.Protection.Model
import Mathlib.Tactic.IntervalCases

namespace KevOS.Protection

open Lib.ByteMemory Lib.Privilege Lib.Loop Function
open Interrupts.Stubs (Vector)

variable {m m' : Bytes} {g t i n num base limit access gran sel flags x : ℕ}

def segmentAt (m : Bytes) (gdtEntries i : ℕ) : Segment :=
  .ofWords (word m (gdtEntries + 8 * i)) (word m (gdtEntries + 8 * i + 4))

def gateAt (m : Bytes) (idtEntries n : ℕ) : Gate :=
  .ofWords (word m (idtEntries + 8 * n)) (word m (idtEntries + 8 * n + 4))

section Entries

theorem segmentAt_congr (h : ∀ x, g + 8 * i ≤ x → x < g + 8 * i + 8 → m' x = m x) :
    segmentAt m' g i = segmentAt m g i := by
  unfold segmentAt
  rw [word_congr fun x hx hx' ↦ h x hx (by omega), word_congr fun x hx hx' ↦ h x (by omega) (by omega)]

theorem gateAt_congr (h : ∀ x, t + 8 * n ≤ x → x < t + 8 * n + 8 → m' x = m x) :
    gateAt m' t n = gateAt m t n := by
  unfold gateAt
  rw [word_congr fun x hx hx' ↦ h x hx (by omega), word_congr fun x hx hx' ↦ h x (by omega) (by omega)]

theorem land_high_nibble (v : ℕ) : v &&& 0xF0 = v / 16 % 16 * 16 := by
  have h : v &&& 0xF0 = (v / 16 % 2 ^ 4) <<< 4 := by
    apply Nat.eq_of_testBit_eq
    intro i
    rw [show 0xF0 = (2 ^ 4 - 1) <<< 4 from rfl, show 16 = 2 ^ 4 from rfl, Nat.testBit_and,
      Nat.testBit_shiftLeft, Nat.testBit_shiftLeft, Nat.testBit_mod_two_pow, Nat.testBit_div_two_pow,
      Nat.testBit_two_pow_sub_one]
    by_cases hi : 4 ≤ i
    · simp [hi, Bool.and_comm]
    · simp [hi]
  calc
    v &&& 0xF0 = (v / 16 % 2 ^ 4) <<< 4 := h
    _ = v / 16 % 2 ^ 4 * 2 ^ 4 := Nat.shiftLeft_eq _ _
    _ = v / 16 % 16 * 16 := rfl

/-- The two halves of the byte `granularity` do not meet. -/
theorem granularity_eq (limit gran : ℕ) :
    (UInt8.ofNat ((limit >>> 16) &&& 0x0F) ||| UInt8.ofNat (gran &&& 0xF0)).toNat =
      limit / 65536 % 16 + gran / 16 % 16 * 16 := by
  have hlow : (limit >>> 16) &&& 0x0F = limit / 65536 % 16 := by
    rw [Nat.shiftRight_eq_div_pow]
    exact Nat.and_two_pow_sub_one_eq_mod _ 4
  have hor := Nat.two_pow_add_eq_or_of_lt (i := 4) (Nat.mod_lt (limit / 65536) (by decide)) (gran / 16 % 16)
  have hl : limit / 65536 % 16 % 2 ^ 8 = limit / 65536 % 16 := by omega
  have hg : gran / 16 % 16 * 16 % 2 ^ 8 = gran / 16 % 16 * 16 := by omega
  rw [UInt8.toNat_or, UInt8.toNat_ofNat', UInt8.toNat_ofNat', hlow, land_high_nibble, hl, hg, Nat.or_comm,
    Nat.mul_comm, ← hor]
  omega

theorem land_half (v : ℕ) : v &&& 0xFFFF = v % 65536 := Nat.and_two_pow_sub_one_eq_mod v 16

theorem land_byte (v : ℕ) : v &&& 0xFF = v % 256 := Nat.and_two_pow_sub_one_eq_mod v 8

theorem gdtSetGate_of_ne (h : x < g + 8 * num ∨ g + 8 * num + 8 ≤ x) :
    gdtSetGate g num base limit access gran m x = m x := by
  unfold gdtSetGate
  rw [update_of_ne (by omega), update_of_ne (by omega), update_of_ne (by omega), setHalf_of_ne (by omega),
    update_of_ne (by omega), update_of_ne (by omega), setHalf_of_ne (by omega)]

/-- The fields of a descriptor from the bytes of its upper half. -/
theorem segment_ofWords {l b₀ b₁ b₂ b₃ : ℕ} (h₀ : b₀ < 256) (h₁ : b₁ < 256) (h₂ : b₂ < 256) :
    Segment.ofWords l (b₀ + 256 * b₁ + 65536 * b₂ + 16777216 * b₃) =
      ⟨l / 65536 + b₀ * 65536 + b₃ * 16777216, l % 65536 + b₂ % 16 * 65536, b₁, b₂ / 16 + 16 * b₃ % 16⟩ := by
  rw [Segment.ofWords, Segment.mk.injEq]
  refine ⟨?_, ?_, ?_, ?_⟩ <;> omega

/-- The entry as the processor reads it. -/
theorem segmentAt_gdtSetGate_self (hb : base < 4294967296) (ha : access < 256) (hg : gran < 256) :
    segmentAt (gdtSetGate g num base limit access gran m) g num =
      ⟨base, limit % 1048576, access, gran / 16⟩ := by
  set e := g + 8 * num with he
  set m' := gdtSetGate g num base limit access gran m with hm
  have hlow : word m' e = limit % 65536 + 65536 * (base % 65536) := by
    simp [hm, gdtSetGate, setHalf, word, ← he, land_half]
    omega
  have h₄ : (m' (e + 4)).toNat = base / 65536 % 256 := by
    simp [hm, gdtSetGate, setHalf, ← he, land_byte, Nat.shiftRight_eq_div_pow]
  have h₅ : (m' (e + 5)).toNat = access := by
    simp [hm, gdtSetGate, ← he, ha]
  have h₆ : (m' (e + 6)).toNat = limit / 65536 % 16 + gran / 16 * 16 := by
    have heq := granularity_eq limit gran
    rw [Nat.mod_eq_of_lt (show gran / 16 < 16 by omega)] at heq
    rw [← heq]
    simp [hm, gdtSetGate, ← he]
  have h₇ : (m' (e + 7)).toNat = base / 16777216 := by
    simp [hm, gdtSetGate, setHalf, ← he, land_byte, Nat.shiftRight_eq_div_pow]
    omega
  have hhigh : word m' (e + 4) = base / 65536 % 256 + 256 * access +
      65536 * (limit / 65536 % 16 + gran / 16 * 16) + 16777216 * (base / 16777216) := by
    rw [← h₄, ← h₅, ← h₆, ← h₇]
    rfl
  rw [segmentAt, ← he, hlow, hhigh, segment_ofWords (by omega) ha (by omega), Segment.mk.injEq]
  refine ⟨?_, ?_, rfl, ?_⟩ <;> omega

theorem segmentAt_gdtSetGate (hb : base < 4294967296) (ha : access < 256) (hg : gran < 256) :
    segmentAt (gdtSetGate g num base limit access gran m) g i =
      if i = num then ⟨base, limit % 1048576, access, gran / 16⟩ else segmentAt m g i := by
  split_ifs with h
  · rw [h]
    exact segmentAt_gdtSetGate_self hb ha hg
  · apply segmentAt_congr
    intro x hx hx'
    apply gdtSetGate_of_ne
    omega

theorem idtSetGate_of_ne (h : x < t + 8 * (num % 256) ∨ t + 8 * (num % 256) + 8 ≤ x) :
    idtSetGate t num base sel flags m x = m x := by
  unfold idtSetGate
  rw [update_of_ne (by omega), update_of_ne (by omega), setHalf_of_ne (by omega), setHalf_of_ne (by omega),
    setHalf_of_ne (by omega)]

theorem gateAt_idtSetGate (hb : base < 4294967296) (hs : sel < 65536) (hf : flags < 256) :
    gateAt (idtSetGate t num base sel flags m) t n =
      if n = num % 256 then ⟨base, sel, flags⟩ else gateAt m t n := by
  split_ifs with h
  · subst h
    set e := t + 8 * (num % 256) with he
    have hlow : word (idtSetGate t num base sel flags m) e = base % 65536 + 65536 * sel := by
      simp [idtSetGate, setHalf, word, Nat.add_assoc, ← he, land_half]
      omega
    have hhigh : word (idtSetGate t num base sel flags m) (e + 4) =
        256 * flags + 65536 * (base / 65536 % 65536) := by
      simp [idtSetGate, setHalf, word, ← he, land_half, Nat.shiftRight_eq_div_pow]
      omega
    rw [gateAt, ← he, hlow, hhigh, Gate.ofWords, Gate.mk.injEq]
    refine ⟨?_, ?_, ?_⟩ <;> omega
  · apply gateAt_congr
    intro x hx hx'
    apply idtSetGate_of_ne
    omega

theorem gateAt_forRange {k c : ℕ} {f : ℕ → ℕ} (hf : ∀ i < c, f i < 4294967296) (hk : k + c ≤ 256)
    (hs : sel < 65536) (hl : flags < 256) :
    gateAt (forRange (fun i ↦ idtSetGate t (k + i) (f i) sel flags) c m) t n =
      if k ≤ n ∧ n < k + c then ⟨f (n - k), sel, flags⟩ else gateAt m t n := by
  induction c with
  | zero => rw [if_neg (by omega), forRange]
  | succ c ih =>
    rw [forRange, gateAt_idtSetGate (hf c (Nat.lt_succ_self c)) hs hl, Nat.mod_eq_of_lt (by omega),
      ih (fun i hi ↦ hf i (by omega)) (by omega)]
    by_cases hn : n = k + c
    · rw [if_pos hn, if_pos (by omega), hn, Nat.add_sub_cancel_left]
    · rw [if_neg hn]
      exact if_congr (by omega) rfl rfl

theorem forRange_idtSetGate_of_ne {k c : ℕ} {f : ℕ → ℕ} (h : x < t ∨ t + 2048 ≤ x) :
    forRange (fun i ↦ idtSetGate t (k + i) (f i) sel flags) c m x = m x := by
  induction c with
  | zero => rfl
  | succ c ih => rw [forRange, idtSetGate_of_ne (by omega), ih]

theorem access_eq : (m (g + 8 * i + 5)).toNat = (segmentAt m g i).access := by
  have h₀ := (m (g + 8 * i + 4)).toNat_lt
  have h₁ := (m (g + 8 * i + 5)).toNat_lt
  have h₂ := (m (g + 8 * i + 6)).toNat_lt
  have hword : word m (g + 8 * i + 4) = (m (g + 8 * i + 4)).toNat + 256 * (m (g + 8 * i + 5)).toNat +
    65536 * (m (g + 8 * i + 6)).toNat + 16777216 * (m (g + 8 * i + 7)).toNat := rfl
  rw [segmentAt, hword, segment_ofWords h₀ h₁ h₂]

theorem segmentAt_update {v : UInt8} : segmentAt (update m (g + 8 * i + 5) v) g i =
    { segmentAt m g i with access := v.toNat } := by
  have h₀ := (m (g + 8 * i + 4)).toNat_lt
  have h₁ := (m (g + 8 * i + 5)).toNat_lt
  have h₂ := (m (g + 8 * i + 6)).toNat_lt
  have hword (m : Bytes) : word m (g + 8 * i + 4) = (m (g + 8 * i + 4)).toNat +
    256 * (m (g + 8 * i + 5)).toNat + 65536 * (m (g + 8 * i + 6)).toNat +
    16777216 * (m (g + 8 * i + 7)).toNat := rfl
  rw [segmentAt, segmentAt, word_update_of_ne (by omega), hword, hword, update_self, update_of_ne (by omega),
    update_of_ne (by omega), update_of_ne (by omega), segment_ofWords h₀ v.toNat_lt h₂, segment_ofWords h₀ h₁ h₂]

end Entries

section Contents

variable {L : Layout} {labels : Labels} {stack stack' kernelStackPtr : ℕ} {s s' : System} {a v : ℕ}

/-- A segment of 4 GiB from 0 on. -/
def flat (access : ℕ) : Segment := ⟨0, 0xFFFFF, access, 0xC⟩

/-- `gdt_entries`, with the access byte of the task state segment. -/
def segmentOf (L : Layout) (access : ℕ) : ℕ → Segment
  | 1 => flat 0x9A
  | 2 => flat 0x92
  | 3 => flat 0xFA
  | 4 => flat 0xF2
  | 5 => ⟨L.tssEntry, 103, access, 0⟩
  | _ => ⟨0, 0, 0, 0⟩

/-- `idt_entries`. -/
def gateOf (labels : Labels) (n : ℕ) : Gate :=
  match vectorOf n with
  | some v => ⟨labels.entry v, 0x08, if v = .syscall then 0xEE else 0x8E⟩
  | none => ⟨0, 0, 0⟩

/-- The word of `tss_entry` at the offset `a`. -/
def taskWord (stack a : ℕ) : ℕ :=
  if a = 4 then stack
  else if a = 8 then 0x10
  else if a = 76 then 0x0B
  else if a ∈ [72, 80, 84, 88, 92] then 0x13
  else 0

/-- The tables that the boot has set up, with `stack` in `esp0`. -/
structure Installed (L : Layout) (labels : Labels) (stack : ℕ) (s : System) (m : Bytes) : Prop where
  gdtr : s.gdtr = ⟨L.gdtEntries, 47⟩
  idtr : s.idtr = ⟨L.idtEntries, 2047⟩
  tr : s.tr = gdtTssSegment
  tss : s.tss = ⟨L.tssEntry, 103⟩
  segments : ∀ i < 6, segmentAt m L.gdtEntries i = segmentOf L 0xEB i
  gates : ∀ n < 256, gateAt m L.idtEntries n = gateOf labels n
  task : ∀ k < 26, word m (L.tssEntry + 4 * k) = taskWord stack (4 * k)

theorem Installed.congr (h : Installed L labels stack s m) (hm : ∀ x, L.InTables x → m' x = m x) :
    Installed L labels stack s m' where
  gdtr := h.gdtr
  idtr := h.idtr
  tr := h.tr
  tss := h.tss
  segments i hi := by
    rw [segmentAt_congr fun x hx hx' ↦ hm x (.inl (by omega)), h.segments i hi]
  gates n hn := by
    rw [gateAt_congr fun x hx hx' ↦ hm x (.inr (.inr (by omega))), h.gates n hn]
  task k hk := by
    rw [word_congr fun x hx hx' ↦ hm x (.inr (.inl (by omega))), h.task k hk]

theorem Layout.Valid.disjoint (hL : L.Valid) :
    (L.gdtEntries + 48 ≤ L.gdtPtr ∨ L.gdtPtr + 6 ≤ L.gdtEntries) ∧
    (L.gdtEntries + 48 ≤ L.tssEntry ∨ L.tssEntry + 104 ≤ L.gdtEntries) ∧
    (L.gdtEntries + 48 ≤ L.idtEntries ∨ L.idtEntries + 2048 ≤ L.gdtEntries) ∧
    (L.gdtEntries + 48 ≤ L.idtPtr ∨ L.idtPtr + 6 ≤ L.gdtEntries) ∧
    (L.tssEntry + 104 ≤ L.idtEntries ∨ L.idtEntries + 2048 ≤ L.tssEntry) ∧
    (L.tssEntry + 104 ≤ L.idtPtr ∨ L.idtPtr + 6 ≤ L.tssEntry) ∧
    (L.idtEntries + 2048 ≤ L.idtPtr ∨ L.idtPtr + 6 ≤ L.idtEntries) := by
  have h := hL.apart
  simp only [List.pairwise_cons, List.forall_mem_cons] at h
  exact ⟨h.1.1, h.1.2.1, h.1.2.2.1, h.1.2.2.2.1, h.2.2.1.1, h.2.2.1.2.1, h.2.2.2.1.1⟩

theorem segmentAt_gdtInstall (hL : L.Valid) (hi : i < 6) :
    segmentAt (gdtInstall L m) L.gdtEntries i = segmentOf L 0xE9 i := by
  have htss := hL.tssEntry
  unfold gdtInstall
  rw [segmentAt_gdtSetGate (by omega) (by decide) (by decide)]
  simp (disch := decide) only [segmentAt_gdtSetGate]
  interval_cases i <;> rfl

theorem tableAt_written {p base limit : ℕ} {m' : Bytes} (hb : base < 4294967296) (hl : limit < 65536)
    (hm : ∀ x, p ≤ x → x < p + 6 → m' x = setWord (setHalf m p limit) (p + 2) base x) :
    tableAt m' p = ⟨base, limit⟩ := by
  have hbase : word m' (p + 2) = base := by
    rw [word_congr fun x hx hx' ↦ hm x (by omega) (by omega), word_setWord_self hb]
  have hlimit : half m' p = limit := by
    rw [half_congr fun x hx hx' ↦ (hm x hx (by omega)).trans (setWord_of_ne (by omega)),
      half_setHalf_self hl]
  rw [tableAt, hbase, hlimit]

theorem tableAt_gdtInstall (hL : L.Valid) : tableAt (gdtInstall L m) L.gdtPtr = ⟨L.gdtEntries, 47⟩ := by
  have hg := hL.gdtEntries
  have happart := hL.disjoint.1
  refine tableAt_written (m := m) (by omega) (by decide) fun x hx hx' ↦ ?_
  unfold gdtInstall
  rw [gdtSetGate_of_ne (by omega), gdtSetGate_of_ne (by omega), gdtSetGate_of_ne (by omega),
    gdtSetGate_of_ne (by omega), gdtSetGate_of_ne (by omega), gdtSetGate_of_ne (by omega)]

theorem tssFields_of_ne (h : x < L.tssEntry ∨ L.tssEntry + 104 ≤ x) :
    tssFields L stack m x = m x := by
  unfold tssFields
  rw [setWord_of_ne (by omega), setWord_of_ne (by omega), setWord_of_ne (by omega), setWord_of_ne (by omega),
    setWord_of_ne (by omega), setWord_of_ne (by omega), setWord_of_ne (by omega), setWord_of_ne (by omega),
    fill_of_ne (by unfold tssSize; omega)]

theorem word_setWord {k : ℕ} (hv : v < 4294967296) (ha : a % 4 = 0) :
    word (setWord m (t + a) v) (t + 4 * k) = if 4 * k = a then v else word m (t + 4 * k) := by
  split_ifs with h
  · rw [h, word_setWord_self hv]
  · exact word_setWord_of_ne (by omega)

theorem word_tssFields (hs : stack < 4294967296) {k : ℕ} (hk : k < 26) :
    word (tssFields L stack m) (L.tssEntry + 4 * k) = taskWord stack (4 * k) := by
  unfold tssFields
  rw [word_setWord (by decide) (by decide), word_setWord (by decide) (by decide),
    word_setWord (by decide) (by decide), word_setWord (by decide) (by decide),
    word_setWord (by decide) (by decide), word_setWord (by decide) (by decide), word_setWord hs (by decide),
    word_setWord (by decide) (by decide), word_fill_zero (by omega) (by unfold tssSize; omega)]
  interval_cases k <;> rfl

/-- The loops of `idt_install`, counted from 0. -/
theorem forRange_zero_add (f : ℕ → ℕ) (c : ℕ) :
    forRange (fun i ↦ idtSetGate t i (f i) sel flags) c m =
      forRange (fun i ↦ idtSetGate t (0 + i) (f i) sel flags) c m := by
  simp only [Nat.zero_add]

theorem idtInstall_of_ne (h : x < L.idtEntries ∨ L.idtEntries + 2048 ≤ x) :
    idtInstall L labels m x = setWord (setHalf m L.idtPtr 2047) (L.idtPtr + 2) L.idtEntries x := by
  unfold idtInstall
  rw [idtSetGate_of_ne (by omega), forRange_idtSetGate_of_ne h, forRange_zero_add,
    forRange_idtSetGate_of_ne h, forRange_zero_add (fun _ ↦ 0), forRange_idtSetGate_of_ne h]

theorem tableAt_idtInstall (hL : L.Valid) :
    tableAt (idtInstall L labels m) L.idtPtr = ⟨L.idtEntries, 2047⟩ := by
  have hi := hL.idtEntries
  have happart := hL.disjoint.2.2.2.2.2.2
  exact tableAt_written (by omega) (by decide) fun x hx hx' ↦ idtInstall_of_ne (by omega)

theorem gateAt_idtInstall (hl : labels.Valid) {n : ℕ} (hn : n < 256) :
    gateAt (idtInstall L labels m) L.idtEntries n = gateOf labels n := by
  have hisr : ∀ i < 32, labels.isr i < 4294967296 := fun i hi ↦ hl.entry (.isr ⟨i, hi⟩)
  have hirq : ∀ i < 16, labels.irq i < 4294967296 := fun i hi ↦ hl.entry (.irq ⟨i, hi⟩)
  have hsyscall : labels.isr128 < 4294967296 := hl.entry .syscall
  unfold idtInstall
  rw [gateAt_idtSetGate hsyscall (by decide) (by decide),
    gateAt_forRange hirq (by decide) (by decide) (by decide), forRange_zero_add,
    gateAt_forRange hisr (by decide) (by decide) (by decide), forRange_zero_add (fun _ ↦ 0),
    gateAt_forRange (fun _ _ ↦ (by decide : 0 < 4294967296)) (by decide) (by decide) (by decide)]
  unfold gateOf vectorOf
  by_cases h128 : n = 128
  · subst h128
    rfl
  by_cases h32 : n < 32
  · simp [h128, h32, show ¬ 32 ≤ n by omega, Labels.entry]
  · by_cases h48 : n < 48
    · simp [h128, h32, h48, show 32 ≤ n by omega, show n - 32 < 16 by omega, Labels.entry]
    · simp [h128, h32, h48, hn, show ¬ n - 32 < 16 by omega]

end Contents

end KevOS.Protection
