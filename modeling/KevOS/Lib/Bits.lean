import KevOS.Lib.ByteMemory
import Mathlib.Data.Nat.Bitwise

namespace KevOS.Lib.Bits

open Function ByteMemory

theorem lor_page {x y : ℕ} (hx : x % 4096 = 0) (hy : y < 4096) : x ||| y = x + y := by
  have h := Nat.two_pow_add_eq_or_of_lt (i := 12) hy (x / 4096)
  have hx' : 2 ^ 12 * (x / 4096) = x := by omega
  rw [hx'] at h
  exact h.symm

theorem land_two_pow_ne_zero (x k : ℕ) : x &&& 2 ^ k ≠ 0 ↔ x.testBit k = true := by
  rw [Nat.and_two_pow]
  cases x.testBit k <;> simp

theorem testBit_of_page {x k : ℕ} (hx : 4096 ∣ x) (hk : k < 12) : x.testBit k = false := by
  obtain ⟨c, rfl⟩ := hx
  rw [show 4096 = 2 ^ 12 from rfl, Nat.testBit_two_pow_mul, decide_eq_false (by omega),
    Bool.false_and]

theorem land_one (x : ℕ) : x &&& 1 = x % 2 := Nat.and_two_pow_sub_one_eq_mod x 1

/-- Rounding down to a multiple of 8, as a mask on a 32-bit number. -/
theorem land_align8 {x : ℕ} (hx : x < 4294967296) : x &&& 0xFFFFFFF8 = x / 8 * 8 := by
  have hm : (0xFFFFFFF8 : ℕ) = (2 ^ 29 - 1) <<< 3 := by decide
  have hx8 : x / 8 * 8 = (x / 2 ^ 3) <<< 3 := (Nat.shiftLeft_eq (x / 2 ^ 3) 3).symm
  apply Nat.eq_of_testBit_eq
  intro i
  rw [hm, Nat.testBit_and, Nat.testBit_shiftLeft, Nat.testBit_two_pow_sub_one,
    hx8, Nat.testBit_shiftLeft, Nat.testBit_div_two_pow]
  by_cases hi : 3 ≤ i
  · have hadd : i - 3 + 3 = i := by omega
    by_cases hi' : i - 3 < 29
    · simp [hi, hi', hadd]
    · have hz : x.testBit i = false :=
        Nat.testBit_lt_two_pow (hx.trans_le (Nat.pow_le_pow_right (n := 2) (by decide) (show 32 ≤ i by omega)))
      simp [hi, hi', hadd, hz]
  · simp [hi]

/-- The mask of one bit within its byte. -/
def bitMask (i : ℕ) : UInt8 := UInt8.ofNat (1 <<< (i % 8))

/-- Bit `i` of the bit array that starts at byte `base`. -/
def bitAt (m : Bytes) (base i : ℕ) : Bool := (m (base + i / 8)).toNat.testBit (i % 8)

def setBit (m : Bytes) (base i : ℕ) : Bytes :=
  update m (base + i / 8) (m (base + i / 8) ||| bitMask i)

def clearBit (m : Bytes) (base i : ℕ) : Bytes :=
  update m (base + i / 8) (m (base + i / 8) &&& ~~~bitMask i)

theorem bitMask_toNat (i : ℕ) : (bitMask i).toNat = 2 ^ (i % 8) := by
  have h : 2 ^ (i % 8) < 2 ^ 8 := Nat.pow_lt_pow_right (by decide) (Nat.mod_lt _ (by decide))
  rw [bitMask, UInt8.toNat_ofNat', Nat.one_shiftLeft, Nat.mod_eq_of_lt h]

theorem land_bitMask_eq_zero (b : UInt8) (i : ℕ) :
    b &&& bitMask i = 0 ↔ b.toNat.testBit (i % 8) = false := by
  rw [← UInt8.toNat_inj, UInt8.toNat_and, bitMask_toNat, Nat.and_two_pow]
  cases b.toNat.testBit (i % 8) <;> simp

theorem testBit_lor_bitMask (b : UInt8) (i j : ℕ) :
    (b ||| bitMask i).toNat.testBit (j % 8) = (b.toNat.testBit (j % 8) || decide (i % 8 = j % 8)) := by
  rw [UInt8.toNat_or, bitMask_toNat, Nat.testBit_or, Nat.testBit_two_pow]

theorem testBit_land_not_bitMask (b : UInt8) (i j : ℕ) :
    (b &&& ~~~bitMask i).toNat.testBit (j % 8) =
      (b.toNat.testBit (j % 8) && !decide (i % 8 = j % 8)) := by
  have hlt : 2 ^ (i % 8) < 2 ^ 8 := Nat.pow_lt_pow_right (by decide) (Nat.mod_lt _ (by decide))
  have hnot : (~~~bitMask i).toNat = 2 ^ 8 - (2 ^ (i % 8) + 1) := by
    rw [UInt8.toNat_not, bitMask_toNat]
    simp only [UInt8.size]
    omega
  rw [UInt8.toNat_and, hnot, Nat.testBit_and, Nat.testBit_two_pow_sub_succ hlt, Nat.testBit_two_pow,
    decide_eq_true (Nat.mod_lt j (by decide)), Bool.true_and]

theorem bitAt_setBit (m : Bytes) (base i j : ℕ) :
    bitAt (setBit m base i) base j = (bitAt m base j || decide (i = j)) := by
  unfold bitAt setBit
  by_cases h : i / 8 = j / 8
  · rw [h, update_self, testBit_lor_bitMask]
    congr 2
    exact propext (by omega)
  · rw [update_of_ne (by omega), decide_eq_false (by rintro rfl; exact h rfl), Bool.or_false]

theorem bitAt_clearBit (m : Bytes) (base i j : ℕ) :
    bitAt (clearBit m base i) base j = (bitAt m base j && !decide (i = j)) := by
  unfold bitAt clearBit
  by_cases h : i / 8 = j / 8
  · rw [h, update_self, testBit_land_not_bitMask]
    congr 3
    exact propext (by omega)
  · rw [update_of_ne (by omega), decide_eq_false (by rintro rfl; exact h rfl), Bool.not_false,
      Bool.and_true]

theorem bitAt_congr {m m' : Bytes} {base i : ℕ} (h : m' (base + i / 8) = m (base + i / 8)) :
    bitAt m' base i = bitAt m base i := by
  unfold bitAt
  rw [h]

theorem bitAt_fill_ones {m : Bytes} {base n i : ℕ} (h : i < 8 * n) :
    bitAt (fill m base 0xFF n) base i = true := by
  unfold bitAt
  rw [fill_of_lt (by omega) (by omega)]
  have hones : (0xFF : UInt8).toNat = 2 ^ 8 - 1 := rfl
  rw [hones, Nat.testBit_two_pow_sub_one, decide_eq_true (Nat.mod_lt i (by decide))]

end KevOS.Lib.Bits
