import Mathlib.Logic.Function.Basic
import Mathlib.Logic.Function.Iterate
import Mathlib.Data.Nat.Notation
import Mathlib.Algebra.Order.Group.Nat

namespace KevOS.Lib.Pit8254

open Function

section Counting

/-- A counter in mode 3: what it has counted down to, its output, and whether it has just been loaded. -/
structure Counter where
  count : ℕ
  out : Bool
  fresh : Bool
  deriving DecidableEq, Repr

/-- A counter counts down by twos. For an odd reload value `n` the first step after a reload is by one or by three,
so that the output is high for one clock more than it is low. -/
def Counter.down (n : ℕ) (c : Counter) : ℕ :=
  if c.fresh ∧ n % 2 = 1 then (if c.out then 1 else 3) else 2

def Counter.clock (n : ℕ) (c : Counter) : Counter :=
  let count := (c.count + 65536 - c.down n) % 65536
  if count = 0 then ⟨n, !c.out, true⟩ else ⟨count, c.out, false⟩

/-- The counter after `t` clocks, from when it was loaded. -/
def wave (n t : ℕ) : Counter := (Counter.clock n)^[t] ⟨n, true, true⟩

/-- How often the output has gone from low to high within `t` clocks. -/
def edges (n t : ℕ) : ℕ :=
  ((List.range t).filter fun i ↦ (wave n i).out = false ∧ (wave n (i + 1)).out = true).length

end Counting

section Programming

/-- A channel as it has been programmed: its control word, the low byte of a count that is not complete, and
the count. -/
structure Channel where
  access : ℕ
  mode : ℕ
  bcd : Bool
  lowByte : Option UInt8
  count : Option ℕ
  deriving DecidableEq, Repr

/-- A control word. Without an access mode it latches the count for reading. -/
def Channel.control (v : UInt8) (c : Channel) : Channel :=
  if v.toNat / 16 % 4 = 0 then c
  else
    { access := v.toNat / 16 % 4
      mode := v.toNat / 2 % 8
      bcd := v.toNat % 2 = 1
      lowByte := none
      count := none }

def Channel.data (v : UInt8) (c : Channel) : Channel :=
  match c.access, c.lowByte with
  | 1, _ => { c with count := some v.toNat }
  | 2, _ => { c with count := some (256 * v.toNat) }
  | _, none => { c with lowByte := some v }
  | _, some low => { c with lowByte := none, count := some (low.toNat + 256 * v.toNat) }

/-- The three channels at the ports 0x40 to 0x42, and their control port. -/
abbrev Timer := ℕ → Channel

def Timer.write (port : ℕ) (v : UInt8) (t : Timer) : Timer :=
  if port = 0x43 then
    -- the channel 3 stands for a command to read back
    if v.toNat / 64 = 3 then t else update t (v.toNat / 64) ((t (v.toNat / 64)).control v)
  else update t (port - 0x40) ((t (port - 0x40)).data v)

/-- The reload value of a square wave. A count of one is not allowed. -/
def Channel.square (c : Channel) : Option ℕ :=
  if c.mode % 4 = 3 ∧ c.bcd = false ∧ c.count ≠ some 1 then
    c.count.map fun n ↦ if n = 0 then 65536 else n
  else none

end Programming

variable {n r t : ℕ} {c : Counter}

section Waves

theorem down_cases (n : ℕ) (c : Counter) : c.down n = 1 ∨ c.down n = 2 ∨ c.down n = 3 := by
  unfold Counter.down
  split_ifs <;> simp

theorem clock_of_lt (h : c.down n < c.count) (hmax : c.count ≤ 65536) :
    c.clock n = ⟨c.count - c.down n, c.out, false⟩ := by
  have hdown := down_cases n c
  have hcount : (c.count + 65536 - c.down n) % 65536 = c.count - c.down n := by omega
  unfold Counter.clock
  dsimp only
  rw [hcount, if_neg (by omega)]

theorem clock_of_eq (h : c.count = c.down n) : c.clock n = ⟨n, !c.out, true⟩ := by
  have hcount : (c.count + 65536 - c.down n) % 65536 = 0 := by omega
  unfold Counter.clock
  dsimp only
  rw [hcount, if_pos rfl]

/-- The counter at the place `r` of a period. -/
def phase (n r : ℕ) : Counter :=
  if r = 0 then ⟨n, true, true⟩
  else if r < (n + 1) / 2 then ⟨n + n % 2 - 2 * r, true, false⟩
  else if r = (n + 1) / 2 then ⟨n, false, true⟩
  else ⟨2 * n - 2 * r, false, false⟩

theorem phase_zero : phase n 0 = ⟨n, true, true⟩ := if_pos rfl

theorem phase_high (h0 : r ≠ 0) (hr : r < (n + 1) / 2) : phase n r = ⟨n + n % 2 - 2 * r, true, false⟩ := by
  rw [phase, if_neg h0, if_pos hr]

theorem phase_middle (hn : 2 ≤ n) : phase n ((n + 1) / 2) = ⟨n, false, true⟩ := by
  have hne : (n + 1) / 2 ≠ 0 := by omega
  rw [phase, if_neg hne, if_neg (Nat.lt_irrefl _), if_pos rfl]

theorem phase_low (hr : (n + 1) / 2 < r) : phase n r = ⟨2 * n - 2 * r, false, false⟩ := by
  have hne : r ≠ 0 := by omega
  rw [phase, if_neg hne, if_neg (Nat.lt_asymm hr), if_neg (Nat.ne_of_gt hr)]

theorem phase_out (hn : 2 ≤ n) : (phase n r).out = decide (r < (n + 1) / 2) := by
  unfold phase
  split_ifs with h0 hhigh hlow
  · exact (decide_eq_true (by omega)).symm
  · exact (decide_eq_true hhigh).symm
  · exact (decide_eq_false hhigh).symm
  · exact (decide_eq_false hhigh).symm

/-- The output is high at first, and then low. -/
theorem clock_phase (hn : 2 ≤ n) (hmax : n ≤ 65536) (hr : r < n) :
    (phase n r).clock n = phase n (if r + 1 = n then 0 else r + 1) := by
  have hpar := Nat.mod_two_eq_zero_or_one n
  rcases lt_trichotomy r ((n + 1) / 2) with hhigh | rfl | hlow
  · have hnext : r + 1 ≠ n ∨ n = 2 ∧ r = 1 := by omega
    have hstep : ∀ count fresh, phase n r = ⟨count, true, fresh⟩ →
        count - Counter.down n ⟨count, true, fresh⟩ = n + n % 2 - 2 * (r + 1) →
        Counter.down n ⟨count, true, fresh⟩ ≤ count → count ≤ 65536 →
        (phase n r).clock n = phase n (r + 1) := by
      intro count fresh hphase hcount hle hcountmax
      rw [hphase]
      rcases Nat.lt_or_ge (r + 1) ((n + 1) / 2) with hlt | hge
      · rw [phase_high (Nat.succ_ne_zero r) hlt, clock_of_lt (by dsimp only; omega) hcountmax, hcount]
      · have heq : r + 1 = (n + 1) / 2 := by omega
        rw [heq, phase_middle hn, clock_of_eq (by dsimp only; omega)]
        rfl
    rw [if_neg (by omega)]
    by_cases h0 : r = 0
    · subst h0
      have hdown : Counter.down n ⟨n, true, true⟩ = 2 - n % 2 := by
        rcases hpar with hpar | hpar <;> simp [Counter.down, hpar]
      exact hstep n true phase_zero (by rw [hdown]; omega) (by rw [hdown]; omega) hmax
    · have hdown : Counter.down n ⟨n + n % 2 - 2 * r, true, false⟩ = 2 := by simp [Counter.down]
      exact hstep _ false (phase_high h0 hhigh) (by rw [hdown]; omega) (by rw [hdown]; omega) (by omega)
  · have hdown : Counter.down n ⟨n, false, true⟩ = 2 + n % 2 := by
      rcases hpar with hpar | hpar <;> simp [Counter.down, hpar]
    rw [phase_middle hn]
    split_ifs with hlast
    · rw [phase_zero, clock_of_eq (by dsimp only; omega)]
      rfl
    · rw [phase_low (Nat.lt_succ_self _), clock_of_lt (by dsimp only; omega) hmax, hdown]
      dsimp only
      congr 1
      omega
  · have hdown : Counter.down n ⟨2 * n - 2 * r, false, false⟩ = 2 := by simp [Counter.down]
    rw [phase_low hlow]
    split_ifs with hlast
    · rw [phase_zero, clock_of_eq (by dsimp only; omega)]
      rfl
    · rw [phase_low (Nat.lt_succ_of_lt hlow), clock_of_lt (by dsimp only; omega) (by dsimp only; omega), hdown]
      rfl

theorem succ_mod (hn : 2 ≤ n) (t : ℕ) : (t + 1) % n = if t % n + 1 = n then 0 else t % n + 1 := by
  have hlt : t % n < n := Nat.mod_lt t (by omega)
  rw [Nat.add_mod, Nat.mod_eq_of_lt (show 1 < n by omega)]
  split_ifs with hlast
  · rw [hlast, Nat.mod_self]
  · exact Nat.mod_eq_of_lt (by omega)

/-- A period of `n` clocks. -/
theorem wave_eq (hn : 2 ≤ n) (hmax : n ≤ 65536) (t : ℕ) : wave n t = phase n (t % n) := by
  induction t with
  | zero =>
    rw [Nat.zero_mod, phase_zero]
    rfl
  | succ t ih =>
    have hstep : wave n (t + 1) = (wave n t).clock n := iterate_succ_apply' ..
    rw [hstep, ih, clock_phase hn hmax (Nat.mod_lt t (by omega)), succ_mod hn]

/-- The output goes high once in each period. -/
theorem edges_eq (hn : 2 ≤ n) (hmax : n ≤ 65536) (t : ℕ) : edges n t = t / n := by
  induction t with
  | zero => simp [edges]
  | succ t ih =>
    have hlt : t % n < n := Nat.mod_lt t (by omega)
    have hedge : ((wave n t).out = false ∧ (wave n (t + 1)).out = true) ↔ n ∣ t + 1 := by
      rw [wave_eq hn hmax, wave_eq hn hmax, phase_out hn, phase_out hn, Nat.dvd_iff_mod_eq_zero, succ_mod hn]
      simp only [decide_eq_true_eq, decide_eq_false_iff_not]
      split_ifs
      · omega
      · exact iff_of_false (by omega) id
    rw [edges, List.range_succ, List.filter_append, List.length_append, ← edges, ih, Nat.succ_div]
    by_cases h : n ∣ t + 1
    · have hfilter : [t].filter (fun i ↦ (wave n i).out = false ∧ (wave n (i + 1)).out = true) = [t] :=
        List.filter_eq_self.mpr (by simpa using hedge.mpr h)
      rw [hfilter, if_pos h, List.length_singleton]
    · have hfilter : [t].filter (fun i ↦ (wave n i).out = false ∧ (wave n (i + 1)).out = true) = [] := by
        simpa using fun hlow ↦ h (hedge.mp hlow)
      rw [hfilter, if_neg h, List.length_nil]

end Waves

end KevOS.Lib.Pit8254
