import KevOS.Lib.ByteMemory
import KevOS.Lib.Loop

namespace KevOS.Lib.ByteString

open ByteMemory Loop Function

variable {α : Type*} {m m' : Bytes} {a n : ℕ} {xs ys s : List UInt8}

/-- The bytes `xs` lie in memory from `a` on. -/
def At (m : Bytes) (a : ℕ) (xs : List UInt8) : Prop := ∀ j (h : j < xs.length), m (a + j) = xs[j]

theorem at_append : At m a (xs ++ ys) ↔ At m a xs ∧ At m (a + xs.length) ys := by
  constructor
  · intro h
    refine ⟨fun j hj ↦ ?_, fun j hj ↦ ?_⟩
    · rw [h j (by rw [List.length_append]; omega), List.getElem_append_left hj]
    · rw [Nat.add_assoc, h (xs.length + j) (by rw [List.length_append]; omega),
        List.getElem_append_right (Nat.le_add_right _ _)]
      simp only [Nat.add_sub_cancel_left]
  · rintro ⟨hx, hy⟩ j hj
    rw [List.length_append] at hj
    by_cases hlt : j < xs.length
    · rw [hx j hlt, List.getElem_append_left hlt]
    · have hle : xs.length ≤ j := Nat.le_of_not_lt hlt
      have haddr : a + j = a + xs.length + (j - xs.length) := by omega
      rw [haddr, hy (j - xs.length) (by omega), List.getElem_append_right hle]

theorem At.congr (h : At m a xs) (hsame : ∀ b, a ≤ b → b < a + xs.length → m' b = m b) : At m' a xs :=
  fun j hj ↦ (hsame _ (Nat.le_add_right a j) (Nat.add_lt_add_left hj a)).trans (h j hj)

/-- One of many blocks of bytes that follow each other. -/
theorem At.flatMap {f : α → List UInt8} {l r : List α} {x : α} (h : At m a ((l ++ x :: r).flatMap f)) :
    At m (a + (l.flatMap f).length) (f x) := by
  rw [List.flatMap_append, List.flatMap_cons, at_append, at_append] at h
  exact h.2.1

/-- A 32-bit number as it lies in memory. -/
def le32 (v : ℕ) : List UInt8 :=
  [UInt8.ofNat v, UInt8.ofNat (v / 256), UInt8.ofNat (v / 65536), UInt8.ofNat (v / 16777216)]

@[simp] theorem le32_length (v : ℕ) : (le32 v).length = 4 := rfl

theorem At.word {v : ℕ} (h : At m a (le32 v)) (hv : v < 4294967296) : word m a = v := by
  have h₀ : m a = UInt8.ofNat v := h 0 (by simp)
  have h₁ : m (a + 1) = UInt8.ofNat (v / 256) := h 1 (by simp)
  have h₂ : m (a + 2) = UInt8.ofNat (v / 65536) := h 2 (by simp)
  have h₃ : m (a + 3) = UInt8.ofNat (v / 16777216) := h 3 (by simp)
  rw [ByteMemory.word, h₀, h₁, h₂, h₃]
  simp only [UInt8.toNat_ofNat']
  omega

/-- A string in memory up to its terminator, which is looked for in the first `fuel` bytes. -/
def readString (m : Bytes) : ℕ → ℕ → Option (List UInt8)
  | 0, _ => none
  | fuel + 1, a => if m a = 0 then some [] else (readString m fuel (a + 1)).map (m a :: ·)

theorem readString_of_at {fuel : ℕ} (h : At m a (s ++ [0])) (hs : 0 ∉ s) (hfuel : s.length < fuel) :
    readString m fuel a = some s := by
  induction s generalizing a fuel with
  | nil =>
    obtain ⟨fuel, rfl⟩ := Nat.exists_eq_add_of_lt hfuel
    exact if_pos (h 0 (Nat.zero_lt_one))
  | cons c s ih =>
    cases fuel with
    | zero => contradiction
    | succ fuel =>
      rw [List.mem_cons, not_or] at hs
      rw [List.length_cons] at hfuel
      have hc : m a = c := h 0 (Nat.zero_lt_succ _)
      have htail : At m (a + 1) (s ++ [0]) := by
        have happ : At m a ([c] ++ (s ++ [0])) := h
        exact (at_append.mp happ).2
      rw [readString, if_neg (by rw [hc]; exact Ne.symm hs.1), ih htail hs.2 (by omega), hc]
      rfl

def memcpy (m : Bytes) (dst src n : ℕ) : Bytes :=
  forRange (fun i m ↦ update m (dst + i) (m (src + i))) n m

theorem memcpy_of_ne {dst src b : ℕ} (h : b < dst ∨ dst + n ≤ b) : memcpy m dst src n b = m b := by
  induction n with
  | zero => rfl
  | succ n ih =>
    rw [memcpy, forRange, ← memcpy, update_of_ne (by omega)]
    exact ih (by omega)

theorem memcpy_apply {dst src j : ℕ} (h : dst + n ≤ src ∨ src + n ≤ dst) (hj : j < n) :
    memcpy m dst src n (dst + j) = m (src + j) := by
  induction n with
  | zero => contradiction
  | succ n ih =>
    rw [memcpy, forRange, ← memcpy]
    by_cases hlast : j = n
    · subst hlast
      rw [update_self, memcpy_of_ne (by omega)]
    · rw [update_of_ne (by omega)]
      exact ih (by omega) (by omega)

end KevOS.Lib.ByteString
