import Mathlib.Data.Nat.Notation
import Mathlib.Logic.Function.Basic

namespace KevOS.Lib.RingBuffer

open Function

variable {α : Type*} {n head tail j : ℕ} {slot : ℕ → α} {q : List α} {a : α}

/-- A ring of `n` slots that holds a queue from `tail` up to `head`. One slot stays unused,
so that a full ring differs from an empty one. -/
structure Holds (n : ℕ) (slot : ℕ → α) (head tail : ℕ) (q : List α) : Prop where
  tail_lt : tail < n
  length_lt : q.length < n
  head_eq : head = (tail + q.length) % n
  slots : ∀ j (h : j < q.length), slot ((tail + j) % n) = q[j]

theorem holds_nil (slot : ℕ → α) (h : tail < n) : Holds n slot tail tail [] where
  tail_lt := h
  length_lt := Nat.zero_lt_of_lt h
  head_eq := (Nat.mod_eq_of_lt h).symm
  slots _ hj := absurd hj (Nat.not_lt_zero _)

/-- Two places of the ring, counted from the tail, share no slot. -/
theorem slot_inj (ht : tail < n) {i j : ℕ} (hi : i < n) (hj : j < n)
    (h : (tail + i) % n = (tail + j) % n) : i = j := by
  have hwrap (k : ℕ) (hk : k < n) : (tail + k) % n = if tail + k < n then tail + k else tail + k - n := by
    split
    · exact Nat.mod_eq_of_lt ‹_›
    · rw [Nat.mod_eq_sub_mod (by omega), Nat.mod_eq_of_lt (by omega)]
  rw [hwrap i hi, hwrap j hj] at h
  split at h <;> split at h <;> omega

theorem Holds.head_lt (h : Holds n slot head tail q) : head < n := by
  rw [h.head_eq]
  exact Nat.mod_lt _ (Nat.zero_lt_of_lt h.tail_lt)

theorem Holds.next_head (h : Holds n slot head tail q) :
    (head + 1) % n = (tail + (q.length + 1)) % n := by
  rw [h.head_eq, Nat.mod_add_mod, Nat.add_assoc]

theorem Holds.empty_iff (h : Holds n slot head tail q) : head = tail ↔ q = [] := by
  have hzero := slot_inj h.tail_lt h.length_lt (Nat.zero_lt_of_lt h.tail_lt)
  rw [← h.head_eq, Nat.add_zero, Nat.mod_eq_of_lt h.tail_lt] at hzero
  constructor
  · intro heq
    exact List.length_eq_zero_iff.mp (hzero heq)
  · rintro rfl
    rw [h.head_eq, List.length_nil, Nat.add_zero, Nat.mod_eq_of_lt h.tail_lt]

theorem Holds.full_iff (h : Holds n slot head tail q) : (head + 1) % n = tail ↔ q.length + 1 = n := by
  have hlen := h.length_lt
  rw [h.next_head]
  constructor
  · intro heq
    by_contra hne
    have hinj := slot_inj h.tail_lt (i := q.length + 1) (j := 0) (by omega) (by omega)
    rw [Nat.add_zero tail, Nat.mod_eq_of_lt h.tail_lt] at hinj
    exact Nat.succ_ne_zero _ (hinj heq)
  · intro heq
    rw [heq, Nat.add_mod_right, Nat.mod_eq_of_lt h.tail_lt]

theorem Holds.push (h : Holds n slot head tail q) (hfull : (head + 1) % n ≠ tail) (a : α) :
    Holds n (update slot head a) ((head + 1) % n) tail (q ++ [a]) := by
  have hlen := h.length_lt
  have hroom : q.length + 1 ≠ n := mt h.full_iff.mpr hfull
  refine ⟨h.tail_lt, ?_, ?_, fun j hj ↦ ?_⟩
  · rw [List.length_append, List.length_singleton]
    omega
  · rw [h.next_head, List.length_append, List.length_singleton]
  · rw [List.length_append, List.length_singleton] at hj
    rw [h.head_eq]
    by_cases hlast : j = q.length
    · subst hlast
      rw [update_self, List.getElem_concat_length rfl]
    · have hlt : j < q.length := by omega
      have hne : (tail + j) % n ≠ (tail + q.length) % n := fun heq ↦
        hlast (slot_inj h.tail_lt (by omega) hlen heq)
      rw [update_of_ne hne, List.getElem_append_left hlt]
      exact h.slots j hlt

theorem Holds.pop (h : Holds n slot head tail (a :: q)) : Holds n slot head ((tail + 1) % n) q := by
  have hlen := h.length_lt
  rw [List.length_cons] at hlen
  have hshift (j : ℕ) : ((tail + 1) % n + j) % n = (tail + (j + 1)) % n := by
    rw [Nat.mod_add_mod, Nat.add_assoc, Nat.add_comm 1 j]
  refine ⟨Nat.mod_lt _ (by omega), by omega, ?_, fun j hj ↦ ?_⟩
  · rw [hshift]
    exact h.head_eq
  · rw [hshift]
    exact h.slots (j + 1) (Nat.succ_lt_succ hj)

theorem Holds.slot_tail (h : Holds n slot head tail (a :: q)) : slot tail = a := by
  have hfirst := h.slots 0 (Nat.zero_lt_succ _)
  rwa [Nat.add_zero, Nat.mod_eq_of_lt h.tail_lt] at hfirst

end KevOS.Lib.RingBuffer
