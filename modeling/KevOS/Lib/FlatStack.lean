import KevOS.Lib.ByteMemory

namespace KevOS.Lib.FlatStack

open ByteMemory

/-- The bytes of a 32-bit address space, which wraps around. -/
abbrev Mem := UInt32 → UInt8

/-- Memory as it is seen from `a` on. -/
def shifted (m : Mem) (a : UInt32) : Bytes := fun i ↦ m (a + UInt32.ofNat i)

def read (m : Mem) (a : UInt32) : UInt32 := UInt32.ofNat (word (shifted m a) 0)

def write (m : Mem) (a v : UInt32) : Mem := fun x ↦ setWord (shifted m a) 0 v.toNat (x - a).toNat

variable {m m' : Mem} {a b v : UInt32} {vs : List UInt32}

theorem toNat_add_sub {i : ℕ} (hi : i < 4294967296) : (a + UInt32.ofNat i - a).toNat = i := by
  rw [UInt32.add_comm, UInt32.add_sub_cancel, UInt32.toNat_ofNat']
  exact Nat.mod_eq_of_lt hi

theorem read_write_self : read (write m a v) a = v := by
  have hword : word (shifted (write m a v) a) 0 = word (setWord (shifted m a) 0 v.toNat) 0 := by
    refine word_congr fun i _ hi ↦ ?_
    rw [shifted, write, toNat_add_sub (by omega)]
  rw [read, hword, word_setWord_self v.toNat_lt, UInt32.ofNat_toNat]

theorem write_of_far {x : UInt32} (h : 4 ≤ (x - a).toNat) : write m a v x = m x := by
  rw [write, setWord_of_ne (.inr h), shifted, UInt32.ofNat_toNat, UInt32.add_comm, UInt32.sub_add_cancel]

theorem read_congr (h : ∀ i < 4, m' (a + UInt32.ofNat i) = m (a + UInt32.ofNat i)) :
    read m' a = read m a := by
  have hword : word (shifted m' a) 0 = word (shifted m a) 0 := word_congr fun i _ hi ↦ h i hi
  rw [read, hword, read]

/-- Two words do not overlap, in either direction around the address space. -/
theorem read_write_of_far (h : 4 ≤ (b - a).toNat) (h' : (b - a).toNat + 4 ≤ 4294967296) :
    read (write m a v) b = read m b := by
  refine read_congr fun i hi ↦ write_of_far ?_
  have hsum : b + UInt32.ofNat i - a = (b - a) + UInt32.ofNat i := by
    rw [UInt32.sub_eq_add_neg, UInt32.sub_eq_add_neg, UInt32.add_assoc, UInt32.add_comm (.ofNat i),
      ← UInt32.add_assoc]
  rw [hsum, UInt32.toNat_add, UInt32.toNat_ofNat', Nat.mod_eq_of_lt (show i < 2 ^ 32 by omega),
    Nat.mod_eq_of_lt (by omega)]
  omega

def Stacked (m : Mem) (a : UInt32) : List UInt32 → Prop
  | [] => True
  | v :: vs => read m a = v ∧ Stacked m (a + 4) vs

theorem Stacked.of_write {k : ℕ} (h : Stacked m b vs) (hb : b = a + UInt32.ofNat k) (hk : 4 ≤ k)
    (hlen : k + 4 * vs.length ≤ 4294967296) : Stacked (write m a v) b vs := by
  induction vs generalizing b k with
  | nil => trivial
  | cons w vs ih =>
    rw [List.length_cons] at hlen
    obtain ⟨hw, hvs⟩ := h
    have hdist : (b - a).toNat = k := by rw [hb, toNat_add_sub (by omega)]
    have hnext : b + 4 = a + UInt32.ofNat (k + 4) := by
      rw [hb, UInt32.ofNat_add, ← UInt32.add_assoc]
      rfl
    refine ⟨?_, ih hvs hnext (by omega) (by omega)⟩
    rw [read_write_of_far (by omega) (by omega), hw]

theorem Stacked.push (h : Stacked m a vs) (hlen : 4 * (vs.length + 1) ≤ 4294967296) :
    Stacked (write m (a - 4) v) (a - 4) (v :: vs) := by
  have hback : a - 4 + 4 = a := UInt32.sub_add_cancel a 4
  refine ⟨read_write_self, ?_⟩
  rw [hback]
  exact h.of_write (k := 4) hback.symm (Nat.le_refl 4) (by omega)

end KevOS.Lib.FlatStack
