import KevOS.Lib.ByteMemory

namespace KevOS.Lib.I386

open ByteMemory

inductive Reg
  | eax
  | ebx
  | esi
  | edi
  | ebp
  | esp
  deriving DecidableEq, Repr

/-- The registers of the processor that are used, and memory. -/
structure Cpu where
  eax : UInt32
  ebx : UInt32
  esi : UInt32
  edi : UInt32
  ebp : UInt32
  esp : UInt32
  eip : UInt32
  mem : Bytes

def read (m : Bytes) (a : UInt32) : UInt32 := UInt32.ofNat (word m a.toNat)

def write (m : Bytes) (a v : UInt32) : Bytes := setWord m a.toNat v.toNat

def Cpu.get (c : Cpu) : Reg → UInt32
  | .eax => c.eax
  | .ebx => c.ebx
  | .esi => c.esi
  | .edi => c.edi
  | .ebp => c.ebp
  | .esp => c.esp

def Cpu.set (c : Cpu) (v : UInt32) : Reg → Cpu
  | .eax => { c with eax := v }
  | .ebx => { c with ebx := v }
  | .esi => { c with esi := v }
  | .edi => { c with edi := v }
  | .ebp => { c with ebp := v }
  | .esp => { c with esp := v }

def Cpu.push (c : Cpu) (v : UInt32) : Cpu :=
  { c with esp := c.esp - 4, mem := write c.mem (c.esp - 4) v }

/-- `load d b r` is `mov d(%b), %r`, and `store r b` is `mov %r, (%b)`. -/
inductive Instr
  | push (r : Reg)
  | pop (r : Reg)
  | load (d : UInt32) (b r : Reg)
  | store (r b : Reg)
  | ret
  deriving DecidableEq, Repr

def exec (c : Cpu) : Instr → Cpu
  | .push r => c.push (c.get r)
  | .pop r => { c with esp := c.esp + 4 }.set (read c.mem c.esp) r
  | .load d b r => c.set (read c.mem (c.get b + d)) r
  | .store r b => { c with mem := write c.mem (c.get b) (c.get r) }
  | .ret => { c with esp := c.esp + 4, eip := read c.mem c.esp }

variable {m m' : Bytes} {a b v d : UInt32}

theorem read_write_self (m : Bytes) (a v : UInt32) : read (write m a v) a = v := by
  rw [read, write, word_setWord_self v.toNat_lt, UInt32.ofNat_toNat]

theorem read_write_of_ne (h : b.toNat + 4 ≤ a.toNat ∨ a.toNat + 4 ≤ b.toNat) :
    read (write m a v) b = read m b := by
  rw [read, write, word_setWord_of_ne h, read]

theorem write_of_ne {x : ℕ} (h : x < a.toNat ∨ a.toNat + 4 ≤ x) : write m a v x = m x :=
  setWord_of_ne h

theorem read_congr (h : ∀ x, a.toNat ≤ x → x < a.toNat + 4 → m' x = m x) : read m' a = read m a := by
  rw [read, word_congr h, read]

theorem toNat_add (h : a.toNat + d.toNat < 4294967296) : (a + d).toNat = a.toNat + d.toNat := by
  rw [UInt32.toNat_add]
  exact Nat.mod_eq_of_lt h

theorem toNat_sub (h : d.toNat ≤ a.toNat) : (a - d).toNat = a.toNat - d.toNat :=
  UInt32.toNat_sub_of_le _ _ h

def Stacked (m : Bytes) (a : UInt32) : List UInt32 → Prop
  | [] => True
  | v :: vs => read m a = v ∧ Stacked m (a + 4) vs

theorem Stacked.congr {vs : List UInt32} (h : Stacked m a vs)
    (hsame : ∀ x, a.toNat ≤ x → x < a.toNat + 4 * vs.length → m' x = m x)
    (hfit : a.toNat + 4 * vs.length < 4294967296) : Stacked m' a vs := by
  induction vs generalizing a with
  | nil => trivial
  | cons v vs ih =>
    rw [List.length_cons] at hsame hfit
    have hnext : (a + 4).toNat = a.toNat + 4 := toNat_add (d := 4) (by simp; omega)
    refine ⟨?_, ih h.2 (fun x hx hx' ↦ hsame x (by omega) (by omega)) (by omega)⟩
    rw [read_congr fun x hx hx' ↦ hsame x hx (by omega)]
    exact h.1

variable {c : Cpu}

theorem get_push {r : Reg} (h : r ≠ .esp) : (c.push v).get r = c.get r := by
  cases r <;> first | rfl | contradiction

theorem push_mem_of_ne {x : ℕ} (hesp : 4 ≤ c.esp.toNat)
    (h : x < c.esp.toNat - 4 ∨ c.esp.toNat ≤ x) : (c.push v).mem x = c.mem x := by
  have hsub : (c.esp - 4).toNat = c.esp.toNat - 4 := toNat_sub hesp
  apply write_of_ne
  rw [hsub]
  omega

theorem push_stacked {vs : List UInt32} (hesp : 4 ≤ c.esp.toNat)
    (hfit : c.esp.toNat + 4 * vs.length < 4294967296) (h : Stacked c.mem c.esp vs) :
    Stacked (c.push v).mem (c.push v).esp (v :: vs) := by
  refine ⟨read_write_self .., ?_⟩
  have hback : c.esp - 4 + 4 = c.esp := UInt32.sub_add_cancel _ _
  rw [Cpu.push, hback]
  exact h.congr (fun x hx _ ↦ push_mem_of_ne hesp (.inr hx)) hfit

def Cpu.pushAll (c : Cpu) (vs : List UInt32) : Cpu := vs.foldl Cpu.push c

theorem pushAll_esp {vs : List UInt32} (hesp : 4 * vs.length ≤ c.esp.toNat) :
    (c.pushAll vs).esp.toNat = c.esp.toNat - 4 * vs.length := by
  induction vs generalizing c with
  | nil => rfl
  | cons v vs ih =>
    rw [List.length_cons] at hesp ⊢
    have hsub : (c.push v).esp.toNat = c.esp.toNat - 4 := toNat_sub (by simp; omega)
    rw [Cpu.pushAll, List.foldl_cons, ← Cpu.pushAll, ih (by omega), hsub]
    omega

theorem pushAll_mem_of_ne {vs : List UInt32} {x : ℕ} (hesp : 4 * vs.length ≤ c.esp.toNat)
    (h : x < c.esp.toNat - 4 * vs.length ∨ c.esp.toNat ≤ x) : (c.pushAll vs).mem x = c.mem x := by
  induction vs generalizing c with
  | nil => rfl
  | cons v vs ih =>
    rw [List.length_cons] at hesp h
    have hsub : (c.push v).esp.toNat = c.esp.toNat - 4 := toNat_sub (by simp; omega)
    rw [Cpu.pushAll, List.foldl_cons, ← Cpu.pushAll, ih (by omega) (by omega)]
    exact push_mem_of_ne (by omega) (by omega)

theorem pushAll_stacked {vs us : List UInt32} (hesp : 4 * vs.length ≤ c.esp.toNat)
    (hfit : c.esp.toNat + 4 * us.length < 4294967296) (h : Stacked c.mem c.esp us) :
    Stacked (c.pushAll vs).mem (c.pushAll vs).esp (vs.reverse ++ us) := by
  induction vs generalizing c us with
  | nil => exact h
  | cons v vs ih =>
    rw [List.length_cons] at hesp
    have hsub : (c.push v).esp.toNat = c.esp.toNat - 4 := toNat_sub (by simp; omega)
    have hpush := push_stacked (v := v) (by omega) hfit h
    rw [Cpu.pushAll, List.foldl_cons, ← Cpu.pushAll, List.reverse_cons, List.append_assoc,
      List.singleton_append]
    exact ih (by omega) (by rw [List.length_cons]; omega) hpush

end KevOS.Lib.I386
