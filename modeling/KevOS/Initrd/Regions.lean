import KevOS.Initrd.Passes
import Mathlib.Algebra.Order.BigOperators.Group.List
import Mathlib.Algebra.Order.Group.Nat
import Mathlib.Order.Interval.Set.Disjoint

namespace KevOS.Initrd.Regions

open Lib.ByteMemory Lib.ByteString Machine Passes

/-- The bytes of an image, from address 0 on. -/
def asBytes (image : List UInt8) : Bytes := fun a ↦ image.getD a 0

section Fields

variable (image : List UInt8) (i : ℕ)

def nfiles : ℕ := word (asBytes image) 0

def headerAddress : ℕ := 4 + headerSize * i

def offsetField : ℕ := word (asBytes image) (headerAddress i + 64)

def lengthField : ℕ := word (asBytes image) (headerAddress i + 68)

/-- The data of a file, where its header says. -/
def region : Set ℕ := Set.Ico (offsetField image i) (offsetField image i + lengthField image i)

end Fields

structure WellFormed (image : List UInt8) (n : ℕ) : Prop where
  count : nfiles image = n
  first : 0 < n → offsetField image 0 = 4 + headerSize * n
  contiguous : ∀ i, i + 1 < n →
    offsetField image i + lengthField image i = offsetField image (i + 1)
  disjoint : ∀ i j, i < j → j < n → region image i ∩ region image j = ∅
  last : ∀ i, i + 1 = n → offsetField image i + lengthField image i = image.length
  named : ∀ i < n, ∃ k < 64, asBytes image (headerAddress i + k) = 0

/-- `make_initrd` stays within its table of headers, and what it writes is well-formed. -/
def Sound (args : List Arg) : Prop :=
  (∀ i, makeInitrd args ≠ .error (.outOfRange i)) ∧
    ∀ image, makeInitrd args = .ok image → WellFormed image args.length

variable {args : List Arg} {i j : ℕ}

theorem at_asBytes (image : List UInt8) : At (asBytes image) 0 image := by
  intro j hj
  rw [asBytes, Nat.zero_add, List.getD_eq_getElem _ _ hj]

section Starts

theorem start_zero (args : List Arg) : start args 0 = 4 + headerSize * args.length := rfl

theorem start_succ (hi : i < args.length) : start args (i + 1) = start args i + size args[i] := by
  have hsum : ((args.take (i + 1)).map size).sum = ((args.take i).map size).sum + size args[i] := by
    rw [List.take_add_one, List.getElem?_eq_getElem hi, Option.toList_some, List.map_append,
      List.sum_append, List.map_singleton, List.sum_singleton]
  rw [start, hsum, ← Nat.add_assoc, ← start]

theorem start_mono (args : List Arg) : Monotone (start args) := by
  intro i j hij
  have hsum := List.monotone_sum_take (args.map size) hij
  simp only [← List.map_take] at hsum
  exact Nat.add_le_add_left hsum _

end Starts

section Headers

theorem nfiles_imageOf (hcount : args.length ≤ 64) : nfiles (imageOf args) = args.length := by
  have hat := at_asBytes (imageOf args)
  nth_rewrite 2 [imageOf] at hat
  rw [at_append, at_append] at hat
  exact hat.1.1.word (by omega)

variable (hi : i < args.length)
include hi

theorem header_imageOf : At (asBytes (imageOf args)) (headerAddress i)
    (FileHeader.mk (nameField args[i]) (w32 (start args i)) (size args[i])).bytes := by
  have hat := at_header (at_asBytes (imageOf args)) hi
  rwa [Nat.zero_add] at hat

theorem fields_imageOf : offsetField (imageOf args) i = w32 (start args i) ∧
    lengthField (imageOf args) i = size args[i] := by
  have hat := header_imageOf hi
  rw [FileHeader.bytes, at_append, at_append, List.length_append, nameField_length] at hat
  exact ⟨hat.1.2.word (w32_lt _), hat.2.word (w32_lt _)⟩

/-- The last byte of the name is never written. -/
theorem terminator_imageOf : asBytes (imageOf args) (headerAddress i + 63) = 0 := by
  have hat := header_imageOf hi
  rw [FileHeader.bytes, at_append, at_append, nameField, at_append, strncpy_length] at hat
  exact hat.1.1.2 0 Nat.zero_lt_one

end Headers

/-- Where the data of the last file starts, before it is cut down to 32 bits. -/
def lastStart (args : List Arg) : ℕ :=
  4 + headerSize * args.length + (args.dropLast.map size).sum

theorem lastStart_eq (args : List Arg) : lastStart args = start args (args.length - 1) := by
  rw [lastStart, start, List.dropLast_eq_take]

/-- The offset of the last file says whether any of them has wrapped. -/
theorem offsetField_eq (hlast : lastStart args < 4294967296) (hi : i < args.length) :
    offsetField (imageOf args) i = start args i := by
  have hle : start args i ≤ lastStart args := by
    rw [lastStart_eq args]
    exact start_mono args (by omega)
  rw [(fields_imageOf hi).1, w32_of_lt (by omega)]

theorem region_eq (hlast : lastStart args < 4294967296) (hi : i < args.length) :
    region (imageOf args) i = Set.Ico (start args i) (start args (i + 1)) := by
  rw [region, offsetField_eq hlast hi, (fields_imageOf hi).2, start_succ hi]

theorem wellFormed_imageOf (hcount : args.length ≤ 64) (hlast : lastStart args < 4294967296) :
    WellFormed (imageOf args) args.length where
  count := nfiles_imageOf hcount
  first h := by rw [offsetField_eq hlast h, start_zero]
  contiguous i hi := by
    rw [offsetField_eq hlast hi, offsetField_eq hlast (by omega), start_succ (by omega),
      (fields_imageOf (by omega)).2]
  disjoint i j hij hj := by
    rw [region_eq hlast hj, region_eq hlast (hij.trans hj)]
    apply Set.disjoint_iff_inter_eq_empty.mp
    exact Set.Ico_disjoint_Ico.mpr (min_le_of_left_le (le_max_of_le_right (start_mono args hij)))
  last i hi := by
    have hlt : i < args.length := by omega
    rw [offsetField_eq hlast hlt, (fields_imageOf hlt).2, ← start_succ hlt, hi, imageOf_length]
  named i hi := ⟨63, by decide, terminator_imageOf hi⟩

theorem lastStart_lt (hne : args ≠ []) (h : WellFormed (imageOf args) args.length) :
    lastStart args < 4294967296 := by
  have hpos := List.length_pos_iff.mpr hne
  have hlt : args.length - 1 < args.length := by omega
  have hend := h.last (args.length - 1) (by omega)
  have hnext := start_succ hlt
  rw [(fields_imageOf hlt).1, (fields_imageOf hlt).2, imageOf_length] at hend
  rw [Nat.sub_add_cancel hpos] at hnext
  have hw : w32 (start args (args.length - 1)) = start args (args.length - 1) := by omega
  rw [lastStart_eq args, ← hw]
  exact w32_lt _

/-- With files that can all be read, `make_initrd` stays within its table and writes a
well-formed image if and only if there are at most 64 of them and the data of the last one
starts below 4 GiB. -/
theorem sound_iff (args : List Arg) (h : ∀ a ∈ args, a.contents.isSome) :
    Sound args ↔ args.length ≤ 64 ∧ lastStart args < 4294967296 := by
  by_cases hne : args = []
  · subst hne
    have husage : makeInitrd [] = .error .usage := rfl
    rw [Sound, husage]
    simp [lastStart]
  by_cases hcount : args.length ≤ 64
  · rw [Sound, makeInitrd_readable h hne hcount]
    constructor
    · rintro ⟨-, hformed⟩
      exact ⟨hcount, lastStart_lt hne (hformed _ rfl)⟩
    · rintro ⟨-, hlast⟩
      refine ⟨fun _ ↦ by simp, fun image himage ↦ ?_⟩
      cases himage
      exact wellFormed_imageOf hcount hlast
  · rw [Sound, makeInitrd_outOfRange h (by omega)]
    simp [hcount]

theorem sound_iff_twoFiles :
    Sound [⟨[100, 47, 97, 98], some [1, 2, 3]⟩, ⟨[98], some []⟩] := by
  refine (sound_iff _ ?_).mpr ⟨by decide, by decide⟩
  decide

/-- The header of the last of 65 empty files is stored behind the table. -/
theorem not_sound_sixtyFive : ¬ Sound (List.replicate 65 ⟨[97], some []⟩) := by
  have hreadable : Readable (List.replicate 65 ⟨[97], some []⟩) := by
    intro a ha
    rw [List.eq_of_mem_replicate ha, Option.isSome_some]
  intro h
  exact h.1 64 (makeInitrd_outOfRange hreadable (by simp))

end KevOS.Initrd.Regions
