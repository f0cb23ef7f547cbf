import KevOS.Initrd.Model
import Mathlib.Data.List.Basic

namespace KevOS.Initrd.Passes

open Lib.ByteMemory Lib.ByteString Machine

def Readable (args : List Arg) : Prop := ∀ a ∈ args, a.contents.isSome

/-- The length in the header of a file. -/
def size (a : Arg) : ℕ := w32 (a.contents.getD []).length

/-- What an image holds of a file. -/
def stored (a : Arg) : List UInt8 := (a.contents.getD []).take (size a)

def nameField (a : Arg) : List UInt8 := strncpy (basename a.path) 63 ++ [0]

/-- The headers of files whose data follows one another from `offset` on. -/
def headersAt : ℕ → List Arg → List FileHeader
  | _, [] => []
  | offset, a :: args => ⟨nameField a, w32 offset, size a⟩ :: headersAt (offset + size a) args

/-- Where the data of the file with index `i` lies in the image. -/
def start (args : List Arg) (i : ℕ) : ℕ :=
  4 + headerSize * args.length + ((args.take i).map size).sum

def imageOf (args : List Arg) : List UInt8 :=
  le32 args.length ++ (headersAt (4 + headerSize * args.length) args).flatMap FileHeader.bytes ++
    args.flatMap stored

variable {m : Bytes} {a : Arg} {args l r : List Arg} {i location offset : ℕ}

theorem strncpy_length (s : List UInt8) (n : ℕ) : (strncpy s n).length = n := by
  rw [strncpy, List.length_append, List.length_take, List.length_replicate]
  omega

theorem nameField_length (a : Arg) : (nameField a).length = 64 := by
  rw [nameField, List.length_append, strncpy_length, List.length_singleton]

theorem stored_length (a : Arg) : (stored a).length = size a :=
  List.length_take_of_le (Nat.mod_le _ _)

section Headers

theorem headersAt_append (offset : ℕ) (l r : List Arg) :
    headersAt offset (l ++ r) = headersAt offset l ++ headersAt (offset + (l.map size).sum) r := by
  induction l generalizing offset with
  | nil => rfl
  | cons a l ih =>
    rw [List.cons_append, headersAt, ih, headersAt, List.cons_append, List.map_cons, List.sum_cons,
      Nat.add_assoc]

theorem headerBytes_length (a : Arg) (offset length : ℕ) :
    (FileHeader.mk (nameField a) offset length).bytes.length = headerSize := by
  simp [FileHeader.bytes, nameField_length, headerSize]

theorem headersAt_bytes_length (offset : ℕ) (args : List Arg) :
    ((headersAt offset args).flatMap FileHeader.bytes).length = headerSize * args.length := by
  induction args generalizing offset with
  | nil => rfl
  | cons a args ih =>
    rw [headersAt, List.flatMap_cons, List.length_append, headerBytes_length, ih, List.length_cons,
      Nat.mul_succ, Nat.add_comm]

theorem stored_flatMap_length (args : List Arg) :
    (args.flatMap stored).length = (args.map size).sum := by
  rw [List.length_flatMap]
  exact congrArg List.sum (List.map_congr_left fun a _ ↦ stored_length a)

theorem imageOf_length (args : List Arg) : (imageOf args).length = start args args.length := by
  rw [imageOf, List.length_append, List.length_append, le32_length, headersAt_bytes_length,
    stored_flatMap_length, start, List.take_length]

theorem headersAt_split (offset : ℕ) (hi : i < args.length) : ∃ r, headersAt offset args =
    headersAt offset (args.take i) ++
      ⟨nameField args[i], w32 (offset + ((args.take i).map size).sum), size args[i]⟩ :: r := by
  have hsplit : args = args.take i ++ args[i] :: args.drop (i + 1) := by
    rw [← List.drop_eq_getElem_cons hi, List.take_append_drop]
  have happend := headersAt_append offset (args.take i) (args[i] :: args.drop (i + 1))
  rw [← hsplit, headersAt] at happend
  exact ⟨_, happend⟩

/-- A header of an image in memory. -/
theorem at_header (h : At m location (imageOf args)) (hi : i < args.length) :
    At m (location + 4 + headerSize * i)
      (FileHeader.mk (nameField args[i]) (w32 (start args i)) (size args[i])).bytes := by
  obtain ⟨r, hsplit⟩ := headersAt_split (4 + headerSize * args.length) hi
  rw [imageOf, hsplit, at_append, at_append, le32_length] at h
  have hat := h.1.2.flatMap
  rw [headersAt_bytes_length, List.length_take, min_eq_left hi.le] at hat
  exact hat

end Headers

section FirstPass

theorem Readable.contents (h : Readable (a :: args)) : a.contents = some (a.contents.getD []) := by
  obtain ⟨contents, hcontents⟩ := Option.isSome_iff_exists.mp (h a List.mem_cons_self)
  rw [hcontents, Option.getD_some]

theorem Readable.tail (h : Readable (a :: args)) : Readable args :=
  fun b hb ↦ h b (List.mem_cons_of_mem a hb)

/-- The first pass, as long as there are headers left. The sum it keeps is the offset
modulo 2^32. -/
theorem writeHeaders_readable (h : Readable args) (hi : i + args.length ≤ 64) :
    writeHeaders i (w32 offset) args = .ok (headersAt offset args) := by
  induction args generalizing i offset with
  | nil => rfl
  | cons a args ih =>
    rw [List.length_cons] at hi
    have hnext : w32 (w32 offset + w32 (a.contents.getD []).length) = w32 (offset + size a) :=
      Nat.mod_add_mod _ _ _
    rw [writeHeaders, h.contents]
    dsimp only
    rw [if_pos (by omega), hnext, ih h.tail (by omega)]
    rfl

/-- The header with index 64 is the first one behind the table. -/
theorem writeHeaders_outOfRange (h : Readable args) (hi : i ≤ 64) (hmany : 64 < i + args.length) :
    writeHeaders i offset args = .error (.outOfRange 64) := by
  induction args generalizing i offset with
  | nil => simp only [List.length_nil] at hmany; omega
  | cons a args ih =>
    rw [List.length_cons] at hmany
    rw [writeHeaders, h.contents]
    dsimp only
    by_cases hlast : i = 64
    · rw [hlast, if_neg (Nat.lt_irrefl 64)]
    · rw [if_pos (by omega), ih h.tail (by omega) (by omega)]
      rfl

end FirstPass

/-- The second pass writes as much of each file as the first has measured. -/
theorem writeData_headersAt (offset : ℕ) (args : List Arg) :
    writeData (headersAt offset args) args = args.flatMap stored := by
  induction args generalizing offset with
  | nil => rfl
  | cons a args ih =>
    unfold writeData at ih ⊢
    rw [headersAt, List.zipWith_cons_cons, List.flatten_cons, ih, List.flatMap_cons, stored]

theorem makeInitrd_readable (h : Readable args) (hne : args ≠ []) (hcount : args.length ≤ 64) :
    makeInitrd args = .ok (imageOf args) := by
  have hpos := List.length_pos_iff.mpr hne
  have hnumber : w32 args.length = args.length := w32_of_lt (by omega)
  have hpass : writeHeaders 0 (w32 (4 + 72 * args.length)) args = _ :=
    writeHeaders_readable h (by rwa [Nat.zero_add])
  rw [makeInitrd, if_neg (by omega)]
  dsimp only
  rw [hnumber, hpass]
  change Except.ok _ = _
  rw [writeData_headersAt, imageOf, headerSize]

theorem makeInitrd_outOfRange (h : Readable args) (hcount : 64 < args.length) :
    makeInitrd args = .error (.outOfRange 64) := by
  have hpass (offset : ℕ) : writeHeaders 0 offset args = .error (.outOfRange 64) :=
    writeHeaders_outOfRange h (Nat.zero_le 64) (by rwa [Nat.zero_add])
  rw [makeInitrd, if_neg (by omega)]
  dsimp only
  rw [hpass]
  rfl

end KevOS.Initrd.Passes
