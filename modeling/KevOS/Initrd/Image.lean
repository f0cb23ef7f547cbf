import KevOS.Initrd.Passes
import Mathlib.Algebra.Order.BigOperators.Group.List
import Mathlib.Algebra.Order.Group.Nat

namespace KevOS.Initrd.Image

open Lib.ByteString Machine Passes

/-- A file that is given to `make_initrd`. Its path is a C string, and does not end in the
name of a directory. -/
structure InputFile where
  path : List UInt8
  contents : List UInt8
  noNul : 0 ∉ path
  notDirectory : basename path ≠ [46] ∧ basename path ≠ [46, 46]

def InputFile.arg (f : InputFile) : Arg := ⟨f.path, some f.contents⟩

def InputFile.name (f : InputFile) : List UInt8 := (basename f.path).take 63

def InputFile.length (f : InputFile) : ℕ := f.contents.length

/-- The header of a file whose data starts at `offset`. -/
def InputFile.header (f : InputFile) (offset : ℕ) : FileHeader :=
  ⟨strncpy (basename f.path) 63 ++ [0], offset, f.length⟩

def total (files : List InputFile) : ℕ := (files.map InputFile.length).sum

/-- The headers of files whose data follows one another from `offset` on. -/
def headersFrom : ℕ → List InputFile → List FileHeader
  | _, [] => []
  | offset, f :: files => f.header offset :: headersFrom (offset + f.length) files

def dataStart (files : List InputFile) : ℕ := 4 + headerSize * files.length

def image (files : List InputFile) : List UInt8 :=
  le32 files.length ++ (headersFrom (dataStart files) files).flatMap FileHeader.bytes ++
    files.flatMap InputFile.contents

section Names

variable {f : InputFile} {path s t : List UInt8}

theorem basename_subset : ∀ c ∈ basename path, c ∈ path := by
  intro c hc
  rw [basename, List.mem_reverse] at hc
  exact List.mem_reverse.mp ((List.takeWhile_sublist _).mem hc)

theorem name_noNul (f : InputFile) : 0 ∉ f.name :=
  fun h ↦ f.noNul (basename_subset 0 (List.mem_of_mem_take h))

theorem name_length (f : InputFile) : f.name.length ≤ 63 := List.length_take_le _ _

theorem basename_of_name (h : f.name = s) (hs : s.length < 63) : basename f.path = s := by
  have hlen := congrArg List.length h
  rw [InputFile.name, List.length_take] at hlen
  rw [← h, InputFile.name, List.take_of_length_le (by omega)]

theorem name_ne_dot (f : InputFile) : f.name ≠ [46] :=
  fun h ↦ f.notDirectory.1 (basename_of_name h (by decide))

theorem name_ne_dotdot (f : InputFile) : f.name ≠ [46, 46] :=
  fun h ↦ f.notDirectory.2 (basename_of_name h (by decide))

theorem header_name (f : InputFile) (offset : ℕ) : ∃ pad, (f.header offset).name = f.name ++ [0] ++ pad := by
  refine ⟨List.replicate (63 - (basename f.path).length) 0, ?_⟩
  rw [InputFile.header, strncpy, InputFile.name, List.append_assoc, List.append_assoc,
    ← List.replicate_succ', List.replicate_succ, List.singleton_append]

theorem header_bytes_length (f : InputFile) (offset : ℕ) : (f.header offset).bytes.length = headerSize :=
  headerBytes_length f.arg offset f.length

end Names

section Passes

variable {files : List InputFile} {f : InputFile} {offset : ℕ}

theorem total_cons (f : InputFile) (files : List InputFile) :
    total (f :: files) = f.length + total files := by
  rw [total, List.map_cons, List.sum_cons, total]

theorem le_total (hf : f ∈ files) : f.length ≤ total files :=
  List.le_sum_of_mem (List.mem_map_of_mem hf)

theorem headers_bytes_length (offset : ℕ) (files : List InputFile) :
    ((headersFrom offset files).flatMap FileHeader.bytes).length = headerSize * files.length := by
  induction files generalizing offset with
  | nil => rfl
  | cons f files ih =>
    rw [headersFrom, List.flatMap_cons, List.length_append, header_bytes_length, ih, List.length_cons,
      Nat.mul_succ, Nat.add_comm]

theorem contents_length (files : List InputFile) :
    (files.flatMap InputFile.contents).length = total files := List.length_flatMap

theorem size_arg (h : f.length < 4294967296) : size f.arg = f.length := w32_of_lt h

theorem stored_arg (h : f.length < 4294967296) : stored f.arg = f.contents := by
  rw [stored, size_arg h]
  exact List.take_length

/-- The headers, as long as the offsets do not wrap. -/
theorem headersAt_eq (hsize : offset + total files < 4294967296) :
    headersAt offset (files.map InputFile.arg) = headersFrom offset files := by
  induction files generalizing offset with
  | nil => rfl
  | cons f files ih =>
    rw [total_cons] at hsize
    have hlen : size f.arg = f.length := size_arg (by omega)
    rw [List.map_cons, headersAt, hlen, w32_of_lt (by omega), ih (by omega), headersFrom]
    rfl

theorem imageOf_eq (hsize : dataStart files + total files < 4294967296) :
    imageOf (files.map InputFile.arg) = image files := by
  have hcontents : (files.map InputFile.arg).flatMap stored = files.flatMap InputFile.contents := by
    rw [List.flatMap_map]
    refine List.flatMap_congr fun f hf ↦ stored_arg ?_
    have hle := le_total hf
    omega
  have hheaders := headersAt_eq hsize
  rw [dataStart] at hheaders
  rw [imageOf, hcontents, List.length_map, hheaders, image, dataStart]

theorem readable_args (files : List InputFile) : Readable (files.map InputFile.arg) := by
  intro a ha
  obtain ⟨f, -, rfl⟩ := List.mem_map.mp ha
  exact rfl

theorem makeInitrd_eq (hne : files ≠ []) (hcount : files.length ≤ 64)
    (hsize : dataStart files + total files < 4294967296) :
    makeInitrd (files.map InputFile.arg) = .ok (image files) := by
  rw [makeInitrd_readable (readable_args files) (by simpa using hne) (by simpa using hcount),
    imageOf_eq hsize]

theorem image_length (files : List InputFile) : (image files).length = dataStart files + total files := by
  rw [image, List.length_append, List.length_append, le32_length, headers_bytes_length, contents_length,
    dataStart]

end Passes

end KevOS.Initrd.Image
