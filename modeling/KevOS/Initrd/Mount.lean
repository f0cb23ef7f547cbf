import KevOS.Initrd.Image
import Mathlib.Data.List.Induction

namespace KevOS.Initrd.Mount

open Lib.ByteMemory Lib.ByteString Machine Passes Image

variable {m : Bytes} {location fuel i : ℕ} {files : List InputFile}

/-- The offset of the data of the file with index `i`. -/
def offsetAt (files : List InputFile) (i : ℕ) : ℕ := dataStart files + total (files.take i)

def nodeOf (i : ℕ) (f : InputFile) : FsNode :=
  { name := f.name
    flags := fsFile
    inode := i
    length := f.length
    read := true
    readdir := false
    finddir := false }

/-- A header as the kernel reads it. -/
structure HeaderAt (m : Bytes) (a : ℕ) (f : InputFile) (offset : ℕ) : Prop where
  name : At m a (f.name ++ [0])
  offset_eq : word m (a + 64) = offset
  length_eq : word m (a + 68) = f.length

/-- The image of `files` has been loaded to `location`. -/
structure Loaded (m : Bytes) (location : ℕ) (files : List InputFile) : Prop where
  bytes : At m location (image files)
  fits : location + (image files).length ≤ 4294967296
  size : (image files).length < 4294967296
  nonempty : files ≠ []

/-- The file system has been mounted from the image of `files` at `location`. -/
structure Serves (d : Ramdisk) (location : ℕ) (files : List InputFile) : Prop where
  header : d.initrdHeader = location
  headers : d.fileHeaders = w32 (location + 4)
  flags : d.initrdRoot.flags = fsDirectory
  finddir : d.initrdRoot.finddir = true
  readdir : d.initrdRoot.readdir = true
  inode : d.initrdRoot.inode = 0
  nodes : d.rootNodes = files.mapIdx nodeOf
  count : d.nrootNodes = files.length

section Layout

theorem headerAt_of_bytes {a offset : ℕ} {f : InputFile} (h : At m a (f.header offset).bytes)
    (hoffset : offset < 4294967296) (hlength : f.length < 4294967296) : HeaderAt m a f offset := by
  obtain ⟨pad, hpad⟩ := header_name f offset
  have hlen : (f.header offset).name.length = 64 := nameField_length f.arg
  rw [FileHeader.bytes, at_append, at_append, List.length_append, hlen] at h
  obtain ⟨⟨hname, ho⟩, hl⟩ := h
  rw [hpad, at_append] at hname
  exact ⟨hname.1, ho.word hoffset, hl.word hlength⟩

theorem split (hi : i < files.length) : files = files.take i ++ files[i] :: files.drop (i + 1) := by
  rw [← List.drop_eq_getElem_cons hi, List.take_append_drop]

theorem total_append (l r : List InputFile) : total (l ++ r) = total l + total r := by
  rw [total, List.map_append, List.sum_append, ← total, ← total]

/-- The data of a file ends within the image. -/
theorem data_le (hi : i < files.length) :
    offsetAt files i + files[i].length ≤ (image files).length := by
  have htotal := congrArg total (split hi)
  rw [total_append, total_cons] at htotal
  rw [offsetAt, image_length]
  omega

theorem start_args (hsize : (image files).length < 4294967296) :
    start (files.map InputFile.arg) i = offsetAt files i := by
  have hsizes : ((files.take i).map (size ∘ InputFile.arg)).sum = total (files.take i) := by
    refine congrArg List.sum (List.map_congr_left fun f hf ↦ size_arg ?_)
    have hle := le_total (List.mem_of_mem_take hf)
    rw [image_length] at hsize
    omega
  rw [start, offsetAt, dataStart, List.length_map, ← List.map_take, List.map_map, hsizes]

variable (h : Loaded m location files)
include h

theorem Loaded.count : word m location = files.length := by
  have hsize := h.size
  have hbytes := h.bytes
  rw [image_length, dataStart, headerSize] at hsize
  rw [image, List.append_assoc, at_append] at hbytes
  exact hbytes.1.word (by omega)

theorem Loaded.header (hi : i < files.length) :
    HeaderAt m (location + 4 + headerSize * i) files[i] (offsetAt files i) := by
  have hend := data_le hi
  have hsize := h.size
  have hbytes := h.bytes
  have himage : imageOf (files.map InputFile.arg) = image files := by
    apply imageOf_eq
    rwa [← image_length]
  have hat := at_header (himage ▸ hbytes) (show i < (files.map InputFile.arg).length by simpa using hi)
  rw [List.getElem_map, start_args hsize, w32_of_lt (by omega), size_arg (by omega)] at hat
  exact headerAt_of_bytes hat (by omega) (by omega)

theorem Loaded.data (hi : i < files.length) : At m (location + offsetAt files i) files[i].contents := by
  have hbytes := h.bytes
  rw [image, at_append, List.length_append, le32_length, headers_bytes_length] at hbytes
  have hdata := hbytes.2
  nth_rewrite 2 [split hi] at hdata
  have hat := hdata.flatMap
  rw [contents_length, ← dataStart, Nat.add_assoc] at hat
  exact hat

theorem Loaded.headerAddress (hi : i < files.length) :
    w32 (w32 (location + 4) + headerSize * i) = location + 4 + headerSize * i := by
  have hfits := h.fits
  rw [image_length, dataStart, headerSize] at hfits
  rw [headerSize]
  rw [w32_of_lt (show location + 4 < 4294967296 by omega), w32_of_lt (by omega)]

end Layout

section Nodes

theorem mapM_range {α : Type*} {g : ℕ → Option α} {l : List α}
    (h : ∀ i (hi : i < l.length), g i = some l[i]) : (List.range l.length).mapM g = some l := by
  induction l using List.reverseRecOn with
  | nil => rfl
  | append_singleton l x ih =>
    have hinit : (List.range l.length).mapM g = some l := by
      apply ih
      intro i hi
      rw [h i (by rw [List.length_append]; omega), List.getElem_append_left hi]
    have hlast : g l.length = some x := by
      rw [h l.length (by simp)]
      simp
    rw [List.length_append, List.length_singleton, List.range_succ, List.mapM_append, hinit]
    simp [hlast]

variable (h : Loaded m location files) (hfuel : 64 ≤ fuel)
include h hfuel

theorem Loaded.fileNode_eq (hi : i < files.length) :
    fileNode m fuel (w32 (location + 4)) i = some (nodeOf i files[i]) := by
  have hheader := h.header hi
  have hname : readString m fuel (location + 4 + headerSize * i) = some files[i].name :=
    readString_of_at hheader.name (name_noNul _) (Nat.lt_of_lt_of_le (Nat.lt_succ_of_le (name_length _)) hfuel)
  rw [fileNode, h.headerAddress hi, hname, hheader.length_eq]
  rfl

theorem Loaded.initialise : ∃ d, initialiseInitrd fuel location m = some d ∧ Serves d location files := by
  have hsize := h.size
  rw [image_length, dataStart, headerSize] at hsize
  have hturns : turns files.length = (files.mapIdx nodeOf).length := by
    rw [List.length_mapIdx, turns, if_pos (by omega)]
  have hnodes : (List.range (files.mapIdx nodeOf).length).mapM
      (fileNode m fuel (w32 (location + 4))) = some (files.mapIdx nodeOf) := by
    apply mapM_range
    intro i hi
    rw [List.length_mapIdx] at hi
    rw [h.fileNode_eq hfuel hi, List.getElem_mapIdx]
  rw [initialiseInitrd, h.count, hturns, hnodes]
  exact ⟨_, rfl, rfl, rfl, rfl, rfl, rfl, rfl, rfl, rfl⟩

end Nodes

theorem node_file {d : Ramdisk} (hnodes : d.rootNodes = files.mapIdx nodeOf) (hi : i < files.length) :
    d.node (.file i) = some (nodeOf i files[i]) := by
  rw [Ramdisk.node, hnodes, List.getElem?_mapIdx, List.getElem?_eq_getElem hi, Option.map_some]

section Read

/-- A read of a file, with the addresses the headers lead to. -/
theorem Loaded.vfsRead_eq {d : Ramdisk} (h : Loaded m location files)
    (hd : Serves d location files) (hi : i < files.length) (offset size buffer : ℕ) :
    vfsRead d m (nodeOf i files[i]) offset size buffer =
      if offset > files[i].length then (0, m)
      else
        let n := if w32 (offset + size) > files[i].length then files[i].length - offset else size
        (n, memcpy m buffer (w32 (location + offsetAt files i + offset)) n) := by
  have hhead := h.header hi
  have haddr : w32 (w32 (location + offsetAt files i) + offset) =
      w32 (location + offsetAt files i + offset) := Nat.mod_add_mod _ _ _
  rw [vfsRead, if_pos (show (nodeOf i files[i]).read = true from rfl), initrdRead]
  simp only [nodeOf, hd.header, hd.headers, h.headerAddress hi, hhead.length_eq, hhead.offset_eq, haddr]

end Read

end KevOS.Initrd.Mount
