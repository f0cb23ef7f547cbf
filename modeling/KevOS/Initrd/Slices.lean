import KevOS.Initrd.RoundTrip

namespace KevOS.Initrd.Slices

open Lib.ByteMemory Lib.ByteString Machine Passes Image Mount RoundTrip

/-- A read of `contents`, with the memory before it, and its result and the memory behind it. -/
structure ReadsSlice (contents : List UInt8) (offset size buffer : ℕ) (m : Bytes)
    (r : ℕ × Bytes) : Prop where
  count : r.1 = if offset > contents.length then 0 else min size (contents.length - offset)
  bytes : At r.2 buffer ((contents.drop offset).take size)
  frame : ∀ a, a < buffer ∨ buffer + r.1 ≤ a → r.2 a = m a

/-- A buffer of `n` bytes, apart from an image of `length` bytes. -/
def Apart (buffer n location length : ℕ) : Prop :=
  buffer + n ≤ 4294967296 ∧ (buffer + n ≤ location ∨ location + length ≤ buffer)

def taken (m : Bytes) (buffer n : ℕ) : List UInt8 := (List.range n).map fun j ↦ m (buffer + j)

/-- Reads from `offset` on, of `sizes k` bytes, then `sizes (k + 1)`, and so on until one of them
returns 0, with the bytes that they have put into the buffer. -/
def readChunks (d : Ramdisk) (n : FsNode) (buffer : ℕ) (sizes : ℕ → ℕ) :
    ℕ → ℕ → ℕ → Bytes → Option (List UInt8)
  | 0, _, _, _ => none
  | fuel + 1, k, offset, m =>
    let r := vfsRead d m n offset (sizes k) buffer
    if r.1 = 0 then some []
    else (readChunks d n buffer sizes fuel (k + 1) (w32 (offset + r.1)) r.2).map
      (taken r.2 buffer r.1 ++ ·)

/-- The offset of each read, when none has gone beyond the end. -/
def reached (length : ℕ) (sizes : ℕ → ℕ) : ℕ → ℕ
  | 0 => 0
  | k + 1 => min (reached length sizes k + sizes k) length

/-- The reads up to the one that returns 0 end within 32 bits. -/
def EndsInRange (length : ℕ) (sizes : ℕ → ℕ) : Prop :=
  ∀ k, (∀ j < k, reached length sizes j < length) →
    reached length sizes k + sizes k < 4294967296

variable {m : Bytes} {d : Ramdisk} {location i offset size buffer k fuel : ℕ}
  {files : List InputFile} {contents : List UInt8} {sizes : ℕ → ℕ}

section Slice

variable (h : Loaded m location files) (hd : Serves d location files) (hi : i < files.length)
include h hd

theorem vfsRead_slice (hrange : files[i].length < offset ∨ offset + size < 4294967296)
    (hapart : Apart buffer (min size (files[i].length - offset)) location (image files).length) :
    ReadsSlice files[i].contents offset size buffer m
      (vfsRead d m (nodeOf i files[i]) offset size buffer) := by
  have hdata := h.data hi
  have hend := data_le hi
  have hfits := h.fits
  have hlen : files[i].contents.length = files[i].length := rfl
  rw [h.vfsRead_eq hd hi]
  by_cases hgt : offset > files[i].length
  · rw [if_pos hgt]
    refine ⟨(if_pos hgt).symm, ?_, fun a _ ↦ rfl⟩
    rw [List.drop_eq_nil_of_le (by omega), List.take_nil]
    intro j hj
    exact absurd hj (Nat.not_lt_zero j)
  · have hsum : w32 (offset + size) = offset + size := w32_of_lt (by omega)
    have hcut : (if w32 (offset + size) > files[i].length then files[i].length - offset else size) =
        min size (files[i].length - offset) := by
      rw [hsum]
      split_ifs <;> omega
    rw [if_neg hgt, hcut]
    refine ⟨(if_neg hgt).symm, fun j hj ↦ ?_, fun a ha ↦ memcpy_of_ne ha⟩
    rw [List.length_take, List.length_drop, hlen] at hj
    have haddr : w32 (location + offsetAt files i + offset) = location + offsetAt files i + offset :=
      w32_of_lt (by omega)
    obtain ⟨-, hbuffer⟩ := hapart
    dsimp only
    rw [haddr, memcpy_apply (by omega) hj, Nat.add_assoc (location + _),
      hdata (offset + j) (by omega), List.getElem_take, List.getElem_drop]

/-- Without the cut at the end of the file, a read claims to have delivered all it was asked for. -/
theorem vfsRead_unclamped (hsize : size < 4294967296) (hle : offset ≤ files[i].length)
    (hwrap : 4294967296 ≤ offset + size) :
    (vfsRead d m (nodeOf i files[i]) offset size buffer).1 = size := by
  have hend := data_le hi
  have hshort := h.size
  have hsum : w32 (offset + size) ≤ files[i].length := by
    unfold w32
    omega
  rw [h.vfsRead_eq hd hi, if_neg (Nat.not_lt_of_le hle)]
  exact if_neg (Nat.not_lt_of_le hsum)

theorem vfsRead_slice_iff (hsize : size < 4294967296)
    (hapart : Apart buffer (min size (files[i].length - offset)) location (image files).length) :
    ReadsSlice files[i].contents offset size buffer m
        (vfsRead d m (nodeOf i files[i]) offset size buffer) ↔
      files[i].length < offset ∨ offset + size < 4294967296 := by
  refine ⟨fun hread ↦ ?_, fun hrange ↦ vfsRead_slice h hd hi hrange hapart⟩
  by_contra hnot
  rw [not_or, Nat.not_lt, Nat.not_lt] at hnot
  have hend := data_le hi
  have hshort := h.size
  have hcount := hread.count
  have hlen : files[i].contents.length = files[i].length := rfl
  rw [vfsRead_unclamped h hd hi hsize hnot.1 hnot.2, if_neg (by omega)] at hcount
  omega

end Slice

section Chunks

theorem taken_length (m : Bytes) (buffer n : ℕ) : (taken m buffer n).length = n := by simp [taken]

theorem taken_eq {xs : List UInt8} (h : At m buffer xs) : taken m buffer xs.length = xs := by
  refine List.ext_getElem (taken_length m buffer _) fun j _ hj ↦ ?_
  simp only [taken, List.getElem_map, List.getElem_range]
  exact h j hj

theorem ReadsSlice.intact {r : ℕ × Bytes} {image : List UInt8}
    (h : ReadsSlice contents offset size buffer m r) (hat : At m location image)
    (hapart : Apart buffer r.1 location image.length) : At r.2 location image := by
  obtain ⟨-, hbuffer⟩ := hapart
  exact hat.congr fun a hlow hhigh ↦ h.frame a (by omega)

theorem reached_le (length : ℕ) (sizes : ℕ → ℕ) (k : ℕ) : reached length sizes k ≤ length := by
  cases k with
  | zero => exact Nat.zero_le _
  | succ k => exact min_le_right _ _

theorem reached_succ (length : ℕ) (sizes : ℕ → ℕ) (k : ℕ) : reached length sizes (k + 1) =
    reached length sizes k + min (sizes k) (length - reached length sizes k) := by
  have hle := reached_le length sizes k
  rw [reached]
  omega

/-- A slice, and what is behind it. -/
theorem take_append_drop_reached {length : ℕ} (hlen : contents.length = length)
    (hle : reached length sizes k ≤ length) :
    (contents.drop (reached length sizes k)).take (sizes k) ++
        contents.drop (reached length sizes (k + 1)) =
      contents.drop (reached length sizes k) := by
  have htake : (contents.drop (reached length sizes k)).take (sizes k) =
      (contents.drop (reached length sizes k)).take
        (min (sizes k) (length - reached length sizes k)) := by
    rw [List.take_eq_take_iff, List.length_drop, hlen]
    omega
  rw [htake, reached_succ, ← List.drop_drop, List.take_append_drop]

/-- What a run of reads needs of its buffer. -/
def Roomy (buffer location length file : ℕ) (sizes : ℕ → ℕ) : Prop :=
  ∀ k, Apart buffer (min (sizes k) file) location length

variable (h : Loaded m location files) (hd : Serves d location files) (hi : i < files.length)
  (hroomy : Roomy buffer location (image files).length files[i].length sizes)
include h hd hroomy

/-- One of the reads, as long as they stay in range. -/
theorem readChunk (hrange : reached files[i].length sizes k + sizes k < 4294967296) :
    let r := vfsRead d m (nodeOf i files[i]) (reached files[i].length sizes k) (sizes k) buffer
    r.1 = min (sizes k) (files[i].length - reached files[i].length sizes k) ∧
      Loaded r.2 location files ∧ taken r.2 buffer r.1 =
        (files[i].contents.drop (reached files[i].length sizes k)).take (sizes k) := by
  intro r
  have hle := reached_le files[i].length sizes k
  have hlen : files[i].contents.length = files[i].length := rfl
  obtain ⟨hroom, hbuffer⟩ := hroomy k
  have hslice : ReadsSlice files[i].contents _ (sizes k) buffer m r :=
    vfsRead_slice h hd hi (.inr hrange) ⟨by omega, by omega⟩
  have hcount : r.1 = min (sizes k) (files[i].length - reached files[i].length sizes k) :=
    hslice.count.trans (if_neg (Nat.not_lt_of_le hle))
  have hintact := hslice.intact h.bytes ⟨by omega, by omega⟩
  have htaken := taken_eq hslice.bytes
  rw [List.length_take, List.length_drop, hlen, ← hcount] at htaken
  exact ⟨hcount, ⟨hintact, h.fits, h.size, h.nonempty⟩, htaken⟩

variable (hsizes : ∀ k, 0 < sizes k ∧ sizes k < 4294967296)
include hsizes

theorem readChunks_drop (hrange : EndsInRange files[i].length sizes)
    (hreach : ∀ j < k, reached files[i].length sizes j < files[i].length)
    (hfuel : files[i].length - reached files[i].length sizes k < fuel) :
    readChunks d (nodeOf i files[i]) buffer sizes fuel k (reached files[i].length sizes k) m =
      some (files[i].contents.drop (reached files[i].length sizes k)) := by
  induction fuel generalizing k m with
  | zero => contradiction
  | succ fuel ih =>
    have hle := reached_le files[i].length sizes k
    have hnext := reached_succ files[i].length sizes k
    have hlen : files[i].contents.length = files[i].length := rfl
    have hpos := (hsizes k).1
    have hend := data_le hi
    have hshort := h.size
    obtain ⟨hcount, hload, htaken⟩ := readChunk h hd hi hroomy (hrange k hreach)
    rw [readChunks]
    by_cases hlast : reached files[i].length sizes k = files[i].length
    · rw [hcount, if_pos (by omega), List.drop_eq_nil_of_le (by omega)]
    · have hmore : ∀ j < k + 1, reached files[i].length sizes j < files[i].length := by
        intro j hj
        by_cases hjk : j = k
        · exact hjk ▸ Nat.lt_of_le_of_ne hle hlast
        · exact hreach j (by omega)
      have hrest := ih hload hmore (by omega)
      rw [if_neg (by omega), htaken, hcount, ← hnext, w32_of_lt (by omega), hrest, Option.map_some]
      exact congrArg some (take_append_drop_reached hlen hle)

theorem readChunks_long {out : List UInt8} {k' : ℕ}
    (hout : readChunks d (nodeOf i files[i]) buffer sizes fuel k (reached files[i].length sizes k) m =
      some out) (hk : k ≤ k') (hreach : ∀ j < k', reached files[i].length sizes j < files[i].length)
    (hwrap : 4294967296 ≤ reached files[i].length sizes k' + sizes k') :
    files[i].length - reached files[i].length sizes k < out.length := by
  induction fuel generalizing k m out with
  | zero => contradiction
  | succ fuel ih =>
    have hle := reached_le files[i].length sizes k
    have hnext := reached_succ files[i].length sizes k
    have hpos := (hsizes k).1
    have hend := data_le hi
    have hshort := h.size
    rw [readChunks] at hout
    by_cases hrange : reached files[i].length sizes k + sizes k < 4294967296
    · obtain ⟨hcount, hload, htaken⟩ := readChunk h hd hi hroomy hrange
      have hne : k ≠ k' := by
        intro heq
        subst heq
        omega
      have hlt := hreach k (by omega)
      rw [if_neg (by omega), Option.map_eq_some_iff] at hout
      obtain ⟨rest, hrest, rfl⟩ := hout
      rw [hcount, ← hnext, w32_of_lt (by omega)] at hrest
      have hlong := ih hload hrest (by omega)
      rw [List.length_append, taken_length, hcount]
      omega
    · have hcount : (vfsRead d m (nodeOf i files[i]) (reached files[i].length sizes k) (sizes k)
          buffer).1 = sizes k :=
        vfsRead_unclamped h hd hi (hsizes k).2 hle (by omega)
      rw [if_neg (by omega), Option.map_eq_some_iff] at hout
      obtain ⟨rest, -, rfl⟩ := hout
      rw [List.length_append, taken_length, hcount]
      omega

theorem readChunks_iff (hfuel : files[i].length < fuel) :
    readChunks d (nodeOf i files[i]) buffer sizes fuel 0 0 m = some files[i].contents ↔
      EndsInRange files[i].length sizes := by
  constructor
  · intro hout k hreach
    by_contra hwrap
    have hlong := readChunks_long h hd hi hroomy hsizes hout (Nat.zero_le k) hreach
      (by omega)
    exact Nat.lt_irrefl _ hlong
  · intro hrange
    exact readChunks_drop h hd hi hroomy hsizes hrange (fun j hj ↦ by omega) hfuel

end Chunks

section Made

/-- What an image holds of a file: all of it, below 4 GiB. -/
def inImage (f : InputFile) : InputFile := { f with contents := stored f.arg }

theorem size_inImage (f : InputFile) : Passes.size (inImage f).arg = Passes.size f.arg := by
  have hlen : (inImage f).length = Passes.size f.arg := stored_length f.arg
  rw [size_arg (hlen ▸ w32_lt _), hlen]

theorem stored_inImage (f : InputFile) : stored (inImage f).arg = stored f.arg := by
  rw [stored, size_inImage, ← stored_length f.arg]
  exact List.take_length

theorem headersAt_inImage (offset : ℕ) (files : List InputFile) :
    headersAt offset ((files.map inImage).map InputFile.arg) =
      headersAt offset (files.map InputFile.arg) := by
  induction files generalizing offset with
  | nil => rfl
  | cons f files ih =>
    simp only [List.map_cons, headersAt, size_inImage, ih]
    rfl

theorem imageOf_inImage (files : List InputFile) :
    imageOf ((files.map inImage).map InputFile.arg) = imageOf (files.map InputFile.arg) := by
  have hstored : ((files.map inImage).map InputFile.arg).flatMap stored =
      (files.map InputFile.arg).flatMap stored := by
    simp only [List.flatMap_map, stored_inImage]
  rw [imageOf, imageOf, hstored, List.length_map, List.length_map, List.length_map, headersAt_inImage]

theorem total_inImage (files : List InputFile) :
    dataStart (files.map inImage) + total (files.map inImage) =
      (imageOf (files.map InputFile.arg)).length := by
  have hsum : total (files.map inImage) = ((files.map InputFile.arg).map Passes.size).sum := by
    rw [total, List.map_map, List.map_map]
    exact congrArg List.sum (List.map_congr_left fun f _ ↦ stored_length f.arg)
  rw [imageOf_length, start, hsum, List.take_length, dataStart, List.length_map, List.length_map]

/-- Every image of `make_initrd` that fits into memory is that of the files it holds. -/
theorem loaded_of_makeInitrd {bytes : List UInt8}
    (hmake : makeInitrd (files.map InputFile.arg) = .ok bytes) (hat : At m location bytes)
    (hfits : location + bytes.length ≤ 4294967296) (hsize : bytes.length < 4294967296) :
    bytes = image (files.map inImage) ∧ Loaded m location (files.map inImage) := by
  have hreadable := readable_args files
  have hne : files ≠ [] := by
    intro hnil
    subst hnil
    cases hmake
  have hcount : files.length ≤ 64 := by
    by_contra hmany
    rw [makeInitrd_outOfRange hreadable (by rw [List.length_map]; omega)] at hmake
    cases hmake
  rw [makeInitrd_readable hreadable (by simpa using hne) (by simpa using hcount)] at hmake
  cases hmake
  have himage : imageOf (files.map InputFile.arg) = image (files.map inImage) := by
    rw [← imageOf_inImage, imageOf_eq]
    rwa [total_inImage]
  rw [himage] at hat hfits hsize ⊢
  exact ⟨rfl, hat, hfits, hsize, by simpa using hne⟩

end Made

/-- In a mounted image, a read delivers the slice of the file that was asked for if and only if
it starts behind the end, or the end that was asked for is below 4 GiB. Reads of any positive
sizes add up to the file if and only if they all meet this. -/
theorem initrdRead_slice_iff {files : List InputFile} {bytes : List UInt8} {m : Bytes}
    {location fuel : ℕ} (hmake : makeInitrd (files.map InputFile.arg) = .ok bytes)
    (hat : At m location bytes) (hfits : location + bytes.length ≤ 4294967296)
    (hsize : bytes.length < 4294967296) (hfuel : 64 ≤ fuel) :
    ∃ d, initialiseInitrd fuel location m = some d ∧ ∀ i (hi : i < files.length), ∃ n,
      d.node (.file i) = some n ∧
      (∀ m' offset size buffer, At m' location bytes → offset < 4294967296 → size < 4294967296 →
        Apart buffer (min size ((stored files[i].arg).length - offset)) location bytes.length →
        (ReadsSlice (stored files[i].arg) offset size buffer m' (vfsRead d m' n offset size buffer) ↔
          (stored files[i].arg).length < offset ∨ offset + size < 4294967296)) ∧
      ∀ m' sizes buffer fuel, At m' location bytes → (∀ k, 0 < sizes k ∧ sizes k < 4294967296) →
        Roomy buffer location bytes.length (stored files[i].arg).length sizes →
        (stored files[i].arg).length < fuel →
        (readChunks d n buffer sizes fuel 0 0 m' = some (stored files[i].arg) ↔
          EndsInRange (stored files[i].arg).length sizes) := by
  obtain ⟨hbytes, hload⟩ := loaded_of_makeInitrd hmake hat hfits hsize
  obtain ⟨d, hinit, hd⟩ := hload.initialise hfuel
  refine ⟨d, hinit, fun i hi ↦ ?_⟩
  have hi' : i < (files.map inImage).length := by rwa [List.length_map]
  have hfile : (files.map inImage)[i] = inImage files[i] := List.getElem_map _
  have hcontents : stored files[i].arg = (files.map inImage)[i].contents := by rw [hfile]; rfl
  refine ⟨_, node_file hd.nodes hi', ?_, ?_⟩
  · intro m' offset size buffer hat' _ hword hapart
    rw [hcontents] at hapart ⊢
    rw [hbytes] at hat' hapart
    exact vfsRead_slice_iff ⟨hat', hload.fits, hload.size, hload.nonempty⟩ hd hi' hword hapart
  · intro m' sizes buffer fuel hat' hsizes hroomy hfuel
    rw [hcontents] at hroomy hfuel ⊢
    rw [hbytes] at hat' hroomy
    exact readChunks_iff ⟨hat', hload.fits, hload.size, hload.nonempty⟩ hd hi' hroomy hsizes hfuel

theorem loaded_twoFiles : Loaded twoFilesMemory 0x100000 twoFiles := by
  have hlen : (image twoFiles).length = 151 := image_length twoFiles
  exact ⟨at_twoFilesMemory, by rw [hlen]; decide, by rw [hlen]; decide, by decide⟩

/-- The tail of a file of three bytes, and the file in chunks of two bytes. -/
theorem initrdRead_slice_iff_twoFiles : ∃ d, initialiseInitrd 64 0x100000 twoFilesMemory = some d ∧
    ∃ n, d.node (.file 0) = some n ∧
      ReadsSlice [1, 2, 3] 1 4096 0x5000 twoFilesMemory (vfsRead d twoFilesMemory n 1 4096 0x5000) ∧
      readChunks d n 0x5000 (fun _ ↦ 2) 4 0 0 twoFilesMemory = some [1, 2, 3] := by
  have hlen : (image twoFiles).length = 151 := image_length twoFiles
  have hload := loaded_twoFiles
  have hmake : makeInitrd (twoFiles.map InputFile.arg) = .ok (image twoFiles) :=
    makeInitrd_eq hload.nonempty (by decide) (by decide)
  obtain ⟨d, hinit, hfiles⟩ := initrdRead_slice_iff hmake hload.bytes hload.fits hload.size le_rfl
  obtain ⟨n, hnode, hread, hchunks⟩ := hfiles 0 (by decide)
  have hroomy : Roomy 0x5000 0x100000 (image twoFiles).length 3 fun _ ↦ 2 := by
    intro k
    show Apart 0x5000 (min 2 3) _ _
    exact ⟨by decide, .inl (by decide)⟩
  have hrange : EndsInRange 3 fun _ ↦ 2 := by
    intro k _
    have hle := reached_le 3 (fun _ ↦ 2) k
    show reached 3 _ k + 2 < _
    omega
  refine ⟨d, hinit, n, hnode, ?_, ?_⟩
  · exact (hread twoFilesMemory 1 4096 0x5000 hload.bytes (by decide) (by decide)
      ⟨by decide, .inl (by decide)⟩).mpr (.inr (by decide))
  · exact (hchunks twoFilesMemory (fun _ ↦ 2) 0x5000 4 hload.bytes (fun _ ↦ by decide) hroomy
      (by decide)).mpr hrange

/-- Reading as much as can be asked for from the second byte on, the end of the file is missed. -/
theorem read_past_end_twoFiles : ∃ d, initialiseInitrd 64 0x100000 twoFilesMemory = some d ∧
    ∃ n, d.node (.file 0) = some n ∧
      (vfsRead d twoFilesMemory n 1 0xFFFFFFFF 0x200000).1 = 0xFFFFFFFF ∧
      ¬ ReadsSlice [1, 2, 3] 1 0xFFFFFFFF 0x200000 twoFilesMemory
        (vfsRead d twoFilesMemory n 1 0xFFFFFFFF 0x200000) := by
  have hload := loaded_twoFiles
  obtain ⟨d, hinit, hd⟩ := hload.initialise le_rfl
  have hcount : (vfsRead d twoFilesMemory (nodeOf 0 twoFiles[0]) 1 0xFFFFFFFF 0x200000).1 =
      0xFFFFFFFF :=
    vfsRead_unclamped hload hd (show 0 < 2 by decide) (by decide) (by decide) (by decide)
  refine ⟨d, hinit, _, node_file hd.nodes (by decide), hcount, fun hread ↦ ?_⟩
  have hexpected := hread.count
  rw [hcount] at hexpected
  exact absurd hexpected (by decide)

end KevOS.Initrd.Slices
