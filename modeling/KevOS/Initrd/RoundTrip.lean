import KevOS.Initrd.Mount

namespace KevOS.Initrd.RoundTrip

open Lib.ByteMemory Lib.ByteString Machine Image Mount

variable {m : Bytes} {location i : ℕ} {files : List InputFile} {s t : List UInt8} {d : Ramdisk}

section Finddir

theorem strcmp_self (s : List UInt8) : strcmp s s = 0 := by
  induction s with
  | nil => rfl
  | cons a s ih => rw [strcmp, if_pos rfl, ih]

/-- Strings that compare as equal are equal, since neither has a zero byte. -/
theorem eq_of_strcmp (hs : 0 ∉ s) (ht : 0 ∉ t) (h : strcmp s t = 0) : s = t := by
  induction s generalizing t with
  | nil =>
    cases t with
    | nil => rfl
    | cons b t =>
      have hb : b.toNat = 0 := by
        rw [strcmp] at h
        omega
      exact absurd (UInt8.toNat_inj.mp hb : b = 0) fun h0 ↦ ht (h0 ▸ List.mem_cons_self)
  | cons a s ih =>
    cases t with
    | nil =>
      have ha : a.toNat = 0 := by
        rw [strcmp] at h
        omega
      exact absurd (UInt8.toNat_inj.mp ha : a = 0) fun h0 ↦ hs (h0 ▸ List.mem_cons_self)
    | cons b t =>
      rw [List.mem_cons, not_or] at hs ht
      by_cases hab : a = b
      · rw [strcmp, if_pos hab] at h
        rw [hab, ih hs.2 ht.2 h]
      · rw [strcmp, if_neg hab] at h
        exact absurd (UInt8.toNat_inj.mp (by omega)) hab

theorem strcmp_ne (hs : 0 ∉ s) (ht : 0 ∉ t) (h : s ≠ t) : strcmp s t ≠ 0 :=
  fun h0 ↦ h (eq_of_strcmp hs ht h0)

/-- A name leads to the first file that has it. -/
theorem finddir_name_iff (hnodes : d.rootNodes = files.mapIdx nodeOf)
    (hcount : d.nrootNodes = files.length) (hlen : files.length < 2147483648)
    (hi : i < files.length) : initrdFinddir d .root files[i].name = some (.file i) ↔
      ∀ j (hj : j < i), files[j].name ≠ files[i].name := by
  have hname := name_noNul files[i]
  have hdot := strcmp_ne hname (by decide) (name_ne_dot files[i])
  have hdotdot := strcmp_ne hname (by decide) (name_ne_dotdot files[i])
  have hat (j : ℕ) (hj : j < files.length) : ((d.rootNodes[j]?).any fun n ↦
      strcmp files[i].name n.name = 0) = decide (files[i].name = files[j].name) := by
    rw [hnodes, List.getElem?_mapIdx, List.getElem?_eq_getElem hj, Option.map_some,
      Option.any_some, nodeOf]
    refine decide_eq_decide.mpr ⟨eq_of_strcmp hname (name_noNul _), fun heq ↦ ?_⟩
    rw [heq]
    exact strcmp_self _
  rw [initrdFinddir, if_neg (fun h ↦ hdot h.2), if_neg (fun h ↦ hdotdot h.2), hcount, turns,
    if_pos hlen, Option.map_eq_some_iff]
  simp only [NodePtr.file.injEq, exists_eq_right, List.find?_range_eq_some, List.mem_range]
  rw [hat i hi, decide_eq_true rfl]
  constructor
  · rintro ⟨-, -, hfirst⟩ j hj heq
    have hnot := hfirst j hj
    rw [hat j (hj.trans hi), heq, decide_eq_true rfl] at hnot
    exact absurd hnot (by decide)
  · intro hfirst
    refine ⟨rfl, hi, fun j hj ↦ ?_⟩
    rw [hat j (hj.trans hi), decide_eq_false (Ne.symm (hfirst j hj))]
    rfl

/-- Each name leads to the node with its own index. -/
theorem finddir_name (hnodes : d.rootNodes = files.mapIdx nodeOf) (hcount : d.nrootNodes = files.length)
    (hlen : files.length < 2147483648) (hdistinct : (files.map InputFile.name).Nodup)
    (hi : i < files.length) : initrdFinddir d .root files[i].name = some (.file i) := by
  rw [finddir_name_iff hnodes hcount hlen hi]
  intro j hj
  have hpair : files.Pairwise fun f g ↦ f.name ≠ g.name := List.pairwise_map.mp hdistinct
  exact List.pairwise_iff_getElem.mp hpair j i (hj.trans hi) hi hj

theorem vfsFinddir_root (hflags : d.initrdRoot.flags = fsDirectory)
    (hfinddir : d.initrdRoot.finddir = true) : vfsFinddir d .root s = initrdFinddir d .root s := by
  have hdir : d.initrdRoot.flags &&& 7 = fsDirectory ∧ d.initrdRoot.finddir = true := by
    rw [hflags]
    exact ⟨by decide, hfinddir⟩
  rw [vfsFinddir, Ramdisk.node, Option.bind_eq_bind, Option.bind_some, if_pos hdir]

end Finddir

section Read

/-- A read from the start, into a buffer outside of the image, delivers the whole file. -/
theorem read_file (h : Loaded m location files) (hd : Serves d location files) (hi : i < files.length) {size buffer : ℕ}
    (hsize : files[i].length ≤ size) (hword : size < 4294967296)
    (hapart : buffer + files[i].length ≤ location ∨ location + (image files).length ≤ buffer) :
    (vfsRead d m (nodeOf i files[i]) 0 size buffer).1 = files[i].length ∧
      At (vfsRead d m (nodeOf i files[i]) 0 size buffer).2 buffer files[i].contents := by
  have hdata := h.data hi
  have hend := data_le hi
  have hfits := h.fits
  have hcut : (if w32 (0 + size) > files[i].length then files[i].length - 0 else size) =
      files[i].length := by
    rw [Nat.zero_add, w32_of_lt hword]
    split_ifs with hgt
    · rfl
    · exact Nat.le_antisymm (Nat.le_of_not_lt hgt) hsize
  rw [h.vfsRead_eq hd hi, if_neg (Nat.not_lt_zero _), hcut]
  refine ⟨rfl, fun j hj ↦ ?_⟩
  have hj' : j < files[i].length := hj
  have haddr : w32 (location + offsetAt files i + 0) = location + offsetAt files i := w32_of_lt (by omega)
  rw [haddr]
  dsimp only
  rw [memcpy_apply (by omega) hj', hdata j hj]

end Read

/-- What `make_initrd` has written and the kernel has mounted gives every file back, under the
first 63 bytes of its name. -/
theorem initrd_roundTrip (files : List InputFile) (hne : files ≠ []) (hcount : files.length ≤ 64)
    (hdistinct : (files.map InputFile.name).Nodup) (hsize : (image files).length < 4294967296) :
    makeInitrd (files.map InputFile.arg) = .ok (image files) ∧
      ∀ m location fuel, At m location (image files) →
        location + (image files).length ≤ 4294967296 → 64 ≤ fuel →
        ∃ d, initialiseInitrd fuel location m = some d ∧ ∀ f ∈ files, ∃ node n,
          vfsFinddir d .root f.name = some node ∧ d.node node = some n ∧ n.length = f.contents.length ∧
          ∀ m' size buffer, At m' location (image files) → f.contents.length ≤ size →
            size < 4294967296 →
            buffer + f.contents.length ≤ location ∨ location + (image files).length ≤ buffer →
            (vfsRead d m' n 0 size buffer).1 = f.contents.length ∧
              At (vfsRead d m' n 0 size buffer).2 buffer f.contents := by
  have hsize' := hsize
  rw [image_length] at hsize'
  refine ⟨makeInitrd_eq hne hcount hsize', fun m location fuel hat hfits hfuel ↦ ?_⟩
  have hload : Loaded m location files := ⟨hat, hfits, hsize, hne⟩
  obtain ⟨d, hinit, hd⟩ := hload.initialise hfuel
  refine ⟨d, hinit, fun f hf ↦ ?_⟩
  obtain ⟨i, hi, rfl⟩ := List.getElem_of_mem hf
  have hfound : vfsFinddir d .root files[i].name = some (.file i) := by
    rw [vfsFinddir_root hd.flags hd.finddir]
    exact finddir_name hd.nodes hd.count (by omega) hdistinct hi
  refine ⟨.file i, nodeOf i files[i], hfound, node_file hd.nodes hi, rfl, fun m' size buffer hat' hle hlt hapart ↦ ?_⟩
  exact read_file ⟨hat', hfits, hsize, hne⟩ hd hi hle hlt hapart

/-- `d/ab` with three bytes, and the empty file `b`. -/
def twoFiles : List InputFile :=
  [⟨[100, 47, 97, 98], [1, 2, 3], by decide, by decide⟩, ⟨[98], [], by decide, by decide⟩]

/-- Memory with the image of `twoFiles` at 1 MiB. -/
def twoFilesMemory : Bytes := fun a ↦ (image twoFiles).getD (a - 0x100000) 0

theorem at_twoFilesMemory : At twoFilesMemory 0x100000 (image twoFiles) := by
  intro j hj
  rw [twoFilesMemory, Nat.add_sub_cancel_left, List.getD_eq_getElem _ _ hj]

theorem initrd_roundTrip_twoFiles : ∃ d, initialiseInitrd 64 0x100000 twoFilesMemory = some d ∧
    ∃ node n, vfsFinddir d .root [97, 98] = some node ∧ d.node node = some n ∧ n.length = 3 ∧
      (vfsRead d twoFilesMemory n 0 4096 0x5000).1 = 3 ∧
      At (vfsRead d twoFilesMemory n 0 4096 0x5000).2 0x5000 [1, 2, 3] := by
  have hlen : (image twoFiles).length = 151 := image_length twoFiles
  have hat := at_twoFilesMemory
  obtain ⟨d, hinit, hfiles⟩ := (initrd_roundTrip twoFiles (by decide) (by decide) (by decide)
    (by rw [hlen]; decide)).2 twoFilesMemory 0x100000 64 hat (by rw [hlen]; decide) le_rfl
  obtain ⟨node, n, hfound, hnode, hn, hread⟩ := hfiles _ (List.mem_cons_self)
  have hdata := hread twoFilesMemory 4096 0x5000 hat (by decide) (by decide) (.inl (by decide))
  exact ⟨d, hinit, node, n, hfound, hnode, hn, hdata⟩

end KevOS.Initrd.RoundTrip
