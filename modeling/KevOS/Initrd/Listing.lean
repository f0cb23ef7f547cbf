import KevOS.Initrd.Slices

namespace KevOS.Initrd.Listing

open Lib.ByteMemory Lib.ByteString Machine Passes Image Mount RoundTrip Slices

/-- The directory listed by index and looked up by name. -/
structure Agrees (d : Ramdisk) (files : List InputFile) : Prop where
  listed : ∀ index < files.length + 2, (vfsReaddir d .root index).isSome
  ends : vfsReaddir d .root (files.length + 2) = none
  ls_ends : ∀ fuel, files.length + 3 ≤ fuel → (lsLoop d fuel 0).isSome
  inode : ∀ index < 4294967296, ∀ entry, vfsReaddir d .root index = some entry →
    ∃ node n, vfsFinddir d .root entry.name = some node ∧ d.node node = some n ∧
      n.inode = entry.ino
  file : ∀ i (hi : i < files.length) entry, vfsReaddir d .root (i + 2) = some entry →
    vfsFinddir d .root entry.name = some (.file i) ∧ d.node (.file i) = some (nodeOf i files[i])

/-- The state of the file system after mounting. -/
structure Mounted (d : Ramdisk) (files : List InputFile) : Prop where
  flags : d.initrdRoot.flags = fsDirectory
  finddir : d.initrdRoot.finddir = true
  readdir : d.initrdRoot.readdir = true
  inode : d.initrdRoot.inode = 0
  nodes : d.rootNodes = files.mapIdx nodeOf
  count : d.nrootNodes = files.length
  few : files.length ≤ 64

variable {d : Ramdisk} {files : List InputFile} {i index : ℕ} {entry : Dirent}

theorem Mounted.readdir_eq (h : Mounted d files) :
    vfsReaddir d .root index = initrdReaddir d .root index := by
  have hdir : d.initrdRoot.flags &&& 7 = fsDirectory ∧ d.initrdRoot.readdir = true := by
    rw [h.flags]
    exact ⟨by decide, h.readdir⟩
  rw [vfsReaddir, Ramdisk.node, Option.bind_eq_bind, Option.bind_some, if_pos hdir]

theorem Mounted.node_file (h : Mounted d files) (hi : i < files.length) :
    d.node (.file i) = some (nodeOf i files[i]) :=
  Mount.node_file h.nodes hi

theorem Mounted.readdir_file (h : Mounted d files) (hi : i < files.length) :
    vfsReaddir d .root (i + 2) = some ⟨files[i].name, i⟩ := by
  have hfew := h.few
  have hsub : sub32 (i + 2) 2 = i := sub32_of_le (by omega) (by omega)
  have hnode := h.node_file hi
  rw [Ramdisk.node] at hnode
  rw [h.readdir_eq, initrdReaddir, if_neg (by omega), if_neg (by omega), hsub, h.count, if_pos hi,
    hnode]
  rfl

theorem Mounted.readdir_none (h : Mounted d files) (hlt : index < 4294967296)
    (hi : files.length + 2 ≤ index) : vfsReaddir d .root index = none := by
  have hsub : sub32 index 2 = index - 2 := sub32_of_le (by omega) hlt
  rw [h.readdir_eq, initrdReaddir, if_neg (by omega), if_neg (by omega), hsub, h.count,
    if_neg (by omega)]

theorem Mounted.readdir_zero (h : Mounted d files) : vfsReaddir d .root 0 = some ⟨[46], 0⟩ := by
  rw [h.readdir_eq, initrdReaddir, if_pos ⟨rfl, rfl⟩]

theorem Mounted.readdir_one (h : Mounted d files) :
    vfsReaddir d .root 1 = some ⟨[46, 46], 0⟩ := by
  rw [h.readdir_eq, initrdReaddir, if_neg (by decide), if_pos ⟨rfl, rfl⟩]

/-- An index is one of the two directories', a file's, or behind the last. -/
theorem index_cases (files : List InputFile) (index : ℕ) :
    index = 0 ∨ index = 1 ∨ (∃ i < files.length, index = i + 2) ∨ files.length + 2 ≤ index := by
  by_cases hlt : files.length + 2 ≤ index
  · exact .inr (.inr (.inr hlt))
  · by_cases h0 : index = 0
    · exact .inl h0
    · by_cases h1 : index = 1
      · exact .inr (.inl h1)
      · exact .inr (.inr (.inl ⟨index - 2, by omega, by omega⟩))

theorem Mounted.listed (h : Mounted d files) (hi : index < files.length + 2) :
    (vfsReaddir d .root index).isSome := by
  obtain rfl | rfl | ⟨i, hi', rfl⟩ | hle := index_cases files index
  · rw [h.readdir_zero, Option.isSome_some]
  · rw [h.readdir_one, Option.isSome_some]
  · rw [h.readdir_file hi', Option.isSome_some]
  · omega

theorem Mounted.lsLoop_ends (h : Mounted d files) {fuel : ℕ} (hi : i ≤ files.length + 2)
    (hfuel : files.length + 3 ≤ fuel + i) : (lsLoop d fuel i).isSome := by
  have hfew := h.few
  induction fuel generalizing i with
  | zero => omega
  | succ fuel ih =>
    rw [lsLoop]
    by_cases hlast : i = files.length + 2
    · rw [hlast, h.readdir_none (by omega) le_rfl, Option.isSome_some]
    · obtain ⟨entry, hentry⟩ := Option.isSome_iff_exists.mp (h.listed (show i < _ by omega))
      rw [hentry]
      dsimp only
      rw [Option.isSome_map, w32_of_lt (by omega)]
      exact ih (by omega) (by omega)

theorem Mounted.finddir_root (h : Mounted d files) (hname : entry.name = [46] ∨ entry.name = [46, 46]) :
    vfsFinddir d .root entry.name = some .root := by
  rw [vfsFinddir_root h.flags h.finddir, initrdFinddir]
  rcases hname with hname | hname
  · rw [hname, if_pos ⟨rfl, by decide⟩]
  · rw [hname, if_neg (fun hdot ↦ absurd hdot.2 (by decide)), if_pos ⟨rfl, by decide⟩]

theorem Mounted.finddir_file (h : Mounted d files) (hi : i < files.length) :
    vfsFinddir d .root files[i].name = some (.file i) ↔
      ∀ j (hj : j < i), files[j].name ≠ files[i].name := by
  have hfew := h.few
  rw [vfsFinddir_root h.flags h.finddir]
  exact finddir_name_iff h.nodes h.count (by omega) hi

theorem Mounted.agrees_iff (h : Mounted d files) :
    Agrees d files ↔ (files.map InputFile.name).Nodup := by
  have hfew := h.few
  constructor
  · intro hagrees
    have hpair : files.Pairwise fun f g ↦ f.name ≠ g.name := by
      refine List.pairwise_iff_getElem.mpr fun i j hi hj hij ↦ ?_
      have hfound := (hagrees.file j hj _ (h.readdir_file hj)).1
      exact (h.finddir_file hj).mp hfound i hij
    exact List.pairwise_map.mpr hpair
  · intro hdistinct
    have hfound (i : ℕ) (hi : i < files.length) :
        vfsFinddir d .root files[i].name = some (.file i) := by
      have hpair : files.Pairwise fun f g ↦ f.name ≠ g.name := List.pairwise_map.mp hdistinct
      exact (h.finddir_file hi).mpr fun j hj ↦ List.pairwise_iff_getElem.mp hpair j i _ hi hj
    refine ⟨fun index hi ↦ h.listed hi, h.readdir_none (by omega) le_rfl, fun fuel hfuel ↦ ?_,
      fun index hlt entry hentry ↦ ?_, fun i hi entry hentry ↦ ?_⟩
    · exact h.lsLoop_ends (Nat.zero_le _) (by omega)
    · have hroot : d.node .root = some d.initrdRoot := rfl
      obtain rfl | rfl | ⟨i, hi, rfl⟩ | hle := index_cases files index
      · cases h.readdir_zero.symm.trans hentry
        exact ⟨.root, d.initrdRoot, h.finddir_root (.inl rfl), hroot, h.inode⟩
      · cases h.readdir_one.symm.trans hentry
        exact ⟨.root, d.initrdRoot, h.finddir_root (.inr rfl), hroot, h.inode⟩
      · cases (h.readdir_file hi).symm.trans hentry
        exact ⟨.file i, nodeOf i files[i], hfound i hi, h.node_file hi, rfl⟩
      · rw [h.readdir_none hlt hle] at hentry
        cases hentry
    · rw [h.readdir_file hi] at hentry
      cases hentry
      exact ⟨hfound i hi, h.node_file hi⟩

theorem mounted_of_loaded {m : Bytes} {location fuel : ℕ} (h : Loaded m location files)
    (hfuel : 64 ≤ fuel) (hfew : files.length ≤ 64) :
    ∃ d, initialiseInitrd fuel location m = some d ∧ Mounted d files := by
  obtain ⟨d, hinit, hd⟩ := h.initialise hfuel
  exact ⟨d, hinit, hd.flags, hd.finddir, hd.readdir, hd.inode, hd.nodes, hd.count, hfew⟩

/-- The image that `make_initrd` writes is listed and looked up alike, once it is mounted, if
and only if no two files have the same first 63 bytes of their names. -/
theorem listing_agrees_iff (files : List InputFile) (hne : files ≠ []) (hcount : files.length ≤ 64) :
    ∃ bytes, makeInitrd (files.map InputFile.arg) = .ok bytes ∧
      (bytes.length < 4294967296 → ∀ m location fuel, At m location bytes →
        location + bytes.length ≤ 4294967296 → 64 ≤ fuel →
        ∃ d, initialiseInitrd fuel location m = some d ∧
          (Agrees d (files.map inImage) ↔ (files.map fun f ↦ (basename f.path).take 63).Nodup)) := by
  have hmake := makeInitrd_readable (readable_args files) (by simpa using hne) (by simpa using hcount)
  refine ⟨_, hmake, fun hsize m location fuel hat hfits hfuel ↦ ?_⟩
  have hload := (loaded_of_makeInitrd hmake hat hfits hsize).2
  obtain ⟨d, hinit, hmounted⟩ := mounted_of_loaded hload hfuel (by rwa [List.length_map])
  refine ⟨d, hinit, ?_⟩
  rw [hmounted.agrees_iff, List.map_map]
  rfl

theorem listing_agrees_iff_twoFiles : ∃ d,
    initialiseInitrd 64 0x100000 twoFilesMemory = some d ∧ Agrees d twoFiles := by
  have hlen : (image twoFiles).length = 151 := image_length twoFiles
  have hmade : makeInitrd (twoFiles.map InputFile.arg) = .ok (image twoFiles) :=
    makeInitrd_eq (by decide) (by decide) (by decide)
  have hsame : twoFiles.map inImage = twoFiles := rfl
  obtain ⟨bytes, hmake, hagrees⟩ := listing_agrees_iff twoFiles (by decide) (by decide)
  cases hmade.symm.trans hmake
  obtain ⟨d, hinit, hd⟩ := hagrees (by rw [hlen]; decide) twoFilesMemory 0x100000 64 at_twoFilesMemory
    (by rw [hlen]; decide) le_rfl
  rw [hsame] at hd
  exact ⟨d, hinit, hd.mpr (by decide)⟩

/-- The files `a/x` and `b/x`, the second one with a byte in it. -/
def sameNames : List InputFile :=
  [⟨[97, 47, 120], [], by decide, by decide⟩, ⟨[98, 47, 120], [1], by decide, by decide⟩]

def sameNamesMemory : Bytes := fun a ↦ (image sameNames).getD (a - 0x100000) 0

/-- `ls` lists `x` with inode 1, and looking `x` up leads to the other file. -/
theorem sameNames_first_found : ∃ d, initialiseInitrd 64 0x100000 sameNamesMemory = some d ∧
    vfsReaddir d .root 3 = some ⟨[120], 1⟩ ∧ vfsFinddir d .root [120] = some (.file 0) ∧
    ¬ Agrees d sameNames := by
  have hlen : (image sameNames).length = 149 := image_length sameNames
  have hat : At sameNamesMemory 0x100000 (image sameNames) := by
    intro j hj
    rw [sameNamesMemory, Nat.add_sub_cancel_left, List.getD_eq_getElem _ _ hj]
  obtain ⟨d, hinit, h⟩ := @mounted_of_loaded _ _ _ 64 ⟨hat, by rw [hlen]; decide,
    by rw [hlen]; decide, by decide⟩ le_rfl (by decide)
  have hlisted : vfsReaddir d .root 3 = some ⟨[120], 1⟩ := h.readdir_file (show 1 < 2 by decide)
  have hfound : vfsFinddir d .root [120] = some (.file 0) :=
    (h.finddir_file (show 0 < 2 by decide)).mpr fun j hj ↦ absurd hj (Nat.not_lt_zero j)
  refine ⟨d, hinit, hlisted, hfound, fun hagrees ↦ ?_⟩
  have hother := (hagrees.file 1 (by decide) _ hlisted).1
  cases hfound.symm.trans hother

end KevOS.Initrd.Listing
