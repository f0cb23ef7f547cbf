import KevOS.Initrd.Listing
import KevOS.Shell.Replies

namespace KevOS.Shell.Listing

open Lib.ByteMemory Lib.ByteString Machine Commands Builtins Replies Function
open Initrd (Ramdisk)
open Initrd.Image (InputFile image readable_args)
open Initrd.Listing (Mounted)
open Initrd.Slices (loaded_of_makeInitrd)

variable {d : Ramdisk} {files : List InputFile} {fuel i : ℕ}

section Lines

/-- A name leads to a file, if not to its own. -/
theorem finddir_isFile (h : Mounted d files) (hi : i < files.length) :
    ∃ j < files.length, Initrd.vfsFinddir d .root files[i].name = some (.file j) := by
  have hex : ∃ j, ∃ hj : j < files.length, files[j].name = files[i].name := ⟨i, hi, rfl⟩
  obtain ⟨hj, hname⟩ := Nat.find_spec hex
  have hfirst := (h.finddir_file hj).mpr fun j hlt heq ↦ Nat.find_min hex hlt ⟨hlt.trans hj, heq.trans hname⟩
  rw [hname] at hfirst
  exact ⟨Nat.find hex, hj, hfirst⟩

theorem lsLoop_files (h : Mounted d files) (hi : i ≤ files.length) (hfuel : files.length + 1 ≤ fuel + i) :
    Initrd.lsLoop d fuel (i + 2) = some ((files.drop i).map fun f ↦ (false, f.name)) := by
  have hfew := h.few
  induction fuel generalizing i with
  | zero => omega
  | succ fuel ih =>
    rw [Initrd.lsLoop]
    by_cases hlast : i = files.length
    · rw [hlast, h.readdir_none (by omega) le_rfl, List.drop_length]
      rfl
    · have hlt : i < files.length := by omega
      obtain ⟨j, hj, hfound⟩ := finddir_isFile h hlt
      have hnext := ih (i := i + 1) (by omega) (by omega)
      have hadd : w32 (i + 2 + 1) = i + 1 + 2 := w32_of_lt (by omega)
      have hfile : decide ((Initrd.Mount.nodeOf j files[j]).flags &&& 7 = Initrd.fsDirectory) = false :=
        decide_eq_false (show ¬ Initrd.fsFile &&& 7 = Initrd.fsDirectory by decide)
      rw [h.readdir_file hlt]
      dsimp only
      rw [hfound, hadd, hnext, List.drop_eq_getElem_cons hlt, List.map_cons]
      simp only [Option.bind_eq_bind, Option.bind_some, h.node_file hj, Option.map_some, hfile]
      rfl

/-- The two directories, and the files in the order of the image. -/
theorem lsLoop_eq (h : Mounted d files) (hfuel : files.length + 3 ≤ fuel) :
    Initrd.lsLoop d fuel 0 = some ((true, [46]) :: (true, [46, 46]) :: files.map fun f ↦ (false, f.name)) := by
  obtain ⟨fuel, rfl⟩ := Nat.exists_eq_add_of_le' (show 2 ≤ fuel by omega)
  have hroot : d.node .root = some d.initrdRoot := rfl
  have hdir : decide (d.initrdRoot.flags &&& 7 = Initrd.fsDirectory) = true := by
    rw [h.flags]
    decide
  have hdot : Initrd.vfsFinddir d .root [46] = some .root := @Mounted.finddir_root d files ⟨[46], 0⟩ h (.inl rfl)
  have hdotdot : Initrd.vfsFinddir d .root [46, 46] = some .root :=
    @Mounted.finddir_root d files ⟨[46, 46], 0⟩ h (.inr rfl)
  have hfiles := lsLoop_files h (i := 0) (Nat.zero_le _) (show files.length + 1 ≤ fuel + 0 by omega)
  rw [List.drop_zero] at hfiles
  have h1 : w32 (0 + 1) = 1 := rfl
  have h2 : w32 (1 + 1) = 0 + 2 := rfl
  rw [Initrd.lsLoop, h.readdir_zero]
  dsimp only
  rw [hdot, h1, Initrd.lsLoop, h.readdir_one]
  dsimp only
  rw [hdotdot, h2, hfiles]
  simp only [Option.bind_eq_bind, Option.bind_some, hroot, hdir, Option.map_some]
  rfl

end Lines

section Printed

variable {k : Kernel} {m : Bytes} {cmd n : ℕ} {other : Builtin → ℕ → Lib.Program.Prog State Unit} {st : State}

theorem valid_mounted (hk : Valid { k with fsRoot := none } m cmd n) (h : Mounted d files) :
    Valid { k with fsRoot := some d } m cmd n := by
  have hfew := h.few
  refine ⟨hk.memory, hk.tasks, hk.texts, fun d' hd' ↦ ?_, hk.dirent⟩
  obtain rfl : d = d' := Option.some.inj hd'
  have hname : ∀ node ∈ d.rootNodes, ∃ f : InputFile, node.name = f.name := by
    intro node hnode
    rw [h.nodes, List.mem_mapIdx] at hnode
    obtain ⟨i, hi, rfl⟩ := hnode
    exact ⟨files[i], rfl⟩
  refine ⟨⟨?_, fun node hnode ↦ ?_⟩, fun node hnode ↦ ?_⟩
  · rw [h.nodes, List.length_mapIdx, h.count, Initrd.turns]
    split_ifs <;> omega
  · obtain ⟨f, hf⟩ := hname node hnode
    rw [hf]
    exact ⟨Initrd.Image.name_noNul f, (Initrd.Image.name_length f).trans_lt (by decide)⟩
  · obtain ⟨f, hf⟩ := hname node hnode
    rw [hf]
    exact (Initrd.Image.name_length f).trans_lt (by decide)

/-- The image that `make_initrd` writes is listed by `ls` file by file, in the order of the arguments, with
the first 63 bytes of each name. -/
theorem ls_prints (files : List InputFile) (hne : files ≠ []) (hcount : files.length ≤ 64) :
    ∃ bytes, Initrd.makeInitrd (files.map InputFile.arg) = .ok bytes ∧
      (bytes.length < 4294967296 → ∀ m location, At m location bytes →
        location + bytes.length ≤ 4294967296 →
        ∃ d, Initrd.initialiseInitrd 64 location m = some d ∧
          ∀ (k : Kernel) cmd buf other fuel (st : State), Valid { k with fsRoot := none } st.memory cmd 3 →
            At st.memory cmd (text "ls" ++ [0]) → cmd ≠ 0 → cmd + 3 ≤ 4294967296 → files.length + 3 ≤ fuel →
            ∃ m', (shellExecute (builtin { k with fsRoot := some d } fuel other) (some d) buf cmd).run st =
              .ok () ⟨m', st.output ++ (text "(dir) .\n(dir) ..\n" ++ files.flatMap fun f ↦
                text "(file) " ++ (Initrd.basename f.path).take 63 ++ [10])⟩) := by
  have hmake := Initrd.Passes.makeInitrd_readable (readable_args files) (by simpa using hne) (by simpa using hcount)
  refine ⟨_, hmake, fun hsize m location hat hfits ↦ ?_⟩
  have hload := (loaded_of_makeInitrd hmake hat hfits hsize).2
  obtain ⟨d, hinit, h⟩ := Initrd.Listing.mounted_of_loaded hload le_rfl (by rwa [List.length_map])
  refine ⟨d, hinit, fun k cmd buf other fuel st hk hline hcmd hroom hfuel ↦ ?_⟩
  have hlen : (text "ls").length = 2 := by decide
  have hword : commandOf (word (text "ls")) names = some .ls := by decide
  have hdirs : text "(dir) .\n(dir) ..\n" = lsLine (true, [46]) ++ lsLine (true, [46, 46]) := by decide
  have hout : reply { k with fsRoot := some d } fuel (text "ls") = some (text "(dir) .\n(dir) ..\n" ++
      files.flatMap fun f ↦ text "(file) " ++ (Initrd.basename f.path).take 63 ++ [10]) := by
    rw [reply, if_neg (by decide), hword]
    dsimp only [answer]
    rw [lsLoop_eq h (by rwa [List.length_map]), Option.map_some, List.flatMap_cons, List.flatMap_cons,
      List.flatMap_map, List.flatMap_map, hdirs, List.append_assoc]
    rfl
  obtain ⟨m', -, hrun⟩ := @execute_reply _ _ st.output _ cmd fuel other _ buf (valid_mounted hk h) hline (by decide)
    hcmd (by rwa [hlen]) hout
  exact ⟨m', run_of_returns hrun⟩

/-- Memory with the line at 0x8000, the strings of `ps`, and an image at 1 MiB. -/
def lsMemory (files : List InputFile) : Bytes := fun a ↦
  if a < 0x100000 then lineMemory (text "ls") a else (image files).getD (a - 0x100000) 0

theorem ls_prints_twoFiles : ∃ d st, Initrd.initialiseInitrd 64 0x100000 (lsMemory Initrd.RoundTrip.twoFiles) = some d ∧
    (shellExecute (builtin { bareKernel with fsRoot := some d } 5 fun _ _ ↦ pure ()) (some d) 0xC000 0x8000).run
      ⟨lsMemory Initrd.RoundTrip.twoFiles, []⟩ = .ok () st ∧
    st.output = text "(dir) .\n(dir) ..\n(file) ab\n(file) b\n" := by
  have hlen : (image Initrd.RoundTrip.twoFiles).length = 151 := Initrd.Image.image_length Initrd.RoundTrip.twoFiles
  have hls : (text "ls").length = 2 := by decide
  have hat : At (lsMemory Initrd.RoundTrip.twoFiles) 0x100000 (image Initrd.RoundTrip.twoFiles) := by
    intro j hj
    rw [lsMemory, if_neg (by omega), Nat.add_sub_cancel_left, List.getD_eq_getElem _ _ hj]
  have hline : At (lsMemory Initrd.RoundTrip.twoFiles) 0x8000 (text "ls" ++ [0]) := by
    intro j hj
    rw [List.length_append, List.length_singleton] at hj
    rw [lsMemory, if_pos (by omega), lineMemory, if_pos (by omega), Nat.add_sub_cancel_left, List.getD_eq_getElem]
  have hk : Valid bareKernel (lsMemory Initrd.RoundTrip.twoFiles) 0x8000 3 := by
    refine (@bareKernel_valid (text "ls") 3 (by decide)).congr fun a ha b _ hb ↦ if_pos ?_
    simp only [bareKernel, List.mem_cons, List.not_mem_nil, or_false] at ha
    rcases ha with rfl | rfl <;> omega
  have hmade : Initrd.makeInitrd (Initrd.RoundTrip.twoFiles.map InputFile.arg) =
      .ok (image Initrd.RoundTrip.twoFiles) := Initrd.Image.makeInitrd_eq (by decide) (by decide) (by decide)
  obtain ⟨bytes, hmake, hmount⟩ := ls_prints Initrd.RoundTrip.twoFiles (by decide) (by decide)
  cases hmade.symm.trans hmake
  obtain ⟨d, hinit, hls⟩ := hmount (by rw [hlen]; decide) _ 0x100000 hat (by rw [hlen]; decide)
  obtain ⟨m', hrun⟩ := hls bareKernel 0x8000 0xC000 (fun _ _ ↦ pure ()) 5 ⟨_, []⟩ hk hline (by decide) (by decide)
    (by decide)
  have hout : text "(dir) .\n(dir) ..\n" ++ (Initrd.RoundTrip.twoFiles.flatMap fun f ↦
      text "(file) " ++ (Initrd.basename f.path).take 63 ++ [10]) =
        text "(dir) .\n(dir) ..\n(file) ab\n(file) b\n" := by decide
  exact ⟨d, _, hinit, hrun, hout⟩

end Printed

end KevOS.Shell.Listing
