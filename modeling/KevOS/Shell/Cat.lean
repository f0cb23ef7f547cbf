import KevOS.Initrd.Slices
import KevOS.Libc.Format
import KevOS.Shell.Commands

namespace KevOS.Shell.Cat

open Lib.Program Lib.ByteMemory Lib.ByteString Machine Libc CharPtr Format Commands Function
open Initrd (Ramdisk NodePtr FsNode)

def view : View State where
  char s a := some (s.memory a)
  written := State.output
  reads _ := []
  ready _ := True
  load_ok {s a c} _ hc := by
    cases hc
    exact ⟨s, rfl, rfl, rfl, fun b hb ↦ .inl hb, trivial⟩
  put_ok {s} c _ := ⟨{ s with output := s.output ++ [c] }, rfl, rfl, rfl, List.Subset.refl _, trivial⟩

/-- The memory is `m`, and `w` has been written. -/
abbrev Holds (m : Bytes) (w : List UInt8) : State → Prop :=
  view.Sees (fun a ↦ some (m a)) Set.univ w

variable {m : Bytes} {w s t : List UInt8} {cmd args buf i k n : ℕ} {p : CharPtr} {r : ℕ}

theorem holds_iff {st : State} : Holds m w st ↔ st = ⟨m, w⟩ := by
  constructor
  · rintro ⟨hchar, hwritten, -⟩
    have hmemory : st.memory = m := by
      funext a
      exact Option.some.inj (congrFun hchar a)
    cases st
    cases hmemory
    cases hwritten
    rfl
  · rintro rfl
    exact ⟨rfl, rfl, fun _ _ ↦ trivial, trivial⟩

theorem inside_univ (p : CharPtr) (n : ℕ) : Inside Set.univ p n := fun _ _ _ _ ↦ trivial

/-- A string within memory. -/
theorem isString_of_at {a : ℕ} (h : At m a (s ++ [0])) (hs : 0 ∉ s)
    (hfits : a + (s.length + 1) ≤ 4294967296) : IsString (fun a ↦ some (m a)) (.addr a) s where
  chars i hi := by
    have hc := h i (by rw [List.length_append]; omega)
    rw [List.getElem_append_left hi] at hc
    rw [charAt, w32_of_lt (by omega), hc]
  stop := by
    have hc := (at_append.mp h).2 0 Nat.zero_lt_one
    rw [Nat.add_zero] at hc
    rw [charAt, w32_of_lt (by omega), hc]
    rfl
  noNul := hs
  short := by
    unfold loopBound
    omega

section Steps

theorem storeChar_returns (a : ℕ) (c : UInt8) :
    Returns (Holds m w) (storeChar a c) () (Holds (update m a c) w) := by
  refine Returns.modify fun st hst ↦ ?_
  rw [holds_iff] at hst ⊢
  rw [hst]

theorem vfsRead_returns (d : Ramdisk) (node : FsNode) (offset size buffer : ℕ) :
    Returns (Holds m w) (vfsRead d node offset size buffer)
      (Initrd.vfsRead d m node offset size buffer).1
      (Holds (Initrd.vfsRead d m node offset size buffer).2 w) := by
  intro st hst
  rw [holds_iff] at hst
  subst hst
  exact ⟨_, rfl, holds_iff.mpr rfl⟩

theorem say_returns {format : String} {values : List Value} {words : List ℕ} {out : List UInt8}
    (href : reference (text format) values = some out) (hformat : 0 ∉ text format)
    (hshort : (text format).length < loopBound)
    (hwords : List.Forall₂ (Passes fun a ↦ some (m a)) values words) :
    Returns (Holds m w) (say format words) () (Holds m (w ++ out)) := by
  have hprint : Returns (Holds m w) (printf (.literal (text format)) (words ++ [])) (w32 out.length)
      (Holds m (w ++ out)) :=
    printf_returns view href (isString_literal hformat hshort) (inside_univ _ _) hwords
      fun _ _ _ ↦ inside_univ _ _
  rw [List.append_nil] at hprint
  exact hprint.bind (.pure ())

/-- A string compared with one of the kernel's own. -/
theorem strcmp_literal (hs : IsString (fun a ↦ some (m a)) p s) (ht : 0 ∉ t)
    (hshort : t.length < loopBound) :
    Returns (Holds m w) (Strings.strcmp p (.literal t)) (Initrd.strcmp s t) (Holds m w) :=
  Strings.strcmp_returns view hs (isString_literal ht hshort) (inside_univ _ _) (inside_univ _ _)

end Steps

section Split

/-- The first space is overwritten, and the arguments start behind it. -/
theorem splitLoop_returns (hbefore : ∀ j < k, m (w32 (cmd + j)) ≠ 32) (hspace : m (w32 (cmd + k)) = 32)
    (hi : i ≤ k) (hk : k < i + n) :
    Returns (Holds m w) (splitLoop cmd i n) (w32 (cmd + (k + 1)))
      (Holds (update m (w32 (cmd + k)) 0) w) := by
  induction n generalizing i with
  | zero => omega
  | succ n ih =>
    have hread : Returns (Holds m w) (readChar (.addr cmd) i) (m (w32 (cmd + i))) (Holds m w) :=
      readChar_returns view rfl fun _ _ ↦ trivial
    refine hread.bind ?_
    by_cases hlast : i = k
    · subst hlast
      exact .ite_pos hspace ((storeChar_returns _ _).seq (.pure _))
    · exact .ite_neg (hbefore i (by omega)) (ih (by omega) (by omega))

variable {word rest : List UInt8}

/-- A command line with arguments: its name and its arguments as strings, behind the split. -/
theorem split_line (h : At m cmd (word ++ 32 :: (rest ++ [0]))) (hword : 0 ∉ word) (hspace : 32 ∉ word)
    (hrest : 0 ∉ rest) (hroom : cmd + (word.length + rest.length + 2) ≤ 4294967296) :
    let m₁ := update m (cmd + word.length) 0
    Returns (Holds m w) (splitLoop cmd 0 (word ++ 32 :: rest).length) (cmd + (word.length + 1))
        (Holds m₁ w) ∧
      IsString (fun a ↦ some (m₁ a)) (.addr cmd) word ∧
      IsString (fun a ↦ some (m₁ a)) (.addr (cmd + (word.length + 1))) rest := by
  intro m₁
  have hsplit := at_append.mp h
  have hname := hsplit.1
  have hargs : At m (cmd + word.length + 1) (rest ++ [0]) :=
    (at_append.mp (show At m _ ([32] ++ (rest ++ [0])) from hsplit.2)).2
  have hat : m (cmd + word.length) = 32 := hsplit.2 0 (Nat.succ_pos _)
  have hkept {a : ℕ} (ha : a ≠ cmd + word.length) : m₁ a = m a := update_of_ne ha _ _
  have hlen : (word ++ 32 :: rest).length = word.length + rest.length + 1 := by
    rw [List.length_append, List.length_cons, Nat.add_assoc]
  refine ⟨?_, ?_, ?_⟩
  · have haddr : w32 (cmd + word.length) = cmd + word.length := w32_of_lt (by omega)
    have hbehind : w32 (cmd + (word.length + 1)) = cmd + (word.length + 1) := w32_of_lt (by omega)
    have hbefore : ∀ j < word.length, m (w32 (cmd + j)) ≠ 32 := by
      intro j hj hblank
      rw [w32_of_lt (by omega), hname j hj] at hblank
      exact hspace (hblank ▸ List.getElem_mem hj)
    have hloop : Returns (Holds m w) (splitLoop cmd 0 (word ++ 32 :: rest).length) _ _ :=
      splitLoop_returns hbefore (by rwa [haddr]) (Nat.zero_le _) (by omega)
    rwa [haddr, hbehind] at hloop
  · refine isString_of_at (at_append.mpr ⟨hname.congr fun a _ hlt ↦ hkept (by omega), fun j hj ↦ ?_⟩)
      hword (by omega)
    obtain rfl : j = 0 := Nat.lt_one_iff.mp hj
    exact update_self _ _ _
  · refine isString_of_at (At.congr ?_ fun a hlow _ ↦ hkept (by omega)) hrest (by omega)
    rwa [Nat.add_assoc] at hargs

end Split

section Dispatch

variable {run : Builtin → ℕ → Prog State Unit} {name : String} {command : Builtin}
  {rest l : List (String × Builtin)} {Q : State → Prop}

theorem dispatch_hit (hs : IsString (fun a ↦ some (m a)) (.addr cmd) (text name))
    (hrun : Returns (Holds m w) (run command args) () Q) :
    Returns (Holds m w) (dispatch run cmd args ((name, command) :: rest)) () Q := by
  exact (strcmp_literal hs hs.noNul hs.short).bind (.ite_pos (Initrd.RoundTrip.strcmp_self _) hrun)

/-- The command is none of the first ones. -/
theorem dispatch_skip (hs : IsString (fun a ↦ some (m a)) (.addr cmd) s)
    (hl : ∀ e ∈ l, 0 ∉ text e.1 ∧ (text e.1).length < loopBound ∧ Initrd.strcmp s (text e.1) ≠ 0)
    (hrest : Returns (Holds m w) (dispatch run cmd args rest) () Q) :
    Returns (Holds m w) (dispatch run cmd args (l ++ rest)) () Q := by
  induction l with
  | nil => exact hrest
  | cons e l ih =>
    rw [List.forall_mem_cons] at hl
    obtain ⟨⟨hnul, hshort, hne⟩, hl⟩ := hl
    exact (strcmp_literal hs hnul hshort).bind (.ite_neg hne (ih hl))

theorem dispatch_cat (hs : IsString (fun a ↦ some (m a)) (.addr cmd) (text "cat"))
    (hrun : Returns (Holds m w) (run .cat args) () Q) :
    Returns (Holds m w) (dispatch run cmd args names) () Q := by
  have hsplit : names = names.dropLast ++ [("cat", .cat)] := rfl
  rw [hsplit]
  exact dispatch_skip hs (by decide) (dispatch_hit hs hrun)

/-- A command line with arguments is split, and dispatched. -/
theorem execute_line {word rest : List UInt8} (h : At m cmd (word ++ 32 :: (rest ++ [0]))) (hword : 0 ∉ word)
    (hspace : 32 ∉ word) (hrest : 0 ∉ rest) (hroom : cmd + (word.length + rest.length + 2) ≤ 4294967296)
    (hrun : Returns (Holds (update m (cmd + word.length) 0) w)
      (dispatch run cmd (cmd + (word.length + 1)) names) () Q) :
    Returns (Holds m w) (execute run cmd) () Q := by
  obtain ⟨hsplit, -, -⟩ := @split_line m w cmd word rest h hword hspace hrest hroom
  have hne : ¬ (word ++ 32 :: rest).length = 0 := by simp
  have hline : IsString (fun a ↦ some (m a)) (.addr cmd) (word ++ 32 :: rest) := by
    have hat : At m cmd ((word ++ 32 :: rest) ++ [0]) := by
      rwa [List.append_assoc, List.cons_append]
    refine isString_of_at hat ?_ ?_
    · simp [hword, hrest]
    · rw [List.length_append, List.length_cons]
      omega
  exact (strlen_returns view hline (inside_univ _ _)).bind (.ite_neg hne (hsplit.bind hrun))

end Dispatch

section Lookup

variable {d : Ramdisk} {node : NodePtr}

/-- The nodes are there, with their names. -/
structure Nodes (d : Ramdisk) : Prop where
  count : Initrd.turns d.nrootNodes ≤ d.rootNodes.length
  names : ∀ node ∈ d.rootNodes, 0 ∉ node.name ∧ node.name.length < loopBound

theorem finddirLoop_returns (hd : Nodes d) (hs : IsString (fun a ↦ some (m a)) p s) {is : List ℕ}
    (his : ∀ i ∈ is, i < d.rootNodes.length) :
    Returns (Holds m w) (finddirLoop d p is)
      ((is.find? fun i ↦ (d.rootNodes[i]?).any fun n ↦ Initrd.strcmp s n.name = 0).map .file)
      (Holds m w) := by
  induction is with
  | nil => exact .pure _
  | cons i is ih =>
    rw [List.forall_mem_cons] at his
    obtain ⟨hnul, hshort⟩ := hd.names _ (List.getElem_mem his.1)
    have hcmp := strcmp_literal (w := w) hs hnul hshort
    rw [finddirLoop, List.getElem?_eq_getElem his.1]
    dsimp only
    by_cases heq : Initrd.strcmp s d.rootNodes[i].name = 0
    · rw [List.find?_cons_of_pos (by simp [List.getElem?_eq_getElem his.1, heq])]
      exact hcmp.bind (.ite_pos heq (.pure _))
    · rw [List.find?_cons_of_neg (by simp [List.getElem?_eq_getElem his.1, heq])]
      exact hcmp.bind (.ite_neg heq (ih his.2))

theorem isRootNamed_returns (hs : IsString (fun a ↦ some (m a)) p s) {name : String}
    (hname : 0 ∉ text name) (hshort : (text name).length < loopBound) :
    Returns (Holds m w) (isRootNamed node p name)
      (decide (node = .root ∧ Initrd.strcmp s (text name) = 0)) (Holds m w) := by
  have hcmp := strcmp_literal (w := w) hs hname hshort
  unfold isRootNamed
  by_cases hroot : node = .root
  · simp only [hroot, true_and]
    exact hcmp.bind (.pure _)
  · simp only [hroot, false_and]
    exact .pure _

/-- The lookup in memory finds what the one on lists does. -/
theorem initrdFinddir_returns (hd : Nodes d) (hs : IsString (fun a ↦ some (m a)) p s) :
    Returns (Holds m w) (initrdFinddir d node p) (Initrd.initrdFinddir d node s) (Holds m w) := by
  have hdot : Returns (Holds m w) (isRootNamed node p ".") _ (Holds m w) :=
    isRootNamed_returns hs (by decide) (by decide)
  have hdotdot : Returns (Holds m w) (isRootNamed node p "..") _ (Holds m w) :=
    isRootNamed_returns hs (by decide) (by decide)
  have hrange : ∀ i ∈ List.range (Initrd.turns d.nrootNodes), i < d.rootNodes.length := by
    intro i hi
    exact (List.mem_range.mp hi).trans_le hd.count
  have htext : text "." = [46] ∧ text ".." = [46, 46] := by decide
  rw [htext.1] at hdot
  rw [htext.2] at hdotdot
  refine hdot.bind ?_
  rw [Initrd.initrdFinddir]
  by_cases h1 : node = .root ∧ Initrd.strcmp s [46] = 0
  · rw [if_pos h1]
    exact .ite_pos (decide_eq_true h1) (.pure _)
  · rw [if_neg h1]
    refine .ite_neg (by simpa using h1) (hdotdot.bind ?_)
    by_cases h2 : node = .root ∧ Initrd.strcmp s [46, 46] = 0
    · rw [if_pos h2]
      exact .ite_pos (decide_eq_true h2) (.pure _)
    · rw [if_neg h2]
      exact .ite_neg (by simpa using h2) (finddirLoop_returns hd hs hrange)

theorem vfsFinddir_returns (hd : Nodes d) (hs : IsString (fun a ↦ some (m a)) p s) :
    Returns (Holds m w) (vfsFinddir d .root p) (Initrd.vfsFinddir d .root s) (Holds m w) := by
  have hroot : d.node .root = some d.initrdRoot := rfl
  rw [vfsFinddir, Initrd.vfsFinddir, hroot]
  dsimp only [Option.bind_eq_bind, Option.bind_some]
  by_cases hdir : d.initrdRoot.flags &&& 7 = Initrd.fsDirectory ∧ d.initrdRoot.finddir = true
  · rw [if_pos hdir, if_pos hdir]
    exact initrdFinddir_returns hd hs
  · rw [if_neg hdir, if_neg hdir]
    exact .pure _

end Lookup

section Command

open Initrd.Image Initrd.Mount Initrd.Slices

variable {d : Ramdisk} {location : ℕ} {files : List InputFile}

theorem reference_line (s : List UInt8) :
    reference (text "%s\n") [.string (some s)] = some (s ++ [10]) := by
  have htext : text "%s\n" = [37, 115, 10] := by decide
  have hrest : reference [10] [] = some [10] := by decide
  have hconvert : convert 115 (.string (some s)) = some s := by simp [convert]
  rw [htext, reference_directive (by decide), hconvert, Option.bind_some, hrest, Option.bind_some]

/-- The nodes of a mounted image. -/
theorem nodes_of_serves (hd : Serves d location files) : Nodes d := by
  constructor
  · rw [hd.nodes, List.length_mapIdx, hd.count, Initrd.turns]
    split_ifs <;> omega
  · intro node hnode
    rw [hd.nodes, List.mem_mapIdx] at hnode
    obtain ⟨i, hi, rfl⟩ := hnode
    have hshort := name_length files[i]
    refine ⟨name_noNul _, Nat.lt_of_le_of_lt hshort (by decide)⟩

/-- The array behind the read: as much of the file as fits, with a terminator. -/
theorem buffer_string {contents : List UInt8} {r : ℕ × Bytes} (h : ReadsSlice contents 0 255 buf m r)
    (hfits : buf + 256 ≤ 4294967296) (hnul : 0 ∉ contents) :
    IsString (fun a ↦ some (update r.2 (w32 (buf + r.1)) 0 a)) (.addr buf) (contents.take 255) := by
  have hcount := h.count
  have hbytes := h.bytes
  have hlen : (contents.take 255).length = r.1 := by
    rw [hcount, if_neg (Nat.not_lt_zero _), List.length_take, Nat.sub_zero]
  have hle : r.1 ≤ 255 := by
    rw [← hlen]
    exact List.length_take_le _ _
  have haddr : w32 (buf + r.1) = buf + r.1 := w32_of_lt (by omega)
  rw [List.drop_zero] at hbytes
  refine isString_of_at (at_append.mpr ⟨?_, ?_⟩) (fun hmem ↦ hnul (List.mem_of_mem_take hmem)) (by omega)
  · refine hbytes.congr fun a _ hlt ↦ update_of_ne ?_ _ _
    omega
  · intro j hj
    obtain rfl : j = 0 := Nat.lt_one_iff.mp hj
    rw [hlen, haddr, Nat.add_zero, update_self]
    rfl

theorem cat_returns (h : Loaded m location files) (hd : Serves d location files) (hi : i < files.length)
    (hfound : Initrd.vfsFinddir d .root files[i].name = some (.file i)) (hargs : args ≠ 0)
    (hs : IsString (fun a ↦ some (m a)) (.addr args) files[i].name) (hbuf : buf ≠ 0)
    (hapart : Apart buf 256 location (image files).length) (hnul : 0 ∉ files[i].contents) :
    ∃ m', Returns (Holds m w) (cat (some d) buf args) ()
      (Holds m' (w ++ (files[i].contents.take 255 ++ [10]))) := by
  obtain ⟨hroom, hbuffer⟩ := hapart
  have hfile : ¬ (nodeOf i files[i]).flags &&& 7 = Initrd.fsDirectory := by
    show ¬ Initrd.fsFile &&& 7 = Initrd.fsDirectory
    decide
  let r := Initrd.vfsRead d m (nodeOf i files[i]) 0 255 buf
  have hslice : ReadsSlice files[i].contents 0 255 buf m r :=
    vfsRead_slice h hd hi (.inr (by decide)) ⟨by omega, by omega⟩
  have hstring := buffer_string hslice hroom hnul
  have hline := say_returns (w := w) (reference_line (files[i].contents.take 255)) (by decide) (by decide)
    (.cons ⟨hbuf, hstring⟩ .nil)
  have hrun : Returns (Holds m w) (cat (some d) buf args) ()
      (Holds (update r.2 (w32 (buf + r.1)) 0) (w ++ (files[i].contents.take 255 ++ [10]))) := by
    refine .ite_neg hargs ((vfsFinddir_returns (nodes_of_serves hd) hs).bind ?_)
    rw [hfound]
    dsimp only
    rw [node_file hd.nodes hi]
    exact .ite_neg hfile ((vfsRead_returns d _ 0 255 buf).bind ((storeChar_returns _ _).seq hline))
  exact ⟨_, hrun⟩

theorem shellExecute_cat (other : Builtin → ℕ → Prog State Unit) (h : Loaded m location files)
    (hd : Serves d location files) (hi : i < files.length)
    (hfound : Initrd.vfsFinddir d .root files[i].name = some (.file i))
    (hline : At m cmd (text "cat " ++ files[i].name ++ [0]))
    (hcmd : Apart cmd (files[i].name.length + 5) location (image files).length) (hbuf : buf ≠ 0)
    (hapart : Apart buf 256 location (image files).length) (hnul : 0 ∉ files[i].contents) :
    ∃ m', Returns (Holds m w) (shellExecute other (some d) buf cmd) ()
      (Holds m' (w ++ (files[i].contents.take 255 ++ [10]))) := by
  obtain ⟨hroom, hcmd⟩ := hcmd
  have hcat : (text "cat").length = 3 := by decide
  have htext : text "cat " = text "cat" ++ [32] := by decide
  rw [htext, List.append_assoc, List.append_assoc] at hline
  have hlen : cmd + ((text "cat").length + files[i].name.length + 2) ≤ 4294967296 := by omega
  obtain ⟨-, hword, hargs⟩ :=
    @split_line m w cmd (text "cat") files[i].name hline (by decide) (by decide) (name_noNul _) hlen
  have hload : Loaded (update m (cmd + (text "cat").length) 0) location files := by
    refine ⟨h.bytes.congr fun a hlow hhigh ↦ update_of_ne ?_ _ _, h.fits, h.size, h.nonempty⟩
    omega
  obtain ⟨m', hrun⟩ := @cat_returns _ w _ _ _ d location files hload hd hi hfound (by omega) hargs hbuf
    hapart hnul
  exact ⟨m', execute_line hline (by decide) (by decide) (name_noNul _) hlen (dispatch_cat hword hrun)⟩

end Command

section Printed

open Initrd.Image Initrd.Passes Initrd.Slices

/-- The command comes back, and has written `out`. -/
def Prints (other : Builtin → ℕ → Prog State Unit) (fsRoot : Option Ramdisk) (buf cmd : ℕ)
    (st : State) (out : List UInt8) : Prop :=
  ∃ st', (shellExecute other fsRoot buf cmd).run st = .ok () st' ∧ st'.output = st.output ++ out

theorem prints_iff {other : Builtin → ℕ → Prog State Unit} {fsRoot : Option Ramdisk} {st : State}
    {m' : Bytes} {out out' : List UInt8}
    (h : Returns (Holds st.memory st.output) (shellExecute other fsRoot buf cmd) ()
      (Holds m' (st.output ++ out))) : Prints other fsRoot buf cmd st out' ↔ out' = out := by
  obtain ⟨st', hrun, hst⟩ := h st (holds_iff.mpr rfl)
  rw [holds_iff] at hst
  subst hst
  constructor
  · rintro ⟨st', hrun', hout⟩
    rw [hrun] at hrun'
    cases hrun'
    exact (List.append_cancel_left hout).symm
  · rintro rfl
    exact ⟨_, hrun, rfl⟩

theorem take_line_iff {contents : List UInt8} :
    contents ++ [10] = contents.take 255 ++ [10] ↔ contents.length ≤ 255 := by
  rw [List.append_left_inj, eq_comm, List.take_eq_self_iff]

/-- `cat` with the name of a file in a mounted image prints the file and a newline if and only if
the file has at most 255 bytes. -/
theorem cat_prints_iff {files : List InputFile} {bytes : List UInt8} {m : Bytes}
    {location fuel : ℕ} (hmake : Initrd.makeInitrd (files.map InputFile.arg) = .ok bytes)
    (hat : At m location bytes) (hfits : location + bytes.length ≤ 4294967296)
    (hsize : bytes.length < 4294967296) (hfuel : 64 ≤ fuel) :
    ∃ d, Initrd.initialiseInitrd fuel location m = some d ∧
      ∀ other st cmd buf i (hi : i < files.length), At st.memory location bytes →
        At st.memory cmd (text "cat " ++ files[i].name ++ [0]) →
        Apart cmd (files[i].name.length + 5) location bytes.length →
        buf ≠ 0 → Apart buf 256 location bytes.length →
        Initrd.vfsFinddir d .root files[i].name = some (.file i) → 0 ∉ stored files[i].arg →
        (Prints other (some d) buf cmd st (stored files[i].arg ++ [10]) ↔
          (stored files[i].arg).length ≤ 255) := by
  obtain ⟨hbytes, hload⟩ := loaded_of_makeInitrd hmake hat hfits hsize
  obtain ⟨d, hinit, hd⟩ := hload.initialise hfuel
  refine ⟨d, hinit, fun other st cmd buf i hi hat' hline hcmd hbuf hapart hfound hnul ↦ ?_⟩
  have hi' : i < (files.map inImage).length := by rwa [List.length_map]
  have hfile : (files.map inImage)[i] = inImage files[i] := List.getElem_map _
  have hname : (files.map inImage)[i].name = files[i].name := by rw [hfile]; rfl
  have hcontents : (files.map inImage)[i].contents = stored files[i].arg := by rw [hfile]; rfl
  rw [← hname] at hline hcmd hfound
  rw [← hcontents] at hnul ⊢
  rw [hbytes] at hat' hcmd hapart
  have hload' : Initrd.Mount.Loaded st.memory location (files.map inImage) :=
    ⟨hat', hload.fits, hload.size, hload.nonempty⟩
  obtain ⟨m', hrun⟩ := @shellExecute_cat st.memory st.output cmd buf i d location _ other hload' hd
    hi' hfound hline hcmd hbuf hapart hnul
  rw [prints_iff hrun, take_line_iff]

/-- Memory with a command line at 0x8000, and an image at 1 MiB. -/
def catMemory (files : List InputFile) (name : List UInt8) : Bytes := fun a ↦
  if a < 0x100000 then (text "cat " ++ name ++ [0]).getD (a - 0x8000) 0
  else (image files).getD (a - 0x100000) 0

theorem at_catMemory_image (files : List InputFile) (name : List UInt8) :
    At (catMemory files name) 0x100000 (image files) := by
  intro j hj
  rw [catMemory, if_neg (by omega), Nat.add_sub_cancel_left, List.getD_eq_getElem _ _ hj]

theorem at_catMemory_line (files : List InputFile) {name : List UInt8} (h : name.length ≤ 63) :
    At (catMemory files name) 0x8000 (text "cat " ++ name ++ [0]) := by
  intro j hj
  have hlen : (text "cat " ++ name ++ [0]).length = name.length + 5 := by
    rw [List.length_append, List.length_append, Nat.add_comm (text "cat ").length]
    rfl
  rw [catMemory, if_pos (by omega), Nat.add_sub_cancel_left, List.getD_eq_getElem _ _ hj]

/-- The name of the first file leads to it. -/
theorem mounted_catMemory {files : List InputFile} {name : List UInt8} (hpos : 0 < files.length)
    (hsize : (image files).length < 65536) (hfew : files.length ≤ 64) :
    Initrd.Mount.Loaded (catMemory files name) 0x100000 files ∧
      ∃ d, Initrd.initialiseInitrd 64 0x100000 (catMemory files name) = some d ∧
        Initrd.Mount.Serves d 0x100000 files ∧
        Initrd.vfsFinddir d .root files[0].name = some (.file 0) := by
  have hload : Initrd.Mount.Loaded (catMemory files name) 0x100000 files :=
    ⟨at_catMemory_image _ _, by omega, by omega, List.ne_nil_of_length_pos hpos⟩
  obtain ⟨d, hinit, hd⟩ := hload.initialise le_rfl
  refine ⟨hload, d, hinit, hd, ?_⟩
  rw [Initrd.RoundTrip.vfsFinddir_root hd.flags hd.finddir]
  exact (Initrd.RoundTrip.finddir_name_iff hd.nodes hd.count (by omega) hpos).mpr
    fun j hj ↦ absurd hj (Nat.not_lt_zero j)

/-- `cat ab`, with the other commands doing nothing. -/
theorem cat_prints_iff_twoFiles :
    ∃ d, Initrd.initialiseInitrd 64 0x100000 (catMemory Initrd.RoundTrip.twoFiles [97, 98]) = some d ∧
      Prints (fun _ _ ↦ pure ()) (some d) 0x9000 0x8000
        ⟨catMemory Initrd.RoundTrip.twoFiles [97, 98], []⟩ [1, 2, 3, 10] := by
  have hlen : (image Initrd.RoundTrip.twoFiles).length = 151 := image_length Initrd.RoundTrip.twoFiles
  obtain ⟨hload, d', hinit', -, hfound⟩ :=
    @mounted_catMemory Initrd.RoundTrip.twoFiles [97, 98] (by decide) (by omega) (by decide)
  have hmake : Initrd.makeInitrd (Initrd.RoundTrip.twoFiles.map InputFile.arg) =
      .ok (image Initrd.RoundTrip.twoFiles) := makeInitrd_eq hload.nonempty (by decide) (by decide)
  obtain ⟨d, hinit, hcat⟩ := cat_prints_iff hmake hload.bytes hload.fits hload.size le_rfl
  have hsame : d' = d := Option.some.inj (hinit'.symm.trans hinit)
  rw [hsame] at hfound
  have hcmd : Apart 0x8000 7 0x100000 (image Initrd.RoundTrip.twoFiles).length :=
    ⟨by decide, .inl (by decide)⟩
  have hbuf : Apart 0x9000 256 0x100000 (image Initrd.RoundTrip.twoFiles).length :=
    ⟨by decide, .inl (by decide)⟩
  have hline := at_catMemory_line Initrd.RoundTrip.twoFiles (show [97, 98].length ≤ 63 by decide)
  have hprints := hcat (fun _ _ ↦ pure ()) ⟨catMemory Initrd.RoundTrip.twoFiles [97, 98], []⟩ 0x8000 0x9000
    0 (by decide) hload.bytes hline hcmd (by decide) hbuf hfound (by decide)
  exact ⟨d, hinit, hprints.mpr (by decide)⟩

/-- A file of 256 letters. -/
def longFile : InputFile := ⟨[97], List.replicate 256 65, by decide, by decide⟩

/-- The last of them is missing. -/
theorem cat_cuts_longFile :
    ∃ d, Initrd.initialiseInitrd 64 0x100000 (catMemory [longFile] [97]) = some d ∧
      Prints (fun _ _ ↦ pure ()) (some d) 0x9000 0x8000 ⟨catMemory [longFile] [97], []⟩
        (List.replicate 255 65 ++ [10]) ∧
      ¬ Prints (fun _ _ ↦ pure ()) (some d) 0x9000 0x8000 ⟨catMemory [longFile] [97], []⟩
        (longFile.contents ++ [10]) := by
  have hcontents : longFile.length = 256 := List.length_replicate
  have hlen : (image [longFile]).length = 332 := by
    rw [image_length, total_cons, hcontents]
    rfl
  obtain ⟨hload, d, hinit, hd, hfound⟩ :=
    @mounted_catMemory [longFile] [97] Nat.zero_lt_one (by omega) (show 1 ≤ 64 by decide)
  have hnul : 0 ∉ longFile.contents := by
    intro hmem
    exact absurd (List.eq_of_mem_replicate hmem) (by decide)
  have hshort : longFile.contents.take 255 = List.replicate 255 65 := List.take_replicate
  obtain ⟨m', hrun⟩ := @shellExecute_cat _ [] 0x8000 0x9000 0 d 0x100000 [longFile] (fun _ _ ↦ pure ())
    hload hd Nat.zero_lt_one hfound (at_catMemory_line _ (by decide))
    ⟨by decide, .inl (by decide)⟩ (by decide) ⟨by decide, .inl (by decide)⟩ hnul
  refine ⟨d, hinit, (prints_iff hrun).mpr ?_, fun hprints ↦ ?_⟩
  · exact congrArg (· ++ [10]) hshort.symm
  · have hall := take_line_iff.mp ((prints_iff hrun).mp hprints)
    have hlong : longFile.contents.length = 256 := hcontents
    omega

end Printed

end KevOS.Shell.Cat
