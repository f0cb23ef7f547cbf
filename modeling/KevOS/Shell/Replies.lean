import KevOS.Shell.Builtins
import KevOS.Shell.Cat
import Mathlib.Data.List.TakeWhile

namespace KevOS.Shell.Replies

open Lib.Program Lib.ByteMemory Lib.ByteString Machine Libc CharPtr Format Commands Builtins Cat Function
open Initrd (Ramdisk FsNode)
open Initrd.Slices (Apart)

section Answers

/-- A word as `%d` takes it. -/
def signed32 (n : ℕ) : ℤ := if n < 2147483648 then n else n - 4294967296

def statusText : Tasking.Status → List UInt8
  | .running => text "Running"
  | .ready => text "Ready"

def taskLine (line : Tasking.Line) : List UInt8 :=
  signedNumeral (signed32 line.id) ++ text "     0x" ++ numeral 16 line.esp ++ text "       " ++
    statusText line.status ++ [10]

def lsLine (line : Bool × List UInt8) : List UInt8 :=
  text (if line.1 then "(dir) " else "(file) ") ++ line.2 ++ [10]

/-- What a command prints that comes back, and works on nothing but memory and what is printed. -/
def answer (k : Kernel) (fuel : ℕ) (args : Option (List UInt8)) : Builtin → Option (List UInt8)
  | .help => some (helpLines.flatMap text)
  | .echo => some (args.getD [] ++ [10])
  | .version => some (text "KevOS Version 0.1 (i386 Protected Mode)\n")
  | .uptime => some (text "System uptime: " ++ numeral 10 (k.timerTicks.toNat / 100) ++ text " seconds\n")
  | .meminfo => some (text "--- Physical Memory Info ---\n" ++
      (text "Free Memory: " ++ numeral 10 (k.freeMemory / 1024) ++ text " KB\n") ++
      (text "Used Memory: " ++ numeral 10 (sub32 k.totalMemory k.freeMemory / 1024) ++ text " KB\n"))
  | .ps => (Tasking.taskPrintList fuel k.sched).map fun lines ↦
      text "ID    Stack Pointer    Status\n" ++ text "-----------------------------\n" ++
        lines.flatMap taskLine
  | .whatisthis => some (whatisthisLines.flatMap text)
  | .ls =>
    match k.fsRoot with
    | none => some (text "No root filesystem mounted.\n")
    | some d => (Initrd.lsLoop d fuel 0).map (·.flatMap lsLine)
  | _ => none

/-- The command that a word names. -/
def commandOf (word : List UInt8) (l : List (String × Builtin)) : Option Builtin :=
  (l.find? fun e ↦ text e.1 = word).map Prod.snd

/-- The word up to the first space, and what is behind the space. -/
def word (line : List UInt8) : List UInt8 := line.takeWhile (· ≠ 32)

def arguments (line : List UInt8) : Option (List UInt8) :=
  if 32 ∈ line then some (line.dropWhile (· ≠ 32)).tail else none

/-- What `shell_execute` prints for a line. -/
def reply (k : Kernel) (fuel : ℕ) (line : List UInt8) : Option (List UInt8) :=
  if line = [] then some []
  else
    match commandOf (word line) names with
    | none => some (text "Unknown command: " ++ word line ++ [10])
    | some command => answer k fuel (arguments line) command

end Answers

/-- The words that the commands print are 32 bits wide, and what they point to lies apart from the `n` bytes
of the line. -/
structure Valid (k : Kernel) (m : Bytes) (cmd n : ℕ) : Prop where
  memory : k.freeMemory < 4294967296
  tasks : ∀ p, (k.sched.task p).id < 4294967296 ∧ (k.sched.task p).esp < 4294967296
  texts : ∀ t ∈ [(k.runningText, text "Running"), (k.readyText, text "Ready")],
    t.1 ≠ 0 ∧ t.1 + 8 ≤ 4294967296 ∧ At m t.1 (t.2 ++ [0]) ∧ (cmd + n ≤ t.1 ∨ t.1 + 8 ≤ cmd)
  nodes : ∀ d, k.fsRoot = some d → Nodes d ∧ ∀ node ∈ d.rootNodes, node.name.length < 128
  dirent : k.dirent ≠ 0 ∧ k.dirent + 132 ≤ 4294967296

variable {k : Kernel} {m : Bytes} {w s out : List UInt8} {cmd args fuel n : ℕ} {format : String}

section Printing

theorem reference_plain (hs : 37 ∉ s) (values : List Value) : reference s values = some s := by
  induction s with
  | nil => rfl
  | cons c s ih =>
    rw [List.mem_cons, not_or] at hs
    rw [reference_literal (Ne.symm hs.1), ih hs.2]
    rfl

theorem reference_append {t : List UInt8} (hs : 37 ∉ s) (values : List Value) :
    reference (s ++ t) values = (reference t values).map (s ++ ·) := by
  induction s with
  | nil => simp
  | cons c s ih =>
    rw [List.mem_cons, not_or] at hs
    rw [List.cons_append, reference_literal (Ne.symm hs.1), ih hs.2, Option.map_map]
    rfl

/-- A text, a directive, and the rest of the format. -/
theorem reference_item {c : UInt8} {v : Value} {shown rest : List UInt8} {values : List Value} {t : List UInt8}
    (hs : 37 ∉ s) (hc : c ∈ conversions) (hv : convert c v = some shown) (ht : reference t values = some rest) :
    reference (s ++ 37 :: c :: t) (v :: values) = some (s ++ shown ++ rest) := by
  rw [reference_append hs, reference_directive hc, hv, ht]
  simp

theorem convert_int (i : ℤ) : convert 100 (.int i) = some (signedNumeral i) := rfl

theorem convert_unsigned (i : ℕ) : convert 117 (.unsigned i) = some (numeral 10 i) := rfl

theorem convert_hex (i : ℕ) : convert 120 (.unsigned i) = some (numeral 16 i) := rfl

theorem convert_string (s : List UInt8) : convert 115 (.string (some s)) = some s := rfl

theorem say_plain (hs : 37 ∉ text format) (hnul : 0 ∉ text format) (hshort : (text format).length < loopBound) :
    Returns (Holds m w) (say format []) () (Holds m (w ++ text format)) :=
  say_returns (reference_plain hs []) hnul hshort .nil

theorem sayLines_returns {lines : List String}
    (h : ∀ line ∈ lines, 37 ∉ text line ∧ 0 ∉ text line ∧ (text line).length < loopBound) :
    Returns (Holds m w) (sayLines lines) () (Holds m (w ++ lines.flatMap text)) := by
  induction lines generalizing w with
  | nil =>
    rw [List.flatMap_nil, List.append_nil]
    exact .pure ()
  | cons line lines ih =>
    rw [List.forall_mem_cons] at h
    obtain ⟨⟨hs, hnul, hshort⟩, h⟩ := h
    rw [List.flatMap_cons, ← List.append_assoc]
    exact (say_plain hs hnul hshort).seq (ih h)

/-- A number between two texts. -/
theorem say_unsigned {before after : List UInt8} {number : ℕ} (hf : text format = before ++ 37 :: 117 :: after)
    (hb : 37 ∉ before) (ha : 37 ∉ after) (hnul : 0 ∉ text format) (hshort : (text format).length < loopBound)
    (hn : number < 4294967296) :
    Returns (Holds m w) (say format [number]) () (Holds m (w ++ (before ++ numeral 10 number ++ after))) := by
  have href : reference (text format) [.unsigned number] = some (before ++ numeral 10 number ++ after) := by
    rw [hf]
    exact reference_item hb (by decide) (convert_unsigned number) (reference_plain ha [])
  exact say_returns href hnul hshort (.cons ⟨rfl, hn⟩ .nil)

end Printing

section Tasks

theorem passes_signed32 {f : ℕ → Option UInt8} {number : ℕ} (h : number < 4294967296) :
    Passes f (.int (signed32 number)) number := by
  unfold signed32
  split_ifs <;> refine ⟨h, ?_, ?_, ?_⟩ <;> omega

/-- The words of a status are where they should be. -/
theorem Valid.status (hk : Valid k m cmd n) (curr : ℕ) :
    let status := if curr = k.sched.currentTask then k.runningText else k.readyText
    status ≠ 0 ∧ IsString (fun a ↦ some (m a)) (.addr status) (statusText (k.sched.line curr).status) := by
  obtain ⟨hr, hrfits, hrat, -⟩ := hk.texts _ List.mem_cons_self
  obtain ⟨hy, hyfits, hyat, -⟩ := hk.texts (k.readyText, text "Ready") (by simp)
  have hlen : (statusText .running).length = 7 ∧ (statusText .ready).length = 5 := by decide
  unfold Tasking.Scheduler.line
  dsimp only at *
  split_ifs
  · exact ⟨hr, isString_of_at hrat (by decide) (by omega)⟩
  · exact ⟨hy, isString_of_at hyat (by decide) (by omega)⟩

theorem reference_taskLine (line : Tasking.Line) : reference (text "%d     0x%x       %s\n")
    [.int (signed32 line.id), .unsigned line.esp, .string (some (statusText line.status))] =
      some (taskLine line) := by
  have hformat : text "%d     0x%x       %s\n" =
      [] ++ 37 :: 100 :: (text "     0x" ++ 37 :: 120 :: (text "       " ++ 37 :: 115 :: [10])) := by decide
  have hstatus : reference (text "       " ++ 37 :: 115 :: [10]) [.string (some (statusText line.status))] =
      some (text "       " ++ statusText line.status ++ [10]) :=
    reference_item (by decide) (by decide) (convert_string _) (reference_plain (by decide) [])
  have hesp := reference_item (s := text "     0x") (by decide) (by decide) (convert_hex line.esp) hstatus
  rw [hformat, reference_item (by decide) (by decide) (convert_int _) hesp]
  simp [taskLine]

theorem taskLoop_returns (hk : Valid k m cmd n) {first curr : ℕ} {lines : List Tasking.Line}
    (h : Tasking.printLoop k.sched first fuel curr = some lines) :
    Returns (Holds m w) (taskLoop k first fuel curr) () (Holds m (w ++ lines.flatMap taskLine)) := by
  induction fuel generalizing curr lines w with
  | zero => cases h
  | succ fuel ih =>
    obtain ⟨hid, hesp⟩ := hk.tasks curr
    obtain ⟨hne, hstatus⟩ := hk.status curr
    have hline : Returns (Holds m w) (say "%d     0x%x       %s\n" [(k.sched.task curr).id,
        (k.sched.task curr).esp, if curr = k.sched.currentTask then k.runningText else k.readyText]) ()
        (Holds m (w ++ taskLine (k.sched.line curr))) :=
      say_returns (reference_taskLine (k.sched.line curr)) (by decide) (by decide)
        (.cons (passes_signed32 hid) (.cons ⟨rfl, hesp⟩ (.cons ⟨hne, hstatus⟩ .nil)))
    rw [Tasking.printLoop] at h
    rw [taskLoop]
    dsimp only at h ⊢
    split_ifs at h with hnext
    · obtain ⟨rest, hrest, rfl⟩ := Option.map_eq_some_iff.mp h
      rw [List.flatMap_cons, ← List.append_assoc]
      exact hline.seq (.ite_pos hnext (ih hrest))
    · cases h
      rw [List.flatMap_cons, List.flatMap_nil, List.append_nil]
      exact hline.seq (.ite_neg hnext (.pure ()))

end Tasks

section Directory

/-- Nothing but the `len` bytes from `a` on is different. -/
def SameBut (m m' : Bytes) (a len : ℕ) : Prop := ∀ b, b < a ∨ a + len ≤ b → m' b = m b

theorem SameBut.trans {m₁ m₂ : Bytes} {a len : ℕ} (h : SameBut m m₁ a len) (h' : SameBut m₁ m₂ a len) :
    SameBut m m₂ a len := fun b hb ↦ (h' b hb).trans (h b hb)

theorem SameBut.mono {m₁ : Bytes} {a len len' : ℕ} (h : SameBut m m₁ a len) (hle : len ≤ len') :
    SameBut m m₁ a len' := fun b hb ↦ h b (by omega)

theorem strcpy_returns {dest : ℕ} (hs : 0 ∉ s) (hfits : dest + (s.length + 1) ≤ 4294967296) :
    ∃ m', Returns (Holds m w) (strcpy dest (.literal s)) () (Holds m' w) ∧ At m' dest (s ++ [0]) ∧
      SameBut m m' dest (s.length + 1) := by
  have hloop (fuel : ℕ) (hfuel : s.length < fuel) :
      ∃ m', Returns (Holds m w) (strcpyLoop dest (.literal s) fuel) () (Holds m' w) ∧ At m' dest (s ++ [0]) ∧
        SameBut m m' dest (s.length + 1) := by
    induction fuel generalizing m s dest with
    | zero => omega
    | succ fuel ih =>
      have hread : Returns (Holds m w) (readChar (.literal s) 0) (s.getD 0 0) (Holds m w) := .pure _
      cases s with
      | nil =>
        refine ⟨update m dest 0, hread.bind (.ite_neg (by simp) (storeChar_returns dest 0)), ?_, ?_⟩
        · intro j hj
          obtain rfl : j = 0 := Nat.lt_one_iff.mp hj
          exact update_self _ _ _
        · intro b hb
          exact update_of_ne (by simp at hb; omega) _ _
      | cons c s =>
        rw [List.mem_cons, not_or] at hs
        rw [List.length_cons] at hfits hfuel
        obtain ⟨m', hrun, hat, hsame⟩ := @ih (update m dest c) s (dest + 1) hs.2 (by omega) (by omega)
        have hdest : m' dest = c := (hsame dest (.inl (Nat.lt_succ_self dest))).trans (update_self _ _ _)
        refine ⟨m', hread.bind (.ite_pos (Ne.symm hs.1) ((storeChar_returns dest c).seq ?_)), ?_, ?_⟩
        · rw [w32_of_lt (show dest + 1 < 4294967296 by omega)]
          exact hrun
        · refine @at_append m' dest [c] (s ++ [0]) |>.mpr ⟨fun j hj ↦ ?_, hat⟩
          obtain rfl : j = 0 := Nat.lt_one_iff.mp hj
          exact hdest
        · intro b hb
          rw [List.length_cons] at hb
          rw [hsame b (by omega), update_of_ne (by omega)]
  exact hloop loopBound (by unfold loopBound; omega)

theorem storeIno_returns {p : ℕ} (hfits : p + 132 ≤ 4294967296) (v : ℕ) :
    Returns (Holds m w) (storeIno p v) () (Holds (setWord m (p + 128) v) w) := by
  rw [storeIno, w32_of_lt (show p + 128 < 4294967296 by omega), w32_of_lt (show p + 129 < 4294967296 by omega),
    w32_of_lt (show p + 130 < 4294967296 by omega), w32_of_lt (show p + 131 < 4294967296 by omega)]
  exact (storeChar_returns _ _).seq <| (storeChar_returns _ _).seq <| (storeChar_returns _ _).seq (storeChar_returns _ _)

variable {d : Ramdisk} {i : ℕ} {lines : List (Bool × List UInt8)}

/-- A name of the directory in `dirent`, with its number behind it. -/
theorem readdir_returns {entry : Initrd.Dirent} (hentry : Initrd.vfsReaddir d .root i = some entry)
    (hnul : 0 ∉ entry.name) (hlen : entry.name.length < 128) (hfits : k.dirent + 132 ≤ 4294967296) :
    ∃ m', Returns (Holds m w) (readdir k d .root i) true (Holds m' w) ∧
      IsString (fun a ↦ some (m' a)) (.addr k.dirent) entry.name ∧ SameBut m m' k.dirent 132 := by
  obtain ⟨m₁, hcopy, hat, hsame⟩ := @strcpy_returns m w entry.name k.dirent hnul (by omega)
  have hino := @storeIno_returns m₁ w k.dirent hfits entry.ino
  refine ⟨setWord m₁ (k.dirent + 128) entry.ino, ?_, ?_, fun b hb ↦ ?_⟩
  · rw [readdir, hentry]
    exact hcopy.seq (hino.seq (.pure true))
  · refine isString_of_at (hat.congr fun b hb hb' ↦ setWord_of_ne (.inl ?_)) hnul (by omega)
    rw [List.length_append, List.length_singleton] at hb'
    omega
  · rw [setWord_of_ne (by omega)]
    exact hsame.mono (show entry.name.length + 1 ≤ 132 by omega) b hb

/-- The names that the directory lists. -/
theorem readdir_name (hd : Nodes d) (hshort : ∀ node ∈ d.rootNodes, node.name.length < 128) {entry : Initrd.Dirent}
    (h : Initrd.vfsReaddir d .root i = some entry) : 0 ∉ entry.name ∧ entry.name.length < 128 := by
  unfold Initrd.vfsReaddir at h
  obtain ⟨n, -, h⟩ := Option.bind_eq_some_iff.mp h
  rw [Option.ite_none_right_eq_some] at h
  have hentry := h.2
  unfold Initrd.initrdReaddir at hentry
  split_ifs at hentry
  · cases hentry
    exact ⟨by decide, by decide⟩
  · cases hentry
    exact ⟨by decide, by decide⟩
  · obtain ⟨node, hnode, rfl⟩ := Option.map_eq_some_iff.mp hentry
    have hmem : node ∈ d.rootNodes := List.mem_of_getElem? hnode
    exact ⟨(hd.names node hmem).1, hshort node hmem⟩

theorem sayKind_returns (node : FsNode) : Returns (Holds m w) (sayKind node) ()
    (Holds m (w ++ text (if node.flags &&& 7 = Initrd.fsDirectory then "(dir) " else "(file) "))) := by
  unfold sayKind
  split_ifs
  · exact say_plain (by decide) (by decide) (by decide)
  · exact say_plain (by decide) (by decide) (by decide)

/-- What is found is there. -/
theorem node_of_finddir {name : List UInt8} {p : Initrd.NodePtr} (h : Initrd.vfsFinddir d .root name = some p) :
    ∃ node, d.node p = some node := by
  unfold Initrd.vfsFinddir at h
  obtain ⟨n, -, h⟩ := Option.bind_eq_some_iff.mp h
  rw [Option.ite_none_right_eq_some] at h
  have hfound := h.2
  unfold Initrd.initrdFinddir at hfound
  split_ifs at hfound
  · cases hfound
    exact ⟨_, rfl⟩
  · cases hfound
    exact ⟨_, rfl⟩
  · obtain ⟨j, hj, rfl⟩ := Option.map_eq_some_iff.mp hfound
    have hany := List.find?_some hj
    obtain ⟨node, hnode, -⟩ := (Option.any_eq_true _ _).mp hany
    exact ⟨node, hnode⟩

/-- A line of the listing, with its name in `dirent`. -/
theorem lsEntry_returns (hd : Nodes d) {name : List UInt8} (hne : k.dirent ≠ 0)
    (hs : IsString (fun a ↦ some (m a)) (.addr k.dirent) name) :
    Returns (Holds m w) (lsEntry k d) () (Holds m (w ++ (match Initrd.vfsFinddir d .root name >>= d.node with
      | none => []
      | some node => [(decide (node.flags &&& 7 = Initrd.fsDirectory), name)]).flatMap lsLine)) := by
  refine (vfsFinddir_returns hd hs).bind ?_
  cases hfound : Initrd.vfsFinddir d .root name with
  | none =>
    simp only [Option.bind_eq_bind, Option.bind_none, List.flatMap_nil, List.append_nil]
    exact .pure ()
  | some p =>
    obtain ⟨node, hnode⟩ := node_of_finddir hfound
    have hline := say_returns (w := w ++ text (if node.flags &&& 7 = Initrd.fsDirectory then "(dir) " else "(file) "))
      (reference_line name) (by decide) (by decide) (.cons ⟨hne, hs⟩ .nil)
    simp only [Option.bind_eq_bind, Option.bind_some, hnode, List.flatMap_cons, List.flatMap_nil, List.append_nil]
    refine (sayKind_returns node).seq ?_
    simpa [lsLine, List.append_assoc] using hline

theorem lsLoop_returns (hd : Nodes d) (hshort : ∀ node ∈ d.rootNodes, node.name.length < 128)
    (hne : k.dirent ≠ 0) (hfits : k.dirent + 132 ≤ 4294967296) (h : Initrd.lsLoop d fuel i = some lines) :
    ∃ m', SameBut m m' k.dirent 132 ∧
      Returns (Holds m w) (lsLoop k d fuel i) () (Holds m' (w ++ lines.flatMap lsLine)) := by
  induction fuel generalizing i lines m w with
  | zero => cases h
  | succ fuel ih =>
    rw [Initrd.lsLoop] at h
    rw [lsLoop]
    cases hentry : Initrd.vfsReaddir d .root i with
    | none =>
      rw [hentry] at h
      cases h
      refine ⟨m, fun _ _ ↦ rfl, ?_⟩
      rw [List.flatMap_nil, List.append_nil, readdir, hentry]
      exact Returns.bind (.pure false) (.ite_neg Bool.false_ne_true (.pure ()))
    | some entry =>
      rw [hentry] at h
      dsimp only at h
      obtain ⟨hnul, hlen⟩ := readdir_name hd hshort hentry
      obtain ⟨m₁, hread, hs, hsame⟩ := @readdir_returns k m w d i entry hentry hnul hlen hfits
      obtain ⟨rest, hrest, rfl⟩ := Option.map_eq_some_iff.mp h
      obtain ⟨m', hkept, hloop⟩ := ih hrest
      refine ⟨m', hsame.trans hkept, ?_⟩
      rw [List.flatMap_append, ← List.append_assoc]
      exact hread.bind (.ite_pos rfl ((lsEntry_returns hd hne hs).seq hloop))

end Directory

section Commands

variable {other : Builtin → ℕ → Prog State Unit} {command : Builtin} {given : Option (List UInt8)}

/-- The arguments as the command finds them. -/
def Given (m : Bytes) (args : ℕ) : Option (List UInt8) → Prop
  | none => args = 0
  | some s => args ≠ 0 ∧ IsString (fun a ↦ some (m a)) (.addr args) s

theorem echo_returns (h : Given m args given) :
    Returns (Holds m w) (echo args) () (Holds m (w ++ (given.getD [] ++ [10]))) := by
  cases given with
  | none =>
    have htext : text "\n" = [10] := by decide
    rw [Option.getD_none, List.nil_append, ← htext]
    exact .ite_neg (not_not.mpr h) (say_plain (by decide) (by decide) (by decide))
  | some s =>
    obtain ⟨hne, hs⟩ := h
    exact .ite_pos hne (say_returns (reference_line s) (by decide) (by decide) (.cons ⟨hne, hs⟩ .nil))

theorem uptime_returns : Returns (Holds m w) (uptime k) () (Holds m (w ++ (text "System uptime: " ++
    numeral 10 (k.timerTicks.toNat / 100) ++ text " seconds\n"))) := by
  have hlt := k.timerTicks.toNat_lt
  have hseconds : (k.timerTicks / 100).toNat = k.timerTicks.toNat / 100 := UInt32.toNat_div _ _
  unfold uptime
  dsimp only
  rw [hseconds]
  exact say_unsigned (by decide) (by decide) (by decide) (by decide) (by decide) (by omega)

theorem meminfo_returns (hfree : k.freeMemory < 4294967296) :
    Returns (Holds m w) (meminfo k) () (Holds m (w ++ (text "--- Physical Memory Info ---\n" ++
      (text "Free Memory: " ++ numeral 10 (k.freeMemory / 1024) ++ text " KB\n") ++
      (text "Used Memory: " ++ numeral 10 (sub32 k.totalMemory k.freeMemory / 1024) ++ text " KB\n")))) := by
  have hused : sub32 k.totalMemory k.freeMemory < 4294967296 := Nat.mod_lt _ (by decide)
  have hfreeLine (v : List UInt8) : Returns (Holds m v) (say "Free Memory: %u KB\n" [k.freeMemory / 1024]) ()
      (Holds m (v ++ (text "Free Memory: " ++ numeral 10 (k.freeMemory / 1024) ++ text " KB\n"))) :=
    say_unsigned (by decide) (by decide) (by decide) (by decide) (by decide) (by omega)
  have husedLine (v : List UInt8) : Returns (Holds m v)
      (say "Used Memory: %u KB\n" [sub32 k.totalMemory k.freeMemory / 1024]) () (Holds m (v ++
        (text "Used Memory: " ++ numeral 10 (sub32 k.totalMemory k.freeMemory / 1024) ++ text " KB\n"))) :=
    say_unsigned (by decide) (by decide) (by decide) (by decide) (by decide) (by omega)
  rw [List.append_assoc, ← List.append_assoc w, ← List.append_assoc (w ++ _)]
  exact (say_plain (by decide) (by decide) (by decide)).seq ((hfreeLine _).seq (husedLine _))

theorem taskPrintList_returns (hk : Valid k m cmd n) {lines : List Tasking.Line}
    (h : Tasking.taskPrintList fuel k.sched = some lines) :
    Returns (Holds m w) (taskPrintList k fuel) () (Holds m (w ++ (text "ID    Stack Pointer    Status\n" ++
      text "-----------------------------\n" ++ lines.flatMap taskLine))) := by
  rw [List.append_assoc, ← List.append_assoc w, ← List.append_assoc (w ++ _)]
  exact (say_plain (by decide) (by decide) (by decide)).seq
    ((say_plain (by decide) (by decide) (by decide)).seq (taskLoop_returns hk h))

theorem plain_helpLines : ∀ line ∈ helpLines, 37 ∉ text line ∧ 0 ∉ text line ∧ (text line).length < loopBound := by
  decide +kernel

theorem plain_whatisthisLines :
    ∀ line ∈ whatisthisLines, 37 ∉ text line ∧ 0 ∉ text line ∧ (text line).length < loopBound := by
  decide +kernel

/-- Every command that comes back prints its answer, and writes at most to the `dirent` of the ramdisk. -/
theorem builtin_returns (hk : Valid k m cmd n) (hargs : Given m args given)
    (hout : answer k fuel given command = some out) :
    ∃ m', SameBut m m' k.dirent 132 ∧
      Returns (Holds m w) (builtin k fuel other command args) () (Holds m' (w ++ out)) := by
  have hsame : SameBut m m k.dirent 132 := fun _ _ ↦ rfl
  cases command with
  | help =>
    cases hout
    exact ⟨m, hsame, sayLines_returns plain_helpLines⟩
  | echo =>
    cases hout
    exact ⟨m, hsame, echo_returns hargs⟩
  | version =>
    cases hout
    exact ⟨m, hsame, say_plain (by decide) (by decide) (by decide)⟩
  | uptime =>
    cases hout
    exact ⟨m, hsame, uptime_returns⟩
  | meminfo =>
    cases hout
    exact ⟨m, hsame, meminfo_returns hk.memory⟩
  | ps =>
    obtain ⟨lines, hlines, rfl⟩ := Option.map_eq_some_iff.mp hout
    exact ⟨m, hsame, taskPrintList_returns hk hlines⟩
  | whatisthis =>
    cases hout
    exact ⟨m, hsame, sayLines_returns plain_whatisthisLines⟩
  | ls =>
    rw [answer] at hout
    rw [builtin, ls]
    cases hroot : k.fsRoot with
    | none =>
      rw [hroot] at hout
      cases hout
      exact ⟨m, hsame, say_plain (by decide) (by decide) (by decide)⟩
    | some d =>
      rw [hroot] at hout
      obtain ⟨lines, hlines, rfl⟩ := Option.map_eq_some_iff.mp hout
      obtain ⟨hd, hshort⟩ := hk.nodes d hroot
      exact lsLoop_returns hd hshort hk.dirent.1 hk.dirent.2 hlines
  | exit => cases hout
  | clear => cases hout
  | setcolor => cases hout
  | reboot => cases hout
  | testheap => cases hout
  | gdtinfo => cases hout
  | cat => cases hout

end Commands

section Lines

variable {run other : Builtin → ℕ → Prog State Unit} {l : List (String × Builtin)} {Q : State → Prop}
  {line name : List UInt8} {buf : ℕ}

/-- The first name that is the word decides. -/
theorem dispatch_returns (hs : IsString (fun a ↦ some (m a)) (.addr cmd) name)
    (hl : ∀ e ∈ l, 0 ∉ text e.1 ∧ (text e.1).length < loopBound)
    (hrun : Returns (Holds m w) (match commandOf name l with
      | none => say "Unknown command: %s\n" [cmd]
      | some command => run command args) () Q) : Returns (Holds m w) (dispatch run cmd args l) () Q := by
  induction l with
  | nil => exact hrun
  | cons e l ih =>
    rw [List.forall_mem_cons] at hl
    obtain ⟨⟨hnul, hshort⟩, hl⟩ := hl
    have hcmp := strcmp_literal (w := w) hs hnul hshort
    by_cases heq : text e.1 = name
    · have hfound : commandOf name (e :: l) = some e.2 := by simp [commandOf, heq]
      rw [hfound] at hrun
      refine hcmp.bind (.ite_pos ?_ hrun)
      rw [heq]
      exact Initrd.RoundTrip.strcmp_self name
    · have hnext : commandOf name (e :: l) = commandOf name l := by simp [commandOf, heq]
      rw [hnext] at hrun
      refine hcmp.bind (.ite_neg (Initrd.RoundTrip.strcmp_ne hs.noNul hnul (Ne.symm heq)) (ih hl hrun))

theorem names_valid : ∀ e ∈ names, 0 ∉ text e.1 ∧ (text e.1).length < loopBound := by decide

theorem unknown_returns (hs : IsString (fun a ↦ some (m a)) (.addr cmd) name) (hcmd : cmd ≠ 0) :
    Returns (Holds m w) (say "Unknown command: %s\n" [cmd]) ()
      (Holds m (w ++ (text "Unknown command: " ++ name ++ [10]))) := by
  have hformat : text "Unknown command: %s\n" = text "Unknown command: " ++ 37 :: 115 :: [10] := by decide
  have href : reference (text "Unknown command: %s\n") [.string (some name)] =
      some (text "Unknown command: " ++ name ++ [10]) := by
    rw [hformat]
    exact reference_item (by decide) (by decide) (convert_string name) (reference_plain (by decide) [])
  exact say_returns href (by decide) (by decide) (.cons ⟨hcmd, hs⟩ .nil)

/-- What comes behind the split of a line. -/
theorem chosen_returns (hk : Valid k m cmd n) (hs : IsString (fun a ↦ some (m a)) (.addr cmd) name) (hcmd : cmd ≠ 0)
    {given : Option (List UInt8)} (hargs : Given m args given)
    (hout : (match commandOf name names with
      | none => some (text "Unknown command: " ++ name ++ [10])
      | some command => answer k fuel given command) = some out) :
    ∃ m', SameBut m m' k.dirent 132 ∧
      Returns (Holds m w) (dispatch (fun command args ↦ match command with
        | .cat => cat k.fsRoot buf args
        | _ => builtin k fuel other command args) cmd args names) () (Holds m' (w ++ out)) := by
  cases hcommand : commandOf name names with
  | none =>
    rw [hcommand] at hout
    cases hout
    refine ⟨m, fun _ _ ↦ rfl, dispatch_returns hs names_valid ?_⟩
    rw [hcommand]
    exact unknown_returns hs hcmd
  | some command =>
    rw [hcommand] at hout
    obtain ⟨m', hsame, hrun⟩ := @builtin_returns k m w out cmd args fuel n other command given hk hargs hout
    refine ⟨m', hsame, dispatch_returns hs names_valid ?_⟩
    rw [hcommand]
    cases command with
    | cat => cases hout
    | _ => exact hrun

theorem splitLoop_none {i len : ℕ} (h : ∀ j < len, m (w32 (cmd + (i + j))) ≠ 32) :
    Returns (Holds m w) (splitLoop cmd i len) 0 (Holds m w) := by
  induction len generalizing i with
  | zero => exact .pure 0
  | succ len ih =>
    have hread : Returns (Holds m w) (readChar (.addr cmd) i) (m (w32 (cmd + i))) (Holds m w) :=
      readChar_returns view rfl fun _ _ ↦ trivial
    refine hread.bind (.ite_neg (h 0 (Nat.succ_pos len)) (ih fun j hj ↦ ?_))
    rw [Nat.add_assoc, Nat.add_comm 1]
    exact h (j + 1) (Nat.succ_lt_succ hj)

theorem Valid.congr {m' : Bytes} (hk : Valid k m cmd n)
    (hsame : ∀ a ∈ [k.runningText, k.readyText], ∀ b, a ≤ b → b < a + 8 → m' b = m b) : Valid k m' cmd n := by
  have htexts : ∀ t ∈ [(k.runningText, text "Running"), (k.readyText, text "Ready")],
      t.2.length ≤ 7 ∧ t.1 ∈ [k.runningText, k.readyText] := by
    simp
    decide
  refine ⟨hk.memory, hk.tasks, fun t ht ↦ ?_, hk.nodes, hk.dirent⟩
  obtain ⟨hne, hfits, hat, hapart⟩ := hk.texts t ht
  obtain ⟨hshort, hmem⟩ := htexts t ht
  refine ⟨hne, hfits, hat.congr fun b hb hb' ↦ hsame t.1 hmem b hb ?_, hapart⟩
  rw [List.length_append, List.length_singleton] at hb'
  omega

/-- The line itself is not among what the commands print. -/
theorem Valid.update (hk : Valid k m cmd n) {a : ℕ} (hlow : cmd ≤ a) (hhigh : a < cmd + n) :
    Valid k (update m a 0) cmd n := by
  have hrunning := (hk.texts _ List.mem_cons_self).2.2.2
  have hready := (hk.texts (k.readyText, text "Ready") (by simp)).2.2.2
  refine hk.congr fun b hb x hx hx' ↦ update_of_ne ?_ _ _
  simp only [List.mem_cons, List.not_mem_nil, or_false] at hb
  rcases hb with rfl | rfl <;> dsimp only at * <;> omega

theorem word_append {rest : List UInt8} (hname : 32 ∉ name) :
    word (name ++ 32 :: rest) = name ∧ arguments (name ++ 32 :: rest) = some rest := by
  have hall : ∀ c ∈ name, decide (c ≠ 32) = true := by
    intro c hc
    exact decide_eq_true fun heq ↦ hname (heq ▸ hc)
  rw [word, arguments, if_pos (by simp), List.takeWhile_append_of_pos hall, List.dropWhile_append_of_pos hall]
  simp

theorem word_of_not_mem (h : 32 ∉ line) : word line = line ∧ arguments line = none := by
  have hall : ∀ c ∈ line, decide (c ≠ 32) = true := by
    intro c hc
    exact decide_eq_true fun heq ↦ h (heq ▸ hc)
  exact ⟨List.takeWhile_eq_self_iff.mpr hall, if_neg h⟩

/-- The memory after `shell_execute` differs at most in the first space of the line, and in the `dirent` of the
ramdisk. -/
def OnlySplit (k : Kernel) (cmd : ℕ) (line : List UInt8) (m m' : Bytes) : Prop :=
  ∀ a, m' a ≠ m a → (k.dirent ≤ a ∧ a < k.dirent + 132) ∨ (32 ∈ line ∧ a = cmd + (word line).length)

theorem execute_reply (hk : Valid k m cmd (line.length + 1)) (hline : At m cmd (line ++ [0])) (hnul : 0 ∉ line)
    (hcmd : cmd ≠ 0) (hfits : cmd + (line.length + 1) ≤ 4294967296) (hout : reply k fuel line = some out) :
    ∃ m', OnlySplit k cmd line m m' ∧ Returns (Holds m w)
      (shellExecute (builtin k fuel other) k.fsRoot buf cmd) () (Holds m' (w ++ out)) := by
  have hstring := isString_of_at hline hnul hfits
  have hlen : Returns (Holds m w) (strlen (.addr cmd)) line.length (Holds m w) :=
    strlen_returns view hstring (inside_univ _ _)
  have houtside {m₁ m' : Bytes} (h : SameBut m₁ m' k.dirent 132) {a : ℕ} (ha : m' a ≠ m₁ a) :
      k.dirent ≤ a ∧ a < k.dirent + 132 := by
    by_contra hcon
    exact ha (h a (by omega))
  by_cases hempty : line = []
  · subst hempty
    cases hout
    rw [List.append_nil]
    exact ⟨m, fun a ha ↦ absurd rfl ha, hlen.bind (.ite_pos rfl (.pure ()))⟩
  rw [reply, if_neg hempty] at hout
  have hne : ¬ line.length = 0 := fun h ↦ hempty (List.eq_nil_of_length_eq_zero h)
  by_cases hspace : 32 ∈ line
  · obtain ⟨name, rest, heq, hname⟩ := List.eq_append_cons_of_mem hspace
    obtain ⟨hword, harguments⟩ := @word_append name rest hname
    rw [heq, hword, harguments] at hout
    have hnul' := hnul
    rw [heq, List.mem_append, List.mem_cons, not_or, not_or] at hnul'
    have hcount : line.length = name.length + rest.length + 1 := by
      rw [heq, List.length_append, List.length_cons, Nat.add_assoc]
    have hat : At m cmd (name ++ 32 :: (rest ++ [0])) := by
      rwa [heq, List.append_assoc, List.cons_append] at hline
    obtain ⟨hsplit, hs, hargs⟩ := @split_line m w cmd name rest hat hnul'.1 hname hnul'.2.2 (by omega)
    have hk' : Valid k (Function.update m (cmd + name.length) 0) cmd (line.length + 1) :=
      hk.update (Nat.le_add_right _ _) (by omega)
    obtain ⟨m', hsame, hrun⟩ := @chosen_returns k _ w out cmd _ fuel _ other name buf hk' hs hcmd (some rest)
      ⟨by omega, hargs⟩ hout
    refine ⟨m', fun a ha ↦ ?_, execute_line hat hnul'.1 hname hnul'.2.2 (by omega) hrun⟩
    rw [heq, hword]
    by_cases hspot : a = cmd + name.length
    · exact .inr ⟨by simp, hspot⟩
    · refine .inl (houtside hsame ?_)
      rwa [update_of_ne hspot]
  · obtain ⟨hword, harguments⟩ := word_of_not_mem hspace
    rw [hword, harguments] at hout
    have hloop : Returns (Holds m w) (splitLoop cmd 0 line.length) 0 (Holds m w) := by
      refine splitLoop_none fun j hj hblank ↦ hspace ?_
      have hc := hline j (by rw [List.length_append]; omega)
      rw [List.getElem_append_left hj] at hc
      rw [Nat.zero_add, w32_of_lt (by omega), hc] at hblank
      rw [← hblank]
      exact List.getElem_mem hj
    obtain ⟨m', hsame, hrun⟩ := @chosen_returns k m w out cmd 0 fuel _ other line buf hk hstring hcmd none rfl hout
    exact ⟨m', fun a ha ↦ .inl (houtside hsame ha), hlen.bind (.ite_neg hne (hloop.bind hrun))⟩

/-- A program that is known to come back from one state. -/
theorem run_of_returns {x : Prog State Unit} {m' : Bytes} {w' : List UInt8}
    (h : Returns (Holds m w) x () (Holds m' w')) : x.run ⟨m, w⟩ = .ok () ⟨m', w'⟩ := by
  obtain ⟨st, hst, hholds⟩ := h ⟨m, w⟩ (holds_iff.mpr rfl)
  rw [hst, holds_iff.mp hholds]

/-- Whatever has been typed, `shell_execute` prints the reply to it, unless the command does not come back or
works on other parts of the kernel. It changes no memory but the first space of the line and the `dirent` of
the ramdisk. -/
theorem shellExecute_replies (hk : Valid k m cmd (line.length + 1)) (hline : At m cmd (line ++ [0])) (hnul : 0 ∉ line)
    (hcmd : cmd ≠ 0) (hfits : cmd + (line.length + 1) ≤ 4294967296) (hout : reply k fuel line = some out) :
    ∃ m', (shellExecute (builtin k fuel other) k.fsRoot buf cmd).run ⟨m, w⟩ = .ok () ⟨m', w ++ out⟩ ∧
      OnlySplit k cmd line m m' := by
  obtain ⟨m', hsame, hrun⟩ := @execute_reply k m w out cmd fuel other line buf hk hline hnul hcmd hfits hout
  exact ⟨m', run_of_returns hrun, hsame⟩

/-- Memory with a line at 0x8000 and the two strings of `ps`. -/
def lineMemory (line : List UInt8) : Bytes := fun a ↦
  if a < 0x9000 then (line ++ [0]).getD (a - 0x8000) 0
  else if a < 0xA000 then (text "Running" ++ [0]).getD (a - 0x9000) 0
  else (text "Ready" ++ [0]).getD (a - 0xA000) 0

theorem at_lineMemory (h : line.length < 0x1000) : At (lineMemory line) 0x8000 (line ++ [0]) := by
  intro j hj
  rw [List.length_append, List.length_singleton] at hj
  rw [lineMemory, if_pos (by omega), Nat.add_sub_cancel_left, List.getD_eq_getElem]

/-- The kernel before there are tasks, and without a ramdisk. -/
def bareKernel : Kernel where
  timerTicks := 12345
  freeMemory := 0x100000
  totalMemory := 0x400000
  sched := ⟨fun _ ↦ ⟨0, 0, 0, 0, false⟩, fun _ ↦ 0, 0, 0, 1, 0, 0⟩
  fsRoot := none
  dirent := 0xB000
  runningText := 0x9000
  readyText := 0xA000

theorem bareKernel_valid {n : ℕ} (hn : n ≤ 0x1000) : Valid bareKernel (lineMemory line) 0x8000 n where
  memory := by decide
  tasks _ := ⟨Nat.zero_lt_succ _, Nat.zero_lt_succ _⟩
  texts t ht := by
    have hlen : (text "Running").length = 7 ∧ (text "Ready").length = 5 := by decide
    simp only [List.mem_cons, List.not_mem_nil, or_false] at ht
    rcases ht with rfl | rfl
    · refine ⟨by decide, by decide, fun j hj ↦ ?_, .inl ?_⟩
      · rw [List.length_append, List.length_singleton] at hj
        dsimp only at hj
        have haddr : ¬ 0x9000 + j < 0x9000 ∧ 0x9000 + j < 0xA000 := by omega
        show lineMemory line (0x9000 + j) = _
        rw [lineMemory, if_neg haddr.1, if_pos haddr.2, Nat.add_sub_cancel_left, List.getD_eq_getElem]
      · show 0x8000 + n ≤ 0x9000
        omega
    · refine ⟨by decide, by decide, fun j hj ↦ ?_, .inl ?_⟩
      · have haddr : ¬ 0xA000 + j < 0x9000 ∧ ¬ 0xA000 + j < 0xA000 := by omega
        show lineMemory line (0xA000 + j) = _
        rw [lineMemory, if_neg haddr.1, if_neg haddr.2, Nat.add_sub_cancel_left, List.getD_eq_getElem]
      · show 0x8000 + n ≤ 0xA000
        omega
  nodes _ h := nomatch h
  dirent := by decide

theorem shellExecute_replies_echo : ∃ m', (shellExecute (builtin bareKernel 0 fun _ _ ↦ pure ()) none 0xC000 0x8000).run
    ⟨lineMemory (text "echo hi"), []⟩ = .ok () ⟨m', text "hi\n"⟩ := by
  have hlen : (text "echo hi").length = 7 := by decide
  have hat := @at_lineMemory (text "echo hi") (by omega)
  have hout : reply bareKernel 0 (text "echo hi") = some (text "hi\n") := by decide
  obtain ⟨m', hrun, -⟩ := @shellExecute_replies bareKernel _ [] _ _ 0 (fun _ _ ↦ pure ()) _ 0xC000
    (bareKernel_valid (by omega)) hat (by decide) (by decide) (by omega) hout
  exact ⟨m', hrun⟩

end Lines

end KevOS.Shell.Replies
