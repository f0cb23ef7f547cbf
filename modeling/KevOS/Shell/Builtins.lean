import KevOS.Shell.Commands
import KevOS.Tasking.Model
import KevOS.Tty.Model

namespace KevOS.Shell.Builtins

open Lib.Program Lib.ByteMemory Machine Libc Commands Function
open Initrd (Ramdisk NodePtr FsNode)
open Tasking (Scheduler)
open Tty (VgaColor)

/-- What the commands look at elsewhere in the kernel, and where the linker has put the `dirent` of the
ramdisk and the two strings of `task_print_list`. -/
structure Kernel where
  timerTicks : UInt32
  freeMemory : ℕ
  totalMemory : ℕ
  sched : Scheduler
  fsRoot : Option Ramdisk
  dirent : ℕ
  runningText : ℕ
  readyText : ℕ

/-- Several calls of `printf` without arguments. -/
def sayLines : List String → Prog State Unit
  | [] => pure ()
  | line :: lines => do
    say line []
    sayLines lines

def helpLines : List String :=
  ["Available commands:\n",
    "  help        - Show this help message\n",
    "  clear       - Clear the screen\n",
    "  whatisthis  - Explain this project\n",
    "  exit        - Close the shell and halt project\n",
    "  quit        - Close the shell and halt project\n",
    "  echo <text> - Prints the given text\n",
    "  version     - Displays KevOS version\n",
    "  setcolor <fg> <bg> - Sets terminal foreground and background colors\n",
    "  reboot      - Reboots the system\n",
    "  testheap    - Run a suite of tests on the kernel heap\n",
    "  uptime      - Displays the system uptime\n",
    "  gdtinfo     - Displays GDT and TSS CPU state\n",
    "  meminfo     - Displays physical memory usage\n",
    "  ps          - List all running tasks\n",
    "  ls          - List files in root directory\n",
    "  cat <file>  - Read and print file contents\n"]

def whatisthisLines : List String :=
  ["KevOS is a custom-built, 32-bit x86 operating system.\n",
    "It currently features a protected-mode kernel, VGA drivers,\n",
    "and an interrupt-driven keyboard subsystem.\n",
    "Next phase: Multitasking and Processes.\n"]

def echo (args : ℕ) : Prog State Unit := if args ≠ 0 then say "%s\n" [args] else say "\n" []

section Reports

variable (k : Kernel)

def uptime : Prog State Unit :=
  let seconds := k.timerTicks / 100
  say "System uptime: %u seconds\n" [seconds.toNat]

def meminfo : Prog State Unit := do
  let usedMem := sub32 k.totalMemory k.freeMemory
  say "--- Physical Memory Info ---\n" []
  say "Free Memory: %u KB\n" [k.freeMemory / 1024]
  say "Used Memory: %u KB\n" [usedMem / 1024]

/-- The loop of `task_print_list`, with a bound on its turns. -/
def taskLoop (first : ℕ) : ℕ → ℕ → Prog State Unit
  | 0, _ => throw .fuel
  | fuel + 1, curr => do
    let status := if curr = k.sched.currentTask then k.runningText else k.readyText
    say "%d     0x%x       %s\n" [(k.sched.task curr).id, (k.sched.task curr).esp, status]
    let curr := k.sched.next curr
    if curr ≠ first then taskLoop first fuel curr else pure ()

def taskPrintList (fuel : ℕ) : Prog State Unit := do
  say "ID    Stack Pointer    Status\n" []
  say "-----------------------------\n" []
  taskLoop k k.sched.readyQueue fuel k.sched.readyQueue

end Reports

section Directory

def strcpyLoop (dest : ℕ) (src : CharPtr) : ℕ → Prog State Unit
  | 0 => throw .fuel
  | fuel + 1 => do
    let c ← readChar src 0
    if c ≠ 0 then do
      storeChar dest c
      strcpyLoop (w32 (dest + 1)) (src.add 1) fuel
    else storeChar dest 0

def strcpy (dest : ℕ) (src : CharPtr) : Prog State Unit := strcpyLoop dest src loopBound

variable (k : Kernel) (d : Ramdisk)

/-- `dirent.ino = ino`, behind the 128 characters of the name. -/
def storeIno (dirent ino : ℕ) : Prog State Unit := do
  storeChar (w32 (dirent + 128)) (UInt8.ofNat ino)
  storeChar (w32 (dirent + 129)) (UInt8.ofNat (ino / 256))
  storeChar (w32 (dirent + 130)) (UInt8.ofNat (ino / 65536))
  storeChar (w32 (dirent + 131)) (UInt8.ofNat (ino / 16777216))

/-- `initrd_readdir`, which answers with a pointer to `dirent`. -/
def readdir (node : NodePtr) (index : ℕ) : Prog State Bool :=
  match Initrd.vfsReaddir d node index with
  | none => pure false
  | some entry => do
    strcpy k.dirent (.literal entry.name)
    storeIno k.dirent entry.ino
    pure true

def sayKind (n : FsNode) : Prog State Unit :=
  if n.flags &&& 7 = Initrd.fsDirectory then say "(dir) " [] else say "(file) " []

/-- One turn of the loop of `ls`, with the name in `dirent`. -/
def lsEntry : Prog State Unit := do
  let fsnode ← vfsFinddir d .root (.addr k.dirent)
  match fsnode with
  | none => pure ()
  | some p =>
    match d.node p with
    | none => throw .fault
    | some n => do
      sayKind n
      say "%s\n" [k.dirent]

/-- The loop of `ls`, with a bound on its turns. -/
def lsLoop : ℕ → ℕ → Prog State Unit
  | 0, _ => throw .fuel
  | fuel + 1, i => do
    let more ← readdir k d .root i
    if more then do
      lsEntry k d
      lsLoop fuel (w32 (i + 1))
    else pure ()

def ls (fuel : ℕ) : Prog State Unit :=
  match k.fsRoot with
  | none => say "No root filesystem mounted.\n" []
  | some d => lsLoop k d fuel 0

end Directory

section Colors

/-- The names in the order in which they are compared. -/
def colorNames : List (String × VgaColor) :=
  [("black", .black), ("blue", .blue), ("green", .green), ("cyan", .cyan), ("red", .red),
    ("magenta", .magenta), ("brown", .brown), ("lightgrey", .lightGrey), ("darkgrey", .darkGrey),
    ("lightblue", .lightBlue), ("lightgreen", .lightGreen), ("lightcyan", .lightCyan),
    ("lightred", .lightRed), ("lightmagenta", .lightMagenta), ("lightbrown", .lightBrown),
    ("white", .white)]

def parseColorLoop (colorName : ℕ) : List (String × VgaColor) → Prog State VgaColor
  | [] => pure .black
  | (name, color) :: rest => do
    let r ← Strings.strcmp (.addr colorName) (.literal (text name))
    if r = 0 then pure color else parseColorLoop colorName rest

def parseColorName (colorName : ℕ) : Prog State VgaColor := parseColorLoop colorName colorNames

/-- The loop that ends the first color at a space, with a bound on its turns. -/
def splitColors (fgStr i : ℕ) : ℕ → Prog State ℕ
  | 0 => throw .fuel
  | fuel + 1 => do
    let c ← readChar (.addr fgStr) i
    if c = 0 then pure 0
    else if c = 32 then do
      storeChar (w32 (fgStr + i)) 0
      pure (w32 (fgStr + (i + 1)))
    else splitColors fgStr (i + 1) fuel

/-- The colors that `terminal_setcolor_colors` is called with, unless the arguments are wrong. -/
def setcolor (args : ℕ) : Prog State (Option (VgaColor × VgaColor)) :=
  if args = 0 then do
    say "Usage: setcolor <fg> <bg>\n" []
    pure none
  else do
    let bgStr ← splitColors args 0 loopBound
    if bgStr = 0 then do
      say "Usage: setcolor <fg> <bg>\n" []
      pure none
    else do
      let fg ← parseColorName args
      let bg ← parseColorName bgStr
      pure (some (fg, bg))

end Colors

/-- The commands that work on more than memory and what is printed are left open. -/
def builtin (k : Kernel) (fuel : ℕ) (other : Builtin → ℕ → Prog State Unit) (command : Builtin)
    (args : ℕ) : Prog State Unit :=
  match command with
  | .help => sayLines helpLines
  | .exit => do
    say "System halting... Safe to power off.\n" []
    throw .halt
  | .echo => echo args
  | .version => say "KevOS Version 0.1 (i386 Protected Mode)\n" []
  | .uptime => uptime k
  | .meminfo => meminfo k
  | .ps => taskPrintList k fuel
  | .whatisthis => sayLines whatisthisLines
  | .ls => ls k fuel
  | command => other command args

end KevOS.Shell.Builtins
