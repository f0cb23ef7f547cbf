import KevOS.Libc.Strings
import KevOS.Shell.Model

namespace KevOS.Shell.Commands

open Lib.Program Lib.ByteMemory Machine Libc Function
open Initrd (Ramdisk NodePtr FsNode)

/-- What a command works on: memory, and the characters written to the terminal. -/
structure State where
  memory : Bytes
  output : List UInt8

instance : Console State where
  loadChar a := do
    let s ← get
    pure (s.memory a)
  putchar c := modify fun s ↦ { s with output := s.output ++ [c] }

def storeChar (a : ℕ) (c : UInt8) : Prog State Unit :=
  modify fun s ↦ { s with memory := update s.memory a c }

/-- The loop that looks for a space, with `n` characters from `i` on left. Behind the space lie
the arguments, without one they are the null pointer. -/
def splitLoop (cmd i : ℕ) : ℕ → Prog State ℕ
  | 0 => pure 0
  | n + 1 => do
    let c ← readChar (.addr cmd) i
    if c = 32 then do
      storeChar (w32 (cmd + i)) 0
      pure (w32 (cmd + (i + 1)))
    else splitLoop cmd (i + 1) n

section FileSystem

variable (d : Ramdisk)

/-- `node == initrd_root && !strcmp(name, s)` -/
def isRootNamed (node : NodePtr) (name : CharPtr) (s : String) : Prog State Bool :=
  if node = .root then do
    let r ← Strings.strcmp name (.literal (text s))
    pure (decide (r = 0))
  else pure false

def finddirLoop (name : CharPtr) : List ℕ → Prog State (Option NodePtr)
  | [] => pure none
  | i :: is =>
    match d.rootNodes[i]? with
    | none => throw .fault
    | some n => do
      let r ← Strings.strcmp name (.literal n.name)
      if r = 0 then pure (some (.file i)) else finddirLoop name is

def initrdFinddir (node : NodePtr) (name : CharPtr) : Prog State (Option NodePtr) := do
  let dot ← isRootNamed node name "."
  if dot then pure (some .root)
  else do
    let dotdot ← isRootNamed node name ".."
    if dotdot then pure (some .root)
    else finddirLoop d name (List.range (Initrd.turns d.nrootNodes))

def vfsFinddir (node : NodePtr) (name : CharPtr) : Prog State (Option NodePtr) :=
  match d.node node with
  | none => throw .fault
  | some n =>
    if n.flags &&& 7 = Initrd.fsDirectory ∧ n.finddir then initrdFinddir d node name else pure none

def vfsRead (node : FsNode) (offset size buffer : ℕ) : Prog State ℕ := do
  let s ← get
  let r := Initrd.vfsRead d s.memory node offset size buffer
  modify fun s ↦ { s with memory := r.2 }
  pure r.1

end FileSystem

/-- A call of `printf` whose result is not used. -/
def say (format : String) (parameters : List ℕ) : Prog State Unit := do
  let _ ← printf (.literal (text format)) parameters
  pure ()

/-- The command `cat`, with its array at `buf`. -/
def cat (fsRoot : Option Ramdisk) (buf args : ℕ) : Prog State Unit :=
  if args = 0 then say "Usage: cat <filename>\n" []
  else
    match fsRoot with
    | none => say "No root filesystem mounted.\n" []
    | some d => do
      let fsnode ← vfsFinddir d .root (.addr args)
      match fsnode with
      | none => say "File not found: %s\n" [args]
      | some p =>
        match d.node p with
        | none => throw .fault
        | some n =>
          if n.flags &&& 7 = Initrd.fsDirectory then say "Cannot cat a directory.\n" []
          else do
            let sz ← vfsRead d n 0 255 buf
            storeChar (w32 (buf + sz)) 0
            say "%s\n" [buf]

inductive Builtin
  | help
  | exit
  | clear
  | echo
  | version
  | setcolor
  | reboot
  | testheap
  | uptime
  | gdtinfo
  | meminfo
  | ps
  | whatisthis
  | ls
  | cat
  deriving DecidableEq, Repr

/-- The names, in the order in which the command is compared with them. -/
def names : List (String × Builtin) :=
  [("help", .help), ("exit", .exit), ("quit", .exit), ("clear", .clear), ("echo", .echo),
    ("version", .version), ("setcolor", .setcolor), ("reboot", .reboot), ("testheap", .testheap),
    ("uptime", .uptime), ("gdtinfo", .gdtinfo), ("meminfo", .meminfo), ("ps", .ps),
    ("whatisthis", .whatisthis), ("ls", .ls), ("cat", .cat)]

section Execute

variable (run : Builtin → ℕ → Prog State Unit)

/-- `run` is what each command does with its arguments. -/
def dispatch (cmd args : ℕ) : List (String × Builtin) → Prog State Unit
  | [] => say "Unknown command: %s\n" [cmd]
  | (name, command) :: rest => do
    let r ← Strings.strcmp (.addr cmd) (.literal (text name))
    if r = 0 then run command args else dispatch cmd args rest

def execute (cmd : ℕ) : Prog State Unit := do
  let len ← strlen (.addr cmd)
  if len = 0 then pure ()
  else do
    let args ← splitLoop cmd 0 len
    dispatch run cmd args names

end Execute

/-- The other commands are left open. -/
def shellExecute (other : Builtin → ℕ → Prog State Unit) (fsRoot : Option Ramdisk)
    (buf cmd : ℕ) : Prog State Unit :=
  execute (fun command args ↦
    match command with
    | .cat => cat fsRoot buf args
    | _ => other command args) cmd

end KevOS.Shell.Commands
