import KevOS.Lib.ByteString
import KevOS.Machine

namespace KevOS.Initrd

open Lib.ByteMemory Lib.ByteString Machine

/-- The part of a path behind the last slash, found by `strrchr`. -/
def basename (path : List UInt8) : List UInt8 := (path.reverse.takeWhile (· ≠ 47)).reverse

/-- `strncpy` into bytes that are zero. -/
def strncpy (src : List UInt8) (n : ℕ) : List UInt8 :=
  src.take n ++ List.replicate (n - src.length) 0

structure FileHeader where
  name : List UInt8
  offset : ℕ
  length : ℕ
  deriving DecidableEq, Repr

def FileHeader.bytes (h : FileHeader) : List UInt8 := h.name ++ le32 h.offset ++ le32 h.length

/-- An argument of `make_initrd`, with what its file contains if it can be opened. -/
structure Arg where
  path : List UInt8
  contents : Option (List UInt8)
  deriving DecidableEq, Repr

/-- Why `make_initrd` writes no image, or goes on with undefined behaviour. -/
inductive Failure
  | usage
  | cannotOpen (path : List UInt8)
  | outOfRange (index : ℕ)
  deriving DecidableEq, Repr

/-- The first pass over the files, from index `i` on. -/
def writeHeaders : ℕ → ℕ → List Arg → Except Failure (List FileHeader)
  | _, _, [] => .ok []
  | i, currentOffset, arg :: args =>
    match arg.contents with
    | none => .error (.cannotOpen arg.path)
    | some contents =>
      -- the array has 64 headers, which nothing checks
      if i < 64 then do
        let length := w32 contents.length
        let name := strncpy (basename arg.path) 63 ++ [0]
        let headers ← writeHeaders (i + 1) (w32 (currentOffset + length)) args
        pure (⟨name, currentOffset, length⟩ :: headers)
      else .error (.outOfRange i)

/-- The second pass, which reads each file again, as far as its header says. -/
def writeData (headers : List FileHeader) (args : List Arg) : List UInt8 :=
  (List.zipWith (fun h arg ↦ (arg.contents.getD []).take h.length) headers args).flatten

/-- The bytes of `initrd.img`. -/
def makeInitrd (args : List Arg) : Except Failure (List UInt8) :=
  if args.length < 1 then .error .usage
  else do
    let nfiles := w32 args.length
    let headers ← writeHeaders 0 (w32 (4 + 72 * nfiles)) args
    pure (le32 nfiles ++ headers.flatMap FileHeader.bytes ++ writeData headers args)

def fsFile : ℕ := 1

def fsDirectory : ℕ := 2

/-- `fs_node_t`. The function pointers are null or those of this file system. -/
structure FsNode where
  name : List UInt8
  flags : ℕ
  inode : ℕ
  length : ℕ
  read : Bool
  readdir : Bool
  finddir : Bool
  deriving DecidableEq, Repr

/-- A pointer to a node: `initrd_root`, or into `root_nodes`. -/
inductive NodePtr
  | root
  | file (i : ℕ)
  deriving DecidableEq, Repr

structure Ramdisk where
  initrdHeader : ℕ
  fileHeaders : ℕ
  initrdRoot : FsNode
  rootNodes : List FsNode
  nrootNodes : ℕ
  deriving DecidableEq, Repr

/-- The turns of `for (int i = 0; i < n; i++)`. -/
def turns (n : ℕ) : ℕ := if n < 2147483648 then n else 0

def headerSize : ℕ := 72

/-- The node of the file with index `i`. Its name is looked for in `fuel` bytes. -/
def fileNode (m : Bytes) (fuel fileHeaders i : ℕ) : Option FsNode := do
  let header := w32 (fileHeaders + headerSize * i)
  let name ← readString m fuel header
  pure
    { name
      flags := fsFile
      inode := i
      length := word m (header + 68)
      read := true
      readdir := false
      finddir := false }

def initialiseInitrd (fuel location : ℕ) (m : Bytes) : Option Ramdisk := do
  let fileHeaders := w32 (location + 4)
  let nfiles := word m location
  let rootNodes ← (List.range (turns nfiles)).mapM (fileNode m fuel fileHeaders)
  pure
    { initrdHeader := location
      fileHeaders
      initrdRoot :=
        { name := [105, 110, 105, 116, 114, 100]
          flags := fsDirectory
          inode := 0
          length := 0
          read := false
          readdir := true
          finddir := true }
      rootNodes
      nrootNodes := nfiles }

/-- The node that a pointer leads to, if there is one. -/
def Ramdisk.node (s : Ramdisk) : NodePtr → Option FsNode
  | .root => some s.initrdRoot
  | .file i => s.rootNodes[i]?

/-- `strcmp` of two strings without their terminators. -/
def strcmp : List UInt8 → List UInt8 → ℤ
  | [], [] => 0
  | [], b :: _ => -b.toNat
  | a :: _, [] => a.toNat
  | a :: s, b :: t => if a = b then strcmp s t else a.toNat - b.toNat

def initrdRead (s : Ramdisk) (m : Bytes) (node : FsNode) (offset size buffer : ℕ) : ℕ × Bytes :=
  let header := w32 (s.fileHeaders + headerSize * node.inode)
  let length := word m (header + 68)
  if offset > length then (0, m)
  else
    let size := if w32 (offset + size) > length then length - offset else size
    let data := w32 (s.initrdHeader + word m (header + 64))
    (size, memcpy m buffer (w32 (data + offset)) size)

def initrdFinddir (s : Ramdisk) (node : NodePtr) (name : List UInt8) : Option NodePtr :=
  if node = .root ∧ strcmp name [46] = 0 then some .root
  else if node = .root ∧ strcmp name [46, 46] = 0 then some .root
  else ((List.range (turns s.nrootNodes)).find? fun i ↦
    (s.rootNodes[i]?).any fun n ↦ strcmp name n.name = 0).map .file

structure Dirent where
  name : List UInt8
  ino : ℕ
  deriving DecidableEq, Repr

/-- `none` is the null pointer. -/
def initrdReaddir (s : Ramdisk) (node : NodePtr) (index : ℕ) : Option Dirent :=
  if node = .root ∧ index = 0 then some ⟨[46], 0⟩
  else if node = .root ∧ index = 1 then some ⟨[46, 46], 0⟩
  else if sub32 index 2 < s.nrootNodes then
    (s.rootNodes[sub32 index 2]?).map fun n ↦ ⟨n.name, n.inode⟩
  else none

def vfsRead (s : Ramdisk) (m : Bytes) (node : FsNode) (offset size buffer : ℕ) : ℕ × Bytes :=
  if node.read then initrdRead s m node offset size buffer else (0, m)

/-- `none` is the null pointer. -/
def vfsFinddir (s : Ramdisk) (node : NodePtr) (name : List UInt8) : Option NodePtr := do
  let n ← s.node node
  if n.flags &&& 7 = fsDirectory ∧ n.finddir then initrdFinddir s node name else none

def vfsReaddir (s : Ramdisk) (node : NodePtr) (index : ℕ) : Option Dirent := do
  let n ← s.node node
  if n.flags &&& 7 = fsDirectory ∧ n.readdir then initrdReaddir s node index else none

/-- The loop of the command `ls`, with the lines it prints: whether it is a directory, and the
name. -/
def lsLoop (s : Ramdisk) : ℕ → ℕ → Option (List (Bool × List UInt8))
  | 0, _ => none
  | fuel + 1, i =>
    match vfsReaddir s .root i with
    | none => some []
    | some entry =>
      let lines :=
        match vfsFinddir s .root entry.name >>= s.node with
        | none => []
        | some fsnode => [(decide (fsnode.flags &&& 7 = fsDirectory), entry.name)]
      (lsLoop s fuel (w32 (i + 1))).map (lines ++ ·)

end KevOS.Initrd
