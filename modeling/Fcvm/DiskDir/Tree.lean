import Mathlib.Data.List.Sort
import Mathlib.Logic.Function.Basic
import Fcvm.Library.Delimited

namespace Fcvm.DiskDir

open Library

abbrev Bytes := List UInt8

structure Name where
  bytes : Bytes
  nonempty : bytes ≠ []
  plain : 0x2F ∉ bytes
  deriving DecidableEq

/-- What `symlink_metadata` and the attribute list say of an entry of any type. -/
structure Metadata where
  mode : UInt32
  uid : UInt32
  gid : UInt32
  xattrs : List (Bytes × Bytes)
  deriving DecidableEq

inductive Node where
  | file (content : Bytes)
  | symlink (target : Bytes)
  | block (rdev : UInt64)
  | char (rdev : UInt64)
  | fifo
  | socket
  | other
  deriving DecidableEq

abbrev Inode := UInt64 × UInt64

/-- A directory tree. The entries of a directory are in the order that `read_dir` gives. -/
inductive Tree where
  | leaf (inode : Inode) (nlink : ℕ) (md : Metadata) (node : Node)
  | dir (md : Metadata) (entries : List (Name × Tree))

namespace Tree

mutual

def sorted : Tree → Tree
  | leaf inode nlink md node => leaf inode nlink md node
  | dir md entries => dir md ((sortedEntries entries).insertionSort fun a b => a.1.bytes ≤ b.1.bytes)

def sortedEntries : List (Name × Tree) → List (Name × Tree)
  | [] => []
  | (name, t) :: entries => (name, sorted t) :: sortedEntries entries

end

end Tree

def userPrefix : Bytes := "user.".toUTF8.data.toList

def carriedXattr (name : Bytes) (keepOwners : Bool) : Bool :=
  keepOwners || userPrefix.isPrefixOf name || name = "system.posix_acl_access".toUTF8.data.toList ||
    name = "system.posix_acl_default".toUTF8.data.toList

def xattrLe (a b : Bytes × Bytes) : Bool := a.1 < b.1 ∨ a.1 = b.1 ∧ a.2 ≤ b.2

def carried (keepOwners : Bool) (md : Metadata) : List (Bytes × Bytes) :=
  (md.xattrs.insertionSort fun a b => xattrLe a b).filter fun x => carriedXattr x.1 keepOwners

def hashBytes (bytes : Bytes) : Bytes := lengthPrefixed bytes

def Node.kind : Node → UInt8
  | .file _ => 0x66
  | .symlink _ => 0x6C
  | .block _ => 0x62
  | .char _ => 0x63
  | .fifo => 0x70
  | .socket => 0x73
  | .other => 0x3F

def dirKind : UInt8 := 0x64

def join (relative : Bytes) (name : Name) : Bytes :=
  if relative = [] then name.bytes else relative ++ 0x2F :: name.bytes

abbrev Links := Inode → Option Bytes

def header (keepOwners : Bool) (relative : Bytes) (kind : UInt8) (md : Metadata) : Bytes :=
  hashBytes relative ++ [kind] ++ littleEndian 4 (md.mode &&& 0o7777).toNat ++
    (if keepOwners then littleEndian 4 md.uid.toNat ++ littleEndian 4 md.gid.toNat else []) ++
    littleEndian 8 (carried keepOwners md).length ++
    (carried keepOwners md).flatMap fun x => hashBytes x.1 ++ hashBytes x.2

/-- What the hasher is given for an entry that is no directory, behind its header, and the links known after it. -/
def hashNode (relative : Bytes) (inode : Inode) (nlink : ℕ) (node : Node) (links : Links) : Bytes × Links :=
  match node with
  | .file content =>
    if 1 < nlink ∧ (links inode).isSome then (0x68 :: hashBytes ((links inode).getD []), links)
    else
      (littleEndian 8 content.length ++ content,
        if 1 < nlink then Function.update links inode (some relative) else links)
  | .symlink target => (hashBytes target, links)
  | .block rdev => (littleEndian 8 rdev.toNat, links)
  | .char rdev => (littleEndian 8 rdev.toNat, links)
  | .fifo => ([], links)
  | .socket => ([], links)
  | .other => ([], links)

mutual

/-- `hash_entry`, on a tree whose directories are sorted: what the hasher is given, and the links known after it. -/
def hashEntry (keepOwners : Bool) (relative : Bytes) : Tree → Links → Bytes × Links
  | .leaf inode nlink md node, links =>
    let (body, links') := hashNode relative inode nlink node links
    (header keepOwners relative node.kind md ++ body, links')
  | .dir md entries, links =>
    let (body, links') := hashEntries keepOwners relative entries links
    (header keepOwners relative dirKind md ++ littleEndian 8 entries.length ++ body, links')

def hashEntries (keepOwners : Bool) (relative : Bytes) : List (Name × Tree) → Links → Bytes × Links
  | [], links => ([], links)
  | (name, t) :: entries, links =>
    let (first, links') := hashEntry keepOwners (join relative name) t links
    let (rest, links'') := hashEntries keepOwners relative entries links'
    (first ++ rest, links'')

end

def hashTreeWith (keepOwners : Bool) (root : Tree) : Bytes :=
  (hashEntry keepOwners [] root.sorted fun _ => none).1

end Fcvm.DiskDir
