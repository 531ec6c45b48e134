import Mathlib.Algebra.Group.Nat.Defs
import Mathlib.Data.List.AList
import Mathlib.Data.List.Sort
import Fcvm.Library.Lossy
import Fcvm.Remap.Protocol

namespace Fcvm.Remap

open Library

abbrev DashMap (κ ν : Type) := AList fun _ : κ => ν

structure RemapFs (T : Type) where
  inner : T
  innerToStable : DashMap ℕ ℕ
  stableToInner : DashMap ℕ ℕ
  paths : DashMap ℕ Bytes
  handleRemap : DashMap ℕ ℕ
  handleBase : ℕ
  maxGuestHandle : ℕ

def LEGACY_HANDLE_BASE : ℕ := 2 ^ 32

def MAX_HANDLE_BASE : ℕ := 2 ^ 62

def pathHash (path : Bytes) : ℕ :=
  let hash := path.foldl (fun hash byte => (hash ^^^ byte.toNat) * 0x100000001b3 % 2 ^ 64) 0xcbf29ce484222325
  if hash < 2 then hash + 2 else hash

def slash : UInt8 := 47

def formatPath (parentPath name : Bytes) : Bytes :=
  if parentPath = [] then name else parentPath ++ slash :: name

/-- The answer of a scan of the path map for an entry with a given path. The map's iteration order is not
specified, so where several entries have the path the answer may be any of them. -/
structure PathScan where
  find : DashMap ℕ Bytes → Bytes → Option ℕ
  sound : ∀ paths path n, find paths path = some n → paths.lookup n = some path
  complete : ∀ paths path n, paths.lookup n = some path → find paths path ≠ none

/-- What is used of the JSON library: the text of a table, and the reading of a text as a value. -/
structure Json where
  Text : Type
  Value : Type
  tableText : ℕ → List (ℕ × Bytes) → Text
  fromStr : Text → Option Value
  get : Value → String → Option Value
  asU64 : Value → Option ℕ
  fromValue : Value → Option (List (ℕ × Bytes))

/-- The documented behaviour of the library on the tables this component writes and on the maps it reads. -/
structure Json.Lawful (J : Json) : Prop where
  ordered : ∀ v table, J.fromValue v = some table → table.Pairwise (·.1 < ·.1)
  written : ∀ base table, base < 2 ^ 64 → table.Pairwise (·.1 < ·.1) →
    ∃ v b p, J.fromStr (J.tableText base table) = some v ∧ J.get v "handle_base" = some b ∧ J.asU64 b = some base ∧
      J.get v "paths" = some p ∧ J.fromValue p = some table

variable {T : Type}

namespace RemapFs

def new (inner : T) : RemapFs T where
  inner := inner
  innerToStable := AList.insert 1 1 ∅
  stableToInner := AList.insert 1 1 ∅
  paths := AList.insert 1 [] ∅
  handleRemap := ∅
  handleBase := 0
  maxGuestHandle := 0

variable (fs : RemapFs T)

def toInner (stable : ℕ) : Option ℕ := fs.stableToInner.lookup stable

def toStable (inner : ℕ) : Option ℕ := fs.innerToStable.lookup inner

def pathOf (stable : ℕ) : Bytes := (fs.paths.lookup stable).getD []

def entryPath (parentStable : ℕ) (name : Bytes) : Bytes :=
  formatPath (fs.pathOf parentStable) (fromUtf8Lossy name)

def freeStable (path : Bytes) : Option ℕ :=
  let hash := pathHash path
  if fs.stableToInner.lookup hash = none then some hash
  else ((List.range' 1 9999).find? fun i =>
      2 ≤ (hash + i) % 2 ^ 64 ∧ fs.stableToInner.lookup ((hash + i) % 2 ^ 64) = none).map fun i => (hash + i) % 2 ^ 64

def registerEntry (parentStable : ℕ) (name : Bytes) (innerIno : ℕ) : Option ℕ × RemapFs T :=
  match fs.innerToStable.lookup innerIno with
  | some stable => (some stable, fs)
  | none =>
    match fs.freeStable (fs.entryPath parentStable name) with
    | none => (none, fs)
    | some stable => (some stable, { fs with
        innerToStable := fs.innerToStable.insert innerIno stable
        stableToInner := fs.stableToInner.insert stable innerIno
        paths := fs.paths.insert stable (fs.entryPath parentStable name) })

def forgetIno (ino : ℕ) : ℕ := (fs.toInner ino).getD ino

def remapRequestInodes : VolumeRequest → Option VolumeRequest
  | .getattr ino => do return .getattr (← fs.toInner ino)
  | .readlink ino => do return .readlink (← fs.toInner ino)
  | .statfs ino => do return .statfs (← fs.toInner ino)
  | .setattr ino fh => do return .setattr (← fs.toInner ino) fh
  | .open ino flags => do return .open (← fs.toInner ino) flags
  | .read ino fh => do return .read (← fs.toInner ino) fh
  | .write ino fh => do return .write (← fs.toInner ino) fh
  | .access ino => do return .access (← fs.toInner ino)
  | .opendir ino => do return .opendir (← fs.toInner ino)
  | .setxattr ino => do return .setxattr (← fs.toInner ino)
  | .getxattr ino => do return .getxattr (← fs.toInner ino)
  | .listxattr ino => do return .listxattr (← fs.toInner ino)
  | .removexattr ino => do return .removexattr (← fs.toInner ino)
  | .readdir ino => do return .readdir (← fs.toInner ino)
  | .readdirplus ino fh => do return .readdirplus (← fs.toInner ino) fh
  | .release ino fh => do return .release (← fs.toInner ino) fh
  | .flush ino fh => do return .flush (← fs.toInner ino) fh
  | .fsync ino fh => do return .fsync (← fs.toInner ino) fh
  | .releasedir ino fh => do return .releasedir (← fs.toInner ino) fh
  | .fsyncdir ino fh => do return .fsyncdir (← fs.toInner ino) fh
  | .fallocate ino fh => do return .fallocate (← fs.toInner ino) fh
  | .lseek ino fh => do return .lseek (← fs.toInner ino) fh
  | .getlk ino fh => do return .getlk (← fs.toInner ino) fh
  | .setlk ino fh => do return .setlk (← fs.toInner ino) fh
  | .lookup parent name => do return .lookup (← fs.toInner parent) name
  | .mkdir parent name => do return .mkdir (← fs.toInner parent) name
  | .create parent name => do return .create (← fs.toInner parent) name
  | .mknod parent name => do return .mknod (← fs.toInner parent) name
  | .rmdir parent name => do return .rmdir (← fs.toInner parent) name
  | .unlink parent name => do return .unlink (← fs.toInner parent) name
  | .symlink parent name => do return .symlink (← fs.toInner parent) name
  | .link ino newparent newname => do return .link (← fs.toInner ino) (← fs.toInner newparent) newname
  | .rename parent name newparent newname flags => do
    return .rename (← fs.toInner parent) name (← fs.toInner newparent) newname flags
  | .copyFileRange inoIn fhIn inoOut fhOut => do
    return .copyFileRange (← fs.toInner inoIn) fhIn (← fs.toInner inoOut) fhOut
  | .remapFileRange inoIn fhIn inoOut fhOut => do
    return .remapFileRange (← fs.toInner inoIn) fhIn (← fs.toInner inoOut) fhOut
  -- best effort: a number with no mapping is passed on as it is
  | .forget ino nlookup => some (.forget (fs.forgetIno ino) nlookup)
  | .batchForget inodes => some (.batchForget (inodes.map fun (ino, nlookup) => (fs.forgetIno ino, nlookup)))

def remapEntryResponse (parentStable : ℕ) (name : Bytes) :
    VolumeResponse → VolumeResponse × RemapFs T
  | .entry attr =>
    match fs.registerEntry parentStable name attr.ino with
    | (some stable, fs) => (.entry { attr with ino := stable }, fs)
    | (none, fs) => (.ioError, fs)
  | .created attr fh =>
    match fs.registerEntry parentStable name attr.ino with
    | (some stable, fs) => (.created { attr with ino := stable } fh, fs)
    | (none, fs) => (.ioError, fs)
  | resp => (resp, fs)

def remapAttrResponse : VolumeResponse → VolumeResponse
  | .attr attr => .attr { attr with ino := (fs.toStable attr.ino).getD attr.ino }
  | resp => resp

def fixPath (stable : ℕ) (expectedPath : Bytes) : RemapFs T :=
  match fs.paths.lookup stable with
  | some storedPath =>
    if storedPath = expectedPath then fs else { fs with paths := fs.paths.insert stable expectedPath }
  | none => fs

def dot : Bytes := [46]

def dotdot : Bytes := [46, 46]

def remapDirEntry (dirStable : ℕ) (dirPath : Bytes) (fs : RemapFs T) (entry : DirEntry) : DirEntry × RemapFs T :=
  if entry.name = dot then ({ entry with ino := dirStable }, fs)
  else if entry.name = dotdot then ({ entry with ino := (fs.toStable entry.ino).getD entry.ino }, fs)
  else
    let expectedPath := formatPath dirPath (fromUtf8Lossy entry.name)
    match fs.toStable entry.ino with
    | some stable => ({ entry with ino := stable }, fs.fixPath stable expectedPath)
    | none => ({ entry with ino := pathHash expectedPath }, fs)

def remapDirEntryPlus (dirStable : ℕ) (dirPath : Bytes) (fs : RemapFs T) (entry : DirEntryPlus) :
    DirEntryPlus × RemapFs T :=
  if entry.name = dot then ({ entry with ino := dirStable, attr := ⟨dirStable⟩ }, fs)
  else if entry.name = dotdot then
    match fs.toStable entry.ino with
    | some stable => ({ entry with ino := stable, attr := ⟨stable⟩ }, fs)
    | none => (entry, fs)
  else
    match fs.registerEntry dirStable entry.name entry.attr.ino with
    | (some stable, fs) => ({ entry with ino := stable, attr := ⟨stable⟩ },
        fs.fixPath stable (formatPath dirPath (fromUtf8Lossy entry.name)))
    | (none, fs) => (entry, fs)

def remapEntries {E : Type} (f : RemapFs T → E → E × RemapFs T) : RemapFs T → List E → List E × RemapFs T
  | fs, [] => ([], fs)
  | fs, entry :: entries =>
    let (entry, fs) := f fs entry
    let (entries, fs) := remapEntries f fs entries
    (entry :: entries, fs)

def remapReaddirResponse (dirStable : ℕ) : VolumeResponse → VolumeResponse × RemapFs T
  | .dirEntries entries =>
    let (entries, fs) := remapEntries (remapDirEntry dirStable (fs.pathOf dirStable)) fs entries
    (.dirEntries entries, fs)
  | resp => (resp, fs)

def remapReaddirplusResponse (dirStable : ℕ) : VolumeResponse → VolumeResponse × RemapFs T
  | .dirEntriesPlus entries =>
    let (entries, fs) := remapEntries (remapDirEntryPlus dirStable (fs.pathOf dirStable)) fs entries
    (.dirEntriesPlus entries, fs)
  | resp => (resp, fs)

def isExchange (flags : ℕ) : Bool := flags.testBit 1

def moveBelow (paths : DashMap ℕ Bytes) (oldPath newPath : Bytes) : DashMap ℕ Bytes :=
  let updates := (paths.entries.filter fun e => (oldPath ++ [slash]).isPrefixOf e.2).map fun e =>
    -- the prefix is at the start, so that is its first occurrence
    (e.1, newPath ++ [slash] ++ e.2.drop (oldPath ++ [slash]).length)
  updates.foldl (fun paths (ino, path) => paths.insert ino path) paths

def insertIfFound (paths : DashMap ℕ Bytes) (stable : Option ℕ) (path : Bytes) : DashMap ℕ Bytes :=
  match stable with
  | some stable => paths.insert stable path
  | none => paths

def handleRenamePaths (scan : PathScan) (fs : RemapFs T) (parentStable : ℕ) (name : Bytes) (newparentStable : ℕ)
    (newname : Bytes) (flags : ℕ) : RemapFs T :=
  let oldPath := fs.entryPath parentStable name
  let newPath := fs.entryPath newparentStable newname
  let sourceStable := scan.find fs.paths oldPath
  if isExchange flags then
    let destStable := scan.find fs.paths newPath
    { fs with paths := insertIfFound (insertIfFound fs.paths sourceStable newPath) destStable oldPath }
  else
    match sourceStable with
    | some src => { fs with paths := moveBelow (fs.paths.insert src newPath) oldPath newPath }
    | none => fs

def remapResponse (scan : PathScan) (fs : RemapFs T) (originalReq : VolumeRequest) (resp : VolumeResponse) :
    VolumeResponse × RemapFs T :=
  if resp.isError then (resp, fs)
  else
    match originalReq with
    | .lookup parent name | .mkdir parent name | .create parent name | .mknod parent name | .symlink parent name =>
      fs.remapEntryResponse parent name resp
    | .link _ newparent newname => fs.remapEntryResponse newparent newname resp
    | .getattr _ | .setattr _ _ => (fs.remapAttrResponse resp, fs)
    | .readdir ino => fs.remapReaddirResponse ino resp
    | .readdirplus ino _ => fs.remapReaddirplusResponse ino resp
    | .rename parent name newparent newname flags =>
      (resp, fs.handleRenamePaths scan parent name newparent newname flags)
    | _ => (resp, fs)

/-! The table of a snapshot. -/

def table : List (ℕ × Bytes) :=
  (fs.paths.entries.map fun e => (e.1, e.2)).insertionSort fun a b => a.1 ≤ b.1

def serializeTable (J : Json) (fs : RemapFs T) : J.Text :=
  J.tableText (max fs.maxGuestHandle fs.handleBase) fs.table

/-- The handle base and the map of paths in a table's value, which is a bare map of paths in an old table. -/
def tableParts (J : Json) (value : J.Value) : ℕ × J.Value :=
  match J.get value "paths" with
  | some paths => (((J.get value "handle_base").bind J.asU64).getD LEGACY_HANDLE_BASE, paths)
  | none => (LEGACY_HANDLE_BASE, value)

def parseTable (J : Json) (json : J.Text) : ℕ × List (ℕ × Bytes) :=
  match J.fromStr json with
  | none => (LEGACY_HANDLE_BASE, [])
  | some value =>
    let (handleBase, paths) := tableParts J value
    if MAX_HANDLE_BASE < handleBase then (LEGACY_HANDLE_BASE, [])
    else
      match J.fromValue paths with
      | some paths => (handleBase, paths)
      | none => (handleBase, [])

variable [FilesystemHandler T]

def walk (inner : T) (current : ℕ) : List Bytes → Option ℕ × T
  | [] => (some current, inner)
  | component :: components =>
    match handleRequest inner (.lookup current component) with
    | (resp, inner) =>
      match resp.fileAttr with
      | some attr => walk inner attr.ino components
      | none => (none, inner)

def restoreEntry (fs : RemapFs T) (entry : ℕ × Bytes) : RemapFs T :=
  if entry.2 = [] then fs
  else
    match walk fs.inner 1 (entry.2.splitOn slash) with
    | (some current, inner) => { fs with
        inner := inner
        innerToStable := fs.innerToStable.insert current entry.1
        stableToInner := fs.stableToInner.insert entry.1 current
        paths := fs.paths.insert entry.1 entry.2 }
    | (none, inner) => { fs with inner := inner }

def restoreFromTable (J : Json) (inner : T) (json : J.Text) : RemapFs T :=
  let (handleBase, table) := parseTable J json
  { table.foldl restoreEntry (new inner) with handleBase := max handleBase 1 }

/-! File handles. -/

def isStaleHandle (guestFh : ℕ) : Bool :=
  guestFh ≠ 0 && 0 < fs.handleBase && guestFh ≤ fs.handleBase

def openFirst (ino : ℕ) : T → List ℕ → VolumeResponse × T
  | inner, [] => handleRequest inner (.open ino O_RDONLY)
  | inner, flags :: rest =>
    match handleRequest inner (.open ino flags) with
    | (resp, inner) => if resp.isError then openFirst ino inner rest else (resp, inner)

def reopenedAs (resp : VolumeResponse) : Option ℕ :=
  match resp with
  | .opened fh | .openeddir fh | .created _ fh => some fh
  | _ => if resp.errno = some ENOSYS then some 0 else none

def tryReopenHandle (stableIno oldFh : ℕ) (isDir : Bool) : Option ℕ × RemapFs T :=
  match fs.handleRemap.lookup oldFh with
  | some newFh => (some newFh, fs)
  | none =>
    match fs.toInner stableIno with
    | none => (none, fs)
    | some innerIno =>
      match if isDir then handleRequest fs.inner (.opendir innerIno)
        else openFirst innerIno fs.inner [O_RDWR, O_RDONLY, O_WRONLY] with
      | (resp, inner) =>
        match reopenedAs resp with
        | none => (none, { fs with inner := inner })
        | some newFh =>
          match fs.handleRemap.lookup oldFh with
          -- another thread reopened the handle meanwhile: ours is given up
          | some remapped =>
            let (_, inner) :=
              handleRequest inner (if isDir then .releasedir innerIno newFh else .release innerIno newFh)
            (some remapped, { fs with inner := inner })
          | none => (some newFh, { fs with inner := inner, handleRemap := fs.handleRemap.insert oldFh newFh })

def innerHandle (guestFh : ℕ) (stableIno : Option ℕ) (isDir : Bool) : Option ℕ × RemapFs T :=
  if guestFh = 0 then (some 0, fs)
  else if !fs.isStaleHandle guestFh then (some (guestFh - fs.handleBase), fs)
  else
    match fs.handleRemap.lookup guestFh with
    | some innerFh => (some innerFh, fs)
    | none =>
      match stableIno with
      | none => (none, fs)
      | some stableIno => fs.tryReopenHandle stableIno guestFh isDir

def withHandle (fh : ℕ) : VolumeResponse → VolumeResponse
  | .opened _ => .opened fh
  | .openeddir _ => .openeddir fh
  | .created attr _ => .created attr fh
  | resp => resp

def guestHandleResponse (resp : VolumeResponse) : VolumeResponse × RemapFs T :=
  match resp.handle with
  | none => (resp, fs)
  | some fh =>
    if fh = 0 then (resp, fs)
    else if fh + fs.handleBase < 2 ^ 64 then
      (withHandle (fh + fs.handleBase) resp,
        { fs with maxGuestHandle := max fs.maxGuestHandle (fh + fs.handleBase) })
    else (.ioError, fs)

def remapFh (request remapped : VolumeRequest) : Option VolumeRequest × RemapFs T :=
  match request.fh with
  | none => (some remapped, fs)
  | some guestFh =>
    match fs.innerHandle guestFh request.ino request.isDirHandleOp with
    | (some innerFh, fs) => (some (remapped.withFh innerFh), fs)
    | (none, fs) => (none, fs)

def remapFhOut (request remapped : VolumeRequest) : Option VolumeRequest × RemapFs T :=
  match request.fhOut with
  | none => (some remapped, fs)
  | some (inoOut, guestFh) =>
    match fs.innerHandle guestFh (some inoOut) false with
    | (some innerFh, fs) => (some (remapped.withFhOut innerFh), fs)
    | (none, fs) => (none, fs)

def staleRelease : VolumeRequest → Option ℕ
  | .release _ fh | .releasedir _ fh => if fs.isStaleHandle fh then some fh else none
  | _ => none

def releaseStale (remapped : VolumeRequest) (fh : ℕ) (groups : List ℕ) : VolumeResponse × RemapFs T :=
  match fs.handleRemap.lookup fh with
  | some innerFh =>
    let (_, inner) := FilesystemHandler.handleRequestWithGroups fs.inner (remapped.withFh innerFh) groups
    (.ok, { fs with inner := inner, handleRemap := fs.handleRemap.erase fh })
  | none => (.ok, fs)

def delegate (scan : PathScan) (fs : RemapFs T) (request remapped : VolumeRequest) (groups : List ℕ) :
    VolumeResponse × RemapFs T :=
  let (resp, inner) := FilesystemHandler.handleRequestWithGroups fs.inner remapped groups
  let (resp, fs) := { fs with inner := inner }.guestHandleResponse resp
  fs.remapResponse scan request resp

def handleRequestWithGroups (scan : PathScan) (fs : RemapFs T) (request : VolumeRequest) (groups : List ℕ) :
    VolumeResponse × RemapFs T :=
  match fs.remapRequestInodes request with
  | none => (.ioError, fs)
  | some remapped =>
    match fs.staleRelease request with
    | some fh => fs.releaseStale remapped fh groups
    | none =>
      match fs.remapFh request remapped with
      | (none, fs) => (.error EBADF, fs)
      | (some remapped, fs) =>
        match fs.remapFhOut request remapped with
        | (none, fs) => (.error EBADF, fs)
        | (some remapped, fs) => fs.delegate scan request remapped groups

end RemapFs

end Fcvm.Remap
