import Mathlib.Data.Nat.Notation

namespace Fcvm.Remap

abbrev Bytes := List UInt8

def EIO : ℕ := 5
def EBADF : ℕ := 9
def ENOSYS : ℕ := 38

def O_RDONLY : ℕ := 0
def O_WRONLY : ℕ := 1
def O_RDWR : ℕ := 2

structure FileAttr where
  ino : ℕ
  deriving DecidableEq

structure DirEntry where
  ino : ℕ
  name : Bytes
  deriving DecidableEq

structure DirEntryPlus where
  ino : ℕ
  name : Bytes
  attr : FileAttr
  deriving DecidableEq

/-- The requests of the volume protocol, with the inode numbers, names, handles and flags that the remapping
layer reads; what it hands through untouched (credentials, offsets, data, modes) is left out. -/
inductive VolumeRequest where
  | lookup (parent : ℕ) (name : Bytes)
  | getattr (ino : ℕ)
  | setattr (ino : ℕ) (fh : Option ℕ)
  | readdir (ino : ℕ)
  | mkdir (parent : ℕ) (name : Bytes)
  | mknod (parent : ℕ) (name : Bytes)
  | rmdir (parent : ℕ) (name : Bytes)
  | create (parent : ℕ) (name : Bytes)
  | open (ino flags : ℕ)
  | read (ino fh : ℕ)
  | write (ino fh : ℕ)
  | release (ino fh : ℕ)
  | flush (ino fh : ℕ)
  | fsync (ino fh : ℕ)
  | unlink (parent : ℕ) (name : Bytes)
  | rename (parent : ℕ) (name : Bytes) (newparent : ℕ) (newname : Bytes) (flags : ℕ)
  | symlink (parent : ℕ) (name : Bytes)
  | readlink (ino : ℕ)
  | link (ino newparent : ℕ) (newname : Bytes)
  | access (ino : ℕ)
  | statfs (ino : ℕ)
  | opendir (ino : ℕ)
  | releasedir (ino fh : ℕ)
  | fsyncdir (ino fh : ℕ)
  | setxattr (ino : ℕ)
  | getxattr (ino : ℕ)
  | listxattr (ino : ℕ)
  | removexattr (ino : ℕ)
  | fallocate (ino fh : ℕ)
  | lseek (ino fh : ℕ)
  | getlk (ino fh : ℕ)
  | setlk (ino fh : ℕ)
  | readdirplus (ino fh : ℕ)
  | copyFileRange (inoIn fhIn inoOut fhOut : ℕ)
  | remapFileRange (inoIn fhIn inoOut fhOut : ℕ)
  | forget (ino nlookup : ℕ)
  | batchForget (inodes : List (ℕ × ℕ))
  deriving DecidableEq

inductive VolumeResponse where
  | attr (attr : FileAttr)
  | entry (attr : FileAttr)
  | created (attr : FileAttr) (fh : ℕ)
  | data
  | written
  | opened (fh : ℕ)
  | openeddir (fh : ℕ)
  | dirEntries (entries : List DirEntry)
  | dirEntriesPlus (entries : List DirEntryPlus)
  | symlink
  | statfs
  | xattr
  | xattrSize
  | lseek
  | lock
  | ok
  | error (errno : ℕ)
  deriving DecidableEq

namespace VolumeResponse

def ioError : VolumeResponse := .error EIO

def isError : VolumeResponse → Bool
  | .error _ => true
  | _ => false

def errno : VolumeResponse → Option ℕ
  | .error e => some e
  | _ => none

def fileAttr : VolumeResponse → Option FileAttr
  | .attr a | .entry a | .created a _ => some a
  | _ => none

def handle : VolumeResponse → Option ℕ
  | .opened fh | .openeddir fh | .created _ fh => some fh
  | _ => none

end VolumeResponse

namespace VolumeRequest

def fh : VolumeRequest → Option ℕ
  | .read _ fh | .write _ fh | .release _ fh | .flush _ fh | .fsync _ fh | .releasedir _ fh | .fsyncdir _ fh
  | .fallocate _ fh | .lseek _ fh | .getlk _ fh | .setlk _ fh | .readdirplus _ fh => some fh
  | .setattr _ fh => fh
  | .copyFileRange _ fhIn _ _ | .remapFileRange _ fhIn _ _ => some fhIn
  | _ => none

def withFh (fh : ℕ) : VolumeRequest → VolumeRequest
  | .read ino _ => .read ino fh
  | .write ino _ => .write ino fh
  | .release ino _ => .release ino fh
  | .flush ino _ => .flush ino fh
  | .fsync ino _ => .fsync ino fh
  | .releasedir ino _ => .releasedir ino fh
  | .fsyncdir ino _ => .fsyncdir ino fh
  | .fallocate ino _ => .fallocate ino fh
  | .lseek ino _ => .lseek ino fh
  | .getlk ino _ => .getlk ino fh
  | .setlk ino _ => .setlk ino fh
  | .readdirplus ino _ => .readdirplus ino fh
  | .setattr ino _ => .setattr ino (some fh)
  | .copyFileRange inoIn _ inoOut fhOut => .copyFileRange inoIn fh inoOut fhOut
  | .remapFileRange inoIn _ inoOut fhOut => .remapFileRange inoIn fh inoOut fhOut
  | req => req

def fhOut : VolumeRequest → Option (ℕ × ℕ)
  | .copyFileRange _ _ inoOut fhOut | .remapFileRange _ _ inoOut fhOut => some (inoOut, fhOut)
  | _ => none

def withFhOut (fh : ℕ) : VolumeRequest → VolumeRequest
  | .copyFileRange inoIn fhIn inoOut _ => .copyFileRange inoIn fhIn inoOut fh
  | .remapFileRange inoIn fhIn inoOut _ => .remapFileRange inoIn fhIn inoOut fh
  | req => req

def isDirHandleOp : VolumeRequest → Bool
  | .readdirplus .. | .releasedir .. | .fsyncdir .. => true
  | _ => false

def ino : VolumeRequest → Option ℕ
  | .getattr ino | .readlink ino | .statfs ino | .read ino _ | .write ino _ | .release ino _ | .flush ino _
  | .fsync ino _ | .open ino _ | .opendir ino | .releasedir ino _ | .fsyncdir ino _ | .fallocate ino _
  | .lseek ino _ | .getlk ino _ | .setlk ino _ | .readdirplus ino _ | .access ino | .forget ino _ => some ino
  | .copyFileRange inoIn .. | .remapFileRange inoIn .. => some inoIn
  | .lookup parent _ | .readdir parent | .mkdir parent _ | .mknod parent _ | .rmdir parent _ | .create parent _
  | .unlink parent _ | .rename parent .. | .symlink parent _ | .link parent .. => some parent
  | .setattr ino _ => some ino
  | .setxattr ino | .getxattr ino | .listxattr ino | .removexattr ino => some ino
  | .batchForget _ => none

def inodes : VolumeRequest → List ℕ
  | .rename parent _ newparent _ _ => [parent, newparent]
  | .link ino newparent _ => [ino, newparent]
  | .copyFileRange inoIn _ inoOut _ | .remapFileRange inoIn _ inoOut _ => [inoIn, inoOut]
  | .batchForget inodes => inodes.map Prod.fst
  | req => req.ino.toList

def isForget : VolumeRequest → Bool
  | .forget .. | .batchForget _ => true
  | _ => false

end VolumeRequest

class FilesystemHandler (T : Type) where
  handleRequest : T → VolumeRequest → VolumeResponse × T
  handleRequestWithGroups : T → VolumeRequest → List ℕ → VolumeResponse × T

export FilesystemHandler (handleRequest)

/-- A handler together with every request it was given and its answer, the newest first. -/
structure Recorded (T : Type) where
  handler : T
  calls : List (VolumeRequest × VolumeResponse)

instance {T : Type} [FilesystemHandler T] : FilesystemHandler (Recorded T) where
  handleRequest t req :=
    let (resp, handler) := handleRequest t.handler req
    (resp, ⟨handler, (req, resp) :: t.calls⟩)
  handleRequestWithGroups t req groups :=
    let (resp, handler) := FilesystemHandler.handleRequestWithGroups t.handler req groups
    (resp, ⟨handler, (req, resp) :: t.calls⟩)

end Fcvm.Remap
