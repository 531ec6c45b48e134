import Mathlib.Data.List.Basic
import Mathlib.Data.List.TakeWhile

namespace Fcvm.Readdir

abbrev Name := List UInt8

/-- An entry as the host lists it; `offset` is the cookie to go on from after it. -/
structure HostEntry where
  ino : ℕ
  name : Name
  type : ℕ
  offset : ℕ
  deriving DecidableEq

structure Host where
  entries : List HostEntry
  split : ℕ → ℕ
  openError : Option ℕ
  readError : ℕ → Option ℕ
  parent : Option ℕ

structure DirEntry where
  ino : ℕ
  name : Name
  fileType : ℕ
  deriving DecidableEq

def DOT : Name := [46]

def DOTDOT : Name := [46, 46]

def DIR : ℕ := 4

namespace DirEntry

def dot (ino : ℕ) : DirEntry := ⟨ino, DOT, DIR⟩

def dotdot (parentIno : ℕ) : DirEntry := ⟨parentIno, DOTDOT, DIR⟩

end DirEntry

namespace HostEntry

def isDots (e : HostEntry) : Bool := e.name == DOT || e.name == DOTDOT

def toDirEntry (e : HostEntry) : DirEntry := ⟨e.ino, e.name, e.type⟩

end HostEntry

inductive VolumeResponse where
  | error (errno : ℕ)
  | dirEntries (entries : List DirEntry)
  deriving DecidableEq

namespace Host

def after (h : Host) (cookie : ℕ) : List HostEntry :=
  if cookie = 0 then h.entries else (h.entries.dropWhile (·.offset ≠ cookie)).tail

def chunk (h : Host) (cookie : ℕ) : List HostEntry := (h.after cookie).take (h.split cookie)

def collect (h : Host) : ℕ → ℕ → List DirEntry → Except ℕ (List DirEntry)
  | 0, _, entries => .ok entries
  | fuel + 1, nextOffset, entries =>
    match h.readError nextOffset with
    | some errno => .error errno
    | none =>
      let chunk := h.chunk nextOffset
      let lastOffset := (chunk.getLast?.map HostEntry.offset).getD nextOffset
      let collected := entries ++ (chunk.filter (!·.isDots)).map HostEntry.toDirEntry
      if collected.length = entries.length then .ok collected
      else if lastOffset ≤ nextOffset then .ok collected
      else h.collect fuel lastOffset collected

def fullEntries (h : Host) (ino : ℕ) (entries : List DirEntry) : List DirEntry :=
  let parentIno := if ino = 1 then 1 else h.parent.getD ino
  .dot ino :: .dotdot parentIno :: entries

def readdir (h : Host) (ino offset : ℕ) : VolumeResponse :=
  match h.openError with
  | some errno => .error errno
  | none =>
    -- every turn but the last takes an entry
    match h.collect (h.entries.length + 1) 0 [] with
    | .error errno => .error errno
    | .ok entries =>
      let full := h.fullEntries ino entries
      .dirEntries (if full.length ≤ offset then [] else full.drop offset)

end Host

/-- `FuseClient::readdir`: the entries that have room in the reply, each with the offset to go on from. -/
def clientReaddir (response : VolumeResponse) (offset room : ℕ) : Option (List (DirEntry × ℕ)) :=
  match response with
  | .error _ => none
  | .dirEntries entries => some ((entries.zipIdx.map fun (entry, i) => (entry, offset + i + 1)).take room)

/-- A request of the guest: the directory it meets and the entries its buffer holds. -/
structure Request where
  host : Host
  room : ℕ

def Request.reply (ino : ℕ) (r : Request) (offset : ℕ) : Option (List (DirEntry × ℕ)) :=
  clientReaddir (r.host.readdir ino offset) offset r.room

def nextOffset (reply : List (DirEntry × ℕ)) (offset : ℕ) : ℕ := (reply.getLast?.map Prod.snd).getD offset

/-- A guest that reads on from the offset of the last entry until a reply is empty; it has `got` these so far. -/
def guest (ino : ℕ) : List Request → ℕ → List DirEntry → Option (List DirEntry)
  | [], _, _ => none
  | r :: requests, offset, got =>
    match r.reply ino offset with
    | none => none
    | some reply =>
      if reply.isEmpty then some got
      else guest ino requests (nextOffset reply offset) (got ++ reply.map Prod.fst)

end Fcvm.Readdir
