import Mathlib.Data.List.AList
import Fcvm.Library.Thread
import Fcvm.Uffd.Removed

namespace Fcvm.Uffd

open Library

def MAX_EVENTS_PER_BATCH : ℕ := 128

def COPY_BYTES : ℕ := 64 * 1024

def RUNS_PER_JOB : ℕ := 64

structure GuestRegionUffdMapping where
  baseHostVirtAddr : ℕ
  offset : ℕ
  size : ℕ

namespace GuestRegionUffdMapping

def contains (m : GuestRegionUffdMapping) (addr : ℕ) : Bool :=
  m.baseHostVirtAddr ≤ addr && (ADDRESSES ≤ m.baseHostVirtAddr + m.size || addr < m.baseHostVirtAddr + m.size)

end GuestRegionUffdMapping

def GRANULE_BYTES : ℕ := 4096

/-- The granules of a memory image that are holes, one bit each. -/
structure HoleMap where
  granules : ℕ
  bits : List (BitVec 64)
  marked : ℕ

namespace HoleMap

def marks (map : HoleMap) : RemovedPages := ⟨map.bits, map.marked⟩

def covers (map : HoleMap) (offset len : ℕ) : Bool :=
  if map.marked = 0 ∨ len = 0 ∨ ADDRESSES ≤ offset + len then false
  else
    let first := offset / GRANULE_BYTES
    let pastLast := (offset + len) ⌈/⌉ GRANULE_BYTES
    pastLast ≤ map.granules && (List.range' first (pastLast - first)).all map.marks.has

def pageRun (map : HoleMap) (inside : Bool) (offset pageSize : ℕ) : ℕ → ℕ → ℕ
  | run, 0 => run
  | run, limit + 1 =>
    let page := offset + run * pageSize
    if page < ADDRESSES ∧ map.covers page pageSize = inside then map.pageRun inside offset pageSize (run + 1) limit
    else run

def granuleRun (map : HoleMap) (first max : ℕ) : Bool × ℕ :=
  let inside := map.marks.has first
  (inside, map.marks.sameFrom inside first max)

def runAt (map : HoleMap) (offset maxLen pageSize : ℕ) : Bool × ℕ :=
  if map.marked = 0 then (false, maxLen)
  else
    let maxLen := min maxLen CHUNK_BYTES
    let pages := maxLen ⌈/⌉ pageSize
    let (inside, run) :=
      if pageSize = GRANULE_BYTES then map.granuleRun (offset / GRANULE_BYTES) pages
      else
        let inside := map.covers offset pageSize
        (inside, map.pageRun inside offset pageSize 1 (pages - 1))
    (inside, min (run * pageSize) maxLen)

theorem runAt_spec (map : HoleMap) (offset maxLen pageSize : ℕ) : (map.runAt offset maxLen pageSize).2 ≤ maxLen ∧
    (pageSize ∣ maxLen → pageSize ∣ CHUNK_BYTES → pageSize ∣ (map.runAt offset maxLen pageSize).2) := by
  unfold runAt
  split
  · exact ⟨le_rfl, fun hdvd _ => hdvd⟩
  · exact ⟨(min_le_right _ _).trans (min_le_left _ _), RemovedPages.dvd_runLen _⟩

end HoleMap

structure VmContext where
  mappings : List GuestRegionUffdMapping
  pageSize : ℕ
  memSize : ℕ
  /-- The clone maps the backing memfd; otherwise its pages are copied from the snapshot. -/
  minor : Bool
  nv2 : Bool
  hostPageSize : ℕ
  faultAround : ℕ
  replayQueue : ℕ
  traced : Bool

structure VmContext.Accepted (ctx : VmContext) : Prop where
  pageSize : ∃ k, 12 ≤ k ∧ k ≤ 21 ∧ ctx.pageSize = 2 ^ k
  memSize : ctx.memSize < ADDRESSES
  host : ∀ m ∈ ctx.mappings, m.baseHostVirtAddr + m.size < ADDRESSES
  file : ∀ m ∈ ctx.mappings, m.offset + m.size ≤ ctx.memSize
  aligned : ∀ m ∈ ctx.mappings, ctx.pageSize ∣ m.baseHostVirtAddr ∧ ctx.pageSize ∣ m.offset ∧ ctx.pageSize ∣ m.size
  disjoint : ctx.mappings.Pairwise fun m m' =>
    m.baseHostVirtAddr + m.size ≤ m'.baseHostVirtAddr ∨ m'.baseHostVirtAddr + m'.size ≤ m.baseHostVirtAddr

inductive Event where
  | pagefault (addr : ℕ) (minor write : Bool)
  | remove (start stop : ℕ)
  | other

structure Fault where
  page : ℕ
  write : Bool
  deriving DecidableEq

structure ParkedFault where
  fileOffset : ℕ
  write : Bool
  deriving DecidableEq

inductive ZeroReason where
  | givenBack
  | hole
  deriving DecidableEq

inductive ZeroFill where
  | sharedZeroPage
  | privateCopy
  deriving DecidableEq

inductive WorkerAnswer where
  | snapshot
  | hole (fill : ZeroFill)
  deriving DecidableEq

structure FaultJob where
  page : ℕ
  offset : ℕ
  write : Bool
  answer : WorkerAnswer
  generation : ℕ
  deriving DecidableEq

inductive WorkerReturn where
  | stale (job : FaultJob)
  | retry (job : FaultJob)
  | zeroPageRefused
  | traced
  | vmGone
  | failed
  deriving DecidableEq

structure ReplayRun where
  hostAddr : ℕ
  fileOffset : ℕ
  len : ℕ
  deriving DecidableEq

abbrev Segment := ReplayRun

/-- The next piece of a segment a populate call takes, nothing where it is refused before the call. `size` is the
length of what is copied from. -/
def chunkAt (size : Option ℕ) (segment : Segment) (done : ℕ) : Option Segment :=
  let len := min CHUNK_BYTES (segment.len - done)
  if segment.len ≤ done ∨ ADDRESSES ≤ segment.hostAddr + done ∨ ADDRESSES ≤ segment.fileOffset + done then none
  else if size.any fun size => size < segment.fileOffset + done + len then none
  else some ⟨segment.hostAddr + done, segment.fileOffset + done, len⟩

def saturatingAdd (a b : ℕ) : ℕ := min (a + b) (ADDRESSES - 1)

structure ReplayJob where
  runs : List ReplayRun
  generation : ℕ
  deriving DecidableEq

inductive ReplayOutcome where
  | done
  | refused
  | stale (rest : ReplayJob)
  | vmGone
  deriving DecidableEq

structure ReplayWorkers where
  pending : List ReplayRun
  pendingBytes : ℕ
  pendingGeneration : ℕ
  stale : List ReplayJob
  vmGone : Bool

inductive DrainOutcome where
  | vmExited
  | queueDrained
  | batchFull
  deriving DecidableEq

inductive FaultOutcome where
  | resolved
  | alreadyPresent
  | retry
  | vmGone
  deriving DecidableEq

inductive Source where
  | snapshot (fileOffset : ℕ)
  | zeros
  | zeroPage
  | continuePage
  deriving DecidableEq

inductive Answer where
  | populated (bytes : ℕ)
  | present
  | again
  | gone
  | invalid
  | failed
  deriving DecidableEq

inductive Entry where
  | read (fault : Fault)
  | removed (start stop : ℕ)
  | installed (host len : ℕ) (source : Source)
  | present (host : ℕ)
  deriving DecidableEq

structure VmState where
  parkedFaults : AList fun _ : ℕ => ParkedFault
  removed : RemovedPages
  zeroPageRefused : Bool
  replaying : Bool
  faultWorkers : Bool
  readBatch : ℕ
  replayLimit : Option ℕ

/-- What only the handler writes: its state, the local variables of the functions it is in that hold faults, the
gate's `reading` and `generation`, and, for the statements, where it is. -/
structure Handler extends VmState where
  pool : Option ReplayWorkers
  generation : ℕ
  reading : Bool
  batch : List Event
  returns : List WorkerReturn
  current : Option Fault
  holding : Bool
  unbumped : Bool
  filled : List ℕ
  planned : ℕ
  gone : Bool
  outcome : Option DrainOutcome

end Fcvm.Uffd
