import Fcvm.Uffd.Drain

namespace Fcvm.Uffd

open Library

variable (ctx : VmContext)

def place (runOffset runEnd : ℕ) (region : GuestRegionUffdMapping) : Option Segment :=
  let regionEnd := region.offset + region.size
  let start := max runOffset region.offset
  let stop := min runEnd regionEnd
  let relStart := (start - region.offset) / ctx.pageSize * ctx.pageSize
  let nextMultiple := (stop - region.offset) ⌈/⌉ ctx.pageSize * ctx.pageSize
  let relEnd := min nextMultiple region.size
  let len := relEnd - relStart
  if ADDRESSES ≤ regionEnd ∨ stop ≤ start ∨ ADDRESSES ≤ nextMultiple ∨ relEnd ≤ relStart then none
  else if ADDRESSES ≤ region.offset + relStart + len ∨ ctx.memSize < region.offset + relStart + len ∨
    ADDRESSES ≤ region.baseHostVirtAddr + relStart then none
  else some ⟨region.baseHostVirtAddr + relStart, region.offset + relStart, len⟩

/-- The previous segment extended over the next one, where the two overlap or abut in the clone and in the file. -/
def merge (previous segment : Segment) : Option Segment :=
  let gap := segment.hostAddr - previous.hostAddr
  if segment.hostAddr < previous.hostAddr ∨ ADDRESSES ≤ previous.fileOffset + gap ∨ previous.len < gap ∨
    segment.fileOffset ≠ previous.fileOffset + gap ∨ ADDRESSES ≤ gap + segment.len then none
  else some { previous with len := max previous.len (gap + segment.len) }

def mergeAll : Option Segment → List Segment → List Segment
  | pending, [] => pending.toList
  | none, segment :: segments => mergeAll (some segment) segments
  | some previous, segment :: segments =>
    match merge previous segment with
    | some merged => mergeAll (some merged) segments
    | none => previous :: mergeAll (some segment) segments

def placeRun (run : ℕ × ℕ) : List Segment :=
  let runEnd := min (saturatingAdd run.1 run.2) ctx.memSize
  if run.1 < runEnd then ctx.mappings.filterMap (place ctx run.1 runEnd) else []

def plan (runs : List (ℕ × ℕ)) : List Segment :=
  if 4096 ≤ ctx.pageSize ∧ ctx.pageSize ≤ CHUNK_BYTES ∧ ctx.pageSize &&& (ctx.pageSize - 1) = 0 then
    mergeAll none (runs.flatMap (placeRun ctx))
  else []

/-- A cursor over the plain runs of a stretch of the snapshot: what is given back is left out. -/
structure PlainRuns where
  «at» : ℕ
  host : ℕ
  left : ℕ
  stretch : ℕ
  stretchAt : ℕ

namespace PlainRuns

def new (hostAddr fileOffset len : ℕ) : PlainRuns := ⟨fileOffset, hostAddr, len, 0, 0⟩

def pieceCap (pageSize : ℕ) : ℕ := max COPY_BYTES pageSize

def advance (r : PlainRuns) (run : ℕ) : PlainRuns :=
  ⟨saturatingAdd r.at run, saturatingAdd r.host run, r.left - run, 0, 0⟩

def seek (removed : RemovedPages) (pageSize : ℕ) : ℕ → PlainRuns → PlainRuns
  | 0, r => r
  | fuel + 1, r =>
    if r.left = 0 then r
    else
      let (givenBack, run) := removed.runAt r.at r.left pageSize
      let run := max (min pageSize r.left) (min run r.left)
      if givenBack then seek removed pageSize fuel (r.advance run) else { r with stretch := run }

def next (removed : RemovedPages) (pageSize : ℕ) (r : PlainRuns) : Option (ReplayRun × PlainRuns) :=
  let r := if r.stretchAt < r.stretch then r else seek removed pageSize r.left (r.advance r.stretch)
  if r.stretchAt < r.stretch then
    let piece := min (r.stretch - r.stretchAt) (pieceCap pageSize)
    some (⟨saturatingAdd r.host r.stretchAt, saturatingAdd r.at r.stretchAt, piece⟩,
      { r with stretchAt := r.stretchAt + piece })
  else none

def collect (removed : RemovedPages) (pageSize : ℕ) : ℕ → PlainRuns → List ReplayRun
  | 0, _ => []
  | fuel + 1, r =>
    match next removed pageSize r with
    | none => []
    | some (run, r) => run :: collect removed pageSize fuel r

end PlainRuns

def splitJobAgainstRemoved (s : Handler) (job : ReplayJob) : ReplayJob where
  runs := job.runs.flatMap fun run =>
    PlainRuns.collect s.removed ctx.pageSize run.len (.new run.hostAddr run.fileOffset run.len)
  generation := s.generation

namespace ReplayWorkers

def tally (pool : ReplayWorkers) : ReplayOutcome → ReplayWorkers
  | .done | .refused => pool
  | .stale rest => if rest.runs = [] then pool else { pool with stale := pool.stale ++ [rest] }
  | .vmGone => { pool with vmGone := true }

end ReplayWorkers

def modifyPool (f : ReplayWorkers → ReplayWorkers) : Run Unit := modify fun s => { s with pool := s.pool.map f }

def poolGone : Run Bool := do
  let s ← perform .get
  pure (s.pool.any (·.vmGone))

def collectOutcomes : ℕ → Run Unit
  | 0 => do perform .halt
  | fuel + 1 => do
    match ← perform (.takeResult false) with
    | some outcome => do
      modifyPool (·.tally outcome)
      collectOutcomes fuel
    | none => pure ()

def returnWaited : Run Bool := do
  match ← perform (.takeReturn true) with
  | some reply => handleWorkerReturns ctx [reply]
  | none => pure true

variable (fuel : ℕ)

/-- What ends the wait for room in the queue: an event, room, a return of a fault worker, an outcome of a replay worker,
or the time for a retry of the parked faults. -/
def roomSelect : Run DrainOutcome := do
  match ← perform .choose with
  | 0 => drainEvents ctx fuel
  | 1 => do
    if ← returnWaited ctx then pure .queueDrained else pure .vmExited
  | 2 => do
    match ← perform (.takeResult true) with
    | some outcome => do
      modifyPool (·.tally outcome)
      if ← poolGone then pure .vmExited else pure .queueDrained
    | none => pure .queueDrained
  | 3 => Prog.fail
  | _ => pure .queueDrained

def waitForRoom : Run DrainOutcome := do
  collectOutcomes fuel
  if ← poolGone then pure .vmExited
  else do
    let outcome ← roomSelect ctx fuel
    if outcome = .vmExited then pure .vmExited
    else do
      if ← retryParkedFaults ctx then pure outcome else pure .vmExited

/-- Submits a job, waiting for room. A job held while a REMOVE is read is planned again. `false` when the workers are
gone. -/
def flushJob (ctx : VmContext) (waits : ℕ) : ℕ → ReplayJob → Run Bool
  | 0, _ => do perform .halt; pure true
  | fuel + 1, job => do
    let s ← perform .get
    let moved := job.generation ≠ s.generation
    let job := if moved then splitJobAgainstRemoved ctx s job else job
    if moved ∧ job.runs = [] then pure true
    else do
      match ← perform (.trySubmit job) with
      | .ok => pure true
      | .full => do
        let outcome ← waitForRoom ctx waits
        if outcome = .vmExited then do
          modifyPool fun pool => { pool with vmGone := true }
          pure true
        else flushJob ctx waits fuel job
      | .disconnected => pure false

def flush : Run Bool := do
  let s ← perform .get
  match s.pool with
  | none => pure false
  | some pool =>
    if pool.pending = [] then pure true
    else do
      modifyPool fun pool => { pool with pending := [], pendingBytes := 0 }
      flushJob ctx fuel fuel ⟨pool.pending, pool.pendingGeneration⟩

def dispatchPlain (ctx : VmContext) (waits planned : ℕ) : ℕ → PlainRuns → Run Bool
  | 0, _ => do perform .halt; pure true
  | fuel + 1, plain => do
    let s ← perform .get
    match plain.next s.removed ctx.pageSize with
    | none => pure true
    | some (run, plain) => do
      modifyPool fun pool =>
        { pool with pendingBytes := pool.pendingBytes + run.len, pending := pool.pending ++ [run] }
      let s ← perform .get
      if s.pool.any fun pool => RUNS_PER_JOB ≤ pool.pending.length || CHUNK_BYTES ≤ pool.pendingBytes then do
        if ← flush ctx waits then do
          if ← poolGone then pure true
          else do
            modifyPool fun pool => { pool with pendingGeneration := planned }
            dispatchPlain ctx waits planned fuel plain
        else pure false
      else dispatchPlain ctx waits planned fuel plain

def dispatchRun (run : ReplayRun) : Run Bool := do
  let s ← perform .get
  modifyPool fun pool => if pool.pending = [] then { pool with pendingGeneration := s.generation } else pool
  dispatchPlain ctx fuel s.generation fuel (.new run.hostAddr run.fileOffset run.len)

def dispatchRuns (ctx : VmContext) (fuel : ℕ) : List ReplayRun → Run Bool
  | [] => pure true
  | run :: runs => do
    if ← dispatchRun ctx fuel run then dispatchRuns ctx fuel runs else pure false

def replanStale : Run Unit := do
  let s ← perform .get
  match s.pool with
  | none => pure ()
  | some pool => do
    modifyPool fun pool => { pool with stale := [] }
    let _ ← dispatchRuns ctx fuel (pool.stale.flatMap ReplayJob.runs)
    pure ()

def dropPool : Run Unit := do
  perform .stopReplay
  perform .closeReplay
  perform .joinReplay
  modify fun s => { s with pool := none }

inductive Stop where
  | vmGone
  | refused

inductive Copied where
  | snapshot
  | alone
  | zeros
  | zeroPage
  | minor
  deriving DecidableEq

namespace Copied

def size : Copied → Option ℕ
  | snapshot | alone => some ctx.memSize
  | zeros => some CHUNK_BYTES
  | zeroPage | minor => none

end Copied

def copyChunk (chunk : Segment) : Copied → Run Answer
  | .snapshot => perform (.populate chunk.hostAddr chunk.len (.snapshot chunk.fileOffset))
  | .alone => perform (.copyAlone chunk.hostAddr chunk.len chunk.fileOffset)
  | .zeros => perform (.populate chunk.hostAddr chunk.len .zeros)
  | .zeroPage => perform (.populate chunk.hostAddr chunk.len .zeroPage)
  | .minor => perform (.populate chunk.hostAddr chunk.len .continuePage)

def populateChunk (source : Copied) (segment : Segment) (done : ℕ) : Run (Except Stop ℕ) :=
  match chunkAt (source.size ctx) segment done with
  | none => pure (.error .refused)
  | some chunk => do
    match ← copyChunk chunk source with
    | .populated bytes => pure (.ok bytes)
    | .present => pure (.ok (min ctx.pageSize chunk.len))
    | .gone => pure (.error .vmGone)
    | _ => pure (.error .refused)

def drainIfReadable : Run DrainOutcome := do
  if ← finishWorkerReturns ctx then do
    match ← perform .poll with
    | none => Prog.fail
    | some true => drainEvents ctx fuel
    | some false => pure .queueDrained
  else pure .vmExited

inductive ChunkStep where
  | advance (bytes : ℕ)
  | giveUp
  | exited

namespace ChunkStep

def ofPopulate : Except Stop ℕ → ChunkStep
  | .ok bytes => .advance bytes
  | .error .vmGone => .exited
  | .error .refused => .giveUp

end ChunkStep

/-- A run of holes in the memory file is filled with zeros; it is stepped over without a granule of zeros to copy
from. -/
def replayHole (segment : Segment) (done run : ℕ) : Run ChunkStep := do
  let s ← perform .get
  if ADDRESSES ≤ segment.hostAddr + done then pure .giveUp
  else
    match ctx.zeroFill false s.zeroPageRefused with
    | .sharedZeroPage => do
      let filled ← populateChunk ctx .zeroPage ⟨segment.hostAddr + done, 0, run⟩ 0
      pure (.ofPopulate filled)
    | .privateCopy => do
      if (← perform .choose) = 0 then pure (.advance run)
      else do
        let filled ← populateChunk ctx .zeros ⟨segment.hostAddr + done, 0, run⟩ 0
        pure (.ofPopulate filled)

def replayPlain (segment : Segment) (done run : ℕ) : Run ChunkStep := do
  let s ← perform .get
  let wanted := { segment with len := done + run }
  match s.pool with
  | none => do
    let copied ← populateChunk ctx (if ctx.minor then .minor else .snapshot) wanted done
    pure (.ofPopulate copied)
  | some _ => do
    collectOutcomes fuel
    replanStale ctx fuel
    let handed := min run CHUNK_BYTES
    if ← dispatchRun ctx fuel
        ⟨saturatingAdd segment.hostAddr done, saturatingAdd segment.fileOffset done, handed⟩ then do
      if ← poolGone then pure .exited else pure (.advance handed)
    else do
      dropPool
      let copied ← populateChunk ctx .alone wanted done
      pure (.ofPopulate copied)

def memfdRun (run answer : ℕ) : Bool × ℕ :=
  if ctx.minor then (answer % 2 = 1, min run ((answer / 2 + 1) * ctx.pageSize)) else (false, run)

def replayChunk (segment : Segment) (done : ℕ) : Run ChunkStep :=
  if ADDRESSES ≤ segment.fileOffset + done then pure .giveUp
  else do
    modify fun s => { s with planned := s.generation }
    let (zero, run) ← skipRunAt ctx (segment.fileOffset + done) (segment.len - done)
    let answer ← perform .choose
    match zero with
    | some .givenBack => pure (.advance run)
    | some .hole => replayHole ctx segment done run
    | none =>
      let (hole, run) := memfdRun ctx run answer
      if hole then pure (.advance run) else replayPlain ctx fuel segment done run

def replayChunks (ctx : VmContext) (waits : ℕ) (segment : Segment) : ℕ → ℕ → Run Bool
  | 0, _ => do perform .halt; pure true
  | fuel + 1, done =>
    if segment.len ≤ done then pure true
    else do
      let outcome ← drainIfReadable ctx waits
      if outcome = .vmExited then pure false
      else do
        if ← retryParkedFaults ctx then do
          let s ← perform .get
          if outcome = .batchFull ∨ ¬s.parkedFaults.keys.isEmpty then replayChunks ctx waits segment fuel done
          else do
            match ← replayChunk ctx waits segment done with
            | .advance bytes => replayChunks ctx waits segment fuel (done + bytes)
            | .giveUp => pure true
            | .exited => pure false
        else pure false

def replaySegments (ctx : VmContext) (fuel : ℕ) : List Segment → ℕ → Run Bool
  | [], _ => pure true
  | segment :: segments, passed => do
    let s ← perform .get
    let room := s.replayLimit.map fun limit => (limit - passed) / ctx.pageSize * ctx.pageSize
    let len := min segment.len (room.getD segment.len)
    if room = some 0 ∧ 0 < segment.len then pure true
    else do
      if ← replayChunks ctx fuel { segment with len := len } fuel 0 then
        replaySegments ctx fuel segments (passed + len)
      else pure false

def finishLoop (ctx : VmContext) (waits : ℕ) : ℕ → Run Unit
  | 0 => do perform .halt
  | fuel + 1 => do
    let ended ← finishSelect ctx waits
    if ended then pure ()
    else do
      if ← poolGone then finishLoop ctx waits fuel
      else do
        if ← retryParkedFaults ctx then finishLoop ctx waits fuel
        else do
          modifyPool fun pool => { pool with vmGone := true }
          finishLoop ctx waits fuel
where
  finishSelect (ctx : VmContext) (waits : ℕ) : Run Bool := do
    match ← perform .choose with
    | 0 => do
      let outcome ← drainEvents ctx waits
      if outcome = .vmExited then do
        modifyPool fun pool => { pool with vmGone := true }
        pure false
      else pure false
    | 1 => do
      match ← perform (.takeResult true) with
      | some outcome => do
        modifyPool (·.tally outcome)
        pure false
      | none => pure true
    | 2 => do
      if ← returnWaited ctx then pure false
      else do
        modifyPool fun pool => { pool with vmGone := true }
        pure false
    | 3 => Prog.fail
    | _ => pure false

def flushLast : Run Unit := do
  if ← poolGone then pure ()
  else do
    let _ ← flush ctx fuel
    pure ()

def finish : Run Bool := do
  flushLast ctx fuel
  perform .closeReplay
  finishLoop ctx fuel fuel
  perform .joinReplay
  let gone ← poolGone
  modify fun s => { s with pool := none }
  pure gone

def finishPool : Run Bool := do
  let s ← perform .get
  if s.pool.isSome then finish ctx fuel else pure false

def replayWorkingSet (plan : List Segment) : Run Bool := do
  modify fun s => { s with replaying := true }
  let ran ← (replaySegments ctx fuel plan 0).orElse do
    dropPool
    Prog.fail
  let gone ← finishPool ctx fuel
  modify fun s => { s with replaying := false }
  pure (ran && !gone)

def serveFaults (ctx : VmContext) (waits : ℕ) : ℕ → Run Unit
  | 0 => do perform .halt
  | fuel + 1 => do
    if ← serveSelect ctx waits then do
      if ← retryParkedFaults ctx then serveFaults ctx waits fuel else pure ()
    else pure ()
where
  serveSelect (ctx : VmContext) (waits : ℕ) : Run Bool := do
    match ← perform .choose with
    | 0 => do
      modify fun s => { s with gone := true }
      pure false
    | 1 => do
      let outcome ← drainEvents ctx waits
      pure (outcome != .vmExited)
    | 2 => do
      if ← returnWaited ctx then finishWorkerReturns ctx else pure false
    | 3 => Prog.fail
    | _ => pure true

def replayThenServe (recorded : List (ℕ × ℕ)) : Run Unit :=
  if recorded = [] then serveFaults ctx fuel fuel
  else do
    if ← replayWorkingSet ctx fuel (plan ctx recorded) then serveFaults ctx fuel fuel else pure ()

end Fcvm.Uffd
