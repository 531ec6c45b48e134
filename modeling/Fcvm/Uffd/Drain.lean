import Fcvm.Uffd.Operations

namespace Fcvm.Uffd

open Library

abbrev Run (α : Type) : Type := Prog Op Op.Result α

abbrev perform (o : Op) : Run o.Result := Prog.perform o

abbrev modify (f : Handler → Handler) : Run Unit := perform (.modify f)

namespace VmContext

def zeroFill (ctx : VmContext) (write zeroPageRefused : Bool) : ZeroFill :=
  if write || ctx.nv2 || ctx.hostPageSize < ctx.pageSize || zeroPageRefused then .privateCopy else .sharedZeroPage

end VmContext

variable (ctx : VmContext)

def zeroAnswer (fileOffset : ℕ) : Run (Option ZeroReason) :=
  if ctx.minor then pure none
  else do
    let s ← perform .get
    let holes ← perform .published
    pure <|
      if s.removed.contains fileOffset ctx.pageSize then some .givenBack
      else if holes.any fun map => map.covers fileOffset ctx.pageSize then some .hole
      else none

def skipRunAt (fileOffset maxLen : ℕ) : Run (Option ZeroReason × ℕ) := do
  let s ← perform .get
  let holes ← perform .published
  let (givenBack, run) := s.removed.runAt fileOffset maxLen ctx.pageSize
  pure <|
    if givenBack then (some .givenBack, run)
    else
      match holes with
      | none => (none, run)
      | some map =>
        if ctx.minor then (none, run)
        else
          let (hole, run) := map.runAt fileOffset run ctx.pageSize
          (if hole then some .hole else none, run)

def FaultOutcome.ofAnswer : Answer → Option FaultOutcome
  | .populated _ => some .resolved
  | .present => some .alreadyPresent
  | .again => some .retry
  | .gone => some .vmGone
  | .invalid | .failed => none

def fillPage (page : ℕ) (source : Source) : Run FaultOutcome := do
  let answer ← perform (.populate page ctx.pageSize source)
  match FaultOutcome.ofAnswer answer with
  | some outcome => pure outcome
  | none => Prog.fail

/-- `UFFDIO_CONTINUE` maps whole pages of the clone, so its loop over the page makes one call. A page that is mapped
already is resolved. -/
def continuePage (page : ℕ) : Run FaultOutcome := do
  match ← fillPage ctx page .continuePage with
  | .alreadyPresent => pure .resolved
  | outcome => pure outcome

def copyZeros (page : ℕ) : Run FaultOutcome := fillPage ctx page .zeros

def resolveFault (page offsetInFile : ℕ) (zero : Option ZeroFill) : Run FaultOutcome :=
  if ctx.minor then continuePage ctx page
  else
    match zero with
    | none =>
      if ctx.memSize < offsetInFile + ctx.pageSize then Prog.fail else fillPage ctx page (.snapshot offsetInFile)
    | some .privateCopy => copyZeros ctx page
    | some .sharedZeroPage => do
      let answer ← perform (.populate page ctx.pageSize .zeroPage)
      match answer with
      | .invalid => do
        modify fun s => { s with zeroPageRefused := true }
        copyZeros ctx page
      | answer =>
        match FaultOutcome.ofAnswer answer with
        | some outcome => pure outcome
        | none => Prog.fail

namespace VmState

/-- A fault whose fill the kernel refused waits for a retry. A second fault that is a write makes it a write. -/
def park (s : VmState) (page fileOffset : ℕ) (write : Bool) : VmState :=
  { s with
    parkedFaults := s.parkedFaults.insert page
      (match s.parkedFaults.lookup page with
      | some parked => { parked with write := parked.write || write }
      | none => ⟨fileOffset, write⟩) }

end VmState

namespace Handler

def park (s : Handler) (page fileOffset : ℕ) (write : Bool) : Handler :=
  { s with toVmState := s.toVmState.park page fileOffset write }

end Handler

/-- The populate calls of fault-around in one piece of the granule. Nothing is returned at its end, otherwise whether
the clone is alive where fault-around stops. -/
def populatePiece (ctx : VmContext) (segment : Segment) : ℕ → ℕ → Run (Option Bool)
  | 0, _ => do perform .halt; pure none
  | fuel + 1, done =>
    if segment.len ≤ done then pure none
    else if ADDRESSES ≤ segment.fileOffset + done then pure (some true)
    else do
      let (zero, run) ← skipRunAt ctx (segment.fileOffset + done) (segment.len - done)
      if zero.isSome then populatePiece ctx segment fuel (done + run)
      else do
        let answer ← perform .choose
        let (cached, run) := residencyRun ctx (segment.fileOffset + done) run answer
        if !cached then populatePiece ctx segment fuel (done + run)
        else
          match chunkAt (some ctx.memSize) { segment with len := done + run } done with
          | none => pure (some true)
          | some chunk => do
            match ← perform (.populate chunk.hostAddr chunk.len (.snapshot chunk.fileOffset)) with
            | .populated bytes => populatePiece ctx segment fuel (done + bytes)
            | .present => populatePiece ctx segment fuel (done + min ctx.pageSize chunk.len)
            | .gone => pure (some false)
            | _ => pure (some true)
where
  /-- What `mincore` says of the memory file: whether it is in the page cache, and for how many bytes. -/
  residencyRun (ctx : VmContext) (offset maxLen answer : ℕ) : Bool × ℕ :=
    if maxLen = 0 ∨ ¬ctx.hostPageSize ∣ offset ∨ ctx.memSize < offset + maxLen then (false, maxLen)
    else (answer % 2 = 1, min maxLen ((answer / 2 + 1) * ctx.hostPageSize))

def granuleSegments (mapping : GuestRegionUffdMapping) (granule pageSize faultPage offsetInFile : ℕ) : List Segment :=
  let regionEnd := mapping.offset + mapping.size
  let granuleStart := offsetInFile / granule * granule
  let start := max granuleStart mapping.offset
  let stop := min (granuleStart + granule) regionEnd
  let pageEnd := offsetInFile + pageSize
  if ADDRESSES ≤ regionEnd ∨ granule = 0 ∨ ADDRESSES ≤ granuleStart + granule ∨ ADDRESSES ≤ pageEnd then []
  else
    let after : Option (List Segment) :=
      if pageEnd < stop then
        if ADDRESSES ≤ faultPage + pageSize then none else some [⟨faultPage + pageSize, pageEnd, stop - pageEnd⟩]
      else some []
    let before : Option (List Segment) :=
      if start < offsetInFile then
        if faultPage < offsetInFile - start then none
        else some [⟨faultPage - (offsetInFile - start), start, offsetInFile - start⟩]
      else some []
    match after, before with
    | some after, some before => after ++ before
    | _, _ => []

def populatePieces (ctx : VmContext) (fuel : ℕ) : List Segment → Run Bool
  | [] => pure true
  | segment :: segments => do
    match ← populatePiece ctx segment fuel 0 with
    | none => populatePieces ctx fuel segments
    | some alive => pure alive

def populateAroundFault (fuel : ℕ) (mapping : GuestRegionUffdMapping) (faultPage offsetInFile : ℕ) : Run Bool :=
  if ctx.minor || ctx.faultAround ≤ ctx.pageSize then pure true
  else populatePieces ctx fuel (granuleSegments mapping ctx.faultAround ctx.pageSize faultPage offsetInFile)

def submitToWorker (page offset : ℕ) (write : Bool) (zero : Option ZeroReason) :
    Run Bool := do
  let s ← perform .get
  let answer : Option WorkerAnswer :=
    match zero with
    | none => some .snapshot
    | some .hole => some (.hole (ctx.zeroFill write s.zeroPageRefused))
    | some .givenBack => none
  match answer with
  | some answer => if s.faultWorkers then perform (.submit ⟨page, offset, write, answer, s.generation⟩) else pure false
  | none => pure false

def resolveHere (fuel : ℕ) (mapping : GuestRegionUffdMapping) (page offset : ℕ) (write : Bool)
    (zero : Option ZeroReason) : Run Bool := do
  let s ← perform .get
  match ← resolveFault ctx page offset (zero.map fun _ => ctx.zeroFill write s.zeroPageRefused) with
  | .resolved => do
    modify fun s => { s with current := none }
    -- fault-around stands down while a fault is parked, on a given-back page and during the replay
    if s.parkedFaults.keys.isEmpty && zero != some .givenBack && !s.replaying then
      populateAroundFault ctx fuel mapping page offset
    else pure true
  | .alreadyPresent => do
    modify fun s => { s with current := none }
    pure true
  | .vmGone => pure false
  | .retry => do
    modify fun s => { s.park page offset write with current := none }
    pure true

def serveFault (fuel addr : ℕ) (minorFault write : Bool) : Run Bool :=
  let page := ctx.faultPage addr
  match ctx.mappings.find? (·.contains page) with
  | none => Prog.fail
  | some mapping =>
    if page < mapping.baseHostVirtAddr then Prog.fail
    else
      let offset := mapping.offset + (page - mapping.baseHostVirtAddr)
      if ADDRESSES ≤ offset then Prog.fail
      else do
        let zero ← zeroAnswer ctx offset
        if ctx.minor && !minorFault then Prog.fail
        else do
          if ← submitToWorker ctx page offset write zero then pure true
          else resolveHere ctx fuel mapping page offset write zero

def recordRemove (start stop : ℕ) : Run Unit :=
  if stop < start ∨ stop - start = 0 ∨ ctx.minor then pure ()
  else do
    perform (.remember start stop)
    perform .bump

def recordRemoves (ctx : VmContext) : List Event → Run Unit
  | [] => pure ()
  | .remove start stop :: events => do
    recordRemove ctx start stop
    recordRemoves ctx events
  | _ :: events => recordRemoves ctx events

/-- Reads events under the gate, and records every REMOVE among them before it lets the gate go. `true` when there was
one to read. -/
def readUnderGate (room : ℕ) : Run Bool := do
  perform .startReading
  perform .awaitCopiers
  match ← perform (.readEvents room) with
  | none => do
    perform .stopReading
    Prog.fail
  | some events => do
    recordRemoves ctx events
    perform .stopReading
    pure !events.isEmpty

def handleEvent (fuel : ℕ) : Event → Run Bool
  | .pagefault addr minorFault write => do
    modify fun s => { s with batch := s.batch.tail, current := some ⟨ctx.faultPage addr, write⟩ }
    serveFault ctx fuel addr minorFault write
  | _ => do
    modify fun s => { s with batch := s.batch.tail }
    pure true

def drainLoop (ctx : VmContext) (fuel : ℕ) : ℕ → Run DrainOutcome
  | 0 => pure .batchFull
  | remaining + 1 => do
    let s ← perform .get
    match s.batch with
    | event :: _ => do
      if ← handleEvent ctx fuel event then drainLoop ctx fuel remaining else pure .vmExited
    | [] => do
      if ← readUnderGate ctx (min (remaining + 1) (max s.readBatch 1)) then do
        let s ← perform .get
        match s.batch with
        | event :: _ => do
          if ← handleEvent ctx fuel event then drainLoop ctx fuel remaining else pure .vmExited
        | [] => pure .queueDrained
      else pure .queueDrained

def handleReturn : WorkerReturn → Run Bool
  | .traced => pure true
  | .zeroPageRefused => do
    modify fun s => { s with zeroPageRefused := true }
    pure true
  | .vmGone => do
    modify fun s => { s with gone := true }
    pure false
  | .failed => Prog.fail
  | .retry job => do
    modify fun s => s.park job.page job.offset job.write
    pure true
  | .stale job => do
    let zero ← zeroAnswer ctx job.offset
    let s ← perform .get
    match ← resolveFault ctx job.page job.offset (zero.map fun _ => ctx.zeroFill job.write s.zeroPageRefused) with
    | .resolved | .alreadyPresent => pure true
    | .vmGone => pure false
    | .retry => do
      modify fun s => s.park job.page job.offset job.write
      pure true

def handleWorkerReturns (ctx : VmContext) : List WorkerReturn → Run Bool
  | [] => pure true
  | reply :: back => do
    if ← handleReturn ctx reply then do
      modify fun s => { s with returns := s.returns.tail }
      handleWorkerReturns ctx back
    else do
      modify fun s => { s with returns := [] }
      pure false

def takeReturns : ℕ → Run Unit
  | 0 => pure ()
  | room + 1 => do
    match ← perform (.takeReturn false) with
    | some _ => takeReturns room
    | none => pure ()

def finishWorkerReturns : Run Bool := do
  let s ← perform .get
  if s.faultWorkers then do
    takeReturns MAX_EVENTS_PER_BATCH
    let s ← perform .get
    handleWorkerReturns ctx s.returns
  else pure true

def endDrain (outcome : DrainOutcome) : Run DrainOutcome := do
  match outcome with
  | .vmExited => modify fun s => { s with batch := [], current := none, outcome := some .vmExited }
  | outcome => modify fun s => { s with outcome := some outcome }
  pure outcome

def drainEvents (fuel : ℕ) : Run DrainOutcome := do
  modify fun s => { s with outcome := none }
  if ← finishWorkerReturns ctx then do
    let outcome ← drainLoop ctx fuel MAX_EVENTS_PER_BATCH
    endDrain outcome
  else endDrain .vmExited

/-- One retry of each of the parked faults `pages`; gives the ones that are resolved, nothing when the clone is gone. A
fault that has been refused for too long fails the handler. -/
def retryEach (ctx : VmContext) : List ℕ → List ℕ → Run (Option (List ℕ))
  | [], resolved => pure (some resolved)
  | page :: pages, resolved => do
    let s ← perform .get
    match s.parkedFaults.lookup page with
    | none => retryEach ctx pages resolved
    | some parked => do
      let zero ← zeroAnswer ctx parked.fileOffset
      match ← resolveFault ctx page parked.fileOffset
          (zero.map fun _ => ctx.zeroFill parked.write s.zeroPageRefused) with
      | .resolved | .alreadyPresent => retryEach ctx pages (page :: resolved)
      | .vmGone => pure none
      | .retry => do
        let stalled ← perform .choose
        if stalled = 0 then retryEach ctx pages resolved else Prog.fail

def retryParkedFaults : Run Bool := do
  let s ← perform .get
  match ← retryEach ctx (s.parkedFaults.keys.mergeSort (· ≤ ·)) [] with
  | some resolved => do
    modify fun s => { s with parkedFaults := resolved.foldl (fun parked page => parked.erase page) s.parkedFaults }
    pure true
  | none => pure false

end Fcvm.Uffd
