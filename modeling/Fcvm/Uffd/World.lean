import Fcvm.Uffd.Model

namespace Fcvm.Uffd

open Library

/-- What a worker is at: a fault, or a job of the replay from byte `done` of run `index` on. -/
inductive Work where
  | fault (job : FaultJob)
  | replay (job : ReplayJob) (index done : ℕ)
  deriving DecidableEq

inductive Out where
  | stop
  | back (reply : WorkerReturn)
  | result (outcome : ReplayOutcome)
  | quit
  deriving DecidableEq

inductive After where
  | emit (outs : List Out)
  | resume (work : Work)
  deriving DecidableEq

/-- Where a worker is. The steps of `ReplayGate::copying` are `entering` to `holding`. -/
inductive Phase where
  | idle
  | taken (work : Work)
  | ready (work : Work)
  | entering (work : Work)
  | entered (work : Work)
  | backing (work : Work)
  | spinning (work : Work)
  | holding (work : Work)
  | filling (work : Work)
  | refilling (job : FaultJob)
  | leaving (next : After)
  | emitting (outs : List Out)
  | exited
  deriving DecidableEq

structure Worker where
  replay : Bool
  phase : Phase
  deriving DecidableEq

structure World where
  handler : Handler
  queue : List Event
  copiers : ℕ
  jobs : List FaultJob
  back : List WorkerReturn
  stop : Bool
  replayJobs : List ReplayJob
  replayClosed : Bool
  replayStop : Bool
  results : List ReplayOutcome
  workers : List Worker
  holes : Option HoleMap
  log : List Entry

namespace World

def alive (w : World) (replay : Bool) : Bool := w.workers.any fun k => k.replay == replay && k.phase != .exited

/-- A populate call and the kernel's answer. Only whole pages of the clone can be populated. -/
def populate (ctx : VmContext) (w : World) (host len : ℕ) (source : Source) : Answer → Option World
  | .populated bytes =>
    if ctx.pageSize ∣ host ∧ ctx.pageSize ∣ len ∧ ctx.pageSize ∣ bytes ∧ 0 < bytes ∧ bytes ≤ len then
      some { w with log := .installed host bytes source :: w.log }
    else none
  | .present => some { w with log := .present host :: w.log }
  | _ => some w

def setPhase (w : World) (i : ℕ) (k : Worker) (phase : Phase) : World :=
  { w with workers := w.workers.set i { k with phase := phase } }

end World

/-- The choices of the scheduler, of the clock and of the kernel in one step. -/
structure Input where
  count : ℕ
  ok : Bool
  answer : Answer

namespace Work

def generation : Work → ℕ
  | .fault job => job.generation
  | .replay job _ _ => job.generation

end Work

namespace WorkerAnswer

def source (offset : ℕ) : WorkerAnswer → Source
  | .snapshot => .snapshot offset
  | .hole .privateCopy => .zeros
  | .hole .sharedZeroPage => .zeroPage

end WorkerAnswer

def staleFrom (job : ReplayJob) (index done : ℕ) : ReplayOutcome :=
  match job.runs[index]? with
  | none => .stale ⟨[], job.generation⟩
  | some current =>
    let left := if done < current.len then
      [⟨saturatingAdd current.hostAddr done, saturatingAdd current.fileOffset done, current.len - done⟩] else []
    .stale ⟨left ++ job.runs.drop (index + 1), job.generation⟩

def afterFill (ctx : VmContext) (job : FaultJob) (refused : Bool) : Answer → After
  | .populated _ | .present =>
    .emit ((if refused then [.back .zeroPageRefused] else []) ++ if ctx.traced then [.back .traced] else [])
  | .again => .emit [.back (.retry job)]
  | .gone => .emit [.stop, .back .vmGone]
  | .invalid | .failed => .emit [.back .failed]

def afterCopy (ctx : VmContext) (job : ReplayJob) (index done len : ℕ) (late : Bool) : Answer → After
  | .populated bytes => .resume (.replay job index (done + bytes))
  | .present => .resume (.replay job index (done + min ctx.pageSize len))
  | .gone => .emit [.result .vmGone, .quit]
  | .again | .invalid | .failed => if late then .emit [.result .refused] else .resume (.replay job index done)

def workerStep (ctx : VmContext) (w : World) (i : ℕ) (input : Input) : Option World := do
  let k ← w.workers[i]?
  match k.phase with
  | .idle =>
    if k.replay then
      match w.replayJobs with
      | job :: jobs => some ({ w with replayJobs := jobs }.setPhase i k (.taken (.replay job 0 0)))
      | [] => if w.replayClosed then some (w.setPhase i k .exited) else none
    else
      match w.jobs with
      | job :: jobs => some ({ w with jobs := jobs }.setPhase i k (.taken (.fault job)))
      | [] => none
  | .taken work =>
    if (if k.replay then w.replayStop else w.stop) then some (w.setPhase i k .exited)
    else some (w.setPhase i k (.ready work))
  | .ready work =>
    match work with
    | .fault _ => some (w.setPhase i k (.entering work))
    | .replay job index done =>
      match job.runs[index]? with
      | none => some (w.setPhase i k (.emitting [.result .done]))
      | some run =>
        if run.len ≤ done then some (w.setPhase i k (.ready (.replay job (index + 1) 0)))
        else if w.replayStop then some (w.setPhase i k (.emitting [.result .refused]))
        else some (w.setPhase i k (.entering work))
  | .entering work => some ({ w with copiers := w.copiers + 1 }.setPhase i k (.entered work))
  | .entered work =>
    if w.handler.reading then some (w.setPhase i k (.backing work)) else some (w.setPhase i k (.holding work))
  | .backing work => some ({ w with copiers := w.copiers - 1 }.setPhase i k (.spinning work))
  | .spinning work => if w.handler.reading then none else some (w.setPhase i k (.entering work))
  | .holding work =>
    if w.handler.generation = work.generation then some (w.setPhase i k (.filling work))
    else
      match work with
      | .fault job => some (w.setPhase i k (.leaving (.emit [.back (.stale job)])))
      | .replay job index done => some (w.setPhase i k (.leaving (.emit [.result (staleFrom job index done)])))
  | .filling work =>
    match work with
    | .fault job =>
      -- a shared zero page may be refused with EINVAL
      if job.answer = .hole .sharedZeroPage ∧ input.answer = .invalid then some (w.setPhase i k (.refilling job))
      else do
        let filled ← w.populate ctx job.page ctx.pageSize (job.answer.source job.offset) input.answer
        some (filled.setPhase i k (.leaving (afterFill ctx job false input.answer)))
    | .replay job index done =>
      match job.runs[index]? with
      | none => none
      | some run =>
        match chunkAt (some ctx.memSize) run done with
        | none => some (w.setPhase i k (.leaving (afterCopy ctx job index done 0 input.ok .failed)))
        | some chunk => do
          let filled ← w.populate ctx chunk.hostAddr chunk.len (.snapshot chunk.fileOffset) input.answer
          some (filled.setPhase i k (.leaving (afterCopy ctx job index done chunk.len input.ok input.answer)))
  | .refilling job => do
    let filled ← w.populate ctx job.page ctx.pageSize .zeros input.answer
    some (filled.setPhase i k (.leaving (afterFill ctx job true input.answer)))
  | .leaving next =>
    let w := { w with copiers := w.copiers - 1 }
    match next with
    | .emit outs => some (w.setPhase i k (.emitting outs))
    | .resume work => some (w.setPhase i k (.ready work))
  | .emitting outs =>
    match outs with
    | [] => some (w.setPhase i k .idle)
    | .stop :: outs => some ({ w with stop := true }.setPhase i k (.emitting outs))
    | .back reply :: outs => some ({ w with back := w.back ++ [reply] }.setPhase i k (.emitting outs))
    | .result outcome :: outs => some ({ w with results := w.results ++ [outcome] }.setPhase i k (.emitting outs))
    | .quit :: _ => some (w.setPhase i k .exited)
  | .exited => none

inductive Beside where
  | worker (i : ℕ) (input : Input)
  | panic (i : ℕ)
  | event (event : Event)
  | publish (holes : HoleMap)

def beside (ctx : VmContext) (w : World) : Beside → Option World
  | .worker i input => workerStep ctx w i input
  | .panic i =>
    match w.workers[i]? with
    | some ⟨true, .ready (.replay job index done)⟩ =>
      some (w.setPhase i ⟨true, .ready (.replay job index done)⟩ .exited)
    | _ => none
  | .event event => some { w with queue := w.queue ++ [event] }
  | .publish holes => if w.holes.isNone then some { w with holes := some holes } else none

end Fcvm.Uffd
