import Fcvm.Uffd.Placement

namespace Fcvm.Uffd

open Library

def FaultJob.fault (job : FaultJob) : Fault := ⟨job.page, job.write⟩

def WorkerReturn.fault : WorkerReturn → Option Fault
  | .stale job | .retry job => some job.fault
  | _ => none

def WorkerReturn.isEnd : WorkerReturn → Bool
  | .vmGone | .failed => true
  | _ => false

variable (ctx : VmContext)

def WorkerReturn.Placed (reply : WorkerReturn) : Prop :=
  ∀ job, reply = .stale job ∨ reply = .retry job → Maps ctx job.page job.offset ctx.pageSize

def ReplayRun.Placed (run : ReplayRun) : Prop := Maps ctx run.hostAddr run.fileOffset run.len

def ReplayOutcome.Placed (outcome : ReplayOutcome) : Prop :=
  ∀ rest, outcome = .stale rest → ∀ run ∈ rest.runs, run.Placed ctx

def Fresh (removed : RemovedPages) (epoch generation fileOffset len : ℕ) : Prop :=
  generation ≤ epoch ∧ (generation = epoch → removed.Clear ctx.pageSize fileOffset len)

def FaultJob.Planned (removed : RemovedPages) (epoch : ℕ) (job : FaultJob) : Prop :=
  Maps ctx job.page job.offset ctx.pageSize ∧
    (job.answer = .snapshot → Fresh ctx removed epoch job.generation job.offset ctx.pageSize)

def ReplayJob.Planned (removed : RemovedPages) (epoch : ℕ) (job : ReplayJob) : Prop :=
  ∀ run ∈ job.runs, run.Placed ctx ∧ Fresh ctx removed epoch job.generation run.fileOffset run.len

namespace Handler

def epoch (s : Handler) : ℕ := if s.unbumped then s.generation + 1 else s.generation

def Parked (s : Handler) (f : Fault) : Prop :=
  ∃ p, s.parkedFaults.lookup f.page = some p ∧ (f.write = true → p.write = true)

def InHand (s : Handler) (f : Fault) : Prop :=
  s.current = some f ∨ (∃ e ∈ s.batch, e.fault ctx = some f) ∨ (∃ reply ∈ s.returns, reply.fault = some f) ∨ s.Parked f

def Ending (s : Handler) : Prop := ∃ reply ∈ s.returns, reply.isEnd = true

/-- Nothing of what it read is left when `drain_events` says that it has drained the queue or handled a full batch. -/
def Tidy (s : Handler) : Prop :=
  s.outcome = some .queueDrained ∨ s.outcome = some .batchFull → s.batch = [] ∧ s.current = none

/-- What the handler may change on its own: not the gate, the given-back pages or what it has filled, and no fault may
get lost. -/
structure Moves (ctx : VmContext) (s s' : Handler) : Prop where
  removed : s'.removed = s.removed := by rfl
  generation : s'.generation = s.generation := by rfl
  reading : s'.reading = s.reading := by rfl
  holding : s'.holding = s.holding := by rfl
  unbumped : s'.unbumped = s.unbumped := by rfl
  filled : s'.filled = s.filled := by rfl
  gone : s.gone = true → s'.gone = true := by exact id
  keeps : ∀ f, s.InHand ctx f → s'.InHand ctx f ∨ f.page ∈ s.filled ∨ s'.gone = true := by exact fun _ => .inl
  ends : s.Ending → s'.Ending ∨ s'.gone = true := by exact .inl
  tidy : s.Tidy → s'.Tidy := by exact id

end Handler

def contract : Prog.Contract Op Op.Result Handler where
  pre
    | .modify f, s => s.Moves ctx (f s)
    | .remember _ _, s => s.holding = true ∧ s.unbumped = false
    | .bump, s => s.holding = true ∧ s.unbumped = true
    | .startReading, s => s.holding = false ∧ s.unbumped = false
    | .awaitCopiers, s => s.reading = true ∧ s.unbumped = false
    | .stopReading, s => s.unbumped = false
    | .readEvents _, s => s.holding = true ∧ s.unbumped = false ∧ s.batch = [] ∧ s.outcome = none
    | .submit job, s => s.current = some job.fault ∧ job.Planned ctx s.removed s.epoch
    | .populate host len source, s => ∀ fileOffset, source = .snapshot fileOffset → ctx.pageSize ∣ host →
        ctx.pageSize ∣ len → Maps ctx host fileOffset len ∧ s.removed.Clear ctx.pageSize fileOffset len
    | .copyAlone host len fileOffset, s => s.unbumped = false ∧ Maps ctx host fileOffset len ∧
        (s.planned = s.generation → s.removed.Clear ctx.pageSize fileOffset len)
    | .trySubmit job, s => job.Planned ctx s.removed s.epoch
    | _, _ => True
  post
    | .get, s, r, s' => r = s ∧ s' = s
    | .modify f, s, _, s' => s' = f s
    | .remember start stop, s, _, s' =>
      s' = { s with removed := rememberRemoved ctx s.removed start stop, unbumped := true }
    | .bump, s, _, s' => s' = { s with generation := s.generation + 1, unbumped := false }
    | .startReading, s, _, s' => s' = { s with reading := true }
    | .awaitCopiers, s, _, s' => s' = { s with holding := true }
    | .stopReading, s, _, s' => s' = { s with reading := false, holding := false }
    | .readEvents room, s, r, s' => (r = none ∧ s' = s) ∨
        ∃ events, r = some events ∧ events.length ≤ room ∧ s' = { s with batch := events, filled := [] }
    | .takeReturn _, s, r, s' => (r = none ∧ s' = s) ∨
        ∃ reply, r = some reply ∧ reply.Placed ctx ∧ s' = { s with returns := s.returns ++ [reply] }
    | .submit _, s, r, s' => (r = true ∧ s' = { s with current := none }) ∨ (r = false ∧ s' = s)
    | .populate host len _, s, r, s' | .copyAlone host len _, s, r, s' =>
      s' = s.answered host r ∧ ∀ bytes, r = .populated bytes → ctx.pageSize ∣ bytes ∧ 0 < bytes ∧ bytes ≤ len
    | .takeResult _, s, r, s' => s' = s ∧ ∀ outcome, r = some outcome → outcome.Placed ctx
    | _, s, _, s' => s' = s

end Fcvm.Uffd
