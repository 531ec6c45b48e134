import Fcvm.Uffd.Contract

namespace Fcvm.Uffd

variable {ctx : VmContext}

namespace Phase

def counted : Phase → Bool
  | entered _ | backing _ | holding _ | filling _ | refilling _ | leaving _ => true
  | _ => false

def inside : Phase → Bool
  | holding _ | filling _ | refilling _ => true
  | _ => false

def work : Phase → Option Work
  | taken work | ready work | entering work | entered work | backing work | spinning work | holding work
  | filling work | leaving (.resume work) => some work
  | refilling job => some (.fault job)
  | _ => none

def outs : Phase → List Out
  | leaving (.emit outs) | emitting outs => outs
  | _ => []

end Phase

/-- What one step of a worker at `phase` does: what it changes beside the worker, and where the worker is then. -/
inductive Move (ctx : VmContext) (w : World) (replay : Bool) : Phase → World → Phase → Prop
  | takeReplay {job : ReplayJob} {jobs : List ReplayJob} (hkind : replay = true) (hjobs : w.replayJobs = job :: jobs) :
    Move ctx w replay .idle { w with replayJobs := jobs } (.taken (.replay job 0 0))
  | takeFault {job : FaultJob} {jobs : List FaultJob} (hkind : replay = false) (hjobs : w.jobs = job :: jobs) :
    Move ctx w replay .idle { w with jobs := jobs } (.taken (.fault job))
  | closed (hkind : replay = true) : Move ctx w replay .idle w .exited
  | dropped {work : Work} (hstop : (if replay then w.replayStop else w.stop) = true) :
    Move ctx w replay (.taken work) w .exited
  | start {work : Work} : Move ctx w replay (.taken work) w (.ready work)
  | enter {work : Work} : Move ctx w replay (.ready work) w (.entering work)
  | done {job : ReplayJob} {index done : ℕ} {outcome : ReplayOutcome} (h : outcome = .done ∨ outcome = .refused) :
    Move ctx w replay (.ready (.replay job index done)) w (.emitting [.result outcome])
  | nextRun {job : ReplayJob} {index done : ℕ} :
    Move ctx w replay (.ready (.replay job index done)) w (.ready (.replay job (index + 1) 0))
  | count {work : Work} : Move ctx w replay (.entering work) { w with copiers := w.copiers + 1 } (.entered work)
  | back {work : Work} (hreading : w.handler.reading = true) : Move ctx w replay (.entered work) w (.backing work)
  | hold {work : Work} (hreading : w.handler.reading = false) : Move ctx w replay (.entered work) w (.holding work)
  | uncount {work : Work} : Move ctx w replay (.backing work) { w with copiers := w.copiers - 1 } (.spinning work)
  | again {work : Work} : Move ctx w replay (.spinning work) w (.entering work)
  | check {work : Work} (hgeneration : w.handler.generation = work.generation) :
    Move ctx w replay (.holding work) w (.filling work)
  | staleFault {job : FaultJob} : Move ctx w replay (.holding (.fault job)) w (.leaving (.emit [.back (.stale job)]))
  | staleReplay {job : ReplayJob} {index done : ℕ} :
    Move ctx w replay (.holding (.replay job index done)) w (.leaving (.emit [.result (staleFrom job index done)]))
  | refuse {job : FaultJob} : Move ctx w replay (.filling (.fault job)) w (.refilling job)
  | fill {job : FaultJob} {filled : World} {answer : Answer}
    (hfill : w.populate ctx job.page ctx.pageSize (job.answer.source job.offset) answer = some filled) :
    Move ctx w replay (.filling (.fault job)) filled (.leaving (afterFill ctx job false answer))
  | refill {job : FaultJob} {filled : World} {answer : Answer}
    (hfill : w.populate ctx job.page ctx.pageSize .zeros answer = some filled) :
    Move ctx w replay (.refilling job) filled (.leaving (afterFill ctx job true answer))
  | skip {job : ReplayJob} {index done : ℕ} {late : Bool} :
    Move ctx w replay (.filling (.replay job index done)) w (.leaving (afterCopy ctx job index done 0 late .failed))
  | copy {job : ReplayJob} {index done : ℕ} {run : ReplayRun} {chunk : Segment} {filled : World} {answer : Answer}
    {late : Bool} (hrun : job.runs[index]? = some run) (hchunk : chunkAt (some ctx.memSize) run done = some chunk)
    (hfill : w.populate ctx chunk.hostAddr chunk.len (.snapshot chunk.fileOffset) answer = some filled) :
    Move ctx w replay (.filling (.replay job index done)) filled
      (.leaving (afterCopy ctx job index done chunk.len late answer))
  | leave {outs : List Out} :
    Move ctx w replay (.leaving (.emit outs)) { w with copiers := w.copiers - 1 } (.emitting outs)
  | resume {work : Work} : Move ctx w replay (.leaving (.resume work)) { w with copiers := w.copiers - 1 } (.ready work)
  | rest : Move ctx w replay (.emitting []) w .idle
  | stop {outs : List Out} : Move ctx w replay (.emitting (.stop :: outs)) { w with stop := true } (.emitting outs)
  | reply {reply : WorkerReturn} {outs : List Out} :
    Move ctx w replay (.emitting (.back reply :: outs)) { w with back := w.back ++ [reply] } (.emitting outs)
  | result {outcome : ReplayOutcome} {outs : List Out} :
    Move ctx w replay (.emitting (.result outcome :: outs)) { w with results := w.results ++ [outcome] }
      (.emitting outs)
  | quit {outs : List Out} : Move ctx w replay (.emitting (.quit :: outs)) w .exited
  | panic {job : ReplayJob} {index done : ℕ} : Move ctx w replay (.ready (.replay job index done)) w .exited

theorem workerStep_cases {w w' : World} {i : ℕ} {input : Input} (h : workerStep ctx w i input = some w') :
    ∃ k core phase, w.workers[i]? = some k ∧ Move ctx w k.replay k.phase core phase ∧ w' = core.setPhase i k phase := by
  unfold workerStep at h
  obtain ⟨k, hk, h⟩ := Option.bind_eq_some_iff.mp h
  obtain ⟨replay, phase⟩ := k
  dsimp only at h
  cases phase with
  | idle =>
    dsimp only at h
    split at h
    · next hkind =>
      split at h
      · next job jobs hjobs =>
        cases h
        exact ⟨_, _, _, hk, .takeReplay hkind hjobs, rfl⟩
      · split at h
        · cases h
          exact ⟨_, _, _, hk, .closed hkind, rfl⟩
        · cases h
    · next hkind =>
      split at h
      · next job jobs hjobs =>
        cases h
        exact ⟨_, _, _, hk, .takeFault (Bool.not_eq_true _ ▸ hkind) hjobs, rfl⟩
      · cases h
  | taken work =>
    dsimp only at h
    by_cases hstop : (if replay = true then w.replayStop else w.stop) = true
    · rw [if_pos hstop] at h
      cases h
      exact ⟨_, _, _, hk, .dropped hstop, rfl⟩
    · rw [if_neg hstop] at h
      cases h
      exact ⟨_, _, _, hk, .start, rfl⟩
  | ready work =>
    cases work with
    | fault job =>
      cases h
      exact ⟨_, _, _, hk, .enter, rfl⟩
    | replay job index done =>
      dsimp only at h
      split at h
      · cases h
        exact ⟨_, _, _, hk, .done (.inl rfl), rfl⟩
      · split at h
        · cases h
          exact ⟨_, _, _, hk, .nextRun, rfl⟩
        · split at h
          · cases h
            exact ⟨_, _, _, hk, .done (.inr rfl), rfl⟩
          · cases h
            exact ⟨_, _, _, hk, .enter, rfl⟩
  | entering work =>
    cases h
    exact ⟨_, _, _, hk, .count, rfl⟩
  | entered work =>
    dsimp only at h
    split at h
    · next hreading =>
      cases h
      exact ⟨_, _, _, hk, .back hreading, rfl⟩
    · next hreading =>
      cases h
      exact ⟨_, _, _, hk, .hold (Bool.not_eq_true _ ▸ hreading), rfl⟩
  | backing work =>
    cases h
    exact ⟨_, _, _, hk, .uncount, rfl⟩
  | spinning work =>
    dsimp only at h
    split at h
    · cases h
    · cases h
      exact ⟨_, _, _, hk, .again, rfl⟩
  | holding work =>
    dsimp only at h
    split at h
    · next hgeneration =>
      cases h
      exact ⟨_, _, _, hk, .check hgeneration, rfl⟩
    · cases work with
      | fault job =>
        cases h
        exact ⟨_, _, _, hk, .staleFault, rfl⟩
      | replay job index done =>
        cases h
        exact ⟨_, _, _, hk, .staleReplay, rfl⟩
  | filling work =>
    cases work with
    | fault job =>
      dsimp only at h
      split at h
      · cases h
        exact ⟨_, _, _, hk, .refuse, rfl⟩
      · obtain ⟨filled, hfill, h⟩ := Option.bind_eq_some_iff.mp h
        cases h
        exact ⟨_, _, _, hk, .fill hfill, rfl⟩
    | replay job index done =>
      dsimp only at h
      split at h
      · cases h
      · next run hrun =>
        split at h
        · cases h
          exact ⟨_, _, _, hk, .skip, rfl⟩
        · next chunk hchunk =>
          obtain ⟨filled, hfill, h⟩ := Option.bind_eq_some_iff.mp h
          cases h
          exact ⟨_, _, _, hk, .copy hrun hchunk hfill, rfl⟩
  | refilling job =>
    obtain ⟨filled, hfill, h⟩ := Option.bind_eq_some_iff.mp h
    cases h
    exact ⟨_, _, _, hk, .refill hfill, rfl⟩
  | leaving next =>
    cases next with
    | emit outs =>
      cases h
      exact ⟨_, _, _, hk, .leave, rfl⟩
    | resume work =>
      cases h
      exact ⟨_, _, _, hk, .resume, rfl⟩
  | emitting outs =>
    cases outs with
    | nil =>
      cases h
      exact ⟨_, _, _, hk, .rest, rfl⟩
    | cons out outs =>
      cases out with
      | stop =>
        cases h
        exact ⟨_, _, _, hk, .stop, rfl⟩
      | back reply =>
        cases h
        exact ⟨_, _, _, hk, .reply, rfl⟩
      | result outcome =>
        cases h
        exact ⟨_, _, _, hk, .result, rfl⟩
      | quit =>
        cases h
        exact ⟨_, _, _, hk, .quit, rfl⟩
  | exited => cases h

theorem beside_cases {w w' : World} {e : Beside} (h : beside ctx w e = some w') :
    (∃ i k core phase, w.workers[i]? = some k ∧ Move ctx w k.replay k.phase core phase ∧ w' = core.setPhase i k phase) ∨
      ∃ queue holes, w' = { w with queue := queue, holes := holes } := by
  cases e with
  | worker i input =>
    obtain ⟨k, core, phase, hstep⟩ := workerStep_cases h
    exact .inl ⟨i, k, core, phase, hstep⟩
  | panic i =>
    simp only [beside] at h
    split at h
    · next job index done hk =>
      cases h
      exact .inl ⟨i, _, w, .exited, hk, .panic, rfl⟩
    · cases h
  | event event =>
    cases h
    exact .inr ⟨_, w.holes, rfl⟩
  | publish holes =>
    simp only [beside] at h
    split at h
    · cases h
      exact .inr ⟨w.queue, _, rfl⟩
    · cases h

end Fcvm.Uffd
