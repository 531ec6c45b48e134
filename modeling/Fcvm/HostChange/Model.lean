import Mathlib.Data.Int.Notation
import Mathlib.Data.Nat.Notation
import Mathlib.Logic.Function.Basic
import Fcvm.Library.System

namespace Fcvm.HostChange

structure FileAttr where
  size : ℕ
  mtimeSecs : ℤ
  mtimeNsecs : ℕ
  ctimeSecs : ℤ
  ctimeNsecs : ℕ
  mode : ℕ

variable (attr : FileAttr)

def FileAttr.isFile : Bool := attr.mode &&& 0o170000 == 0o100000

def FileAttr.mtime : ℤ × ℕ := (attr.mtimeSecs, attr.mtimeNsecs)
def FileAttr.ctime : ℤ × ℕ := (attr.ctimeSecs, attr.ctimeNsecs)

structure Known where
  size : ℕ
  mtime : ℤ × ℕ
  ctime : ℤ × ℕ
  lookups : ℕ
  ownInFlight : ℕ
  ownDone : ℕ
  ownChanged : Bool

def Known.fromAttr : Known :=
  ⟨attr.size, attr.mtime, attr.ctime, 0, 0, 0, false⟩

def isRegular (ino : ℕ) (attr : FileAttr) : Bool := ino != 0 && attr.isFile

structure Job (ρ : Type) where
  inodes : List ℕ
  reply : Option ρ

/-- Where a reader stands in the request it serves; `stale` is what `refreshed` found changed. -/
inductive Phase
  | serving (stale : List ℕ)
  | loaded (stale : List ℕ) (ino : ℕ) (attr : FileAttr) (asked : ℕ) (entry writeback : Bool)
  | counting (stale : List ℕ) (ino : ℕ)
  | sending (stale : List ℕ) (ino : ℕ)
  | direct
  | enqueueing
  | finished

inductive Worker (ρ : Type)
  | waiting
  | received (job : Job ρ)
  | invalidated (job : Job ρ)
  | counted (job : Job ρ)

inductive Event (ρ : Type)
  | recorded (r : ρ) (ino : ℕ) (ctime : ℤ × ℕ) (stale : Bool)
  | skipped (r : ρ) (ino : ℕ)
  | queued (ino : ℕ)
  | sent (ino : ℕ)
  | called (r : ρ)
  | replied (r : ρ)

/-- The requests `ρ` are the actors: a FUSE reader thread serves one after another. -/
structure State (ρ : Type) where
  writeback : Bool
  files : ℕ → Option Known
  locked : ℕ → Option ρ
  clock : ℕ
  jobs : Bool
  channel : List (Job ρ)
  queued : ℕ
  worker : Worker ρ
  phase : ρ → Phase
  log : List (Event ρ)

def initial {ρ : Type} (jobs : Bool) : State ρ where
  writeback := false
  files _ := none
  locked _ := none
  clock := 0
  jobs := jobs
  channel := []
  queued := 0
  worker := .waiting
  phase _ := .serving []
  log := []

def refreshKnown (writeback : Bool) (attr : FileAttr) (asked : ℕ) (entry : Bool)
    (found : Option Known) : Known × Bool :=
  let known := found.getD (Known.fromAttr attr)
  let invalidate := known.ctime != attr.ctime && known.size == attr.size &&
    known.mtime == attr.mtime && !(writeback && known.ownChanged)
  ({ known with
      lookups := if entry then known.lookups + 1 else known.lookups
      ownChanged := if writeback then decide (known.ownInFlight > 0) || decide (known.ownDone > asked)
        else known.ownChanged
      size := attr.size
      mtime := attr.mtime
      ctime := attr.ctime }, invalidate)

def createdKnown (found : Option Known) : Known :=
  let known := found.getD (Known.fromAttr attr)
  { known with lookups := known.lookups + 1 }

def changedHereKnown (entry : Bool) (found : Option Known) : Known :=
  let known := found.getD (Known.fromAttr attr)
  { known with
    lookups := if entry then known.lookups + 1 else known.lookups
    size := attr.size
    mtime := attr.mtime }

def changingKnown (known : Known) : Known :=
  { known with ownInFlight := known.ownInFlight + 1, ownChanged := true }

def changeDroppedKnown (done : ℕ) (known : Known) : Known :=
  { known with ownInFlight := known.ownInFlight - 1, ownDone := max known.ownDone done }

def forgetKnown (nlookup : ℕ) (known : Known) : Option Known :=
  let left := known.lookups - nlookup
  if left = 0 then none else some { known with lookups := left }

inductive Action (ρ : Type)
  | setWriteback (on : Bool)
  | now
  | refresh (r : ρ) (ino : ℕ) (attr : FileAttr) (asked : ℕ) (entry : Bool)
  | record (r : ρ)
  | count (r : ρ)
  | send (r : ρ)
  | replyAfter (r : ρ)
  | reply (r : ρ)
  | enqueue (r : ρ)
  | created (ino : ℕ) (attr : FileAttr)
  | changedHere (ino : ℕ) (attr : FileAttr) (entry : Bool)
  | changing (ino : ℕ)
  | changeDropped (ino : ℕ)
  | forget (ino nlookup : ℕ)
  | receive
  | sendInvalidations
  | subtract
  | workerReply

section

variable {ρ : Type} [DecidableEq ρ]

variable (s : State ρ)

def State.toPhase (r : ρ) (p : Phase) : State ρ :=
  { s with phase := Function.update s.phase r p }

def State.setFile (ino : ℕ) (known : Option Known) : State ρ :=
  { s with files := Function.update s.files ino known }

def State.release (ino : ℕ) : State ρ :=
  { s with locked := Function.update s.locked ino none }

def State.note (e : Event ρ) : State ρ := { s with log := e :: s.log }

def State.onFile (ino : ℕ) (f : Option Known → Option Known) : Option (State ρ) :=
  if s.locked ino = none then some (s.setFile ino (f (s.files ino))) else none

/-- `refreshed` from the write-back flag's load to the entry's release, or to `queue_invalidation`
with the entry held. -/
def recordStep (r : ρ) : Option (State ρ) :=
  match s.phase r with
  | .loaded stale ino attr asked entry writeback =>
    if s.locked ino = none then
      let found := refreshKnown writeback attr asked entry (s.files ino)
      let s := s.setFile ino (some found.1)
      let s := s.note (.recorded r ino attr.ctime (found.2 && s.jobs))
      if found.2 then
        some { s.toPhase r (.counting stale ino) with locked := Function.update s.locked ino (some r) }
      else some (s.toPhase r (.serving stale))
    else none
  | _ => none

def countStep (r : ρ) : Option (State ρ) :=
  match s.phase r with
  | .counting stale ino =>
    if s.jobs then some { s.toPhase r (.sending stale ino) with queued := s.queued + 1 }
    else some ((s.release ino).toPhase r (.serving stale))
  | _ => none

def sendStep (r : ρ) : Option (State ρ) :=
  match s.phase r with
  | .sending stale ino =>
    let s := { s with channel := s.channel ++ [Job.mk [ino] none] }
    some (((s.release ino).note (.queued ino)).toPhase r (.serving (stale ++ [ino])))
  | _ => none

def replyAfterStep (r : ρ) : Option (State ρ) :=
  match s.phase r with
  | .serving stale =>
    let p := if stale.isEmpty && s.queued == 0 then Phase.direct else .enqueueing
    some ((s.note (.called r)).toPhase r p)
  | _ => none

def enqueueStep (r : ρ) : Option (State ρ) :=
  match s.phase r with
  | .enqueueing =>
    if s.jobs then some ({ s with channel := s.channel ++ [Job.mk [] (some r)] }.toPhase r .finished)
    else some ((s.note (.replied r)).toPhase r .finished)
  | _ => none

def workerStep : Action ρ → Option (State ρ)
  | .receive =>
    match s.worker, s.channel with
    | .waiting, job :: rest =>
      if s.jobs then some { s with worker := .received job, channel := rest } else none
    | _, _ => none
  | .sendInvalidations =>
    match s.worker with
    | .received job =>
      some { s with worker := .invalidated job, log := (job.inodes.map Event.sent).reverse ++ s.log }
    | _ => none
  | .subtract =>
    match s.worker with
    | .invalidated job => some { s with worker := .counted job, queued := s.queued - job.inodes.length }
    | _ => none
  | .workerReply =>
    match s.worker with
    | .counted job =>
      match job.reply with
      | some r => some { s.note (.replied r) with worker := .waiting }
      | none => some { s with worker := .waiting }
    | _ => none
  | _ => none

def next : Action ρ → Option (State ρ)
  | .setWriteback on => some { s with writeback := on }
  | .now => some { s with clock := s.clock + 1 }
  | .refresh r ino attr asked entry =>
    match s.phase r with
    | .serving stale =>
      if isRegular ino attr then some (s.toPhase r (.loaded stale ino attr asked entry s.writeback))
      else some (s.note (.skipped r ino))
    | _ => none
  | .record r => recordStep s r
  | .count r => countStep s r
  | .send r => sendStep s r
  | .replyAfter r => replyAfterStep s r
  | .reply r =>
    match s.phase r with
    | .direct => some ((s.note (.replied r)).toPhase r .finished)
    | _ => none
  | .enqueue r => enqueueStep s r
  | .created ino attr =>
    if isRegular ino attr then s.onFile ino (fun k => some (createdKnown attr k)) else some s
  | .changedHere ino attr entry =>
    if isRegular ino attr then s.onFile ino (fun k => some (changedHereKnown attr entry k)) else some s
  | .changing ino => if s.writeback then s.onFile ino (Option.map changingKnown) else some s
  | .changeDropped ino =>
    { s with clock := s.clock + 1 }.onFile ino (Option.map (changeDroppedKnown (s.clock + 1)))
  | .forget ino nlookup => s.onFile ino (fun k => k.bind (forgetKnown nlookup))
  | .receive => workerStep s .receive
  | .sendInvalidations => workerStep s .sendInvalidations
  | .subtract => workerStep s .subtract
  | .workerReply => workerStep s .workerReply

end

def system (ρ : Type) [DecidableEq ρ] : Library.System (State ρ) (Action ρ) where
  initial s := ∃ jobs, s = initial jobs
  next := next

end Fcvm.HostChange
