import Fcvm.Uffd.World

namespace Fcvm.Uffd

open Library

variable (ctx : VmContext)

def rememberIn (start stop : ℕ) (removed : RemovedPages) (m : GuestRegionUffdMapping) : RemovedPages :=
  let base := m.baseHostVirtAddr
  if ADDRESSES ≤ base + m.size then removed
  else
    let first := max start base
    let last := min stop (base + m.size)
    if last ≤ first then removed
    else if ADDRESSES ≤ m.offset + (first - base) then removed
    else removed.insertRange (m.offset + (first - base)) (last - first) ctx.pageSize ctx.memSize

def rememberRemoved (removed : RemovedPages) (start stop : ℕ) : RemovedPages :=
  ctx.mappings.foldl (rememberIn ctx start stop) removed

def VmContext.faultPage (addr : ℕ) : ℕ := addr / ctx.pageSize * ctx.pageSize

def Event.fault : Event → Option Fault
  | .pagefault addr _ write => some ⟨ctx.faultPage addr, write⟩
  | _ => none

inductive Submitted where
  | ok
  | full
  | disconnected
  deriving DecidableEq

inductive Op where
  | get
  | modify (f : Handler → Handler)
  | remember (start stop : ℕ)
  | bump
  | startReading
  | awaitCopiers
  | stopReading
  | readEvents (room : ℕ)
  | takeReturn (wait : Bool)
  | submit (job : FaultJob)
  | populate (host len : ℕ) (source : Source)
  | copyAlone (host len fileOffset : ℕ)
  | poll
  | published
  | takeResult (wait : Bool)
  | trySubmit (job : ReplayJob)
  | closeReplay
  | stopReplay
  | joinReplay
  | choose
  | halt

abbrev Op.Result : Op → Type
  | .get => Handler
  | .readEvents _ => Option (List Event)
  | .takeReturn _ => Option WorkerReturn
  | .submit _ => Bool
  | .populate _ _ _ | .copyAlone _ _ _ => Answer
  | .poll => Option Bool
  | .published => Option HoleMap
  | .takeResult _ => Option ReplayOutcome
  | .trySubmit _ => Submitted
  | .choose => ℕ
  | _ => Unit

namespace Handler

def answered (s : Handler) (host : ℕ) : Answer → Handler
  | .populated _ | .present => { s with filled := host :: s.filled }
  | .gone => { s with gone := true }
  | _ => s

end Handler

namespace World

def update (w : World) (f : Handler → Handler) : World := { w with handler := f w.handler }

end World

def handlerPopulate (w : World) (host len : ℕ) (source : Source) (answer : Answer) :
    Option (World × Answer) := do
  let filled ← w.populate ctx host len source answer
  some (filled.update (·.answered host answer), answer)

def exec : (o : Op) → World → Input → Option (World × o.Result)
  | .get, w, _ => some (w, w.handler)
  | .modify f, w, _ => some (w.update f, ())
  | .remember start stop, w, _ =>
    some ({ w.update (fun s => { s with removed := rememberRemoved ctx s.removed start stop, unbumped := true }) with
      log := .removed start stop :: w.log }, ())
  | .bump, w, _ => some (w.update fun s => { s with generation := s.generation + 1, unbumped := false }, ())
  | .startReading, w, _ => some (w.update fun s => { s with reading := true }, ())
  | .awaitCopiers, w, _ =>
    if w.copiers = 0 then some (w.update fun s => { s with holding := true }, ()) else none
  | .stopReading, w, _ => some (w.update fun s => { s with reading := false, holding := false }, ())
  | .readEvents room, w, input =>
    if input.ok then
      let events := w.queue.take (min input.count room)
      some ({ w.update (fun s => { s with batch := events, filled := [] }) with
        queue := w.queue.drop (min input.count room)
        log := (events.filterMap (Event.fault ctx)).reverse.map .read ++ w.log }, some events)
    else some (w, none)
  | .takeReturn wait, w, _ =>
    match w.back with
    | reply :: back =>
      some ({ w.update (fun s => { s with returns := s.returns ++ [reply] }) with back := back }, some reply)
    | [] => if wait then none else some (w, none)
  | .submit job, w, _ =>
    if w.alive false then
      some ({ w.update (fun s => { s with current := none }) with jobs := w.jobs ++ [job] }, true)
    else some (w, false)
  | .populate host len source, w, input => handlerPopulate ctx w host len source input.answer
  | .copyAlone host len fileOffset, w, input => handlerPopulate ctx w host len (.snapshot fileOffset) input.answer
  | .poll, w, input =>
    match input.count with
    | 0 => some (w, some !w.queue.isEmpty)
    | 1 => some (w, some false)
    | _ => some (w, none)
  | .published, w, _ => some (w, w.holes)
  | .takeResult wait, w, _ =>
    match w.results with
    | outcome :: results => some ({ w with results := results }, some outcome)
    | [] => if wait && w.alive true then none else some (w, none)
  | .trySubmit job, w, _ =>
    if w.replayClosed || !w.alive true then some (w, .disconnected)
    else if ctx.replayQueue ≤ w.replayJobs.length then some (w, .full)
    else some ({ w with replayJobs := w.replayJobs ++ [job] }, .ok)
  | .closeReplay, w, _ => some ({ w with replayClosed := true }, ())
  | .stopReplay, w, _ => some ({ w with replayStop := true }, ())
  | .joinReplay, w, _ => if w.alive true then none else some (w, ())
  | .choose, w, input => some (w, input.count)
  | .halt, _, _ => none

def machine : Machine World Handler Input Beside Op Op.Result where
  own := World.handler
  exec := exec ctx
  environment := beside ctx

end Fcvm.Uffd
