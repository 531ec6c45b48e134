import Fcvm.Library.System
import Fcvm.WorkingSet.Publication

namespace Fcvm.WorkingSet

open Library

structure PersistRequest where
  vmId : String
  faultedPages : ℕ
  learnedPages : ℕ
  deriving DecidableEq

inductive Phase where
  | remember
  | add (request : PersistRequest)
  | send (request : PersistRequest)
  | withdraw
  | returned
  deriving DecidableEq

structure Call where
  vmId : String
  observed : PageSet
  phase : Phase
  deriving DecidableEq

/-- A call of `drain`: what the calls that had returned when it began observed, and what it returned. -/
structure Drain where
  before : List PageSet
  result : Option Bool
  deriving DecidableEq

inductive Worker where
  | receiving
  | persisting (request : PersistRequest) (merge : Merge)
  | finishing
  | exited
  deriving DecidableEq

structure World where
  store : Store
  count : ℕ
  queue : Option PersistRequest
  worker : Worker
  handles : ℕ
  calls : List Call
  drains : List Drain
  deriving DecidableEq

inductive Event where
  | schedule (vmId : String) (observed : PageSet)
  | call (i : ℕ)
  | drain
  | wait (i : ℕ) (timeout : Bool)
  | merge (i : Input)
  | worker
  | clone
  | drop
  deriving DecidableEq

def Call.returned (c : Call) : Bool := c.phase = .returned

def World.busy (w : World) : Bool := w.calls.any (!·.returned) || w.drains.any (·.result.isNone)

def World.callStep (w : World) (c : Call) : World × Phase :=
  match c.phase with
  | .remember =>
    let (known, learnedPages) := w.store.known.unionFrom c.observed
    ({ w with store := { w.store with known := known } }, .add ⟨c.vmId, c.observed.len, learnedPages⟩)
  | .add request => ({ w with count := w.count + 1 }, .send request)
  | .send request =>
    if w.worker = .exited then (w, .withdraw)
    else
      match w.queue with
      | some _ => (w, .withdraw)
      | none => ({ w with queue := some request }, .returned)
  | .withdraw => ({ w with count := w.count - 1 }, .returned)
  | .returned => (w, .returned)

def World.workerStep (w : World) : Option World :=
  match w.worker, w.queue with
  | .receiving, some request => some { w with queue := none, worker := .persisting request .start }
  | .receiving, none => if w.handles = 0 then some { w with worker := .exited } else none
  | .persisting _ (.finished _), _ => some { w with worker := .finishing }
  | .finishing, _ => some { w with count := w.count - 1, worker := .receiving }
  | _, _ => none

/-- `Pending::wait`: whether it ends here, and with what. -/
def waitStep (count : ℕ) (timeout : Bool) : Option Bool :=
  if count = 0 then some true else if timeout then some false else none

def step (memLen : ℕ) (w : World) : Event → Option World
  | .schedule vmId observed =>
    if 0 < w.handles then some { w with calls := w.calls ++ [⟨vmId, observed, .remember⟩] } else none
  | .call i =>
    match w.calls[i]? with
    | none => none
    | some c =>
      if c.returned then none
      else
        let (w', phase) := w.callStep c
        some { w' with calls := w.calls.set i { c with phase := phase } }
  | .drain =>
    if 0 < w.handles then
      some { w with drains := w.drains ++ [⟨(w.calls.filter Call.returned).map (·.observed), none⟩] }
    else none
  | .wait i timeout =>
    match w.drains[i]? with
    | none => none
    | some d =>
      if d.result.isSome then none
      else some { w with drains := w.drains.set i { d with result := waitStep w.count timeout } }
  | .merge input =>
    match w.worker with
    | .persisting request m =>
      (mergeStep (PageSet.empty memLen) true m w.store input).map fun (m, store) =>
        { w with store := store, worker := .persisting request m }
    | _ => none
  | .worker => w.workerStep
  | .clone => if 0 < w.handles then some { w with handles := w.handles + 1 } else none
  -- the last handle cannot go while a call borrows it
  | .drop => if 1 < w.handles ∨ w.handles = 1 ∧ w.busy = false then some { w with handles := w.handles - 1 } else none

def World.initial (store : Store) : World where
  store := store
  count := 0
  queue := none
  worker := .receiving
  handles := 1
  calls := []
  drains := []

def system (memLen : ℕ) : System World Event where
  initial w := ∃ store : Store, store.Fits memLen ∧ w = World.initial store
  next := step memLen

def Event.Undisturbed (memLen : ℕ) : Event → Prop
  | .schedule _ observed => observed.Fits memLen
  | .merge input => input.Undisturbed
  | _ => True

end Fcvm.WorkingSet
