import Mathlib.Logic.Function.Basic
import Fcvm.Library.Overwrite
import Fcvm.Library.System
import Fcvm.Merge.Windows

namespace Fcvm.Merge

open Library

structure MergeTuning where
  window : ℕ
  workers : ℕ
  bytesPerWorker : ℕ
  writesPerWorker : ℕ
  minPunch : ℕ

def MergeTuning.accepted (t : MergeTuning) : Bool :=
  decide (t.window > 0) && decide (t.workers > 0) && decide (t.bytesPerWorker > 0) &&
    decide (t.writesPerWorker > 0) && t.window % granule == 0

def divCeil (a b : ℕ) : ℕ := (a + b - 1) / b

/-- One merge: its files as they are before it, its tuning, and the blocks the diff has allocated. -/
structure Config where
  base : List UInt8
  diff : Diff
  tuning : MergeTuning
  blocks : ℕ

variable (c : Config)

def Config.windows : ℕ := divCeil c.diff.size c.tuning.window

def Config.planners : ℕ :=
  min (max (divCeil (c.blocks * 512) c.tuning.bytesPerWorker) 1) c.tuning.workers

def Config.writers (plan : MergeStats) : ℕ :=
  min (max (max (divCeil plan.diffBytes c.tuning.bytesPerWorker) (divCeil plan.writes c.tuning.writesPerWorker)) 1)
    c.tuning.workers

/-- What the workers of a pass share: the base, the next window to take, and the two flags. -/
structure Shared where
  base : List UInt8
  next : ℕ
  stop : Bool
  cannotPunch : Bool

def writeAllAt (base : List UInt8) (offset : ℕ) (bytes : List UInt8) : List UInt8 := overwrite 0 base offset bytes

def punchHole (base : List UInt8) (offset len : ℕ) : List UInt8 :=
  overwrite 0 base offset (List.replicate (min len (base.length - offset)) 0)

structure Piece where
  stats : MergeStats
  rest : List MergeWrite
  write : MergeWrite
  buffer : List UInt8
  runs : List (Range × Bool)
  added : MergeStats

inductive Worker
  | loop (stats : MergeStats)
  | taking (stats : MergeStats)
  | walking (index : ℕ) (stats : MergeStats)
  | pieces (rest : List MergeWrite) (stats : MergeStats)
  | reading (write : MergeWrite) (rest : List MergeWrite) (stats : MergeStats)
  | runs (p : Piece)
  | run (p : Piece) (run : Range × Bool)
  | punching (p : Piece) (run : Range)
  | refused (p : Piece) (run : Range)
  | writing (p : Piece) (offset : ℕ) (bytes : List UInt8)
  | failing
  | ended (result : Option MergeStats)

inductive Move
  | step
  | punch
  | refuse
  | write (n : ℕ)
  | fail

def Piece.offset (p : Piece) (run : Range) : ℕ := p.write.start + run.start

def Piece.startWrite (p : Piece) (run : Range × Bool) : Worker :=
  let added := if run.2 then { p.added with unpunchedZeroBytes := p.added.unpunchedZeroBytes + run.1.len } else p.added
  .writing { p with added := added } (p.offset run.1) (slice p.buffer run.1)

def Piece.punched (p : Piece) (run : Range) : Worker :=
  .runs { p with added := { p.added with
    punches := p.added.punches + 1
    zeroBytes := p.added.zeroBytes + run.len } }

def step (io : Bool) (sh : Shared) : Worker → Option (Shared × Worker)
  | .loop stats => some (sh, if sh.stop then .ended (some stats) else .taking stats)
  | .taking stats =>
    some ({ sh with next := sh.next + 1 },
      if sh.next ≥ c.windows then .ended (some stats) else .walking sh.next stats)
  | .walking index stats =>
    match c.diff.windowWrites index c.tuning.window stats with
    | some (writes, stats) => some (sh, if io then .pieces writes stats else .loop stats)
    | none => some (sh, .failing)
  | .pieces [] stats => some (sh, .loop stats)
  | .pieces (write :: rest) stats => some (sh, if sh.stop then .ended (some stats) else .reading write rest stats)
  | .reading write rest stats =>
    let buffer := c.diff.readAt write
    some (sh, .runs ⟨stats, rest, write, buffer, pieceRuns write.start buffer c.tuning.minPunch, .default⟩)
  | .runs p =>
    match p.runs with
    | [] => some (sh, .pieces p.rest (p.stats.add p.added))
    | run :: runs =>
      some (sh, if sh.stop then .pieces p.rest (p.stats.add p.added) else .run { p with runs := runs } run)
  | .run p run =>
    some (sh, if run.2 && !sh.cannotPunch then .punching p run.1 else p.startWrite run)
  | .refused p run => some ({ sh with cannotPunch := true }, p.startWrite (run, true))
  | .writing p _ [] => some (sh, .runs p)
  | .failing => some ({ sh with stop := true }, .ended none)
  | _ => none

def move (io : Bool) (sh : Shared) (w : Worker) : Move → Option (Shared × Worker)
  | .step => step c io sh w
  | .punch =>
    match w with
    | .punching p run => some ({ sh with base := punchHole sh.base (p.offset run) run.len }, p.punched run)
    | _ => none
  | .refuse =>
    match w with
    | .punching p run => some (sh, .refused p run)
    | _ => none
  | .write n =>
    match w with
    | .writing p offset bytes =>
      if 0 < n ∧ n ≤ bytes.length then
        some ({ sh with base := writeAllAt sh.base offset (bytes.take n) }, .writing p (offset + n) (bytes.drop n))
      else none
    | _ => none
  | .fail =>
    match w with
    | .failing => none
    | .ended _ => none
    | _ => some (sh, .failing)

structure Pass where
  started : ℕ
  worker : ℕ → Worker

def Pass.new (started : ℕ) : Pass := ⟨started, fun _ => .loop .default⟩

def Worker.result : Worker → Option (Option MergeStats)
  | .ended result => some result
  | _ => none

def Pass.results (p : Pass) : Option (List (Option MergeStats)) :=
  (List.range p.started).mapM fun w => (p.worker w).result

def Pass.stats (p : Pass) (results : List (Option MergeStats)) : Option MergeStats :=
  results.foldlM (fun stats result => result.map stats.add) { MergeStats.default with workers := p.started }

inductive Stage
  | called
  | planning (pass : Pass)
  | writing (pass : Pass)
  | flushing (stats : MergeStats)
  | returned (result : Option MergeStats)

structure State where
  shared : Shared
  stage : Stage

inductive Action
  | check (threads : ℕ)
  | work (w : ℕ) (m : Move)
  | join (threads : ℕ)
  | flush (ok : Bool)

def Pass.work (p : Pass) (c : Config) (io : Bool) (sh : Shared) (w : ℕ) (m : Move) : Option (Shared × Pass) :=
  if w < p.started then
    (move c io sh (p.worker w) m).map fun next => (next.1, { p with worker := Function.update p.worker w next.2 })
  else none

def next (c : Config) (s : State) : Action → Option State
  | .check threads =>
    match s.stage with
    | .called =>
      if c.tuning.accepted && s.shared.base.length == c.diff.size then
        if 0 < threads ∧ threads ≤ c.planners then some { s with stage := .planning (.new threads) } else none
      else some { s with stage := .returned none }
    | _ => none
  | .work w m =>
    match s.stage with
    | .planning p => (p.work c false s.shared w m).map fun next => ⟨next.1, .planning next.2⟩
    | .writing p => (p.work c true s.shared w m).map fun next => ⟨next.1, .writing next.2⟩
    | _ => none
  | .join threads =>
    match s.stage with
    | .planning p =>
      p.results.bind fun results =>
        match p.stats results with
        | none => some { s with stage := .returned none }
        | some plan =>
          if 0 < threads ∧ threads ≤ c.writers plan then
            some ⟨{ s.shared with next := 0 }, .writing (.new threads)⟩
          else none
    | .writing p =>
      p.results.map fun results =>
        match p.stats results with
        | none => { s with stage := .returned none }
        | some stats => { s with stage := .flushing stats }
    | _ => none
  | .flush ok =>
    match s.stage with
    | .flushing stats => some { s with stage := .returned (if ok then some stats else none) }
    | _ => none

def initial : State := ⟨⟨c.base, 0, false, false⟩, .called⟩

def system : Library.System State Action where
  initial s := s = initial c
  next := next c

end Fcvm.Merge
