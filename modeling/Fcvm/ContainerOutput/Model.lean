import Mathlib.Logic.Function.Basic
import Fcvm.Library.Lines
import Fcvm.OutputWriter.Model

namespace Fcvm.ContainerOutput

open Library

abbrev Bytes := List UInt8

abbrev Line := String × String

structure Config where
  logs : Bool
  nonBlockingOutput : Bool
  emitOutput : Bool

inductive Phase where
  /-- In `accept_unless_drained`: for the first connection, after an end, or after a reconnect signal. -/
  | accepting
  | reading
  | finished
  deriving DecidableEq

structure Listener where
  phase : Phase
  conn : Option ℕ
  taken : ℕ
  ended : Bool
  lineBytes : Bytes
  count : ℕ
  draining : Bool
  drain : Bool
  permit : Bool
  logged : List Line
  printed : List (Bool × String)
  deriving DecidableEq

def Listener.initial : Listener where
  phase := .accepting
  conn := none
  taken := 0
  ended := false
  lineBytes := []
  count := 0
  draining := false
  drain := false
  permit := false
  logged := []
  printed := []

def splitLine (text : String) : Option Line :=
  (splitOnce ':' (trimEnd text.toList)).map fun p => (String.ofList p.1, String.ofList p.2)

def Listener.line (cfg : Config) (utf8Lossy : Utf8Lossy) (room : Bool) (l : Listener) : Listener :=
  let text := utf8Lossy.decode l.lineBytes
  let l := { l with lineBytes := [], count := 0 }
  match splitLine text with
  | none => l
  | some (stream, content) =>
    { l with
      printed :=
        if stream ≠ "heartbeat" ∧ cfg.emitOutput ∧ (¬ cfg.nonBlockingOutput ∨ room) then
          l.printed ++ [(stream == "stdout", content)]
        else l.printed
      logged := if cfg.logs then l.logged ++ [(stream, content)] else l.logged }

def Listener.switch (l : Listener) (conn : ℕ) : Listener :=
  { l with phase := .reading, conn := some conn, taken := 0, ended := false, lineBytes := [], count := 0 }

inductive HostChoice where
  /-- `read_until` takes a byte; `room` says whether the channel of the printing thread has room. -/
  | byte (room : Bool)
  | eof (room : Bool)
  | readError
  | accept
  | acceptError
  | notified
  | drained
  | nothingQueued

def listenerStep (cfg : Config) (utf8Lossy : Utf8Lossy) (written : ℕ → Bytes) (queue : List ℕ) (l : Listener) :
    HostChoice → Option (Listener × List ℕ)
  | .byte room =>
    match l.phase, l.conn with
    | .reading, some n =>
      if l.ended then none
      else
        (written n)[l.taken]?.map fun b =>
          let l := { l with taken := l.taken + 1, lineBytes := l.lineBytes ++ [b], count := l.count + 1 }
          (if b = 0x0A then l.line cfg utf8Lossy room else l, queue)
    | _, _ => none
  | .eof room =>
    match l.phase with
    | .reading =>
      if l.count = 0 then
        some ({ l with ended := true, phase := if l.draining then .finished else .accepting }, queue)
      else some ({ l.line cfg utf8Lossy room with ended := true }, queue)
    | _ => none
  | .readError => if l.phase = .reading then some ({ l with phase := .finished }, queue) else none
  | .accept =>
    if l.phase = .accepting ∨ l.phase = .reading ∧ ¬ l.draining then
      match queue with
      | n :: queue => some (l.switch n, queue)
      | [] => none
    else none
  | .acceptError =>
    if l.phase = .accepting ∨ l.phase = .reading ∧ ¬ l.draining then some ({ l with phase := .finished }, queue)
    else none
  | .notified =>
    if l.phase = .reading ∧ ¬ l.draining ∧ l.permit then
      some ({ l with permit := false, phase := .accepting, count := 0 }, queue)
    else none
  | .drained =>
    if l.phase = .reading ∧ ¬ l.draining ∧ l.drain then some ({ l with draining := true, count := 0 }, queue) else none
  | .nothingQueued =>
    if l.phase = .accepting ∧ l.drain then some ({ l with phase := .finished }, queue) else none

/-- The writer of the guest, the listener of the host, and the connections between them, which are named by the attempts
that made them. -/
structure World where
  writer : OutputWriter.State
  progress : ℕ
  written : ℕ → Bytes
  sent : List Line
  arrived : ℕ
  queue : List ℕ
  listener : Listener

def writing (s : OutputWriter.State) : Option String :=
  match s.phase with
  | .writing data => some data
  | .writingPending data => some data
  | _ => none

def World.write (w : World) (bytes : Bytes) : World :=
  match w.writer.stream with
  | some n => { w with written := Function.update w.written n (w.written n ++ bytes) }
  | none => w

inductive Action where
  | guest (action : OutputWriter.Action)
  | progress (count : ℕ)
  | arrive (attempt : ℕ)
  | host (choice : HostChoice)
  | drain
  | signal

def World.completed (w : World) : OutputWriter.Action → Bytes
  | .writer .ok => (writing w.writer).elim [] fun data => (utf8 data).drop w.progress
  | _ => []

def sentBy : OutputWriter.Action → List Line
  | .send (.line stream content) => [(stream, content)]
  | _ => []

def progressAfter (w : World) : OutputWriter.Action → ℕ
  | .writer _ => 0
  | _ => w.progress

def step (cfg : Config) (utf8Lossy : Utf8Lossy) (w : World) : Action → Option World
  | .guest action =>
    (OutputWriter.step w.writer action).map fun writer =>
      { w.write (w.completed action) with
        writer := writer, progress := progressAfter w action, sent := w.sent ++ sentBy action }
  | .progress count =>
    (writing w.writer).bind fun data =>
      if w.progress + count < (utf8 data).length then
        some { w.write (((utf8 data).drop w.progress).take count) with progress := w.progress + count }
      else none
  | .arrive attempt =>
    if w.arrived ≤ attempt ∧ attempt < w.writer.attempts then
      some { w with arrived := attempt + 1, queue := w.queue ++ [attempt] }
    else none
  | .host choice =>
    (listenerStep cfg utf8Lossy w.written w.queue w.listener choice).map fun r =>
      { w with listener := r.1, queue := r.2 }
  | .drain => some { w with listener := { w.listener with drain := true } }
  | .signal => some { w with listener := { w.listener with permit := true } }

def World.initial : World where
  writer := .initial
  progress := 0
  written := fun _ => []
  sent := []
  arrived := 0
  queue := []
  listener := .initial

def containerOutput (cfg : Config) (utf8Lossy : Utf8Lossy) : System World Action where
  initial w := w = .initial
  next := step cfg utf8Lossy

end Fcvm.ContainerOutput
