import Fcvm.Library.System

namespace Fcvm.OutputWriter

open Library

inductive OutputMessage where
  | line (stream content : String)
  | shutdown
  deriving DecidableEq

/-- What happens to the connections, which are named by the attempts that made them. -/
inductive Entry where
  | reconnect
  | began (attempt : ℕ)
  | connected (attempt : ℕ)
  | writeFailed (attempt : ℕ)
  | reset (attempt : ℕ)
  | dropped (attempt : ℕ)
  deriving DecidableEq

inductive Phase where
  | start
  | starting
  | top
  /-- In `try_reconnect`, before the attempt of this number; `explicit` if it was asked for. -/
  | trying (attempt : ℕ) (explicit : Bool)
  | connecting (attempt : ℕ) (explicit : Bool)
  | rearm
  | writingPending (data : String)
  | idle
  | writing (data : String)
  | waiting
  | waitingAtFirst
  | clearing
  | ended
  deriving DecidableEq

def ATTEMPTS : ℕ := 30

structure State where
  phase : Phase
  rx : List OutputMessage
  closed : Bool
  reconnectFlag : Bool
  permit : Bool
  notifying : ℕ
  stream : Option ℕ
  everConnected : Bool
  pending : Option String
  attempts : ℕ
  resets : ℕ
  log : List Entry
  deriving DecidableEq

namespace State

def drop (s : State) (reasons : ℕ → List Entry) : State :=
  { s with stream := none, log := (s.stream.elim [] fun n => .dropped n :: reasons n) ++ s.log }

def signalled (s : State) (pending : Option String) : State :=
  { s.drop fun _ => [] with permit := false, pending := pending, phase := .top }

def begin (s : State) (phase : Phase) : State :=
  { s with phase := phase, attempts := s.attempts + 1, log := .began s.attempts :: s.log }

def connect (s : State) : State :=
  { s with phase := .top, stream := some (s.attempts - 1), everConnected := true,
           log := .connected (s.attempts - 1) :: s.log }

end State

inductive Choice where
  | ok
  | fail
  | signal
  | reset
  | timeout
  deriving DecidableEq

def writerStep (s : State) : Choice → Option State
  | choice =>
    match s.phase, choice with
    | .start, .ok => some (s.begin .starting)
    | .starting, .ok => some s.connect
    | .starting, .fail => some { s with phase := .top }
    | .top, .ok =>
      if s.reconnectFlag then some { s.drop fun _ => [] with reconnectFlag := false, phase := .trying 1 true }
      else
        match s.stream, s.pending with
        | some _, some data => some { s with phase := .writingPending data }
        | some _, none => some { s with phase := .idle }
        | none, _ => some { s with phase := if s.everConnected then .waiting else .waitingAtFirst }
    | .trying attempt explicit, .ok => some (s.begin (.connecting attempt explicit))
    | .connecting _ _, .ok => some s.connect
    | .connecting attempt explicit, .fail =>
      some { s with
        phase := if attempt < ATTEMPTS then .trying (attempt + 1) explicit else if explicit then .rearm else .top }
    | .rearm, .ok => some { s with reconnectFlag := true, phase := .top }
    | .writingPending _, .ok => some { s with pending := none, phase := .idle }
    | .writingPending _, .fail => some { s.drop fun n => [.writeFailed n] with phase := .top }
    | .writingPending _, .signal => if s.permit then some (s.signalled s.pending) else none
    | .idle, .ok =>
      match s.rx with
      | .line stream content :: rx => some { s with rx := rx, phase := .writing (stream ++ ":" ++ content ++ "\n") }
      | .shutdown :: rx => some { s with rx := rx, phase := .ended }
      | [] => if s.closed then some { s with phase := .ended } else none
    | .idle, .signal => if s.permit then some (s.signalled s.pending) else none
    | .idle, .reset => some { s.drop fun n => [.reset n] with resets := s.resets + 1, phase := .top }
    | .writing _, .ok => some { s with phase := .top }
    | .writing data, .fail => some { s.drop fun n => [.writeFailed n] with pending := some data, phase := .top }
    | .writing data, .signal => if s.permit then some (s.signalled (some data)) else none
    | .waiting, .signal => if s.permit then some { s with permit := false, phase := .top } else none
    | .waiting, .timeout => some { s with phase := .top }
    | .waitingAtFirst, .signal => if s.permit then some { s with permit := false, phase := .clearing } else none
    | .waitingAtFirst, .timeout => some { s with phase := .clearing }
    | .clearing, .ok => some { s with reconnectFlag := false, phase := .trying 1 false }
    | _, _ => none

inductive Action where
  | writer (choice : Choice)
  | call
  | notify
  | send (message : OutputMessage)
  | close

def step (s : State) : Action → Option State
  | .writer choice => writerStep s choice
  | .call => some { s with reconnectFlag := true, notifying := s.notifying + 1, log := .reconnect :: s.log }
  | .notify => if 0 < s.notifying then some { s with permit := true, notifying := s.notifying - 1 } else none
  | .send message => if s.closed then none else some { s with rx := s.rx ++ [message] }
  | .close => some { s with closed := true }

def State.initial : State where
  phase := .start
  rx := []
  closed := false
  reconnectFlag := false
  permit := false
  notifying := 0
  stream := none
  everConnected := false
  pending := none
  attempts := 0
  resets := 0
  log := []

def outputWriter : System State Action where
  initial s := s = .initial
  next := step

end Fcvm.OutputWriter
