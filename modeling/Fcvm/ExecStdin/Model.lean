import Mathlib.Algebra.Group.Nat.Defs
import Mathlib.Data.Int.Notation
import Mathlib.Data.Nat.Notation
import Fcvm.Library.System

namespace Fcvm.ExecStdin

def stdinWindow : ℕ := 256 * 1024

def ioChunk : ℕ := 64 * 1024

def limit : ℕ := 2 ^ 20

inductive Message
  | stdin (data : List UInt8)
  | stdinEof
deriving DecidableEq

inductive HostInput
  | stdin (data : List UInt8)
  | eof
deriving DecidableEq

/-- Where `forward_input` stands: `opened` is the window its loop began with. -/
inductive Forward
  | top
  | polling (opened : ℕ)
  | read (chunk : List UInt8)
  | wrote (n : ℕ)
  | ended
deriving DecidableEq

structure TerminalInput where
  waiting : List UInt8
  window : ℕ
deriving DecidableEq

namespace TerminalInput

def grant (t : TerminalInput) (bytes : ℕ) : TerminalInput := { t with window := t.window + bytes }

def wantsMore (t : TerminalInput) : Bool := decide (t.waiting.length < limit)

def offer (t : TerminalInput) (data : List UInt8) : TerminalInput := { t with waiting := t.waiting ++ data }

def nextChunk (t : TerminalInput) : Option (List UInt8 × TerminalInput) :=
  let n := min (min t.window t.waiting.length) ioChunk
  if n = 0 then none else some (t.waiting.take n, ⟨t.waiting.drop n, t.window - n⟩)

end TerminalInput

/-- `forward` has the counter of `StdinWindow`; `terminal` the chunk taken and not yet written to the socket. -/
inductive Host
  | forward (available : ℕ) (at_ : Forward)
  | terminal (input : TerminalInput) (sending : Option (List UInt8))
deriving DecidableEq

inductive StdinSink
  | pipe
  | pty
deriving DecidableEq

inductive Applying
  | waiting
  | writing (taken : ℕ) (left : List UInt8)
  | written (taken : ℕ)
  | granting (taken : ℕ)
deriving DecidableEq

/-- `input`, `delivered`, `hungUp` and `eofApplied` record what happened and are read by no step. -/
structure State where
  host : Host
  toGuest : List Message
  toHost : List ℕ
  started : Bool
  granted : Bool
  window : ℤ
  queue : List HostInput
  ended : Bool
  beyond : Bool
  stdin : Option StdinSink
  applying : Applying
  input : List UInt8
  delivered : List UInt8
  hungUp : Bool
  eofApplied : Bool
deriving DecidableEq

def initial (host : Host) (sink : StdinSink) : State where
  host := host
  toGuest := []
  toHost := []
  started := false
  granted := false
  window := stdinWindow
  queue := []
  ended := false
  beyond := false
  stdin := some sink
  applying := .waiting
  input := []
  delivered := []
  hungUp := false
  eofApplied := false

inductive Action
  | start (sent : Bool)
  | load
  | again
  | read (chunk : List UInt8)
  | write
  | spend
  | endOfInput
  | offer (data : List UInt8)
  | nextChunk
  | grant
  | readFrame
  | takeInput
  | deliver (n : ℕ)
  | close
  | reopen
  | sendGrant
deriving DecidableEq

def hostStep (s : State) : Action → Option State
  | .load =>
    match s.host with
    | .forward available .top => some { s with host := .forward available (.polling available) }
    | _ => none
  | .again =>
    match s.host with
    | .forward available (.polling _) => some { s with host := .forward available .top }
    | _ => none
  | .read chunk =>
    match s.host with
    | .forward available (.polling opened) =>
      if 0 < chunk.length ∧ chunk.length ≤ min ioChunk opened then
        some { s with host := .forward available (.read chunk), input := s.input ++ chunk }
      else none
    | _ => none
  | .write =>
    match s.host with
    | .forward available (.read chunk) =>
      some { s with host := .forward available (.wrote chunk.length), toGuest := s.toGuest ++ [.stdin chunk] }
    | .terminal input (some chunk) =>
      some { s with host := .terminal input none, toGuest := s.toGuest ++ [.stdin chunk] }
    | _ => none
  | .spend =>
    match s.host with
    | .forward available (.wrote n) => some { s with host := .forward (available - n) .top }
    | _ => none
  | .endOfInput =>
    match s.host with
    | .forward available (.polling opened) =>
      if 0 < opened then
        some { s with host := .forward available .ended, toGuest := s.toGuest ++ [.stdinEof] }
      else none
    | _ => none
  | .offer data =>
    match s.host with
    | .terminal input none =>
      if input.wantsMore then
        some { s with host := .terminal (input.offer data) none, input := s.input ++ data }
      else none
    | _ => none
  | .nextChunk =>
    match s.host with
    | .terminal input none =>
      input.nextChunk.map fun next => { s with host := .terminal next.2 (some next.1) }
    | _ => none
  | .grant =>
    match s.toHost, s.host with
    | bytes :: rest, .forward available at_ =>
      some { s with toHost := rest, host := .forward (available + bytes) at_ }
    | bytes :: rest, .terminal input none => some { s with toHost := rest, host := .terminal (input.grant bytes) none }
    | _, _ => none
  | _ => none

def readFrame (s : State) : Option State :=
  match s.toGuest with
  | [] => none
  | .stdin data :: rest =>
    let s := { s with toGuest := rest }
    if data.isEmpty then some s
    else
      let taken : ℤ := data.length
      if s.window < taken then some { s with window := s.window - taken, beyond := true }
      else some { s with window := s.window - taken, queue := s.queue ++ [.stdin data] }
  | .stdinEof :: rest =>
    let s := { s with toGuest := rest }
    if s.ended then some s else some { s with ended := true, queue := s.queue ++ [.eof] }

def takeInput (s : State) : Option State :=
  match s.applying, s.queue with
  | .waiting, .stdin data :: rest =>
    let applying := if s.stdin.isSome then Applying.writing data.length data else .written data.length
    some { s with queue := rest, applying := applying }
  | .waiting, .eof :: rest =>
    let stdin := if s.stdin = some .pipe then none else s.stdin
    some { s with queue := rest, stdin := stdin, eofApplied := true }
  | _, _ => none

def guestStep (s : State) : Action → Option State
  | .readFrame => if s.beyond then none else readFrame s
  | .takeInput => takeInput s
  | .deliver n =>
    match s.applying with
    | .writing taken left =>
      if n ≤ left.length then
        let applying := if n = left.length then Applying.written taken else .writing taken (left.drop n)
        some { s with applying := applying, delivered := s.delivered ++ left.take n }
      else none
    | _ => none
  | .close =>
    match s.applying with
    | .writing taken _ => some { s with applying := .written taken, stdin := none, hungUp := true }
    | _ => none
  | .reopen =>
    match s.applying with
    | .written taken => some { s with applying := .granting taken, window := s.window + taken }
    | _ => none
  | .sendGrant =>
    match s.applying with
    | .granting taken => some { s with applying := .waiting, toHost := s.toHost ++ [taken] }
    | _ => none
  | _ => none

def next (s : State) : Action → Option State
  | .start sent =>
    if s.started then none
    else some { s with started := true, granted := sent, toHost := if sent then [stdinWindow] else [] }
  | .readFrame => if s.started then guestStep s .readFrame else none
  | .takeInput => if s.started then guestStep s .takeInput else none
  | .deliver n => guestStep s (.deliver n)
  | .close => guestStep s .close
  | .reopen => guestStep s .reopen
  | .sendGrant => guestStep s .sendGrant
  | a => hostStep s a

def Host.initial : Host → Prop
  | .forward available at_ => available = 0 ∧ at_ = .top
  | .terminal input sending => input = ⟨[], 0⟩ ∧ sending = none

def system : Library.System State Action where
  initial s := ∃ host sink, host.initial ∧ s = initial host sink
  next := next

end Fcvm.ExecStdin
