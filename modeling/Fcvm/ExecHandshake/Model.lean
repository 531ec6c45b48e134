import Fcvm.Library.Pipe
import Fcvm.Library.System

namespace Fcvm.ExecHandshake

open Library

abbrev Bytes := List UInt8

def newline : UInt8 := 10

-- "ACK2", "ACK" and "GO"
def HANDSHAKE_ACK : Bytes := [65, 67, 75, 50]

def HANDSHAKE_ACK_V1 : Bytes := [65, 67, 75]

def HANDSHAKE_GO : Bytes := [71, 79]

structure TtySize where
  rows : ℕ
  cols : ℕ
  deriving DecidableEq

structure ExecRequest where
  command : List String
  inContainer : Bool
  interactive : Bool
  tty : Bool
  ttySize : Option TtySize
  env : List String
  workdir : Option String
  user : Option String
  privileged : Bool
  detach : Bool
  deriving DecidableEq

structure Serde where
  toString : ExecRequest → Bytes
  fromSlice : Bytes → Except String ExecRequest
  rejectionLine : String → Bytes
  parseRejection : Bytes → Option String

structure Serde.Lawful (serde : Serde) (request : ExecRequest) : Prop where
  line : newline ∉ serde.toString request
  read : serde.fromSlice (serde.toString request) = .ok request

inductive NoByte where
  | interrupted
  | timedOut
  | closed
  | failed
  deriving DecidableEq

inductive Read where
  | byte (b : UInt8)
  | none (reason : NoByte)
  deriving DecidableEq

def MAX_ACK_ATTEMPTS : ℕ := 5

def MAX_ACK_LINE_LENGTH : ℕ := 65536

inductive NotAcked where
  | timedOut
  | armFailed
  | closed
  | readError
  deriving DecidableEq

inductive Rejected where
  | tooLong
  | olderProtocol
  | agent (reason : String)
  | unexpected (line : Bytes)
  deriving DecidableEq

inductive AckOutcome where
  | acked
  | notAcked (reason : NotAcked)
  | rejected (reason : Rejected)
  deriving DecidableEq

variable (serde : Serde)

def ackOutcome (line : Bytes) : AckOutcome :=
  if line = HANDSHAKE_ACK then .acked
  else if line = HANDSHAKE_ACK_V1 then .rejected .olderProtocol
  else
    match serde.parseRejection line with
    | some reason => .rejected (.agent reason)
    | none => .rejected (.unexpected line)

def readAckLine (line : Bytes) : Read → Bytes ⊕ AckOutcome
  | .byte b =>
    if b = newline then .inr (ackOutcome serde line)
    else if MAX_ACK_LINE_LENGTH ≤ line.length then .inr (.rejected .tooLong)
    else .inl (line ++ [b])
  | .none .interrupted => .inl line
  | .none .timedOut => .inr (.notAcked .timedOut)
  | .none .closed => .inr (.notAcked .closed)
  | .none .failed => .inr (.notAcked .readError)

inductive CallError where
  | connect
  | setWriteTimeout
  | sendFailed
  | neverAcknowledged (reason : NotAcked)
  | rejected (reason : Rejected)
  | diedSendingGo
  | setSessionTimeouts
  deriving DecidableEq

inductive Client where
  | connecting (attempt : ℕ)
  | connected (attempt : ℕ)
  | sending (attempt : ℕ) (rest : Bytes)
  | waiting (attempt : ℕ) (line : Bytes)
  | going (rest : Bytes)
  | resuming
  | returned (result : Except CallError Unit)

def Client.retry (attempt : ℕ) (error : CallError) : Client :=
  if attempt < MAX_ACK_ATTEMPTS then .connecting (attempt + 1) else .returned (.error error)

def Client.afterAck (attempt : ℕ) : AckOutcome → Client
  | .acked => .going (HANDSHAKE_GO ++ [newline])
  | .notAcked reason => .retry attempt (.neverAcknowledged reason)
  | .rejected reason => .returned (.error (.rejected reason))

def Client.afterRead (attempt : ℕ) : Bytes ⊕ AckOutcome → Client
  | .inl line => .waiting attempt line
  | .inr outcome => .afterAck attempt outcome

def Client.toWrite : Client → Option Bytes
  | .sending _ rest => some rest
  | .going rest => some rest
  | _ => none

def Client.afterWrite : Client → Bytes → Client
  | .sending attempt _, [] => .waiting attempt []
  | .sending attempt _, rest => .sending attempt rest
  | .going _, [] => .resuming
  | .going _, rest => .going rest
  | client, _ => client

def MAX_EXEC_LINE_LENGTH : ℕ := 1048576

def MAX_GO_LINE_LENGTH : ℕ := 16

inductive LineReadError where
  | timedOut
  | closed
  | tooLong
  | failed
  deriving DecidableEq

def readLineBounded (maxLen : ℕ) (line : Bytes) : Read → Bytes ⊕ Except LineReadError Bytes
  | .byte b =>
    if b = newline then .inr (.ok line)
    else if maxLen ≤ line.length then .inr (.error .tooLong)
    else .inl (line ++ [b])
  | .none .interrupted => .inl line
  | .none .timedOut => .inr (.error .timedOut)
  | .none .closed => .inr (.error .closed)
  | .none .failed => .inr (.error .failed)

inductive Guest where
  | reading (line : Bytes)
  | rejecting (rest : Bytes)
  | acking (request : ExecRequest) (rest : Bytes)
  | go (request : ExecRequest) (line : Bytes)
  | started (request : ExecRequest)
  | closed
  deriving DecidableEq

def Guest.reject (reason : String) : Guest := .rejecting (serde.rejectionLine reason ++ [newline])

def Guest.afterRequest (line : Bytes) : Guest :=
  match serde.fromSlice line with
  | .error e => .reject serde ("Invalid request: " ++ e)
  | .ok request =>
    if request.command.isEmpty then .reject serde "Empty command"
    else .acking request (HANDSHAKE_ACK ++ [newline])

def Guest.afterRead : Guest → Read → Option Guest
  | .reading line, read =>
    match readLineBounded MAX_EXEC_LINE_LENGTH line read with
    | .inl line => some (.reading line)
    | .inr (.ok line) => some (.afterRequest serde line)
    | .inr (.error .tooLong) => some (.reject serde "Request line exceeds 1048576 bytes")
    | .inr (.error _) => some .closed
  | .go request line, read =>
    match readLineBounded MAX_GO_LINE_LENGTH line read with
    | .inl line => some (.go request line)
    | .inr (.ok line) => some (if line = HANDSHAKE_GO then .started request else .closed)
    | .inr (.error _) => some .closed
  | _, _ => none

def Guest.toWrite : Guest → Option Bytes
  | .rejecting rest => some rest
  | .acking _ rest => some rest
  | _ => none

def Guest.afterWrite : Guest → Bytes → Guest
  | .rejecting _, [] => .closed
  | .rejecting _, rest => .rejecting rest
  | .acking request _, [] => .go request []
  | .acking request _, rest => .acking request rest
  | guest, _ => guest

structure Conn where
  toGuest : Pipe UInt8
  toClient : Pipe UInt8
  guest : Guest
  deriving DecidableEq

def Conn.fresh (answer : Bytes) : Conn := ⟨⟨[], []⟩, ⟨[], answer⟩, .reading []⟩

inductive GuestEvent where
  | readByte
  | readNone (reason : NoByte)
  | write (n : ℕ)
  | writeInterrupted
  | writeFailed
  deriving DecidableEq

def Conn.next (c : Conn) : GuestEvent → Option Conn
  | .readByte => c.toGuest.read.bind fun (b, toGuest) =>
      (c.guest.afterRead serde (.byte b)).map fun guest => { c with toGuest := toGuest, guest := guest }
  | .readNone reason => (c.guest.afterRead serde (.none reason)).map fun guest => { c with guest := guest }
  | .write n => c.guest.toWrite.bind fun rest =>
      if 0 < n ∧ n ≤ rest.length then
        some { c with toClient := c.toClient.write (rest.take n), guest := c.guest.afterWrite (rest.drop n) }
      else none
  | .writeInterrupted => c.guest.toWrite.map fun _ => c
  | .writeFailed => c.guest.toWrite.map fun _ => { c with guest := .closed }

structure World where
  client : Client
  conns : List Conn

inductive Event where
  | orphaned
  | connected (answer : Bytes)
  | connectFailed
  | armed (ok : Bool)
  | write (n : ℕ)
  | writeInterrupted
  | writeFailed
  | readByte
  | readNone (reason : NoByte)
  | readUnarmed
  | guest (i : ℕ) (e : GuestEvent)
  deriving DecidableEq

def World.next (request : ExecRequest) (w : World) : Event → Option World
  | .orphaned =>
    match w.client with
    | .connecting _ => some { w with conns := .fresh [] :: w.conns }
    | _ => none
  | .connected answer =>
    match w.client with
    | .connecting attempt => some ⟨.connected attempt, .fresh answer :: w.conns⟩
    | _ => none
  | .connectFailed =>
    match w.client with
    | .connecting _ => some { w with client := .returned (.error .connect) }
    | _ => none
  | .armed ok =>
    match w.client with
    | .connected attempt => some { w with
        client := if ok then .sending attempt (serde.toString request ++ [newline])
          else .returned (.error .setWriteTimeout) }
    | .resuming => some { w with client := .returned (if ok then .ok () else .error .setSessionTimeouts) }
    | _ => none
  | .write n =>
    match w.client.toWrite, w.conns with
    | some rest, c :: conns =>
      if 0 < n ∧ n ≤ rest.length then
        some ⟨w.client.afterWrite (rest.drop n), { c with toGuest := c.toGuest.write (rest.take n) } :: conns⟩
      else none
    | _, _ => none
  | .writeInterrupted => w.client.toWrite.map fun _ => w
  | .writeFailed =>
    match w.client with
    | .sending attempt _ => some { w with client := .retry attempt .sendFailed }
    | .going _ => some { w with client := .returned (.error .diedSendingGo) }
    | _ => none
  | .readByte =>
    match w.client, w.conns with
    | .waiting attempt line, c :: conns => c.toClient.read.map fun (b, toClient) =>
        ⟨.afterRead attempt (readAckLine serde line (.byte b)), { c with toClient := toClient } :: conns⟩
    | _, _ => none
  | .readNone reason =>
    match w.client with
    | .waiting attempt line => some { w with client := .afterRead attempt (readAckLine serde line (.none reason)) }
    | _ => none
  | .readUnarmed =>
    match w.client with
    | .waiting attempt _ => some { w with client := .afterAck attempt (.notAcked .armFailed) }
    | _ => none
  | .guest i e => w.conns[i]?.bind fun c => (c.next serde e).map fun c => { w with conns := w.conns.set i c }

def system (request : ExecRequest) : System World Event where
  initial w := w = ⟨.connecting 1, []⟩
  next := World.next serde request

end Fcvm.ExecHandshake
