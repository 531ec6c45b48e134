import Fcvm.Fleet.Quarantine
import Fcvm.Library.System

namespace Fcvm.Fleet

structure StoreCmd where
  bytes : Option State
  ack : Option ℕ

/-- The writer task: the commands sent to it, the newest state not stored yet, and while it is at a round the acks it
answers at the end. -/
structure Writer where
  queue : List StoreCmd
  unwritten : Option State
  busy : Option (List ℕ)
  answers : ℕ → Option Bool

namespace Writer

def new : Writer := ⟨[], none, none, fun _ => none⟩

def newest (unwritten : Option State) (cmds : List StoreCmd) : Option State :=
  cmds.foldl (fun u c => c.bytes.or u) unwritten

def take (x : Writer) (n : ℕ) : Writer :=
  { x with
    queue := x.queue.drop n
    unwritten := newest x.unwritten (x.queue.take n)
    busy := some ((x.queue.take n).filterMap StoreCmd.ack) }

def answer (x : Writer) (acks : List ℕ) : Writer :=
  { x with
    busy := none
    answers := fun a => if a ∈ acks then some x.unwritten.isNone else x.answers a }

end Writer

structure Actor where
  state : State
  agents : AList fun _ : ℕ => String
  stored : ℕ
  unacked : List (GpuId × Option ℕ × ℕ)
  quarantineWrite : Option (ℕ × ℕ)

structure Coordinator where
  actor : Option Actor
  writer : Writer
  nextAck : ℕ
  disk : Option State
  diskVersion : ℕ
  clock : ℕ
  applied : List (GpuId × ℕ × ℕ)

namespace Coordinator

variable (k : Coordinator) (a : Actor)

def apply (e : State.Event) (now moved : ℕ) : Coordinator :=
  { k with
    actor := some { a with state := a.state.apply e now k.clock moved }
    clock := k.clock + 1 }

def quarantine (g : GpuId) (error : String) (report now moved : ℕ) : Coordinator :=
  let state := a.state.apply (.agentQuarantine g error (some report)) now k.clock moved
  { k with
    actor := some { a with state := state, unacked := a.unacked ++ [(g, some report, state.version)] }
    clock := k.clock + 1
    applied := (g, report, k.clock) :: k.applied }

/-- `Cmd::AgentHello`: the new connection replaces the host's old one. -/
def agentHello (conn : ℕ) (host : String) (now moved : ℕ) : Coordinator :=
  let others : AList fun _ : ℕ => String :=
    ⟨a.agents.entries.filter fun e => e.2 ≠ host, a.agents.nodupKeys.sublist List.filter_sublist⟩
  k.apply { a with agents := others.insert conn host } .other now moved

/-- `Cmd::AgentMsg`: a message of a connection that is still its host's. -/
def agentMsg (conn : ℕ) (l : Line) (now moved : ℕ) : Coordinator :=
  match a.agents.lookup conn with
  | none => k
  | some host =>
    match l with
    | .quarantine sbdf error report => k.quarantine a ⟨host, sbdf⟩ error report now moved
    | _ => k.apply a .other now moved

def agentClosed (conn : ℕ) (now moved : ℕ) : Coordinator :=
  if conn ∈ a.agents then k.apply { a with agents := a.agents.erase conn } .other now moved else k

def send (cmd : Option StoreCmd) (answer : Option Bool) : Coordinator :=
  { k with
    nextAck := k.nextAck + 1
    writer :=
      { k.writer with
        queue := k.writer.queue ++ cmd.toList
        answers := Function.update k.writer.answers k.nextAck answer } }

def store (barrier serialized : Bool) : Actor × Coordinator :=
  if a.state.version = a.stored then
    if barrier then (a, k.send (some ⟨none, some k.nextAck⟩) none) else (a, k.send (some ⟨none, none⟩) (some true))
  else if serialized then
    ({ a with stored := a.state.version }, k.send (some ⟨some a.state, some k.nextAck⟩) none)
  else (a, k.send none (some false))

def storeTick (serialized : Bool) : Coordinator :=
  if a.quarantineWrite.isNone ∧ a.unacked ≠ [] then
    let (a', k') := k.store a true serialized
    { k' with actor := some { a' with quarantineWrite := some (a.state.version, k.nextAck) } }
  else
    let (a', k') := k.store a false serialized
    { k' with actor := some a' }

def shutdownStore (serialized : Bool) : Coordinator :=
  let (a', k') := k.store a true serialized
  { k' with actor := some a' }

def written : Option (Coordinator × List (GpuId × Option ℕ × ℕ)) :=
  a.quarantineWrite.bind fun (version, ack) =>
    (k.writer.answers ack).map fun stored =>
      if stored then
        ({ k with actor := some { a with quarantineWrite := none, unacked := a.unacked.filter (version < ·.2.2) } },
          a.unacked.filter (·.2.2 ≤ version))
      else ({ k with actor := some { a with quarantineWrite := none } }, [])

def connOf (host : String) : Option ℕ := (a.agents.entries.find? (·.2 = host)).map (·.1)

def land (bytes : State) : Coordinator := { k with disk := some bytes, diskVersion := bytes.version }

def writerFinish (acks : List ℕ) (ok : Bool) : Coordinator :=
  match k.writer.unwritten with
  | none => { k with writer := k.writer.answer acks }
  | some bytes =>
    if ok then { k.land bytes with writer := { k.writer with unwritten := none }.answer acks }
    else { k with writer := k.writer.answer acks }

def kill : Coordinator := { k with actor := none, writer := .new }

def resumes : State := (k.disk.map State.resumed).getD .new

def restart (moved : ℕ) : Coordinator :=
  { k with
    actor := some ⟨{ k.resumes with version := k.resumes.version + moved }, ∅, k.resumes.version, [], none⟩
    diskVersion := k.resumes.version }

end Coordinator

structure Conn where
  host : String
  up : List Line
  down : List Frame
  cut : Bool
  greeted : Bool
  served : Bool

def Conn.push (c : Conn) (l : Line) : Conn := if c.cut then c else { c with up := c.up ++ [l] }

structure Agent where
  replay : Replay
  conn : Option ℕ

structure World where
  agents : String → Agent
  conns : ℕ → Option Conn
  nextConn : ℕ
  nextReport : ℕ
  coordinator : Coordinator
  made : List (GpuId × ℕ)
  acked : List (GpuId × ℕ)

inductive Step where
  | report (host : String) (sbdf : Sbdf) (error : String)
  | line (host : String) (l : Line)
  | connect (host : String) (lines : List Line)
  | lose (host : String)
  | frame (host : String)
  | send (conn : ℕ) (f : Frame)
  | cut (conn : ℕ) (up down : ℕ)
  | take (conn : ℕ) (now moved : ℕ)
  | close (conn : ℕ) (now moved : ℕ)
  | release (gpu : GpuId) (now moved : ℕ)
  | other (now moved : ℕ)
  | storeTick (serialized : Bool)
  | written
  | shutdownStore (serialized : Bool)
  | writerTake (n : ℕ)
  | writerLand
  | writerFinish (ok : Bool)
  | kill
  | restart (moved : ℕ)

namespace World

variable (w : World)

def say (host : String) (l : Line) : World :=
  let a := w.agents host
  { w with
    agents := Function.update w.agents host { a with replay := a.replay.note l }
    conns :=
      match a.conn with
      | none => w.conns
      | some c => Function.update w.conns c ((w.conns c).map (·.push l)) }

def tell (a : Actor) (conns : ℕ → Option Conn) (u : GpuId × Option ℕ × ℕ) : ℕ → Option Conn :=
  match Coordinator.connOf a u.1.host with
  | none => conns
  | some c =>
    Function.update conns c ((conns c).map fun k => { k with down := k.down ++ [.quarantineStored u.1.sbdf u.2.1] })

def next : Step → Option World
  | .report host sbdf error =>
    some { w.say host (.quarantine sbdf error w.nextReport) with
      nextReport := w.nextReport + 1
      made := (⟨host, sbdf⟩, w.nextReport) :: w.made }
  | .line host l =>
    match l with
    | .hello named => if named = host then some (w.say host l) else none
    | .quarantine _ _ _ => none
    | l => some (w.say host l)
  | .connect host lines =>
    if (w.agents host).conn = none ∧ lines.isPerm (w.agents host).replay.lines ∧
        lines.head? = ((w.agents host).replay.lines).head? then
      some { w with
        agents := Function.update w.agents host { w.agents host with conn := some w.nextConn }
        conns := Function.update w.conns w.nextConn
          (some ⟨host, lines, [], false, false, w.coordinator.actor.isSome⟩)
        nextConn := w.nextConn + 1 }
    else none
  | .lose host => some { w with agents := Function.update w.agents host { w.agents host with conn := none } }
  | .frame host => do
    let c ← (w.agents host).conn
    let k ← w.conns c
    match k.down with
    | [] => none
    | f :: down =>
      some { w with
        agents := Function.update w.agents host
          { w.agents host with replay := (w.agents host).replay.coordinatorFrame f }
        conns := Function.update w.conns c (some { k with down := down })
        acked :=
          match f with
          | .quarantineStored sbdf (some r) => (⟨host, sbdf⟩, r) :: w.acked
          | _ => w.acked }
  | .send c f =>
    match f with
    | .quarantineStored _ _ => none
    | f => do
      let a ← w.coordinator.actor
      let k ← w.conns c
      if c ∈ a.agents then some { w with conns := Function.update w.conns c (some { k with down := k.down ++ [f] }) }
      else none
  | .cut c up down => do
    let k ← w.conns c
    some { w with
      conns := Function.update w.conns c (some { k with up := k.up.take up, down := k.down.take down, cut := true }) }
  | .take c now moved => do
    let a ← w.coordinator.actor
    let k ← w.conns c
    if k.served then
      match k.up with
      | [] => none
      | l :: up =>
        if k.greeted then
          some { w with
            conns := Function.update w.conns c (some { k with up := up })
            coordinator := w.coordinator.agentMsg a c l now moved }
        else
          match l with
          | .hello host =>
            some { w with
              conns := Function.update w.conns c (some { k with up := up, greeted := true })
              coordinator := w.coordinator.agentHello a c host now moved }
          -- a connection that does not begin with its hello is not served
          | _ => some { w with conns := Function.update w.conns c (some { k with up := up, served := false }) }
    else none
  | .close c now moved => do
    let a ← w.coordinator.actor
    let k ← w.conns c
    if k.served then
      some { w with
        conns := Function.update w.conns c (some { k with served := false })
        coordinator := w.coordinator.agentClosed a c now moved }
    else none
  | .release g now moved => do
    let a ← w.coordinator.actor
    some { w with coordinator := w.coordinator.apply a (.releaseQuarantine g) now moved }
  | .other now moved => do
    let a ← w.coordinator.actor
    some { w with coordinator := w.coordinator.apply a .other now moved }
  | .storeTick serialized => do
    let a ← w.coordinator.actor
    some { w with coordinator := w.coordinator.storeTick a serialized }
  | .written => do
    let a ← w.coordinator.actor
    let (k, told) ← w.coordinator.written a
    some { w with coordinator := k, conns := told.foldl (tell a) w.conns }
  | .shutdownStore serialized => do
    let a ← w.coordinator.actor
    some { w with coordinator := w.coordinator.shutdownStore a serialized }
  | .writerTake n =>
    if w.coordinator.actor.isSome ∧ w.coordinator.writer.busy = none ∧ 0 < n ∧
      n ≤ w.coordinator.writer.queue.length then
      some { w with coordinator := { w.coordinator with writer := w.coordinator.writer.take n } }
    else none
  | .writerLand => do
    let _ ← w.coordinator.writer.busy
    let bytes ← w.coordinator.writer.unwritten
    some { w with coordinator := w.coordinator.land bytes }
  | .writerFinish ok => do
    let acks ← w.coordinator.writer.busy
    some { w with coordinator := w.coordinator.writerFinish acks ok }
  | .kill =>
    some { w with
      coordinator := w.coordinator.kill
      conns := fun c => (w.conns c).map fun k => { k with up := [], served := false } }
  | .restart moved =>
    if w.coordinator.actor.isNone then some { w with coordinator := w.coordinator.restart moved } else none

def initial : World where
  agents _ := ⟨.empty, none⟩
  conns _ := none
  nextConn := 0
  nextReport := 0
  coordinator := ⟨none, .new, 0, none, 0, 0, []⟩
  made := []
  acked := []

end World

/-- Agents, their connections and the coordinator with its writer, killed and started again at any step. -/
def composition : Library.System World Step where
  initial w := w = World.initial
  next := World.next

end Fcvm.Fleet
