import Fcvm.FleetCore.State

/-! Relaunches and races, and which GPUs are out of rotation (`fleet/core/src/apply.rs`). -/

namespace Fcvm.FleetCore

open Std (ExtTreeMap)

variable {p : Parts}

def isQuarantined (f : Fleet p) (s : Slot p) : Bool :=
  match s.host, s.gpu with
  | some h, some g => gpuKey h g.sbdf ∈ f.quarantined
  | _, _ => false

def hostDraining (hosts : ExtTreeMap String Host) (s : Slot p) : Bool :=
  (s.host.bind fun h => hosts[h]?).any Host.draining

def hostStays (hosts : ExtTreeMap String Host) (s : Slot p) : Bool :=
  (s.host.bind fun h => hosts[h]?).any fun h => !h.draining

def bump (s : Slot p) (sender : String) (now : ℕ) : Slot p :=
  { s with
    generation := s.generation + 1
    lastRelaunch := some ⟨s.generation + 1, now, sender, none, ∅⟩ }

def isCurrent (s : Slot p) : Bool := s.observed.phase = .running && s.generation ≤ s.observed.generation

/-- A half is done when every tile still in it has its first frame: its time is the slowest tile's click to first
frame, less that tile's capacity wait. -/
def finishHalf (h : HalfRace) (startedAt : ℕ) (last : Option ℕ) (now : ℕ) : HalfRace :=
  if h.doneAt.isSome || h.tiles.isEmpty then h
  else if h.tiles.toList.any fun e => e.2.firstFrameAt.isNone then h
  else
    { h with
      doneAt := some now
      last := last
      timeMs := (h.tiles.toList.map fun e => e.2.firstFrameAt.getD 0 - startedAt - e.2.capacityWaitMs).max?
      capacityWaitMs := (h.tiles.toList.map fun e => e.2.capacityWaitMs).max?.getD 0 }

/-- A half that is not done stops waiting for the tiles that leave; one that then has every remaining tile finished
is done now. -/
def dropTiles (leaves : ℕ → Bool) (startedAt now : ℕ) (h : HalfRace) : HalfRace :=
  if h.doneAt.isSome then h
  else
    let tiles := h.tiles.filter fun n t => !leaves n || t.firstFrameAt.isSome
    finishHalf { h with tiles := tiles, dropped := h.dropped + (h.tiles.size - tiles.size) } startedAt h.last now

def dropFromRaces (leaving : Slot p → Bool) (now : ℕ) (f : Fleet p) : Fleet p :=
  let gone (n : ℕ) : Bool := f.slots[n]?.any leaving
  { f with races := f.races.map fun r => { r with fcvm := dropTiles gone r.startedAt now r.fcvm } }

def dropMissingFromRaces (now : ℕ) (f : Fleet p) : Fleet p :=
  { f with
    races := f.races.map fun r =>
      { r with
        fcvm := dropTiles (fun n => n ∉ f.slots) r.startedAt now r.fcvm
        ec2 := dropTiles (fun n => n ∉ f.ec2) r.startedAt now r.ec2 } }

def HalfRace.waits (h : HalfRace) : Bool := h.doneAt.isNone && !h.tiles.isEmpty

def raceRunning (f : Fleet p) : Bool := f.races.getLast?.any fun r => r.fcvm.waits || r.ec2.waits

def tileName : Half → ℕ → String
  | .fcvm, k => "fcvm:" ++ toString (k + 1)
  | .ec2, k => "ec2:" ++ toString (k + 1)

def newest {α : Type} (bound : ℕ) (l : List α) : List α := l.drop (l.length - bound)

def newTile (tile : String) (generation : ℕ) : RaceTile := ⟨tile, generation, none, ∅, 0, none⟩

def relaunches (f : Fleet p) (s : Slot p) : Bool := !hostDraining f.hosts s && s.claim.isNone

/-- A race: every tile relaunches at once (draining hosts and claimed GPUs excepted), and every placed tile is
timed. -/
def startRace (c : Config) (sender : String) (now : ℕ) (f : Fleet p) : Fleet p :=
  let fcvm : HalfRace :=
    { HalfRace.new with
      tiles := f.slots.filterMap fun _ s =>
        if relaunches f s then s.position.map fun k => newTile (tileName .fcvm k) (s.generation + 1) else none
      sittingOut := f.slots.toList.filterMap fun e =>
        if e.2.claim.any fun k => k.borrowed.isSome then e.2.position.map (tileName .fcvm) else none }
  -- every EC2 tile races, also one still waiting for capacity
  let ec2 : HalfRace :=
    { HalfRace.new with
      tiles := f.ec2.map fun n s =>
        newTile ((s.position.map (tileName .ec2)).getD (ec2Name n)) (s.generation + 1) }
  { f with
    slots := f.slots.map fun _ s => if relaunches f s then bump s sender now else s
    ec2 := f.ec2.map fun _ s => bump s sender now
    raceCount := f.raceCount + 1
    races := newest MAX_RACES (f.races ++ [⟨f.raceCount + 1, now, sender, fcvm, ec2⟩])
    cooldownUntil := some (now + c.restartCooldownSecs * 1000)
    nextRaceAt := match c.raceIntervalSecs with
      | some s => some (now + s * 1000)
      | none => f.nextRaceAt }

end Fcvm.FleetCore
