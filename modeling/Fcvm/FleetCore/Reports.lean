import Fcvm.FleetCore.Event
import Fcvm.FleetCore.Races

/-! What agents and the EC2 driver report: hellos, launches and health (`fleet/core/src/apply.rs`). -/

namespace Fcvm.FleetCore

open Std (ExtTreeMap)

variable {p : Parts}

def countRestore (now : ℕ) (c : Counters) : Counters :=
  let minute := now / 60000
  { c with
    restores := c.restores + 1
    restoresByMinute := match c.restoresByMinute.getLast? with
      | some (m, k) =>
        if m = minute then c.restoresByMinute.dropLast ++ [(m, k + 1)] else c.restoresByMinute ++ [(minute, 1)]
      | none => [(minute, 1)] }

def noteReport (r : SlotReport) (now : ℕ) (s : Slot p) : Slot p :=
  { s with observed := { s.observed with
      phase := r.phase
      generation := r.generation
      vm := r.vm
      frameUrl := r.frameUrl
      timings := r.timings
      error := r.error
      retryAt := r.retryInMs.map (now + ·)
      ipv6 := r.ipv6
      ipv4 := r.ipv4
      v4Port := r.v4Port
      place := r.place.orElse fun _ => s.observed.place } }

/-- A report that is not `running` clears the renderer's readings; a `running` one ends the timing of the launch it
reports. -/
def noteRunning (r : SlotReport) (now : ℕ) (s : Slot p) : Slot p :=
  if r.phase ≠ .running then { s with observed := { s.observed with readings := .none } }
  else match s.lastRelaunch with
    | some rl =>
      if rl.generation = r.generation ∧ rl.firstFrameAt = none then
        { s with lastRelaunch := some { rl with firstFrameAt := some now, phases := r.timings } }
      else s
    -- a slot that came up at a wake was never relaunched by anyone
    | none =>
      let took := r.timings["total_ms"]?.getD 0
      { s with lastRelaunch := some ⟨r.generation, now - took, "wake", some now, r.timings⟩ }

def START_LEAD_SECS : ℚ := 1 / 2

def noteFirstFrame (r : SlotReport) (now : ℕ) (t : ℚ) (s : Slot p) : Slot p :=
  { s with claim := s.claim.map fun k =>
      if k.generation = r.generation ∧ k.firstFrameAt = none then
        { k with firstFrameAt := some now, flown := p.autopilotStart k.flown (t + START_LEAD_SECS) t }
      else k }

def waitTile (n : ℕ) (r : SlotReport) (now : ℕ) (h : HalfRace) : HalfRace :=
  let since := now - (r.timings["capacity_wait_ms"]?.getD 0)
  { h with tiles := h.tiles.modify n fun t =>
      if h.doneAt = none ∧ t.firstFrameAt = none ∧ t.generation ≤ r.generation then
        { t with waitingSince := t.waitingSince.orElse fun _ => some since }
      else t }

def frameTile (n : ℕ) (r : SlotReport) (startedAt now : ℕ) (h : HalfRace) : HalfRace :=
  if h.doneAt.isSome then h
  else match h.tiles[n]? with
    | none => h
    | some t =>
      if t.firstFrameAt.isSome ∨ r.generation < t.generation then h
      else
        let t := { t with
          firstFrameAt := some now
          phases := r.timings
          capacityWaitMs := r.timings["capacity_wait_ms"]?.getD 0 }
        finishHalf { h with tiles := h.tiles.insert n t } startedAt (some n) now

def noteTile (n : ℕ) (r : SlotReport) (startedAt now : ℕ) (h : HalfRace) : HalfRace :=
  if r.phase = .waitingCapacity then waitTile n r now h
  else if r.phase = .running then frameTile n r startedAt now h
  else h

def Race.onHalf (half : Half) (g : HalfRace → HalfRace) (r : Race) : Race :=
  match half with
  | .fcvm => { r with fcvm := g r.fcvm }
  | .ec2 => { r with ec2 := g r.ec2 }

def Fleet.setSlot (half : Half) (n : ℕ) (s : Slot p) (f : Fleet p) : Fleet p :=
  match half with
  | .fcvm => { f with slots := f.slots.insert n s }
  | .ec2 => { f with ec2 := f.ec2.insert n s }

/-- An agent that reconnected with its VMs running reports generations its slot has not reached; they are adopted. -/
def adopt (r : SlotReport) (s : Slot p) : Slot p := { s with generation := max s.generation r.generation }

def reported (half : Half) (r : SlotReport) (now : ℕ) (t : ℚ) (s : Slot p) : Slot p :=
  let s := noteRunning r now (noteReport r now (if half = .fcvm then adopt r s else s))
  if r.phase = .running then noteFirstFrame r now t s else s

def observeSlot (half : Half) (n : ℕ) (host : Option String) (r : SlotReport) (now : ℕ) (f : Fleet p) : Fleet p :=
  match (f.side half)[n]? with
  | none => f
  | some s =>
    if host.isSome ∧ s.host ≠ host then f
    else
      let restored := half = .fcvm ∧ r.phase = .running ∧ s.observed.phase ≠ .running
      let f := { f with counters := if restored then countRestore now f.counters else f.counters }
      let f := f.setSlot half n (reported half r now (f.scene.tAt now) s)
      { f with races := f.races.map fun race => race.onHalf half (noteTile n r race.startedAt now) }

def observePhone (n : ℕ) (host : String) (r : SlotReport) (now : ℕ) (f : Fleet p) : Fleet p :=
  match f.phones[n]? with
  | none => f
  | some s =>
    if s.host ≠ some host then f
    else
      let restored := r.phase = .running ∧ s.observed.phase ≠ .running
      { f with
        counters := if restored then countRestore now f.counters else f.counters
        phones := f.phones.insert n (noteRunning r now (noteReport r now (adopt r s))) }

def trim (text : String) : String :=
  String.ofList ((text.toList.dropWhile isWhitespace).reverse.dropWhile isWhitespace).reverse

def noteHealth (named : Bool) (h : HealthReport p.Json) (s : Slot p) : Slot p :=
  if s.observed.phase ≠ .running then s
  else
    let gpu := match if named then none else ((p.get h.gpu "name").bind p.asStr).map trim with
      -- an EC2 tile has no inventory to name its GPU: the renderer says which one it drew on
      | some name => if name = "" ∨ s.gpu.map Gpu.name = some name then s.gpu else some ⟨"", name⟩
      | none => s.gpu
    { s with
      gpu := gpu
      observed := { s.observed with
        readings :=
          { fps := h.fps
            gpuStats := some h.gpu
            budgetFit := h.budgetFit
            renderMsMax := h.renderMsMax
            budgetEveryPixel := h.budgetEveryPixel.filter fun v => 0 < v
            bootId := h.bootId.filter fun b => b ≠ ""
            frameT := h.t } } }

def health (host : Option String) (h : HealthReport p.Json) (f : Fleet p) : Fleet p :=
  match host with
  | some host =>
    let note (s : Slot p) : Slot p := if s.host = some host then noteHealth true h s else s
    if "phone-".toList.isPrefixOf h.id.toList then
      match phoneNumber h.id with
      | some n => { f with phones := f.phones.modify n note }
      | none => f
    else match slotNumber h.id with
      | some n => { f with slots := f.slots.modify n note }
      | none => f
  | none =>
    match ec2Number h.id with
    | some n => { f with ec2 := f.ec2.modify n (noteHealth false h) }
    | none => f

def distinctGpus (seen : List String) : List Gpu → List Gpu
  | [] => []
  | g :: gs => if g.sbdf ∈ seen then distinctGpus seen gs else g :: distinctGpus (g.sbdf :: seen) gs

def freeNumber (m : ExtTreeMap ℕ (Slot p)) : ℕ :=
  (((List.range (m.size + 1)).map (· + 1)).find? fun n => n ∉ m).getD 0

def holdsGpu (m : ExtTreeMap ℕ (Slot p)) (host : String) (g : Gpu) : Bool :=
  m.toList.any fun e => e.2.host = some host && e.2.gpu = some g

def addGpu (fresh : Gpu → Slot p) (host : String) (m : ExtTreeMap ℕ (Slot p)) (g : Gpu) : ExtTreeMap ℕ (Slot p) :=
  if holdsGpu m host g then m else m.insert (freeNumber m) (fresh g)

def listed (host : String) (gpus : List Gpu) (s : Slot p) : Bool :=
  s.host ≠ some host || gpus.any fun g => some g.sbdf = s.gpu.map Gpu.sbdf

/-- What `hello` and `phone_hello` share: the host's slots whose address is not listed go, and each GPU listed gets a
slot unless one holds it. -/
def assignGpus (fresh : Gpu → Slot p) (host : String) (gpus : List Gpu) (m : ExtTreeMap ℕ (Slot p)) :
    ExtTreeMap ℕ (Slot p) :=
  gpus.foldl (addGpu fresh host) (m.filter fun _ s => listed host gpus s)

def wallGpus (h : Hello) : List Gpu := (distinctGpus [] h.gpus).take h.capacity

def phoneGpus (h : Hello) : List Gpu := distinctGpus (h.gpus.map Gpu.sbdf) h.phones

def hello (h : Hello) (now : ℕ) (f : Fleet p) : Fleet p :=
  dropMissingFromRaces now
    { f with
      slots := assignGpus (fun g => newSlot .fcvm (some h.host) (some g) now) h.host (wallGpus h) f.slots
      hosts := f.hosts.insert h.host
        { name := h.host
          arch := h.arch
          gpus := wallGpus h
          capacity := h.capacity
          draining := false
          joinedAt := now
          region := none
          aggregateUrl := none
          aggregateIpv6 := none
          aggregateIpv4 := none
          aggregateV4Port := none
          aggregatePublished := none
          phoneActions := [] }
      reclaimed := f.reclaimed.erase h.host }

def phoneHello (h : Hello) (now : ℕ) (f : Fleet p) : Fleet p :=
  { f with
    phones := assignGpus (fun g => { newSlot .fcvm (some h.host) (some g) now with phone := some .new }) h.host
      (phoneGpus h) f.phones }

end Fcvm.FleetCore
