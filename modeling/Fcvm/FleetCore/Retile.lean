import Fcvm.FleetCore.Races
import Fcvm.FleetCore.Tiling
import Fcvm.Library.Grouping

/-!
Each side's places and every slot's rectangle (`retile` of `fleet/core/src/apply.rs`): the EC2 tiles wanted are made,
a plan is drawn up of the fleet as it is, and the plan is laid.
-/

namespace Fcvm.FleetCore

open Std (ExtTreeMap ExtTreeSet)

variable {p : Parts}

/-- The slots that may be on the wall, in slot-number order: a GPU claimed from standby is left out, a borrowed wall
tile keeps its place. Asleep, nothing is placed. -/
def wallSlots (f : Fleet p) : List ℕ :=
  if f.power.state = .asleep then []
  else (f.slots.toList.filter fun e =>
    (e.2.claim.all fun k => k.borrowed.isSome) && !isQuarantined f e.2 && hostStays f.hosts e.2).map Prod.fst

def isPlaced (f : Fleet p) (n : ℕ) : Bool := f.slots[n]?.any fun s => s.position.isSome

/-- A GPU joins the wall only once its VM renders; while none of the side is on the wall every GPU joins at once. -/
def joins (f : Fleet p) (n : ℕ) : Bool :=
  !(wallSlots f).any (isPlaced f) || f.slots[n]?.any fun s => s.position.isSome || isCurrent s

def keepPlaced (f : Fleet p) (maxTiles : ℕ) (active : List ℕ) (beyond : List ℕ) : List ℕ :=
  beyond.foldl (fun active n =>
    if active.length ≥ maxTiles then active else if isPlaced f n then active ++ [n] else active) active

variable (c : Config)

variable (f : Fleet p)

def activeSlots : List ℕ :=
  let wall := wallSlots f
  (keepPlaced f c.maxTiles ((wall.take c.maxTiles).filter (joins f)) (wall.drop c.maxTiles)).insertionSort (· ≤ ·)

def warmingSlots : List ℕ := ((wallSlots f).take c.maxTiles).filter fun n => !joins f n

def ec2Want : ℕ :=
  if f.power.state = .asleep then 0 else min c.ec2Max c.maxTiles % 2 ^ 32

def ec2Tiles (now : ℕ) (f : Fleet p) : ExtTreeMap ℕ (Slot p) :=
  (List.range (ec2Want c f)).foldl (fun m i => m.insertIfNew (i + 1) (newSlot .ec2 none none now))
    (f.ec2.filter fun n _ => n ≤ ec2Want c f)

def quarantinedGpus : ℕ :=
  f.slots.toList.countP fun e =>
    isQuarantined f e.2 && !hostDraining f.hosts e.2 && e.2.host.any fun h => h ∈ f.hosts

def allConnected : Bool :=
  f.expectedHosts.any fun ids => !ids.isEmpty && ids.toList.all fun id => f.hosts[id]?.any fun h => !h.draining

def fcvmPlaces : ℕ :=
  if f.power.state = .asleep then 0
  else
    let configured := min c.fcvmTiles c.maxTiles - f.phones.size - quarantinedGpus f
    let configured := if allConnected f then min configured (min (wallSlots f).length c.maxTiles) else configured
    max configured (activeSlots c f).length

def groupSlots (active : List ℕ) : List (String × List ℕ) :=
  active.foldl (fun groups n =>
    match f.slots[n]?.bind Slot.host with
    | some host => Library.addToGroup host n groups
    | none => groups) []

structure Plan where
  warming : ExtTreeSet ℕ
  n : ℕ
  ec2N : ℕ
  fcvmDark : List Rect
  fcvmSide : Option Rect
  ec2Side : Option Rect
  regions : ExtTreeMap String Rect
  fcvm : ExtTreeMap ℕ (ℕ × Rect)
  ec2 : ExtTreeMap ℕ (ℕ × Rect)

def numbered (slots : List (ℕ × Rect)) : List (ℕ × ℕ × Rect) := slots.zipIdx.map fun e => (e.1.1, e.2, e.1.2)

def ec2Places : List ℕ := f.ec2.keys.take c.maxTiles

/-- How many tiles each band of the fcvm side has: one band per host, and the places left over are one dark band below
them. -/
def bandCounts : List ℕ :=
  let dark := fcvmPlaces c f - (activeSlots c f).length
  (groupSlots f (activeSlots c f)).map (fun g => g.2.length) ++ if dark > 0 then [dark] else []

def hostBands : List (Rect × List Rect) :=
  let places := fcvmPlaces c f
  if places = 0 then []
  else bands p (sides places (ec2Places c f).length).1 (bandCounts c f) c.imageAspect c.tileAspect

def wallTiles : List (ℕ × Rect) :=
  ((groupSlots f (activeSlots c f)).zip (hostBands c f)).flatMap fun e => e.1.2.zip e.2.2

def ec2Grid : List (ℕ × Rect) :=
  let ec2 := ec2Places c f
  ec2.zip (gridIn p (sides (fcvmPlaces c f) ec2.length).2 ec2.length c.imageAspect c.tileAspect)

def plan : Plan :=
  let active := activeSlots c f
  let places := fcvmPlaces c f
  let ec2 := ec2Places c f
  let side := sides places ec2.length
  let groups := groupSlots f active
  let bands := hostBands c f
  { warming := ExtTreeSet.ofList (warmingSlots c f)
    n := active.length
    ec2N := ec2.length
    fcvmDark := if places - active.length > 0 then (bands.getLast?.map Prod.snd).getD [] else []
    fcvmSide := if places > 0 then some side.1 else none
    ec2Side := if ec2.length > 0 then some side.2 else none
    regions := ExtTreeMap.ofList ((groups.zip bands).map fun e => (e.1.1, e.2.1))
    fcvm := ExtTreeMap.ofList (numbered (wallTiles c f))
    ec2 := ExtTreeMap.ofList (numbered (ec2Grid c f)) }

def moves (placed : ExtTreeMap ℕ (ℕ × Rect)) (n : ℕ) (s : Slot p) : Bool :=
  placed[n]? ≠ s.position.bind fun k => s.rect.map fun r => (k, r)

def Plan.changes (pl : Plan) (f : Fleet p) : Bool :=
  (f.slots.toList.any fun e => moves pl.fcvm e.1 e.2) || (f.ec2.toList.any fun e => moves pl.ec2 e.1 e.2) ||
    -- a slot that left moved nothing still here, but the sides changed
    f.fcvmDark ≠ pl.fcvmDark || f.layout.fcvm ≠ pl.fcvmSide || f.layout.ec2 ≠ pl.ec2Side

def laySlot (half : Half) (generation : ℕ) (wasWarming : ExtTreeSet ℕ) (placed : ExtTreeMap ℕ (ℕ × Rect)) (n : ℕ)
    (s : Slot p) : Slot p :=
  let new := placed[n]?
  let rect := new.map Prod.snd
  let s :=
    if rect = s.rect then s
    else
      { s with
        -- a GPU that warmed drew the whole image until it joins
        previousRect := if half = .fcvm ∧ s.rect = none ∧ n ∈ wasWarming then some ⟨0, 0, 1, 1⟩ else s.rect
        rectGeneration := generation }
  { s with position := new.map Prod.fst, rect := rect }

def Plan.lay (pl : Plan) (now : ℕ) (f : Fleet p) : Fleet p :=
  let generation := if pl.changes f then f.layout.generation + 1 else f.layout.generation
  { f with
    warming := pl.warming
    n := pl.n
    ec2N := pl.ec2N
    fcvmDark := pl.fcvmDark
    hosts := f.hosts.map fun name h => { h with region := pl.regions[name]? }
    layout :=
      if pl.changes f then ⟨generation, layoutFromFrame (f.scene.tAt now), pl.fcvmSide, pl.ec2Side⟩ else f.layout
    slots := f.slots.map (laySlot .fcvm generation f.warming pl.fcvm)
    ec2 := f.ec2.map (laySlot .ec2 generation f.warming pl.ec2) }

def withEc2 (now : ℕ) (f : Fleet p) : Fleet p := { f with ec2 := ec2Tiles c now f }

def retile (now : ℕ) (f : Fleet p) : Fleet p :=
  let f := withEc2 c now f
  dropMissingFromRaces now ((plan c f).lay now f)

end Fcvm.FleetCore
