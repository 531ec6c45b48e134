import Fcvm.Library.Rectangles
import Mathlib.Data.List.Sort
import Mathlib.Data.Rat.Floor
import Mathlib.Data.String.Basic

/-!
The state the fleet's coordinator holds (`fleet/core/src/state.rs`). A `BTreeMap` is a `Std.ExtTreeMap`, a slot's id
is the number it is kept under, and a float is the rational it stands for.
-/

namespace Fcvm.FleetCore

open Std (ExtTreeMap ExtTreeSet)

abbrev Rect := Library.Rect ℚ

inductive Half where
  | fcvm
  | ec2
  deriving DecidableEq

inductive TextStyle where
  | lockup
  | skywriting
  | landmark
  deriving DecidableEq

structure Word where
  text : String
  t : ℚ
  textStyle : TextStyle
  system : Bool
  deriving DecidableEq

structure Light where
  pos : ℚ × ℚ × ℚ
  color : ℚ × ℚ × ℚ
  t : ℚ
  deriving DecidableEq

structure Scene (κ ω : Type) where
  epochUnixMs : ℕ
  camera : List κ
  timeOfDay : ℚ
  words : List Word
  lights : List Light
  weather : List ω
  deriving DecidableEq

def Scene.tAt {κ ω : Type} (s : Scene κ ω) (unixMs : ℕ) : ℚ := ((unixMs : ℚ) - s.epochUnixMs) / 1000

structure Vote where
  target : ℕ
  intent : String
  time : ℕ
  deriving DecidableEq

structure Director (φ : Type) where
  next : Option ℕ
  offer : List ℕ
  votes : ExtTreeMap String Vote
  flight : φ
  deriving DecidableEq

/-- A private session's camera: its path, whether the autopilot flies it, and since when. -/
structure Flown (κ : Type) where
  camera : List κ
  autopilot : Bool
  flightT0 : Option ℚ
  deriving DecidableEq

structure Round (ρ : Type) where
  ring : List ℕ
  startedAt : ℕ
  startHoldMs : ℕ
  shrinkPermille : ℕ
  minHoldMs : ℕ
  paceMs : Option ℕ
  seq : Option ℕ
  play : ρ
  deriving DecidableEq

structure Potato (γ ρ : Type) where
  round : Option (Round ρ)
  host : Option String
  nextRoundAt : Option ℕ
  lastFasterAt : ExtTreeMap String ℕ
  lastRestartAt : ExtTreeMap String ℕ
  game : γ
  deriving DecidableEq

structure Budget (β : Type) where
  smoothed : Option ℚ
  upRounds : ℕ
  nextRoundAt : ℕ
  granted : β
  deriving DecidableEq

structure Readings (ι : Type) where
  fps : Option ℚ
  gpuStats : Option ι
  budgetFit : Option ℚ
  frameT : Option ℚ
  renderMsMax : Option ℚ
  budgetEveryPixel : Option ℚ
  bootId : Option String
  deriving DecidableEq

def Readings.none {ι : Type} : Readings ι := ⟨.none, .none, .none, .none, .none, .none, .none⟩

inductive Num where
  | finite (v : ℚ)
  | notFinite
  deriving DecidableEq

/-- What the core calls and this development does not open: JSON values, the director's flight, the autopilot, the
render budget, potato mode's play, the lines of history, and the row count the tiling aims for. -/
structure Parts where
  Json : Type
  [jsonEq : DecidableEq Json]
  Keyframe : Type
  [keyframeEq : DecidableEq Keyframe]
  WeatherKey : Type
  [weatherKeyEq : DecidableEq WeatherKey]
  Flight : Type
  [flightEq : DecidableEq Flight]
  Play : Type
  [playEq : DecidableEq Play]
  Game : Type
  [gameEq : DecidableEq Game]
  Granted : Type
  [grantedEq : DecidableEq Granted]
  PotatoEvent : Type
  emptyObject : Json
  isNull : Json → Bool
  get : Json → String → Option Json
  asStr : Json → Option String
  asBool : Json → Option Bool
  asNum : Json → Option Num
  asArray : Json → Option (List Json)
  viewpoints : List String
  directorNew : ℕ → Director Flight
  directorTick : Director Flight → ℚ → Director Flight
  directorCamera : Director Flight → List Keyframe
  directorTimeOfDay : Director Flight → ℚ → ℚ
  directorWeather : Director Flight → List WeatherKey
  startPose : ℚ → String → Keyframe
  autopilotStart : Flown Keyframe → ℚ → ℚ → Flown Keyframe
  autopilotExtend : Flown Keyframe → ℚ → Flown Keyframe
  autopilotResume : Flown Keyframe → Option ℕ → ℚ → String → Flown Keyframe
  autopilotPause : Flown Keyframe → ℚ → String → Flown Keyframe
  steer : Flown Keyframe → ℚ → ℚ → ℚ → ℚ → String → Flown Keyframe
  budgetNew : Budget Granted
  budgetRound : Budget Granted → List (Half × ℕ × Readings Json) → Budget Granted
  potatoNew : Potato Game Play
  potatoTick : Potato Game Play → ℕ → Bool → Potato Game Play
  potatoHello : Potato Game Play → String → ℕ → ℕ → Potato Game Play
  potatoGone : Potato Game Play → String → ℕ → Potato Game Play
  potatoEvent : Potato Game Play → String → PotatoEvent → ℕ → Potato Game Play
  historyPick : ℕ → ℕ → String × TextStyle
  canonicalIp : String → String
  debugText : String → String
  fixed3 : ℚ → String
  rowsFor : ℕ → ℚ → ℚ → ℕ
  rowsFor_pos : ∀ n a t, 1 ≤ n → 1 ≤ rowsFor n a t
  rowsFor_le : ∀ n a t, rowsFor n a t ≤ n

attribute [instance] Parts.jsonEq Parts.keyframeEq Parts.weatherKeyEq Parts.flightEq Parts.playEq Parts.gameEq
  Parts.grantedEq

structure Config where
  maxTiles : ℕ
  imageAspect : ℚ
  tileAspect : ℚ
  ec2Max : ℕ
  fcvmTiles : ℕ
  wordIntervalMs : ℕ
  historyIdleSecs : ℕ
  lightIntervalMs : ℕ
  relaunchIntervalMs : ℕ
  ec2AggregateIpv6 : Option String
  ec2AggregateIpv4 : Option String
  raceIntervalSecs : Option ℕ
  restartCooldownSecs : ℕ
  cameraSeed : ℕ
  lightsPerClient : ℕ
  claimSecs : ℕ
  claimCooldownSecs : ℕ
  maxBorrowed : Option ℕ
  powerManaged : Bool
  idleScaleDownSecs : ℕ
  sleepWithoutNewViewerSecs : ℕ
  namesPublished : Bool
  phoneClaimSecs : ℕ
  phoneClaimCooldownSecs : ℕ
  maxPhonesLent : Option ℕ
  phoneAspect : ℚ
  potatoFasterIntervalMs : ℕ
  potatoRestartIntervalMs : ℕ
  deriving DecidableEq

def divCeil (n d : ℕ) : ℕ := (n + d - 1) / d

def Config.borrowCap (c : Config) (n : ℕ) : ℕ := c.maxBorrowed.getD (min 2 (divCeil n 10))

def Config.phoneLendCap (c : Config) (n : ℕ) : ℕ := c.maxPhonesLent.getD (min 2 (divCeil n 2))

structure HostWake where
  pendingAt : Option ℕ
  bootedAt : Option ℕ
  storeReadyAt : Option ℕ
  agentAt : Option ℕ
  renderingAt : Option ℕ
  boot : ExtTreeMap String ℕ
  deriving DecidableEq

def HostWake.new : HostWake := ⟨none, none, none, none, none, ∅⟩

structure Wake where
  startedAt : ℕ
  awakeAt : ℕ
  gpus : ℕ
  ms : ℕ
  deriving DecidableEq

def MAX_WAKES : ℕ := 20

inductive PowerState where
  | awake
  | asleep
  | waking
  deriving DecidableEq

structure Power where
  state : PowerState
  idleSince : Option ℕ
  asleepSince : Option ℕ
  wokeAt : Option ℕ
  hosts : ExtTreeMap String HostWake
  wakes : List Wake
  lastArrivalAt : Option ℕ
  deriving DecidableEq

structure Gpu where
  sbdf : String
  name : String
  deriving DecidableEq

structure Published where
  generation : ℕ
  label : String
  ipv6 : Option String
  ipv4 : Option String
  v4Port : Option ℕ
  frameUrl : Option String
  frameUrlV4 : Option String
  deriving DecidableEq

structure Host where
  name : String
  arch : String
  gpus : List Gpu
  capacity : ℕ
  draining : Bool
  joinedAt : ℕ
  region : Option Rect
  aggregateUrl : Option String
  aggregateIpv6 : Option String
  aggregateIpv4 : Option String
  aggregateV4Port : Option ℕ
  aggregatePublished : Option Published
  phoneActions : List String
  deriving DecidableEq

inductive Phase where
  | pending
  | launching
  | stopping
  | restoring
  | starting
  | running
  | waitingCapacity
  | other (phase : String)
  deriving DecidableEq

structure Observed (ι : Type) where
  phase : Phase
  generation : ℕ
  vm : Option String
  frameUrl : Option String
  timings : ExtTreeMap String ℕ
  error : Option String
  readings : Readings ι
  retryAt : Option ℕ
  ipv6 : Option String
  ipv4 : Option String
  v4Port : Option ℕ
  place : Option String
  deriving DecidableEq

structure Relaunch where
  generation : ℕ
  clickedAt : ℕ
  sender : String
  firstFrameAt : Option ℕ
  phases : ExtTreeMap String ℕ
  deriving DecidableEq

/-- A viewer's own GPU: a standby slot restored for them with their own scene. -/
structure Claim (κ : Type) where
  session : String
  viewer : String
  client : String
  token : String
  claimedAt : ℕ
  expiresAt : ℕ
  generation : ℕ
  firstFrameAt : Option ℕ
  flown : Flown κ
  borrowed : Option String
  deriving DecidableEq

inductive PhoneAction where
  | switchScreen
  | rotate
  | darkMode
  | dance
  | wave
  | gpuBenchmark
  | restartApp
  | openBrowser
  | openApp
  | rebootPhone
  | tap
  deriving DecidableEq

inductive Front where
  | app
  | browser
  deriving DecidableEq

structure TapPoint where
  x : ℚ
  y : ℚ
  deriving DecidableEq

structure PhoneClaim where
  session : String
  viewer : String
  client : String
  claimedAt : ℕ
  expiresAt : ℕ
  lastActionAt : Option ℕ
  lastTapAt : Option ℕ
  deriving DecidableEq

structure PhoneActionReq where
  seq : ℕ
  action : PhoneAction
  time : ℕ
  generation : ℕ
  point : Option TapPoint
  deriving DecidableEq

structure PhoneSlot where
  claim : Option PhoneClaim
  actions : List PhoneActionReq
  browserGeneration : Option ℕ
  deriving DecidableEq

def PhoneSlot.new : PhoneSlot := ⟨none, [], none⟩

structure ChromeKey where
  t : ℚ
  shown : Bool
  deriving DecidableEq

structure PhonesZoom where
  out : Bool
  time : Option ℕ
  keys : List ChromeKey
  deriving DecidableEq

structure Slot (p : Parts) where
  half : Half
  host : Option String
  gpu : Option Gpu
  generation : ℕ
  createdAt : ℕ
  position : Option ℕ
  rect : Option Rect
  previousRect : Option Rect
  rectGeneration : ℕ
  observed : Observed p.Json
  published : Option Published
  lastRelaunch : Option Relaunch
  claim : Option (Claim p.Keyframe)
  phone : Option PhoneSlot
  deriving DecidableEq

structure RaceTile where
  tile : String
  generation : ℕ
  firstFrameAt : Option ℕ
  phases : ExtTreeMap String ℕ
  capacityWaitMs : ℕ
  waitingSince : Option ℕ
  deriving DecidableEq

/-- One half of a race: every tile placed in it when the race started, by slot. -/
structure HalfRace where
  tiles : ExtTreeMap ℕ RaceTile
  dropped : ℕ
  doneAt : Option ℕ
  timeMs : Option ℕ
  last : Option ℕ
  capacityWaitMs : ℕ
  sittingOut : List String
  deriving DecidableEq

def HalfRace.new : HalfRace := ⟨∅, 0, none, none, none, 0, []⟩

/-- A relaunch of every tile, timed for both halves by the coordinator's clock. -/
structure Race where
  id : ℕ
  startedAt : ℕ
  sender : String
  fcvm : HalfRace
  ec2 : HalfRace
  deriving DecidableEq

def Race.half (r : Race) : Half → HalfRace
  | .fcvm => r.fcvm
  | .ec2 => r.ec2

def MAX_RACES : ℕ := 50

inductive Outcome where
  | committed
  | refused
  deriving DecidableEq

structure TextCheck where
  verdict : String
  reason : String
  sky : List String
  deriving DecidableEq

def TextCheck.allowed (k : TextCheck) : Bool := k.verdict = "allow"

structure Receipt where
  id : String
  outcome : Outcome
  reason : Option String
  version : ℕ
  check : Option TextCheck
  deriving DecidableEq

structure Action (ι : Type) where
  time : ℕ
  viewer : String
  id : String
  name : String
  args : ι
  summary : String
  outcome : Outcome
  deriving DecidableEq

def MAX_ACTIONS : ℕ := 50

def MAX_RECEIPTS : ℕ := 20000

structure LayoutGen where
  generation : ℕ
  fromFrame : ℤ
  fcvm : Option Rect
  ec2 : Option Rect
  deriving DecidableEq

def POST_DELIVERY_FRAMES : ℤ := 30

def ENCODER_LEAD_FRAMES : ℤ := 15

def LAYOUT_LEAD_FRAMES : ℤ := POST_DELIVERY_FRAMES + ENCODER_LEAD_FRAMES

def layoutFromFrame (t : ℚ) : ℤ := ⌈t * 30⌉ + LAYOUT_LEAD_FRAMES

structure Counters where
  restores : ℕ
  scrubs : ℕ
  scrubFailures : ℕ
  restoresByMinute : List (ℕ × ℕ)
  deriving DecidableEq

structure Quarantined where
  host : String
  sbdf : String
  error : String
  since : ℕ
  report : Option String
  deriving DecidableEq

def gpuKey (host sbdf : String) : String := host ++ "/" ++ sbdf

structure Fleet (p : Parts) where
  hosts : ExtTreeMap String Host
  slots : ExtTreeMap ℕ (Slot p)
  ec2 : ExtTreeMap ℕ (Slot p)
  n : ℕ
  fcvmDark : List Rect
  ec2N : ℕ
  layout : LayoutGen
  scene : Scene p.Keyframe p.WeatherKey
  director : Director p.Flight
  lightOwners : List String
  nextRaceAt : Option ℕ
  cooldownUntil : Option ℕ
  races : List Race
  raceCount : ℕ
  viewers : ExtTreeMap String String
  actions : List (Action p.Json)
  lastWordAt : ExtTreeMap String ℕ
  lastLightAt : ExtTreeMap String ℕ
  lastRelaunchAt : ExtTreeMap String ℕ
  lastClaimEnd : ExtTreeMap String ℕ
  historyCount : ℕ
  historyReadyAt : Option ℕ
  claimCount : ℕ
  reclaimed : ExtTreeMap String (ℕ × Option ℕ)
  counters : Counters
  quarantined : ExtTreeMap String Quarantined
  releasedReports : ExtTreeMap String String
  hidden : ExtTreeSet String
  warming : ExtTreeSet ℕ
  power : Power
  budget : Budget p.Granted
  degraded : ExtTreeMap String (String × ℕ)
  ec2AggregatePublished : Option Published
  phones : ExtTreeMap ℕ (Slot p)
  phoneClaimCount : ℕ
  lastPhoneClaimEnd : ExtTreeMap String ℕ
  phoneActionSeq : ℕ
  phonesZoom : PhonesZoom
  lastPhonesZoomAt : ExtTreeMap String ℕ
  potato : Potato p.Game p.Play
  expectedHosts : Option (ExtTreeSet String)
  deriving DecidableEq

structure State (p : Parts) where
  version : ℕ
  config : Config
  fleet : Fleet p
  receipts : ExtTreeMap String Receipt
  receiptOrder : List String
  deriving DecidableEq

variable {p : Parts}

def Fleet.new (c : Config) (now : ℕ) : Fleet p :=
  let director := p.directorNew c.cameraSeed
  { hosts := ∅
    slots := ∅
    ec2 := ∅
    n := 0
    fcvmDark := []
    ec2N := 0
    layout := ⟨0, 0, none, none⟩
    scene := ⟨now, p.directorCamera director, p.directorTimeOfDay director 0, [], [], p.directorWeather director⟩
    director := director
    lightOwners := []
    nextRaceAt := c.raceIntervalSecs.map fun s => now + s * 1000
    cooldownUntil := none
    races := []
    raceCount := 0
    viewers := ∅
    actions := []
    lastWordAt := ∅
    lastLightAt := ∅
    lastRelaunchAt := ∅
    lastClaimEnd := ∅
    historyCount := 0
    historyReadyAt := none
    claimCount := 0
    reclaimed := ∅
    counters := ⟨0, 0, 0, []⟩
    quarantined := ∅
    releasedReports := ∅
    hidden := ∅
    warming := ∅
    power := ⟨.awake, none, none, none, ∅, [], some now⟩
    budget := p.budgetNew
    degraded := ∅
    ec2AggregatePublished := none
    phones := ∅
    phoneClaimCount := 0
    lastPhoneClaimEnd := ∅
    phoneActionSeq := 0
    phonesZoom := ⟨false, none, []⟩
    lastPhonesZoomAt := ∅
    potato := p.potatoNew
    expectedHosts := none }

def State.new (c : Config) (now : ℕ) : State p := ⟨0, c, Fleet.new c now, ∅, []⟩

def Fleet.side (f : Fleet p) : Half → ExtTreeMap ℕ (Slot p)
  | .fcvm => f.slots
  | .ec2 => f.ec2

def slotName (n : ℕ) : String := "slot-" ++ toString n

def ec2Name (n : ℕ) : String := "ec2-" ++ toString n

def phoneName (n : ℕ) : String := "phone-" ++ toString n

def parseUnsigned (bound : ℕ) (text : List Char) : Option ℕ :=
  let digits := match text with
    | '+' :: ds => ds
    | ds => ds
  if digits = [] ∨ ¬ digits.all Char.isDigit then none
  else
    let v := digits.foldl (fun v d => 10 * v + (d.toNat - '0'.toNat)) 0
    if v < bound then some v else none

def numberAfter (lead : String) (bound : ℕ) (name : String) : Option ℕ :=
  (List.dropPrefix? name.toList lead.toList).bind (parseUnsigned bound)

def slotNumber (id : String) : Option ℕ := numberAfter "slot-" (2 ^ 32) id

def ec2Number (id : String) : Option ℕ := numberAfter "ec2-" (2 ^ 32) id

def phoneNumber (id : String) : Option ℕ := numberAfter "phone-" (2 ^ 32) id

def placeAfter (lead name : String) : Option ℕ :=
  (numberAfter lead (2 ^ 64) name).bind fun k => if k = 0 then none else some (k - 1)

def firstKey {V : Type} (m : ExtTreeMap ℕ V) (test : ℕ → V → Bool) : Option ℕ :=
  (m.toList.find? fun e => test e.1 e.2).map Prod.fst

def findSlot (f : Fleet p) (name : String) : Option (Half × ℕ) :=
  if "fcvm:".toList.isPrefixOf name.toList then
    (placeAfter "fcvm:" name).bind fun pos =>
      (firstKey f.slots fun _ s => s.position = some pos).map fun n => (.fcvm, n)
  else if "ec2:".toList.isPrefixOf name.toList then
    (placeAfter "ec2:" name).bind fun pos =>
      (firstKey f.ec2 fun _ s => s.position = some pos).map fun n => (.ec2, n)
  else match slotNumber name with
    | some n => if n ∈ f.slots then some (.fcvm, n) else none
    | none => (ec2Number name).bind fun n => if n ∈ f.ec2 then some (.ec2, n) else none

def aggregateId (host : String) : Option String :=
  let cs := host.toList
  if cs ≠ [] ∧ host.utf8ByteSize ≤ 40 ∧ host ≠ "ec2" ∧ cs.head? ≠ some '-' ∧ cs.getLast? ≠ some '-' ∧
      cs.all (fun b => b.isLower || b.isDigit || b == '-')
  then some ("agg-" ++ host) else none

def EC2_AGGREGATE_ID : String := "agg-ec2"

def Published.names (p : Parts) (q : Published) (ipv6 ipv4 : Option String) (v4Port : Option ℕ) : Bool :=
  q.ipv6 = ipv6.map p.canonicalIp && q.ipv4 = ipv4.map p.canonicalIp && q.v4Port = v4Port

def newSlot (half : Half) (host : Option String) (gpu : Option Gpu) (now : ℕ) : Slot p :=
  { half := half
    host := host
    gpu := gpu
    generation := 1
    createdAt := now
    position := none
    rect := none
    previousRect := none
    rectGeneration := 0
    observed := ⟨.pending, 0, none, none, ∅, none, .none, none, none, none, none, none⟩
    published := none
    lastRelaunch := none
    claim := none
    phone := none }

end Fcvm.FleetCore
