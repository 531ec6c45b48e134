import Fcvm.FleetCore.State

/-! Events, the only inputs to `apply`, and the intents viewers send (`fleet/core/src/event.rs`, `protocol.rs`). -/

namespace Fcvm.FleetCore

open Std (ExtTreeMap)

structure SlotReport where
  id : String
  phase : Phase
  generation : ℕ
  vm : Option String
  frameUrl : Option String
  timings : ExtTreeMap String ℕ
  error : Option String
  retryInMs : Option ℕ
  ipv6 : Option String
  ipv4 : Option String
  v4Port : Option ℕ
  place : Option String

structure HealthReport (ι : Type) where
  id : String
  fps : Option ℚ
  gpu : ι
  budgetFit : Option ℚ
  t : Option ℚ
  renderMsMax : Option ℚ
  budgetEveryPixel : Option ℚ
  bootId : Option String

structure Hello where
  host : String
  arch : String
  gpus : List Gpu
  capacity : ℕ
  storeReadyAt : Option ℕ
  boot : ExtTreeMap String ℕ
  phones : List Gpu
  phoneActions : List String
  potatoPlayers : ℕ

inductive AgentMsg (p : Parts) where
  | hello (h : Hello)
  | potato (e : p.PotatoEvent)
  | slot (r : SlotReport)
  | health (h : HealthReport p.Json)
  | draining
  | aggregate (frameUrl : String) (ipv6 ipv4 : Option String) (v4Port : Option ℕ)
  | scrub (ok : Bool)
  | quarantine (sbdf error : String) (report : Option String)

structure ScaleInstance where
  id : String
  inService : Bool

structure IntentMsg (p : Parts) where
  viewer : String
  client : Option String
  id : String
  name : String
  args : p.Json
  check : Option TextCheck
  secret : Option String

inductive EventKind (p : Parts) where
  | intent (m : IntentMsg p)
  | viewerJoined (viewer : String) (client : Option String) (returning : Bool)
  | viewerLeft (viewer : String)
  | tick
  | agent (host : String) (msg : AgentMsg p)
  | agentGone (host : String)
  | ec2 (report : SlotReport)
  | degraded (component : String) (reason : Option String)
  | releaseQuarantine (host sbdf : String)
  | visibility (viewer : String) (visible : Bool)
  | ec2Health (report : HealthReport p.Json)
  | scaleInstances (instances : List ScaleInstance)
  | hostsExpected (hosts : Option (List String))
  | published (slot : String) (names : Published)

/-- `now` is Unix milliseconds, stamped by the coordinator when it accepts the event. -/
structure Event (p : Parts) where
  now : ℕ
  kind : EventKind p

inductive Intent where
  | relaunch (tile : String)
  | restartNow
  | nudge (target : String)
  | word (text : String) (textStyle : TextStyle)
  | light (pos color : ℚ × ℚ × ℚ)
  | claimGpu
  | releaseGpu (claim : Option String)
  | claimCamera (yawDeg pitchDeg dive : ℚ)
  | claimAutopilot (fly : Bool)
  | claimPhone (phone : Option String)
  | releasePhone (claim : Option String)
  | phonesZoom (out : Bool)
  | phoneAction (claim : Option String) (action : PhoneAction) (point : Option TapPoint)
  | wake
  | potatoFaster
  | potatoRestart

def TextStyle.names : String := "lockup, skywriting, landmark"

def TextStyle.parse : String → Option TextStyle
  | "lockup" => some .lockup
  | "skywriting" => some .skywriting
  | "landmark" => some .landmark
  | _ => none

namespace PhoneAction

def all : List PhoneAction :=
  [switchScreen, rotate, darkMode, dance, wave, gpuBenchmark, restartApp, openBrowser, openApp, rebootPhone, tap]

def names : String :=
  "switch_screen, rotate, dark_mode, dance, wave, gpu_benchmark, restart_app, open_browser, open_app, " ++
    "reboot_phone, tap"

def asStr : PhoneAction → String
  | switchScreen => "switch_screen"
  | rotate => "rotate"
  | darkMode => "dark_mode"
  | dance => "dance"
  | wave => "wave"
  | gpuBenchmark => "gpu_benchmark"
  | restartApp => "restart_app"
  | openBrowser => "open_browser"
  | openApp => "open_app"
  | rebootPhone => "reboot_phone"
  | tap => "tap"

def offered (listed : List String) : List PhoneAction := all.filter fun a => a = rebootPhone || listed.contains a.asStr

def parse (name : String) : Option PhoneAction := all.find? fun a => a.asStr = name

def frontAfter : PhoneAction → Option Front
  | openBrowser => some .browser
  | switchScreen | rotate | darkMode | dance | wave | gpuBenchmark | openApp => some .app
  | restartApp | rebootPhone | tap => none

end PhoneAction

def PhoneSlot.front (s : PhoneSlot) (generation : ℕ) : Front :=
  if s.browserGeneration = some generation then .browser else .app

section Parse

variable (p : Parts)

def required {α : Type} (o : Option α) (reason : String) : Except String α :=
  match o with
  | some a => .ok a
  | none => .error reason

variable (args : p.Json)

def optStr (key what : String) : Except String (Option String) :=
  match p.get args key with
  | none => .ok none
  | some v =>
    if p.isNull v then .ok none
    else (required (p.asStr v) ("args." ++ key ++ " must be " ++ what)).map some

def num (key : String) : Except String ℚ := do
  match ← required ((p.get args key).bind p.asNum) ("args." ++ key ++ " must be a number") with
  | .finite v => .ok v
  | .notFinite => .error ("args." ++ key ++ " must be finite")

def vec3 (v : Option p.Json) (what : String) : Except String (ℚ × ℚ × ℚ) := do
  let finite (v : p.Json) : Except String ℚ :=
    match p.asNum v with
    | some (.finite x) => .ok x
    | _ => .error (what ++ " must hold finite numbers")
  match v.bind p.asArray with
  | some [a, b, c] => return (← finite a, ← finite b, ← finite c)
  | _ => .error (what ++ " must be an array of 3 numbers")

def MAX_LIGHT_SUM : ℚ := 2

def clampColor (c : ℚ × ℚ × ℚ) : ℚ × ℚ × ℚ :=
  let clamp (v : ℚ) : ℚ := max 0 (min v 1)
  let c := (clamp c.1, clamp c.2.1, clamp c.2.2)
  let sum := c.1 + c.2.1 + c.2.2
  if sum > MAX_LIGHT_SUM then
    (c.1 * MAX_LIGHT_SUM / sum, c.2.1 * MAX_LIGHT_SUM / sum, c.2.2 * MAX_LIGHT_SUM / sum)
  else c

def MAX_WORD_CHARS : ℕ := 28

def MAX_COORD : ℕ := 1000000

def isControl (c : Char) : Bool := c.toNat < 0x20 || 0x7f ≤ c.toNat && c.toNat < 0xa0

def isWhitespace (c : Char) : Bool :=
  9 ≤ c.toNat && c.toNat ≤ 13 || 0x2000 ≤ c.toNat && c.toNat ≤ 0x200a ||
    [0x20, 0x85, 0xa0, 0x1680, 0x2028, 0x2029, 0x202f, 0x205f, 0x3000].contains c.toNat

/-- Normalise viewer text: collapse whitespace, trim; refuse control characters, empty text and text that is too
long. -/
def normaliseWord (text : String) : Except String String :=
  if text.toList.any isControl then .error "text holds control characters"
  else
    let t := [' '].intercalate ((text.toList.splitOnP isWhitespace).filter (· ≠ []))
    let n := t.length
    if n = 0 then .error "text is empty"
    else if n > MAX_WORD_CHARS then
      .error ("text is " ++ toString n ++ " characters; the limit is " ++ toString MAX_WORD_CHARS)
    else .ok (String.ofList t)

def tapPoint (x y : ℚ) : Except String TapPoint :=
  if ¬ (0 ≤ x ∧ x ≤ 1) then .error "args.x must be between 0 and 1"
  else if ¬ (0 ≤ y ∧ y ≤ 1) then .error "args.y must be between 0 and 1"
  else .ok ⟨x, y⟩

def parseWord : Except String Intent := do
  let text ← required ((p.get args "text").bind p.asStr) "args.text must be a string"
  let textStyle ← match p.get args "text_style" with
    | none => pure TextStyle.lockup
    | some v =>
      if p.isNull v then pure TextStyle.lockup
      else required ((p.asStr v).bind TextStyle.parse) ("args.text_style must be one of " ++ TextStyle.names)
  return .word (← normaliseWord text) textStyle

def parseLight : Except String Intent := do
  let pos ← vec3 p (p.get args "pos") "pos"
  if |pos.1| > MAX_COORD ∨ |pos.2.1| > MAX_COORD ∨ |pos.2.2| > MAX_COORD then
    throw ("pos must be within " ++ toString MAX_COORD)
  let color ← vec3 p (p.get args "color") "color"
  return .light pos (clampColor color)

def parseClaimCamera : Except String Intent := do
  let d ← required (p.get args "drag") "claim_camera needs args.drag"
  let yawDeg ← num p d "yaw_deg"
  let pitchDeg ← num p d "pitch_deg"
  let dive ← match p.get d "dive" with
    | some _ => num p d "dive"
    | none => pure 0
  if |yawDeg| > 360 ∨ |pitchDeg| > 180 ∨ |dive| > 50 then
    throw "drag is out of range"
  return .claimCamera yawDeg pitchDeg dive

def parsePhoneAction : Except String Intent := do
  let action ← required (((p.get args "action").bind p.asStr).bind PhoneAction.parse)
    ("args.action must be one of " ++ PhoneAction.names)
  -- a tap's point; no other action takes one
  let point ← if action = .tap then
      (do
        let x ← num p args "x"
        let y ← num p args "y"
        return some (← tapPoint x y) : Except String (Option TapPoint))
    else if (p.get args "x").isSome then throw "args.x is only for tap"
    else if (p.get args "y").isSome then throw "args.y is only for tap"
    else pure none
  return .phoneAction (← optStr p args "claim" "a claim id") action point

def Intent.parse (name : String) (args : p.Json) : Except String Intent :=
  match name with
  | "relaunch" => (required ((p.get args "tile").bind p.asStr) "args.tile must be a string").map .relaunch
  | "restart_now" => .ok .restartNow
  | "wake" => .ok .wake
  | "nudge" => (required ((p.get args "target").bind p.asStr) "args.target must be a viewpoint name").map .nudge
  | "word" => parseWord p args
  | "light" => parseLight p args
  | "claim_gpu" => .ok .claimGpu
  | "release_gpu" =>
    match p.get args "claim" with
    | none => .ok (.releaseGpu none)
    | some v =>
      if p.isNull v then .ok (.releaseGpu none)
      else (required (p.asStr v) "args.claim must be a claim id").map fun k => .releaseGpu (some k)
  | "claim_camera" => parseClaimCamera p args
  | "claim_autopilot" =>
    (required ((p.get args "on").bind p.asBool) "args.on must be true or false").map .claimAutopilot
  | "claim_phone" => (optStr p args "phone" "a phone id").map .claimPhone
  | "potato_faster" => .ok .potatoFaster
  | "potato_restart" => .ok .potatoRestart
  | "phones_zoom" => (required ((p.get args "out").bind p.asBool) "args.out must be true or false").map .phonesZoom
  | "release_phone" => (optStr p args "claim" "a claim id").map .releasePhone
  | "phone_action" => parsePhoneAction p args
  | other => .error ("unknown intent " ++ p.debugText other)

end Parse

end Fcvm.FleetCore
