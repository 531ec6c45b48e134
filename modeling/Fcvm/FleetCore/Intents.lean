import Fcvm.FleetCore.Event
import Fcvm.FleetCore.Races
import Fcvm.Library.Command

/-!
What a viewer's intent does (`intent_effect` of `fleet/core/src/apply.rs`). An intent that is refused keeps what it
had changed by then, as the source's `&mut State` does.
-/

namespace Fcvm.FleetCore

open Std (ExtTreeMap)
open Library (Command)
open Library.Command

structure Ctx where
  viewer : String
  client : String
  id : String
  secret : Option String
  now : ℕ

section Director

variable {φ : Type}

def Director.vote (p : Parts) (d : Director φ) (client target intent : String) (now : ℕ) :
    Except String Unit × Director φ :=
  let named (i : ℕ) : Bool := p.viewpoints[i]? = some target
  -- a pick of the stop just decided is already what happens
  if d.next.any named then (.ok (), d)
  else match d.offer.find? named with
    | none =>
      let names := d.offer.map fun i => p.debugText (p.viewpoints[i]?.getD "")
      (.error (p.debugText target ++ " is not offered; the choices are [" ++ ", ".intercalate names ++ "]"), d)
    | some i =>
      -- the same pick again keeps its first time and intent
      if d.votes[client]?.any fun v => v.target = i then (.ok (), d)
      else (.ok (), { d with votes := d.votes.insert client ⟨i, intent, now⟩ })

end Director

section Potato

variable {γ ρ : Type}

def Round.lap (r : Round ρ) (seq : ℕ) : ℕ := seq / max r.ring.length 1

def Round.shrunk (r : Round ρ) (h : ℕ) : ℕ :=
  let cut := h * min r.shrinkPermille 1000 / 1000
  max (h - cut) r.minHoldMs

def Round.holdAt (r : Round ρ) (seq : ℕ) : ℕ :=
  let h := r.shrunk^[min (r.lap seq) 10000] r.startHoldMs
  match r.paceMs with
  | some pace => min h (max pace r.minHoldMs)
  | none => h

def Potato.faster (g : Potato γ ρ) (c : Config) (client : String) (now : ℕ) : Except String Unit × Potato γ ρ :=
  match g.round with
  | none => (.error "no round is being played", g)
  | some r =>
    if g.lastFasterAt[client]?.any fun t => now < t + c.potatoFasterIntervalMs then (.error "one faster every 2 s", g)
    else
      let hold := r.holdAt (r.seq.getD 0)
      if hold ≤ r.minHoldMs then (.error "the hold is at its floor", g)
      else
        (.ok (), { g with
          round := some { r with paceMs := some (max (hold - hold / 5) r.minHoldMs) }
          lastFasterAt := g.lastFasterAt.insert client now })

def Potato.restart (g : Potato γ ρ) (c : Config) (client : String) (now : ℕ) : Except String Unit × Potato γ ρ :=
  if g.lastRestartAt[client]?.any fun t => now < t + c.potatoRestartIntervalMs then (.error "one restart every 10 s", g)
  else if g.round.any fun r => now < r.startedAt + c.potatoRestartIntervalMs then
    (.error "the round has only just started", g)
  else if g.round.isNone && g.host.isNone then (.error "no players are running", g)
  else
    (.ok (), { g with
      round := none
      nextRoundAt := some (now + 1000)
      lastRestartAt := g.lastRestartAt.insert client now })

end Potato

variable {p : Parts}

def rate (last : ExtTreeMap String ℕ) (client : String) (now interval : ℕ) (what : String) : Except String Unit :=
  match last[client]? with
  | some t =>
    if now < t + interval then
      .error ("one " ++ what ++ " per " ++ toString (divCeil interval 1000) ++ " s per client")
    else .ok ()
  | none => .ok ()

variable (f : Fleet p)

def sky : List String := (f.scene.words.filter fun w => !w.system).map Word.text

def MAX_WORDS : ℕ := 16

def MAX_LIGHTS : ℕ := 32

def trimViewerWords (words : List Word) : List Word :=
  (fun ws => ws.eraseIdx (ws.findIdx fun w => !w.system))^[(words.countP fun w => !w.system) - MAX_WORDS] words

def holdMs : TextStyle → ℕ
  | .lockup | .landmark => 90000
  | .skywriting => 45000

def ownClaim (viewer : String) : Option (ℕ × Slot p × Claim p.Keyframe) :=
  f.slots.toList.findSome? fun e => e.2.claim.bind fun k => if k.viewer = viewer then some (e.1, e.2, k) else none

def usable (s : Slot p) : Bool := s.claim.isNone && hostStays f.hosts s && !isQuarantined f s

def isRacing (n : ℕ) : Bool :=
  f.races.any fun r => r.fcvm.doneAt.isNone && r.fcvm.tiles[n]?.any fun t => t.firstFrameAt.isNone

def lentTiles : ℕ := f.slots.toList.countP fun e => e.2.claim.any fun k => k.borrowed.isSome

def lendable : List (ℕ × ℕ) :=
  f.slots.toList.filterMap fun e =>
    if usable f e.2 && e.2.observed.phase = .running && e.2.observed.generation = e.2.generation && !isRacing f e.1
    then e.2.position.map fun k => (e.1, k) else none

def pickGpu (c : Config) (f : Fleet p) : Except String (ℕ × Option String) :=
  match firstKey f.slots fun _ s => s.position.isNone && usable f s with
  | some n => .ok (n, none)
  | none =>
    if lentTiles f ≥ c.borrowCap f.n then
      .error (toString (lentTiles f) ++ " of " ++ toString (c.borrowCap f.n) ++
        " wall tiles are already lent to visitors; try again when one returns")
    else match (lendable f).getLast? with
      | some (n, k) => .ok (n, some (tileName .fcvm k))
      | none => .error "no wall tile can be lent now: every tile is relaunching or racing"

def claimCooldown (ends : ExtTreeMap String ℕ) (client : String) (now cooldownSecs : ℕ) (what again : String) :
    Except String Unit :=
  match ends[client]? with
  | none => .ok ()
  | some e =>
    let freeAt := e + cooldownSecs * 1000
    if now < freeAt then
      .error ("your last " ++ what ++ " was returned " ++ toString ((now - e) / 1000) ++ " s ago; " ++ again ++
        " again in " ++ toString (divCeil (freeAt - now) 1000) ++ " s")
    else .ok ()

def claimSession (n : ℕ) : String := "claim-" ++ toString n

variable (c : Ctx)

def putClaim (cfg : Config) (token session : String) (borrowed : Option String) (start : p.Keyframe)
    (s : Slot p) : Slot p :=
  let s := bump s ("claim:" ++ session) c.now
  { s with
    claim := some
      { session := session
        viewer := c.viewer
        client := c.client
        token := token
        claimedAt := c.now
        expiresAt := c.now + cfg.claimSecs * 1000
        generation := s.generation
        firstFrameAt := none
        flown := ⟨[start], true, none⟩
        borrowed := borrowed } }

def claim (c : Ctx) : Command (State p) String String := do
  let s ← get
  let f := s.fleet
  let token ← lift (required c.secret "a claim needs a session token from the coordinator")
  refuseIf (f.slots.toList.any fun e => e.2.claim.any fun k => k.client = c.client) "one GPU per client at a time"
  lift (claimCooldown f.lastClaimEnd c.client c.now s.config.claimCooldownSecs "GPU" "claim")
  let (n, borrowed) ← lift (pickGpu s.config f)
  let session := claimSession (f.claimCount + 1)
  -- the camera waits at the autopilot's start until the first frame shows, then flies
  let start := p.startPose (f.scene.tAt c.now) c.id
  modify fun s =>
    { s with fleet := { s.fleet with
        claimCount := s.fleet.claimCount + 1
        slots := s.fleet.slots.modify n (putClaim c s.config token session borrowed start) } }
  return session ++ " on " ++ slotName n

def release (n now : ℕ) (f : Fleet p) : Fleet p :=
  match f.slots[n]? with
  | none => f
  | some s => match s.claim with
    | none => f
    | some k =>
      { f with
        slots := f.slots.insert n (bump { s with claim := none } ("return:" ++ k.session) now)
        lastClaimEnd := f.lastClaimEnd.insert k.client now }

def phoneClaim (s : Slot p) : Option PhoneClaim := s.phone.bind PhoneSlot.claim

def ownPhone (viewer : String) : Option (ℕ × Slot p × PhoneSlot × PhoneClaim) :=
  f.phones.toList.findSome? fun e => e.2.phone.bind fun ph => ph.claim.bind fun k =>
    if k.viewer = viewer then some (e.1, e.2, ph, k) else none

def checkPhoneClaim (p : Parts) (k : PhoneClaim) (claim : Option String) : Except String Unit :=
  match claim with
  | some named =>
    if named ≠ k.session then .error (p.debugText named ++ " is not this viewer's phone") else .ok ()
  | none => .ok ()

def phoneFree (n : ℕ) (s : Slot p) : Except String Unit :=
  if (phoneClaim s).isSome then .error (phoneName n ++ " is lent to another viewer")
  else if hostDraining f.hosts s || isQuarantined f s then .error (phoneName n ++ " is leaving the fleet")
  else if s.observed.phase ≠ .running || s.observed.generation < s.generation then
    .error (phoneName n ++ " is not running")
  else .ok ()

def pickPhone (want : Option String) : Except String ℕ :=
  match want with
  | some id =>
    match (phoneNumber id).bind fun n => f.phones[n]?.map fun s => (n, s) with
    | none => .error ("no phone " ++ p.debugText id)
    | some (n, s) => (phoneFree f n s).map fun _ => n
  | none =>
    required (firstKey f.phones fun n s => (phoneFree f n s).isOk)
      "no phone can be lent now: none is running and free"

def phoneSession (n : ℕ) : String := "phone-claim-" ++ toString n

def putPhoneClaim (cfg : Config) (session : String) (s : Slot p) : Slot p :=
  { s with phone := some { s.phone.getD .new with
      claim := some ⟨session, c.viewer, c.client, c.now, c.now + cfg.phoneClaimSecs * 1000, none, none⟩ } }

def claimPhone (want : Option String) : Command (State p) String String := do
  let s ← get
  let f := s.fleet
  refuseIf (f.phones.toList.any fun e => (phoneClaim e.2).any fun k => k.client = c.client)
    "one phone per client at a time"
  lift (claimCooldown f.lastPhoneClaimEnd c.client c.now s.config.phoneClaimCooldownSecs "phone" "borrow")
  let lent := f.phones.toList.filterMap fun e => (phoneClaim e.2).map PhoneClaim.expiresAt
  let cap := s.config.phoneLendCap f.phones.size
  let back := (lent.min?.map fun t => divCeil (t - c.now) 1000).getD 0
  refuseIf (lent.length ≥ cap) (toString lent.length ++ " of " ++ toString cap ++
    " phones are already lent; the next comes back in " ++ toString back ++ " s")
  let n ← lift (pickPhone f want)
  let session := phoneSession (f.phoneClaimCount + 1)
  modify fun s =>
    { s with fleet := { s.fleet with
        phoneClaimCount := s.fleet.phoneClaimCount + 1
        phones := s.fleet.phones.modify n (putPhoneClaim c s.config session) } }
  return session ++ " on " ++ phoneName n

def releasePhone (n now : ℕ) (f : Fleet p) : Fleet p :=
  match f.phones[n]? with
  | none => f
  | some s => match s.phone with
    | none => f
    | some ph => match ph.claim with
      | none => f
      | some k =>
        { f with
          phones := f.phones.insert n
            (bump { s with phone := some { ph with claim := none } } ("return:" ++ k.session) now)
          lastPhoneClaimEnd := f.lastPhoneClaimEnd.insert k.client now }

def phoneOffers (n : ℕ) : List PhoneAction :=
  let host := (f.phones[n]?.bind Slot.host).bind fun h => f.hosts[h]?
  PhoneAction.offered ((host.map Host.phoneActions).getD [])

def ACTION_INTERVAL_MS : ℕ := 1000

def TAP_INTERVAL_MS : ℕ := 200

def updatePhone (n : ℕ) (g : PhoneSlot → PhoneSlot) (s : State p) : State p :=
  { s with fleet := { s.fleet with
      phones := s.fleet.phones.modify n fun slot => { slot with phone := slot.phone.map g } } }

def noteTap (n : ℕ) (slot : Slot p) (ph : PhoneSlot) (k : PhoneClaim) : Command (State p) String Unit := do
  refuseIf (!isCurrent slot) (phoneName n ++ " is not running")
  refuseIf (ph.front slot.generation = .browser)
    ("taps reach the phone only in Robot Park; " ++ phoneName n ++ " shows the browser")
  let next := k.lastTapAt.map (· + TAP_INTERVAL_MS)
  refuseIf (next.any fun t => c.now < t) ("one tap every " ++ toString TAP_INTERVAL_MS ++ " ms; wait " ++
    toString (next.getD 0 - c.now) ++ " ms")
  modify (updatePhone n fun ph => { ph with claim := ph.claim.map fun k => { k with lastTapAt := some c.now } })

def noteAction (n : ℕ) (k : PhoneClaim) : Command (State p) String Unit := do
  let next := k.lastActionAt.map (· + ACTION_INTERVAL_MS)
  refuseIf (next.any fun t => c.now < t) ("one action a second; wait " ++ toString (next.getD 0 - c.now) ++ " ms")
  modify (updatePhone n fun ph => { ph with claim := ph.claim.map fun k => { k with lastActionAt := some c.now } })

def showFront (n generation : ℕ) (action : PhoneAction) (s : State p) : State p :=
  match action.frontAfter with
  | some .browser => updatePhone n (fun ph => { ph with browserGeneration := some generation }) s
  | some .app => updatePhone n (fun ph => { ph with browserGeneration := none }) s
  | none => s

/-- An action that was let through: a reboot restores the phone's VM, timed like any relaunch; any other is put into the
phone's assignment. -/
def carryOut (n : ℕ) (slot : Slot p) (k : PhoneClaim) (action : PhoneAction) (point : Option TapPoint) :
    Command (State p) String String :=
  if action = .rebootPhone then do
    modify fun s => { s with fleet := { s.fleet with
      phones := s.fleet.phones.modify n fun slot => bump slot ("reboot:" ++ k.session) c.now } }
    return "reboot " ++ phoneName n
  else do
    modify (showFront n slot.generation action)
    modify fun s => { s with fleet := { s.fleet with phoneActionSeq := s.fleet.phoneActionSeq + 1 } }
    modify fun s => updatePhone n (fun ph => { ph with
      actions := ph.actions ++ [⟨s.fleet.phoneActionSeq, action, c.now, slot.generation, point⟩] }) s
    return match point with
      | some t => "tap at " ++ p.fixed3 t.x ++ ", " ++ p.fixed3 t.y ++ " on " ++ phoneName n
      | none => action.asStr ++ " on " ++ phoneName n

def phoneAction (claim : Option String) (action : PhoneAction) (point : Option TapPoint) :
    Command (State p) String String := do
  let s ← get
  let (n, slot, ph, k) ← lift (required (ownPhone s.fleet c.viewer)
    "phone actions need a phone of your own (claim_phone)")
  lift (checkPhoneClaim p k claim)
  refuseIf (!(phoneOffers s.fleet n).contains action)
    (phoneName n ++ "'s host does not support " ++ action.asStr)
  (if action = .tap then noteTap c n slot ph k else noteAction c n k)
  carryOut c n slot k action point

def ZOOM_KEYS : ℕ := 16

def ZOOM_LEAD_SECS : ℚ := 1

def ZOOM_INTERVAL_MS : ℕ := 2000

def phonesZoom (c : Ctx) (out : Bool) : Command (State p) String String := do
  let s ← get
  let f := s.fleet
  refuseIf f.phones.isEmpty "this fleet runs no phones"
  if f.phonesZoom.out = out then
    return if out then "already zoomed out" else "already zoomed in"
  else
    let next := f.lastPhonesZoomAt[c.client]?.map (· + ZOOM_INTERVAL_MS)
    refuseIf (next.any fun t => c.now < t) ("one zoom every 2 s; wait " ++ toString (next.getD 0 - c.now) ++ " ms")
    modify fun s => { s with fleet := { s.fleet with
      lastPhonesZoomAt := s.fleet.lastPhonesZoomAt.insert c.client c.now } }
    modify fun s =>
      let key : ChromeKey := ⟨s.fleet.scene.tAt c.now + ZOOM_LEAD_SECS, out⟩
      { s with fleet := { s.fleet with
          phonesZoom := ⟨out, some c.now, newest ZOOM_KEYS (s.fleet.phonesZoom.keys ++ [key])⟩ } }
    return if out then "zoom out" else "zoom in"

def dropOldestLight (client : String) (l : List String × List Light) : List String × List Light :=
  let i := l.1.idxOf client
  (l.1.eraseIdx i, l.2.eraseIdx i)

def addLight (cap : ℕ) (client : String) (light : Light) (owners : List String) (lights : List Light) :
    List String × List Light :=
  let kept := (dropOldestLight client)^[owners.count client + 1 - max cap 1] (owners, lights)
  let excess := kept.2.length + 1 - MAX_LIGHTS
  ((kept.1 ++ [client]).drop excess, (kept.2 ++ [light]).drop excess)

def relaunch (c : Ctx) (tile : String) : Command (State p) String String := do
  let s ← get
  let f := s.fleet
  let (half, n) ← lift (required (findSlot f tile) ("no GPU behind " ++ tile))
  lift (rate f.lastRelaunchAt c.client c.now s.config.relaunchIntervalMs "relaunch")
  let name := match half with
    | .fcvm => slotName n
    | .ec2 => ec2Name n
  let slot := (f.side half)[n]?
  refuseIf (half = .fcvm && slot.any (hostDraining f.hosts)) (name ++ " is on a draining host")
  refuseIf (slot.any fun t => t.claim.isSome) (name ++ " is a viewer's own GPU right now")
  modify fun s =>
    let f := s.fleet
    { s with fleet := match half with
      | .fcvm => { f with slots := f.slots.modify n fun t => bump t ("viewer:" ++ c.viewer) c.now }
      | .ec2 => { f with ec2 := f.ec2.modify n fun t => bump t ("viewer:" ++ c.viewer) c.now } }
  modify fun s => { s with fleet := { s.fleet with lastRelaunchAt := s.fleet.lastRelaunchAt.insert c.client c.now } }
  return "relaunch " ++ name

def checkWord (check : Option TextCheck) (sky : List String) : Except String Unit :=
  match check with
  | none => .error "the text check did not run"
  | some k =>
    if k.verdict = "error" then .error k.reason
    else if ¬ k.allowed then .error ("the text check refused it: " ++ k.reason)
    else if k.sky ≠ sky then
      .error "the words in the sky changed while this one was checked; send it again"
    else .ok ()

def placeWord (text : String) (textStyle : TextStyle) (check : Option TextCheck) :
    Command (State p) String String := do
  let s ← get
  lift (rate s.fleet.lastWordAt c.client c.now s.config.wordIntervalMs "word")
  lift (checkWord check (sky s.fleet))
  modify fun s => { s with fleet := { s.fleet with lastWordAt := s.fleet.lastWordAt.insert c.client c.now } }
  modify fun s =>
    let scene := s.fleet.scene
    { s with fleet := { s.fleet with
        scene := { scene with
          words := trimViewerWords (scene.words ++ [⟨text, scene.tAt c.now, textStyle, false⟩]) } } }
  if s.config.historyIdleSecs > 0 then
    modify fun s => { s with fleet := { s.fleet with
      historyReadyAt := some (c.now + holdMs textStyle + s.config.historyIdleSecs * 1000) } }
  return "word " ++ p.debugText text

def placeLight (pos color : ℚ × ℚ × ℚ) : Command (State p) String String := do
  let s ← get
  lift (rate s.fleet.lastLightAt c.client c.now s.config.lightIntervalMs "light")
  modify fun s => { s with fleet := { s.fleet with lastLightAt := s.fleet.lastLightAt.insert c.client c.now } }
  modify fun s =>
    let f := s.fleet
    let lights := addLight s.config.lightsPerClient c.client
      ⟨pos, color, f.scene.tAt c.now⟩ f.lightOwners f.scene.lights
    { s with fleet := { f with lightOwners := lights.1, scene := { f.scene with lights := lights.2 } } }
  return "light"

def updateClaim (n : ℕ) (g : Claim p.Keyframe → Claim p.Keyframe) (s : State p) : State p :=
  { s with fleet := { s.fleet with
      slots := s.fleet.slots.modify n fun slot => { slot with claim := slot.claim.map g } } }

def claimAutopilot (fly : Bool) : Command (State p) String String := do
  let s ← get
  let (n, _, k) ← lift (required (ownClaim s.fleet c.viewer) "claim_autopilot needs a GPU of your own (claim_gpu)")
  let t := s.fleet.scene.tAt c.now
  match fly, k.flown.autopilot with
  | true, true => return "autopilot already on"
  | false, false => return "autopilot already off"
  | true, false =>
    modify (updateClaim n fun k => { k with flown := p.autopilotResume k.flown k.firstFrameAt t c.id })
    return "autopilot on"
  | false, true =>
    modify (updateClaim n fun k => { k with flown := p.autopilotPause k.flown t c.id })
    return "autopilot off"

def onFleet (g : Fleet p → Fleet p) (s : State p) : State p := { s with fleet := g s.fleet }

def intentEffect (intent : Intent) (check : Option TextCheck) : Command (State p) String String := do
  let s ← get
  match intent with
  | .relaunch tile => relaunch c tile
  | .wake =>
    refuseIf (!s.config.powerManaged) "this fleet does not sleep"
    refuseIf (c.viewer ∉ s.fleet.viewers) "only a connected page can wake the fleet"
    modify (onFleet fun f => { f with power := { f.power with lastArrivalAt := some c.now } })
    return "wake"
  | .restartNow =>
    refuseIf (s.fleet.power.state = .asleep) "the GPUs are asleep"
    refuseIf (s.fleet.cooldownUntil.any fun t => c.now < t) ("restart is cooling down for another " ++
      toString (divCeil (s.fleet.cooldownUntil.getD 0 - c.now) 1000) ++ " s")
    modify (onFleet (startRace s.config ("viewer:" ++ c.viewer) c.now))
    return "race " ++ toString (s.fleet.raceCount + 1)
  | .nudge target =>
    update fun s =>
      let (r, d) := s.fleet.director.vote p c.client target c.id c.now
      (r, onFleet (fun f => { f with director := d }) s)
    return "nudge " ++ target
  | .word text textStyle => placeWord c text textStyle check
  | .light pos color => placeLight c pos color
  | .claimGpu =>
    refuseIf (s.fleet.power.state = .asleep) "the GPUs are asleep"
    claim c
  | .claimPhone phone =>
    refuseIf (s.fleet.power.state = .asleep) "the GPUs are asleep"
    claimPhone c phone
  | .releasePhone claim =>
    let (n, _, _, k) ← lift (required (ownPhone s.fleet c.viewer) "this viewer holds no phone")
    lift (checkPhoneClaim p k claim)
    modify (onFleet (releasePhone n c.now))
    return "release phone"
  | .phoneAction claim action point => phoneAction c claim action point
  | .phonesZoom out => phonesZoom c out
  | .potatoFaster =>
    update fun s =>
      let (r, g) := s.fleet.potato.faster s.config c.client c.now
      (r, onFleet (fun f => { f with potato := g }) s)
    return "faster"
  | .potatoRestart =>
    update fun s =>
      let (r, g) := s.fleet.potato.restart s.config c.client c.now
      (r, onFleet (fun f => { f with potato := g }) s)
    return "restart"
  | .releaseGpu claim =>
    let (n, _, k) ← lift (required (ownClaim s.fleet c.viewer) "this viewer holds no GPU")
    refuseIf (claim.any fun named => named ≠ k.session)
      (p.debugText (claim.getD "") ++ " is not this viewer's claim")
    modify (onFleet (release n c.now))
    return "release"
  | .claimCamera yawDeg pitchDeg dive =>
    let (n, _, _) ← lift (required (ownClaim s.fleet c.viewer) "claim_camera needs a GPU of your own (claim_gpu)")
    let t := s.fleet.scene.tAt c.now
    modify (updateClaim n fun k => { k with flown := p.steer k.flown t yawDeg pitchDeg dive c.id })
    return "claim camera"
  | .claimAutopilot fly => claimAutopilot c fly

end Fcvm.FleetCore
