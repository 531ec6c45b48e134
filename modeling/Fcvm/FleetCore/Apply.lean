import Fcvm.FleetCore.Intents
import Fcvm.FleetCore.Reports
import Fcvm.FleetCore.Retile
import Fcvm.Library.System

/-! `apply`, the only way the fleet state changes (`fleet/core/src/apply.rs`), and the fleet as a system of events. -/

namespace Fcvm.FleetCore

open Std (ExtTreeMap ExtTreeSet)

variable {p : Parts}

def rendersOnWall (s : Slot p) : Bool := s.position.isSome && (s.half = .fcvm || s.observed.vm.isSome)

/-- Every placed fcvm tile runs its current generation, and every EC2 tile does too or is waiting for capacity. -/
def imageComplete (f : Fleet p) : Bool :=
  ((f.slots.toList ++ f.ec2.toList).any fun e => rendersOnWall e.2) &&
    (f.slots.toList.all fun e => e.2.position.isNone || isCurrent e.2) &&
    f.ec2.toList.all fun e => isCurrent e.2 || e.2.observed.phase = .waitingCapacity

def wakeOpen (w : Power) : Bool :=
  w.wokeAt.isSome && (w.state = .waking || w.hosts.isEmpty || w.hosts.toList.any fun e => e.2.renderingAt.isNone)

variable (c : Config)

def noArrivalDeadline (w : Power) : Option ℕ :=
  if !c.powerManaged || c.sleepWithoutNewViewerSecs = 0 then none
  else w.lastArrivalAt.map (· + c.sleepWithoutNewViewerSecs * 1000)

def activeViewers (f : Fleet p) : ℕ := f.viewers.keys.countP fun v => v ∉ f.hidden

def hasClaim (f : Fleet p) : Bool :=
  (f.slots.toList.any fun e => e.2.claim.isSome) || f.phones.toList.any fun e => (phoneClaim e.2).isSome

variable (now : ℕ)

variable (f : Fleet p)

def noteIdle : Fleet p :=
  { f with power := { f.power with
      idleSince := if activeViewers f > 0 then none else f.power.idleSince.orElse fun _ => some now } }

def wakeUp : Fleet p :=
  { f with power := { f.power with state := .waking, wokeAt := some now, asleepSince := none, hosts := ∅ } }

def fallAsleep : Fleet p :=
  { f with
    power := { f.power with state := .asleep, asleepSince := some now, wokeAt := none, hosts := ∅ }
    nextRaceAt := none }

def noteRendering : Fleet p :=
  if wakeOpen f.power then
    { f with power := { f.power with
        hosts := f.power.hosts.map fun id w =>
          let mine := f.slots.toList.filter fun e => e.2.host = some id
          if w.renderingAt.isSome || id ∉ f.hosts then w
          else if (mine.any fun e => e.2.position.isSome) && mine.all fun e => e.2.position.isNone || isCurrent e.2 then
            { w with renderingAt := some now }
          else w } }
  else f

def finishWake : Fleet p :=
  if f.power.state = .waking ∧ imageComplete f then
    let started := f.power.wokeAt.getD now
    let gpus := (f.slots.toList ++ f.ec2.toList).countP fun e => rendersOnWall e.2
    { f with
      power := { f.power with
        state := .awake
        wakes := newest MAX_WAKES (f.power.wakes ++ [⟨started, now, gpus, now - started⟩]) }
      nextRaceAt := c.raceIntervalSecs.map fun s => now + s * 1000 }
  else f

/-- Sleep after `idle_scale_down_secs` with no active viewer, or once no viewer has arrived for
`sleep_without_new_viewer_secs` (never during a claim or a race); wake on an active viewer while a viewer has arrived
within that limit, and be awake once the image is complete. -/
def powerStep : Fleet p :=
  if !c.powerManaged then f
  else
    let noArrival := (noArrivalDeadline c f.power).any fun t => t ≤ now
    let active := activeViewers f
    let f := noteIdle now f
    if f.power.state = .asleep then
      -- connected pages do not wake it once the limit has run out: an arrival does
      if active > 0 && !noArrival then wakeUp now f else f
    else
      let idle := active = 0 && f.power.idleSince.any fun t => t + c.idleScaleDownSecs * 1000 ≤ now
      if (idle || noArrival) && !hasClaim f && !raceRunning f then fallAsleep now f
      else finishWake c now (noteRendering now f)

def runSchedule : Fleet p :=
  if f.power.state ≠ .asleep ∧ f.nextRaceAt.any fun t => t ≤ now then startRace c "schedule" now f else f

def directCamera : Fleet p :=
  let t := f.scene.tAt now
  let d := p.directorTick f.director t
  { f with
    director := d
    scene := { f.scene with
      timeOfDay := p.directorTimeOfDay d t
      weather := p.directorWeather d
      camera := p.directorCamera d } }

/-- Write a line of GPU history into the scene when a viewer is watching an awake wall and nothing has been in the sky
for `history_idle_secs`. -/
def historyStep : Fleet p :=
  let gap := c.historyIdleSecs * 1000
  if gap = 0 then f
  else if ¬ (f.power.state = .awake ∧ f.viewers.keys.any fun v => v ∉ f.hidden) then
    -- the gap starts when someone is there to see it
    { f with historyReadyAt := some (match f.historyReadyAt with
        | none => now + gap
        | some r => max r (now + gap)) }
  else match f.historyReadyAt with
    | none => { f with historyReadyAt := some (now + gap) }
    | some ready =>
      if ready ≤ now then
        let line := p.historyPick c.cameraSeed f.historyCount
        { f with
          scene := { f.scene with
            words := (f.scene.words.filter fun w => !w.system) ++ [⟨line.1, f.scene.tAt now, line.2, true⟩] }
          historyCount := f.historyCount + 1
          historyReadyAt := some (now + holdMs line.2 + gap) }
      else f

def extendFlights : Fleet p :=
  { f with slots := f.slots.map fun _ s =>
      { s with claim := s.claim.map fun k => { k with flown := p.autopilotExtend k.flown (f.scene.tAt now) } } }

def claimed (test : Claim p.Keyframe → Bool) (f : Fleet p) : List ℕ :=
  (f.slots.toList.filter fun e => e.2.claim.any test).map Prod.fst

def claimedPhones (test : PhoneClaim → Bool) (f : Fleet p) : List ℕ :=
  (f.phones.toList.filter fun e => (phoneClaim e.2).any test).map Prod.fst

def releaseAll (test : Claim p.Keyframe → Bool) (f : Fleet p) : Fleet p :=
  (claimed test f).foldl (fun f n => release n now f) f

def releasePhones (test : PhoneClaim → Bool) (f : Fleet p) : Fleet p :=
  (claimedPhones test f).foldl (fun f n => releasePhone n now f) f

def TAP_KEEP_MS : ℕ := 3000

def ACTION_KEEP_MS : ℕ := 30000

def dropActions : Fleet p :=
  { f with phones := f.phones.map fun _ s =>
      { s with phone := s.phone.map fun ph => { ph with
          actions := ph.actions.filter fun a =>
            now < a.time + (if a.action = .tap then TAP_KEEP_MS else ACTION_KEEP_MS) &&
              a.generation = s.generation } } }

def RECLAIMED_KEEP_MS : ℕ := 60000

def forget (now interval : ℕ) (m : ExtTreeMap String ℕ) : ExtTreeMap String ℕ := m.filter fun _ t => now < t + interval

def forgetOld : Fleet p :=
  { f with
    -- a reclaimed host is listed for a minute after it is gone
    reclaimed := f.reclaimed.filter fun h e => h ∈ f.hosts || e.2.any fun gone => now < gone + RECLAIMED_KEEP_MS
    lastWordAt := forget now c.wordIntervalMs f.lastWordAt
    lastLightAt := forget now c.lightIntervalMs f.lastLightAt
    lastRelaunchAt := forget now c.relaunchIntervalMs f.lastRelaunchAt
    lastClaimEnd := forget now (c.claimCooldownSecs * 1000) f.lastClaimEnd
    lastPhonesZoomAt := forget now ZOOM_INTERVAL_MS f.lastPhonesZoomAt
    lastPhoneClaimEnd := forget now (c.phoneClaimCooldownSecs * 1000) f.lastPhoneClaimEnd
    counters := { f.counters with
      restoresByMinute := f.counters.restoresByMinute.dropWhile fun e => e.1 + 60 ≤ now / 60000 } }

def tick : Fleet p :=
  let f := extendFlights now (historyStep c now (directCamera now (runSchedule c now f)))
  let f := releaseAll now (fun k => k.expiresAt ≤ now) f
  let f := releasePhones now (fun k => k.expiresAt ≤ now) f
  forgetOld c now (dropActions now f)

def ROUND_MS : ℕ := 2000

def budgetRound : Fleet p :=
  if now < f.budget.nextRoundAt then f
  else
    let drawing (half : Half) (m : ExtTreeMap ℕ (Slot p)) : List (Half × ℕ × Readings p.Json) :=
      (m.toList.filter fun e => rendersOnWall e.2 && e.2.claim.isNone).map fun e => (half, e.1, e.2.observed.readings)
    { f with
      budget := p.budgetRound { f.budget with nextRoundAt := now + ROUND_MS }
        (drawing .fcvm f.slots ++ drawing .ec2 f.ec2) }

def onGpu (host sbdf : String) (s : Slot p) : Bool := s.host = some host && s.gpu.any fun g => g.sbdf = sbdf

def quarantine (host sbdf error : String) (report : Option String) (now : ℕ) (f : Fleet p) : Fleet p :=
  if gpuKey host sbdf ∈ f.quarantined then f
  else
    let f := { f with quarantined := f.quarantined.insert (gpuKey host sbdf) ⟨host, sbdf, error, now, report⟩ }
    let held := (f.slots.toList.filter fun e => onGpu host sbdf e.2 && e.2.claim.isSome).map Prod.fst
    dropFromRaces (onGpu host sbdf) now (held.foldl (fun f n => release n now f) f)

def noteHello (h : Hello) (now : ℕ) (f : Fleet p) : Fleet p :=
  if wakeOpen f.power then
    let w := (f.power.hosts[h.host]?).getD .new
    -- the host's own clock: kept only when it falls inside this wake
    let inside (t : ℕ) : Bool := (f.power.wokeAt.any fun woke => woke ≤ t) && t ≤ now
    let w :=
      if w.agentAt.isNone then
        { w with
          agentAt := some now
          storeReadyAt := w.storeReadyAt.orElse fun _ => h.storeReadyAt.filter inside
          boot := h.boot.filter fun _ t => inside t }
      else w
    { f with power := { f.power with hosts := f.power.hosts.insert h.host w } }
  else f

def agentHello (h : Hello) (now : ℕ) (f : Fleet p) : Fleet p :=
  let f := { f with potato := p.potatoHello f.potato h.host h.potatoPlayers now }
  let f := hello h now f
  let f := { f with hosts := f.hosts.modify h.host fun host => { host with phoneActions := h.phoneActions } }
  noteHello h now (phoneHello h now f)

def agentMsg (host : String) (now : ℕ) (f : Fleet p) : AgentMsg p → Fleet p
  -- the connection names the host; a hello naming another is ignored
  | .hello h => if h.host = host then agentHello h now f else f
  | .slot r =>
    match slotNumber r.id with
    | some n => observeSlot .fcvm n (some host) r now f
    | none => match phoneNumber r.id with
      | some n => observePhone n host r now f
      | none => f
  | .health h => health (some host) h f
  | .draining =>
    dropFromRaces (fun s => s.host = some host) now
      { f with
        hosts := f.hosts.modify host fun h => { h with draining := true }
        reclaimed := f.reclaimed.insertIfNew host (now, none) }
  | .aggregate frameUrl ipv6 ipv4 v4Port =>
    { f with hosts := f.hosts.modify host fun h =>
        { h with
          aggregateUrl := some frameUrl
          aggregateIpv6 := ipv6
          aggregateIpv4 := ipv4
          aggregateV4Port := v4Port } }
  | .scrub ok =>
    { f with counters :=
        if ok then { f.counters with scrubs := f.counters.scrubs + 1 }
        else { f.counters with scrubFailures := f.counters.scrubFailures + 1 } }
  | .quarantine sbdf error report =>
    -- a replay of the report an operator released does not quarantine again
    if report.isSome ∧ f.releasedReports[gpuKey host sbdf]? = report then f
    else quarantine host sbdf error report now f
  | .potato e => { f with potato := p.potatoEvent f.potato host e now }

def agentGone (host : String) (now : ℕ) (f : Fleet p) : Fleet p :=
  let f := { f with
    potato := p.potatoGone f.potato host now
    hosts := f.hosts.erase host
    slots := f.slots.filter fun _ s => s.host ≠ some host
    phones := f.phones.filter fun _ s => s.host ≠ some host }
  -- a host the coordinator scaled away is not a reclaimed one
  let f := if f.power.state ≠ .asleep ∨ host ∈ f.reclaimed then
      { f with reclaimed := f.reclaimed.insert host ((f.reclaimed[host]?.getD (now, none)).1, some now) }
    else f
  dropMissingFromRaces now f

/-- Only for the launch the slot is on: a slower write for an earlier launch must not replace a newer one's names. -/
def publishSlot (names : Published) (s : Slot p) : Slot p :=
  if s.observed.generation = names.generation ∧ s.published.all fun q => q.generation ≤ names.generation then
    { s with published := some names }
  else s

def publish (slot : String) (names : Published) (f : Fleet p) : Fleet p :=
  if slot = EC2_AGGREGATE_ID then
    if names.names p c.ec2AggregateIpv6 c.ec2AggregateIpv4 none then { f with ec2AggregatePublished := some names }
    else f
  else match f.hosts.toList.find? fun e => aggregateId e.2.name = some slot with
    -- a host aggregator's names, for the addresses it reports now
    | some (name, h) =>
      if names.names p h.aggregateIpv6 h.aggregateIpv4 h.aggregateV4Port then
        { f with hosts := f.hosts.insert name { h with aggregatePublished := some names } }
      else f
    | none => match firstKey f.slots fun n _ => slotName n = slot with
      | some n => { f with slots := f.slots.modify n (publishSlot names) }
      | none => match firstKey f.ec2 fun n _ => ec2Name n = slot with
        | some n => { f with ec2 := f.ec2.modify n (publishSlot names) }
        | none => match firstKey f.phones fun n _ => phoneName n = slot with
          | some n => { f with phones := f.phones.modify n (publishSlot names) }
          | none => f

def scaleInstance (hosts : ExtTreeMap String HostWake) (i : ScaleInstance) : ExtTreeMap String HostWake :=
  let w := hosts[i.id]?.getD .new
  hosts.insert i.id
    { w with
      pendingAt := w.pendingAt.orElse fun _ => some now
      bootedAt := if i.inService then w.bootedAt.orElse fun _ => some now else w.bootedAt }

def clientKey (viewer : String) (client : Option String) : String := client.getD viewer

def hideDigits : List Char → List Char → List Char
  | digits, [] => if digits.length = 12 then "(account hidden)".toList else digits
  | digits, c :: cs =>
    if c.isDigit then hideDigits (digits ++ [c]) cs
    else (if digits.length = 12 then "(account hidden)".toList else digits) ++ c :: hideDigits [] cs

def hideAccountIds (text : String) : String := String.ofList (hideDigits [] text.toList)

def pushAction (a : Action p.Json) (f : Fleet p) : Fleet p :=
  { f with actions := newest MAX_ACTIONS (f.actions ++ [a]) }

def runIntent (m : IntentMsg p) (now : ℕ) (s : State p) : Except String String × State p :=
  match Intent.parse p m.name m.args with
  | .error reason => (.error reason, s)
  | .ok intent => intentEffect ⟨m.viewer, clientKey m.viewer m.client, m.id, m.secret, now⟩ intent m.check s

def intentAction (m : IntentMsg p) (now : ℕ) : Except String String → Action p.Json
  | .ok summary => ⟨now, m.viewer, m.id, m.name, m.args, summary, .committed⟩
  | .error reason =>
    ⟨now, m.viewer, m.id, m.name, if m.name = "word" then p.emptyObject else m.args, hideAccountIds reason, .refused⟩

def intentReceipt (m : IntentMsg p) (result : Except String String) : Receipt :=
  let check := m.check.map fun k => { k with reason := hideAccountIds k.reason }
  match result with
  | .ok _ => ⟨m.id, .committed, none, 0, check⟩
  | .error reason => ⟨m.id, .refused, some (hideAccountIds reason), 0, check⟩

def applyIntent (m : IntentMsg p) (now : ℕ) (s : State p) : State p × Option Receipt :=
  if m.id ∈ s.receipts then (s, none)
  else
    let (result, s) := runIntent m now s
    (onFleet (pushAction (intentAction m now result)) s, some (intentReceipt m result))

def applyFleet : EventKind p → Fleet p
  | .intent _ => f
  | .viewerJoined viewer client returning =>
    let f := { f with viewers := f.viewers.insert viewer (clientKey viewer client) }
    if returning then f else { f with power := { f.power with lastArrivalAt := some now } }
  | .visibility viewer visible =>
    if viewer ∈ f.viewers then
      { f with hidden := if visible then f.hidden.erase viewer else f.hidden.insert viewer }
    else f
  | .published slot names => publish c slot names f
  | .hostsExpected hosts => { f with expectedHosts := hosts.map fun hs => ExtTreeSet.ofList hs }
  | .scaleInstances instances =>
    if wakeOpen f.power then
      { f with power := { f.power with hosts := instances.foldl (scaleInstance now) f.power.hosts } }
    else f
  | .viewerLeft viewer =>
    let f := { f with viewers := f.viewers.erase viewer, hidden := f.hidden.erase viewer }
    -- a viewer that leaves gives its GPU back
    releasePhones now (fun k => k.viewer = viewer) (releaseAll now (fun k => k.viewer = viewer) f)
  | .tick =>
    let f := budgetRound now (tick c now f)
    { f with potato := p.potatoTick f.potato now (f.power.state ≠ .asleep) }
  | .ec2Health report => health none report f
  | .agent host msg => agentMsg host now f msg
  | .agentGone host => agentGone host now f
  | .ec2 report =>
    match ec2Number report.id with
    | some n => observeSlot .ec2 n none report now f
    | none => f
  | .degraded component reason =>
    { f with degraded := match reason with
        | some r => f.degraded.insert component (r, (f.degraded[component]?.map Prod.snd).getD now)
        | none => f.degraded.erase component }
  | .releaseQuarantine host sbdf =>
    match f.quarantined[gpuKey host sbdf]? with
    | none => f
    | some q =>
      { f with
        quarantined := f.quarantined.erase (gpuKey host sbdf)
        releasedReports := match q.report with
          | some report => f.releasedReports.insert (gpuKey host sbdf) report
          | none => f.releasedReports }

def applyInner (e : Event p) (s : State p) : State p × Option Receipt :=
  match e.kind with
  | .intent m => applyIntent m e.now s
  | kind => (onFleet (fun f => applyFleet s.config e.now f kind) s, none)

/-- Retile, step the power state on what is placed, and retile again when that changed the power. -/
def settle : Fleet p :=
  let f := retile c now f
  let g := powerStep c now f
  if g.power.state ≠ f.power.state then retile c now g else g

/-- Give `before` the bookkeeping of `after`: state that nobody sees and that a tick moves on its own. -/
def sameBookkeeping (before after : Fleet p) : Fleet p :=
  { before with
    lastWordAt := after.lastWordAt
    lastLightAt := after.lastLightAt
    lastRelaunchAt := after.lastRelaunchAt
    lastClaimEnd := after.lastClaimEnd
    historyReadyAt := after.historyReadyAt
    budget := { before.budget with
      nextRoundAt := after.budget.nextRoundAt
      smoothed := after.budget.smoothed
      upRounds := after.budget.upRounds } }

def fileReceipt (r : Receipt) (s : State p) : State p :=
  let order := s.receiptOrder ++ [r.id]
  let receipts := s.receipts.insert r.id r
  { s with
    receiptOrder := newest MAX_RECEIPTS order
    receipts := (order.take (order.length - MAX_RECEIPTS)).foldl (fun m id => m.erase id) receipts }

/-- Apply one event. The version moves exactly when the state changed; an intent id seen before changes nothing. -/
def apply (s : State p) (e : Event p) : State p :=
  let (inner, receipt) := applyInner e s
  let f := settle inner.config e.now inner.fleet
  let changed := receipt.isSome || f ≠ sameBookkeeping s.fleet f
  let next := { inner with fleet := f, version := if changed then inner.version + 1 else inner.version }
  match receipt with
  | none => next
  | some r => fileReceipt { r with version := next.version } next

/-- The coordinator's state from `State::new` on, an event at a time. -/
def system (p : Parts) : Library.System (State p) (Event p) where
  initial s := ∃ c now, s = State.new c now
  next s e := some (apply s e)

def Parts.plain : Parts where
  Json := Unit
  Keyframe := Unit
  WeatherKey := Unit
  Flight := Unit
  Play := Unit
  Game := Unit
  Granted := Unit
  PotatoEvent := Unit
  emptyObject := ()
  isNull _ := false
  get _ _ := none
  asStr _ := none
  asBool _ := none
  asNum _ := none
  asArray _ := none
  viewpoints := []
  directorNew _ := ⟨none, [], ∅, ()⟩
  directorTick d _ := d
  directorCamera _ := []
  directorTimeOfDay _ _ := 0
  directorWeather _ := []
  startPose _ _ := ()
  autopilotStart f _ _ := f
  autopilotExtend f _ := f
  autopilotResume f _ _ _ := f
  autopilotPause f _ _ := f
  steer f _ _ _ _ _ := f
  budgetNew := ⟨none, 0, 0, ()⟩
  budgetRound b _ := b
  potatoNew := ⟨none, none, none, ∅, ∅, ()⟩
  potatoTick g _ _ := g
  potatoHello g _ _ _ := g
  potatoGone g _ _ := g
  potatoEvent g _ _ _ := g
  historyPick _ _ := ("", .lockup)
  canonicalIp t := t
  debugText t := t
  fixed3 _ := ""
  rowsFor n _ _ := n
  rowsFor_pos _ _ _ h := h
  rowsFor_le _ _ _ := le_rfl

def Config.plain : Config where
  maxTiles := 4
  imageAspect := 1
  tileAspect := 1
  ec2Max := 1
  fcvmTiles := 3
  wordIntervalMs := 1
  historyIdleSecs := 0
  lightIntervalMs := 1
  relaunchIntervalMs := 1
  ec2AggregateIpv6 := none
  ec2AggregateIpv4 := none
  raceIntervalSecs := none
  restartCooldownSecs := 1
  cameraSeed := 1
  lightsPerClient := 1
  claimSecs := 60
  claimCooldownSecs := 1
  maxBorrowed := none
  powerManaged := false
  idleScaleDownSecs := 600
  sleepWithoutNewViewerSecs := 3600
  namesPublished := false
  phoneClaimSecs := 1
  phoneClaimCooldownSecs := 1
  maxPhonesLent := none
  phoneAspect := 1
  potatoFasterIntervalMs := 1
  potatoRestartIntervalMs := 1

def runFrom (events : List (Event p)) : State p := events.foldl apply (State.new c now)

theorem reachable_runFrom (events : List (Event p)) : (system p).Reachable (runFrom c now events) := by
  have hrun : ∀ s : State p, (system p).Reachable s → (system p).Reachable (events.foldl apply s) := by
    induction events with
    | nil => exact fun s hs => hs
    | cons e events ih => exact fun s hs => ih _ (hs.next rfl)
  exact hrun _ (.initial ⟨c, now, rfl⟩)

end Fcvm.FleetCore
