import Mathlib.Algebra.GroupWithZero.Nat
import Mathlib.Data.List.Sort
import Fcvm.GpuHosts.Cloud

namespace Fcvm.GpuHosts

open Library Prog

def now : Program ℕ := perform Op.now
def uuid : Program ℕ := perform Op.uuid
def power : Program String := perform Op.power
variable (region : Region)

def hosts : Program (Option (List Host)) := perform (Op.hosts region)
def launch (market : Market) (count token asked : ℕ) : Program (Option Launch) :=
  perform (Op.launch region market count token asked)
def terminate (ids : List ℕ) : Program Bool := perform (Op.terminate region ids)

structure Recent where
  id : ℕ
  region : Region
  market : Market
  asked : ℕ
  deriving DecidableEq

structure Lost where
  region : Region
  market : Market
  token : ℕ
  count : ℕ
  first : ℕ
  last : ℕ
  deriving DecidableEq

def Lost.at (l : Lost) (region : Region) (market : Market) : Bool := l.region = region && l.market = market

structure Pass where
  recent : List Recent
  tokens : List Lost
  onDemand : Option ℕ

def withRecent (listed : List Host) (recent : List Recent) (now : ℕ) : List Host × List Recent :=
  let unnamed : Recent → Bool := fun r => r.region = region && listed.all (·.id ≠ r.id)
  let young : Recent → Bool := fun r => now - r.asked < LIST_GRACE
  (listed ++ (recent.filter fun r => unnamed r && young r).map (fun r => ⟨r.id, .pending, r.market⟩),
    recent.filter fun r => !unnamed r || young r)

def insertRecent (recent : List Recent) (r : Recent) : List Recent := recent.filter (·.id ≠ r.id) ++ [r]

def orInsertRecent (recent : List Recent) (r : Recent) : List Recent :=
  if recent.any (·.id = r.id) then recent else recent ++ [r]

def goesBefore (a b : Host) : Bool :=
  match a.market, b.market with
  | .onDemand, .spot => true
  | .spot, .onDemand => false
  | _, _ =>
    if a.state = .running ↔ b.state = .running then a.id ≤ b.id else b.state = .running

def liveHosts (hosts : List Host) : List Host := hosts.filter (·.state.live)

def excess (hosts : List Host) (want : ℕ) : List ℕ :=
  (((liveHosts hosts).insertionSort fun a b => goesBefore a b).take ((liveHosts hosts).length - want)).map (·.id)

inductive TokenStep where
  | ask
  | hold
  | drop
  deriving DecidableEq

def tokenStep (first last now ttl : ℕ) : TokenStep :=
  if now - first < ttl then .ask
  else if now - last < ttl then .hold
  else .drop

variable (tokens : List Lost)

def lookup (region : Region) (market : Market) : Option Lost := tokens.find? (·.at region market)

def removeToken (region : Region) (market : Market) : List Lost :=
  tokens.filter fun l => !l.at region market

def insertToken (l : Lost) : List Lost := removeToken tokens l.region l.market ++ [l]

def touch (region : Region) (market : Market) (asked : ℕ) : List Lost :=
  tokens.map fun l => if l.at region market then { l with last := asked } else l

section Reconcile

variable (cfg : Config) (region : Region)

def recovered (hosts : List Host) (market : Market) (l : Lost) (asked : ℕ) (ids : List ℕ) (st : Pass) : Pass :=
  let new := ids.filter fun id => hosts.all (·.id ≠ id)
  let follow := ids.filter fun id => !hosts.any fun h => h.id = id && !h.state.live
  { recent := (follow.map fun id => ⟨id, region, market, asked⟩).foldl orInsertRecent st.recent
    tokens := removeToken st.tokens region market
    onDemand := if market = .onDemand then st.onDemand.map fun n => n - l.count + new.length else st.onDemand }

def reconcileFrom (hosts : List Host) : List Market → List ℕ → Bool → Pass → Program (Option (List ℕ) × Pass)
  | [], found, held, st => pure (if held then none else some found, st)
  | market :: markets, found, held, st =>
    match lookup st.tokens region market with
    | none => reconcileFrom hosts markets found held st
    | some l => do
      let asked ← now
      if tokenStep l.first l.last asked cfg.lostLaunchTtl ≠ .ask then reconcileFrom hosts markets found true st
      else do
        let st := { st with tokens := touch st.tokens region market asked }
        match ← launch region market l.count l.token asked with
        | some got =>
          let new := got.ids.filter fun id => hosts.all (·.id ≠ id)
          reconcileFrom hosts markets (found ++ new) held (recovered region hosts market l asked got.ids st)
        | none => pure (none, st)

def reconcile (hosts : List Host) (st : Pass) : Program (Option (List ℕ) × Pass) :=
  reconcileFrom cfg region hosts [.spot, .onDemand] [] false st

end Reconcile

section Shortfall

variable (cfg : Config) (region : Region)

def askFor (market : Market) (ask : ℕ) (refused : List String) (onDemand : Option ℕ) : Except Bool ℕ :=
  if ask = 0 then .error false
  else
    match market with
    | .spot => .ok ask
    | .onDemand =>
      if refused = [] then .error false
      else
        match onDemand with
        | none => .error true
        | some n => if cfg.onDemandMax - n = 0 then .error false else .ok (min ask (cfg.onDemandMax - n))

def addOnDemand (market : Market) (count : ℕ) (onDemand : Option ℕ) : Option ℕ :=
  if market = .onDemand then onDemand.map (· + count) else onDemand

def launchFrom (short : ℕ) : List Market → ℕ → List String → Bool → Pass → Program ((ℕ × Bool) × Pass)
  | [], launched, _, failed, st => pure ((launched, !failed), st)
  | market :: markets, launched, refused, failed, st =>
    match askFor cfg market (short - launched) refused st.onDemand with
    | .error broken => pure ((launched, !(failed || broken)), st)
    | .ok ask => do
      let token ← uuid
      let asked ← now
      match ← launch region market ask token asked with
      | none =>
        pure ((launched, false),
          { st with
            tokens := insertToken st.tokens ⟨region, market, token, ask, asked, asked⟩
            onDemand := addOnDemand market ask st.onDemand })
      | some got =>
        let launched := launched + got.ids.length
        let failed := failed || got.failed ≠ [] || (launched < short && got.refused = [] && got.failed = [])
        launchFrom short markets launched got.refused failed
          { st with
            recent := (got.ids.map fun id => ⟨id, region, market, asked⟩).foldl insertRecent st.recent
            onDemand := addOnDemand market got.ids.length st.onDemand }

def launchShortfall (short : ℕ) (st : Pass) : Program ((ℕ × Bool) × Pass) :=
  launchFrom cfg region short [.spot, .onDemand] 0 [] false st

end Shortfall

section Run

variable (cfg : Config)

def retainRecent (hosts : List Host) (now : ℕ) (recent : List Recent) : List Recent :=
  recent.filter fun r => r.region ≠ region || hosts.any fun h =>
    h.id = r.id && (h.state = .pending || h.state = .running && now - r.asked < LIST_GRACE)

def terminateUnlessEmpty (ids : List ℕ) : Program Unit :=
  if ids = [] then pure ()
  else do
    let _ ← terminate region ids
    pure ()

def toTerminate (hosts : List Host) (want : ℕ) : List ℕ :=
  ((hosts.filter fun h => h.state.present && (want = 0 || !h.state.live)).map (·.id)) ++
    if 0 < want then excess hosts want else []

def passRegion (want now : ℕ) (region : Region) (hosts : List Host) (nextLaunch : Option ℕ) (st : Pass) :
    Program (Option ℕ × Pass) := do
  let st := { st with recent := retainRecent region hosts now st.recent }
  let ids := toTerminate hosts want
  terminateUnlessEmpty region ids
  if want = 0 then do
    let (lost, st) ← reconcile cfg region hosts st
    terminateUnlessEmpty region ((lost.getD []).filter (· ∉ ids))
    pure (nextLaunch, st)
  else
    let live := (liveHosts hosts).length
    if want ≤ live ∨ nextLaunch.all (· ≤ now) then do
      let (found, st) ← reconcile cfg region hosts st
      match found with
      | none => pure (nextLaunch, st)
      | some found =>
        let live := live + found.length
        if live < want then do
          let short := want - live
          let ((launched, retry), st) ← launchShortfall cfg region short st
          pure (if launched < short ∧ retry then some (now + cfg.capacityRetry) else none, st)
        else pure (nextLaunch, st)
    else pure (nextLaunch, st)

def passRegions (want now : ℕ) : List (Region × Option (List Host) × Option ℕ) → Pass → Program (List (Option ℕ) × Pass)
  | [], st => pure ([], st)
  | (_, none, nextLaunch) :: rest, st => do
    let (watch, st) ← passRegions want now rest st
    pure (nextLaunch :: watch, st)
  | (region, some hosts, nextLaunch) :: rest, st => do
    let (nextLaunch, st) ← passRegion cfg want now region hosts nextLaunch st
    let (watch, st) ← passRegions want now rest st
    pure (nextLaunch :: watch, st)

def listRegions (now : ℕ) : List Region → List Recent → Program (List (Option (List Host)) × List Recent)
  | [], recent => pure ([], recent)
  | region :: regions, recent => do
    match ← hosts region with
    | none => do
      let (listed, recent) ← listRegions now regions recent
      pure (none :: listed, recent)
    | some hosts => do
      let (hosts, recent) := withRecent region hosts recent now
      let (listed, recent) ← listRegions now regions recent
      pure (some hosts :: listed, recent)

def onDemandOf (hosts : List Host) : List ℕ :=
  (hosts.filter fun h => h.market = .onDemand && h.state.present).map (·.id)

def reserved : ℕ := ((tokens.filter (·.market = .onDemand)).map (·.count)).sum

def countOnDemand (listed : List (Option (List Host))) (tokens : List Lost) : Option ℕ :=
  if listed.all Option.isSome then
    some ((listed.map fun hosts => (onDemandOf (hosts.getD [])).length).sum + reserved tokens)
  else none

structure Vars where
  watch : List (Option ℕ)
  recent : List Recent
  tokens : List Lost
  lastWant : Option ℕ

def Vars.initial : Vars where
  watch := cfg.regions.map fun _ => none
  recent := []
  tokens := []
  lastWant := none

def pass (v : Vars) : Program Vars := do
  let state ← power
  let want := wantOf cfg state
  let watch := if v.lastWant = some want then v.watch else cfg.regions.map fun _ => none
  let now ← GpuHosts.now
  let tokens := v.tokens.filter fun l => tokenStep l.first l.last now cfg.lostLaunchTtl ≠ .drop
  let (listed, recent) ← listRegions now cfg.regions v.recent
  let (watch, st) ← passRegions cfg want now (cfg.regions.zip (listed.zip watch))
    { recent := recent, tokens := tokens, onDemand := countOnDemand listed tokens }
  pure { watch := watch, recent := st.recent, tokens := st.tokens, lastWant := some want }

def run : ℕ → Vars → Program Unit
  | 0, _ => pure ()
  | n + 1, v => do
    let v ← pass cfg v
    run n v

end Run

end Fcvm.GpuHosts
