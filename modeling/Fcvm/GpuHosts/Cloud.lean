import Mathlib.Data.List.Forall2
import Mathlib.Logic.Function.Basic
import Fcvm.Library.Thread

namespace Fcvm.GpuHosts

open Library

abbrev Region := String

inductive Market where
  | spot
  | onDemand
  deriving DecidableEq

/-- The EC2 state names, in the order in which an instance goes through them. -/
inductive HostState where
  | pending
  | running
  | stopping
  | stopped
  | shuttingDown
  | terminated
  deriving DecidableEq

namespace HostState

def rank : HostState → ℕ
  | pending => 0
  | running => 1
  | stopping => 2
  | stopped => 3
  | shuttingDown => 4
  | terminated => 5

def live (s : HostState) : Bool := s = pending || s = running

def present (s : HostState) : Bool := !(s = shuttingDown || s = terminated)

theorem live_of_rank_le {s t : HostState} (h : s.rank ≤ t.rank) (ht : t.live = true) : s.live = true := by
  cases t with
  | pending | running => cases s <;> first | rfl | (simp [rank] at h)
  | stopping | stopped | shuttingDown | terminated => cases ht

theorem present_of_live {s : HostState} (h : s.live = true) : s.present = true := by
  cases s with
  | pending | running => rfl
  | stopping | stopped | shuttingDown | terminated => cases h

end HostState

structure Host where
  id : ℕ
  state : HostState
  market : Market
  deriving DecidableEq

structure Launch where
  ids : List ℕ
  refused : List String
  failed : List String
  deriving DecidableEq

def LIST_GRACE : ℕ := 60 * 1000000000

structure Instance where
  id : ℕ
  region : Region
  market : Market
  token : Option ℕ
  state : HostState
  deriving DecidableEq

structure Ask where
  region : Region
  market : Market
  count : ℕ
  last : ℕ
  launched : Bool
  deriving DecidableEq

/-- A launch request that repeats no other, the live hosts of its region at that time, and the hosts wanted. -/
structure Request where
  region : Region
  count : ℕ
  live : ℕ
  want : ℕ
  deriving DecidableEq

structure Cloud where
  time : ℕ
  instances : List Instance
  asks : ℕ → Option Ask
  nextToken : ℕ
  want : ℕ
  requests : List Request

variable (c : Cloud)

def Cloud.liveIn (region : Region) : ℕ :=
  (c.instances.filter fun x => x.region = region && x.state.live).length

def Cloud.liveOnDemand : ℕ :=
  (c.instances.filter fun x => x.market = .onDemand && x.state.live).length

inductive Move where
  | tick (duration : ℕ)
  | advance (id : ℕ) (state : HostState)

def Instance.advance (x : Instance) (id : ℕ) (state : HostState) : Instance :=
  if x.id = id ∧ x.state.rank ≤ state.rank then { x with state := state } else x

def Cloud.move : Move → Cloud
  | .tick duration => { c with time := c.time + duration }
  | .advance id state => { c with instances := c.instances.map fun x => x.advance id state }

def Cloud.visible (c : Cloud) (x : Instance) : Bool :=
  match x.token with
  | none => true
  | some t => (c.asks t).all fun a => a.last + LIST_GRACE ≤ c.time

/-- A list shows instances of the region in the state they are in or an older one, and leaves out none that is visible.
-/
def Cloud.MayList (region : Region) (hosts : List Host) : Prop :=
  (∀ h ∈ hosts, ∃ x ∈ c.instances,
    x.id = h.id ∧ x.region = region ∧ x.market = h.market ∧ h.state.rank ≤ x.state.rank) ∧
  ∀ x ∈ c.instances, x.region = region → x.state ≠ .terminated → c.visible x = true → ∃ h ∈ hosts, h.id = x.id

instance (c : Cloud) (region : Region) (hosts : List Host) : Decidable (c.MayList region hosts) :=
  inferInstanceAs (Decidable (_ ∧ _))

inductive Op where
  | power
  | now
  | hosts (region : Region)
  | uuid
  | launch (region : Region) (market : Market) (count token asked : ℕ)
  | terminate (region : Region) (ids : List ℕ)

abbrev Res : Op → Type
  | .power => String
  | .now => ℕ
  | .hosts _ => Option (List Host)
  | .uuid => ℕ
  | .launch _ _ _ _ _ => Option Launch
  | .terminate _ _ => Bool

abbrev Program := Prog Op Res

inductive Answer where
  | none
  | power (state : String)
  | hosts (hosts : Option (List Host))
  /-- The instances that it launches, and the refusals and failures that the answer names unless it is lost. -/
  | launch (ids : List ℕ) (reply : Option (List String × List String))
  | terminate (ok : Bool)

structure Input where
  moves : List Move
  answer : Answer

structure Config where
  regions : List Region
  awakeCapacity : ℕ
  onDemandMax : ℕ
  capacityRetry : ℕ
  lostLaunchTtl : ℕ

def wantOf (cfg : Config) (state : String) : ℕ := if state = "asleep" then 0 else cfg.awakeCapacity

def Cloud.launchedBy (token : ℕ) : List ℕ := (c.instances.filter fun x => x.token = some token).map (·.id)

def Cloud.launch (region : Region) (market : Market) (count token asked : ℕ) (ids : List ℕ) : Cloud :=
  { c with
    instances := c.instances ++ ids.map fun id => ⟨id, region, market, some token, .pending⟩
    asks := Function.update c.asks token
      (some ⟨region, market, count, asked, ids ≠ [] || (c.asks token).any (·.launched)⟩)
    requests := if (c.asks token).isNone then ⟨region, count, c.liveIn region, c.want⟩ :: c.requests else c.requests }

def Cloud.mayLaunch (count token : ℕ) (ids : List ℕ) : Bool :=
  ids.length ≤ count && ids.Nodup && ids.all (fun id => c.instances.all fun x => x.id ≠ id) &&
    (ids.isEmpty || !(c.asks token).any (·.launched))

def exec (cfg : Config) (o : Op) (c : Cloud) (i : Input) : Option (Cloud × Res o) :=
  let c := i.moves.foldl Cloud.move c
  match o, i.answer with
  | .power, .power state => some ({ c with want := wantOf cfg state }, state)
  | .now, .none => some (c, c.time)
  | .hosts _, .hosts none => some (c, none)
  | .hosts region, .hosts (some hosts) => if c.MayList region hosts then some (c, some hosts) else none
  | .uuid, .none => some ({ c with nextToken := c.nextToken + 1 }, c.nextToken)
  | .launch region market count token asked, .launch ids reply =>
    if c.mayLaunch count token ids then
      let c := c.launch region market count token asked ids
      some (c, reply.map fun r => ⟨c.launchedBy token, r.1, r.2⟩)
    else none
  | .terminate _ _, .terminate ok => some (c, ok)
  | _, _ => none

def machine (cfg : Config) : Machine Cloud Cloud Input Empty Op Res where
  own := id
  exec := exec cfg
  environment _ e := nomatch e

end Fcvm.GpuHosts
