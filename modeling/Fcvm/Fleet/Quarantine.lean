import Mathlib.Data.List.AList
import Fcvm.FleetCore.State
import Fcvm.Library.Delimited

namespace Fcvm.Fleet

structure Sbdf where
  text : String
  plain : '/' ∉ text.toList
  deriving DecidableEq

structure GpuId where
  host : String
  sbdf : Sbdf
  deriving DecidableEq

def gpuKey (g : GpuId) : String := FleetCore.gpuKey g.host g.sbdf.text

theorem gpuKey_injective : Function.Injective gpuKey := by
  rintro ⟨h, s⟩ ⟨h', s'⟩ heq
  have hlist : h.toList ++ '/' :: s.text.toList = h'.toList ++ '/' :: s'.text.toList := by
    have hkey := congrArg String.toList heq
    simpa [gpuKey, FleetCore.gpuKey] using hkey
  obtain ⟨hhost, htext⟩ := Library.append_cons_inj s.plain s'.plain hlist
  obtain ⟨text, plain⟩ := s
  obtain ⟨text', plain'⟩ := s'
  have : text = text' := String.toList_injective htext
  have : h = h' := String.toList_injective hhost
  subst_vars
  rfl

structure Quarantined where
  gpu : GpuId
  error : String
  since : ℕ
  report : Option ℕ

/-- What was applied on the way to a state, at which point of the run, and of a release whether it ended a quarantine.
-/
inductive Past where
  | reported (gpu : GpuId) (report : Option ℕ) (time : ℕ)
  | released (gpu : GpuId) (time : ℕ) (ended : Bool)
  deriving DecidableEq

/-- The fleet state as far as quarantines go. `history`, newest first, is read by no function: it says how the state
came to be. -/
structure State where
  version : ℕ
  quarantined : String → Option Quarantined
  releasedReports : String → Option ℕ
  history : List Past

namespace State

def new : State := ⟨0, fun _ => none, fun _ => none, []⟩

variable (s : State)

def quarantine (g : GpuId) (error : String) (report : Option ℕ) (now : ℕ) : State :=
  if (s.quarantined (gpuKey g)).isSome then s
  else { s with quarantined := Function.update s.quarantined (gpuKey g) (some ⟨g, error, now, report⟩) }

def agentQuarantine (g : GpuId) (error : String) (report : Option ℕ) (now : ℕ) : State :=
  if report.isSome ∧ s.releasedReports (gpuKey g) = report then s else s.quarantine g error report now

def releaseQuarantine (g : GpuId) : State :=
  match s.quarantined (gpuKey g) with
  | none => s
  | some q =>
    { s with
      quarantined := Function.update s.quarantined (gpuKey g) none
      releasedReports :=
        match q.report with
        | none => s.releasedReports
        | some r => Function.update s.releasedReports (gpuKey g) (some r) }

inductive Event where
  | agentQuarantine (gpu : GpuId) (error : String) (report : Option ℕ)
  | releaseQuarantine (gpu : GpuId)
  | other

def applyInner (now : ℕ) : Event → State
  | .agentQuarantine g error report => s.agentQuarantine g error report now
  | .releaseQuarantine g => s.releaseQuarantine g
  | .other => s

def changes (now : ℕ) : Event → Bool
  | .agentQuarantine g error report =>
    ((s.agentQuarantine g error report now).quarantined (gpuKey g)).isSome ≠ (s.quarantined (gpuKey g)).isSome
  | .releaseQuarantine g => (s.quarantined (gpuKey g)).isSome
  | .other => false

def past (time : ℕ) : Event → List Past
  | .agentQuarantine g _ report => [.reported g report time]
  | .releaseQuarantine g => [.released g time (s.quarantined (gpuKey g)).isSome]
  | .other => []

/-- `apply`, with the events it leads to. The version moves with a quarantine, and `moved` more for what else changes.
-/
def apply (event : Event) (now time moved : ℕ) : State :=
  let s' := s.applyInner now event
  { s' with
    version := s.version + moved + (s.changes now event).toNat
    history := s.past time event ++ s.history }

def resumed : State := { s with version := s.version + 1 }

end State

inductive Line where
  | hello (host : String)
  | slot (id : String)
  | aggregate
  | draining
  | quarantine (sbdf : Sbdf) (error : String) (report : ℕ)
  | other
  deriving DecidableEq

inductive Key where
  | slot (id : String)
  | aggregate
  | draining
  | quarantine (sbdf : Sbdf)
  deriving DecidableEq

inductive Frame where
  | assign (slots : List String)
  | quarantineStored (sbdf : Sbdf) (report : Option ℕ)
  | other

structure Replay where
  hello : Option Line
  keyed : AList fun _ : Key => Line

namespace Replay

def empty : Replay := ⟨none, ∅⟩

def note (r : Replay) : Line → Replay
  | .hello host => { r with hello := some (.hello host) }
  | .slot id => { r with keyed := r.keyed.insert (.slot id) (.slot id) }
  | .aggregate => { r with keyed := r.keyed.insert .aggregate .aggregate }
  | .draining => { r with keyed := r.keyed.insert .draining .draining }
  | .quarantine sbdf error report =>
    { r with keyed := r.keyed.insert (.quarantine sbdf) (.quarantine sbdf error report) }
  | .other => r

def keep (slots : List String) : Key → Bool
  | .slot id => slots.contains id
  | _ => true

def report : Line → Option ℕ
  | .quarantine _ _ r => some r
  | _ => none

def held (r : Replay) (sbdf : Sbdf) : Option ℕ := (r.keyed.lookup (.quarantine sbdf)).bind report

def coordinatorFrame (r : Replay) : Frame → Replay
  | .assign slots =>
    { r with keyed := ⟨r.keyed.entries.filter fun e => keep slots e.1, r.keyed.nodupKeys.sublist List.filter_sublist⟩ }
  | .quarantineStored sbdf named =>
    match r.keyed.lookup (.quarantine sbdf) with
    | none => r
    | some line => if report line = named then { r with keyed := r.keyed.erase (.quarantine sbdf) } else r
  | .other => r

def lines (r : Replay) : List Line := r.hello.toList ++ r.keyed.entries.map (·.2)

end Replay

end Fcvm.Fleet
