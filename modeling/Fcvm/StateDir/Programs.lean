import Mathlib.Data.List.Dedup
import Mathlib.Data.List.Sort
import Fcvm.StateDir.Model

namespace Fcvm.StateDir

open Library

abbrev Program := Prog Op Res

def does (o : Op) : Program (Res o) := Prog.perform o

inductive LockResult where
  | held (inode : ℕ)
  | wouldBlock
  | failed
  deriving DecidableEq

def acquire (inode : ℕ) (mode : Mode) (nonblocking : Bool) : Program Attempt := do
  match ← does (.tryFlock inode mode) with
  | .acquired => pure .acquired
  | .failed => pure .failed
  | .wouldBlock =>
    if nonblocking then pure .wouldBlock
    else if ← does (.flock inode mode) then pure .acquired
    else pure .failed

def lockOpenedStateFile (vm : VmId) (mode : Mode) (nonblocking : Bool) : ℕ → ℕ → Program LockResult
  | 0, _ => .fail
  | fuel + 1, inode => do
    match ← acquire inode mode nonblocking with
    | .wouldBlock => pure .wouldBlock
    | .failed => pure .failed
    | .acquired =>
      match ← does (.identify vm inode) with
      | some .same => pure (.held inode)
      | none =>
        does (.unflock inode)
        pure .failed
      | some _ =>
        does (.unflock inode)
        match ← does (.createLock vm) with
        | none => pure .failed
        | some reopened => lockOpenedStateFile vm mode nonblocking fuel reopened

variable (fuel : ℕ)

variable (vm : VmId)

def lockStateFile (mode : Mode) (nonblocking : Bool) : Program LockResult := do
  match ← does (.createLock vm) with
  | none => pure .failed
  | some inode => lockOpenedStateFile vm mode nonblocking fuel inode

def lockExistingStateFile (vm : VmId) (mode : Mode) : ℕ → Program (Option (Option ℕ))
  | 0 => .fail
  | fuel + 1 => do
    match ← does (.openLock vm) with
    | none => pure none
    | some none => pure (some none)
    | some (some inode) =>
      match ← acquire inode mode false with
      | .acquired =>
        match ← does (.identify vm inode) with
        | some .same => pure (some (some inode))
        | some .other =>
          does (.unflock inode)
          lockExistingStateFile vm mode fuel
        | some .missing =>
          does (.unflock inode)
          pure (some none)
        | none =>
          does (.unflock inode)
          pure none
      | _ => pure none

variable (state : VmState)

def writeState : Program Bool := do
  if ← does (.truncateTmp vm) then
    if ← does (.writeTmp vm state) then
      if ← does (.chmodTmp vm) then does (.renameTmp vm)
      else pure false
    else pure false
  else pure false

def removeFiles : Program Bool := do
  if ← does (.unlinkJson vm) then
    if ← does (.unlinkTmp vm) then does (.unlinkLock vm)
    else pure false
  else pure false

def deleteState : Program Bool := do
  match ← lockStateFile fuel vm .exclusive false with
  | .held inode =>
    let done ← removeFiles vm
    does (.unflock inode)
    pure done
  | _ => pure false

def ownerIsLive : Program Bool :=
  match state.pid with
  | none => pure false
  | some pid => do
    match ← does (.stat pid) with
    | none => pure false
    | some proc =>
      if proc.zombie then pure false
      else
        match state.pidStartTime with
        | some recorded => pure (proc.start == recorded)
        | none => pure true

def DirEntry.listed : DirEntry → Option VmId
  | .lock vm => some vm
  | .json vm => some vm
  | _ => none

def vmIds (entries : List DirEntry) : List VmId :=
  (entries.filterMap DirEntry.listed).dedup.insertionSort (· ≤ ·)

def readStates (purpose : Purpose) : List VmId → Program (List VmState)
  | [] => pure []
  | vm :: vms => do
    match ← does (.readJson vm (some purpose)) with
    | .state state =>
      let states ← readStates purpose vms
      pure (state :: states)
    | _ => readStates purpose vms

def listVms (purpose : Purpose) : Program (Option (List VmState)) := do
  if ← does (.dirExists purpose) then
    if ← does (.openDir purpose) then
      match ← does (.readDir purpose) with
      | none => pure none
      | some entries =>
        let states ← readStates purpose (vmIds entries)
        pure (some states)
    else pure none
  -- `exists` is false when the directory cannot be looked up, too
  else pure (some [])

def deleteReused (fuel pid : ℕ) (vm : VmId) : List VmState → Program Unit
  | [] => pure ()
  | existing :: vms => do
    if existing.pid = some pid ∧ existing.vmId ≠ vm then
      if ← ownerIsLive existing then deleteReused fuel pid vm vms
      else
        let _ ← deleteState fuel existing.vmId
        deleteReused fuel pid vm vms
    else deleteReused fuel pid vm vms

def processStartTime : Option ℕ → Program (Option ℕ)
  | none => pure none
  | some pid => does (.startTime pid)

def deleteReusedStates : Program Unit :=
  match state.pid with
  | none => pure ()
  | some pid => do
    match ← listVms .reusedPid with
    | none => pure ()
    | some vms => deleteReused fuel pid state.vmId vms

def saveState : Program Bool := do
  deleteReusedStates fuel state
  match ← lockStateFile fuel state.vmId .exclusive false with
  | .held inode =>
    let start ← processStartTime state.pid
    let done ← writeState state.vmId { state with pidStartTime := start }
    does (.unflock inode)
    pure done
  | _ => pure false

def Outcome.of (done : Bool) : Outcome := if done then .ok else .error

def updateLocked (mutate : VmState → VmState) : Program Outcome := do
  match ← does (.readJson vm none) with
  | .state state =>
    let done ← writeState vm (mutate state)
    pure (.of done)
  | .unreadable => pure .error
  | .missing =>
    if ← does (.unlinkTmp vm) then
      if ← does (.unlinkLock vm) then pure .nothing
      else pure .error
    else pure .error

def updateState (mutate : VmState → VmState) : Program Outcome := do
  if ← does (.stateExists vm) then
    match ← lockStateFile fuel vm .exclusive false with
    | .held inode =>
      let outcome ← updateLocked vm mutate
      does (.unflock inode)
      pure outcome
    | _ => pure .error
  else pure .nothing

def withLockedState : Program Outcome := do
  match ← lockExistingStateFile vm .shared fuel with
  | some (some inode) =>
    let read ← does (.readJson vm none)
    does (.unflock inode)
    pure (match read with
      | .state _ => .ok
      | .missing => .nothing
      | .unreadable => .error)
  | some none => pure .nothing
  | none => pure .error

def DirEntry.swept : DirEntry → Option VmId
  | .json vm => some vm
  | .tmp vm => some vm
  | _ => none

def isStale : Program (Option Bool) := do
  match ← does (.readJson vm none) with
  | .missing => pure (some true)
  | .unreadable => pure none
  | .state state =>
    match state.pid with
    | none => pure none
    | some pid =>
      match ← does (.procExists pid) with
      | none => pure none
      | some found =>
        let current ← does (.startTime pid)
        let replaced := match state.pidStartTime, current with
          | some recorded, some current => recorded != current
          | _, _ => false
        pure (some (!found || replaced))

def cleanupVm : Program Unit := do
  match ← lockStateFile fuel vm .exclusive true with
  | .held inode =>
    match ← isStale vm with
    | some true =>
      let _ ← removeFiles vm
      does (.unflock inode)
    | _ => does (.unflock inode)
  | _ => pure ()

def cleanupVms (fuel : ℕ) : List VmId → Program Unit
  | [] => pure ()
  | vm :: vms => do
    cleanupVm fuel vm
    cleanupVms fuel vms

def cleanupStaleState : Program Unit := do
  match ← does .entries with
  | none => pure ()
  | some entries => cleanupVms fuel (entries.filterMap DirEntry.swept).eraseDups

def freeName (fuel : ℕ) (vm : VmId) (name : String) : List VmState → Program Bool
  | [] => pure true
  | existing :: vms => do
    if existing.vmId ≠ vm ∧ existing.name = some name then
      if ← ownerIsLive existing then pure false
      else if ← deleteState fuel existing.vmId then freeName fuel vm name vms
      else pure false
    else freeName fuel vm name vms

def claimNameLocked (me : Ident) (state : VmState) (name : String) : Program Bool := do
  cleanupStaleState fuel
  match ← listVms .nameCheck with
  | none => pure false
  | some vms =>
    if ← freeName fuel state.vmId name vms then
      let start ← does (.startTime me.1)
      saveState fuel { state with pid := some me.1, pidStartTime := start }
    else pure false

def claimName (me : Ident) (state : VmState) : Program Bool :=
  match state.name with
  | none => pure false
  | some name => do
    if ← does (.lockGlobal .names) then
      let done ← claimNameLocked fuel me state name
      does (.unlockGlobal .names)
      pure done
    else pure false

def loopbackIps : List String :=
  (List.range 256).flatMap fun b2 =>
    (List.range' 2 253).map fun b3 => "127.0." ++ toString b2 ++ "." ++ toString b3

def allocateLocked : Program Bool := do
  cleanupStaleState fuel
  let used : List String ← (do
    match ← listVms .allocation with
    | some vms => pure (vms.filterMap VmState.loopbackIp)
    -- "failed to list VMs for loopback IP allocation, assuming no IPs in use"
    | none => pure [])
  match loopbackIps.find? fun ip => !used.contains ip with
  | none => pure false
  | some ip => saveState fuel { state with loopbackIp := some ip }

def allocateLoopbackIp : Program Bool := do
  if ← does (.lockGlobal .loopback) then
    let done ← allocateLocked fuel state
    does (.unlockGlobal .loopback)
    pure done
  else pure false

def callBody (me : Ident) : Call → Program Outcome
  | .saveState state => do
    let done ← saveState fuel state
    pure (.of done)
  | .updateState vm mutate => updateState fuel vm mutate
  | .deleteState vm => do
    let done ← deleteState fuel vm
    pure (.of done)
  | .cleanupStaleState => do
    cleanupStaleState fuel
    pure .ok
  | .withLockedState vm => withLockedState fuel vm
  | .claimName state => do
    let done ← claimName fuel me state
    pure (.of done)
  | .allocateLoopbackIp state => do
    let done ← allocateLoopbackIp fuel state
    pure (.of done)

def callProgram (me : Ident) (call : Call) : Program Unit := do
  let outcome ← callBody fuel me call
  does (.finish outcome)

end Fcvm.StateDir
