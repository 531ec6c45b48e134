import Mathlib.Data.List.Basic
import Mathlib.Logic.Function.Basic
import Fcvm.Library.Pool

namespace Fcvm.StateDir

open Library

abbrev VmId := String

abbrev Ident := ℕ × ℕ

structure VmState where
  vmId : VmId
  name : Option String
  pid : Option ℕ
  pidStartTime : Option ℕ
  loopbackIp : Option String
  rest : ℕ
  deriving DecidableEq

inductive Content where
  | torn
  | whole (state : VmState)
  deriving DecidableEq

structure Claimant where
  owner : Ident
  key : String
  deriving DecidableEq

/-- The files of a VM: the inode its `.json.lock` names, its `.json` and its `.json.tmp`. -/
structure Files where
  lock : Option ℕ
  json : Option Content
  tmp : Option Content
  claim : Option Claimant
  deriving DecidableEq

inductive Mode where
  | shared
  | exclusive
  deriving DecidableEq

inductive Global where
  | names
  | loopback
  deriving DecidableEq

inductive DirEntry where
  | lock (vm : VmId)
  | json (vm : VmId)
  | tmp (vm : VmId)
  | other
  deriving DecidableEq

structure Proc where
  start : ℕ
  zombie : Bool
  deriving DecidableEq

inductive Call where
  | saveState (state : VmState)
  | updateState (vm : VmId) (mutate : VmState → VmState)
  | deleteState (vm : VmId)
  | cleanupStaleState
  | withLockedState (vm : VmId)
  | claimName (state : VmState)
  | allocateLoopbackIp (state : VmState)

def Call.writes : Call → Option VmId
  | .saveState state => some state.vmId
  | .claimName state => some state.vmId
  | .allocateLoopbackIp state => some state.vmId
  | _ => none

/-- The lock under which a call claims what it saves. -/
def Call.claims : Call → Option Global
  | .claimName _ => some .names
  | .allocateLoopbackIp _ => some .loopback
  | _ => none

def claimsOf (call : Option (Ident × Call)) : Option Global := call.bind fun c => c.2.claims

inductive Purpose where
  | nameCheck
  | allocation
  | reusedPid
  deriving DecidableEq

inductive Attempt where
  | acquired
  | wouldBlock
  | failed
  deriving DecidableEq

inductive Identity where
  | same
  | other
  | missing
  deriving DecidableEq

inductive ReadResult where
  | state (st : VmState)
  | missing
  | unreadable
  deriving DecidableEq

inductive Outcome where
  | ok
  | nothing
  | error
  deriving DecidableEq

inductive Op where
  | createLock (vm : VmId)
  | openLock (vm : VmId)
  | tryFlock (inode : ℕ) (mode : Mode)
  | flock (inode : ℕ) (mode : Mode)
  | identify (vm : VmId) (inode : ℕ)
  | unflock (inode : ℕ)
  | stateExists (vm : VmId)
  /-- Reads the state of a VM, for a list if a purpose is given and else under its lock. -/
  | readJson (vm : VmId) (listed : Option Purpose)
  | truncateTmp (vm : VmId)
  | writeTmp (vm : VmId) (state : VmState)
  | chmodTmp (vm : VmId)
  | renameTmp (vm : VmId)
  | unlinkJson (vm : VmId)
  | unlinkTmp (vm : VmId)
  | unlinkLock (vm : VmId)
  | dirExists (purpose : Purpose)
  | openDir (purpose : Purpose)
  | readDir (purpose : Purpose)
  | entries
  | stat (pid : ℕ)
  | startTime (pid : ℕ)
  | procExists (pid : ℕ)
  | lockGlobal (g : Global)
  | unlockGlobal (g : Global)
  | finish (outcome : Outcome)

abbrev Res : Op → Type
  | .createLock _ => Option ℕ
  | .openLock _ => Option (Option ℕ)
  | .tryFlock _ _ => Attempt
  | .flock _ _ => Bool
  | .identify _ _ => Option Identity
  | .unflock _ => Unit
  | .stateExists _ => Bool
  | .readJson _ _ => ReadResult
  | .readDir _ => Option (List DirEntry)
  | .entries => Option (List DirEntry)
  | .stat _ => Option Proc
  | .startTime _ => Option ℕ
  | .procExists _ => Option Bool
  | .unlockGlobal _ => Unit
  | .finish _ => Unit
  | _ => Bool

inductive Payload where
  | truncate
  | write (state : VmState)
  | rename (content : Content)
  | unlinkJson (live : Bool)
  | unlinkTmp
  deriving DecidableEq

inductive Entry where
  | locked (t : ℕ) (vm : VmId)
  | payload (t : ℕ) (call : Option Call) (vm : VmId) (step : Payload)
  | claimed (t : ℕ) (vm : VmId) (claimant : Claimant)
  | returned (t : ℕ) (call : Option (Ident × Call)) (outcome : Outcome)

structure View where
  claims : VmId → Option Claimant
  dead : Ident → Bool

structure Dir where
  files : VmId → Files
  known : List VmId
  nextInode : ℕ
  exclusive : ℕ → Option ℕ
  shared : ℕ → List ℕ
  inside : VmId → Option ℕ
  global : Global → Option ℕ
  procs : ℕ → Option Proc
  past : List Ident
  calls : ℕ → Option (Ident × Call)
  scans : ℕ → Option (List VmId)
  writer : VmId → Option ℕ
  view : ℕ → View
  log : List Entry

/-- What is claimed: what of a state, under which lock, and whether a claim counts only while its process lives. -/
structure Policy where
  key : VmState → Option String
  guard : Global
  live : Bool

inductive Choice where
  | ok
  | error
  | entries (list : List DirEntry)
  deriving DecidableEq

namespace Dir

variable (s : Dir)

def alive (id : Ident) : Bool :=
  match s.procs id.1 with
  | some p => p.start == id.2 && !p.zombie
  | none => false

def dead (id : Ident) : Bool := s.past.contains id && !s.alive id

def counts (policy : Policy) (c : Claimant) : Bool := !policy.live || s.alive c.owner

def claims (policy : Option Policy) (vm : VmId) : Option Claimant :=
  match policy with
  | none => none
  | some p => (s.files vm).claim.filter (s.counts p)

def setFiles (vm : VmId) (f : Files) : Dir := { s with files := Function.update s.files vm f }

def record (e : Entry) : Dir := { s with log := e :: s.log }

def callOf (t : ℕ) : Option Call := (s.calls t).map Prod.snd

def payload (t : ℕ) (vm : VmId) (f : Files) (step : Payload) : Dir :=
  (s.setFiles vm f).record (.payload t (s.callOf t) vm step)

def free (inode : ℕ) : Mode → Bool
  | .shared => (s.exclusive inode).isNone
  | .exclusive => (s.exclusive inode).isNone && (s.shared inode).isEmpty

def acquire (t inode : ℕ) : Mode → Dir
  | .shared => { s with shared := Function.update s.shared inode (t :: s.shared inode) }
  | .exclusive => { s with exclusive := Function.update s.exclusive inode (some t) }

def release (t inode : ℕ) : Dir :=
  { s with
    exclusive := Function.update s.exclusive inode ((s.exclusive inode).filter (· ≠ t))
    shared := Function.update s.shared inode ((s.shared inode).erase t)
    inside := fun vm => (s.inside vm).filter (· ≠ t) }

def newLock (vm : VmId) : Dir :=
  { s.setFiles vm { s.files vm with lock := some s.nextInode } with
    known := vm :: s.known, nextInode := s.nextInode + 1 }

def enter (t : ℕ) (vm : VmId) : Dir :=
  { s.record (.locked t vm) with inside := Function.update s.inside vm (some t) }

def retireLock (t : ℕ) (vm : VmId) : Dir :=
  { s.setFiles vm { s.files vm with lock := none } with
    inside := Function.update s.inside vm ((s.inside vm).filter (· ≠ t))
    scans := fun u => (s.scans u).map (·.filter (· ≠ vm)) }

def beginScan (t : ℕ) : Dir :=
  { s with scans := Function.update s.scans t (some (s.known.filter fun vm => (s.files vm).lock.isSome)) }

def endScan (t : ℕ) : Dir := { s with scans := Function.update s.scans t none }

def lockGlobal (t : ℕ) (g : Global) : Dir :=
  { s with global := Function.update s.global g (some t), scans := Function.update s.scans t none }

def unlockGlobal (t : ℕ) (g : Global) : Dir :=
  { s with global := Function.update s.global g ((s.global g).filter (· ≠ t)) }

def finish (t : ℕ) (outcome : Outcome) : Dir :=
  { s.record (.returned t (s.calls t) outcome) with writer := fun vm => (s.writer vm).filter (· ≠ t) }

def claimOf (policy : Option Policy) (t : ℕ) : Content → Option Claimant
  | .torn => none
  | .whole state =>
    match policy, s.calls t with
    | some p, some (me, _) => (p.key state).map fun key => ⟨me, key⟩
    | _, _ => none

/-- A rename whose content is a claim of the thread's process. -/
def claimRename (policy : Option Policy) (t : ℕ) (vm : VmId) (c : Content) : Dir :=
  let claim := s.claimOf policy t c
  let renamed := s.payload t vm { s.files vm with json := some c, tmp := none, claim := claim } (.rename c)
  { renamed with
    scans := Function.update s.scans t none
    log := (claim.map (Entry.claimed t vm)).toList ++ renamed.log }

def rename (policy : Option Policy) (t : ℕ) (vm : VmId) (c : Content) : Dir :=
  if policy.any fun p => claimsOf (s.calls t) = some p.guard then s.claimRename policy t vm c
  else s.payload t vm { s.files vm with json := some c, tmp := none } (.rename c)

def snapshot (policy : Option Policy) (t : ℕ) : Dir :=
  { s with view := Function.update s.view t ⟨s.claims policy, s.dead⟩ }

end Dir

def effect (policy : Option Policy) (t : ℕ) : (o : Op) → Dir → Choice → Option (Dir × Res o)
  | .createLock vm, s, .ok =>
    match (s.files vm).lock with
    | some inode => some (s, some inode)
    | none => some (s.newLock vm, some s.nextInode)
  | .createLock _, s, .error => some (s, none)
  | .openLock vm, s, .ok => some (s, some (s.files vm).lock)
  | .openLock _, s, .error => some (s, none)
  | .tryFlock inode mode, s, .ok =>
    if s.free inode mode then some (s.acquire t inode mode, .acquired) else some (s, .wouldBlock)
  | .tryFlock _ _, s, .error => some (s, .failed)
  -- waits while it is not free
  | .flock inode mode, s, .ok => if s.free inode mode then some (s.acquire t inode mode, true) else none
  | .flock _ _, s, .error => some (s, false)
  | .identify vm inode, s, .ok =>
    match (s.files vm).lock with
    | none => some (s, some .missing)
    | some current =>
      if current = inode then
        if s.exclusive inode = some t then
          some (s.enter t vm, some .same)
        else some (s, some .same)
      else some (s, some .other)
  | .identify _ _, s, .error => some (s, none)
  | .unflock inode, s, .ok => some (s.release t inode, ())
  | .stateExists vm, s, .ok => some (s, (s.files vm).json.isSome)
  | .stateExists _, s, .error => some (s, false)
  | .readJson vm _, s, .ok =>
    match (s.files vm).json with
    | none => some (s, .missing)
    | some .torn => some (s, .unreadable)
    | some (.whole state) => some (s, .state state)
  | .readJson _ _, s, .error => some (s, .unreadable)
  | .truncateTmp vm, s, .ok => some (s.payload t vm { s.files vm with tmp := some .torn } .truncate, true)
  | .truncateTmp _, s, .error => some (s, false)
  | .writeTmp vm state, s, .ok =>
    some (s.payload t vm { s.files vm with tmp := some (.whole state) } (.write state), true)
  | .writeTmp vm state, s, .error =>
    some (s.payload t vm { s.files vm with tmp := some .torn } (.write state), false)
  | .chmodTmp _, s, .ok => some (s, true)
  | .chmodTmp _, s, .error => some (s, false)
  | .renameTmp vm, s, .ok =>
    match (s.files vm).tmp with
    | none => some (s, false)
    | some c => some (s.rename policy t vm c, true)
  | .renameTmp _, s, .error => some (s, false)
  | .unlinkJson vm, s, .ok =>
    some (s.payload t vm { s.files vm with json := none, claim := none } (.unlinkJson (s.claims policy vm).isSome),
      true)
  | .unlinkJson _, s, .error => some (s, false)
  | .unlinkTmp vm, s, .ok => some (s.payload t vm { s.files vm with tmp := none } .unlinkTmp, true)
  | .unlinkTmp _, s, .error => some (s, false)
  | .unlinkLock vm, s, .ok => some (s.retireLock t vm, true)
  | .unlinkLock _, s, .error => some (s, false)
  | .dirExists _, s, .ok => some (s, true)
  | .dirExists _, s, .error => some (s, false)
  | .openDir _, s, .ok => some (s.beginScan t, true)
  | .openDir _, s, .error => some (s, false)
  | .readDir _, s, .entries list =>
    match s.scans t with
    | none => none
    | some throughout =>
      if throughout.all fun vm => list.contains (.lock vm) then
        some (s.endScan t, some list)
      else none
  | .readDir _, s, .error => some (s.endScan t, none)
  | .entries, s, .entries list => some (s, some list)
  | .entries, s, .error => some (s, none)
  | .stat pid, s, .ok => some (s, s.procs pid)
  | .stat _, s, .error => some (s, none)
  | .startTime pid, s, .ok => some (s, (s.procs pid).map Proc.start)
  | .startTime _, s, .error => some (s, none)
  | .procExists pid, s, .ok => some (s, some (s.procs pid).isSome)
  | .procExists _, s, .error => some (s, none)
  -- waits while another has it
  | .lockGlobal g, s, .ok =>
    match s.global g with
    | none => some (s.lockGlobal t g, true)
    | some _ => none
  | .lockGlobal _, s, .error => some (s, false)
  | .unlockGlobal g, s, .ok => some (s.unlockGlobal t g, ())
  | .finish outcome, s, .ok => some (s.finish t outcome, ())
  | _, _, _ => none

def exec (policy : Option Policy) (t : ℕ) (o : Op) (s : Dir) (c : Choice) : Option (Dir × Res o) :=
  if (s.calls t).isSome then (effect policy t o s c).map fun (s, r) => (s.snapshot policy t, r) else none

inductive Change where
  | start (id : Ident)
  | exit (id : Ident) (zombie : Bool)
  | reap (id : Ident)
  deriving DecidableEq

namespace Dir

variable (s : Dir)

def belongs (id : Ident) (t : ℕ) : Bool := (s.calls t).any (·.1 = id)

def endProcess (id : Ident) (zombie : Bool) : Dir :=
  { s with
    procs := Function.update s.procs id.1 (if zombie then some ⟨id.2, true⟩ else none)
    exclusive := fun inode => (s.exclusive inode).filter fun t => !s.belongs id t
    shared := fun inode => (s.shared inode).filter fun t => !s.belongs id t
    inside := fun vm => (s.inside vm).filter fun t => !s.belongs id t
    global := fun g => (s.global g).filter fun t => !s.belongs id t
    writer := fun vm => (s.writer vm).filter fun t => !s.belongs id t
    calls := fun t => if s.belongs id t then none else s.calls t }

def change : Change → Option (Dir × (ℕ → Bool))
  | .start id =>
    if s.procs id.1 = none ∧ id ∉ s.past then
      some ({ s with procs := Function.update s.procs id.1 (some ⟨id.2, false⟩), past := id :: s.past }, fun _ => false)
    else none
  | .exit id zombie => if s.alive id then some (s.endProcess id zombie, s.belongs id) else none
  | .reap id =>
    if s.procs id.1 = some ⟨id.2, true⟩ then
      some ({ s with procs := Function.update s.procs id.1 none }, fun _ => false)
    else none

def begin (policy : Option Policy) (t : ℕ) (me : Ident) (call : Call) : Option Dir :=
  if s.alive me ∧ s.calls t = none then
    some ({ s with
      calls := Function.update s.calls t (some (me, call))
      writer := match call.writes with
        | none => s.writer
        | some vm => Function.update s.writer vm (some ((s.writer vm).getD t)) }.snapshot policy t)
  else none

end Dir

end Fcvm.StateDir
