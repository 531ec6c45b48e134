import Mathlib.Logic.Function.Basic
import Fcvm.Library.Pool
import Fcvm.Library.Text

namespace Fcvm.RoutedLease

open Library

/-- A file of the lease directory: the lease of an address, whose canonical text names it, or another, of which `lock`
says whether its extension is that of a lease. -/
inductive FileName (Addr : Type) where
  | lease (address : Addr)
  | other (name : String) (lock : Bool)
  deriving DecidableEq

def FileName.isLock {Addr : Type} : FileName Addr → Bool
  | .lease _ => true
  | .other _ lock => lock

structure LeaseHolder where
  pid : ℕ
  vmId : List Char
  deriving DecidableEq

inductive LeaseAttempt where
  | leased
  | held (holder : Option LeaseHolder)
  deriving DecidableEq

/-- Who has locked a file: a call that is under way, or the lease a process has been given. -/
inductive Owner (Addr : Type) where
  | call (t : ℕ)
  | lease (process : ℕ) (address : Addr)
  deriving DecidableEq

structure AddressLease (Addr : Type) where
  process : ℕ
  address : Addr
  dropping : Bool
  deriving DecidableEq

/-- What a call of `lease_address` answered, `none` for an error, and who had locked the file that it was refused last.
-/
structure Answer (Addr : Type) where
  process : ℕ
  address : Addr
  attempt : Option LeaseAttempt
  met : Option (Owner Addr)
  deriving DecidableEq

inductive Call (Addr : Type) where
  | leaseAddress (address : Addr) (vmId : List Char)
  | drop (inode : ℕ)

structure Dir (Addr : Type) where
  names : FileName Addr → Option ℕ
  nextInode : ℕ
  home : ℕ → Option (FileName Addr)
  text : ℕ → List Char
  lock : ℕ → Option (Owner Addr)
  table : Option ℕ
  files : ℕ → Option ℕ
  leases : ℕ → Option (AddressLease Addr)
  dropping : ℕ → Option ℕ
  calls : ℕ → Option (ℕ × Call Addr)
  met : ℕ → Option (Owner Addr)
  answers : List (Answer Addr)

inductive OpenResult where
  | opened
  | notFound
  | failed
  deriving DecidableEq

inductive LockResult where
  | locked
  | wouldBlock
  | failed
  deriving DecidableEq

inductive StatResult where
  | inode (i : ℕ)
  | notFound
  | failed
  deriving DecidableEq

inductive Op (Addr : Type) where
  | createDirAll
  | openTable
  | lockTable
  | closeTable
  | readDir
  | openFile (name : FileName Addr) (create : Bool)
  | tryLock
  | fstat
  | stat (name : FileName Addr)
  | setLen
  | rewind
  | write (text : List Char)
  | readToString
  | unlink (name : FileName Addr)
  | closeFile
  | hold (address : Addr)
  | answer (attempt : Option LeaseAttempt)
  | removeLease
  | closeLease

abbrev Res {Addr : Type} : Op Addr → Type
  | .closeTable => Unit
  | .readDir => Option (List (Option (FileName Addr)))
  | .openFile _ _ => OpenResult
  | .tryLock => LockResult
  | .fstat => Option ℕ
  | .stat _ => StatResult
  | .readToString => Option (List Char)
  | .closeFile => Unit
  | .hold _ => Unit
  | .answer _ => Unit
  | .closeLease => Unit
  | _ => Bool

inductive Choice (Addr : Type) where
  | ok
  | error
  | entries (list : List (Option (FileName Addr)))

variable {Addr : Type} [DecidableEq Addr]

namespace Dir

variable (s : Dir Addr)

def create (t : ℕ) (name : FileName Addr) : Dir Addr :=
  { s with
    names := Function.update s.names name (some s.nextInode)
    home := Function.update s.home s.nextInode (some name)
    nextInode := s.nextInode + 1
    files := Function.update s.files t (some s.nextInode) }

def openFile (t i : ℕ) : Dir Addr := { s with files := Function.update s.files t (some i) }

def acquire (t i : ℕ) : Dir Addr := { s with lock := Function.update s.lock i (some (.call t)) }

def refuse (t i : ℕ) : Dir Addr := { s with met := Function.update s.met t (s.lock i) }

def setText (i : ℕ) (text : List Char) : Dir Addr := { s with text := Function.update s.text i text }

def unlink (name : FileName Addr) : Dir Addr := { s with names := Function.update s.names name none }

def closeFile (t i : ℕ) : Dir Addr :=
  { s with
    files := Function.update s.files t none
    lock := if s.lock i = some (.call t) then Function.update s.lock i none else s.lock }

def hold (t i : ℕ) (lease : AddressLease Addr) : Dir Addr :=
  { s with
    files := Function.update s.files t none
    lock := Function.update s.lock i (some (.lease lease.process lease.address))
    leases := Function.update s.leases i (some lease) }

def retire (i : ℕ) : Dir Addr := { s with leases := Function.update s.leases i none }

def closeLease (t i : ℕ) : Dir Addr :=
  { s with dropping := Function.update s.dropping t none, lock := Function.update s.lock i none }

end Dir

def effect (t process : ℕ) (call : Call Addr) : (o : Op Addr) → Dir Addr → Choice Addr → Option (Dir Addr × Res o)
  | .createDirAll, s, .ok => some (s, true)
  | .createDirAll, s, .error => some (s, false)
  | .openTable, s, .ok => some (s, true)
  | .openTable, s, .error => some (s, false)
  -- waits while another has it
  | .lockTable, s, .ok => if s.table = none then some ({ s with table := some t }, true) else none
  | .lockTable, s, .error => some (s, false)
  | .closeTable, s, .ok => some ({ s with table := s.table.filter (· ≠ t) }, ())
  | .readDir, s, .entries list => some (s, some list)
  | .readDir, s, .error => some (s, none)
  | .openFile name create, s, .ok =>
    match s.names name with
    | some i => some (s.openFile t i, .opened)
    | none => if create then some (s.create t name, .opened) else some (s, .notFound)
  | .openFile _ _, s, .error => some (s, .failed)
  | .tryLock, s, .ok => (s.files t).map fun i =>
    if s.lock i = none then (s.acquire t i, .locked) else (s.refuse t i, .wouldBlock)
  | .tryLock, s, .error => some (s, .failed)
  | .fstat, s, .ok => (s.files t).map fun i => (s, some i)
  | .fstat, s, .error => some (s, none)
  | .stat name, s, .ok =>
    match s.names name with
    | some i => some (s, .inode i)
    | none => some (s, .notFound)
  | .stat _, s, .error => some (s, .failed)
  | .setLen, s, .ok => (s.files t).map fun i => (s.setText i [], true)
  | .setLen, s, .error => some (s, false)
  | .rewind, s, .ok => some (s, true)
  | .rewind, s, .error => some (s, false)
  | .write text, s, .ok => (s.files t).map fun i => (s.setText i text, true)
  | .write _, s, .error => some (s, false)
  | .readToString, s, .ok => (s.files t).map fun i => (s, some (s.text i))
  | .readToString, s, .error => some (s, none)
  | .unlink name, s, .ok => some (s.unlink name, true)
  | .unlink _, s, .error => some (s, false)
  | .closeFile, s, .ok => (s.files t).map fun i => (s.closeFile t i, ())
  | .hold address, s, .ok => (s.files t).map fun i => (s.hold t i ⟨process, address, false⟩, ())
  | .answer attempt, s, .ok =>
    match call with
    | .leaseAddress address _ => some ({ s with answers := ⟨process, address, attempt, s.met t⟩ :: s.answers }, ())
    | .drop _ => none
  | .removeLease, s, .ok => (s.dropping t).bind fun i => (s.leases i).map fun l =>
    ((s.unlink (.lease l.address)).retire i, true)
  | .removeLease, s, .error => (s.dropping t).map fun i => (s.retire i, false)
  | .closeLease, s, .ok => (s.dropping t).map fun i => (s.closeLease t i, ())
  | _, _, _ => none

def exec (t : ℕ) (o : Op Addr) (s : Dir Addr) (c : Choice Addr) : Option (Dir Addr × Res o) :=
  (s.calls t).bind fun (process, call) => effect t process call o s c

section Programs

open Prog

abbrev Program (Addr α : Type) := Prog (Op Addr) Res α

def does (o : Op Addr) : Program Addr (Res o) := perform o

def parseHolder (written : List Char) : Option LeaseHolder :=
  match splitWhitespace written with
  | first :: vmId :: _ => (parseDecimal 32 first).map fun pid => ⟨pid, vmId⟩
  | _ => none

def removeAbandonedLease (path : FileName Addr) : Program Addr Unit := do
  match ← does (.openFile path false) with
  | .opened =>
    match ← does .tryLock with
    | .locked =>
      let held ← does .fstat
      let current ← does (.stat path)
      match held, current with
      | some held, .inode current =>
        if held = current then
          let _ ← does (.unlink path)
          does .closeFile
        else does .closeFile
      | _, _ => does .closeFile
    | _ => does .closeFile
  | _ => pure ()

def sweep (keep : FileName Addr) : List (Option (FileName Addr)) → Program Addr Unit
  | [] => pure ()
  | none :: _ => pure ()
  | some path :: entries => do
    if path = keep ∨ path.isLock = false then sweep keep entries
    else
      removeAbandonedLease path
      sweep keep entries

def removeAbandonedLeases (keep : FileName Addr) : Program Addr Unit := do
  match ← does .readDir with
  | none => pure ()
  | some entries => sweep keep entries

def recordHolder (address : Addr) (pid : ℕ) (vmId : List Char) : Program Addr (Option LeaseAttempt) := do
  if ← does .setLen then
    if ← does .rewind then
      if ← does (.write ((toString pid).toList ++ ' ' :: vmId ++ ['\n'])) then
        does (.hold address)
        return some .leased
      else
        does .closeFile
        return none
    else
      does .closeFile
      return none
  else
    does .closeFile
    return none

def attempts (address : Addr) (pid : ℕ) (vmId : List Char) : ℕ → Program Addr (Option LeaseAttempt)
  | 0 => pure none
  | n + 1 => do
    match ← does (.openFile (.lease address) true) with
    | .opened =>
      match ← does .tryLock with
      | .locked =>
        match ← does .fstat with
        | none =>
          does .closeFile
          return none
        | some held =>
          match ← does (.stat (.lease address)) with
          | .failed =>
            does .closeFile
            return none
          | .notFound =>
            does .closeFile
            attempts address pid vmId n
          | .inode current =>
            if current = held then recordHolder address pid vmId
            else
              does .closeFile
              attempts address pid vmId n
      | .wouldBlock =>
        match ← does .readToString with
        | none =>
          does .closeFile
          return none
        | some written =>
          does .closeFile
          return some (.held (parseHolder written))
      | .failed =>
        does .closeFile
        return none
    | _ => return none

def leaseAddress (address : Addr) (pid : ℕ) (vmId : List Char) : Program Addr Unit := do
  if ← does .createDirAll then
    if ← does .openTable then
      if ← does .lockTable then
        removeAbandonedLeases (.lease address)
        let attempt ← attempts address pid vmId 100
        does .closeTable
        does (.answer attempt)
      else does (.answer none)
    else does (.answer none)
  else does (.answer none)

def dropLease : Program Addr Unit := do
  let _ ← does .removeLease
  does .closeLease

end Programs

namespace Dir

variable (s : Dir Addr)

def begin (t process : ℕ) : Call Addr → Option (Dir Addr × Program Addr Unit)
  | .leaseAddress address vmId =>
    if s.calls t = none then
      some ({ s with
          calls := Function.update s.calls t (some (process, .leaseAddress address vmId))
          met := Function.update s.met t none },
        RoutedLease.leaseAddress address process vmId)
    else none
  | .drop i =>
    match s.leases i with
    | some l =>
      if s.calls t = none ∧ l.process = process ∧ l.dropping = false then
        some ({ s with
            calls := Function.update s.calls t (some (process, .drop i))
            dropping := Function.update s.dropping t (some i)
            leases := Function.update s.leases i (some { l with dropping := true }) },
          dropLease)
      else none
    | none => none

def belongs (process t : ℕ) : Bool := (s.calls t).any (·.1 = process)

def owns (process : ℕ) : Owner Addr → Bool
  | .call t => s.belongs process t
  | .lease p _ => p = process

def kill (process : ℕ) : Dir Addr :=
  { s with
    lock := fun i => (s.lock i).filter fun o => !s.owns process o
    table := s.table.filter fun t => !s.belongs process t
    files := fun t => if s.belongs process t then none else s.files t
    leases := fun i => (s.leases i).filter fun l => l.process ≠ process
    dropping := fun t => if s.belongs process t then none else s.dropping t
    calls := fun t => if s.belongs process t then none else s.calls t }

def empty : Dir Addr where
  names _ := none
  nextInode := 0
  home _ := none
  text _ := []
  lock _ := none
  table := none
  files _ := none
  leases _ := none
  dropping _ := none
  calls _ := none
  met _ := none
  answers := []

end Dir

end Fcvm.RoutedLease
