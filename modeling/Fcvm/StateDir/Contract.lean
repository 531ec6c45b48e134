import Fcvm.Library.History
import Fcvm.StateDir.Programs

namespace Fcvm.StateDir

open Library

inductive Deed where
  | claimed (vm : VmId) (c : Claimant)
  | renamed (call : Option Call) (vm : VmId)

/-- What belongs to a thread: its exclusive locks, the files of the VMs it is inside of, whether it holds the lock
that guards claims, the VMs it alone claims for, and what it saw last. -/
structure Own where
  call : Option (Ident × Call)
  held : ℕ → Bool
  files : VmId → Option Files
  guard : Bool
  writes : VmId → Bool
  deeds : List Deed
  view : View

def Entry.deedOf (t : ℕ) : Entry → Option Deed
  | .claimed u vm c => if u = t then some (.claimed vm c) else none
  | .payload u call vm (.rename _) => if u = t then some (.renamed call vm) else none
  | _ => none

def own (policy : Option Policy) (t : ℕ) (s : Dir) : Own where
  call := s.calls t
  held inode := s.exclusive inode = some t
  files vm := if s.inside vm = some t then some (s.files vm) else none
  guard := policy.any fun p => s.global p.guard = some t
  writes vm := policy.any fun p => !p.live && s.writer vm = some t
  deeds := s.log.filterMap (Entry.deedOf t)
  view := s.view t

namespace Own

structure Keeps (ω ω' : Own) : Prop where
  call : ω'.call = ω.call
  guard : ω'.guard = ω.guard
  writes : ω'.writes = ω.writes
  deeds : ω'.deeds = ω.deeds
  claims : ∀ vm c, ω.guard = true ∨ ω.writes vm = true → ω'.view.claims vm = some c → ω.view.claims vm = some c
  dead : ∀ id, ω.view.dead id = true → ω'.view.dead id = true

structure Same (ω ω' : Own) : Prop extends Keeps ω ω' where
  held : ω'.held = ω.held
  files : ω'.files = ω.files

theorem Keeps.refl (ω : Own) : ω.Keeps ω := ⟨rfl, rfl, rfl, rfl, fun _ _ _ h => h, fun _ h => h⟩

theorem Keeps.trans {ω ω' ω'' : Own} (h : ω.Keeps ω') (h' : ω'.Keeps ω'') : ω.Keeps ω'' where
  call := h'.call.trans h.call
  guard := h'.guard.trans h.guard
  writes := h'.writes.trans h.writes
  deeds := h'.deeds.trans h.deeds
  claims vm c hg hc := by
    apply h.claims vm c hg
    apply h'.claims vm c _ hc
    rw [h.guard, h.writes]
    exact hg
  dead id hid := h'.dead id (h.dead id hid)

theorem Same.refl (ω : Own) : ω.Same ω := ⟨.refl ω, rfl, rfl⟩

theorem Same.trans {ω ω' ω'' : Own} (h : ω.Same ω') (h' : ω'.Same ω'') : ω.Same ω'' :=
  ⟨h.toKeeps.trans h'.toKeeps, h'.held.trans h.held, h'.files.trans h.files⟩

structure Puts (ω : Own) (vm : VmId) (f : Option Files) (ω' : Own) : Prop extends Keeps ω ω' where
  held : ω'.held = ω.held
  files : ω'.files = Function.update ω.files vm f

end Own

section Contract

variable (policy : Option Policy)

/-- A state with the PID of the process, and with its start time unless that could not be read. -/
def VmState.OwnedBy (st : VmState) (c : Claimant) : Prop :=
  st.pid = some c.owner.1 ∧ ∀ start, st.pidStartTime = some start → start = c.owner.2

structure Policy.Matches (p : Policy) (st : VmState) (c : Claimant) : Prop where
  key : p.key st = some c.key
  owned : p.live = true → st.OwnedBy c

def Global.purpose : Global → Purpose
  | .names => .nameCheck
  | .loopback => .allocation

def MayDelete (vm : VmId) (ω : Own) : Prop :=
  ∀ p, policy = some p → p.live = true →
    (∃ me, ω.call = some (me, .deleteState vm)) ∨ (ω.guard = true ∧ ω.view.claims vm = none)

structure Own.Fresh (p : Policy) (vm : VmId) (key : String) (ω : Own) : Prop where
  guard : ω.guard = true
  writes : p.live = false → ω.writes vm = true
  fresh : ∀ vm' c, vm' ≠ vm → ω.view.claims vm' = some c → c.key ≠ key

structure MayRename (vm : VmId) (f : Files) (ω : Own) : Prop where
  update : ∀ me vm' mutate, ω.call = some (me, .updateState vm' mutate) →
    ∃ st, f.json = some (.whole st) ∧ f.tmp = some (.whole (mutate st))
  policy : ∀ p, policy = some p → ∃ st, f.tmp = some (.whole st) ∧ st.vmId = vm ∧
    (claimsOf ω.call = some p.guard → ∃ me call key, ω.call = some (me, call) ∧ p.Matches st ⟨me, key⟩ ∧
      ω.Fresh p vm key) ∧
    (claimsOf ω.call ≠ some p.guard → ∀ c, f.claim = some c → p.Matches st c)

structure Finished (ω : Own) : Prop where
  update : ∀ me vm mutate, ω.call = some (me, .updateState vm mutate) →
    .renamed (some (.updateState vm mutate)) vm ∈ ω.deeds
  name : ∀ p me st name, policy = some p → p.guard = .names → ω.call = some (me, .claimName st) →
    st.name = some name → .claimed st.vmId ⟨me, name⟩ ∈ ω.deeds
  address : ∀ p me st, policy = some p → p.guard = .loopback → ω.call = some (me, .allocateLoopbackIp st) →
    ∃ key, .claimed st.vmId ⟨me, key⟩ ∈ ω.deeds

def pre : Op → Own → Prop
  | .truncateTmp vm, ω => ∃ f, ω.files vm = some f
  | .writeTmp vm _, ω => ∃ f, ω.files vm = some f
  | .renameTmp vm, ω => ∃ f, ω.files vm = some f ∧ MayRename policy vm f ω
  | .unlinkJson vm, ω => ∃ f, ω.files vm = some f ∧
      (MayDelete policy vm ω ∨ ∀ c, f.claim = some c → ω.view.dead c.owner = true)
  | .unlinkTmp vm, ω => ∃ f, ω.files vm = some f
  | .unlinkLock vm, ω => ∃ f, ω.files vm = some f ∧ f.json = none
  | .finish outcome, ω => outcome = .ok → Finished policy ω
  | _, _ => True

def ReadInside (f : Files) : ReadResult → Prop
  | .state st => f.json = some (.whole st) ∧ ∀ p c, policy = some p → f.claim = some c → p.Matches st c
  | .missing => f.json = none ∧ (policy.isSome = true → f.claim = none)
  | .unreadable => True

def ReadClaim (p : Policy) (listed : Option Purpose) (c : Claimant) : ReadResult → Prop
  | .state st => p.Matches st c
  | .missing => False
  | .unreadable => listed ≠ some p.guard.purpose

def MayFail (purpose : Purpose) : Prop := ∀ p, policy = some p → p.guard = .loopback → purpose ≠ .allocation

def NotGuarded (purpose : Purpose) : Prop := ∀ p, policy = some p → purpose ≠ p.guard.purpose

def Careful : Op → Choice → Prop
  | .readJson _ listed, .error => ∀ p, policy = some p → listed ≠ some p.guard.purpose
  | .dirExists purpose, .error => NotGuarded policy purpose
  | .openDir purpose, .error => MayFail policy purpose
  | .readDir purpose, .error => MayFail policy purpose
  | .stat _, .error => ∀ p, policy = some p → p.live = false
  | _, _ => True

def post : (o : Op) → Own → Res o → Own → Prop
  | .tryFlock inode .exclusive, ω, .acquired, ω' =>
    ω.Keeps ω' ∧ ω'.held = Function.update ω.held inode true ∧ ω'.files = ω.files
  | .tryFlock _ _, ω, _, ω' => ω.Same ω'
  | .flock inode .exclusive, ω, true, ω' =>
    ω.Keeps ω' ∧ ω'.held = Function.update ω.held inode true ∧ ω'.files = ω.files
  | .flock _ _, ω, _, ω' => ω.Same ω'
  | .identify vm inode, ω, some .same, ω' =>
    if ω.held inode then
      ∃ f, ω.Puts vm (some f) ω' ∧ ∀ p, policy = some p → p.live = false → f.claim = ω'.view.claims vm
    else ω.Same ω'
  | .unflock inode, ω, _, ω' =>
    ω.Keeps ω' ∧ ω'.held = Function.update ω.held inode false ∧ ω'.files = fun _ => none
  | .readJson vm listed, ω, r, ω' => ω.Same ω' ∧ (∀ f, ω.files vm = some f → ReadInside policy f r) ∧
    ∀ p, policy = some p → (∀ st, r = .state st → st.vmId = vm) ∧
      ∀ c, ω'.view.claims vm = some c → ReadClaim p listed c r
  | .truncateTmp vm, ω, true, ω' =>
    ∃ f, ω.files vm = some f ∧ ω.Puts vm (some { f with tmp := some .torn }) ω'
  | .writeTmp vm state, ω, r, ω' =>
    ∃ f, ω.files vm = some f ∧ ω.Puts vm (some { f with tmp := some (if r then .whole state else .torn) }) ω'
  | .renameTmp vm, ω, true, ω' =>
    ω'.call = ω.call ∧ ω'.held = ω.held ∧ .renamed (ω.call.map Prod.snd) vm ∈ ω'.deeds ∧
      ∀ p f st me call key, policy = some p → ω.files vm = some f → f.tmp = some (.whole st) →
        ω.call = some (me, call) → call.claims = some p.guard → p.key st = some key → .claimed vm ⟨me, key⟩ ∈ ω'.deeds
  | .unlinkJson vm, ω, true, ω' =>
    ∃ f, ω.files vm = some f ∧ ω.Puts vm (some { f with json := none, claim := none }) ω'
  | .unlinkTmp vm, ω, true, ω' => ∃ f, ω.files vm = some f ∧ ω.Puts vm (some { f with tmp := none }) ω'
  | .unlinkLock vm, ω, true, ω' => ω.Puts vm none ω'
  | .dirExists purpose, ω, r, ω' => ω.Same ω' ∧ (r = false → NotGuarded policy purpose)
  | .openDir purpose, ω, r, ω' => ω.Same ω' ∧ (r = false → MayFail policy purpose)
  | .readDir purpose, ω, r, ω' => ω.Same ω' ∧ (r = none → MayFail policy purpose) ∧
    ∀ list, r = some list → ω.guard = true → ∀ vm c, ω'.view.claims vm = some c → .lock vm ∈ list
  | .stat pid, ω, r, ω' => ω.Same ω' ∧
    ∀ p vm c, policy = some p → p.live = true → ω'.view.claims vm = some c → c.owner.1 = pid →
      r = some ⟨c.owner.2, false⟩
  | .startTime pid, ω, r, ω' => ω.Same ω' ∧ ∀ start, r = some start →
    (∀ me call, ω.call = some (me, call) → me.1 = pid → start = me.2) ∧
    ∀ vm f c, ω.files vm = some f → f.claim = some c → c.owner.1 = pid → start ≠ c.owner.2 →
      ω'.view.dead c.owner = true
  | .procExists pid, ω, r, ω' => ω.Same ω' ∧
    (r = some false → ∀ vm f c, ω.files vm = some f → f.claim = some c → c.owner.1 = pid →
      ω'.view.dead c.owner = true)
  | .lockGlobal g, ω, r, ω' => ({ ω with guard := ω'.guard, view := ω'.view } : Own).Same ω' ∧
    (∀ vm c, ω.writes vm = true → ω'.view.claims vm = some c → ω.view.claims vm = some c) ∧
    (r = true → ∀ p, policy = some p → p.guard = g → ω'.guard = true)
  | .unlockGlobal _, ω, _, ω' => ({ ω with guard := ω'.guard, view := ω'.view } : Own).Same ω'
  | .finish _, _, _, _ => True
  | _, ω, _, ω' => ω.Same ω'

def contract : Prog.Contract Op Res Own where
  pre := pre policy
  post := post policy

end Contract

end Fcvm.StateDir
