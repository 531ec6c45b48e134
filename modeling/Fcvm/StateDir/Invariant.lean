import Fcvm.StateDir.Contract

namespace Fcvm.StateDir

open Library

def lastLocked : List Entry → VmId → Option ℕ
  | [], _ => none
  | .locked t v :: log, vm => if v = vm then some t else lastLocked log vm
  | _ :: log, vm => lastLocked log vm

def lastLeft : List Entry → VmId → Option (Option Content)
  | [], _ => none
  | .payload _ _ v (.rename c) :: log, vm => if v = vm then some (some c) else lastLeft log vm
  | .payload _ _ v (.unlinkJson _) :: log, vm => if v = vm then some none else lastLeft log vm
  | _ :: log, vm => lastLeft log vm

section Legal

variable (s₀ : Dir) (policy : Option Policy)

def leftBy (log : List Entry) (vm : VmId) : Option Content := (lastLeft log vm).getD (s₀.files vm).json

structure LegalPayload (t : ℕ) (call : Option Call) (vm : VmId) (step : Payload) (older : List Entry) : Prop where
  locked : lastLocked older vm = some t
  update : ∀ vm' mutate c, call = some (.updateState vm' mutate) → step = .rename c →
    ∃ st, leftBy s₀ older vm = some (.whole st) ∧ c = .whole (mutate st)
  deleted : ∀ p, policy = some p → p.live = true → step = .unlinkJson true → ∃ vm', call = some (.deleteState vm')

structure LegalReturn (t : ℕ) (call : Option (Ident × Call)) (older : List Entry) : Prop where
  update : ∀ me vm mutate, call = some (me, .updateState vm mutate) →
    ∃ c, .payload t (some (.updateState vm mutate)) vm (.rename c) ∈ older
  name : ∀ p me st name, policy = some p → p.guard = .names → call = some (me, .claimName st) → st.name = some name →
    .claimed t st.vmId ⟨me, name⟩ ∈ older
  address : ∀ p me st, policy = some p → p.guard = .loopback → call = some (me, .allocateLoopbackIp st) →
    ∃ key, .claimed t st.vmId ⟨me, key⟩ ∈ older

def Legal : Entry → List Entry → Prop
  | .payload t call vm step, older => LegalPayload s₀ policy t call vm step older
  | .returned t call outcome, older => outcome = .ok → LegalReturn policy t call older
  | _, _ => True

end Legal

structure Claims (p : Policy) (s : Dir) : Prop where
  lock : ∀ vm c, (s.files vm).claim = some c → (s.files vm).lock.isSome = true
  json : ∀ vm c, (s.files vm).claim = some c → ∃ st, (s.files vm).json = some (.whole st) ∧ p.Matches st c
  vmId : ∀ vm st, (s.files vm).json = some (.whole st) → st.vmId = vm
  unique : ∀ vm vm' c c', vm ≠ vm' → s.claims (some p) vm = some c → s.claims (some p) vm' = some c' → c.key ≠ c'.key
  scanned : ∀ t l vm c, s.global p.guard = some t → s.scans t = some l → s.claims (some p) vm = some c → vm ∈ l

structure Core (s₀ : Dir) (policy : Option Policy) (s : Dir) : Prop where
  inside : ∀ vm t, s.inside vm = some t → ∃ i, (s.files vm).lock = some i ∧ s.exclusive i = some t
  lockBound : ∀ vm i, (s.files vm).lock = some i → i < s.nextInode
  lockInj : ∀ vm vm' i, (s.files vm).lock = some i → (s.files vm').lock = some i → vm = vm'
  last : ∀ vm t, s.inside vm = some t → lastLocked s.log vm = some t
  legal : Always (Legal s₀ policy) s.log
  content : ∀ vm, (s.files vm).json = leftBy s₀ s.log vm
  callAlive : ∀ t me call, s.calls t = some (me, call) → s.alive me = true
  past : ∀ id, s.alive id = true → id ∈ s.past
  known : ∀ vm, (s.files vm).lock.isSome = true → vm ∈ s.known
  claimPast : ∀ vm c, (s.files vm).claim = some c → c.owner ∈ s.past
  claims : ∀ p, policy = some p → Claims p s

structure SeenBy (policy : Option Policy) (s : Dir) (t : ℕ) : Prop where
  dead : ∀ id, (s.view t).dead id = true → s.dead id = true
  guarded : ∀ p vm c, policy = some p → s.global p.guard = some t ∨ (p.live = false ∧ s.writer vm = some t) →
    s.claims policy vm = some c → (s.view t).claims vm = some c

structure Inv (s₀ : Dir) (policy : Option Policy) (s : Dir) : Prop where
  core : Core s₀ policy s
  seen : ∀ t, SeenBy policy s t

end Fcvm.StateDir
