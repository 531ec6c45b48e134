import Fcvm.StateDir.Calls
import Fcvm.StateDir.Operations

namespace Fcvm.StateDir

open Library Prog Function List Option

variable {id : Ident} {p : Policy} {vm : VmId} {o : Op} {r : Res o}

variable (policy : Option Policy)

def pool : Pool Dir Own Choice (Ident × Call × ℕ) Change Op Res where
  own := own policy
  exec := exec policy
  call t c s := (s.begin policy t c.1 c.2.1).map fun s => (s, callProgram c.2.2 c.1 c.2.1)
  environment := Dir.change

abbrev World := Pool.State Dir Op Res

abbrev Event := Pool.Event Choice (Ident × Call × ℕ) Change

structure Settled (policy : Option Policy) (s : Dir) : Prop where
  calls : ∀ t, s.calls t = none
  exclusive : ∀ i, s.exclusive i = none
  inside : ∀ vm, s.inside vm = none
  global : ∀ g, s.global g = none
  writer : ∀ vm, s.writer vm = none
  log : s.log = []
  claim : ∀ vm, (s.files vm).claim = none
  lockBound : ∀ vm i, (s.files vm).lock = some i → i < s.nextInode
  lockInj : ∀ vm vm' i, (s.files vm).lock = some i → (s.files vm').lock = some i → vm = vm'
  known : ∀ vm, (s.files vm).lock.isSome = true → vm ∈ s.known
  past : ∀ id, s.alive id = true → id ∈ s.past
  vmId : policy.isSome = true → ∀ vm st, (s.files vm).json = some (.whole st) → st.vmId = vm
  unseen : ∀ t id, (s.view t).dead id = false

def system (s₀ : Dir) : System World Event := (pool policy).system (· = s₀)

def Carried (s : Dir) (state : VmState) (p : Policy) : Prop :=
  p = loopbackPolicy ∧ s.writer state.vmId = none ∧
    ∀ c, (s.files state.vmId).claim = some c → state.loopbackIp = some c.key

def Allowed (s : Dir) : Call → Prop
  | .saveState state => ∀ p, policy = some p → Carried s state p
  | .updateState _ mutate => ∀ p, policy = some p → p.Kept mutate
  | .claimName state => ∀ p, policy = some p → p = namePolicy ∨ Carried s state p
  | .allocateLoopbackIp state => ∀ p, policy = some p → p = loopbackPolicy ∧ s.writer state.vmId = none
  | _ => True

def Obeys (w : World) : Event → Prop
  | .step t c => ∀ o k, w.threads t = some (.op o k) → Careful policy o c
  | .call _ (_, call, _) => Allowed policy w.shared call
  | .environment _ => True

def heldBy : List Entry → VmId → Option Claimant
  | [], _ => none
  | .claimed _ v c :: log, vm => if v = vm then some c else heldBy log vm
  | .payload _ _ v (.unlinkJson _) :: log, vm => if v = vm then none else heldBy log vm
  | _ :: log, vm => heldBy log vm

variable {s₀ s s' : Dir} {policy : Option Policy} {t : ℕ}

structure Good (s₀ : Dir) (policy : Option Policy) (s : Dir) : Prop where
  inv : Inv s₀ policy s
  idle : ∀ t, s.calls t = none → (own policy t s).Idle
  held : policy.isSome = true → ∀ vm, (s.files vm).claim = heldBy s.log vm

theorem own_idle (hexclusive : ∀ i, s.exclusive i ≠ some t) (hinside : ∀ vm, s.inside vm ≠ some t) :
    (own policy t s).Idle := by
  constructor
  · funext i
    simp [own, hexclusive i]
  · funext vm
    simp [own, hinside vm]

theorem Settled.good (hs : Settled policy s₀) : Good s₀ policy s₀ := by
  have hnone {p : Policy} {vm : VmId} {c : Claimant} : s₀.claims (some p) vm ≠ some c := by
    intro h
    have hc := (Dir.claims_eq h).1
    rw [hs.claim] at hc
    cases hc
  have hlog (vm : VmId) : (s₀.files vm).json = leftBy s₀ s₀.log vm := by
    rw [hs.log]
    rfl
  refine ⟨⟨⟨?_, hs.lockBound, hs.lockInj, ?_, ?_, hlog, ?_, hs.past, hs.known, ?_, ?_⟩, ?_⟩, ?_, ?_⟩
  · intro vm t h
    simp [hs.inside] at h
  · intro vm t h
    simp [hs.inside] at h
  · rw [hs.log]
    trivial
  · intro t me call h
    simp [hs.calls] at h
  · intro vm c h
    simp [hs.claim] at h
  · intro p hp
    refine ⟨?_, ?_, hs.vmId (by rw [hp]; rfl), ?_, ?_⟩
    · intro vm c h
      simp [hs.claim] at h
    · intro vm c h
      simp [hs.claim] at h
    · exact fun _ _ _ _ _ h => absurd h hnone
    · exact fun _ _ _ _ _ _ h => absurd h hnone
  · intro t
    constructor
    · intro id h
      simp [hs.unseen] at h
    · intro p vm c hp _ hc
      rw [hp] at hc
      exact absurd hc hnone
  · intro t _
    apply own_idle
    · intro i h
      simp [hs.exclusive] at h
    · intro vm h
      simp [hs.inside] at h
  · intro _ vm
    rw [hs.claim, hs.log]
    rfl

theorem Dir.begin_eq {me : Ident} {call : Call} (h : s.begin policy t me call = some s') :
    s.alive me = true ∧ s.calls t = none ∧ ∃ writer : VmId → Option ℕ,
      (∀ vm u, u ≠ t → (writer vm = some u ↔ s.writer vm = some u)) ∧
      (∀ vm, call.writes = some vm → s.writer vm = none → writer vm = some t) ∧
      s' = { s with calls := update s.calls t (some (me, call)), writer := writer }.snapshot policy t := by
  unfold Dir.begin at h
  split at h
  · next hbegin =>
    cases h
    refine ⟨hbegin.1, hbegin.2, _, ?_, ?_, rfl⟩
    · intro vm u hu
      cases call.writes with
      | none => rfl
      | some vm' =>
        by_cases hvm : vm = vm'
        · subst hvm
          simp only [update_self]
          cases s.writer vm with
          | none => simp [hu.symm]
          | some v => simp
        · simp only [update_of_ne hvm]
    · intro vm hwrites hnone
      rw [hwrites]
      simp [hnone]
  · cases h

theorem Good.begin {me : Ident} {call : Call} (hs : Good s₀ policy s) (hallowed : Allowed policy s call)
    (h : s.begin policy t me call = some s') :
    Good s₀ policy s' ∧ (own policy t s').Idle ∧ (own policy t s').call = some (me, call) ∧
      Admitted policy call (own policy t s') ∧ ∀ u, u ≠ t → own policy u s' = own policy u s := by
  obtain ⟨hme, hnone, writer, hothers, hwriter, rfl⟩ := Dir.begin_eq h
  have hidle := hs.idle t hnone
  have hown {u : ℕ} (hu : u ≠ t) : own policy u
      ({ s with calls := update s.calls t (some (me, call)), writer := writer }.snapshot policy t) =
      own policy u s := by
    apply own_eq
    · exact update_of_ne hu _ _
    · exact fun _ => Iff.rfl
    · exact fun _ => Iff.rfl
    · exact fun _ _ => rfl
    · exact fun _ => Iff.rfl
    · exact fun vm => hothers vm u hu
    · rfl
    · exact update_of_ne hu _ _
  have hcore : Core s₀ policy { s with
      calls := update s.calls t (some (me, call)), writer := writer } := by
    refine ⟨hs.inv.core.inside, hs.inv.core.lockBound, hs.inv.core.lockInj, hs.inv.core.last, hs.inv.core.legal,
      hs.inv.core.content, ?_, hs.inv.core.past, hs.inv.core.known, hs.inv.core.claimPast, fun p hp => ?_⟩
    · intro u id c hu
      by_cases hut : u = t
      · subst hut
        simp only [update_self, some.injEq, Prod.mk.injEq] at hu
        rw [← hu.1]
        exact hme
      · simp only [update_of_ne hut] at hu
        exact hs.inv.core.callAlive u id c hu
    · have hclaims := hs.inv.core.claims p hp
      exact { hclaims with }
  refine ⟨⟨.after hcore ?_, ?_, hs.held⟩, ⟨hidle.held, hidle.files⟩, ?_, ?_, fun u hu => hown hu⟩
  · intro u hu
    exact (hs.inv.seen u).mono rfl (fun _ h => h) (fun _ h => h) (fun vm h => (hothers vm u hu).mp h)
      fun _ _ _ _ _ h => h
  · intro u hu
    by_cases hut : u = t
    · subst hut
      exact ⟨hidle.held, hidle.files⟩
    · rw [hown hut]
      apply hs.idle u
      rw [← hu]
      exact (update_of_ne hut _ _).symm
  · exact update_self ..
  · -- the caller is the only one that writes the VM's state
    have hwrites {vm : VmId} (hp : policy = some loopbackPolicy) (hvm : call.writes = some vm)
        (hnone : s.writer vm = none) : (own policy t ({ s with
          calls := update s.calls t (some (me, call)), writer := writer }.snapshot policy t)).writes vm =
          true := by
      simp [own, hp, loopbackPolicy, Dir.snapshot, hwriter vm hvm hnone]
    have hcarries {state : VmState} {p : Policy} (hp : policy = some p) (hvm : call.writes = some state.vmId)
        (hcarried : Carried s state p) : Carries state (own policy t ({ s with
          calls := update s.calls t (some (me, call)), writer := writer }.snapshot policy t)) p := by
      obtain ⟨rfl, hfree, hkey⟩ := hcarried
      refine ⟨rfl, hwrites hp hvm hfree, ?_⟩
      intro c hc
      simp only [own, Dir.snapshot, update_self, hp] at hc
      exact hkey c (Dir.claims_eq hc).1
    cases call with
    | saveState state => exact fun p hp => hcarries hp rfl (hallowed p hp)
    | updateState vm mutate => exact hallowed
    | deleteState vm => trivial
    | cleanupStaleState => trivial
    | withLockedState vm => trivial
    | claimName state => exact fun p hp => (hallowed p hp).imp_right (hcarries hp rfl)
    | allocateLoopbackIp state =>
      intro p hp
      obtain ⟨rfl, hfree⟩ := hallowed p hp
      exact ⟨rfl, hwrites hp rfl hfree⟩

theorem Dir.alive_of_procs (h : s.procs id.1 = some ⟨id.2, false⟩) : s.alive id = true := by
  simp [Dir.alive, h]

structure Ages (s s' : Dir) : Prop where
  files : s'.files = s.files
  log : s'.log = s.log
  view : s'.view = s.view
  past : ∀ id, s'.alive id = true → id ∈ s'.past
  older : ∀ id, id ∈ s.past → id ∈ s'.past
  alive : ∀ id, id ∈ s.past → s'.alive id = true → s.alive id = true

theorem Ages.dead (h : Ages s s') (hd : s.dead id = true) : s'.dead id = true := by
  simp only [Dir.dead, Bool.and_eq_true, contains_iff_mem, Bool.not_eq_true'] at hd ⊢
  refine ⟨h.older id hd.1, ?_⟩
  cases ha : s'.alive id with
  | false => rfl
  | true =>
    rw [h.alive id hd.1 ha] at hd
    cases hd.2

theorem Ages.claims (h : Ages s s') (hs : Core s₀ policy s) {c : Claimant}
    (hc : s'.claims (some p) vm = some c) : s.claims (some p) vm = some c := by
  obtain ⟨hclaim, hcounts⟩ := Dir.claims_eq hc
  rw [h.files] at hclaim
  apply Dir.claims_of hclaim
  simp only [Dir.counts, Bool.or_eq_true, Bool.not_eq_true'] at hcounts ⊢
  exact hcounts.imp id (h.alive _ (hs.claimPast vm c hclaim))

theorem Good.ages (hs : Good s₀ policy s) (h : Ages s s') (hnext : s'.nextInode = s.nextInode)
    (hknown : s'.known = s.known)
    (hinside : ∀ vm t, s'.inside vm = some t → s.inside vm = some t ∧
      ∀ i, s.exclusive i = some t → s'.exclusive i = some t)
    (hcalls : ∀ t me call, s'.calls t = some (me, call) → s'.alive me = true)
    (hglobal : ∀ g t, s'.global g = some t → s.global g = some t) (hscans : s'.scans = s.scans)
    (hwriter : ∀ vm t, s'.writer vm = some t → s.writer vm = some t)
    (hidle : ∀ t, s'.calls t = none → (own policy t s').Idle) : Good s₀ policy s' := by
  have hcore := hs.inv.core
  refine ⟨⟨⟨?_, ?_, ?_, ?_, ?_, ?_, hcalls, h.past, ?_, ?_, ?_⟩, ?_⟩, hidle, ?_⟩
  · intro vm t hin
    obtain ⟨i, hlock, hexclusive⟩ := hcore.inside vm t (hinside vm t hin).1
    rw [h.files]
    exact ⟨i, hlock, (hinside vm t hin).2 i hexclusive⟩
  · rw [h.files, hnext]
    exact hcore.lockBound
  · rw [h.files]
    exact hcore.lockInj
  · intro vm t hin
    rw [h.log]
    exact hcore.last vm t (hinside vm t hin).1
  · rw [h.log]
    exact hcore.legal
  · rw [h.files, h.log]
    exact hcore.content
  · rw [h.files, hknown]
    exact hcore.known
  · intro vm c hc
    rw [h.files] at hc
    exact h.older _ (hcore.claimPast vm c hc)
  · intro p hp
    have hclaims := hcore.claims p hp
    refine ⟨?_, ?_, ?_, ?_, ?_⟩
    · rw [h.files]
      exact hclaims.lock
    · rw [h.files]
      exact hclaims.json
    · rw [h.files]
      exact hclaims.vmId
    · intro vm vm' c c' hne hc hc'
      exact hclaims.unique vm vm' c c' hne (h.claims hcore hc) (h.claims hcore hc')
    · intro t l vm c hg hl hc
      rw [hscans] at hl
      exact hclaims.scanned t l vm c (hglobal _ t hg) hl (h.claims hcore hc)
  · intro t
    refine (hs.inv.seen t).mono (by rw [h.view]) (fun _ => h.dead) (fun g => hglobal g t) (fun vm => hwriter vm t) ?_
    intro p vm c hp _ hc
    subst hp
    exact h.claims hcore hc
  · rw [h.files, h.log]
    exact hs.held

theorem belongs_iff : s.belongs id t = true ↔ ∃ call, s.calls t = some (id, call) := by
  unfold Dir.belongs
  cases s.calls t with
  | none => simp
  | some c =>
    obtain ⟨me, call⟩ := c
    simp

theorem Good.change {e : Change} {ended : ℕ → Bool} (hs : Good s₀ policy s) (h : s.change e = some (s', ended)) :
    Good s₀ policy s' ∧ ∀ u, ended u = false → own policy u s' = own policy u s := by
  have hcore := hs.inv.core
  cases e with
  | start id =>
    simp only [Dir.change] at h
    split at h
    · next hid =>
      cases h
      have halive {id' : Ident} (h : Dir.alive { s with
          procs := update s.procs id.1 (some ⟨id.2, false⟩), past := id :: s.past } id' = true) :
          id' = id ∨ s.alive id' = true := by
        have hp := Dir.alive_eq h
        by_cases hpid : id'.1 = id.1
        · simp only [hpid, update_self, some.injEq, Proc.mk.injEq, and_true] at hp
          exact .inl (Prod.ext hpid hp.symm)
        · simp only [update_of_ne hpid] at hp
          exact .inr (Dir.alive_of_procs hp)
      refine ⟨hs.ages ⟨rfl, rfl, rfl, ?_, fun _ h => mem_cons_of_mem _ h, ?_⟩ rfl rfl
        (fun _ _ h => ⟨h, fun _ h => h⟩) ?_ (fun _ _ h => h) rfl (fun _ _ h => h) hs.idle, fun _ _ => rfl⟩
      · intro id' h
        rcases halive h with rfl | h
        · exact mem_cons_self
        · exact mem_cons_of_mem _ (hcore.past id' h)
      · intro id' hpast h
        rcases halive h with rfl | h
        · exact absurd hpast hid.2
        · exact h
      · intro t me call hcall
        have hp := Dir.alive_eq (hcore.callAlive t me call hcall)
        apply Dir.alive_of_procs
        rw [← hp]
        apply update_of_ne
        intro hpid
        simp [hpid, hid.1] at hp
    · cases h
  | exit id zombie =>
    simp only [Dir.change] at h
    split at h
    · next hid =>
      cases h
      have hother {id' : Ident} (hne : id' ≠ id) (h : s.alive id' = true) : id'.1 ≠ id.1 := by
        intro hpid
        have hp := Dir.alive_eq h
        rw [hpid, Dir.alive_eq hid] at hp
        simp only [some.injEq, Proc.mk.injEq, and_true] at hp
        exact hne (Prod.ext hpid hp.symm)
      have halive {id' : Ident} (h : (s.endProcess id zombie).alive id' = true) : s.alive id' = true := by
        have hp := Dir.alive_eq h
        by_cases hpid : id'.1 = id.1
        · simp only [Dir.endProcess, hpid, update_self] at hp
          split at hp <;> simp at hp
        · simp only [Dir.endProcess, update_of_ne hpid] at hp
          exact Dir.alive_of_procs hp
      have hbelongs {u : ℕ} {o : Option ℕ} (h : o.filter (fun t => !s.belongs id t) = some u) :
          o = some u ∧ s.belongs id u = false := by
        have h := filter_eq_some_iff.mp h
        exact ⟨h.1, by simpa using h.2⟩
      have hkeep {u : ℕ} {o : Option ℕ} (hu : s.belongs id u = false) :
          o.filter (fun t => !s.belongs id t) = some u ↔ o = some u := by
        rw [filter_eq_some_iff]
        simp [hu]
      refine ⟨hs.ages ⟨rfl, rfl, rfl, fun id' h => hcore.past id' (halive h), fun _ h => h, fun _ _ h => halive h⟩
        rfl rfl ?_ ?_ ?_ rfl ?_ ?_, ?_⟩
      · intro vm t hin
        obtain ⟨hin, hnot⟩ := hbelongs hin
        exact ⟨hin, fun i hi => (hkeep hnot).mpr hi⟩
      · intro t me call hcall
        simp only [Dir.endProcess] at hcall
        split at hcall
        · cases hcall
        · next hnot =>
          have hme := hcore.callAlive t me call hcall
          have hne : me ≠ id := by
            rintro rfl
            exact hnot (belongs_iff.mpr ⟨call, hcall⟩)
          apply Dir.alive_of_procs
          rw [← Dir.alive_eq hme]
          exact update_of_ne (hother hne hme) _ _
      · exact fun g t h => (hbelongs h).1
      · exact fun vm t h => (hbelongs h).1
      · intro t ht
        by_cases hb : s.belongs id t = true
        · apply own_idle
          · intro i hi
            simp [(hbelongs hi).2] at hb
          · intro vm hin
            simp [(hbelongs hin).2] at hb
        · simp only [Dir.endProcess, hb, Bool.false_eq_true, if_false] at ht
          have hidle := hs.idle t ht
          apply own_idle
          · intro i hi
            have := congrFun hidle.held i
            simp [own, (hbelongs hi).1] at this
          · intro vm hin
            have := congrFun hidle.files vm
            simp [own, (hbelongs hin).1] at this
      · intro u hu
        exact own_eq (by simp [Dir.endProcess, hu]) (fun _ => hkeep hu) (fun _ => hkeep hu) (fun _ _ => rfl)
          (fun _ => hkeep hu) (fun _ => hkeep hu) rfl rfl
    · cases h
  | reap id =>
    simp only [Dir.change] at h
    split at h
    · next hid =>
      cases h
      have halive {id' : Ident} : Dir.alive { s with procs := update s.procs id.1 none } id' = true ↔
          s.alive id' = true := by
        by_cases hpid : id'.1 = id.1
        · constructor
          · intro h
            have hp := Dir.alive_eq h
            simp [hpid] at hp
          · intro h
            have hp := Dir.alive_eq h
            rw [hpid, hid] at hp
            simp at hp
        · simp only [Dir.alive, update_of_ne hpid]
      refine ⟨hs.ages ⟨rfl, rfl, rfl, fun id' h => hcore.past id' (halive.mp h), fun _ h => h,
        fun _ _ h => halive.mp h⟩ rfl rfl (fun _ _ h => ⟨h, fun _ h => h⟩) ?_ (fun _ _ h => h) rfl
        (fun _ _ h => h) hs.idle, fun _ _ => rfl⟩
      intro t me call hcall
      exact halive.mpr (hcore.callAlive t me call hcall)
    · cases h

theorem heldBy_payload {call : Option Call} {vm' : VmId} {step : Payload} {log : List Entry}
    (h : ∀ live, step ≠ .unlinkJson live) : heldBy (.payload t call vm step :: log) vm' = heldBy log vm' := by
  cases step with
  | unlinkJson live => exact absurd rfl (h live)
  | truncate => rfl
  | write state => rfl
  | rename content => rfl
  | unlinkTmp => rfl

section

variable (hs : ∀ vm, (s.files vm).claim = heldBy s.log vm)
include hs

theorem held_payload {f : Files} {step : Payload}
    (hclaim : f.claim = (s.files vm).claim) (hstep : ∀ live, step ≠ .unlinkJson live) (vm' : VmId) :
    ((s.payload t vm f step).files vm').claim = heldBy (s.payload t vm f step).log vm' := by
  simp only [Dir.payload, Dir.record, Dir.setFiles, heldBy_payload hstep]
  by_cases hvm : vm' = vm
  · subst hvm
    rw [update_self, hclaim, hs]
  · rw [update_of_ne hvm, hs]

theorem held_files {s' : Dir} {f : Files}
    (hfiles : s'.files = update s.files vm f) (hclaim : f.claim = (s.files vm).claim)
    (hlog : s'.log = s.log) (vm' : VmId) : (s'.files vm').claim = heldBy s'.log vm' := by
  rw [hfiles, hlog]
  by_cases hvm : vm' = vm
  · subst hvm
    rw [update_self, hclaim, hs]
  · rw [update_of_ne hvm, hs]

theorem held_rename {content : Content}
    (hpre : pre (some p) (.renameTmp vm) (own (some p) t s)) (htmp : (s.files vm).tmp = some content) (vm' : VmId) :
    ((s.rename (some p) t vm content).files vm').claim = heldBy (s.rename (some p) t vm content).log vm' := by
  unfold Dir.rename
  split
  · next hclaims =>
    obtain ⟨f, hf, hmay⟩ := hpre
    obtain ⟨-, rfl⟩ := own_files hf
    obtain ⟨st, htmp', -, hfresh, -⟩ := hmay.policy p rfl
    obtain ⟨me, call, key, hcall, hmatches, -⟩ := hfresh (of_decide_eq_true hclaims)
    cases htmp.symm.trans htmp'
    have hcall : s.calls t = some (me, call) := hcall
    simp only [Dir.claimRename, Dir.claimOf_eq hcall hmatches.key, map_some, toList_some, singleton_append, Dir.payload,
      Dir.record, Dir.setFiles, heldBy]
    split
    · next hvm => rw [hvm, update_self]
    · next hvm => rw [update_of_ne (Ne.symm hvm), hs]
  · have hstep : ∀ live, Payload.rename content ≠ .unlinkJson live := fun _ h => by cases h
    apply held_payload hs _ hstep
    rfl

theorem effect_held {c : Choice}
    (hpre : pre (some p) o (own (some p) t s)) (h : effect (some p) t o s c = some (s', r)) :
    ∀ vm, (s'.files vm).claim = heldBy s'.log vm := by
  cases o
  case createLock vm =>
    cases c <;> simp only [effect] at h
    · split at h <;> cases h
      · exact hs
      · exact held_files hs rfl rfl rfl
    · cases h
      exact hs
    · cases h
  case tryFlock inode mode =>
    cases c <;> simp only [effect] at h
    · split at h <;> cases h
      · cases mode <;> exact hs
      · exact hs
    · cases h
      exact hs
    · cases h
  case flock inode mode =>
    cases c <;> simp only [effect] at h
    · split at h <;> cases h
      cases mode <;> exact hs
    · cases h
      exact hs
    · cases h
  case truncateTmp vm =>
    cases c <;> simp only [effect] at h <;> cases h
    · exact held_payload hs rfl fun _ h => by cases h
    · exact hs
  case writeTmp vm state =>
    cases c <;> simp only [effect] at h <;> cases h
    · exact held_payload hs rfl fun _ h => by cases h
    · exact held_payload hs rfl fun _ h => by cases h
  case renameTmp vm =>
    cases c <;> simp only [effect] at h
    · split at h <;> cases h
      · exact hs
      · next content htmp => exact held_rename hs hpre htmp
    · cases h
      exact hs
    · cases h
  case unlinkJson vm =>
    cases c <;> simp only [effect] at h <;> cases h
    · intro vm'
      simp only [Dir.payload, Dir.record, Dir.setFiles, heldBy]
      split
      · next hvm => rw [hvm, update_self]
      · next hvm => rw [update_of_ne (Ne.symm hvm), hs]
    · exact hs
  case unlinkTmp vm =>
    cases c <;> simp only [effect] at h <;> cases h
    · exact held_payload hs rfl fun _ h => by cases h
    · exact hs
  case unlinkLock vm =>
    cases c <;> simp only [effect] at h <;> cases h
    · exact held_files hs rfl rfl rfl
    · exact hs
  -- the other operations touch no file
  all_goals
    cases c <;> simp only [effect] at h <;> (repeat' split at h) <;> cases h <;> exact hs

end

theorem effect_calls {c : Choice} (h : effect policy t o s c = some (s', r)) :
    s'.calls = s.calls := by
  cases o
  case tryFlock inode mode =>
    cases mode <;> cases c <;> simp only [effect] at h <;> (repeat' split at h) <;> cases h <;> rfl
  case flock inode mode =>
    cases mode <;> cases c <;> simp only [effect] at h <;> (repeat' split at h) <;> cases h <;> rfl
  case renameTmp vm =>
    cases c <;> simp only [effect, Dir.rename] at h <;> (repeat' split at h) <;> cases h <;> rfl
  all_goals
    cases c <;> simp only [effect] at h <;> (repeat' split at h) <;> cases h <;> rfl

theorem Good.exec {c : Choice} (hs : Good s₀ policy s) (hpre : pre policy o (own policy t s))
    (hcare : Careful policy o c) (h : exec policy t o s c = some (s', r)) :
    Good s₀ policy s' ∧ post policy o (own policy t s) r (own policy t s') ∧
      ∀ u, u ≠ t → own policy u s' = own policy u s := by
  unfold StateDir.exec at h
  split at h
  · next hcall =>
    obtain ⟨⟨s₁, r₁⟩, h₁, heq⟩ := map_eq_some_iff.mp h
    cases heq
    have hdone := effect_done hs.inv hpre hcare h₁
    have hothers : ∀ u, u ≠ t → own policy u (s₁.snapshot policy t) = own policy u s := by
      intro u hu
      rw [own_snapshot hu, hdone.others u hu]
    refine ⟨⟨.after hdone.core hdone.seen, ?_, ?_⟩, hdone.meets, hothers⟩
    · intro u hu
      by_cases hut : u = t
      · subst hut
        -- a thread that performs an operation is within a call, before and after it
        have hnone : s₁.calls u = none := hu
        rw [effect_calls h₁] at hnone
        simp [hnone] at hcall
      · rw [hothers u hut]
        apply hs.idle u
        have hcalls := congrArg Own.call (hothers u hut)
        exact hcalls.symm.trans hu
    · intro hp
      obtain ⟨p, rfl⟩ := isSome_iff_exists.mp hp
      intro vm
      exact effect_held (hs.held hp) hpre h₁ vm
  · cases h

theorem good_of_reachable {w : World} (hs₀ : Settled policy s₀) (h : (system policy s₀).ReachableBy (Obeys policy) w) :
    Good s₀ policy w.shared := by
  refine (Pool.reachable (M := pool policy) (K := contract policy) (I := Good s₀ policy) ?_ ?_ ?_ ?_ h).1
  · rintro s rfl
    exact hs₀.good
  · exact fun w t o k c s r hs hobeys hop hpre hexec => hs.exec hpre (hobeys o k hop) hexec
  · rintro w t ⟨me, call, fuel⟩ s p hs hobeys hcall
    obtain ⟨s₁, hbegin, heq⟩ := map_eq_some_iff.mp hcall
    cases heq
    obtain ⟨hgood, hidle, hme, hadmitted, hothers⟩ := hs.begin hobeys hbegin
    exact ⟨hgood, wp_callProgram fuel hidle hme hadmitted, hothers⟩
  · exact fun s e s' ended hs hchange => hs.change hchange

end Fcvm.StateDir
