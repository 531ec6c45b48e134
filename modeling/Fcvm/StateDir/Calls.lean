import Fcvm.StateDir.Specs

namespace Fcvm.StateDir

open Library Prog List

variable {policy : Option Policy} {ω : Own} {vm : VmId}

variable {ω' : Own} {f : Files} {state : VmState} {inode : ℕ} {me : Ident}

theorem MayRename.keeps (h : MayRename policy vm f ω) (hk : ω.Keeps ω') : MayRename policy vm f ω' := by
  constructor
  · intro me vm' mutate hcall
    rw [hk.call] at hcall
    exact h.update me vm' mutate hcall
  · intro p hp
    obtain ⟨st, htmp, hvm, hclaims, hkeep⟩ := h.policy p hp
    rw [hk.call]
    refine ⟨st, htmp, hvm, ?_, hkeep⟩
    intro hc
    obtain ⟨me, call, key, hcall, hmatches, hfresh⟩ := hclaims hc
    exact ⟨me, call, key, hcall, hmatches, hfresh.keeps hk⟩

variable (policy) in
structure Wrote (vm : VmId) (state : VmState) (ω : Own) (done : Bool) (ω' : Own) : Prop where
  call : ω'.call = ω.call
  held : ω'.held = ω.held
  renamed : done = true → .renamed (ω.call.map Prod.snd) vm ∈ ω'.deeds
  claimed : done = true → ∀ p me call key, policy = some p → ω.call = some (me, call) → call.claims = some p.guard →
    p.key state = some key → .claimed vm ⟨me, key⟩ ∈ ω'.deeds

theorem Wrote.failed (hk : ω.Keeps ω') (hheld : ω'.held = ω.held) :
    Wrote policy vm state ω false ω' := ⟨hk.call, hheld, nofun, nofun⟩

theorem wp_writeState (hin : ω.Inside inode vm f)
    (hmay : MayRename policy vm { f with tmp := some (.whole state) } ω) :
    wp (contract policy) (writeState vm state) (Wrote policy vm state ω) ω := by
  refine wp_does_bind ⟨f, hin.self⟩ ?_
  intro r ω₁ h₁
  cases r
  case false => exact .failed h₁.toKeeps h₁.held
  obtain ⟨f', hf', hputs₁⟩ := h₁
  cases hin.self.symm.trans hf'
  have hin₁ := hputs₁.inside hin
  refine wp_does_bind ⟨_, hin₁.self⟩ ?_
  intro r ω₂ h₂
  obtain ⟨f', hf', hputs₂⟩ := h₂
  cases hin₁.self.symm.trans hf'
  have hk₂ := hputs₁.toKeeps.trans hputs₂.toKeeps
  have hheld₂ := hputs₂.held.trans hputs₁.held
  cases r
  case false => exact .failed hk₂ hheld₂
  have hin₂ := hputs₂.inside hin₁
  refine wp_does_bind trivial ?_
  intro r ω₃ h₃
  have hk₃ := hk₂.trans h₃.toKeeps
  have hheld₃ := h₃.held.trans hheld₂
  have hin₃ := Own.Same.inside h₃ hin₂
  cases r
  case false => exact .failed hk₃ hheld₃
  refine wp_does ⟨_, hin₃.self, hmay.keeps hk₃⟩ ?_
  intro r ω₄ h₄
  cases r
  case false => exact .failed (hk₃.trans h₄.toKeeps) (h₄.held.trans hheld₃)
  obtain ⟨hcall, hheld, hrenamed, hclaimed⟩ := h₄
  refine ⟨hcall.trans hk₃.call, hheld.trans hheld₃, ?_, ?_⟩
  · intro _
    rw [← hk₃.call]
    exact hrenamed
  · intro _ p me call key hp hme hclaims hkey
    exact hclaimed p _ state me call key hp hin₃.self rfl (hk₃.call.trans hme) hclaims hkey

variable (policy) in
def Guarded (ω : Own) : Prop := ∀ p, policy = some p → p.live = true → ω.guard = true

theorem Guarded.keeps (h : Guarded policy ω) (hk : ω.Keeps ω') : Guarded policy ω' :=
  fun p hp hlive => hk.guard.trans (h p hp hlive)

theorem mayDelete_of_listed {vms : List VmState} {st : VmState} (hguard : Guarded policy ω)
    (hlisted : ∀ p, policy = some p → p.live = true → Listed p vms ω) (hst : st ∈ vms)
    (hdead : ∀ p vm c, policy = some p → p.live = true → ω.view.claims vm = some c → ¬ st.OwnedBy c) :
    MayDelete policy st.vmId ω := by
  intro p hp hlive
  refine .inr ⟨hguard p hp hlive, ?_⟩
  cases hc : ω.view.claims st.vmId with
  | none => rfl
  | some c =>
    have hmatches := (hlisted p hp hlive).facts st.vmId c hc st hst rfl
    exact absurd (hmatches.owned hlive) (hdead p st.vmId c hp hlive hc)

theorem wp_deleteReused (fuel pid : ℕ) (own : VmId) (vms : List VmState) (hω : ω.Idle) (hguard : Guarded policy ω)
    (hlisted : ∀ p, policy = some p → p.live = true → Listed p vms ω) :
    wp (contract policy) (deleteReused fuel pid own vms) (fun _ ω' => ω.Same ω') ω := by
  induction vms generalizing ω with
  | nil => exact .refl ω
  | cons existing vms ih =>
    -- going on with the rest of the list
    have hnext {ω₁ : Own} (h₁ : ω.Same ω₁) :
        wp (contract policy) (deleteReused fuel pid own vms) (fun _ ω' => ω.Same ω') ω₁ := by
      refine wp_mono (ih (h₁.idle hω) (hguard.keeps h₁.toKeeps) ?_) fun _ ω' h => h₁.trans h
      intro p hp hlive
      have hkeep := (hlisted p hp hlive).keeps (hguard p hp hlive) h₁.toKeeps
      exact ⟨fun vm c hc st hst => hkeep.facts vm c hc st (mem_cons_of_mem _ hst)⟩
    unfold deleteReused
    split
    · apply wp_seq (wp_ownerIsLive existing)
      rintro live ω₁ ⟨h₁, hdead⟩
      cases live
      case true => exact hnext h₁
      have hlisted₁ : ∀ p, policy = some p → p.live = true → Listed p (existing :: vms) ω₁ :=
        fun p hp hlive => (hlisted p hp hlive).keeps (hguard p hp hlive) h₁.toKeeps
      apply wp_seq (wp_deleteState fuel (h₁.idle hω)
        (mayDelete_of_listed (hguard.keeps h₁.toKeeps) hlisted₁ mem_cons_self (hdead rfl)))
      intro _ ω₂ h₂
      exact hnext (h₁.trans h₂)
    · exact hnext (.refl ω)

variable (fuel : ℕ)

theorem wp_deleteReusedStates (state : VmState) (hω : ω.Idle) (hguard : Guarded policy ω) :
    wp (contract policy) (deleteReusedStates fuel state) (fun _ ω' => ω.Same ω') ω := by
  unfold deleteReusedStates
  split
  · exact .refl ω
  · next pid hpid =>
    apply wp_seq (wp_listVms .reusedPid)
    rintro r ω₁ ⟨h₁, -, hchecked⟩
    cases r with
    | none => exact h₁
    | some vms =>
      refine wp_mono (wp_deleteReused fuel pid state.vmId vms (h₁.idle hω) (hguard.keeps h₁.toKeeps) ?_)
        fun _ ω' h => h₁.trans h
      exact fun p hp hlive => (hchecked vms p rfl hp (hguard p hp hlive)).toListed

theorem wp_processStartTime (pid : Option ℕ) :
    wp (contract policy) (processStartTime pid) (fun start ω' => ω.Same ω' ∧
      ∀ me call, ω.call = some (me, call) → pid = some me.1 → ∀ t, start = some t → t = me.2) ω := by
  cases pid with
  | none => exact ⟨.refl ω, nofun⟩
  | some pid =>
    refine wp_does trivial ?_
    rintro start ω₁ ⟨hsame, hstart⟩
    refine ⟨hsame, ?_⟩
    intro me call hcall hpid t ht
    exact (hstart t ht).1 me call hcall (Option.some.inj hpid).symm

theorem wp_saveState (state : VmState) (hω : ω.Idle) (hguard : Guarded policy ω)
    (hmay : ∀ (ω' : Own) (f : Files) (start : Option ℕ), ω.Keeps ω' →
      (∀ p c, policy = some p → p.live = false → ω.writes state.vmId = true → f.claim = some c →
        ω.view.claims state.vmId = some c) →
      (∀ me call, ω.call = some (me, call) → state.pid = some me.1 → ∀ t, start = some t → t = me.2) →
      MayRename policy state.vmId { f with tmp := some (.whole { state with pidStartTime := start }) } ω') :
    wp (contract policy) (saveState fuel state) (fun done ω' => ω'.call = ω.call ∧
      (done = true → ∃ start, ∀ p me call key, policy = some p → ω.call = some (me, call) →
        call.claims = some p.guard → p.key { state with pidStartTime := start } = some key →
        .claimed state.vmId ⟨me, key⟩ ∈ ω'.deeds)) ω := by
  apply wp_seq (wp_deleteReusedStates fuel state hω hguard)
  intro _ ω₁ h₁
  apply wp_seq (wp_lockStateFile fuel false (h₁.idle hω))
  intro r ω₂ h₂
  cases r with
  | wouldBlock | failed =>
    have h₂ : ω₁.Same ω₂ := h₂
    exact ⟨h₂.call.trans h₁.call, nofun⟩
  | held inode =>
    obtain ⟨hk₂, f, hin, hclaim⟩ := h₂
    have hk : ω.Keeps ω₂ := h₁.toKeeps.trans hk₂
    apply wp_seq (wp_processStartTime state.pid)
    rintro start ω₃ ⟨h₃, hstart⟩
    have hmay₃ := hmay ω₃ f start (hk.trans h₃.toKeeps)
      (by
        intro p c hp hlive hwrites hc
        rw [hclaim p hp hlive] at hc
        exact hk.claims state.vmId c (.inr hwrites) hc)
      (by
        intro me call hcall
        exact hstart me call (hk.call.trans hcall))
    apply wp_seq (wp_writeState (h₃.inside hin) hmay₃)
    intro done ω₄ h₄
    refine wp_does_bind trivial ?_
    intro _ ω₅ h₅
    have hcall : ω₃.call = ω.call := h₃.call.trans hk.call
    refine ⟨h₅.1.call.trans (h₄.call.trans hcall), ?_⟩
    intro hdone
    refine ⟨start, ?_⟩
    intro p me call key hp hme
    rw [h₅.1.deeds]
    exact h₄.claimed hdone p me call key hp (hcall.trans hme)

structure Policy.Kept (p : Policy) (mutate : VmState → VmState) : Prop where
  vmId : ∀ st, (mutate st).vmId = st.vmId
  matched : ∀ st c, p.Matches st c → p.Matches (mutate st) c

theorem Outcome.of_eq_ok {done : Bool} : Outcome.of done = .ok ↔ done = true := by
  cases done <;> simp [Outcome.of]

theorem wp_updateLocked {mutate : VmState → VmState} (hin : ω.Inside inode vm f)
    (hcall : ω.call = some (me, .updateState vm mutate)) (hkept : ∀ p, policy = some p → p.Kept mutate) :
    wp (contract policy) (updateLocked vm mutate) (fun outcome ω' => ω'.call = ω.call ∧
      (outcome = .ok → .renamed (some (.updateState vm mutate)) vm ∈ ω'.deeds)) ω := by
  refine wp_does_bind trivial ?_
  rintro r ω₁ ⟨h₁, hread, hid⟩
  have hin₁ := Own.Same.inside h₁ hin
  cases r with
  | unreadable => exact ⟨h₁.call, nofun⟩
  | state st =>
    obtain ⟨hjson, hmatches⟩ := hread f hin.self
    have hcall₁ : ω₁.call = some (me, .updateState vm mutate) := h₁.call.trans hcall
    have hmay : MayRename policy vm { f with tmp := some (.whole (mutate st)) } ω₁ := by
      constructor
      · intro me' vm' mutate' hcall'
        cases hcall₁.symm.trans hcall'
        exact ⟨st, hjson, rfl⟩
      · intro p hp
        refine ⟨mutate st, rfl, ?_, ?_, ?_⟩
        · rw [(hkept p hp).vmId]
          exact (hid p hp).1 st rfl
        · rw [hcall₁]
          rintro ⟨⟩
        · intro _ c hc
          exact (hkept p hp).matched st c (hmatches p c hp hc)
    apply wp_seq (wp_writeState hin₁ hmay)
    intro done ω' h
    refine ⟨h.call.trans h₁.call, ?_⟩
    intro hdone
    have hrenamed := h.renamed (Outcome.of_eq_ok.mp hdone)
    rw [hcall₁] at hrenamed
    exact hrenamed
  | missing =>
    obtain ⟨hjson, -⟩ := hread f hin.self
    refine wp_does_bind ⟨f, hin₁.self⟩ ?_
    intro r ω₂ h₂
    cases r with
    | false => exact ⟨h₂.call.trans h₁.call, nofun⟩
    | true =>
      obtain ⟨f', hf', hputs⟩ := h₂
      cases hin₁.self.symm.trans hf'
      refine wp_does_bind ⟨_, (hputs.inside hin₁).self, hjson⟩ ?_
      intro r ω₃ h₃
      cases r <;> exact ⟨h₃.call.trans (hputs.call.trans h₁.call), nofun⟩

theorem wp_updateState {mutate : VmState → VmState} (hω : ω.Idle)
    (hcall : ω.call = some (me, .updateState vm mutate)) (hkept : ∀ p, policy = some p → p.Kept mutate) :
    wp (contract policy) (updateState fuel vm mutate) (fun outcome ω' => ω'.call = ω.call ∧
      (outcome = .ok → .renamed (some (.updateState vm mutate)) vm ∈ ω'.deeds)) ω := by
  refine wp_does_bind trivial ?_
  intro found ω₁ h₁
  cases found
  case false => exact ⟨h₁.call, nofun⟩
  apply wp_seq (wp_lockStateFile fuel false (Own.Same.idle h₁ hω))
  intro r ω₂ h₂
  cases r with
  | wouldBlock | failed => exact ⟨(Own.Same.trans h₁ h₂).call, nofun⟩
  | held inode =>
    obtain ⟨hk₂, f, hin, -⟩ := h₂
    have hcall₂ : ω₂.call = ω.call := hk₂.call.trans h₁.call
    apply wp_seq (wp_updateLocked hin (hcall₂.trans hcall) hkept)
    rintro outcome ω₃ ⟨hcall₃, hrenamed⟩
    refine wp_does_bind trivial ?_
    intro _ ω₄ h₄
    refine ⟨h₄.1.call.trans (hcall₃.trans hcall₂), ?_⟩
    rw [h₄.1.deeds]
    exact hrenamed

theorem wp_withLockedState : wp (contract policy) (withLockedState fuel vm) (fun _ ω' => ω'.call = ω.call) ω := by
  apply wp_seq (wp_lockExistingStateFile fuel)
  intro r ω₁ h₁
  obtain _ | found := r
  · exact h₁.call
  cases found with
  | none => exact h₁.call
  | some inode =>
    refine wp_does_bind trivial ?_
    intro read ω₂ h₂
    refine wp_does_bind trivial ?_
    intro _ ω₃ h₃
    exact h₃.1.call.trans (h₂.1.call.trans h₁.call)

theorem wp_isStale (hin : ω.Inside inode vm f) :
    wp (contract policy) (isStale vm) (fun stale ω' => ω.Same ω' ∧ (stale = some true →
      ∀ p c, policy = some p → p.live = true → f.claim = some c → ω'.view.dead c.owner = true)) ω := by
  refine wp_does_bind trivial ?_
  rintro r ω₁ ⟨h₁, hread, -⟩
  cases r with
  | unreadable => exact ⟨h₁, nofun⟩
  | missing =>
    obtain ⟨-, hnone⟩ := hread f hin.self
    refine ⟨h₁, ?_⟩
    intro _ p c hp _ hc
    rw [hnone (by rw [hp]; rfl)] at hc
    cases hc
  | state st =>
    obtain ⟨-, hmatches⟩ := hread f hin.self
    dsimp only
    split
    · exact ⟨h₁, nofun⟩
    · next pid hpid =>
      refine wp_does_bind trivial ?_
      rintro r ω₂ ⟨h₂, hgone⟩
      have h₁₂ := h₁.trans h₂
      obtain _ | found := r
      · exact ⟨h₁₂, nofun⟩
      refine wp_does_bind trivial ?_
      rintro current ω₃ ⟨h₃, hother⟩
      refine ⟨h₁₂.trans h₃, ?_⟩
      intro hstale p c hp hlive hc
      obtain ⟨hown, hstart⟩ := (hmatches p c hp hc).owned hlive
      rw [hpid] at hown
      have hown := Option.some.inj hown
      cases found with
      | false =>
        apply h₃.dead
        exact hgone rfl vm f c (h₁.inside hin).self hc hown.symm
      | true =>
        -- both start times are known, and they differ
        cases current with
        | none => cases hrec : st.pidStartTime <;> simp [hrec] at hstale
        | some current =>
          apply (hother current rfl).2 vm f c (h₁₂.inside hin).self hc hown.symm
          rintro rfl
          cases hrec : st.pidStartTime with
          | none => simp [hrec] at hstale
          | some recorded => simp [hrec, hstart recorded hrec] at hstale

theorem wp_cleanupVm (hω : ω.Idle) : wp (contract policy) (cleanupVm fuel vm) (fun _ ω' => ω.Same ω') ω := by
  apply wp_seq (wp_lockStateFile fuel true hω)
  intro r ω₁ h₁
  cases r with
  | wouldBlock => exact h₁
  | failed => exact h₁
  | held inode =>
    obtain ⟨hk₁, f, hin, -⟩ := h₁
    apply wp_seq (wp_isStale hin)
    rintro stale ω₂ ⟨h₂, hdead⟩
    have hk₂ := hk₁.trans h₂.toKeeps
    have hin₂ := h₂.inside hin
    have hkeep : wp (contract policy) (does (.unflock inode)) (fun _ ω' => ω.Same ω') ω₂ := by
      refine wp_does trivial ?_
      intro _ ω₃ h₃
      exact hω.same_of_release hk₂ hin₂.held h₃
    obtain _ | stale := stale
    · exact hkeep
    cases stale
    case false => exact hkeep
    have hmay : MayDelete policy vm ω₂ ∨ ∀ c, f.claim = some c → ω₂.view.dead c.owner = true := by
      by_cases hlive : ∃ p, policy = some p ∧ p.live = true
      · obtain ⟨p, hp, hpl⟩ := hlive
        exact .inr fun c hc => hdead rfl p c hp hpl hc
      · exact .inl fun p hp hpl => absurd ⟨p, hp, hpl⟩ hlive
    apply wp_seq (wp_removeFiles hin₂ hmay)
    rintro _ ω₃ ⟨hk₃, hheld⟩
    refine wp_does trivial ?_
    intro _ ω₄ h₄
    exact hω.same_of_release (hk₂.trans hk₃) (hheld.trans hin₂.held) h₄

theorem wp_cleanupVms (vms : List VmId) (hω : ω.Idle) :
    wp (contract policy) (cleanupVms fuel vms) (fun _ ω' => ω.Same ω') ω := by
  induction vms generalizing ω with
  | nil => exact .refl ω
  | cons vm vms ih =>
    apply wp_seq (wp_cleanupVm fuel hω)
    intro _ ω₁ h₁
    exact wp_mono (ih (h₁.idle hω)) fun _ ω' h => h₁.trans h

theorem wp_cleanupStaleState (hω : ω.Idle) :
    wp (contract policy) (cleanupStaleState fuel) (fun _ ω' => ω.Same ω') ω := by
  refine wp_does_bind trivial ?_
  intro r ω₁ h₁
  cases r with
  | none => exact h₁
  | some entries => exact wp_mono (wp_cleanupVms fuel _ (Own.Same.idle h₁ hω)) fun _ ω' h => Own.Same.trans h₁ h

def namePolicy : Policy := ⟨VmState.name, .names, true⟩

def loopbackPolicy : Policy := ⟨VmState.loopbackIp, .loopback, false⟩

theorem wp_freeName (name : String) (vms : List VmState) (hω : ω.Idle) (hguard : Guarded policy ω)
    (hlisted : ∀ p, policy = some p → p.live = true → Listed p vms ω) :
    wp (contract policy) (freeName fuel vm name vms) (fun free ω' => ω.Same ω' ∧ (free = true →
      ∀ p c st, policy = some p → p.live = true → st ∈ vms → st.vmId ≠ vm →
        ω'.view.claims st.vmId = some c → st.name ≠ some name)) ω := by
  induction vms generalizing ω with
  | nil => exact ⟨.refl ω, nofun⟩
  | cons existing vms ih =>
    -- going on with the rest of the list
    have hnext {ω₁ : Own} (h₁ : ω.Same ω₁)
        (hfirst : ∀ p c, policy = some p → p.live = true → existing.vmId ≠ vm →
          ω₁.view.claims existing.vmId = some c → existing.name ≠ some name) :
        wp (contract policy) (freeName fuel vm name vms) (fun free ω' => ω.Same ω' ∧ (free = true →
          ∀ p c st, policy = some p → p.live = true → st ∈ existing :: vms → st.vmId ≠ vm →
            ω'.view.claims st.vmId = some c → st.name ≠ some name)) ω₁ := by
      have hguard₁ := hguard.keeps h₁.toKeeps
      refine wp_mono (ih (h₁.idle hω) hguard₁ ?_) ?_
      · intro p hp hlive
        have hkeep := (hlisted p hp hlive).keeps (hguard p hp hlive) h₁.toKeeps
        exact ⟨fun vm c hc st hst => hkeep.facts vm c hc st (mem_cons_of_mem _ hst)⟩
      · rintro free ω' ⟨h', hfree⟩
        refine ⟨h₁.trans h', ?_⟩
        intro hf p c st hp hlive hst hne hc
        rcases mem_cons.mp hst with rfl | hst
        · exact hfirst p c hp hlive hne (h'.claims _ _ (.inl (hguard₁ p hp hlive)) hc)
        · exact hfree hf p c st hp hlive hst hne hc
    unfold freeName
    split
    · apply wp_seq (wp_ownerIsLive existing)
      rintro live ω₁ ⟨h₁, hdead⟩
      cases live
      case true => exact ⟨h₁, nofun⟩
      have hguard₁ := hguard.keeps h₁.toKeeps
      have hlisted₁ : ∀ p, policy = some p → p.live = true → Listed p (existing :: vms) ω₁ :=
        fun p hp hlive => (hlisted p hp hlive).keeps (hguard p hp hlive) h₁.toKeeps
      apply wp_seq (wp_deleteState fuel (h₁.idle hω)
        (mayDelete_of_listed hguard₁ hlisted₁ mem_cons_self (hdead rfl)))
      intro deleted ω₂ h₂
      cases deleted with
      | false => exact ⟨h₁.trans h₂, nofun⟩
      | true =>
        apply hnext (h₁.trans h₂)
        intro p c hp hlive _ hc
        have hc₁ := h₂.claims _ _ (.inl (hguard₁ p hp hlive)) hc
        have hmatches := (hlisted₁ p hp hlive).facts _ c hc₁ existing mem_cons_self rfl
        exact absurd (hmatches.owned hlive) (hdead rfl p _ c hp hlive hc₁)
    · next hother =>
      apply hnext (.refl ω)
      intro p c _ _ hne _ hname
      exact hother ⟨hne, hname⟩

/-- A save of the state of a VM that holds an address is of a state that carries it. -/
structure Carries (state : VmState) (ω : Own) (p : Policy) : Prop where
  policy : p = loopbackPolicy
  writes : ω.writes state.vmId = true
  key : ∀ c, ω.view.claims state.vmId = some c → state.loopbackIp = some c.key

theorem Carries.keeps {p : Policy} (h : Carries state ω p) (hk : ω.Keeps ω') : Carries state ω' p := by
  refine ⟨h.policy, by rw [hk.writes, h.writes], ?_⟩
  exact fun c hc => h.key c (hk.claims _ c (.inr h.writes) hc)

theorem Carries.matches {p : Policy} {c : Claimant} {st : VmState} (h : Carries state ω p)
    (hc : ω.view.claims state.vmId = some c) (hst : st.loopbackIp = state.loopbackIp) : p.Matches st c := by
  obtain ⟨rfl, -, hkey⟩ := h
  exact ⟨hst.trans (hkey c hc), nofun⟩

theorem wp_claimNameLocked {name : String} (hω : ω.Idle)
    (hcall : ω.call = some (me, .claimName state)) (hname : state.name = some name)
    (hpolicy : ∀ p, policy = some p → (p = namePolicy ∧ ω.guard = true) ∨ Carries state ω p) :
    wp (contract policy) (claimNameLocked fuel me state name) (fun done ω' => ω'.call = ω.call ∧
      (done = true → policy = some namePolicy → .claimed state.vmId ⟨me, name⟩ ∈ ω'.deeds)) ω := by
  have hguard : Guarded policy ω := by
    intro p hp hlive
    rcases hpolicy p hp with ⟨-, hguard⟩ | ⟨rfl, -⟩
    · exact hguard
    · cases hlive
  apply wp_seq (wp_cleanupStaleState fuel hω)
  intro _ ω₁ h₁
  apply wp_seq (wp_listVms .nameCheck)
  rintro r ω₂ ⟨h₂, -, hchecked⟩
  have h₁₂ := h₁.trans h₂
  obtain _ | vms := r
  · exact ⟨h₁₂.call, nofun⟩
  have hchecked := fun p hp hlive => hchecked vms p rfl hp (hguard.keeps h₁.toKeeps p hp hlive)
  apply wp_seq (wp_freeName fuel name vms (h₁₂.idle hω) (hguard.keeps h₁₂.toKeeps)
    fun p hp hlive => (hchecked p hp hlive).toListed)
  rintro free ω₃ ⟨h₃, hfree⟩
  have h₁₃ := h₁₂.trans h₃
  cases free
  case false => exact ⟨h₁₃.call, nofun⟩
  have hfresh : policy = some namePolicy → ω₃.Fresh namePolicy state.vmId name := by
    intro hp
    have hguard₃ := hguard.keeps h₁₃.toKeeps _ hp rfl
    refine ⟨hguard₃, nofun, ?_⟩
    intro vm' c hne hc hkey
    have hc₂ := h₃.claims vm' c (.inl (h₃.guard.symm.trans hguard₃)) hc
    obtain ⟨st, hst, rfl⟩ := (hchecked _ hp rfl).covers rfl vm' c hc₂
    have hmatches := (hchecked _ hp rfl).facts _ c hc₂ st hst rfl
    exact hfree rfl _ c st hp rfl hst hne hc (hmatches.key.trans (congrArg some hkey))
  refine wp_does_bind trivial ?_
  rintro start ω₄ ⟨h₄, -⟩
  have h₁₄ := h₁₃.trans h₄
  refine wp_mono (wp_saveState fuel _ (h₁₄.idle hω) (hguard.keeps h₁₄.toKeeps) ?_) ?_
  · intro ω' f start hk hclaim hstart
    have hcall' : ω'.call = some (me, .claimName state) := hk.call.trans (h₁₄.call.trans hcall)
    constructor
    · intro me' vm' mutate hupdate
      cases hcall'.symm.trans hupdate
    · intro p hp
      rw [hcall']
      refine ⟨_, rfl, rfl, ?_, ?_⟩
      · intro hclaims
        rcases hpolicy p hp with ⟨rfl, -⟩ | ⟨rfl, -⟩
        · refine ⟨me, _, name, rfl, ⟨hname, fun _ => ?_⟩, ((hfresh hp).keeps h₄.toKeeps).keeps hk⟩
          exact ⟨rfl, hstart me _ (h₁₄.call.trans hcall) rfl⟩
        · cases hclaims
      · intro hclaims c hc
        rcases hpolicy p hp with ⟨rfl, -⟩ | hcarries
        · exact absurd rfl hclaims
        · have hcarries := hcarries.keeps h₁₄.toKeeps
          exact hcarries.matches (hclaim p c hp (by rw [hcarries.policy]; rfl) hcarries.writes hc) rfl
  · rintro done ω' ⟨hcall', hclaimed⟩
    refine ⟨hcall'.trans h₁₄.call, ?_⟩
    intro hdone hp
    obtain ⟨start, hclaimed⟩ := hclaimed hdone
    exact hclaimed _ me _ name hp (h₁₄.call.trans hcall) rfl hname

theorem wp_claimName (hω : ω.Idle) (hcall : ω.call = some (me, .claimName state))
    (hpolicy : ∀ p, policy = some p → p = namePolicy ∨ Carries state ω p) :
    wp (contract policy) (claimName fuel me state) (fun done ω' => ω'.call = ω.call ∧ (done = true →
      ∀ name, policy = some namePolicy → state.name = some name → .claimed state.vmId ⟨me, name⟩ ∈ ω'.deeds)) ω := by
  unfold claimName
  split
  · exact ⟨rfl, nofun⟩
  · next name hname =>
    refine wp_does_bind trivial ?_
    rintro locked ω₁ ⟨h₁, hwrites, hguard⟩
    cases locked
    case false => exact ⟨h₁.call, nofun⟩
    have hω₁ : ω₁.Idle := h₁.idle ⟨hω.held, hω.files⟩
    have hcall₁ : ω₁.call = ω.call := h₁.call
    have hpolicy₁ : ∀ p, policy = some p → (p = namePolicy ∧ ω₁.guard = true) ∨ Carries state ω₁ p := by
      intro p hp
      rcases hpolicy p hp with rfl | hcarries
      · exact .inl ⟨rfl, hguard rfl _ hp rfl⟩
      · refine .inr ⟨hcarries.policy, by rw [h₁.writes]; exact hcarries.writes, ?_⟩
        exact fun c hc => hcarries.key c (hwrites _ c hcarries.writes hc)
    apply wp_seq (wp_claimNameLocked fuel hω₁ (hcall₁.trans hcall) hname hpolicy₁)
    rintro done ω₂ ⟨hcall₂, hclaimed⟩
    refine wp_does_bind trivial ?_
    intro _ ω₃ h₃
    refine ⟨h₃.call.trans (hcall₂.trans hcall₁), ?_⟩
    intro hdone name' hp hname'
    cases hname.symm.trans hname'
    rw [h₃.deeds]
    exact hclaimed hdone hp

theorem wp_allocateLocked (hω : ω.Idle)
    (hcall : ω.call = some (me, .allocateLoopbackIp state)) (hpolicy : ∀ p, policy = some p → p = loopbackPolicy)
    (hguard : ∀ p, policy = some p → ω.guard = true) (hwrites : ∀ p, policy = some p → ω.writes state.vmId = true) :
    wp (contract policy) (allocateLocked fuel state) (fun done ω' => ω'.call = ω.call ∧
      (done = true → ∀ p, policy = some p → ∃ key, .claimed state.vmId ⟨me, key⟩ ∈ ω'.deeds)) ω := by
  apply wp_seq (wp_cleanupStaleState fuel hω)
  intro _ ω₁ h₁
  -- the addresses that are taken are those of the claims
  have hused (addresses : Option (List VmState) → Program (List String)) (hnone : addresses none = pure [])
      (hsome : ∀ vms, addresses (some vms) = pure (vms.filterMap VmState.loopbackIp)) :
      wp (contract policy) (do addresses (← listVms .allocation)) (fun used ω' => ω₁.Same ω' ∧
        ∀ p vm c, policy = some p → ω'.view.claims vm = some c → c.key ∈ used) ω₁ := by
    apply wp_seq (wp_listVms .allocation)
    rintro r ω₂ ⟨h₂, hfail, hchecked⟩
    cases r with
    | none =>
      rw [hnone]
      refine ⟨h₂, ?_⟩
      intro p vm c hp
      exact absurd rfl (hfail rfl p hp (by rw [hpolicy p hp]; rfl))
    | some vms =>
      rw [hsome]
      refine ⟨h₂, ?_⟩
      intro p vm c hp hc
      have hchecked := hchecked vms p rfl hp (h₁.guard.trans (hguard p hp))
      obtain ⟨st, hst, rfl⟩ := hchecked.covers (by rw [hpolicy p hp]; rfl) vm c hc
      have hkey := (hchecked.facts _ c hc st hst rfl).key
      rw [hpolicy p hp] at hkey
      exact mem_filterMap.mpr ⟨st, hst, hkey⟩
  apply wp_seq (hused _ rfl fun _ => rfl)
  rintro used ω₂ ⟨h₂, hmem⟩
  have h₁₂ := h₁.trans h₂
  split
  · exact ⟨h₁₂.call, (by rintro ⟨⟩)⟩
  · next ip hip =>
    have hnot : ip ∉ used := by simpa using find?_some hip
    have hfresh : ∀ p, policy = some p → ω₂.Fresh p state.vmId ip := by
      intro p hp
      refine ⟨h₁₂.guard.trans (hguard p hp), fun _ => ?_, ?_⟩
      · rw [h₁₂.writes]
        exact hwrites p hp
      · intro vm' c _ hc hkey
        exact hnot (hkey ▸ hmem p vm' c hp hc)
    refine wp_mono (wp_saveState fuel _ (h₁₂.idle hω) (fun p hp _ => h₁₂.guard.trans (hguard p hp)) ?_) ?_
    · intro ω' f start hk _ _
      have hcall' : ω'.call = some (me, .allocateLoopbackIp state) := hk.call.trans (h₁₂.call.trans hcall)
      constructor
      · intro me' vm' mutate hupdate
        cases hcall'.symm.trans hupdate
      · intro p hp
        cases hpolicy p hp
        rw [hcall']
        refine ⟨_, rfl, rfl, ?_, fun hclaims => absurd rfl hclaims⟩
        intro _
        exact ⟨me, _, ip, rfl, ⟨rfl, nofun⟩, (hfresh _ hp).keeps hk⟩
    · rintro done ω' ⟨hcall', hclaimed⟩
      refine ⟨hcall'.trans h₁₂.call, ?_⟩
      intro hdone p hp
      obtain ⟨start, hclaimed⟩ := hclaimed hdone
      cases hpolicy p hp
      exact ⟨ip, hclaimed _ me _ ip hp (h₁₂.call.trans hcall) rfl rfl⟩

theorem wp_allocateLoopbackIp (hω : ω.Idle)
    (hcall : ω.call = some (me, .allocateLoopbackIp state)) (hpolicy : ∀ p, policy = some p → p = loopbackPolicy)
    (hwrites : ∀ p, policy = some p → ω.writes state.vmId = true) :
    wp (contract policy) (allocateLoopbackIp fuel state) (fun done ω' => ω'.call = ω.call ∧
      (done = true → ∀ p, policy = some p → ∃ key, .claimed state.vmId ⟨me, key⟩ ∈ ω'.deeds)) ω := by
  refine wp_does_bind trivial ?_
  rintro locked ω₁ ⟨h₁, -, hguard⟩
  cases locked
  case false => exact ⟨h₁.call, nofun⟩
  have hω₁ : ω₁.Idle := h₁.idle ⟨hω.held, hω.files⟩
  have hcall₁ : ω₁.call = ω.call := h₁.call
  have hwrites₁ : ω₁.writes = ω.writes := h₁.writes
  apply wp_seq (wp_allocateLocked fuel hω₁ (hcall₁.trans hcall) hpolicy
    (fun p hp => hguard rfl p hp (by rw [hpolicy p hp]; rfl)) fun p hp => by rw [hwrites₁]; exact hwrites p hp)
  rintro done ω₂ ⟨hcall₂, hclaimed⟩
  refine wp_does_bind trivial ?_
  intro _ ω₃ h₃
  refine ⟨h₃.call.trans (hcall₂.trans hcall₁), ?_⟩
  rw [h₃.deeds]
  exact hclaimed

variable (policy) in
def Admitted : Call → Own → Prop
  | .saveState state, ω => ∀ p, policy = some p → Carries state ω p
  | .updateState _ mutate, _ => ∀ p, policy = some p → p.Kept mutate
  | .claimName state, ω => ∀ p, policy = some p → p = namePolicy ∨ Carries state ω p
  | .allocateLoopbackIp state, ω => ∀ p, policy = some p → p = loopbackPolicy ∧ ω.writes state.vmId = true
  | _, _ => True

theorem wp_callBody {call : Call} (hω : ω.Idle) (hcall : ω.call = some (me, call))
    (hadmitted : Admitted policy call ω) :
    wp (contract policy) (callBody fuel me call) (fun outcome ω' => outcome = .ok → Finished policy ω') ω := by
  -- of the other calls nothing is asked
  have hother {ω' : Own} (hcall' : ω'.call = ω.call) (hupdate : ∀ vm mutate, call ≠ .updateState vm mutate)
      (hname : ∀ st, call ≠ .claimName st) (haddress : ∀ st, call ≠ .allocateLoopbackIp st) : Finished policy ω' := by
    refine ⟨?_, ?_, ?_⟩
    · intro me' vm mutate h
      rw [hcall', hcall] at h
      cases h
      exact absurd rfl (hupdate vm mutate)
    · intro p me' st name _ _ h
      rw [hcall', hcall] at h
      cases h
      exact absurd rfl (hname st)
    · intro p me' st _ _ h
      rw [hcall', hcall] at h
      cases h
      exact absurd rfl (haddress st)
  cases call with
  | saveState state =>
    refine wp_seq (wp_saveState fuel state hω ?_ ?_) ?_
    · intro p hp hlive
      rw [(hadmitted p hp).policy] at hlive
      cases hlive
    · intro ω' f start hk hclaim _
      have hcall' := hk.call.trans hcall
      constructor
      · intro me' vm' mutate hupdate
        cases hcall'.symm.trans hupdate
      · intro p hp
        have hcarries := hadmitted p hp
        refine ⟨_, rfl, rfl, ?_, ?_⟩
        · rw [hcall']
          rintro ⟨⟩
        · intro _ c hc
          exact hcarries.matches (hclaim p c hp (by rw [hcarries.policy]; rfl) hcarries.writes hc) rfl
    · exact fun _ ω' h' _ => hother h'.1 nofun nofun nofun
  | updateState vm mutate =>
    refine wp_mono (wp_updateState fuel hω hcall hadmitted) ?_
    rintro outcome ω' ⟨hcall', hrenamed⟩ hdone
    refine ⟨?_, ?_, ?_⟩
    · intro me' vm' mutate' h
      rw [hcall', hcall] at h
      cases h
      exact hrenamed hdone
    · intro p me' st name _ _ h
      simp [hcall', hcall] at h
    · intro p me' st _ _ h
      simp [hcall', hcall] at h
  | deleteState vm =>
    apply wp_seq (wp_deleteState fuel hω fun p _ _ => .inl ⟨me, hcall⟩)
    intro _ ω' h' _
    exact hother h'.call nofun nofun nofun
  | cleanupStaleState =>
    apply wp_seq (wp_cleanupStaleState fuel hω)
    intro _ ω' h' _
    exact hother h'.call nofun nofun nofun
  | withLockedState vm =>
    refine wp_mono (wp_withLockedState fuel) ?_
    intro _ ω' h' _
    exact hother h' nofun nofun nofun
  | claimName state =>
    apply wp_seq (wp_claimName fuel hω hcall hadmitted)
    rintro done ω' ⟨hcall', hclaimed⟩ hdone
    refine ⟨?_, ?_, ?_⟩
    · intro me' vm mutate h
      simp [hcall', hcall] at h
    · intro p me' st name hp hguard h hname
      rw [hcall', hcall] at h
      cases h
      rcases hadmitted p hp with rfl | ⟨rfl, -⟩
      · exact hclaimed (Outcome.of_eq_ok.mp hdone) name hp hname
      · cases hguard
    · intro p me' st _ _ h
      simp [hcall', hcall] at h
  | allocateLoopbackIp state =>
    apply wp_seq (wp_allocateLoopbackIp fuel hω hcall (fun p hp => (hadmitted p hp).1)
      fun p hp => (hadmitted p hp).2)
    rintro done ω' ⟨hcall', hclaimed⟩ hdone
    refine ⟨?_, ?_, ?_⟩
    · intro me' vm mutate h
      simp [hcall', hcall] at h
    · intro p me' st name _ _ h
      simp [hcall', hcall] at h
    · intro p me' st hp _ h
      rw [hcall', hcall] at h
      cases h
      exact hclaimed (Outcome.of_eq_ok.mp hdone) p hp

theorem wp_callProgram {call : Call} (hω : ω.Idle) (hcall : ω.call = some (me, call))
    (hadmitted : Admitted policy call ω) :
    wp (contract policy) (callProgram fuel me call) (fun _ _ => True) ω := by
  apply wp_seq (wp_callBody fuel hω hcall hadmitted)
  intro outcome ω' hfinished
  exact wp_does hfinished fun _ _ _ => trivial

end Fcvm.StateDir
