import Fcvm.StateDir.Contract

namespace Fcvm.StateDir

open Library Prog List Function

variable {policy : Option Policy} {α β : Type} {ω : Own} {vm : VmId}

variable {ω' : Own} {inode : ℕ}

theorem wp_does {o : Op} {Q : Res o → Own → Prop} (hpre : pre policy o ω)
    (h : ∀ r ω', post policy o ω r ω' → Q r ω') : wp (contract policy) (does o) Q ω := ⟨hpre, h⟩

theorem wp_does_bind {o : Op} {f : Res o → Program β} {Q : β → Own → Prop} (hpre : pre policy o ω)
    (h : ∀ r ω', post policy o ω r ω' → wp (contract policy) (f r) Q ω') :
    wp (contract policy) (does o >>= f) Q ω := wp_perform hpre h

namespace Own

structure Idle (ω : Own) : Prop where
  held : ω.held = fun _ => false
  files : ω.files = fun _ => none

theorem Same.idle {ω : Own} (h : ω.Same ω') (hω : ω.Idle) : ω'.Idle :=
  ⟨h.held.trans hω.held, h.files.trans hω.files⟩

structure Inside (inode : ℕ) (vm : VmId) (f : Files) (ω : Own) : Prop where
  held : ω.held = Function.update (fun _ => false) inode true
  files : ω.files = Function.update (fun _ => none) vm (some f)

theorem Inside.self {ω : Own} {f : Files} (h : ω.Inside inode vm f) : ω.files vm = some f := by
  rw [h.files, update_self]

theorem Same.inside {ω : Own} {f : Files} (h : ω.Same ω') (hω : ω.Inside inode vm f) :
    ω'.Inside inode vm f := ⟨h.held.trans hω.held, h.files.trans hω.files⟩

theorem Puts.inside {ω : Own} {f f' : Files} (h : ω.Puts vm (some f') ω') (hω : ω.Inside inode vm f) :
    ω'.Inside inode vm f' := by
  refine ⟨h.held.trans hω.held, ?_⟩
  rw [h.files, hω.files, update_idem]

end Own

theorem MayDelete.keeps (h : MayDelete policy vm ω) (hk : ω.Keeps ω') : MayDelete policy vm ω' := by
  intro p hp hlive
  rw [hk.call, hk.guard]
  rcases h p hp hlive with hcall | ⟨hguard, hnone⟩
  · exact .inl hcall
  · refine .inr ⟨hguard, ?_⟩
    cases hc : ω'.view.claims vm with
    | none => rfl
    | some c =>
      simp [hk.claims vm c (.inl hguard) hc] at hnone

theorem Own.Fresh.keeps {p : Policy} {key : String} (h : ω.Fresh p vm key) (hk : ω.Keeps ω') :
    ω'.Fresh p vm key := by
  refine ⟨hk.guard.trans h.guard, ?_, ?_⟩
  · rw [hk.writes]
    exact h.writes
  · exact fun vm' c hne hc => h.fresh vm' c hne (hk.claims vm' c (.inl h.guard) hc)

variable (policy) in
def Locked (vm : VmId) (ω : Own) : LockResult → Own → Prop
  | .held inode, ω' => ω.Keeps ω' ∧
    ∃ f, ω'.Inside inode vm f ∧ ∀ p, policy = some p → p.live = false → f.claim = ω'.view.claims vm
  | _, ω' => ω.Same ω'

theorem wp_acquire (inode : ℕ) (nonblocking : Bool) :
    wp (contract policy) (acquire inode .exclusive nonblocking) (fun r ω' => match r with
      | .acquired => ω.Keeps ω' ∧ ω'.held = update ω.held inode true ∧ ω'.files = ω.files
      | _ => ω.Same ω') ω := by
  refine wp_does_bind trivial ?_
  intro r ω₁ h₁
  cases r with
  | acquired => exact h₁
  | failed => exact h₁
  | wouldBlock =>
    dsimp only
    split
    · exact h₁
    · refine wp_does_bind trivial ?_
      intro r ω₂ h₂
      cases r with
      | true =>
        obtain ⟨hk, hheld, hfiles⟩ := h₂
        refine ⟨Own.Keeps.trans h₁.toKeeps hk, ?_, hfiles.trans h₁.files⟩
        rw [hheld, h₁.held]
      | false => exact Own.Same.trans h₁ h₂

theorem wp_acquire_shared (inode : ℕ) (nonblocking : Bool) :
    wp (contract policy) (acquire inode .shared nonblocking) (fun _ ω' => ω.Same ω') ω := by
  refine wp_does_bind trivial ?_
  intro r ω₁ h₁
  cases r with
  | acquired => exact h₁
  | failed => exact h₁
  | wouldBlock =>
    dsimp only
    split
    · exact h₁
    · refine wp_does_bind trivial ?_
      intro r ω₂ h₂
      cases r <;> exact Own.Same.trans h₁ h₂

theorem Locked.trans {ω'' : Own} {r : LockResult} (h : ω.Same ω') (h' : Locked policy vm ω' r ω'') :
    Locked policy vm ω r ω'' := by
  cases r with
  | held inode => exact ⟨h.toKeeps.trans h'.1, h'.2⟩
  | wouldBlock => exact h.trans h'
  | failed => exact h.trans h'

theorem Own.Idle.same_of_release {ω₁ ω₂ : Own} (hω : ω.Idle) (hk : ω.Keeps ω₁)
    (hheld : ω₁.held = update (fun _ => false) inode true)
    (h : ω₁.Keeps ω₂ ∧ ω₂.held = update ω₁.held inode false ∧ ω₂.files = fun _ => none) : ω.Same ω₂ := by
  refine ⟨hk.trans h.1, ?_, h.2.2.trans hω.files.symm⟩
  rw [h.2.1, hheld, update_idem, hω.held]
  exact update_eq_self _ _

theorem wp_lockOpenedStateFile (nonblocking : Bool) (fuel inode : ℕ) (hω : ω.Idle) :
    wp (contract policy) (lockOpenedStateFile vm .exclusive nonblocking fuel inode) (Locked policy vm ω) ω := by
  induction fuel generalizing inode ω with
  | zero => trivial
  | succ fuel ih =>
    apply wp_seq (wp_acquire inode nonblocking)
    intro r ω₁ h₁
    cases r with
    | wouldBlock => exact h₁
    | failed => exact h₁
    | acquired =>
      obtain ⟨hk₁, hheld₁, hfiles₁⟩ := h₁
      rw [hω.held] at hheld₁
      rw [hω.files] at hfiles₁
      have hown : ω₁.held inode = true := by rw [hheld₁, update_self]
      refine wp_does_bind trivial ?_
      intro r ω₂ h₂
      -- what is dropped unless the inode is the one at the path
      have hdrop (h₂ : ω₁.Same ω₂) {ω₃ : Own}
          (h₃ : ω₂.Keeps ω₃ ∧ ω₃.held = update ω₂.held inode false ∧ ω₃.files = fun _ => none) :
          ω.Same ω₃ := hω.same_of_release (hk₁.trans h₂.toKeeps) (h₂.held.trans hheld₁) h₃
      have hretry (h₂ : ω₁.Same ω₂) (again : Option ℕ → Program LockResult) (hfailed : again none = pure .failed)
          (hagain : ∀ i, again (some i) = lockOpenedStateFile vm .exclusive nonblocking fuel i) :
          wp (contract policy) (do
            does (.unflock inode)
            again (← does (.createLock vm))) (Locked policy vm ω) ω₂ := by
        refine wp_does_bind trivial ?_
        intro _ ω₃ h₃
        refine wp_does_bind trivial ?_
        intro r ω₄ h₄
        have hsame : ω.Same ω₄ := (hdrop h₂ h₃).trans h₄
        cases r with
        | none =>
          rw [hfailed]
          exact hsame
        | some reopened =>
          rw [hagain]
          exact wp_mono (ih reopened (hsame.idle hω)) fun r ω' h => Locked.trans hsame h
      cases r with
      | none =>
        refine wp_does_bind trivial ?_
        intro _ ω₃ h₃
        exact hdrop h₂ h₃
      | some identity =>
        cases identity with
        | other => exact hretry h₂ _ rfl fun _ => rfl
        | missing => exact hretry h₂ _ rfl fun _ => rfl
        | same =>
          simp only [post, hown, if_true] at h₂
          obtain ⟨f, hputs, hclaim⟩ := h₂
          refine ⟨hk₁.trans hputs.toKeeps, f, ⟨hputs.held.trans hheld₁, ?_⟩, hclaim⟩
          rw [hputs.files, hfiles₁]

theorem wp_lockStateFile (fuel : ℕ) (nonblocking : Bool) (hω : ω.Idle) :
    wp (contract policy) (lockStateFile fuel vm .exclusive nonblocking) (Locked policy vm ω) ω := by
  refine wp_does_bind trivial ?_
  intro r ω₁ h₁
  cases r with
  | none => exact h₁
  | some inode =>
    exact wp_mono (wp_lockOpenedStateFile nonblocking fuel inode (Own.Same.idle h₁ hω)) fun r ω' h => Locked.trans h₁ h

theorem wp_lockExistingStateFile (fuel : ℕ) :
    wp (contract policy) (lockExistingStateFile vm .shared fuel) (fun _ ω' => ω.Keeps ω') ω := by
  induction fuel generalizing ω with
  | zero => trivial
  | succ fuel ih =>
    refine wp_does_bind trivial ?_
    intro r ω₁ h₁
    obtain _ | found := r
    · exact h₁.toKeeps
    obtain _ | inode := found
    · exact h₁.toKeeps
    apply wp_seq (wp_acquire_shared inode false)
    intro r ω₂ h₂
    have hk₂ : ω.Keeps ω₂ := h₁.toKeeps.trans h₂.toKeeps
    cases r with
    | wouldBlock => exact hk₂
    | failed => exact hk₂
    | acquired =>
      refine wp_does_bind trivial ?_
      intro r ω₃ h₃
      have hk₃ : ω.Keeps ω₃ := by
        apply hk₂.trans
        obtain _ | identity := r
        · exact h₃.toKeeps
        cases identity with
        | same =>
          simp only [post] at h₃
          split at h₃
          · obtain ⟨f, hputs, -⟩ := h₃
            exact hputs.toKeeps
          · exact h₃.toKeeps
        | other => exact h₃.toKeeps
        | missing => exact h₃.toKeeps
      cases r with
      | none =>
        refine wp_does_bind trivial ?_
        intro _ ω₄ h₄
        exact hk₃.trans h₄.1
      | some identity =>
        cases identity with
        | same => exact hk₃
        | missing =>
          refine wp_does_bind trivial ?_
          intro _ ω₄ h₄
          exact hk₃.trans h₄.1
        | other =>
          refine wp_does_bind trivial ?_
          intro _ ω₄ h₄
          exact wp_mono ih fun _ ω' h => (hk₃.trans h₄.1).trans h

theorem wp_removeFiles {f : Files} (hin : ω.Inside inode vm f)
    (hmay : MayDelete policy vm ω ∨ ∀ c, f.claim = some c → ω.view.dead c.owner = true) :
    wp (contract policy) (removeFiles vm) (fun _ ω' => ω.Keeps ω' ∧ ω'.held = ω.held) ω := by
  refine wp_does_bind ⟨f, hin.self, hmay⟩ ?_
  intro r ω₁ h₁
  cases r
  case false => exact ⟨h₁.toKeeps, h₁.held⟩
  obtain ⟨f', hf', hputs₁⟩ := h₁
  cases hin.self.symm.trans hf'
  have hin₁ := hputs₁.inside hin
  refine wp_does_bind ⟨_, hin₁.self⟩ ?_
  intro r ω₂ h₂
  cases r
  case false => exact ⟨hputs₁.toKeeps.trans h₂.toKeeps, h₂.held.trans hputs₁.held⟩
  obtain ⟨f', hf', hputs₂⟩ := h₂
  cases hin₁.self.symm.trans hf'
  have hin₂ := hputs₂.inside hin₁
  have hk₂ := hputs₁.toKeeps.trans hputs₂.toKeeps
  refine wp_does ⟨_, hin₂.self, rfl⟩ ?_
  intro r ω₃ h₃
  cases r with
  | false | true => exact ⟨hk₂.trans h₃.toKeeps, h₃.held.trans (hputs₂.held.trans hputs₁.held)⟩

theorem wp_deleteState (fuel : ℕ) (hω : ω.Idle) (hmay : MayDelete policy vm ω) :
    wp (contract policy) (deleteState fuel vm) (fun _ ω' => ω.Same ω') ω := by
  apply wp_seq (wp_lockStateFile fuel false hω)
  intro r ω₁ h₁
  cases r with
  | wouldBlock => exact h₁
  | failed => exact h₁
  | held inode =>
    obtain ⟨hk₁, f, hin, -⟩ := h₁
    apply wp_seq (wp_removeFiles hin (.inl (hmay.keeps hk₁)))
    rintro done ω₂ ⟨hk₂, hheld⟩
    refine wp_does_bind trivial ?_
    intro _ ω₃ h₃
    exact hω.same_of_release (hk₁.trans hk₂) (hheld.trans hin.held) h₃

theorem wp_ownerIsLive (st : VmState) :
    wp (contract policy) (ownerIsLive st) (fun live ω' => ω.Same ω' ∧
      (live = false → ∀ p vm c, policy = some p → p.live = true → ω'.view.claims vm = some c → ¬ st.OwnedBy c)) ω := by
  unfold ownerIsLive
  cases hpid : st.pid with
  | none =>
    refine ⟨.refl ω, ?_⟩
    rintro - p vm c - - - ⟨howned, -⟩
    cases hpid.symm.trans howned
  | some pid =>
    refine wp_does_bind trivial ?_
    rintro r ω₁ ⟨hsame, hlive⟩
    -- the owner's process is what is at its PID
    have howner {p : Policy} {vm : VmId} {c : Claimant} (hp : policy = some p) (hpl : p.live = true)
        (hc : ω₁.view.claims vm = some c) (howned : st.OwnedBy c) :
        r = some ⟨c.owner.2, false⟩ ∧ ∀ start, st.pidStartTime = some start → start = c.owner.2 := by
      refine ⟨hlive p vm c hp hpl hc ?_, howned.2⟩
      have hown := howned.1
      rw [hpid] at hown
      exact (Option.some.inj hown).symm
    cases r with
    | none =>
      refine ⟨hsame, ?_⟩
      intro _ p vm c hp hpl hc howned
      cases (howner hp hpl hc howned).1
    | some proc =>
      dsimp only
      split
      · next hz =>
        refine ⟨hsame, ?_⟩
        intro _ p vm c hp hpl hc howned
        have hproc := (howner hp hpl hc howned).1
        cases hproc
        cases hz
      · split
        · next recorded hrec =>
          refine ⟨hsame, ?_⟩
          intro hne p vm c hp hpl hc howned
          obtain ⟨hproc, hstart⟩ := howner hp hpl hc howned
          cases hproc
          simp [hstart recorded hrec] at hne
        · exact ⟨hsame, nofun⟩

structure Listed (p : Policy) (vms : List VmState) (ω : Own) : Prop where
  facts : ∀ vm c, ω.view.claims vm = some c → ∀ st ∈ vms, st.vmId = vm → p.Matches st c

theorem Listed.keeps {p : Policy} {vms : List VmState} (h : Listed p vms ω) (hguard : ω.guard = true)
    (hk : ω.Keeps ω') : Listed p vms ω' :=
  ⟨fun vm c hc => h.facts vm c (hk.claims vm c (.inl hguard) hc)⟩

variable (policy) in
def ReadOf (purpose : Purpose) (ids : List VmId) (vms : List VmState) (ω : Own) : Prop :=
  ∀ p, policy = some p → Listed p vms ω ∧
    (purpose = p.guard.purpose → ∀ vm c, ω.view.claims vm = some c → vm ∈ ids → ∃ st ∈ vms, st.vmId = vm)

theorem wp_readStates (purpose : Purpose) (ids : List VmId) :
    wp (contract policy) (readStates purpose ids) (fun vms ω' => ω.Same ω' ∧
      (ω.guard = true → ReadOf policy purpose ids vms ω')) ω := by
  induction ids generalizing ω with
  | nil =>
    refine ⟨.refl ω, ?_⟩
    intro _ p _
    refine ⟨⟨nofun⟩, nofun⟩
  | cons vm ids ih =>
    refine wp_does_bind trivial ?_
    rintro r ω₁ ⟨hsame₁, -, hclaims⟩
    -- a VM without a state, or whose state cannot be read, is left out
    have hskip (hr : ∀ p c, policy = some p → purpose = p.guard.purpose → ω₁.view.claims vm ≠ some c) :
        wp (contract policy) (readStates purpose ids) (fun vms ω' => ω.Same ω' ∧
          (ω.guard = true → ReadOf policy purpose (vm :: ids) vms ω')) ω₁ := by
      refine wp_mono ih ?_
      rintro vms ω₂ ⟨hsame₂, hread⟩
      refine ⟨hsame₁.trans hsame₂, ?_⟩
      intro hguard p hp
      have hguard₁ : ω₁.guard = true := hsame₁.guard.trans hguard
      obtain ⟨hlisted, hcover⟩ := hread hguard₁ p hp
      refine ⟨hlisted, ?_⟩
      intro hpurpose vm' c hc hmem
      rcases mem_cons.mp hmem with rfl | hmem
      · exact absurd (hsame₂.claims vm' c (.inl hguard₁) hc) (hr p c hp hpurpose)
      · exact hcover hpurpose vm' c hc hmem
    cases r with
    | missing =>
      apply hskip
      intro p c hp _ hc
      exact (hclaims p hp).2 c hc
    | unreadable =>
      apply hskip
      intro p c hp hpurpose hc
      exact (hclaims p hp).2 c hc (congrArg some hpurpose)
    | state state =>
      apply wp_seq ih
      rintro vms ω₂ ⟨hsame₂, hread⟩
      refine ⟨hsame₁.trans hsame₂, ?_⟩
      intro hguard p hp
      have hguard₁ : ω₁.guard = true := hsame₁.guard.trans hguard
      obtain ⟨hlisted, hcover⟩ := hread hguard₁ p hp
      obtain ⟨hid, hmatch⟩ := hclaims p hp
      refine ⟨⟨?_⟩, ?_⟩
      · intro vm' c hc st hst hvm'
        rcases mem_cons.mp hst with rfl | hst
        · have hvm : vm' = vm := by rw [← hvm', hid st rfl]
          subst hvm
          exact hmatch c (hsame₂.claims vm' c (.inl hguard₁) hc)
        · exact hlisted.facts vm' c hc st hst hvm'
      · intro hpurpose vm' c hc hmem
        rcases mem_cons.mp hmem with rfl | hmem
        · exact ⟨state, mem_cons_self, hid state rfl⟩
        · obtain ⟨st, hst, hvm'⟩ := hcover hpurpose vm' c hc hmem
          exact ⟨st, mem_cons_of_mem _ hst, hvm'⟩

theorem mem_vmIds {entries : List DirEntry} (h : DirEntry.lock vm ∈ entries) : vm ∈ vmIds entries := by
  unfold vmIds
  rw [mem_insertionSort, mem_dedup]
  exact mem_filterMap.mpr ⟨_, h, rfl⟩

structure Checked (p : Policy) (purpose : Purpose) (vms : List VmState) (ω : Own) : Prop extends Listed p vms ω where
  covers : purpose = p.guard.purpose → ∀ vm c, ω.view.claims vm = some c → ∃ st ∈ vms, st.vmId = vm

theorem wp_listVms (purpose : Purpose) :
    wp (contract policy) (listVms purpose) (fun r ω' => ω.Same ω' ∧ (r = none → MayFail policy purpose) ∧
      ∀ vms p, r = some vms → policy = some p → ω.guard = true → Checked p purpose vms ω') ω := by
  refine wp_does_bind trivial ?_
  rintro found ω₀ ⟨hsame₀, hfound⟩
  cases found with
  | false =>
    refine ⟨hsame₀, nofun, ?_⟩
    rintro vms p ⟨⟩ hp -
    exact ⟨⟨nofun⟩, fun hpurpose => absurd hpurpose (hfound rfl p hp)⟩
  | true =>
    refine wp_does_bind trivial ?_
    rintro opened ω₁ ⟨hopened, hfail₁⟩
    have hsame₁ := hsame₀.trans hopened
    cases opened
    case false => exact ⟨hsame₁, fun _ => hfail₁ rfl, nofun⟩
    refine wp_does_bind trivial ?_
    rintro r ω₂ ⟨hsame₂, hfail₂, hlocks⟩
    obtain _ | entries := r
    · exact ⟨hsame₁.trans hsame₂, fun _ => hfail₂ rfl, nofun⟩
    apply wp_seq (wp_readStates purpose (vmIds entries))
    rintro vms ω₃ ⟨hsame₃, hread⟩
    refine ⟨(hsame₁.trans hsame₂).trans hsame₃, nofun, ?_⟩
    intro vms' p hvms hp hguard
    cases hvms
    have hguard₁ : ω₁.guard = true := hsame₁.guard.trans hguard
    have hguard₂ : ω₂.guard = true := hsame₂.guard.trans hguard₁
    obtain ⟨hlisted, hcover⟩ := hread hguard₂ p hp
    refine ⟨hlisted, ?_⟩
    intro hpurpose vm c hc
    apply hcover hpurpose vm c hc
    exact mem_vmIds (hlocks entries rfl hguard₁ vm c (hsame₃.claims vm c (.inl hguard₂) hc))

end Fcvm.StateDir
