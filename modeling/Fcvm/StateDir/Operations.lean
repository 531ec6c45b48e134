import Fcvm.StateDir.Steps

namespace Fcvm.StateDir

open Library List Function

variable {s₀ s s' : Dir} {policy : Option Policy} {t : ℕ} {vm : VmId}

variable {f : Files} {i pid u : ℕ} {mode : Mode} {step : Payload}

structure Moves (s₀ : Dir) (policy : Option Policy) (t : ℕ) (s s' : Dir) : Prop where
  core : Core s₀ policy s'
  seen : ∀ u, u ≠ t → SeenBy policy s' u
  others : ∀ u, u ≠ t → own policy u s' = own policy u s

structure Done (s₀ : Dir) (policy : Option Policy) (t : ℕ) (o : Op) (s : Dir) (r : Res o) (s' : Dir) : Prop
    extends Moves s₀ policy t s s' where
  meets : post policy o (own policy t s) r (own policy t (s'.snapshot policy t))

theorem own_guard {p : Policy} (h : (own (some p) t s).guard = true) : s.global p.guard = some t := by
  simpa [own] using h

theorem own_writes {p : Policy} (h : (own (some p) t s).writes vm = true) : p.live = false ∧ s.writer vm = some t := by
  simpa [own] using h

theorem own_files (h : (own policy t s).files vm = some f) : s.inside vm = some t ∧ s.files vm = f := by
  simp only [own] at h
  split at h
  · next hin => exact ⟨hin, Option.some.inj h⟩
  · cases h

theorem own_held : (own policy t s).held i = true ↔ s.exclusive i = some t := by
  simp [own]

theorem claims_policy {c : Claimant} (h : s.claims policy vm = some c) : ∃ p, policy = some p := by
  cases policy with
  | none => cases h
  | some p => exact ⟨p, rfl⟩

theorem filter_ne_eq {o : Option ℕ} (h : u ≠ t) : o.filter (· ≠ t) = some u ↔ o = some u := by
  rw [Option.filter_eq_some_iff]
  exact ⟨fun h' => h'.1, fun h' => ⟨h', decide_eq_true h⟩⟩

theorem filter_self (o : Option ℕ) : o.filter (· ≠ t) ≠ some t := by
  intro h
  exact absurd rfl (of_decide_eq_true (Option.filter_eq_some_iff.mp h).2)

theorem update_taken {K : Type} [DecidableEq K] {g : K → Option ℕ} {k : K} (hu : u ≠ t) (hk : g k ≠ some u)
    (k' : K) : update g k (some t) k' = some u ↔ g k' = some u := by
  rw [update_apply]
  split
  · next h =>
    subst h
    exact iff_of_false (fun e => hu (Option.some.inj e).symm) hk
  · exact Iff.rfl

theorem update_left {K : Type} [DecidableEq K] {g : K → Option ℕ} {k : K} (hu : u ≠ t) (k' : K) :
    update g k ((g k).filter (· ≠ t)) k' = some u ↔ g k' = some u := by
  rw [update_apply]
  split
  · next h =>
    subst h
    exact filter_ne_eq hu
  · exact Iff.rfl

theorem acquire_others (hfree : s.free i mode = true) (hu : u ≠ t) :
    own policy u (s.acquire t i mode) = own policy u s := by
  cases mode with
  | shared => rfl
  | exclusive =>
    simp only [Dir.free, Bool.and_eq_true, Option.isNone_iff_eq_none] at hfree
    apply own_eq <;> intros <;> try first | rfl | exact Iff.rfl
    apply update_taken hu
    rw [hfree.1]
    rintro ⟨⟩

theorem enter_files (vm : VmId) :
    (own policy t ((s.enter t vm).snapshot policy t)).files =
      update (own policy t s).files vm (some (s.files vm)) := by
  funext vm'
  simp only [own, Dir.snapshot, Dir.enter, update_apply]
  by_cases hvm : vm' = vm
  · rw [if_pos hvm, if_pos rfl, if_pos hvm, hvm]
    rfl
  · rw [if_neg hvm, if_neg hvm]
    rfl

theorem payload_files (hinside : s.inside vm = some t) :
    (own policy t ((s.payload t vm f step).snapshot policy t)).files =
      update (own policy t s).files vm (some f) := by
  funext vm'
  simp only [own, Dir.snapshot, Dir.payload, Dir.record, Dir.setFiles, update_apply]
  by_cases hvm : vm' = vm
  · rw [if_pos hvm, if_pos hvm, hvm, if_pos hinside]
  · rw [if_neg hvm, if_neg hvm]

theorem deedOf_payload_ne (h : u ≠ t) (call : Option Call) (step : Payload) :
    Entry.deedOf u (.payload t call vm step) = none := by
  cases step with
  | rename c => exact if_neg h.symm
  | _ => rfl

theorem deedOf_payload (h : ∀ c, step ≠ .rename c) (call : Option Call) :
    Entry.deedOf u (.payload t call vm step) = none := by
  cases step with
  | rename c => exact absurd rfl (h c)
  | _ => rfl

theorem Entry.deedOf_eq {e : Entry} {d : Deed} (h : e.deedOf t = some d) :
    (∃ vm c, e = .claimed t vm c ∧ d = .claimed vm c) ∨
      ∃ call vm c, e = .payload t call vm (.rename c) ∧ d = .renamed call vm := by
  unfold Entry.deedOf at h
  split at h
  · split at h
    · next hu =>
      cases h
      subst hu
      exact .inl ⟨_, _, rfl, rfl⟩
    · cases h
  · split at h
    · next hu =>
      cases h
      subst hu
      exact .inr ⟨_, _, _, rfl, rfl⟩
    · cases h
  · cases h

theorem mem_log_of_claimed {c : Claimant} (h : .claimed vm c ∈ (own policy t s).deeds) :
    .claimed t vm c ∈ s.log := by
  obtain ⟨e, he, hdeed⟩ := mem_filterMap.mp h
  obtain ⟨vm', c', rfl, heq⟩ | ⟨call, vm', c', -, heq⟩ := Entry.deedOf_eq hdeed
  · cases heq
    exact he
  · cases heq

theorem mem_log_of_renamed {call : Option Call} (h : .renamed call vm ∈ (own policy t s).deeds) :
    ∃ c, .payload t call vm (.rename c) ∈ s.log := by
  obtain ⟨e, he, hdeed⟩ := mem_filterMap.mp h
  obtain ⟨vm', c', -, heq⟩ | ⟨call', vm', c', rfl, heq⟩ := Entry.deedOf_eq hdeed
  · cases heq
  · cases heq
    exact ⟨c', he⟩

theorem Dir.dead_of {c : Claimant} (hs : Core s₀ policy s) (hclaim : (s.files vm).claim = some c)
    (h : (s.procs c.owner.1).map Proc.start ≠ some c.owner.2) : s.dead c.owner = true := by
  unfold Dir.dead
  rw [Bool.and_eq_true, contains_iff_mem]
  refine ⟨hs.claimPast vm c hclaim, ?_⟩
  cases halive : s.alive c.owner with
  | false => rfl
  | true =>
    rw [Dir.alive_eq halive] at h
    exact absurd rfl h

variable (hs : Inv s₀ policy s)
include hs

theorem claims_of_writes (hclaims : s'.claims policy = s.claims policy) (vm : VmId) (c : Claimant)
    (hw : (own policy t s).writes vm = true) (hc : (own policy t (s'.snapshot policy t)).view.claims vm = some c) :
    (own policy t s).view.claims vm = some c := by
  simp only [own, Dir.snapshot, update_self, hclaims] at hc
  obtain ⟨p, rfl⟩ := claims_policy hc
  exact (hs.seen t).guarded p vm c rfl (.inr (own_writes hw)) hc

theorem keeps_snapshot (hcalls : s'.calls t = s.calls t) (hglobal : s'.global = s.global)
    (hwriter : s'.writer = s.writer)
    (hlog : s'.log.filterMap (Entry.deedOf t) = s.log.filterMap (Entry.deedOf t))
    (hdead : ∀ id, s.dead id = true → s'.dead id = true)
    (hclaims : ∀ vm c, s'.claims policy vm = some c → s.claims policy vm = some c) :
    (own policy t s).Keeps (own policy t (s'.snapshot policy t)) where
  call := hcalls
  guard := by
    change policy.any (fun p => decide (s'.global p.guard = some t)) = _
    rw [hglobal]
    rfl
  writes := by
    change (fun vm => policy.any fun p => !p.live && decide (s'.writer vm = some t)) = _
    rw [hwriter]
    rfl
  deeds := hlog
  claims vm c hg hc := by
    have hc' : s'.claims policy vm = some c := by
      simp only [own, Dir.snapshot, update_self] at hc
      exact hc
    obtain ⟨p, rfl⟩ := claims_policy hc'
    exact (hs.seen t).guarded p vm c rfl (hg.imp own_guard own_writes) (hclaims vm c hc')
  dead id hid := by
    simp only [own, Dir.snapshot, update_self]
    exact hdead id ((hs.seen t).dead id hid)

theorem keeps_of_same (hcalls : s'.calls t = s.calls t) (hglobal : s'.global = s.global)
    (hwriter : s'.writer = s.writer)
    (hlog : s'.log.filterMap (Entry.deedOf t) = s.log.filterMap (Entry.deedOf t)) (hfiles : s'.files = s.files)
    (hprocs : s'.procs = s.procs) (hpast : s'.past = s.past) :
    (own policy t s).Keeps (own policy t (s'.snapshot policy t)) := by
  have halive : s'.alive = s.alive := by
    funext id
    unfold Dir.alive
    rw [hprocs]
  apply keeps_snapshot hs hcalls hglobal hwriter hlog
  · intro id hid
    unfold Dir.dead at *
    rw [halive, hpast]
    exact hid
  · intro vm c hc
    unfold Dir.claims Dir.counts at *
    rw [hfiles, halive] at hc
    exact hc

theorem Puts.keeps (h : Puts s vm f s')
    (hclaim : ∀ c, f.claim = some c → (s.files vm).claim = some c)
    (hlog : s'.log.filterMap (Entry.deedOf t) = s.log.filterMap (Entry.deedOf t)) :
    (own policy t s).Keeps (own policy t (s'.snapshot policy t)) := by
  apply keeps_snapshot hs (by rw [h.calls]) h.global h.writer hlog
  · intro id hid
    unfold Dir.dead at *
    rw [h.alive, h.past]
    exact hid
  · exact fun vm c hc => h.claims_mono hclaim hc

theorem same_snapshot : (own policy t s).Same (own policy t (s.snapshot policy t)) :=
  ⟨keeps_of_same hs rfl rfl rfl rfl rfl rfl rfl, rfl, rfl⟩

theorem Done.quiet {o : Op} {r : Res o}
    (hpost : post policy o (own policy t s) r (own policy t (s.snapshot policy t))) : Done s₀ policy t o s r s :=
  ⟨⟨hs.core, fun u _ => hs.seen u, fun _ _ => rfl⟩, hpost⟩

theorem Done.readJson {listed : Option Purpose} {r : ReadResult}
    (hr : match r with
      | .state st => (s.files vm).json = some (.whole st)
      | .missing => (s.files vm).json = none
      | .unreadable => (s.files vm).json = some .torn ∨ ∀ p, policy = some p → listed ≠ some p.guard.purpose) :
    Done s₀ policy t (.readJson vm listed) s r s := by
  apply Done.quiet hs
  refine ⟨same_snapshot hs, ?_, ?_⟩
  · intro f hf
    obtain ⟨-, rfl⟩ := own_files hf
    cases r with
    | unreadable => trivial
    | missing =>
      refine ⟨hr, ?_⟩
      intro hsome
      obtain ⟨p, hp⟩ := Option.isSome_iff_exists.mp hsome
      cases hcl : (s.files vm).claim with
      | none => rfl
      | some c =>
        obtain ⟨st, hst, -⟩ := (hs.core.claims p hp).json vm c hcl
        cases hr.symm.trans hst
    | state st =>
      refine ⟨hr, ?_⟩
      intro p c hp hcl
      obtain ⟨st', hst, hmatches⟩ := (hs.core.claims p hp).json vm c hcl
      cases hr.symm.trans hst
      exact hmatches
  · intro p hp
    have hc := hs.core.claims p hp
    constructor
    · rintro st rfl
      exact hc.vmId vm st hr
    · intro c hcl
      simp only [own, Dir.snapshot, update_self] at hcl
      rw [hp] at hcl
      obtain ⟨st', hst, hmatches⟩ := hc.json vm c (Dir.claims_eq hcl).1
      cases r with
      | unreadable =>
        rcases hr with htorn | hlisted
        · cases hst.symm.trans htorn
        · exact hlisted p hp
      | missing =>
        cases hr.symm.trans hst
      | state st =>
        cases hr.symm.trans hst
        exact hmatches

theorem Done.stat {r : Option Proc}
    (hr : r = s.procs pid ∨ ∀ p, policy = some p → p.live = false) : Done s₀ policy t (.stat pid) s r s := by
  apply Done.quiet hs
  refine ⟨same_snapshot hs, ?_⟩
  rintro p vm c rfl hlive hcl rfl
  rcases hr with rfl | hr
  case inr =>
    cases hlive.symm.trans (hr p rfl)
  simp only [own, Dir.snapshot, update_self] at hcl
  have hcount := (Dir.claims_eq hcl).2
  simp only [Dir.counts, hlive, Bool.not_true, Bool.false_or] at hcount
  exact Dir.alive_eq hcount

theorem Done.startTime :
    Done s₀ policy t (.startTime pid) s ((s.procs pid).map Proc.start) s := by
  apply Done.quiet hs
  refine ⟨same_snapshot hs, fun start hstart => ⟨?_, ?_⟩⟩
  · rintro me call hcall rfl
    rw [Dir.alive_eq (hs.core.callAlive t me call hcall)] at hstart
    exact (Option.some.inj hstart).symm
  · rintro vm f c hf hcl rfl hne
    obtain ⟨-, rfl⟩ := own_files hf
    simp only [own, Dir.snapshot, update_self]
    apply Dir.dead_of hs.core hcl
    rw [hstart]
    exact fun h => hne (Option.some.inj h)

theorem Done.procExists :
    Done s₀ policy t (.procExists pid) s (some (s.procs pid).isSome) s := by
  apply Done.quiet hs
  refine ⟨same_snapshot hs, ?_⟩
  rintro hnone vm f c hf hcl rfl
  obtain ⟨-, rfl⟩ := own_files hf
  simp only [own, Dir.snapshot, update_self]
  apply Dir.dead_of hs.core hcl
  have hgone : s.procs c.owner.1 = none := by
    rw [← Option.not_isSome_iff_eq_none]
    simpa using hnone
  rw [hgone]
  rintro ⟨⟩

theorem Done.newLock (hlock : (s.files vm).lock = none) :
    Done s₀ policy t (.createLock vm) s (some s.nextInode) (s.newLock vm) := by
  have hputs : Puts s vm _ (s.newLock vm) := Dir.newLock_puts
  have hnotin (u : ℕ) : s.inside vm ≠ some u := by
    intro hin
    obtain ⟨i, hi, -⟩ := hs.core.inside vm u hin
    cases hlock.symm.trans hi
  refine ⟨⟨hs.core.newLock hlock, ?_, ?_⟩, ?_⟩
  · exact fun u _ => hputs.seen (hs.seen u) fun _ _ _ _ h => h
  · exact fun u _ => hputs.own_eq (fun _ => Iff.rfl) (hnotin u) rfl
  · refine ⟨hputs.keeps hs (fun _ h => h) rfl, rfl, ?_⟩
    funext vm'
    simp only [own]
    split
    · next hin =>
      have hne : vm' ≠ vm := by
        rintro rfl
        exact hnotin t hin
      rw [if_pos (show s.inside vm' = some t from hin)]
      congr 1
      exact hputs.other hne
    · next hin => rw [if_neg (show ¬ s.inside vm' = some t from hin)]

theorem acquire_held :
    (own policy t s).Keeps (own policy t ((s.acquire t i .exclusive).snapshot policy t)) ∧
      (own policy t ((s.acquire t i .exclusive).snapshot policy t)).held =
        update (own policy t s).held i true ∧
      (own policy t ((s.acquire t i .exclusive).snapshot policy t)).files = (own policy t s).files := by
  refine ⟨keeps_of_same hs rfl rfl rfl rfl rfl rfl rfl, ?_, rfl⟩
  funext j
  simp only [own, Dir.snapshot, Dir.acquire, update_apply]
  split <;> simp

theorem acquire_seen : SeenBy policy (s.acquire t i mode) u := by
  cases mode <;> exact (hs.seen u).of_same rfl rfl rfl rfl (fun _ h => h) fun _ h => h

theorem Done.tryFlock (hfree : s.free i mode = true) :
    Done s₀ policy t (.tryFlock i mode) s .acquired (s.acquire t i mode) := by
  refine ⟨⟨hs.core.acquire hfree, fun u _ => acquire_seen hs, fun u hu => acquire_others hfree hu⟩, ?_⟩
  cases mode with
  | shared => exact ⟨keeps_of_same hs rfl rfl rfl rfl rfl rfl rfl, rfl, rfl⟩
  | exclusive => exact acquire_held hs

theorem Done.flock (hfree : s.free i mode = true) :
    Done s₀ policy t (.flock i mode) s true (s.acquire t i mode) := by
  refine ⟨⟨hs.core.acquire hfree, fun u _ => acquire_seen hs, fun u hu => acquire_others hfree hu⟩, ?_⟩
  cases mode with
  | shared => exact ⟨keeps_of_same hs rfl rfl rfl rfl rfl rfl rfl, rfl, rfl⟩
  | exclusive => exact acquire_held hs

theorem Done.unflock : Done s₀ policy t (.unflock i) s () (s.release t i) := by
  refine ⟨⟨hs.core.release i, ?_, ?_⟩, ?_⟩
  · exact fun u _ => (hs.seen u).of_same rfl rfl rfl rfl (fun _ h => h) fun _ h => h
  · intro u hu
    apply own_eq <;> intros <;> try first | rfl | exact Iff.rfl
    · exact update_left hu _
    · exact filter_ne_eq hu
  · refine ⟨keeps_of_same hs rfl rfl rfl rfl rfl rfl rfl, ?_, ?_⟩
    · funext j
      simp only [own, Dir.snapshot, Dir.release, update_apply]
      split
      · exact decide_eq_false (filter_self _)
      · rfl
    · funext vm
      simp only [own, Dir.snapshot, Dir.release]
      exact if_neg (filter_self _)

theorem Done.enter (hlock : (s.files vm).lock = some i)
    (hheld : s.exclusive i = some t) : Done s₀ policy t (.identify vm i) s (some .same) (s.enter t vm) := by
  refine ⟨⟨hs.core.enter hlock hheld, ?_, ?_⟩, ?_⟩
  · exact fun u _ => (hs.seen u).of_same rfl rfl rfl rfl (fun _ h => h) fun _ h => h
  · intro u hu
    apply own_eq <;> intros <;> try first | rfl | exact Iff.rfl
    apply update_taken hu
    intro h
    obtain ⟨j, hj, he⟩ := hs.core.inside vm u h
    cases hlock.symm.trans hj
    cases hheld.symm.trans he
    exact absurd rfl hu
  · have hown : (own policy t s).held i = true := own_held.mpr hheld
    simp only [StateDir.post, hown, if_true]
    refine ⟨s.files vm, ⟨keeps_of_same hs rfl rfl rfl rfl rfl rfl rfl, rfl, enter_files vm⟩, ?_⟩
    rintro p rfl hlive
    have hcounts : ∀ c, s.counts p c = true := by
      intro c
      simp [Dir.counts, hlive]
    simp only [own, Dir.snapshot, update_self]
    change (s.files vm).claim = (s.files vm).claim.filter (s.counts p)
    cases (s.files vm).claim with
    | none => rfl
    | some c => simp [Option.filter, hcounts]

theorem Done.retireLock (hinside : s.inside vm = some t) (hjson : (s.files vm).json = none) :
    Done s₀ policy t (.unlinkLock vm) s true (s.retireLock t vm) := by
  have hputs : Puts s vm _ (s.retireLock t vm) := Dir.retireLock_puts
  refine ⟨⟨hs.core.retireLock hinside hjson, ?_, ?_⟩, ?_⟩
  · exact fun u _ => hputs.seen (hs.seen u) fun _ _ _ _ h => h
  · intro u hu
    apply hputs.own_eq _ _ rfl
    · intro vm'
      constructor
      · exact fun h => (Dir.retireLock_inside hinside h).2
      · intro h
        simp only [Dir.retireLock, update_apply]
        split
        · next hvm =>
          rw [hvm, hinside] at h
          cases h
          exact absurd rfl hu
        · exact h
    · rw [hinside]
      exact fun h => hu (Option.some.inj h).symm
  · refine ⟨hputs.keeps hs (fun _ h => h) rfl, rfl, ?_⟩
    funext vm'
    simp only [own, Dir.snapshot, Dir.retireLock, Dir.setFiles, update_apply]
    by_cases hvm : vm' = vm
    · simp only [if_pos hvm]
      exact if_neg (filter_self _)
    · simp only [if_neg hvm]

theorem payload_done
    (hfiles : (own policy t s).files vm = some (s.files vm)) (hlock : f.lock = (s.files vm).lock)
    (hlegal : LegalPayload s₀ policy t (s.callOf t) vm step s.log)
    (hleft : leftBy s₀ (.payload t (s.callOf t) vm step :: s.log) vm = f.json)
    (hclaim : ∀ c, f.claim = some c → (s.files vm).claim = some c)
    (hjson : ∀ p c, policy = some p → f.claim = some c → ∃ st, f.json = some (.whole st) ∧ p.Matches st c)
    (hvmId : ∀ p st, policy = some p → f.json = some (.whole st) → st.vmId = vm) :
    Moves s₀ policy t s (s.payload t vm f step) ∧ ((∀ c, step ≠ .rename c) →
      (own policy t s).Puts vm (some f) (own policy t ((s.payload t vm f step).snapshot policy t))) := by
  obtain ⟨hinside, -⟩ := own_files hfiles
  have hputs : Puts s vm f (s.payload t vm f step) := Dir.payload_puts
  refine ⟨⟨hs.core.payload hlock hlegal hleft hclaim hjson hvmId, ?_, ?_⟩, ?_⟩
  · exact fun u _ => hputs.seen (hs.seen u) fun _ c _ _ h => hclaim c h
  · intro u hu
    apply hputs.own_eq (fun _ => Iff.rfl)
    · rw [hinside]
      exact fun h => hu (Option.some.inj h).symm
    · exact filterMap_cons_none (deedOf_payload_ne hu _ _)
  · intro hstep
    exact ⟨hputs.keeps hs hclaim (filterMap_cons_none (deedOf_payload hstep _)), rfl, payload_files hinside⟩

theorem payload_tmp (hfiles : (own policy t s).files vm = some (s.files vm)) (step : Payload) (tmp : Option Content)
    (hrename : ∀ c, step ≠ .rename c) (hunlink : step ≠ .unlinkJson true)
    (hleft : leftBy s₀ (.payload t (s.callOf t) vm step :: s.log) vm = leftBy s₀ s.log vm) :
    let f : Files := { s.files vm with tmp }
    Moves s₀ policy t s (s.payload t vm f step) ∧
      (own policy t s).Puts vm (some f) (own policy t ((s.payload t vm f step).snapshot policy t)) := by
  intro f
  have hlegal : LegalPayload s₀ policy t (s.callOf t) vm step s.log :=
    ⟨hs.core.last vm t (own_files hfiles).1, fun _ _ c _ h => absurd h (hrename c), fun _ _ _ h => absurd h hunlink⟩
  have hcontent := hs.core.content vm
  obtain ⟨hmoves, hputs⟩ := payload_done hs hfiles (f := f) rfl hlegal (hleft.trans hcontent.symm) (fun _ h => h)
    (fun p c hp => (hs.core.claims p hp).json vm c) fun p st hp => (hs.core.claims p hp).vmId vm st
  exact ⟨hmoves, hputs hrename⟩

theorem Done.truncateTmp (hpre : pre policy (.truncateTmp vm) (own policy t s)) :
    Done s₀ policy t (.truncateTmp vm) s true (s.payload t vm { s.files vm with tmp := some .torn } .truncate) := by
  obtain ⟨f, hf⟩ := hpre
  obtain ⟨-, rfl⟩ := own_files hf
  obtain ⟨hmoves, hputs⟩ := payload_tmp hs hf .truncate (some .torn) nofun nofun rfl
  exact ⟨hmoves, s.files vm, hf, hputs⟩

theorem Done.writeTmp {state : VmState} (hpre : pre policy (.writeTmp vm state) (own policy t s)) (ok : Bool) :
    Done s₀ policy t (.writeTmp vm state) s ok
      (s.payload t vm { s.files vm with tmp := some (if ok then .whole state else .torn) } (.write state)) := by
  obtain ⟨f, hf⟩ := hpre
  obtain ⟨-, rfl⟩ := own_files hf
  obtain ⟨hmoves, hputs⟩ :=
    payload_tmp hs hf (.write state) (some (if ok then .whole state else .torn)) nofun nofun rfl
  exact ⟨hmoves, s.files vm, hf, hputs⟩

theorem Done.unlinkTmp (hpre : pre policy (.unlinkTmp vm) (own policy t s)) :
    Done s₀ policy t (.unlinkTmp vm) s true (s.payload t vm { s.files vm with tmp := none } .unlinkTmp) := by
  obtain ⟨f, hf⟩ := hpre
  obtain ⟨-, rfl⟩ := own_files hf
  obtain ⟨hmoves, hputs⟩ := payload_tmp hs hf .unlinkTmp none nofun nofun rfl
  exact ⟨hmoves, s.files vm, hf, hputs⟩

theorem legal_unlinkJson (hinside : s.inside vm = some t)
    (hmay : MayDelete policy vm (own policy t s) ∨
      ∀ c, (s.files vm).claim = some c → (own policy t s).view.dead c.owner = true) :
    LegalPayload s₀ policy t (s.callOf t) vm (.unlinkJson (s.claims policy vm).isSome) s.log := by
  refine ⟨hs.core.last vm t hinside, nofun, ?_⟩
  intro p hp hlive hstep
  have hsome : (s.claims policy vm).isSome = true := by simpa using hstep
  obtain ⟨c, hc⟩ := Option.isSome_iff_exists.mp hsome
  subst hp
  obtain ⟨hclaim, hcount⟩ := Dir.claims_eq hc
  rcases hmay with hmay | hdead
  · rcases hmay p rfl hlive with ⟨me, hcall⟩ | ⟨hguard, hnone⟩
    · refine ⟨vm, ?_⟩
      unfold Dir.callOf
      rw [show s.calls t = some (me, .deleteState vm) from hcall]
      rfl
    · have hview := (hs.seen t).guarded p vm c rfl (.inl (own_guard hguard)) hc
      rw [show (s.view t).claims vm = none from hnone] at hview
      cases hview
  · have hd := (hs.seen t).dead c.owner (hdead c hclaim)
    simp only [Dir.counts, hlive, Bool.not_true, Bool.false_or] at hcount
    simp [Dir.dead, hcount] at hd

theorem Done.unlinkJson (hpre : pre policy (.unlinkJson vm) (own policy t s)) :
    Done s₀ policy t (.unlinkJson vm) s true (s.payload t vm { s.files vm with json := none, claim := none }
      (.unlinkJson (s.claims policy vm).isSome)) := by
  obtain ⟨f, hf, hmay⟩ := hpre
  obtain ⟨hinside, rfl⟩ := own_files hf
  obtain ⟨hmoves, hputs⟩ := payload_done hs hf
    (f := { s.files vm with json := none, claim := none }) rfl (legal_unlinkJson hs hinside hmay)
    (by simp [leftBy, lastLeft]) (by rintro _ ⟨⟩) (by rintro _ _ _ ⟨⟩) (by rintro _ _ _ ⟨⟩)
  exact ⟨hmoves, s.files vm, hf, hputs (by rintro _ ⟨⟩)⟩

theorem legal_rename {c : Content} (hinside : s.inside vm = some t)
    (htmp : (s.files vm).tmp = some c) (hmay : MayRename policy vm (s.files vm) (own policy t s)) :
    LegalPayload s₀ policy t (s.callOf t) vm (.rename c) s.log := by
  refine ⟨hs.core.last vm t hinside, ?_, nofun⟩
  intro vm' mutate c' hcall hstep
  cases hstep
  unfold Dir.callOf at hcall
  obtain ⟨⟨me, call⟩, hcalls, rfl⟩ := Option.map_eq_some_iff.mp hcall
  obtain ⟨st, hjson, htmp'⟩ := hmay.update me vm' mutate hcalls
  cases htmp.symm.trans htmp'
  refine ⟨st, ?_, rfl⟩
  rw [← hs.core.content vm]
  exact hjson

theorem Done.renameTmp {c : Content}
    (hpre : pre policy (.renameTmp vm) (own policy t s)) (htmp : (s.files vm).tmp = some c)
    (hnot : ∀ p, policy = some p → claimsOf (s.calls t) ≠ some p.guard) : Done s₀ policy t (.renameTmp vm) s true
      (s.payload t vm { s.files vm with json := some c, tmp := none } (.rename c)) := by
  obtain ⟨f, hf, hmay⟩ := hpre
  obtain ⟨hinside, rfl⟩ := own_files hf
  obtain ⟨hmoves, -⟩ := payload_done hs hf (f := { s.files vm with json := some c, tmp := none })
    rfl (legal_rename hs hinside htmp hmay) (by simp [leftBy, lastLeft]) (fun _ h => h)
    (by
      intro p cl hp hcl
      obtain ⟨st, htmp', -, -, hkeep⟩ := hmay.policy p hp
      cases htmp.symm.trans htmp'
      exact ⟨st, rfl, hkeep (hnot p hp) cl hcl⟩)
    (by
      intro p st hp hst
      obtain ⟨st', htmp', hvm, -⟩ := hmay.policy p hp
      cases htmp.symm.trans htmp'
      cases hst
      exact hvm)
  refine ⟨hmoves, rfl, rfl, mem_filterMap.mpr ⟨_, mem_cons_self, if_pos rfl⟩, ?_⟩
  intro p _ _ me call _ hp _ _ hcall hclaims
  have hcalls : s.calls t = some (me, call) := hcall
  exact absurd (by rw [hcalls]; exact hclaims) (hnot p hp)

omit hs in
theorem Done.claims {p : Policy} {c : Content} (hs : Inv s₀ (some p) s)
    (hpre : pre (some p) (.renameTmp vm) (own (some p) t s)) (htmp : (s.files vm).tmp = some c)
    (hclaims : claimsOf (s.calls t) = some p.guard) :
    Done s₀ (some p) t (.renameTmp vm) s true (s.claimRename (some p) t vm c) := by
  obtain ⟨f, hf, hmay⟩ := hpre
  obtain ⟨hinside, rfl⟩ := own_files hf
  have hlegal := legal_rename hs hinside htmp hmay
  obtain ⟨st, htmp', hvm, hfresh, -⟩ := hmay.policy p rfl
  cases htmp.symm.trans htmp'
  obtain ⟨me, call, key, hcall, hmatches, hfresh⟩ := hfresh hclaims
  have hguard := own_guard hfresh.guard
  have hclaim : s.claimOf (some p) t (.whole st) = some ⟨me, key⟩ := Dir.claimOf_eq hcall hmatches.key
  have hputs : Puts s vm _ (s.claimRename (some p) t vm (.whole st)) := Dir.claimRename_puts
  have hlog : (s.claimRename (some p) t vm (.whole st)).log = _ := Dir.claimRename_log
  refine ⟨⟨?_, ?_, ?_⟩, ?_⟩
  · apply hs.core.claimRename hinside hlegal
    rintro p ⟨⟩
    refine ⟨st, me, call, key, rfl, hvm, hcall, hmatches, hguard, ?_⟩
    intro vm' c hne hc
    exact hfresh.fresh vm' c hne ((hs.seen t).guarded p vm' c rfl (.inl hguard) hc)
  · -- nobody else guards claims, or claims for this VM
    intro u hu
    apply hputs.seen (hs.seen u)
    rintro p _ ⟨⟩ hg
    rcases hg with hg | ⟨hlive, hw⟩
    · cases hguard.symm.trans hg
      exact absurd rfl hu
    · cases (own_writes (hfresh.writes hlive)).2.symm.trans hw
      exact absurd rfl hu
  · intro u hu
    apply hputs.own_eq (fun _ => Iff.rfl)
    · rw [hinside]
      exact fun h => hu (Option.some.inj h).symm
    · rw [hlog, hclaim, filterMap_append, filterMap_cons_none (deedOf_payload_ne hu _ _)]
      simp [Entry.deedOf, hu.symm]
  · have hdeeds : (own (some p) t ((s.claimRename (some p) t vm (.whole st)).snapshot (some p) t)).deeds =
        List.filterMap (Entry.deedOf t) (s.claimRename (some p) t vm (.whole st)).log := rfl
    refine ⟨rfl, rfl, ?_, ?_⟩
    · rw [hdeeds, hlog]
      exact mem_filterMap.mpr ⟨_, mem_append_right _ mem_cons_self, if_pos rfl⟩
    · rintro p f' st' me' call' key' ⟨⟩ hf' htmp'' hcall' - hkey
      cases hf.symm.trans hf'
      cases htmp.symm.trans htmp''
      rw [hdeeds, hlog, Dir.claimOf_eq hcall' hkey]
      exact mem_filterMap.mpr ⟨_, mem_cons_self, if_pos rfl⟩

theorem Done.openDir {purpose : Purpose} :
    Done s₀ policy t (.openDir purpose) s true (s.beginScan t) := by
  refine ⟨⟨hs.core.beginScan, ?_, fun _ _ => rfl⟩, ?_⟩
  · exact fun u _ => (hs.seen u).of_same rfl rfl rfl rfl (fun _ h => h) fun _ h => h
  · exact ⟨⟨keeps_of_same hs rfl rfl rfl rfl rfl rfl rfl, rfl, rfl⟩, nofun⟩

theorem Done.readDir {purpose : Purpose} {r : Option (List DirEntry)}
    (hnone : r = none → MayFail policy purpose)
    (hsome : ∀ list, r = some list → ∃ l, s.scans t = some l ∧ ∀ vm ∈ l, DirEntry.lock vm ∈ list) :
    Done s₀ policy t (.readDir purpose) s r (s.endScan t) := by
  refine ⟨⟨hs.core.endScan, ?_, fun _ _ => rfl⟩, ?_⟩
  · exact fun u _ => (hs.seen u).of_same rfl rfl rfl rfl (fun _ h => h) fun _ h => h
  · refine ⟨⟨keeps_of_same hs rfl rfl rfl rfl rfl rfl rfl, rfl, rfl⟩, hnone, ?_⟩
    intro list hr hguard vm c hc
    obtain ⟨l, hl, hall⟩ := hsome list hr
    simp only [own, Dir.snapshot, update_self] at hc
    have hc' : s.claims policy vm = some c := hc
    obtain ⟨p, rfl⟩ := claims_policy hc'
    exact hall vm ((hs.core.claims p rfl).scanned t l vm c (own_guard hguard) hl hc')

theorem Done.lockGlobal {g : Global} (hfree : s.global g = none) :
    Done s₀ policy t (.lockGlobal g) s true (s.lockGlobal t g) := by
  have hglobal {u : ℕ} (hu : u ≠ t) (g' : Global) : (s.lockGlobal t g).global g' = some u ↔ s.global g' = some u := by
    apply update_taken hu
    rw [hfree]
    nofun
  refine ⟨⟨hs.core.lockGlobal, ?_, ?_⟩, ?_⟩
  · intro u hu
    exact (hs.seen u).of_same rfl rfl rfl rfl (fun g' h => (hglobal hu g').mp h) fun _ h => h
  · intro u hu
    exact own_eq rfl (fun _ => Iff.rfl) (fun _ => Iff.rfl) (fun _ _ => rfl) (hglobal hu) (fun _ => Iff.rfl) rfl rfl
  · refine ⟨⟨⟨rfl, rfl, rfl, rfl, fun _ _ _ h => h, fun _ h => h⟩, rfl, rfl⟩, claims_of_writes hs rfl, ?_⟩
    rintro - p rfl rfl
    simp [own, Dir.snapshot, Dir.lockGlobal]

theorem Done.unlockGlobal {g : Global} :
    Done s₀ policy t (.unlockGlobal g) s () (s.unlockGlobal t g) := by
  have hglobal {u : ℕ} (hu : u ≠ t) (g' : Global) :
      (s.unlockGlobal t g).global g' = some u ↔ s.global g' = some u :=
    update_left hu g'
  refine ⟨⟨hs.core.unlockGlobal, ?_, ?_⟩, ?_⟩
  · intro u hu
    exact (hs.seen u).of_same rfl rfl rfl rfl (fun g' h => (hglobal hu g').mp h) fun _ h => h
  · intro u hu
    exact own_eq rfl (fun _ => Iff.rfl) (fun _ => Iff.rfl) (fun _ _ => rfl) (hglobal hu) (fun _ => Iff.rfl) rfl rfl
  · exact ⟨⟨rfl, rfl, rfl, rfl, fun _ _ _ h => h, fun _ h => h⟩, rfl, rfl⟩

theorem Done.finish {outcome : Outcome}
    (hpre : pre policy (.finish outcome) (own policy t s)) :
    Done s₀ policy t (.finish outcome) s () (s.finish t outcome) := by
  refine ⟨⟨hs.core.finish ?_, ?_, ?_⟩, trivial⟩
  · intro hok
    have hfin := hpre hok
    refine ⟨?_, ?_, ?_⟩
    · exact fun me vm mutate hcall => mem_log_of_renamed (hfin.update me vm mutate hcall)
    · intro p me st name hp hg hcall hname
      exact mem_log_of_claimed (hfin.name p me st name hp hg hcall hname)
    · intro p me st hp hg hcall
      obtain ⟨key, hkey⟩ := hfin.address p me st hp hg hcall
      exact ⟨key, mem_log_of_claimed hkey⟩
  · intro u hu
    exact (hs.seen u).of_same rfl rfl rfl rfl (fun _ h => h) fun _ h => (filter_ne_eq hu).mp h
  · intro u hu
    exact own_eq rfl (fun _ => Iff.rfl) (fun _ => Iff.rfl) (fun _ _ => rfl) (fun _ => Iff.rfl)
      (fun _ => filter_ne_eq hu) rfl rfl

theorem effect_done {o : Op} {c : Choice} {r : Res o} (hpre : pre policy o (own policy t s))
    (hcare : Careful policy o c) (h : effect policy t o s c = some (s', r)) : Done s₀ policy t o s r s' := by
  cases c with
  | entries list =>
    cases o with
    | entries =>
      cases h
      exact .quiet hs (same_snapshot hs)
    | readDir purpose =>
      simp only [effect] at h
      split at h
      · cases h
      · next throughout hscan =>
        split at h
        · next hall =>
          cases h
          refine .readDir hs nofun ?_
          intro list' hlist
          cases hlist
          refine ⟨throughout, hscan, ?_⟩
          intro vm hvm
          exact contains_iff_mem.mp (all_eq_true.mp hall vm hvm)
        · cases h
    | _ => cases h
  | error =>
    cases o with
    | unflock | unlockGlobal | finish => cases h
    | tryFlock i mode | flock i mode =>
      cases h
      apply Done.quiet hs
      cases mode <;> exact same_snapshot hs
    | readJson vm listed =>
      cases h
      exact .readJson hs (.inr hcare)
    | writeTmp vm state =>
      cases h
      exact .writeTmp hs hpre false
    | openDir purpose | dirExists purpose =>
      cases h
      exact .quiet hs ⟨same_snapshot hs, fun _ => hcare⟩
    | stat pid =>
      cases h
      exact .stat hs (.inr hcare)
    | readDir purpose =>
      cases h
      exact .readDir hs (fun _ => hcare) nofun
    | procExists pid | startTime pid =>
      cases h
      exact .quiet hs ⟨same_snapshot hs, nofun⟩
    | lockGlobal g =>
      cases h
      exact .quiet hs ⟨⟨⟨rfl, rfl, rfl, rfl, fun _ _ _ h => h, fun _ h => h⟩, rfl, rfl⟩, claims_of_writes hs rfl, nofun⟩
    | _ =>
      cases h
      exact .quiet hs (same_snapshot hs)
  | ok =>
    cases o with
    | entries | readDir => cases h
    | openLock | stateExists | chmodTmp =>
      cases h
      exact .quiet hs (same_snapshot hs)
    | createLock vm =>
      simp only [effect] at h
      split at h
      · cases h
        exact .quiet hs (same_snapshot hs)
      · next hlock =>
        cases h
        exact .newLock hs hlock
    | tryFlock i mode =>
      simp only [effect] at h
      split at h
      · next hfree =>
        cases h
        exact .tryFlock hs hfree
      · cases h
        apply Done.quiet hs
        cases mode <;> exact same_snapshot hs
    | flock i mode =>
      simp only [effect] at h
      split at h
      · next hfree =>
        cases h
        exact .flock hs hfree
      · cases h
    | identify vm i =>
      simp only [effect] at h
      split at h
      · cases h
        exact .quiet hs (same_snapshot hs)
      · next current hlock =>
        split at h
        · next hsame =>
          subst hsame
          split at h
          · next hheld =>
            cases h
            exact .enter hs hlock hheld
          · next hheld =>
            cases h
            apply Done.quiet hs
            have hown : (own policy t s).held current = false := by
              rw [Bool.eq_false_iff]
              exact fun e => hheld (own_held.mp e)
            simp only [post, hown, Bool.false_eq_true, if_false]
            exact same_snapshot hs
        · cases h
          exact .quiet hs (same_snapshot hs)
    | unflock i =>
      cases h
      exact .unflock hs
    | readJson vm listed =>
      simp only [effect] at h
      split at h
      · next hjson =>
        cases h
        exact .readJson hs hjson
      · next hjson =>
        cases h
        exact .readJson hs (.inl hjson)
      · next st hjson =>
        cases h
        exact .readJson hs hjson
    | truncateTmp vm =>
      cases h
      exact .truncateTmp hs hpre
    | writeTmp vm state =>
      cases h
      exact .writeTmp hs hpre true
    | renameTmp vm =>
      simp only [effect] at h
      split at h
      · cases h
        exact .quiet hs (same_snapshot hs)
      · next c htmp =>
        cases h
        unfold Dir.rename
        split
        · next hclaims =>
          cases policy with
          | none => cases hclaims
          | some p => exact .claims hs hpre htmp (of_decide_eq_true hclaims)
        · next hclaims =>
          apply Done.renameTmp hs hpre htmp
          rintro p rfl hguard
          exact hclaims (decide_eq_true hguard)
    | unlinkJson vm =>
      cases h
      exact .unlinkJson hs hpre
    | unlinkTmp vm =>
      cases h
      exact .unlinkTmp hs hpre
    | unlinkLock vm =>
      cases h
      obtain ⟨f, hf, hjson⟩ := hpre
      obtain ⟨hinside, rfl⟩ := own_files hf
      exact .retireLock hs hinside hjson
    | dirExists purpose =>
      cases h
      exact .quiet hs ⟨same_snapshot hs, nofun⟩
    | openDir purpose =>
      cases h
      exact .openDir hs
    | stat pid =>
      cases h
      exact .stat hs (.inl rfl)
    | startTime pid =>
      cases h
      exact .startTime hs
    | procExists pid =>
      cases h
      exact .procExists hs
    | lockGlobal g =>
      simp only [effect] at h
      split at h
      · next hfree =>
        cases h
        exact .lockGlobal hs hfree
      · cases h
    | unlockGlobal g =>
      cases h
      exact .unlockGlobal hs
    | finish outcome =>
      cases h
      exact .finish hs hpre

end Fcvm.StateDir
