import Fcvm.StateDir.Invariant

namespace Fcvm.StateDir

open Library Function Option

variable {s₀ s s' : Dir} {policy : Option Policy} {t u : ℕ} {vm : VmId}

variable {p : Policy} {vm' : VmId}

theorem Dir.alive_eq {id : Ident} (h : s.alive id = true) : s.procs id.1 = some ⟨id.2, false⟩ := by
  unfold Dir.alive at h
  cases hp : s.procs id.1 with
  | none =>
    simp [hp] at h
  | some p =>
    rw [hp] at h
    simp only [Bool.and_eq_true, beq_iff_eq, Bool.not_eq_true'] at h
    rw [← h.1, ← h.2]

theorem Dir.claims_eq {c : Claimant} (h : s.claims (some p) vm = some c) :
    (s.files vm).claim = some c ∧ s.counts p c = true := by
  unfold Dir.claims at h
  exact filter_eq_some_iff.mp h

theorem Dir.claims_of {c : Claimant} (h : (s.files vm).claim = some c) (hc : s.counts p c = true) :
    s.claims (some p) vm = some c := by
  unfold Dir.claims
  exact filter_eq_some_iff.mpr ⟨h, hc⟩

theorem own_eq (hcalls : s'.calls u = s.calls u) (hheld : ∀ i, s'.exclusive i = some u ↔ s.exclusive i = some u)
    (hinside : ∀ vm, s'.inside vm = some u ↔ s.inside vm = some u)
    (hfiles : ∀ vm, s.inside vm = some u → s'.files vm = s.files vm)
    (hglobal : ∀ g, s'.global g = some u ↔ s.global g = some u)
    (hwriter : ∀ vm, s'.writer vm = some u ↔ s.writer vm = some u)
    (hlog : s'.log.filterMap (Entry.deedOf u) = s.log.filterMap (Entry.deedOf u))
    (hview : s'.view u = s.view u) : own policy u s' = own policy u s := by
  unfold own
  simp only [Own.mk.injEq, hcalls, hheld, hinside, hglobal, hwriter, hlog, hview, and_true, true_and]
  funext vm
  split
  · next h => rw [hfiles vm h]
  · rfl

theorem own_snapshot (h : u ≠ t) : own policy u (s.snapshot policy t) = own policy u s := by
  apply own_eq <;> intros <;> first | rfl | exact update_of_ne h _ _

theorem leftBy_payload_ne (h : vm' ≠ vm) (call : Option Call) (step : Payload) (log : List Entry) :
    leftBy s₀ (.payload t call vm step :: log) vm' = leftBy s₀ log vm' := by
  have hne : vm ≠ vm' := h.symm
  cases step <;> simp [leftBy, lastLeft, hne]

theorem Inv.after (hcore : Core s₀ policy s) (hseen : ∀ u, u ≠ t → SeenBy policy s u) :
    Inv s₀ policy (s.snapshot policy t) := by
  constructor
  · refine { hcore with claims := ?_ }
    intro p hp
    have hc := hcore.claims p hp
    exact ⟨hc.lock, hc.json, hc.vmId, hc.unique, hc.scanned⟩
  · intro u
    by_cases hu : u = t
    · subst hu
      constructor
      · intro id h
        simp only [Dir.snapshot, update_self] at h
        exact h
      · intro p vm c hp _ h
        simp only [Dir.snapshot, update_self]
        exact h
    · constructor
      · intro id h
        simp only [Dir.snapshot, update_of_ne hu] at h
        exact (hseen u hu).dead id h
      · intro p vm c hp hg h
        simp only [Dir.snapshot, update_of_ne hu]
        exact (hseen u hu).guarded p vm c hp hg h

theorem SeenBy.mono (h : SeenBy policy s u) (hview : s'.view u = s.view u)
    (hdead : ∀ id, s.dead id = true → s'.dead id = true)
    (hglobal : ∀ g, s'.global g = some u → s.global g = some u)
    (hwriter : ∀ vm, s'.writer vm = some u → s.writer vm = some u)
    (hclaims : ∀ p vm c, policy = some p → s.global p.guard = some u ∨ (p.live = false ∧ s.writer vm = some u) →
      s'.claims policy vm = some c → s.claims policy vm = some c) : SeenBy policy s' u := by
  constructor
  · intro id hid
    rw [hview] at hid
    exact hdead id (h.dead id hid)
  · intro p vm c hp hg hc
    have hg' : s.global p.guard = some u ∨ (p.live = false ∧ s.writer vm = some u) :=
      hg.imp (hglobal p.guard) fun hw => ⟨hw.1, hwriter vm hw.2⟩
    rw [hview]
    exact h.guarded p vm c hp hg' (hclaims p vm c hp hg' hc)

theorem Core.locks (hs : Core s₀ policy s) (hfiles : s'.files = s.files) (hnext : s'.nextInode = s.nextInode)
    (hknown : s'.known = s.known) (hlog : s'.log = s.log) (hprocs : s'.procs = s.procs) (hpast : s'.past = s.past)
    (hinside : ∀ vm t i, s'.inside vm = some t → s.inside vm = some t ∧
      ((s.files vm).lock = some i → s.exclusive i = some t → s'.exclusive i = some t))
    (hcalls : ∀ t c, s'.calls t = some c → s.calls t = some c)
    (hscans : ∀ p t l, policy = some p → s'.global p.guard = some t → s'.scans t = some l →
      s.global p.guard = some t ∧ s.scans t = some l) : Core s₀ policy s' := by
  have halive : s'.alive = s.alive := by
    funext id
    unfold Dir.alive
    rw [hprocs]
  have hclaims : ∀ p, s'.claims (some p) = s.claims (some p) := by
    intro p
    funext vm
    unfold Dir.claims Dir.counts
    rw [hfiles, halive]
  refine ⟨?_, ?_, ?_, ?_, ?_, ?_, ?_, ?_, ?_, ?_, ?_⟩
  · intro vm t h
    rw [hfiles]
    obtain ⟨i, hi, he⟩ := hs.inside vm t (hinside vm t 0 h).1
    exact ⟨i, hi, (hinside vm t i h).2 hi he⟩
  · rw [hfiles, hnext]
    exact hs.lockBound
  · rw [hfiles]
    exact hs.lockInj
  · intro vm t h
    rw [hlog]
    exact hs.last vm t (hinside vm t 0 h).1
  · rw [hlog]
    exact hs.legal
  · rw [hfiles, hlog]
    exact hs.content
  · intro t me call h
    rw [halive]
    exact hs.callAlive t me call (hcalls t _ h)
  · rw [halive, hpast]
    exact hs.past
  · rw [hfiles, hknown]
    exact hs.known
  · rw [hfiles, hpast]
    exact hs.claimPast
  · intro p hp
    have hc := hs.claims p hp
    constructor
    · rw [hfiles]
      exact hc.lock
    · rw [hfiles]
      exact hc.json
    · rw [hfiles]
      exact hc.vmId
    · rw [hclaims]
      exact hc.unique
    · rw [hclaims]
      intro t l vm c hg hl
      obtain ⟨hg', hl'⟩ := hscans p t l hp hg hl
      exact hc.scanned t l vm c hg' hl'

theorem SeenBy.of_same (h : SeenBy policy s u) (hview : s'.view u = s.view u) (hfiles : s'.files = s.files)
    (hprocs : s'.procs = s.procs) (hpast : s'.past = s.past)
    (hglobal : ∀ g, s'.global g = some u → s.global g = some u)
    (hwriter : ∀ vm, s'.writer vm = some u → s.writer vm = some u) : SeenBy policy s' u := by
  have halive : s'.alive = s.alive := by
    funext id
    unfold Dir.alive
    rw [hprocs]
  apply h.mono hview _ hglobal hwriter
  · intro p vm c _ _ hc
    unfold Dir.claims Dir.counts at *
    rw [hfiles, halive] at hc
    exact hc
  · intro id hid
    unfold Dir.dead at *
    rw [halive, hpast]
    exact hid

section Files

variable {f : Files}

structure Puts (s : Dir) (vm : VmId) (f : Files) (s' : Dir) : Prop where
  files : s'.files = Function.update s.files vm f
  procs : s'.procs = s.procs
  past : s'.past = s.past
  exclusive : s'.exclusive = s.exclusive
  global : s'.global = s.global
  calls : s'.calls = s.calls
  writer : s'.writer = s.writer
  view : s'.view = s.view

namespace Puts

section

variable (h : Puts s vm f s')
include h

theorem alive : s'.alive = s.alive := by
  funext id
  unfold Dir.alive
  rw [h.procs]

theorem self : s'.files vm = f := by
  rw [h.files, update_self]

theorem other (hne : vm' ≠ vm) : s'.files vm' = s.files vm' := by
  rw [h.files, update_of_ne hne]

theorem claims_other (hne : vm' ≠ vm) : s'.claims policy vm' = s.claims policy vm' := by
  unfold Dir.claims Dir.counts
  rw [h.other hne, h.alive]

theorem claims_self {c : Claimant} (hc : s'.claims (some p) vm = some c) : f.claim = some c ∧ s.counts p c = true := by
  have hc' := Dir.claims_eq hc
  unfold Dir.counts at *
  rw [h.self, h.alive] at hc'
  exact hc'

theorem claims_mono (hclaim : ∀ c, f.claim = some c → (s.files vm).claim = some c)
    {c : Claimant} (hc : s'.claims policy vm' = some c) : s.claims policy vm' = some c := by
  by_cases hvm : vm' = vm
  · subst hvm
    cases policy with
    | none => cases hc
    | some p =>
      obtain ⟨hf, hcount⟩ := h.claims_self hc
      exact Dir.claims_of (hclaim c hf) hcount
  · rw [h.claims_other hvm] at hc
    exact hc

theorem seen (hseen : SeenBy policy s u)
    (hclaim : ∀ p c, policy = some p → s.global p.guard = some u ∨ (p.live = false ∧ s.writer vm = some u) →
      f.claim = some c → (s.files vm).claim = some c) : SeenBy policy s' u := by
  refine hseen.mono (by rw [h.view]) ?_ (by rw [h.global]; exact fun _ hg => hg)
    (by rw [h.writer]; exact fun _ hw => hw) ?_
  · intro id hid
    unfold Dir.dead at *
    rw [h.alive, h.past]
    exact hid
  · intro p vm' c hp hg hc
    by_cases hvm : vm' = vm
    · subst hvm
      rw [hp] at hc ⊢
      obtain ⟨hf, hcount⟩ := h.claims_self hc
      exact Dir.claims_of (hclaim p c hp hg hf) hcount
    · rw [h.claims_other hvm] at hc
      exact hc

theorem claims (hs : Claims p s) (hlock : ∀ c, f.claim = some c → f.lock.isSome = true)
    (hjson : ∀ c, f.claim = some c → ∃ st, f.json = some (.whole st) ∧ p.Matches st c)
    (hvmId : ∀ st, f.json = some (.whole st) → st.vmId = vm)
    (hunique : ∀ vm' c c', vm' ≠ vm → f.claim = some c → s.counts p c = true → s.claims (some p) vm' = some c' →
      c.key ≠ c'.key)
    (hscans : ∀ t l vm' c, s.global p.guard = some t → s'.scans t = some l → s'.claims (some p) vm' = some c →
      vm' ∈ l) : Claims p s' := by
  constructor
  · intro vm' c hc
    by_cases hvm : vm' = vm
    · subst hvm
      rw [h.self] at *
      exact hlock c hc
    · rw [h.other hvm] at *
      exact hs.lock vm' c hc
  · intro vm' c hc
    by_cases hvm : vm' = vm
    · subst hvm
      rw [h.self] at *
      exact hjson c hc
    · rw [h.other hvm] at *
      exact hs.json vm' c hc
  · intro vm' st hst
    by_cases hvm : vm' = vm
    · subst hvm
      rw [h.self] at hst
      exact hvmId st hst
    · rw [h.other hvm] at hst
      exact hs.vmId vm' st hst
  · intro a b c c' hab ha hb
    by_cases hav : a = vm
    · subst hav
      have hbv : b ≠ a := fun e => hab e.symm
      rw [h.claims_other hbv] at hb
      obtain ⟨hf, hcount⟩ := h.claims_self ha
      exact hunique b c c' hbv hf hcount hb
    · rw [h.claims_other hav] at ha
      by_cases hbv : b = vm
      · subst hbv
        obtain ⟨hf, hcount⟩ := h.claims_self hb
        exact fun e => hunique a c' c hav hf hcount ha e.symm
      · rw [h.claims_other hbv] at hb
        exact hs.unique a b c c' hab ha hb
  · intro t l vm' c hg hl hc
    rw [h.global] at hg
    exact hscans t l vm' c hg hl hc

theorem core (hs : Core s₀ policy s) (hnext : s.nextInode ≤ s'.nextInode) (hknown : s.known ⊆ s'.known)
    (hinside : ∀ vm' t, s'.inside vm' = some t → s.inside vm' = some t ∧ (vm' = vm → f.lock = (s.files vm).lock))
    (hlock : ∀ i, f.lock = some i →
      (s.files vm).lock = some i ∨ (i = s.nextInode ∧ i < s'.nextInode ∧ vm ∈ s'.known))
    (hlast : ∀ vm', lastLocked s'.log vm' = lastLocked s.log vm') (hlegal : Always (Legal s₀ policy) s'.log)
    (hleft : leftBy s₀ s'.log vm = f.json) (hothers : ∀ vm', vm' ≠ vm → leftBy s₀ s'.log vm' = leftBy s₀ s.log vm')
    (hclaim : ∀ c, f.claim = some c → c.owner ∈ s.past) (hclaims : ∀ p, policy = some p → Claims p s') :
    Core s₀ policy s' := by
  refine ⟨?_, ?_, ?_, ?_, hlegal, ?_, ?_, ?_, ?_, ?_, hclaims⟩
  · intro vm' t ht
    obtain ⟨hin, hsame⟩ := hinside vm' t ht
    obtain ⟨i, hi, he⟩ := hs.inside vm' t hin
    refine ⟨i, ?_, by rw [h.exclusive]; exact he⟩
    by_cases hvm : vm' = vm
    · subst hvm
      rw [h.self, hsame rfl]
      exact hi
    · rw [h.other hvm]
      exact hi
  · intro vm' i hi
    by_cases hvm : vm' = vm
    · subst hvm
      rw [h.self] at hi
      rcases hlock i hi with hold | ⟨-, hlt, -⟩
      · exact Nat.lt_of_lt_of_le (hs.lockBound vm' i hold) hnext
      · exact hlt
    · rw [h.other hvm] at hi
      exact Nat.lt_of_lt_of_le (hs.lockBound vm' i hi) hnext
  · intro a b i ha hb
    have hcases (x : VmId) (hx : (s'.files x).lock = some i) :
        (s.files x).lock = some i ∨ (x = vm ∧ i = s.nextInode) := by
      by_cases hxv : x = vm
      · subst hxv
        rw [h.self] at hx
        exact (hlock i hx).imp id fun hnew => ⟨rfl, hnew.1⟩
      · rw [h.other hxv] at hx
        exact .inl hx
    rcases hcases a ha with ha' | ⟨rfl, hi⟩ <;> rcases hcases b hb with hb' | ⟨rfl, hi'⟩
    · exact hs.lockInj a b i ha' hb'
    · have := hs.lockBound a i ha'
      omega
    · have := hs.lockBound b i hb'
      omega
    · rfl
  · intro vm' t ht
    rw [hlast]
    exact hs.last vm' t (hinside vm' t ht).1
  · intro vm'
    by_cases hvm : vm' = vm
    · subst hvm
      rw [h.self, hleft]
    · rw [h.other hvm, hothers vm' hvm]
      exact hs.content vm'
  · rw [h.calls, h.alive]
    exact hs.callAlive
  · rw [h.alive, h.past]
    exact hs.past
  · intro vm' hk
    by_cases hvm : vm' = vm
    · subst hvm
      rw [h.self] at hk
      obtain ⟨i, hi⟩ := isSome_iff_exists.mp hk
      rcases hlock i hi with hold | ⟨-, -, hmem⟩
      · exact hknown (hs.known vm' (by rw [hold]; rfl))
      · exact hmem
    · rw [h.other hvm] at hk
      exact hknown (hs.known vm' hk)
  · intro vm' c hc
    rw [h.past]
    by_cases hvm : vm' = vm
    · subst hvm
      rw [h.self] at hc
      exact hclaim c hc
    · rw [h.other hvm] at hc
      exact hs.claimPast vm' c hc

theorem own_eq (hinside : ∀ vm', s'.inside vm' = some u ↔ s.inside vm' = some u) (hvm : s.inside vm ≠ some u)
    (hlog : s'.log.filterMap (Entry.deedOf u) = s.log.filterMap (Entry.deedOf u)) :
    own policy u s' = own policy u s := by
  apply StateDir.own_eq
  · rw [h.calls]
  · rw [h.exclusive]
    exact fun _ => Iff.rfl
  · exact hinside
  · intro vm' hin
    apply h.other
    rintro rfl
    exact hvm hin
  · rw [h.global]
    exact fun _ => Iff.rfl
  · rw [h.writer]
    exact fun _ => Iff.rfl
  · exact hlog
  · rw [h.view]

end

end Puts

end Files

theorem Dir.newLock_puts : Puts s vm { s.files vm with lock := some s.nextInode } (s.newLock vm) :=
  ⟨rfl, rfl, rfl, rfl, rfl, rfl, rfl, rfl⟩

theorem Dir.retireLock_puts : Puts s vm { s.files vm with lock := none } (s.retireLock t vm) :=
  ⟨rfl, rfl, rfl, rfl, rfl, rfl, rfl, rfl⟩

theorem Dir.retireLock_inside (hinside : s.inside vm = some t)
    (h : (s.retireLock t vm).inside vm' = some u) : vm' ≠ vm ∧ s.inside vm' = some u := by
  simp only [Dir.retireLock] at h
  by_cases hvm : vm' = vm
  · subst hvm
    rw [update_self, hinside] at h
    obtain ⟨hu, hne⟩ := filter_eq_some_iff.mp h
    cases hu
    exact absurd rfl (of_decide_eq_true hne)
  · rw [update_of_ne hvm] at h
    exact ⟨hvm, h⟩

theorem Dir.claimOf_eq {me : Ident} {call : Call} {st : VmState} {key : String}
    (hcall : s.calls t = some (me, call)) (hkey : p.key st = some key) :
    s.claimOf (some p) t (.whole st) = some ⟨me, key⟩ := by
  simp only [Dir.claimOf, hcall, hkey, map_some]

theorem Dir.claimRename_puts {c : Content} :
    Puts s vm { s.files vm with json := some c, tmp := none, claim := s.claimOf policy t c }
      (s.claimRename policy t vm c) :=
  ⟨rfl, rfl, rfl, rfl, rfl, rfl, rfl, rfl⟩

theorem Dir.claimRename_log {c : Content} : (s.claimRename policy t vm c).log =
    ((s.claimOf policy t c).map (Entry.claimed t vm)).toList ++ .payload t (s.callOf t) vm (.rename c) :: s.log := rfl

variable (hs : Core s₀ policy s)
include hs

theorem Core.newLock (hlock : (s.files vm).lock = none) : Core s₀ policy (s.newLock vm) := by
  have hputs : Puts s vm _ (s.newLock vm) := Dir.newLock_puts
  apply hputs.core hs (Nat.le_succ _) (List.subset_cons_self _ _)
  · intro vm' t ht
    refine ⟨ht, ?_⟩
    rintro rfl
    obtain ⟨i, hi, -⟩ := hs.inside vm' t ht
    cases hlock.symm.trans hi
  · intro i hi
    cases hi
    exact .inr ⟨rfl, Nat.lt_succ_self _, List.mem_cons_self⟩
  · exact fun _ => rfl
  · exact hs.legal
  · exact (hs.content vm).symm
  · exact fun _ _ => rfl
  · exact hs.claimPast vm
  · intro p hp
    have hc := hs.claims p hp
    apply hputs.claims hc
    · exact fun _ _ => rfl
    · exact hc.json vm
    · exact hc.vmId vm
    · intro vm' c c' hne hcl hcount hc'
      exact hc.unique vm vm' c c' hne.symm (Dir.claims_of hcl hcount) hc'
    · exact fun t l vm' c hg hl hc' => hc.scanned t l vm' c hg hl (hputs.claims_mono (fun _ h => h) hc')

theorem Core.acquire {i : ℕ} {mode : Mode} (hfree : s.free i mode = true) : Core s₀ policy (s.acquire t i mode) := by
  cases mode with
  | shared =>
    exact hs.locks rfl rfl rfl rfl rfl rfl (fun vm u j h => ⟨h, fun _ he => he⟩) (fun _ _ h => h)
      (fun p u l _ hg hl => ⟨hg, hl⟩)
  | exclusive =>
    refine hs.locks rfl rfl rfl rfl rfl rfl ?_ (fun _ _ h => h) fun p u l _ hg hl => ⟨hg, hl⟩
    intro vm u j h
    refine ⟨h, fun _ he => ?_⟩
    have hne : j ≠ i := by
      rintro rfl
      simp only [Dir.free, Bool.and_eq_true, isNone_iff_eq_none] at hfree
      cases hfree.1.symm.trans he
    simp only [Dir.acquire, update_of_ne hne]
    exact he

theorem Core.release (i : ℕ) : Core s₀ policy (s.release t i) := by
  refine hs.locks rfl rfl rfl rfl rfl rfl ?_ (fun _ _ h => h) fun p u l _ hg hl => ⟨hg, hl⟩
  intro vm u j h
  obtain ⟨h, hu⟩ := filter_eq_some_iff.mp h
  refine ⟨h, fun _ he => ?_⟩
  simp only [Dir.release, update_apply]
  split
  · next hj =>
    rw [← hj, he]
    exact filter_eq_some_iff.mpr ⟨rfl, hu⟩
  · exact he

theorem Core.enter {i : ℕ} (hlock : (s.files vm).lock = some i) (hheld : s.exclusive i = some t) :
    Core s₀ policy (s.enter t vm) := by
  refine ⟨?_, hs.lockBound, hs.lockInj, ?_, ⟨trivial, hs.legal⟩, hs.content, hs.callAlive, hs.past, hs.known,
    hs.claimPast, fun p hp => ⟨(hs.claims p hp).lock, (hs.claims p hp).json, (hs.claims p hp).vmId,
      (hs.claims p hp).unique, (hs.claims p hp).scanned⟩⟩
  · intro vm' u h
    dsimp only [Dir.enter] at h
    by_cases hvm : vm' = vm
    · subst hvm
      rw [update_self] at h
      cases h
      exact ⟨i, hlock, hheld⟩
    · rw [update_of_ne hvm] at h
      exact hs.inside vm' u h
  · intro vm' u h
    dsimp only [Dir.enter] at h
    by_cases hvm : vm' = vm
    · subst hvm
      rw [update_self] at h
      cases h
      simp [Dir.enter, Dir.record, lastLocked]
    · rw [update_of_ne hvm] at h
      have hvm' : vm ≠ vm' := fun e => hvm e.symm
      simp only [Dir.enter, Dir.record, lastLocked, if_neg hvm']
      exact hs.last vm' u h

theorem Core.retireLock (hinside : s.inside vm = some t) (hjson : (s.files vm).json = none) :
    Core s₀ policy (s.retireLock t vm) := by
  have hputs : Puts s vm _ (s.retireLock t vm) := Dir.retireLock_puts
  apply hputs.core hs (Nat.le_refl _) (List.Subset.refl _)
  · intro vm' u hu
    obtain ⟨hvm, hin⟩ := Dir.retireLock_inside hinside hu
    exact ⟨hin, fun e => absurd e hvm⟩
  · nofun
  · exact fun _ => rfl
  · exact hs.legal
  · exact (hs.content vm).symm
  · exact fun _ _ => rfl
  · exact hs.claimPast vm
  · intro p hp
    have hc := hs.claims p hp
    have hnone {c : Claimant} (h : (s.files vm).claim = some c) : False := by
      obtain ⟨st, hst, -⟩ := hc.json vm c h
      cases hjson.symm.trans hst
    apply hputs.claims hc
    · exact fun c h => (hnone h).elim
    · exact fun c h => (hnone h).elim
    · exact hc.vmId vm
    · exact fun vm' c c' _ h => (hnone h).elim
    · intro u l vm' c hg hl hc'
      obtain ⟨l', hl', rfl⟩ := map_eq_some_iff.mp hl
      have hold := hputs.claims_mono (fun _ h => h) hc'
      refine List.mem_filter.mpr ⟨hc.scanned u l' vm' c hg hl' hold, ?_⟩
      apply decide_eq_true
      rintro rfl
      exact hnone (Dir.claims_eq hold).1

section Payload

variable {f : Files} {step : Payload}

omit hs in
theorem Dir.payload_puts : Puts s vm f (s.payload t vm f step) := ⟨rfl, rfl, rfl, rfl, rfl, rfl, rfl, rfl⟩

theorem Core.payload (hlock : f.lock = (s.files vm).lock) (hlegal : LegalPayload s₀ policy t (s.callOf t) vm step s.log)
    (hleft : leftBy s₀ (.payload t (s.callOf t) vm step :: s.log) vm = f.json)
    (hclaim : ∀ c, f.claim = some c → (s.files vm).claim = some c)
    (hjson : ∀ p c, policy = some p → f.claim = some c → ∃ st, f.json = some (.whole st) ∧ p.Matches st c)
    (hvmId : ∀ p st, policy = some p → f.json = some (.whole st) → st.vmId = vm) :
    Core s₀ policy (s.payload t vm f step) := by
  have hputs : Puts s vm f (s.payload t vm f step) := Dir.payload_puts
  apply hputs.core hs (Nat.le_refl _) (List.Subset.refl _)
  · exact fun vm' u hu => ⟨hu, fun _ => hlock⟩
  · intro i hi
    rw [hlock] at hi
    exact .inl hi
  · exact fun _ => rfl
  · exact ⟨hlegal, hs.legal⟩
  · exact hleft
  · exact fun vm' hvm => leftBy_payload_ne hvm _ _ _
  · exact fun c hc => hs.claimPast vm c (hclaim c hc)
  · intro p hp
    have hc := hs.claims p hp
    apply hputs.claims hc
    · intro c hcl
      rw [hlock]
      exact hc.lock vm c (hclaim c hcl)
    · exact fun c hcl => hjson p c hp hcl
    · exact fun st hst => hvmId p st hp hst
    · intro vm' c c' hne hcl hcount hc'
      exact hc.unique vm vm' c c' hne.symm (Dir.claims_of (hclaim c hcl) hcount) hc'
    · exact fun u l vm' c hg hl hc' => hc.scanned u l vm' c hg hl (hputs.claims_mono hclaim hc')

theorem Core.claimRename {c : Content} (hinside : s.inside vm = some t)
    (hlegal : LegalPayload s₀ policy t (s.callOf t) vm (.rename c) s.log)
    (hclaims : ∀ p, policy = some p → ∃ st me call key, c = .whole st ∧ st.vmId = vm ∧ s.calls t = some (me, call) ∧
      p.Matches st ⟨me, key⟩ ∧ s.global p.guard = some t ∧
      ∀ vm' c, vm' ≠ vm → s.claims policy vm' = some c → c.key ≠ key) :
    Core s₀ policy (s.claimRename policy t vm c) := by
  have hputs : Puts s vm _ (s.claimRename policy t vm c) := Dir.claimRename_puts
  have hlog : (s.claimRename policy t vm c).log = _ := Dir.claimRename_log
  apply hputs.core hs (Nat.le_refl _) (List.Subset.refl _)
  · exact fun vm' u hu => ⟨hu, fun _ => rfl⟩
  · exact fun i hi => .inl hi
  · intro vm'
    rw [hlog]
    cases s.claimOf policy t c <;> rfl
  · rw [hlog]
    cases s.claimOf policy t c with
    | none => exact ⟨hlegal, hs.legal⟩
    | some claim => exact ⟨trivial, hlegal, hs.legal⟩
  · rw [hlog]
    cases s.claimOf policy t c <;> simp [leftBy, lastLeft]
  · intro vm' hvm
    rw [hlog]
    cases s.claimOf policy t c <;> exact leftBy_payload_ne hvm _ _ _
  · intro claim hclaim
    cases policy with
    | none => cases c <;> cases hclaim
    | some p =>
      obtain ⟨st, me, call, key, rfl, -, hcall, hmatches, -⟩ := hclaims p rfl
      have heq : s.claimOf (some p) t (.whole st) = some claim := hclaim
      rw [Dir.claimOf_eq hcall hmatches.key] at heq
      cases heq
      exact hs.past me (hs.callAlive t me call hcall)
  · rintro p rfl
    obtain ⟨st, me, call, key, rfl, hvm, hcall, hmatches, hguard, hfresh⟩ := hclaims p rfl
    rw [Dir.claimOf_eq hcall hmatches.key] at hputs
    apply hputs.claims (hs.claims p rfl)
    · intro c _
      obtain ⟨i, hi, -⟩ := hs.inside vm t hinside
      dsimp only
      rw [hi]
      rfl
    · intro c hcl
      cases hcl
      exact ⟨st, rfl, hmatches⟩
    · intro st' hst
      cases hst
      exact hvm
    · intro vm' c c' hne hcl _ hc' heq
      cases hcl
      exact hfresh vm' c' hne hc' heq.symm
    · intro u l vm' c hg hl hc'
      cases hguard.symm.trans hg
      simp only [Dir.claimRename, update_self] at hl
      cases hl

end Payload

theorem Core.beginScan : Core s₀ policy (s.beginScan t) := by
  refine { hs with claims := ?_ }
  intro p hp
  have hc := hs.claims p hp
  refine { hc with scanned := ?_ }
  intro u l vm c hg hl h
  by_cases hu : u = t
  · subst hu
    simp only [Dir.beginScan, update_self] at hl
    cases hl
    have hlock := hc.lock vm c (Dir.claims_eq h).1
    exact List.mem_filter.mpr ⟨hs.known vm hlock, hlock⟩
  · simp only [Dir.beginScan, update_of_ne hu] at hl
    exact hc.scanned u l vm c hg hl h

theorem Core.endScan : Core s₀ policy (s.endScan t) := by
  refine hs.locks rfl rfl rfl rfl rfl rfl (fun vm u j h => ⟨h, fun _ he => he⟩) (fun _ _ h => h) ?_
  intro p u l _ hg hl
  refine ⟨hg, ?_⟩
  by_cases hu : u = t
  · subst hu
    simp only [Dir.endScan, update_self] at hl
    cases hl
  · simp only [Dir.endScan, update_of_ne hu] at hl
    exact hl

theorem Core.lockGlobal {g : Global} : Core s₀ policy (s.lockGlobal t g) := by
  refine hs.locks rfl rfl rfl rfl rfl rfl (fun vm u j h => ⟨h, fun _ he => he⟩) (fun _ _ h => h) ?_
  intro p u l _ hg hl
  by_cases hu : u = t
  · subst hu
    simp only [Dir.lockGlobal, update_self] at hl
    cases hl
  · simp only [Dir.lockGlobal, update_of_ne hu] at hl
    refine ⟨?_, hl⟩
    simp only [Dir.lockGlobal, update_apply] at hg
    split at hg
    · cases hg
      exact absurd rfl hu
    · exact hg

theorem Core.unlockGlobal {g : Global} : Core s₀ policy (s.unlockGlobal t g) := by
  refine hs.locks rfl rfl rfl rfl rfl rfl (fun vm u j h => ⟨h, fun _ he => he⟩) (fun _ _ h => h) ?_
  intro p u l _ hg hl
  refine ⟨?_, hl⟩
  simp only [Dir.unlockGlobal, update_apply] at hg
  split at hg
  · next heq =>
    rw [heq]
    exact (filter_eq_some_iff.mp hg).1
  · exact hg

theorem Core.finish {outcome : Outcome}
    (hlegal : outcome = .ok → LegalReturn policy t (s.calls t) s.log) : Core s₀ policy (s.finish t outcome) := by
  refine { hs with legal := ⟨hlegal, hs.legal⟩, claims := fun p hp => ?_ }
  exact ⟨(hs.claims p hp).lock, (hs.claims p hp).json, (hs.claims p hp).vmId, (hs.claims p hp).unique,
    (hs.claims p hp).scanned⟩

end Fcvm.StateDir
