import Fcvm.StateDir.System

namespace Fcvm.StateDir

open Library List

variable {s₀ : Dir} {w : World} {t : ℕ} {vm : VmId}

theorem obeys_none (w : World) (e : Event) : Obeys none w e := by
  cases e with
  | step t c =>
    intro o k _
    cases o <;> cases c <;> first | trivial | exact nofun
  | call t c =>
    obtain ⟨me, call, fuel⟩ := c
    cases call <;> first | trivial | exact nofun
  | environment e => trivial

theorem lastLocked_append {newer : List Entry} (older : List Entry) (h : ∀ u, .locked u vm ∉ newer) :
    lastLocked (newer ++ older) vm = lastLocked older vm := by
  induction newer with
  | nil => rfl
  | cons e newer ih =>
    have htail : ∀ u, .locked u vm ∉ newer := fun u hu => h u (mem_cons_of_mem _ hu)
    cases e with
    | locked u v =>
      have hne : v ≠ vm := by
        rintro rfl
        exact h u mem_cons_self
      simp only [cons_append, lastLocked, if_neg hne]
      exact ih htail
    | _ => exact ih htail

theorem lastLocked_of_mem {newer : List Entry} (older : List Entry) {u : ℕ} (hu : .locked u vm ∈ newer)
    (ht : .locked t vm ∉ newer) :
    lastLocked (newer ++ older) vm ≠ some t := by
  induction newer with
  | nil => cases hu
  | cons e newer ih =>
    have htail : .locked t vm ∉ newer := fun h => ht (mem_cons_of_mem _ h)
    cases e with
    | locked v vm' =>
      by_cases hvm : vm' = vm
      · subst hvm
        simp only [cons_append, lastLocked, if_true]
        rintro h
        cases h
        exact ht mem_cons_self
      · simp only [cons_append, lastLocked, if_neg hvm]
        apply ih _ htail
        rcases mem_cons.mp hu with h | h
        · cases h
          exact absurd rfl hvm
        · exact h
    | _ =>
      apply ih _ htail
      rcases mem_cons.mp hu with h | h
      · cases h
      · exact h

theorem payload_exclusive {between older : List Entry} {call : Option Call} {step : Payload} {policy : Option Policy}
    (h : Always (Legal s₀ policy) (.payload t call vm step :: (between ++ .locked t vm :: older)))
    (hlock : .locked t vm ∉ between) {u : ℕ} {call' : Option Call} {step' : Payload}
    (hmem : .payload u call' vm step' ∈ between) : u = t := by
  have hnone : ∀ v, .locked v vm ∉ between := fun v hv => lastLocked_of_mem _ hv hlock h.1.locked
  obtain ⟨newer, rest, rfl⟩ := append_of_mem hmem
  have hlegal : Always (Legal s₀ policy) (newer ++ .payload u call' vm step' :: (rest ++ .locked t vm :: older)) := by
    have := h.2
    rwa [append_assoc, cons_append] at this
  have hlast : lastLocked (rest ++ .locked t vm :: older) vm = some u := hlegal.at_split.locked
  rw [lastLocked_append _ fun v hv => hnone v (by simp [hv])] at hlast
  simpa [lastLocked] using hlast.symm

theorem mem_of_lastLocked {log : List Entry} (h : lastLocked log vm = some t) : .locked t vm ∈ log := by
  by_contra hnot
  by_cases hother : ∃ u, .locked u vm ∈ log
  · obtain ⟨u, hu⟩ := hother
    have hne := lastLocked_of_mem [] hu hnot
    rw [append_nil] at hne
    exact hne h
  · have hnone := lastLocked_append [] fun u hu => hother ⟨u, hu⟩
    rw [append_nil, h] at hnone
    cases hnone

/-- A payload step is made under a validated lock, and from that lock on no other thread has made one; every update
writes what it makes of the state that the writer before it left, and nothing where there is none; and an update that
returns a state has written it. -/
theorem state_locking_sound (hs₀ : Settled none s₀) (h : (system none s₀).Reachable w) :
    (∀ newer older t call vm step, w.shared.log = newer ++ .payload t call vm step :: older → .locked t vm ∈ older) ∧
    (∀ newer between older t call vm step,
      w.shared.log = newer ++ .payload t call vm step :: (between ++ .locked t vm :: older) →
      .locked t vm ∉ between → ∀ u call' step', .payload u call' vm step' ∈ between → u = t) ∧
    (∀ vm, (w.shared.files vm).json = leftBy s₀ w.shared.log vm) ∧
    (∀ newer older t vm vm' mutate c,
      w.shared.log = newer ++ .payload t (some (.updateState vm' mutate)) vm (.rename c) :: older →
      ∃ st, leftBy s₀ older vm = some (.whole st) ∧ c = .whole (mutate st)) ∧
    (∀ newer older t me vm mutate,
      w.shared.log = newer ++ .returned t (some (me, .updateState vm mutate)) .ok :: older →
      ∃ c, .payload t (some (.updateState vm mutate)) vm (.rename c) ∈ older) := by
  have hcore := (good_of_reachable hs₀ ((System.ReachableBy.of_reachable h).mono fun w e _ => obeys_none w e)).inv.core
  have hlegal := hcore.legal
  refine ⟨?_, ?_, hcore.content, ?_, ?_⟩
  · intro newer older t call vm step hlog
    rw [hlog] at hlegal
    exact mem_of_lastLocked hlegal.at_split.locked
  · intro newer between older t call vm step hlog hlock u call' step' hmem
    rw [hlog] at hlegal
    exact payload_exclusive hlegal.older hlock hmem
  · intro newer older t vm vm' mutate c hlog
    rw [hlog] at hlegal
    exact hlegal.at_split.update vm' mutate c rfl rfl
  · intro newer older t me vm mutate hlog
    rw [hlog] at hlegal
    exact (hlegal.at_split rfl).update me vm mutate rfl

def vmFiles (lock : Option ℕ) (json : Option Content) : Files := ⟨lock, json, none, none⟩

def oneVm : Dir where
  files vm := if vm = "vm" then vmFiles (some 0) (some (.whole ⟨"vm", none, some 7, some 1, none, 0⟩))
    else vmFiles none none
  known := ["vm"]
  nextInode := 1
  exclusive _ := none
  shared _ := []
  inside _ := none
  global _ := none
  procs pid := if pid = 7 then some ⟨1, false⟩ else if pid = 8 then some ⟨2, false⟩ else none
  past := [(7, 1), (8, 2)]
  calls _ := none
  scans _ := none
  writer _ := none
  view _ := ⟨fun _ => none, fun _ => false⟩
  log := []

theorem oneVm_settled (policy : Option Policy) : Settled policy oneVm := by
  have hlock {vm : VmId} {i : ℕ} (h : (oneVm.files vm).lock = some i) : vm = "vm" ∧ i = 0 := by
    simp only [oneVm, vmFiles] at h
    split at h
    · next hvm =>
      cases h
      exact ⟨hvm, rfl⟩
    · cases h
  refine ⟨fun _ => rfl, fun _ => rfl, fun _ => rfl, fun _ => rfl, fun _ => rfl, rfl, ?_, ?_, ?_, ?_, ?_, ?_,
    fun _ _ => rfl⟩
  · intro vm
    simp only [oneVm, vmFiles]
    split <;> rfl
  · intro vm i h
    rw [(hlock h).2]
    decide
  · intro vm vm' i h h'
    rw [(hlock h).1, (hlock h').1]
  · intro vm h
    obtain ⟨i, hi⟩ := Option.isSome_iff_exists.mp h
    rw [(hlock hi).1]
    exact mem_cons_self
  · rintro ⟨pid, start⟩ h
    have hp := Dir.alive_eq h
    simp only [oneVm] at hp ⊢
    split at hp
    · next hpid =>
      cases hp
      simp [hpid]
    · split at hp
      · next hpid =>
        cases hp
        simp [hpid]
      · cases hp
  · intro _ vm st h
    simp only [oneVm, vmFiles] at h
    split at h
    · next hvm =>
      cases h
      exact hvm.symm
    · cases h

def countUp : Call := .updateState "vm" fun st => { st with rest := st.rest + 1 }

/-- Two processes count in one state: the second waits, and adds to what the first has left. -/
theorem state_locking_sound_two_updates : ∃ w, (system none oneVm).Reachable w ∧
    (w.shared.files "vm").json = some (.whole ⟨"vm", none, some 7, some 1, none, 2⟩) ∧
    ∀ vm, (w.shared.files vm).json = leftBy oneVm w.shared.log vm := by
  have hrun : ((system none oneVm).exec ⟨oneVm, fun _ => none⟩
      ([.call 0 ((7, 1), countUp, 1), .call 1 ((8, 2), countUp, 1)] ++ .replicate 4 (.step 0 .ok) ++
        .replicate 3 (.step 1 .ok) ++ .replicate 6 (.step 0 .ok) ++ .replicate 7 (.step 1 .ok))).map
      (fun w => (w.shared.files "vm").json) = some (some (.whole ⟨"vm", none, some 7, some 1, none, 2⟩)) := by
    decide +kernel
  obtain ⟨w, hw, hjson⟩ := Option.map_eq_some_iff.mp hrun
  have hstart : (system none oneVm).Reachable ⟨oneVm, fun _ => none⟩ := .initial ⟨rfl, fun _ => rfl⟩
  have hreach := hstart.exec hw
  exact ⟨w, hreach, hjson, (state_locking_sound (oneVm_settled none) hreach).2.2.1⟩

end Fcvm.StateDir
