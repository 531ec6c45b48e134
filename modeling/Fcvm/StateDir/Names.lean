import Fcvm.StateDir.Locking

namespace Fcvm.StateDir

open Library

def NameCall : Call → Prop
  | .saveState _ => False
  | .allocateLoopbackIp _ => False
  | .updateState _ mutate => ∀ st, (mutate st).vmId = st.vmId ∧ (mutate st).name = st.name ∧
    (mutate st).pid = st.pid ∧ (mutate st).pidStartTime = st.pidStartTime
  | _ => True

/-- What a name check reads: the directory, the states it lists and the processes they name. -/
def Op.checksName : Op → Bool
  | .dirExists .nameCheck => true
  | .readJson _ (some .nameCheck) => true
  | .stat _ => true
  | _ => false

def NameEvent (w : World) : Event → Prop
  | .step t .error => ∀ o k, w.threads t = some (.op o k) → o.checksName = false
  | .call _ (_, call, _) => NameCall call
  | _ => True

theorem NameEvent.obeys {w : World} {e : Event} (h : NameEvent w e) : Obeys (some namePolicy) w e := by
  cases e with
  | step t c =>
    intro o k hop
    cases c with
    | ok => cases o <;> trivial
    | entries list => cases o <;> trivial
    | error =>
      have hnot := h o k hop
      cases o with
      | readJson vm listed =>
        intro p hp hlisted
        cases hp
        subst hlisted
        cases hnot
      | dirExists purpose =>
        intro p hp hpurpose
        cases hp
        subst hpurpose
        cases hnot
      | stat pid => cases hnot
      | openDir | readDir =>
        intro p hp hguard
        cases hp
        cases hguard
      | _ => trivial
  | call t c =>
    obtain ⟨me, call, fuel⟩ := c
    cases call with
    | saveState st => exact absurd h id
    | allocateLoopbackIp st => exact absurd h id
    | updateState vm mutate =>
      rintro p ⟨⟩
      refine ⟨fun st => (h st).1, ?_⟩
      intro st c hmatches
      obtain ⟨-, hname, hpid, hstart⟩ := h st
      refine ⟨?_, fun hlive => ⟨?_, ?_⟩⟩
      · rw [← hmatches.key]
        exact hname
      · rw [hpid, (hmatches.owned hlive).1]
      · rw [hstart]
        exact (hmatches.owned hlive).2
    | claimName st =>
      rintro p ⟨⟩
      exact .inl rfl
    | deleteState vm => trivial
    | cleanupStaleState => trivial
    | withLockedState vm => trivial
  | environment e => trivial

/-- No two VMs have the same name while their processes live; each that has claimed one has a state with that name and
process; a call that returns `Ok` has claimed; and the state of a live VM is deleted by `delete_state` alone. -/
theorem live_names_unique {s₀ : Dir} {w : World} (hs₀ : Settled (some namePolicy) s₀)
    (h : (system (some namePolicy) s₀).ReachableBy NameEvent w) :
    (∀ vm vm' c c', vm ≠ vm' → heldBy w.shared.log vm = some c → heldBy w.shared.log vm' = some c' →
      w.shared.alive c.owner = true → w.shared.alive c'.owner = true → c.key ≠ c'.key) ∧
    (∀ vm c, heldBy w.shared.log vm = some c →
      ∃ st, (w.shared.files vm).json = some (.whole st) ∧ st.vmId = vm ∧ st.name = some c.key ∧ st.OwnedBy c) ∧
    (∀ newer older t me st name, w.shared.log = newer ++ .returned t (some (me, .claimName st)) .ok :: older →
      st.name = some name → .claimed t st.vmId ⟨me, name⟩ ∈ older) ∧
    (∀ newer older t call vm, w.shared.log = newer ++ .payload t call vm (.unlinkJson true) :: older →
      ∃ vm', call = some (.deleteState vm')) := by
  have hgood := good_of_reachable hs₀ (h.mono fun _ _ => NameEvent.obeys)
  have hclaims := hgood.inv.core.claims namePolicy rfl
  have hlegal := hgood.inv.core.legal
  refine ⟨?_, ?_, ?_, ?_⟩
  · intro vm vm' c c' hne hc hc' hlive hlive'
    rw [← hgood.held rfl] at hc hc'
    exact hclaims.unique vm vm' c c' hne (Dir.claims_of hc hlive) (Dir.claims_of hc' hlive')
  · intro vm c hc
    rw [← hgood.held rfl] at hc
    obtain ⟨st, hjson, hmatches⟩ := hclaims.json vm c hc
    exact ⟨st, hjson, hclaims.vmId vm st hjson, hmatches.key, hmatches.owned rfl⟩
  · intro newer older t me st name hlog hname
    rw [hlog] at hlegal
    exact (hlegal.at_split rfl).name namePolicy me st name rfl rfl rfl hname
  · intro newer older t call vm hlog
    rw [hlog] at hlegal
    exact hlegal.at_split.deleted namePolicy rfl rfl rfl

def noVm : Dir := { oneVm with files := fun _ => vmFiles none none, known := [] }

theorem noVm_settled (policy : Option Policy) : Settled policy noVm where
  calls _ := rfl
  exclusive _ := rfl
  inside _ := rfl
  global _ := rfl
  writer _ := rfl
  log := rfl
  claim _ := rfl
  lockBound _ _ h := by cases h
  lockInj _ _ _ h := by cases h
  known _ h := by cases h
  past := (oneVm_settled policy).past
  vmId _ _ _ h := by cases h
  unseen _ _ := rfl

def claimRun (t : ℕ) (me : Ident) (vm : VmId) (name : String) (listed listed' : List DirEntry) (checks saves : ℕ) :
    List Event :=
  .call t (me, .claimName ⟨vm, some name, none, none, none, 0⟩, 1) :: List.map (.step t)
    ([.ok, .entries [], .ok, .ok, .entries listed] ++ .replicate (checks + 3) .ok ++ [.entries listed'] ++
      .replicate saves .ok)

theorem claimRun_nameEvent {t : ℕ} {me : Ident} {vm : VmId} {name : String} {listed listed' : List DirEntry}
    {checks saves : ℕ} {e : Event} (he : e ∈ claimRun t me vm name listed listed' checks saves) (w : World) :
    NameEvent w e := by
  rcases List.mem_cons.mp he with rfl | he
  · trivial
  · obtain ⟨c, hc, rfl⟩ := List.mem_map.mp he
    cases c with
    | error => simp at hc
    | _ => trivial

/-- Two processes, each with a VM and a name of its own. -/
theorem live_names_unique_two : ∃ w, (system (some namePolicy) noVm).ReachableBy NameEvent w ∧
    heldBy w.shared.log "a" = some ⟨(7, 1), "web"⟩ ∧ heldBy w.shared.log "b" = some ⟨(8, 2), "db"⟩ ∧
    ∃ st, (w.shared.files "a").json = some (.whole st) ∧ st.vmId = "a" ∧ st.name = some "web" ∧
      st.OwnedBy ⟨(7, 1), "web"⟩ := by
  have hrun : ((system (some namePolicy) noVm).exec ⟨noVm, fun _ => none⟩
      (claimRun 0 (7, 1) "a" "web" [] [] 0 11 ++ claimRun 1 (8, 2) "b" "db" [.lock "a"] [.lock "a"] 1 12)).map
      (fun w => (heldBy w.shared.log "a", heldBy w.shared.log "b")) =
      some (some ⟨(7, 1), "web"⟩, some ⟨(8, 2), "db"⟩) := by
    decide +kernel
  obtain ⟨w, hw, hheld⟩ := Option.map_eq_some_iff.mp hrun
  simp only [Prod.mk.injEq] at hheld
  have hstart : (system (some namePolicy) noVm).ReachableBy NameEvent ⟨noVm, fun _ => none⟩ :=
    .initial ⟨rfl, fun _ => rfl⟩
  have hreach := hstart.exec (fun w e he => (List.mem_append.mp he).elim (claimRun_nameEvent · w)
    (claimRun_nameEvent · w)) hw
  exact ⟨w, hreach, hheld.1, hheld.2, (live_names_unique (noVm_settled _) hreach).2.1 "a" _ hheld.1⟩

def disownRun (t : ℕ) (me : Ident) (vm : VmId) : List Event :=
  .call t (me, .updateState vm fun st => { st with pid := some 9 }, 1) :: .replicate 11 (.step t .ok)

def Entry.deletesFor (t : ℕ) (vm : VmId) : Entry → Bool
  | .payload u (some (.claimName _)) v (.unlinkJson true) => u = t ∧ v = vm
  | _ => false

def Entry.claimsFor (t : ℕ) : Entry → Bool
  | .returned u (some (_, .claimName _)) .ok => u = t
  | _ => false

/-- An update that records another process: the next claim of the name deletes the state of a VM that lives. -/
theorem live_state_deleted_by_claim : ∃ w,
    (system (some namePolicy) noVm).exec ⟨noVm, fun _ => none⟩
      (claimRun 0 (7, 1) "a" "web" [] [] 0 11 ++ disownRun 1 (7, 1) "a" ++
        claimRun 2 (8, 2) "b" "web" [.lock "a"] [] 9 11) = some w ∧
    w.shared.log.any (Entry.claimsFor 0) = true ∧ w.shared.log.any (Entry.deletesFor 2 "a") = true ∧
    w.shared.alive (7, 1) = true := by
  have hrun : ((system (some namePolicy) noVm).exec ⟨noVm, fun _ => none⟩
      (claimRun 0 (7, 1) "a" "web" [] [] 0 11 ++ disownRun 1 (7, 1) "a" ++
        claimRun 2 (8, 2) "b" "web" [.lock "a"] [] 9 11)).map
      (fun w => (w.shared.log.any (Entry.claimsFor 0), w.shared.log.any (Entry.deletesFor 2 "a"),
        w.shared.alive (7, 1))) = some (true, true, true) := by
    decide +kernel
  obtain ⟨w, hw, hend⟩ := Option.map_eq_some_iff.mp hrun
  simp only [Prod.mk.injEq] at hend
  exact ⟨w, hw, hend⟩

end Fcvm.StateDir
