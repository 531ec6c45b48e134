import Fcvm.StateDir.Names

namespace Fcvm.StateDir

open Library

/-- The calls among which addresses are unique. A VM's state is written by one call at a time, and a save is of the
state that the VM's allocation gave. -/
def AddressCall (s : Dir) : Call → Prop
  | .saveState st | .claimName st =>
    s.writer st.vmId = none ∧ ∀ c, heldBy s.log st.vmId = some c → st.loopbackIp = some c.key
  | .allocateLoopbackIp st => s.writer st.vmId = none
  | .updateState _ mutate => ∀ st, (mutate st).vmId = st.vmId ∧ (mutate st).loopbackIp = st.loopbackIp
  | _ => True

def Op.allocates : Op → Bool
  | .readJson _ (some .allocation) => true
  | .dirExists .allocation => true
  | .openDir .allocation => true
  | .readDir .allocation => true
  | _ => false

def AddressEvent (w : World) : Event → Prop
  | .step t .error => ∀ o k, w.threads t = some (.op o k) → o.allocates = false
  | .call _ (_, call, _) => AddressCall w.shared call
  | _ => True

theorem AddressEvent.obeys {w : World} {e : Event} (hheld : ∀ vm, (w.shared.files vm).claim = heldBy w.shared.log vm)
    (h : AddressEvent w e) : Obeys (some loopbackPolicy) w e := by
  cases e with
  | step t c =>
    intro o k hop
    cases c with
    | ok => cases o <;> trivial
    | entries list => cases o <;> trivial
    | error =>
      have hnot := h o k hop
      cases o with
      | readJson vm listed =>
        intro p hp hlisted
        cases hp
        subst hlisted
        cases hnot
      | dirExists purpose =>
        intro p hp hpurpose
        cases hp
        subst hpurpose
        cases hnot
      | stat pid =>
        rintro p ⟨⟩
        rfl
      | openDir | readDir =>
        intro p hp _ hpurpose
        subst hpurpose
        cases hnot
      | _ => trivial
  | call t c =>
    obtain ⟨me, call, fuel⟩ := c
    cases call with
    | saveState st =>
      rintro p ⟨⟩
      exact ⟨rfl, h.1, by rw [hheld]; exact h.2⟩
    | claimName st =>
      rintro p ⟨⟩
      exact .inr ⟨rfl, h.1, by rw [hheld]; exact h.2⟩
    | allocateLoopbackIp st =>
      rintro p ⟨⟩
      exact ⟨rfl, h⟩
    | updateState vm mutate =>
      rintro p ⟨⟩
      refine ⟨fun st => (h st).1, ?_⟩
      intro st c hmatches
      refine ⟨?_, nofun⟩
      rw [← hmatches.key]
      exact (h st).2
    | deleteState vm => trivial
    | cleanupStaleState => trivial
    | withLockedState vm => trivial
  | environment e => trivial

theorem obeys_of_addressEvent {s₀ : Dir} {w : World} (hs₀ : Settled (some loopbackPolicy) s₀)
    (h : (system (some loopbackPolicy) s₀).ReachableBy AddressEvent w) :
    (system (some loopbackPolicy) s₀).ReachableBy (Obeys (some loopbackPolicy)) w := by
  induction h with
  | initial h => exact .initial h
  | next _ hevent hnext ih => exact ih.next (hevent.obeys ((good_of_reachable hs₀ ih).held rfl)) hnext

/-- No two VMs hold the same address, whether their processes live or not; each that holds one has a state with it; and
an allocation that returns `Ok` has given one. -/
theorem loopback_ips_unique {s₀ : Dir} {w : World} (hs₀ : Settled (some loopbackPolicy) s₀)
    (h : (system (some loopbackPolicy) s₀).ReachableBy AddressEvent w) :
    (∀ vm vm' c c', vm ≠ vm' → heldBy w.shared.log vm = some c → heldBy w.shared.log vm' = some c' → c.key ≠ c'.key) ∧
    (∀ vm c, heldBy w.shared.log vm = some c →
      ∃ st, (w.shared.files vm).json = some (.whole st) ∧ st.vmId = vm ∧ st.loopbackIp = some c.key) ∧
    (∀ newer older t me st, w.shared.log = newer ++ .returned t (some (me, .allocateLoopbackIp st)) .ok :: older →
      ∃ ip, .claimed t st.vmId ⟨me, ip⟩ ∈ older) := by
  have hgood := good_of_reachable hs₀ (obeys_of_addressEvent hs₀ h)
  have hclaims := hgood.inv.core.claims loopbackPolicy rfl
  have hlegal := hgood.inv.core.legal
  refine ⟨?_, ?_, ?_⟩
  · intro vm vm' c c' hne hc hc'
    rw [← hgood.held rfl] at hc hc'
    exact hclaims.unique vm vm' c c' hne (Dir.claims_of hc rfl) (Dir.claims_of hc' rfl)
  · intro vm c hc
    rw [← hgood.held rfl] at hc
    obtain ⟨st, hjson, hmatches⟩ := hclaims.json vm c hc
    exact ⟨st, hjson, hclaims.vmId vm st hjson, hmatches.key⟩
  · intro newer older t me st hlog
    rw [hlog] at hlegal
    exact (hlegal.at_split rfl).address loopbackPolicy me st rfl rfl rfl

def Entry.allocatedFor (t : ℕ) : Entry → Bool
  | .returned u (some (_, .allocateLoopbackIp _)) .ok => u = t
  | _ => false

def allocationRun (t : ℕ) (me : Ident) (vm : VmId) (scan : List Choice) (rest : ℕ) : List Event :=
  .call t (me, .allocateLoopbackIp ⟨vm, none, none, none, none, 0⟩, 1) :: List.map (.step t)
    ([.ok, .entries []] ++ scan ++ .replicate rest .ok)

theorem allocationRun_reachable {s₀ : Dir} {w w' : World} {t : ℕ} {me : Ident} {vm : VmId} {scan : List Choice}
    {rest : ℕ} (hw : (system (some loopbackPolicy) s₀).ReachableBy AddressEvent w) (hfree : w.shared.writer vm = none)
    (hscan : .error ∉ scan)
    (h : (system (some loopbackPolicy) s₀).exec w (allocationRun t me vm scan rest) = some w') :
    (system (some loopbackPolicy) s₀).ReachableBy AddressEvent w' := by
  obtain ⟨w₁, h₁, hrest⟩ := Option.bind_eq_some_iff.mp h
  have hcall : AddressEvent w (.call t (me, .allocateLoopbackIp ⟨vm, none, none, none, none, 0⟩, 1)) := hfree
  apply (hw.next hcall h₁).exec _ hrest
  intro w e he
  obtain ⟨c, hc, rfl⟩ := List.mem_map.mp he
  cases c with
  | error => simp [hscan] at hc
  | _ => trivial

/-- An allocation, and another that finds what the first has taken. -/
theorem loopback_ips_unique_two : ∃ w, (system (some loopbackPolicy) noVm).ReachableBy AddressEvent w ∧
    heldBy w.shared.log "a" = some ⟨(7, 1), "127.0.0.2"⟩ ∧ heldBy w.shared.log "b" = some ⟨(8, 2), "127.0.0.3"⟩ ∧
    ∃ st, (w.shared.files "a").json = some (.whole st) ∧ st.vmId = "a" ∧ st.loopbackIp = some "127.0.0.2" := by
  have hrun : (((system (some loopbackPolicy) noVm).exec ⟨noVm, fun _ => none⟩
      (allocationRun 0 (7, 1) "a" [.ok, .ok, .entries []] 10)).bind fun w₁ =>
        ((system (some loopbackPolicy) noVm).exec w₁
          (allocationRun 1 (8, 2) "b" [.ok, .ok, .entries [.lock "a"]] 11)).map fun w =>
            (w₁.shared.writer "b", heldBy w.shared.log "a", heldBy w.shared.log "b")) =
      some (none, some ⟨(7, 1), "127.0.0.2"⟩, some ⟨(8, 2), "127.0.0.3"⟩) := by
    decide +kernel
  obtain ⟨w₁, h₁, hrest⟩ := Option.bind_eq_some_iff.mp hrun
  obtain ⟨w, hw, hheld⟩ := Option.map_eq_some_iff.mp hrest
  simp only [Prod.mk.injEq] at hheld
  have hstart : (system (some loopbackPolicy) noVm).ReachableBy AddressEvent ⟨noVm, fun _ => none⟩ :=
    .initial ⟨rfl, fun _ => rfl⟩
  have hfirst := allocationRun_reachable hstart rfl (by decide) h₁
  have hreach := allocationRun_reachable hfirst hheld.1 (by decide) hw
  exact ⟨w, hreach, hheld.2.1, hheld.2.2, (loopback_ips_unique (noVm_settled _) hreach).2.1 "a" _ hheld.2.1⟩

/-- The scan of the second allocation fails, and it takes the address that the first has. -/
theorem loopback_ip_given_twice : ∃ w, (system (some loopbackPolicy) noVm).Reachable w ∧
    heldBy w.shared.log "a" = some ⟨(7, 1), "127.0.0.2"⟩ ∧ heldBy w.shared.log "b" = some ⟨(8, 2), "127.0.0.2"⟩ ∧
    w.shared.log.any (Entry.allocatedFor 0) = true ∧ w.shared.log.any (Entry.allocatedFor 1) = true ∧
    w.shared.alive (7, 1) = true ∧ w.shared.alive (8, 2) = true := by
  have hrun : ((system (some loopbackPolicy) noVm).exec ⟨noVm, fun _ => none⟩
      (allocationRun 0 (7, 1) "a" [.ok, .ok, .entries []] 10 ++ allocationRun 1 (8, 2) "b" [.ok, .error] 10)).map
      (fun w => (heldBy w.shared.log "a", heldBy w.shared.log "b", w.shared.log.any (Entry.allocatedFor 0),
        w.shared.log.any (Entry.allocatedFor 1), w.shared.alive (7, 1), w.shared.alive (8, 2))) =
      some (some ⟨(7, 1), "127.0.0.2"⟩, some ⟨(8, 2), "127.0.0.2"⟩, true, true, true, true) := by
    decide +kernel
  obtain ⟨w, hw, hend⟩ := Option.map_eq_some_iff.mp hrun
  simp only [Prod.mk.injEq] at hend
  have hstart : (system (some loopbackPolicy) noVm).Reachable ⟨noVm, fun _ => none⟩ := .initial ⟨rfl, fun _ => rfl⟩
  exact ⟨w, hstart.exec hw, hend⟩

end Fcvm.StateDir
