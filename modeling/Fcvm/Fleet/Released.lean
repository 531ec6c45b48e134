import Fcvm.Fleet.Delivered
import Fcvm.Fleet.Lineage

namespace Fcvm.Fleet

open Library Option

namespace World

/-- A report is taken only while its GPU is not quarantined under another one, a connection's hello only while no newer
connection of its host has been greeted, and a release is applied only to a state that has every report of the GPU that
the coordinator applied. -/
def Orderly (w : World) : Step → Prop
  | .take c _ _ => ∀ a k, w.coordinator.actor = some a → w.conns c = some k →
      (∀ sbdf error r up, k.up = .quarantine sbdf error r :: up →
        ∀ q, a.state.quarantined (gpuKey ⟨k.host, sbdf⟩) = some q → q.report = some r) ∧
      ∀ host up, k.greeted = false → k.up = .hello host :: up → w.Current c k
  | .release g _ _ => ∀ a, w.coordinator.actor = some a → ∀ r t, (g, r, t) ∈ w.coordinator.applied →
      ∃ again, .reported g (some r) again ∈ a.state.history
  | _ => True

def AllSettled (k : Coordinator) : Prop := ∀ s, k.Stands s → Settled k.applied k.clock s

section Steps

variable {w w' : World} {k k' : Coordinator}

theorem AllSettled.same (h : AllSettled k) (hs : k.SameStates k') (happlied : k'.applied = k.applied)
    (hclock : k'.clock = k.clock ∨ k'.clock = k.clock + 1) : AllSettled k' := by
  intro s' hs'
  obtain ⟨s, hstands, hsame⟩ := hs s' hs'
  rw [happlied]
  rcases hclock with heq | heq
  · rw [heq]
    exact (h s hstands).of_same hsame
  · rw [heq]
    exact (h s hstands).later.of_same hsame

theorem AllSettled.apply {a a' : Actor} (h : AllSettled k) (ha : k.actor = some a) (ha' : k'.actor = some a')
    (hdisk : k'.disk = k.disk) (hwriter : k'.writer = k.writer)
    (hold : ∀ s, Settled k.applied k.clock s → Settled k'.applied k'.clock s)
    (hnew : Settled k.applied k.clock a.state → Settled k'.applied k'.clock a'.state) : AllSettled k' := by
  rintro s (rfl | hs | ⟨a₂, ha₂, rfl⟩)
  · unfold Coordinator.base
    rw [hdisk]
    exact hold _ (h _ (.inl rfl))
  · unfold Coordinator.pending at hs
    rw [hwriter] at hs
    exact hold s (h s (.inr (.inl hs)))
  · cases ha'.symm.trans ha₂
    exact hnew (h _ (.inr (.inr ⟨a, ha, rfl⟩)))

theorem AllSettled.turn (h : AllSettled w.coordinator) (hl : Linked w) (ho : Ordered w) {step : Step}
    (hC : w.Orderly step) (ht : Turn w step w') : AllSettled w'.coordinator := by
  cases ht with
  | said | connected | lost | framed => exact h
  | passed hp => exact h.same hp.states hp.applied hp.clock
  | @reported _ _ _ a k sbdf error r up host ha hk hserved hup hlookup =>
    have hnewest := ho.accepted hl ha hk hserved hup hlookup
    obtain ⟨-, rfl⟩ := hl.lookup_host ha hk hlookup
    refine h.apply ha rfl rfl rfl (fun s hs => hs.mono _ r) ?_
    intro hs
    exact hs.quarantine error r hnewest ((hC a k ha hk).1 sbdf error r up hup)
  | greeted ha => exact h.same (Coordinator.SameStates.applyOther ha _ _ _) rfl (.inr rfl)
  | released ha => exact h.apply ha rfl rfl rfl (fun s hs => hs.later) (fun hs => hs.release (hC _ ha))
  | restarted => exact h.same (Coordinator.SameStates.restart _) rfl (.inl rfl)

theorem AllSettled.initial : AllSettled World.initial.coordinator := by
  rintro s (rfl | hs | ⟨a, ha, -⟩)
  · exact Settled.new
  · cases hs
  · cases ha

end Steps

theorem ordered {w : World} (h : composition.ReachableBy Orderly w) : Ordered w ∧ AllSettled w.coordinator := by
  induction h with
  | initial h =>
    cases h
    exact ⟨Ordered.initial, AllSettled.initial⟩
  | @next w w' step hw hC hnext ih =>
    obtain ⟨ho, hs⟩ := ih
    have hl := linked hw.reachable
    have ht := turn_of_next hl hnext
    refine ⟨ho.turn hl ht ?_, hs.turn hl ho hC ht⟩
    rintro c now moved k host up rfl hk hgreeted hup
    obtain ⟨a, k', l, up', ha, hk', -⟩ := take_cases hnext
    exact (hC a k ha hk).2 host up hgreeted hup

end World

/-- In a run of such steps a report that the coordinator applied before a release of its GPU, a release in the past of
the state in force, does not quarantine the GPU when it is delivered again. -/
theorem release_not_undone {w w' : World} {a a' : Actor} {k : Conn} {c now moved r t t' : ℕ} {ended : Bool}
    {sbdf : Sbdf}
    {error : String} {up : List Line} (h : composition.ReachableBy World.Orderly w)
    (ha : w.coordinator.actor = some a) (hk : w.conns c = some k) (hup : k.up = .quarantine sbdf error r :: up)
    (happlied : (⟨k.host, sbdf⟩, r, t) ∈ w.coordinator.applied)
    (hreleased : .released ⟨k.host, sbdf⟩ t' ended ∈ a.state.history) (hlater : t < t')
    (hnext : w.next (.take c now moved) = some w') (ha' : w'.coordinator.actor = some a')
    (hnone : a.state.quarantined (gpuKey ⟨k.host, sbdf⟩) = none) :
    a'.state.quarantined (gpuKey ⟨k.host, sbdf⟩) = none := by
  have hl := World.linked h.reachable
  obtain ⟨ho, hs⟩ := World.ordered h
  have hsettled := hs a.state (.inr (.inr ⟨a, ha, rfl⟩))
  obtain ⟨a₂, k₂, l, up₂, ha₂, hk₂, hserved, hup₂, hcase⟩ := World.take_cases hnext
  cases ha.symm.trans ha₂
  cases hk.symm.trans hk₂
  cases hup.symm.trans hup₂
  rcases hcase with ⟨-, rfl⟩ | ⟨-, host, heq, -⟩ | ⟨-, -, rfl⟩
  · dsimp only at ha'
    rcases World.agentMsg_cases w.coordinator a c (.quarantine sbdf error r) now moved with
      ⟨-, heq⟩ | ⟨host, hlookup, ⟨_, _, _, hquarantine, heq⟩ | ⟨hne, -⟩⟩
    · rw [heq] at ha'
      cases ha.symm.trans ha'
      exact hnone
    · cases hquarantine
      have hnewest := ho.accepted hl ha hk hserved hup hlookup
      obtain ⟨-, rfl⟩ := hl.lookup_host ha hk hlookup
      obtain ⟨again, hpast⟩ := hsettled.lineage _ t' ended hreleased r t happlied hlater
      rw [heq] at ha'
      cases ha'
      simp only [State.apply, State.applyInner, hsettled.not_again hpast hnewest hnone error now]
      exact hnone
    · exact absurd rfl (hne sbdf error r)
  · cases heq
  · cases ha.symm.trans ha'
    exact hnone

def World.orderly (w : World) : Step → Bool
  | .take c _ _ =>
    w.nextConn = c + 1 ∧ w.coordinator.actor.all fun a => (w.conns c).all fun k =>
      match k.up with
      | .quarantine sbdf _ r :: _ => (a.state.quarantined (gpuKey ⟨k.host, sbdf⟩)).all fun q => q.report = some r
      | _ => true
  | .release g _ _ =>
    w.coordinator.actor.all fun a => w.coordinator.applied.all fun x =>
      x.1 ≠ g ∨ a.state.history.any fun past => match past with
        | .reported g' report _ => g' = g ∧ report = some x.2.1
        | _ => false
  | _ => true

theorem World.orderly_sound {w : World} {step : Step} (hl : Linked w) (h : w.orderly step = true) : w.Orderly step := by
  cases step with
  | take c now moved =>
    intro a k ha hk
    simp only [World.orderly, ha, hk, all_some, decide_eq_true_eq] at h
    refine ⟨?_, ?_⟩
    · intro sbdf error r up hup q hq
      simpa [hup, hq] using h.2
    · intro _ _ _ _ c' k' hlt hk'
      have hbound := hl.conns c' (by rw [hk']; exact some_ne_none k')
      omega
  | release g now moved =>
    intro a ha r t hmem
    simp only [World.orderly, ha, all_some, List.all_eq_true, decide_eq_true_eq] at h
    obtain ⟨past, hpast, hreport⟩ := List.any_eq_true.mp ((h _ hmem).resolve_left (fun hne => hne rfl))
    cases past with
    | released => cases hreport
    | reported g' report again =>
      obtain ⟨rfl, rfl⟩ := of_decide_eq_true hreport
      exact ⟨again, hpast⟩
  | report | line | connect | lose | frame | send | cut | close | other | storeTick | written | shutdownStore
  | writerTake | writerLand | writerFinish | kill | restart => trivial

def failed : Sbdf := ⟨"0000:1a:00.0", by decide⟩

def beginning : List Step := [.restart 0, .line "h" (.hello "h"), .connect "h" [.hello "h"], .take 0 0 0]

def reporting : List Step := [.report "h" failed "", .take 0 0 0]

def replaying (report : ℕ) : List Step :=
  [.release ⟨"h", failed⟩ 0 0, .lose "h", .connect "h" [.hello "h", .quarantine failed "" report], .take 1 0 0]

/-- A report that was released and is replayed over a new connection. -/
theorem release_not_undone_by_replay : ∃ w w' a', composition.ReachableBy World.Orderly w ∧
    w.next (.take 1 0 0) = some w' ∧ w'.coordinator.applied = [(⟨"h", failed⟩, 0, 4), (⟨"h", failed⟩, 0, 1)] ∧
    w'.coordinator.actor = some a' ∧ a'.state.quarantined (gpuKey ⟨"h", failed⟩) = none := by
  have hrun : (((composition.restrict World.orderly).exec World.initial (beginning ++ reporting ++ replaying 0)).bind
      fun w => w.coordinator.actor.bind fun a => (w.conns 1).bind fun k => (w.next (.take 1 0 0)).bind fun w' =>
      w'.coordinator.actor.map fun _ => decide (k.host = "h" ∧ k.up = [.quarantine failed "" 0] ∧
        (⟨"h", failed⟩, 0, 1) ∈ w.coordinator.applied ∧ .released ⟨"h", failed⟩ 2 true ∈ a.state.history ∧
        (a.state.quarantined (gpuKey ⟨"h", failed⟩)).isNone ∧
        w'.coordinator.applied = [(⟨"h", failed⟩, 0, 4), (⟨"h", failed⟩, 0, 1)])) = some true := by
    decide +kernel
  simp only [bind_eq_some_iff, map_eq_some_iff, decide_eq_true_eq] at hrun
  obtain ⟨w, hw, a, ha, k, hk, w', hnext, a', ha', hhost, hup, happlied, hreleased, hnone, hafter⟩ := hrun
  have hreach : composition.ReachableBy World.Orderly w :=
    System.ReachableBy.exec_restrict (fun w step hw hok => World.orderly_sound (World.linked hw.reachable) hok)
      (.initial rfl) hw
  rw [← hhost] at happlied hreleased hnone ⊢
  exact ⟨w, w', a', hreach, hnext, hhost ▸ hafter, ha', release_not_undone hreach ha hk hup happlied hreleased
    (by decide) hnext
    ha' (isNone_iff_eq_none.mp hnone)⟩

/-- A GPU fails twice before it is released. The quarantine and so the release name the first report, and a replay of
the second puts the GPU back. -/
theorem second_report_undoes_release : ∃ w w' a a' k, composition.Reachable w ∧ w.coordinator.actor = some a ∧
    w.conns 1 = some k ∧ k.host = "h" ∧ k.up = [.quarantine failed "" 1] ∧
    (⟨"h", failed⟩, 1, 2) ∈ w.coordinator.applied ∧ .reported ⟨"h", failed⟩ (some 1) 2 ∈ a.state.history ∧
    .released ⟨"h", failed⟩ 3 true ∈ a.state.history ∧ a.state.quarantined (gpuKey ⟨"h", failed⟩) = none ∧
    w.next (.take 1 0 0) = some w' ∧ w'.coordinator.actor = some a' ∧
    (a'.state.quarantined (gpuKey ⟨"h", failed⟩)).isSome := by
  have hrun : ((composition.exec World.initial (beginning ++ reporting ++ reporting ++ replaying 1)).bind
      fun w => w.coordinator.actor.bind fun a => (w.conns 1).bind fun k => (w.next (.take 1 0 0)).bind fun w' =>
      w'.coordinator.actor.map fun a' => decide (k.host = "h" ∧ k.up = [.quarantine failed "" 1] ∧
        (⟨"h", failed⟩, 1, 2) ∈ w.coordinator.applied ∧ .reported ⟨"h", failed⟩ (some 1) 2 ∈ a.state.history ∧
        .released ⟨"h", failed⟩ 3 true ∈ a.state.history ∧ (a.state.quarantined (gpuKey ⟨"h", failed⟩)).isNone ∧
        (a'.state.quarantined (gpuKey ⟨"h", failed⟩)).isSome)) = some true := by
    decide +kernel
  simp only [bind_eq_some_iff, map_eq_some_iff, decide_eq_true_eq] at hrun
  obtain ⟨w, hw, a, ha, k, hk, w', hnext, a', ha', hhost, hup, happlied, hreported, hreleased, hnone, hsome⟩ := hrun
  exact ⟨w, w', a, a', k, System.Reachable.exec (.initial rfl) hw, ha, hk, hhost, hup, happlied, hreported, hreleased,
    isNone_iff_eq_none.mp hnone, hnext, ha', hsome⟩

end Fcvm.Fleet
