import Fcvm.Fleet.Linked

namespace Fcvm.Fleet

open Library

namespace World

theorem covered_stored {k : Coordinator} {g : GpuId} {r : ℕ} (h : k.Safe g r) :
    ∃ t, (g, r, t) ∈ k.applied ∧ (∃ stored, k.disk = some stored ∧ Covered g t stored) ∧ Covered g t k.resumes := by
  obtain ⟨t, ht, hchain, -⟩ := h
  have hbase : Covered g t k.base := hchain _ List.mem_cons_self
  refine ⟨t, ht, ?_, ?_⟩
  · unfold Coordinator.base at hbase
    cases hdisk : k.disk with
    | none =>
      rw [hdisk] at hbase
      rcases hbase with hbase | ⟨t', -, hbase⟩
      · cases hbase
      · cases hbase
    | some stored =>
      rw [hdisk] at hbase
      exact ⟨stored, rfl, hbase⟩
  · obtain ⟨hquarantined, hreleased, hhistory⟩ := Coordinator.resumes_eq (k := k)
    exact SameCore.covered ⟨hquarantined, hreleased, fun g t => by rw [hhistory]⟩ hbase

end World

/-- A report that an agent made is in its table, or a newer one of the GPU is, or one of them was acknowledged; and of
an acknowledged report the GPU is quarantined in what is stored and in what a restart resumes, or an operator released
it after the report was applied. -/
theorem reported_quarantine_never_lost {w : World} (h : composition.Reachable w) :
    (∀ x ∈ w.made, (∃ n, x.2 ≤ n ∧ (w.agents x.1.host).replay.held x.1.sbdf = some n) ∨
      ∃ n, x.2 ≤ n ∧ (x.1, n) ∈ w.acked) ∧
    ∀ x ∈ w.acked, ∃ t, (x.1, x.2, t) ∈ w.coordinator.applied ∧
      (∃ stored, w.coordinator.disk = some stored ∧ Covered x.1 t stored) ∧ Covered x.1 t w.coordinator.resumes :=
  ⟨(World.linked h).replayed, fun x hx => World.covered_stored ((World.linked h).acked x hx)⟩

def gpu : Sbdf := ⟨"0000:19:00.0", by decide⟩

def acknowledge (report : ℕ) : List Step :=
  [.line "h" (.hello "h"), .restart 0, .connect "h" [.hello "h", .quarantine gpu "" report], .take 0 0 0, .take 0 0 0,
    .storeTick true, .writerTake 1, .writerFinish true, .written, .frame "h"]

/-- One report, acknowledged. -/
theorem reported_quarantine_acknowledged : ∃ w, composition.Reachable w ∧ (⟨"h", gpu⟩, 0) ∈ w.made ∧
    (w.agents "h").replay.held gpu = none ∧ (⟨"h", gpu⟩, 0) ∈ w.acked ∧
    ∃ stored, w.coordinator.disk = some stored ∧ (stored.quarantined (gpuKey ⟨"h", gpu⟩)).isSome := by
  have hrun : (composition.exec World.initial (.report "h" gpu "" :: acknowledge 0)).map
      (fun w => (w.made, (w.agents "h").replay.held gpu, w.acked,
        w.coordinator.disk.map fun s => (s.quarantined (gpuKey ⟨"h", gpu⟩)).isSome)) =
      some ([(⟨"h", gpu⟩, 0)], none, [(⟨"h", gpu⟩, 0)], some true) := by
    decide +kernel
  obtain ⟨w, hw, hview⟩ := Option.map_eq_some_iff.mp hrun
  simp only [Prod.mk.injEq] at hview
  obtain ⟨hmade, hheld, hacked, hdisk⟩ := hview
  have hreach : composition.Reachable w := Library.System.Reachable.exec (.initial rfl) hw
  have hmem : (⟨"h", gpu⟩, 0) ∈ w.acked := by rw [hacked]; exact List.mem_cons_self
  obtain ⟨t, -, ⟨stored, hstored, -⟩, -⟩ := (reported_quarantine_never_lost hreach).2 _ hmem
  refine ⟨w, hreach, by rw [hmade]; exact List.mem_cons_self, hheld, hmem, stored, hstored, ?_⟩
  rw [hstored] at hdisk
  exact Option.some.inj hdisk

/-- Of two reports made before the agent connects the table keeps the second, and only that one is acknowledged. -/
theorem replaced_report_not_acknowledged : ∃ w, composition.Reachable w ∧ (⟨"h", gpu⟩, 0) ∈ w.made ∧
    (w.agents "h").replay.held gpu = none ∧ (⟨"h", gpu⟩, 0) ∉ w.acked := by
  have hrun : (composition.exec World.initial (.report "h" gpu "" :: .report "h" gpu "" :: acknowledge 1)).map
      (fun w => (w.made, (w.agents "h").replay.held gpu, w.acked)) =
      some ([(⟨"h", gpu⟩, 1), (⟨"h", gpu⟩, 0)], none, [(⟨"h", gpu⟩, 1)]) := by
    decide +kernel
  obtain ⟨w, hw, hview⟩ := Option.map_eq_some_iff.mp hrun
  simp only [Prod.mk.injEq] at hview
  obtain ⟨hmade, hheld, hacked⟩ := hview
  refine ⟨w, Library.System.Reachable.exec (.initial rfl) hw, ?_, hheld, ?_⟩
  · rw [hmade]
    exact List.mem_cons_of_mem _ List.mem_cons_self
  · rw [hacked]
    decide

end Fcvm.Fleet
