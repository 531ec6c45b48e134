import Fcvm.Fleet.Quarantine

namespace Fcvm.Fleet

open Function List

def Covered (g : GpuId) (t : ℕ) (s : State) : Prop :=
  (s.quarantined (gpuKey g)).isSome ∨ ∃ t', t < t' ∧ Past.released g t' true ∈ s.history

structure SameCore (s s' : State) : Prop where
  quarantined : s.quarantined = s'.quarantined
  releasedReports : s.releasedReports = s'.releasedReports
  released : ∀ g t, Past.released g t true ∈ s.history ↔ Past.released g t true ∈ s'.history

structure Rooted (applied : List (GpuId × ℕ × ℕ)) (s : State) : Prop where
  quarantined : ∀ g q r, s.quarantined (gpuKey g) = some q → q.report = some r → ∃ t, (g, r, t) ∈ applied
  released : ∀ g r, s.releasedReports (gpuKey g) = some r →
    ∃ t t', (g, r, t) ∈ applied ∧ t < t' ∧ Past.released g t' true ∈ s.history

namespace SameCore

variable {s s' s'' : State}

theorem refl (s : State) : SameCore s s := ⟨rfl, rfl, fun _ _ => Iff.rfl⟩

theorem trans (h : SameCore s s') (h' : SameCore s' s'') : SameCore s s'' where
  quarantined := h.quarantined.trans h'.quarantined
  releasedReports := h.releasedReports.trans h'.releasedReports
  released g t := (h.released g t).trans (h'.released g t)

theorem covered (h : SameCore s s') {g : GpuId} {t : ℕ} (hc : Covered g t s') : Covered g t s := by
  rcases hc with hc | ⟨t', ht, hc⟩
  · exact .inl (h.quarantined ▸ hc)
  · exact .inr ⟨t', ht, (h.released g t').mpr hc⟩

end SameCore

section Apply

variable {s : State} {now clock moved : ℕ} {g : GpuId} {applied : List (GpuId × ℕ × ℕ)}

theorem State.agentQuarantine_cases (s : State) (g : GpuId) (error : String) (report : Option ℕ) (now : ℕ) :
    s.agentQuarantine g error report now = s ∧
        ((s.quarantined (gpuKey g)).isSome ∨ report.isSome ∧ s.releasedReports (gpuKey g) = report) ∨
      s.quarantined (gpuKey g) = none ∧ s.agentQuarantine g error report now =
        { s with quarantined := update s.quarantined (gpuKey g) (some ⟨g, error, now, report⟩) } := by
  unfold agentQuarantine State.quarantine
  split
  · next hreleased => exact .inl ⟨rfl, .inr hreleased⟩
  · split
    · next hsome => exact .inl ⟨rfl, .inl hsome⟩
    · next hnone => exact .inr ⟨by simpa using hnone, rfl⟩

theorem State.releaseQuarantine_cases (s : State) (g : GpuId) :
    s.quarantined (gpuKey g) = none ∧ s.releaseQuarantine g = s ∨
      ∃ q, s.quarantined (gpuKey g) = some q ∧ (s.releaseQuarantine g).history = s.history ∧
        (s.releaseQuarantine g).quarantined = update s.quarantined (gpuKey g) none ∧
        (s.releaseQuarantine g).releasedReports =
          match q.report with
          | none => s.releasedReports
          | some r => update s.releasedReports (gpuKey g) (some r) := by
  unfold releaseQuarantine
  cases h : s.quarantined (gpuKey g) with
  | none => exact .inl ⟨rfl, rfl⟩
  | some q => exact .inr ⟨q, rfl, rfl, rfl, rfl⟩

theorem Covered.apply {t : ℕ} (h : Covered g t s) (ht : t < clock) (e : State.Event) :
    Covered g t (s.apply e now clock moved) := by
  rcases h with h | ⟨t', ht', h⟩
  · cases e with
    | agentQuarantine g' error report =>
      apply Or.inl
      simp only [State.apply, State.applyInner]
      rcases s.agentQuarantine_cases g' error report now with ⟨hs, -⟩ | ⟨hnone, hs⟩
      · rw [hs]
        exact h
      · rw [hs]
        by_cases hkey : gpuKey g = gpuKey g'
        · simp [hkey]
        · simpa [update_of_ne hkey] using h
    | releaseQuarantine g' =>
      by_cases hg : g = g'
      · subst hg
        refine .inr ⟨clock, ht, ?_⟩
        simp [State.apply, State.past, h]
      · apply Or.inl
        have hkey : gpuKey g ≠ gpuKey g' := fun heq => hg (gpuKey_injective heq)
        simp only [State.apply, State.applyInner]
        rcases s.releaseQuarantine_cases g' with ⟨-, hs⟩ | ⟨q, -, -, hs, -⟩
        · rw [hs]
          exact h
        · rw [hs, update_of_ne hkey]
          exact h
    | other => exact .inl h
  · exact .inr ⟨t', ht', mem_append_right _ h⟩

theorem State.apply_version_le (e : State.Event) : s.version ≤ (s.apply e now clock moved).version := by
  simp only [State.apply]
  omega

theorem State.apply_sameCore {e : State.Event} (h : (s.apply e now clock moved).version = s.version) :
    SameCore s (s.apply e now clock moved) := by
  have hchanges : s.changes now e = false := by
    simp only [State.apply] at h
    cases hc : s.changes now e with
    | false => rfl
    | true =>
      rw [hc, Bool.toNat_true] at h
      omega
  cases e with
  | agentQuarantine g' error report =>
    simp only [State.changes, ne_eq, decide_eq_false_iff_not, Decidable.not_not] at hchanges
    rcases s.agentQuarantine_cases g' error report now with ⟨hs, -⟩ | ⟨hnone, hs⟩
    · simp only [State.apply, State.applyInner, State.past, hs]
      exact ⟨rfl, rfl, fun _ _ => by simp⟩
    · rw [hs, hnone] at hchanges
      simp at hchanges
  | releaseQuarantine g' =>
    simp only [State.changes] at hchanges
    rcases s.releaseQuarantine_cases g' with ⟨-, hs⟩ | ⟨q, hq, -⟩
    · simp only [State.apply, State.applyInner, State.past, hs, hchanges]
      exact ⟨rfl, rfl, fun _ _ => by simp⟩
    · simp [hq] at hchanges
  | other => exact ⟨rfl, rfl, fun _ _ => Iff.rfl⟩

variable {applied' : List (GpuId × ℕ × ℕ)}

variable (h : Rooted applied s)
include h

theorem Rooted.mono (hsub : applied ⊆ applied') :
    Rooted applied' s where
  quarantined g q r hq hr := by
    obtain ⟨t, ht⟩ := h.quarantined g q r hq hr
    exact ⟨t, hsub ht⟩
  released g r hr := by
    obtain ⟨t, t', ht, hlt, hmem⟩ := h.released g r hr
    exact ⟨t, t', hsub ht, hlt, hmem⟩

theorem Rooted.of_eq {s' : State} (hq : s'.quarantined = s.quarantined)
    (hr : s'.releasedReports = s.releasedReports) (hhistory : s.history ⊆ s'.history) : Rooted applied s' where
  quarantined := hq ▸ h.quarantined
  released g r hreleased := by
    obtain ⟨t, t', ht, hlt, hmem⟩ := h.released g r (hr ▸ hreleased)
    exact ⟨t, t', ht, hlt, hhistory hmem⟩

theorem Rooted.apply {e : State.Event} (htimes : ∀ x ∈ applied, x.2.2 < clock) (hsub : applied ⊆ applied')
    (hreport : ∀ g error r, e = .agentQuarantine g error (some r) → (g, r, clock) ∈ applied') :
    Rooted applied' (s.apply e now clock moved) := by
  have hold := h.mono hsub
  have hhistory : s.history ⊆ (s.apply e now clock moved).history := subset_append_right _ _
  have hkept : ∀ g r, s.releasedReports (gpuKey g) = some r → ∃ t t', (g, r, t) ∈ applied' ∧ t < t' ∧
      Past.released g t' true ∈ (s.apply e now clock moved).history := by
    intro g r hr
    obtain ⟨t, t', ht, hlt, hmem⟩ := hold.released g r hr
    exact ⟨t, t', ht, hlt, hhistory hmem⟩
  cases e with
  | agentQuarantine g' error report =>
    rcases s.agentQuarantine_cases g' error report now with ⟨hs, -⟩ | ⟨-, hs⟩
    · refine hold.of_eq ?_ ?_ hhistory <;> simp only [State.apply, State.applyInner, hs]
    · constructor
      · intro g q r hq hr
        simp only [State.apply, State.applyInner, hs] at hq
        by_cases hg : g = g'
        · subst hg
          rw [update_self] at hq
          cases hq
          dsimp only at hr
          subst hr
          exact ⟨clock, hreport g error r rfl⟩
        · have hkey : gpuKey g ≠ gpuKey g' := fun heq => hg (gpuKey_injective heq)
          rw [update_of_ne hkey] at hq
          exact hold.quarantined g q r hq hr
      · intro g r hr
        simp only [State.apply, State.applyInner, hs] at hr
        exact hkept g r hr
  | releaseQuarantine g' =>
    rcases s.releaseQuarantine_cases g' with ⟨-, hs⟩ | ⟨q', hq', -, hquarantined, hreleased⟩
    · refine hold.of_eq ?_ ?_ hhistory <;> simp only [State.apply, State.applyInner, hs]
    · constructor
      · intro g q r hq hr
        simp only [State.apply, State.applyInner, hquarantined] at hq
        by_cases hg : g = g'
        · subst hg
          simp [update_self] at hq
        · have hkey : gpuKey g ≠ gpuKey g' := fun heq => hg (gpuKey_injective heq)
          rw [update_of_ne hkey] at hq
          exact hold.quarantined g q r hq hr
      · intro g r hr
        simp only [State.apply, State.applyInner, hreleased] at hr
        cases hreport' : q'.report with
        | none =>
          rw [hreport'] at hr
          exact hkept g r hr
        | some r' =>
          rw [hreport'] at hr
          dsimp only at hr
          by_cases hg : g = g'
          · subst hg
            rw [update_self] at hr
            cases hr
            obtain ⟨t, ht⟩ := h.quarantined g q' r hq' hreport'
            exact ⟨t, clock, hsub ht, htimes _ ht, by simp [State.apply, State.past, hq']⟩
          · have hkey : gpuKey g ≠ gpuKey g' := fun heq => hg (gpuKey_injective heq)
            rw [update_of_ne hkey] at hr
            exact hkept g r hr
  | other => exact hold.of_eq rfl rfl hhistory

theorem covered_of_reported {error : String} {r : ℕ} :
    ∃ t, (g, r, t) ∈ (g, r, clock) :: applied ∧
      Covered g t (s.apply (.agentQuarantine g error (some r)) now clock moved) := by
  rcases s.agentQuarantine_cases g error (some r) now with ⟨hs, hsome | ⟨-, hreleased⟩⟩ | ⟨-, hs⟩
  · refine ⟨clock, mem_cons_self, .inl ?_⟩
    simp only [State.apply, State.applyInner, hs]
    exact hsome
  · obtain ⟨t, t', ht, hlt, hmem⟩ := h.released g r hreleased
    exact ⟨t, mem_cons_of_mem _ ht, .inr ⟨t', hlt, mem_append_right _ hmem⟩⟩
  · refine ⟨clock, mem_cons_self, .inl ?_⟩
    simp [State.apply, State.applyInner, hs]

end Apply

end Fcvm.Fleet
