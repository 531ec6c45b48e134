import Fcvm.Fleet.Covered
import Fcvm.FleetCore.Kept

/-! `State` is what is left of the coordinator's whole state when only its quarantines are looked at: `apply` on the
whole state does to them what `State.apply` does. -/

namespace Fcvm.Fleet

open Function
open Std (ExtTreeMap)

variable {p : FleetCore.Parts} {name : ℕ → String}

def Quarantined.named (name : ℕ → String) (q : Quarantined) : FleetCore.Quarantined :=
  ⟨q.gpu.host, q.gpu.sbdf.text, q.error, q.since, q.report.map name⟩

theorem gpuKey_eq (g : GpuId) : FleetCore.gpuKey g.host g.sbdf.text = gpuKey g := rfl

/-- A map by GPU keys is that of `m'`, read through `v`. -/
def Reads {V W : Type} (v : V → W) (m : ExtTreeMap String W) (m' : String → Option V) : Prop :=
  ∀ g, m[gpuKey g]? = (m' (gpuKey g)).map v

namespace Reads

variable {V W : Type} {v : V → W} {m : ExtTreeMap String W} {m' : String → Option V}

theorem insert (h : Reads v m m') (g : GpuId) (x : V) :
    Reads v (m.insert (gpuKey g) (v x)) (update m' (gpuKey g) (some x)) := by
  intro g'
  rw [ExtTreeMap.getElem?_insert]
  by_cases hg : gpuKey g = gpuKey g'
  · simp [hg]
  · simp [hg, Ne.symm hg, h g']

theorem erase (h : Reads v m m') (g : GpuId) : Reads v (m.erase (gpuKey g)) (update m' (gpuKey g) none) := by
  intro g'
  rw [ExtTreeMap.getElem?_erase]
  by_cases hg : gpuKey g = gpuKey g'
  · simp [hg]
  · simp [hg, Ne.symm hg, h g']

end Reads

/-- The quarantines and released reports of every GPU are those of `a`, which numbers the reports' ids. -/
structure SameQuarantines (name : ℕ → String) (st : FleetCore.Standing) (a : State) : Prop where
  quarantined : Reads (Quarantined.named name) st.quarantined a.quarantined
  releasedReports : Reads name st.releasedReports a.releasedReports

structure Abstracts (name : ℕ → String) (s : FleetCore.State p) (a : State) : Prop
    extends SameQuarantines name s.fleet.standing a where
  version : a.version = s.version

/-- An event of the whole state and what it is to the quarantines. -/
inductive Means (name : ℕ → String) : FleetCore.EventKind p → State.Event → Prop where
  | reported (g : GpuId) (error : String) (report : Option ℕ) :
    Means name (.agent g.host (.quarantine g.sbdf.text error (report.map name))) (.agentQuarantine g error report)
  | released (g : GpuId) : Means name (.releaseQuarantine g.host g.sbdf.text) (.releaseQuarantine g)
  | other {kind : FleetCore.EventKind p}
    (hagent : ∀ host sbdf error report, kind ≠ .agent host (.quarantine sbdf error report))
    (hoperator : ∀ host sbdf, kind ≠ .releaseQuarantine host sbdf) : Means name kind .other

namespace SameQuarantines

variable {f : FleetCore.Fleet p} {a : State} {now : ℕ}

theorem reported (hname : Injective name) (h : SameQuarantines name f.standing a) (g : GpuId) (error : String)
    (report : Option ℕ) :
    SameQuarantines name (f.restand now (.agent g.host (.quarantine g.sbdf.text error (report.map name))))
      (a.agentQuarantine g error report now) := by
  have hreleased : f.releasedReports[gpuKey g]? = report.map name ↔ a.releasedReports (gpuKey g) = report := by
    rw [show f.releasedReports[gpuKey g]? = _ from h.releasedReports g]
    exact (Option.map_injective hname).eq_iff
  have hmem : gpuKey g ∈ f.quarantined ↔ (a.quarantined (gpuKey g)).isSome := by
    rw [ExtTreeMap.mem_iff_isSome_getElem?, show f.quarantined[gpuKey g]? = _ from h.quarantined g, Option.isSome_map]
  simp only [FleetCore.Fleet.restand, FleetCore.Fleet.report, gpuKey_eq, hreleased, hmem, Option.isSome_map]
  split
  · next hkept =>
    have ha : a.agentQuarantine g error report now = a := by
      unfold State.agentQuarantine State.quarantine
      split
      · rfl
      · exact if_pos (by tauto)
    rw [ha]
    exact h
  · next hnew =>
    unfold State.agentQuarantine State.quarantine
    rw [if_neg (by tauto), if_neg (by tauto)]
    exact ⟨h.quarantined.insert g ⟨g, error, now, report⟩, h.releasedReports⟩

theorem released (h : SameQuarantines name f.standing a) (g : GpuId) :
    SameQuarantines name (f.restand now (.releaseQuarantine g.host g.sbdf.text)) (a.releaseQuarantine g) := by
  have hq : f.quarantined[gpuKey g]? = _ := h.quarantined g
  simp only [FleetCore.Fleet.restand, gpuKey_eq, hq]
  unfold State.releaseQuarantine
  cases a.quarantined (gpuKey g) with
  | none => exact h
  | some q =>
    refine ⟨h.quarantined.erase g, ?_⟩
    simp only [Option.map_some, Quarantined.named]
    cases q.report with
    | none => exact h.releasedReports
    | some r => exact h.releasedReports.insert g r

theorem restand (hname : Injective name) (h : SameQuarantines name f.standing a) {kind : FleetCore.EventKind p}
    {event : State.Event} (he : Means name kind event) :
    SameQuarantines name (f.restand now kind) (a.applyInner now event) := by
  cases he with
  | reported g error report => exact h.reported hname g error report
  | released g => exact h.released g
  | other hagent hoperator =>
    unfold FleetCore.Fleet.restand
    split
    · split <;> exact ⟨h.quarantined, h.releasedReports⟩
    · next host sbdf error report => exact absurd rfl (hagent host sbdf error report)
    · simp only [FleetCore.agentGone]
      split <;> exact ⟨h.quarantined, h.releasedReports⟩
    · next host sbdf => exact absurd rfl (hoperator host sbdf)
    · exact h

end SameQuarantines

theorem State.changes_eq_false {a : State} {now : ℕ} {event : State.Event}
    (h : ∀ g, ((a.applyInner now event).quarantined (gpuKey g)).isSome = (a.quarantined (gpuKey g)).isSome) :
    a.changes now event = false := by
  cases event with
  | agentQuarantine g error report =>
    simp only [changes, decide_eq_false_iff_not, not_not]
    exact h g
  | releaseQuarantine g =>
    rcases a.releaseQuarantine_cases g with ⟨hnone, -⟩ | ⟨q, hq, -, hgone, -⟩
    · simp [changes, hnone]
    · have := h g
      simp [applyInner, hgone, hq] at this
  | other => rfl

/-- `apply` on the whole state does to the quarantines what `State.apply` does, for some count of other changes. -/
theorem apply_abstracts (hname : Injective name) {s : FleetCore.State p} {a : State} (h : Abstracts name s a)
    {e : FleetCore.Event p} {event : State.Event} (he : Means name e.kind event) (time : ℕ) :
    ∃ moved, Abstracts name (FleetCore.apply s e) (a.apply event e.now time moved) := by
  have hsame : SameQuarantines name (FleetCore.apply s e).fleet.standing (a.applyInner e.now event) := by
    rw [FleetCore.apply_standing]
    exact ⟨(h.restand hname he).quarantined, (h.restand hname he).releasedReports⟩
  have hversion : s.version + (a.changes e.now event).toNat ≤ (FleetCore.apply s e).version := by
    rcases FleetCore.apply_version s e with ⟨hv, hf⟩ | hv
    · have hnone : a.changes e.now event = false := by
        apply State.changes_eq_false
        intro g
        have hkept := congrArg FleetCore.Fleet.quarantined hf
        have hafter := (h.quarantined g).symm.trans ((congrArg (·[gpuKey g]?) hkept.symm).trans (hsame.quarantined g))
        simpa using (congrArg Option.isSome hafter).symm
      simp [hnone, hv]
    · have hle := Bool.toNat_le (a.changes e.now event)
      omega
  refine ⟨(FleetCore.apply s e).version - s.version - (a.changes e.now event).toNat, ?_⟩
  refine ⟨⟨hsame.quarantined, hsame.releasedReports⟩, ?_⟩
  have ha := h.version
  simp only [State.apply]
  omega

/-- The quarantines alone, from `State::new` on: an event, its two times and the count of the other changes it makes. -/
def State.system : Library.System State (State.Event × ℕ × ℕ × ℕ) where
  initial a := a = State.new
  next a | (event, now, time, moved) => some (a.apply event now time moved)

/-- Every run of the whole state whose events have a meaning is, to its quarantines, a run of theirs. -/
theorem run_abstracts (hname : Injective name) {s : FleetCore.State p}
    (hs : (FleetCore.system p).ReachableBy (fun _ e => ∃ event, Means name e.kind event) s) :
    ∃ a, State.system.Reachable a ∧ Abstracts name s a := by
  induction hs with
  | initial h =>
    obtain ⟨c, now, rfl⟩ := h
    exact ⟨State.new, .initial rfl, ⟨fun _ => ExtTreeMap.getElem?_empty, fun _ => ExtTreeMap.getElem?_empty⟩, rfl⟩
  | @next s _ e hs hmeans h ih =>
    cases h
    obtain ⟨a, ha, habs⟩ := ih
    obtain ⟨event, he⟩ := hmeans
    obtain ⟨moved, hafter⟩ := apply_abstracts hname habs he 0
    exact ⟨_, ha.next (a := (event, e.now, 0, moved)) rfl, hafter⟩

end Fcvm.Fleet
