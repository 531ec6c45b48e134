import Fcvm.Fleet.Storing

namespace Fcvm.Fleet

open List Function

def lastReport (g : GpuId) : List Past → Option ℕ
  | [] => none
  | .reported g' report _ :: past => if g' = g then report else lastReport g past
  | .released _ _ _ :: past => lastReport g past

def Past.time : Past → ℕ
  | .reported _ _ t => t
  | .released _ t _ => t

/-- The quarantine of a GPU, or what is kept of its last release, names the newest report of it, and a release came
after every report that was applied before it. -/
structure Settled (applied : List (GpuId × ℕ × ℕ)) (clock : ℕ) (s : State) : Prop where
  times : ∀ p ∈ s.history, p.time < clock
  reported : ∀ g r t, .reported g r t ∈ s.history → ∃ n last, r = some n ∧ (g, n, t) ∈ applied ∧
    lastReport g s.history = some last ∧ n ≤ last
  quarantined : ∀ g last, lastReport g s.history = some last → ∀ q, s.quarantined (gpuKey g) = some q →
    q.report = some last
  released : ∀ g last, lastReport g s.history = some last → s.quarantined (gpuKey g) = none →
    s.releasedReports (gpuKey g) = some last
  lineage : ∀ g t' ended, .released g t' ended ∈ s.history → ∀ r t, (g, r, t) ∈ applied → t < t' →
    ∃ again, .reported g (some r) again ∈ s.history

structure SameLineage (s s' : State) : Prop where
  quarantined : s'.quarantined = s.quarantined
  releasedReports : s'.releasedReports = s.releasedReports
  history : s'.history = s.history

namespace Settled

variable {applied : List (GpuId × ℕ × ℕ)} {clock : ℕ} {s s' : State}

theorem new : Settled applied clock .new where
  times _ hp := by cases hp
  reported _ _ _ hp := by cases hp
  quarantined _ _ h := by cases h
  released _ _ h := by cases h
  lineage _ _ _ hp := by cases hp

section

variable (h : Settled applied clock s)
include h

theorem of_same (hs : SameLineage s s') : Settled applied clock s' where
  times := by
    rw [hs.history]
    exact h.times
  reported := by
    rw [hs.history]
    exact h.reported
  quarantined := by
    rw [hs.history, hs.quarantined]
    exact h.quarantined
  released := by
    rw [hs.history, hs.quarantined, hs.releasedReports]
    exact h.released
  lineage := by
    rw [hs.history]
    exact h.lineage

theorem later : Settled applied (clock + 1) s :=
  { h with times := fun p hp => (h.times p hp).trans (Nat.lt_succ_self _) }

theorem mono (g : GpuId) (r : ℕ) : Settled ((g, r, clock) :: applied) (clock + 1) s where
  times := h.later.times
  reported := by
    intro g' r' t hp
    obtain ⟨n, last, hr, hmem, hlast⟩ := h.reported g' r' t hp
    exact ⟨n, last, hr, mem_cons_of_mem _ hmem, hlast⟩
  quarantined := h.quarantined
  released := h.released
  lineage := by
    intro g' t' ended hp r' t hmem hlt
    rcases mem_cons.mp hmem with heq | hmem
    · cases heq
      exact absurd (h.times _ hp) (Nat.lt_asymm hlt)
    · exact h.lineage g' t' ended hp r' t hmem hlt

section Apply

variable {g : GpuId} {now moved : ℕ}

omit h in
theorem lastReport_ne {g g' : GpuId} (h : g ≠ g') (r : Option ℕ) (t : ℕ) (past : List Past) :
    lastReport g' (.reported g r t :: past) = lastReport g' past := if_neg h

theorem quarantine (error : String) (r : ℕ) (hnewest : ∀ n t, (g, n, t) ∈ applied → n ≤ r)
    (hother : ∀ q, s.quarantined (gpuKey g) = some q → q.report = some r) :
    Settled ((g, r, clock) :: applied) (clock + 1) (s.apply (.agentQuarantine g error (some r)) now clock moved) := by
  have hm := h.mono g r
  have hhistory : (s.apply (.agentQuarantine g error (some r)) now clock moved).history =
      .reported g (some r) clock :: s.history := by
    simp [State.apply, State.past]
  have hlast : lastReport g (.reported g (some r) clock :: s.history) = some r := if_pos rfl
  refine ⟨?_, ?_, ?_, ?_, ?_⟩
  · rw [hhistory]
    intro p hp
    rcases mem_cons.mp hp with rfl | hp
    · exact Nat.lt_succ_self _
    · exact hm.times p hp
  · rw [hhistory]
    intro g' r' t hp
    rcases mem_cons.mp hp with heq | hp
    · cases heq
      exact ⟨r, r, rfl, mem_cons_self, hlast, le_refl _⟩
    · obtain ⟨n, last, hr, hmem, hold, hle⟩ := hm.reported g' r' t hp
      by_cases hg : g = g'
      · subst hg
        refine ⟨n, r, hr, hmem, hlast, ?_⟩
        obtain ⟨n', -, hr', hmem', -⟩ := h.reported g r' t hp
        cases hr.symm.trans hr'
        exact hnewest n t hmem'
      · refine ⟨n, last, hr, hmem, ?_, hle⟩
        rw [lastReport_ne hg]
        exact hold
  · rw [hhistory]
    intro g' last hl q hq
    by_cases hg : g = g'
    · subst hg
      cases hlast.symm.trans hl
      rcases s.agentQuarantine_cases g error (some r) now with ⟨heq, -⟩ | ⟨-, heq⟩
      · apply hother
        simpa [State.apply, State.applyInner, heq] using hq
      · simp only [State.apply, State.applyInner, heq, update_self] at hq
        cases hq
        rfl
    · rw [lastReport_ne hg] at hl
      apply h.quarantined g' last hl
      rcases s.agentQuarantine_cases g error (some r) now with ⟨heq, -⟩ | ⟨-, heq⟩
      · simpa [State.apply, State.applyInner, heq] using hq
      · simp only [State.apply, State.applyInner, heq] at hq
        rwa [update_of_ne (fun hk => hg (gpuKey_injective hk).symm)] at hq
  · rw [hhistory]
    intro g' last hl hq
    have hreleased : (s.apply (.agentQuarantine g error (some r)) now clock moved).releasedReports =
        s.releasedReports := by
      rcases s.agentQuarantine_cases g error (some r) now with ⟨heq, -⟩ | ⟨-, heq⟩
      · simp [State.apply, State.applyInner, heq]
      · simp [State.apply, State.applyInner, heq]
    rw [hreleased]
    rcases s.agentQuarantine_cases g error (some r) now with ⟨heq, hcase⟩ | ⟨-, heq⟩
    · have hq' : s.quarantined (gpuKey g') = none := by simpa [State.apply, State.applyInner, heq] using hq
      by_cases hg : g = g'
      · subst hg
        cases hlast.symm.trans hl
        rcases hcase with hsome | ⟨-, hsame⟩
        · simp [hq'] at hsome
        · exact hsame
      · rw [lastReport_ne hg] at hl
        exact h.released g' last hl hq'
    · simp only [State.apply, State.applyInner, heq] at hq
      by_cases hg : g = g'
      · subst hg
        simp [update_self] at hq
      · rw [update_of_ne (fun hk => hg (gpuKey_injective hk).symm)] at hq
        rw [lastReport_ne hg] at hl
        exact h.released g' last hl hq
  · rw [hhistory]
    intro g' t' ended hp r' t hmem hlt
    rcases mem_cons.mp hp with heq | hp
    · cases heq
    · obtain ⟨again, hagain⟩ := hm.lineage g' t' ended hp r' t hmem hlt
      exact ⟨again, mem_cons_of_mem _ hagain⟩

theorem release (hkept : ∀ r t, (g, r, t) ∈ applied → ∃ again, .reported g (some r) again ∈ s.history) :
    Settled applied (clock + 1) (s.apply (.releaseQuarantine g) now clock moved) := by
  have hm := h.later
  have hhistory : (s.apply (.releaseQuarantine g) now clock moved).history =
      .released g clock (s.quarantined (gpuKey g)).isSome :: s.history := by
    simp [State.apply, State.past]
  have hlast : ∀ g', lastReport g' (.released g clock (s.quarantined (gpuKey g)).isSome :: s.history) =
      lastReport g' s.history := fun _ => rfl
  refine ⟨?_, ?_, ?_, ?_, ?_⟩
  · rw [hhistory]
    intro p hp
    rcases mem_cons.mp hp with rfl | hp
    · exact Nat.lt_succ_self _
    · exact hm.times p hp
  · rw [hhistory]
    intro g' r t hp
    rcases mem_cons.mp hp with heq | hp
    · cases heq
    · exact hm.reported g' r t hp
  · rw [hhistory]
    intro g' last hl q hq
    apply h.quarantined g' last hl
    rcases s.releaseQuarantine_cases g with ⟨-, heq⟩ | ⟨q', -, -, heq, -⟩
    · simpa [State.apply, State.applyInner, heq] using hq
    · simp only [State.apply, State.applyInner, heq] at hq
      by_cases hg : g = g'
      · subst hg
        simp [update_self] at hq
      · rwa [update_of_ne (fun hk => hg (gpuKey_injective hk).symm)] at hq
  · rw [hhistory]
    intro g' last hl hq
    rcases s.releaseQuarantine_cases g with ⟨-, heq⟩ | ⟨q, hsome, -, heq, hreleased⟩
    · simp only [State.apply, State.applyInner, heq] at hq ⊢
      exact h.released g' last hl hq
    · simp only [State.apply, State.applyInner, heq, hreleased] at hq ⊢
      by_cases hg : g = g'
      · subst hg
        rw [h.quarantined g last hl q hsome]
        exact update_self ..
      · have hkey : gpuKey g' ≠ gpuKey g := fun hk => hg (gpuKey_injective hk).symm
        rw [update_of_ne hkey] at hq
        have hold := h.released g' last hl hq
        cases q.report with
        | none => exact hold
        | some r =>
          dsimp only
          rw [update_of_ne hkey]
          exact hold
  · rw [hhistory]
    intro g' t' ended hp r t hmem hlt
    have hkeep : ∃ again, .reported g' (some r) again ∈ s.history := by
      rcases mem_cons.mp hp with heq | hp
      · cases heq
        exact hkept r t hmem
      · exact h.lineage g' t' ended hp r t hmem hlt
    obtain ⟨again, hagain⟩ := hkeep
    exact ⟨again, mem_cons_of_mem _ hagain⟩

end Apply

theorem not_again {g : GpuId} {r t : ℕ} (hmem : .reported g (some r) t ∈ s.history)
    (hnewest : ∀ n t, (g, n, t) ∈ applied → n ≤ r) (hnone : s.quarantined (gpuKey g) = none) (error : String)
    (now : ℕ) : s.agentQuarantine g error (some r) now = s := by
  obtain ⟨n, last, hn, -, hlast, hle⟩ := h.reported g (some r) t hmem
  cases hn
  -- the newest report of the past was applied as well
  have hback : ∀ past, lastReport g past = some last → ∃ t, .reported g (some last) t ∈ past := by
    intro past hl
    induction past with
    | nil => cases hl
    | cons p past ih =>
      cases p with
      | reported g' r' t' =>
        simp only [lastReport] at hl
        split at hl
        · next hg =>
          subst hg hl
          exact ⟨t', mem_cons_self⟩
        · obtain ⟨t, ht⟩ := ih hl
          exact ⟨t, mem_cons_of_mem _ ht⟩
      | released g' t' ended =>
        obtain ⟨t, ht⟩ := ih hl
        exact ⟨t, mem_cons_of_mem _ ht⟩
  obtain ⟨t', ht'⟩ := hback _ hlast
  obtain ⟨n', -, hn', happlied, -⟩ := h.reported g (some last) t' ht'
  cases hn'
  have heq : last = r := le_antisymm (hnewest last t' happlied) hle
  subst heq
  unfold State.agentQuarantine
  rw [if_pos ⟨rfl, h.released g last hlast hnone⟩]

end

end Settled

namespace Coordinator

variable {k : Coordinator} {a : Actor}

def Stands (k : Coordinator) (s : State) : Prop :=
  s = k.base ∨ s ∈ k.pending ∨ ∃ a, k.actor = some a ∧ s = a.state

def SameStates (k k' : Coordinator) : Prop :=
  ∀ s', k'.Stands s' → ∃ s, k.Stands s ∧ SameLineage s s'

theorem SameStates.refl (k : Coordinator) : SameStates k k := fun s hs => ⟨s, hs, rfl, rfl, rfl⟩

variable {k' : Coordinator}

theorem SameStates.of_subset (hbase : k.Stands k'.base) (hpending : ∀ s ∈ k'.pending, k.Stands s)
    (hactor : ∀ a', k'.actor = some a' → ∃ s, k.Stands s ∧ SameLineage s a'.state) : SameStates k k' := by
  rintro s' (rfl | hs' | ⟨a', ha', rfl⟩)
  · exact ⟨_, hbase, rfl, rfl, rfl⟩
  · exact ⟨s', hpending s' hs', rfl, rfl, rfl⟩
  · exact hactor a' ha'

theorem SameStates.of_actor (hdisk : k'.disk = k.disk) (hwriter : k'.writer = k.writer)
    (hactor : ∀ a', k'.actor = some a' → ∃ a, k.actor = some a ∧ SameLineage a.state a'.state) : SameStates k k' := by
  apply SameStates.of_subset
  · unfold Stands base
    rw [hdisk]
    exact .inl rfl
  · intro s hs
    unfold pending at hs
    rw [hwriter] at hs
    exact .inr (.inl hs)
  · intro a' ha'
    obtain ⟨a, ha, hsame⟩ := hactor a' ha'
    exact ⟨a.state, .inr (.inr ⟨a, ha, rfl⟩), hsame⟩

section

variable (ha : k.actor = some a)
include ha

theorem SameStates.applyOther (agents : AList fun _ : ℕ => String) (now moved : ℕ) :
    SameStates k (k.apply { a with agents := agents } .other now moved) := by
  refine SameStates.of_actor rfl rfl ?_
  intro a' ha'
  cases ha'
  exact ⟨a, ha, rfl, rfl, rfl⟩

theorem store_states (barrier serialized : Bool) :
    (k.store a barrier serialized).1.state = a.state ∧ (k.store a barrier serialized).2.disk = k.disk ∧
      ∀ s ∈ (k.store a barrier serialized).2.pending, k.Stands s := by
  have hsend : ∀ cmd answer, (∀ c, cmd = some c → c.bytes = none ∨ c.bytes = some a.state) →
      ∀ s ∈ (k.send cmd answer).pending, k.Stands s := by
    intro cmd answer hcmd s hs
    simp only [pending, send, filterMap_append, ← append_assoc] at hs
    rcases mem_append.mp hs with hs | hs
    · exact .inr (.inl hs)
    · obtain ⟨c, hc, hbytes⟩ := mem_filterMap.mp hs
      rcases hcmd c (Option.mem_toList.mp hc) with hnone | hsome
      · cases hnone.symm.trans hbytes
      · cases hsome.symm.trans hbytes
        exact .inr (.inr ⟨a, ha, rfl⟩)
  unfold store
  split
  · split
    · refine ⟨rfl, rfl, hsend _ _ ?_⟩
      intro c hc
      cases hc
      exact .inl rfl
    · refine ⟨rfl, rfl, hsend _ _ ?_⟩
      intro c hc
      cases hc
      exact .inl rfl
  · split
    · refine ⟨rfl, rfl, hsend _ _ ?_⟩
      intro c hc
      cases hc
      exact .inr rfl
    · exact ⟨rfl, rfl, hsend _ _ (by rintro _ ⟨⟩)⟩

theorem SameStates.store (barrier serialized : Bool) {a' : Actor}
    (ha' : a'.state = (k.store a barrier serialized).1.state) :
    SameStates k { (k.store a barrier serialized).2 with actor := some a' } := by
  obtain ⟨hstate, hdisk, hpending⟩ := store_states ha barrier serialized
  apply SameStates.of_subset
  · unfold Stands base
    dsimp only
    rw [hdisk]
    exact .inl rfl
  · exact hpending
  · intro a₂ ha₂
    cases ha₂
    rw [ha', hstate]
    exact ⟨a.state, .inr (.inr ⟨a, ha, rfl⟩), rfl, rfl, rfl⟩

theorem SameStates.storeTick (serialized : Bool) : SameStates k (k.storeTick a serialized) := by
  unfold Coordinator.storeTick
  split
  · exact SameStates.store ha true serialized rfl
  · exact SameStates.store ha false serialized rfl

theorem SameStates.shutdownStore (serialized : Bool) : SameStates k (k.shutdownStore a serialized) :=
  SameStates.store ha true serialized rfl

theorem SameStates.written {told : List (GpuId × Option ℕ × ℕ)}
    (hw : k.written a = some (k', told)) : SameStates k k' := by
  unfold Coordinator.written at hw
  obtain ⟨⟨version, ack⟩, -, hw⟩ := Option.bind_eq_some_iff.mp hw
  obtain ⟨stored, -, hw⟩ := Option.map_eq_some_iff.mp hw
  split at hw
  · cases hw
    refine SameStates.of_actor rfl rfl ?_
    intro a' ha'
    cases ha'
    exact ⟨a, ha, rfl, rfl, rfl⟩
  · cases hw
    refine SameStates.of_actor rfl rfl ?_
    intro a' ha'
    cases ha'
    exact ⟨a, ha, rfl, rfl, rfl⟩

end

theorem SameStates.writer (hactor : k'.actor = k.actor) (hbase : k.Stands k'.base)
    (hpending : k'.pending ⊆ k.pending) : SameStates k k' := by
  apply SameStates.of_subset hbase (fun s hs => .inr (.inl (hpending hs)))
  intro a ha
  exact ⟨a.state, .inr (.inr ⟨a, hactor ▸ ha, rfl⟩), rfl, rfl, rfl⟩

theorem SameStates.writerTake (n : ℕ) : SameStates k { k with writer := k.writer.take n } := by
  refine SameStates.writer rfl (.inl rfl) ?_
  intro s hs
  simp only [pending, Writer.take] at hs ⊢
  rcases mem_append.mp hs with hs | hs
  · rcases mem_append.mp ((Writer.newest_sublist _ _).subset hs) with hs | hs
    · exact mem_append_left _ hs
    · exact mem_append_right _ (((take_sublist n _).filterMap _).subset hs)
  · exact mem_append_right _ (((drop_sublist n _).filterMap _).subset hs)

theorem SameStates.writerLand {b : State} (hb : k.writer.unwritten = some b) : SameStates k (k.land b) := by
  refine SameStates.writer rfl ?_ ?_
  · apply Or.inr
    apply Or.inl
    unfold pending
    rw [hb]
    exact mem_append_left _ mem_cons_self
  · exact fun _ hs => hs

theorem SameStates.writerFinish (acks : List ℕ) (ok : Bool) : SameStates k (k.writerFinish acks ok) := by
  unfold Coordinator.writerFinish
  split
  · exact SameStates.writer rfl (.inl rfl) (fun _ hs => hs)
  · next b hb =>
    split
    · refine SameStates.writer rfl ?_ ?_
      · apply Or.inr
        apply Or.inl
        unfold pending
        rw [hb]
        exact mem_append_left _ mem_cons_self
      · exact fun s hs => mem_append_right _ hs
    · exact SameStates.writer rfl (.inl rfl) (fun _ hs => hs)

theorem SameStates.kill : SameStates k k.kill := by
  refine SameStates.of_subset (.inl rfl) ?_ ?_
  · nofun
  · nofun

theorem SameStates.restart (moved : ℕ) : SameStates k (k.restart moved) := by
  refine SameStates.of_subset (.inl rfl) (fun s hs => .inr (.inl hs)) ?_
  intro a ha
  cases ha
  obtain ⟨hquarantined, hreleased, hhistory⟩ := resumes_eq (k := k)
  exact ⟨k.base, .inl rfl, hquarantined, hreleased, hhistory⟩

end Coordinator

end Fcvm.Fleet
