import Fcvm.Uffd.EventSpec

namespace Fcvm.Uffd

open Library Prog List

variable {ctx : VmContext} {s : Handler}

variable {s' : Handler} {job : ReplayJob}

structure Since (s s' : Handler) : Prop where
  generation : s.generation ≤ s'.generation
  removed : s'.generation = s.generation → s'.removed = s.removed
  planned : s'.planned = s.planned

namespace Since

theorem refl (s : Handler) : Since s s := ⟨le_rfl, fun _ => rfl, rfl⟩

theorem trans {s s'' : Handler} (h : Since s s') (h' : Since s' s'') : Since s s'' := by
  refine ⟨h.generation.trans h'.generation, fun heq => ?_, h'.planned.trans h.planned⟩
  have hle := h.generation
  have hle' := h'.generation
  rw [h'.removed (by omega), h.removed (by omega)]

end Since

theorem Fresh.since {generation fileOffset len : ℕ}
    (h : Fresh ctx s.removed s.generation generation fileOffset len) (hsince : Since s s') :
    Fresh ctx s'.removed s'.generation generation fileOffset len := by
  have hle := hsince.generation
  refine ⟨h.1.trans hle, fun heq => ?_⟩
  have hold := h.1
  rw [hsince.removed (by omega)]
  exact h.2 (by omega)

theorem ReplayJob.Planned.since (h : job.Planned ctx s.removed s.generation)
    (hsince : Since s s') : job.Planned ctx s'.removed s'.generation :=
  fun run hrun => ⟨(h run hrun).1, (h run hrun).2.since hsince⟩

structure Waits (s s' : Handler) : Prop where
  since : Since s s'
  pending : ∀ pool', s'.pool = some pool' → ∃ pool, s.pool = some pool ∧ pool'.pending = pool.pending

namespace Waits

theorem refl (s : Handler) : Waits s s := ⟨.refl s, fun pool hpool => ⟨pool, hpool, rfl⟩⟩

theorem trans {s s'' : Handler} (h : Waits s s') (h' : Waits s' s'') : Waits s s'' := by
  refine ⟨h.since.trans h'.since, fun pool'' hpool'' => ?_⟩
  obtain ⟨pool', hpool', heq'⟩ := h'.pending pool'' hpool''
  obtain ⟨pool, hpool, heq⟩ := h.pending pool' hpool'
  exact ⟨pool, hpool, heq'.trans heq⟩

end Waits

theorem Later.waits (h : Later s s') : Waits s s' := by
  refine ⟨⟨h.generation, h.removed, h.planned⟩, fun pool hpool => ⟨pool, ?_, rfl⟩⟩
  rw [← h.pool]
  exact hpool

theorem wp_waited {α β : Type} {p : Run α} {f : α → Run β} {s₀ : Handler} {Q : β → Handler → Prop}
    (hwaits : Waits s₀ s) (h : wp (contract ctx) p (fun _ s' => Rest ctx s' ∧ Later s s') s)
    (hf : ∀ a s', Rest ctx s' → Waits s₀ s' → wp (contract ctx) (f a) Q s') : wp (contract ctx) (p >>= f) Q s :=
  wp_seq h fun a s' hs' => hf a s' hs'.1 (hwaits.trans hs'.2.waits)

variable {f : ReplayWorkers → ReplayWorkers}

theorem modifyPool_spec (hs : Rest ctx s)
    (hf : ∀ pool, s.pool = some pool → pool.Ok ctx s.removed s.generation → (f pool).Ok ctx s.removed s.generation) :
    wp (contract ctx) (modifyPool f) (fun _ s' => s' = { s with pool := s.pool.map f } ∧ Rest ctx s') s := by
  refine ⟨{}, ?_⟩
  rintro - _ rfl
  have hquiet := hs.quiet
  refine ⟨rfl, ⟨?_, hs.batch, hs.returns, hs.current⟩⟩
  refine { hquiet with pool := fun pool' hpool' => ?_ }
  obtain ⟨pool, hpool, rfl⟩ := Option.map_eq_some_iff.mp hpool'
  exact hf pool hpool (hquiet.pool pool hpool)

theorem modifyPool_waits (hs : Rest ctx s)
    (hf : ∀ pool, s.pool = some pool → pool.Ok ctx s.removed s.generation → (f pool).Ok ctx s.removed s.generation)
    (hpending : ∀ pool, (f pool).pending = pool.pending) :
    wp (contract ctx) (modifyPool f) (fun _ s' => Rest ctx s' ∧ Waits s s') s := by
  refine wp_mono (modifyPool_spec hs hf) ?_
  rintro - _ ⟨rfl, hs'⟩
  refine ⟨hs', ⟨⟨le_rfl, fun _ => rfl, rfl⟩, fun pool' hpool' => ?_⟩⟩
  obtain ⟨pool, hpool, rfl⟩ := Option.map_eq_some_iff.mp hpool'
  exact ⟨pool, hpool, hpending pool⟩

theorem ReplayWorkers.tally_pending (pool : ReplayWorkers) (outcome : ReplayOutcome) :
    (pool.tally outcome).pending = pool.pending := by
  cases outcome with
  | done | refused | vmGone => rfl
  | stale rest =>
    unfold ReplayWorkers.tally
    dsimp only
    split <;> rfl

theorem ReplayWorkers.Ok.tally {pool : ReplayWorkers} {removed : RemovedPages} {generation : ℕ}
    {outcome : ReplayOutcome}
    (h : pool.Ok ctx removed generation) (houtcome : outcome.Placed ctx) :
    (pool.tally outcome).Ok ctx removed generation := by
  cases outcome with
  | done | refused => exact h
  | vmGone => exact { h with }
  | stale rest =>
    unfold ReplayWorkers.tally
    dsimp only
    split
    · exact h
    · refine ⟨h.le, h.placed, h.clear, fun job hjob => ?_⟩
      rcases mem_append.mp hjob with hjob | hjob
      · exact h.stale job hjob
      · rw [mem_singleton.mp hjob]
        exact houtcome rest rfl

theorem tally_spec {outcome : ReplayOutcome} (hs : Rest ctx s) (houtcome : outcome.Placed ctx) :
    wp (contract ctx) (modifyPool (·.tally outcome)) (fun _ s' => Rest ctx s' ∧ Waits s s') s :=
  modifyPool_waits hs (fun _ _ h => h.tally houtcome) fun pool => pool.tally_pending outcome

theorem vmGone_spec (hs : Rest ctx s) :
    wp (contract ctx) (modifyPool fun pool => { pool with vmGone := true }) (fun _ s' => Rest ctx s' ∧ Waits s s') s :=
  modifyPool_waits hs (fun _ _ h => { h with }) fun _ => rfl

theorem poolGone_spec (s : Handler) : wp (contract ctx) poolGone (fun _ s' => s' = s) s := by
  refine wp_perform trivial ?_
  rintro _ _ ⟨rfl, rfl⟩
  exact wp_ret rfl

theorem collectOutcomes_spec (hs : Rest ctx s) (fuel : ℕ) :
    wp (contract ctx) (collectOutcomes fuel) (fun _ s' => Rest ctx s' ∧ Waits s s') s := by
  induction fuel generalizing s with
  | zero =>
    refine ⟨trivial, ?_⟩
    rintro - _ rfl
    exact ⟨hs, .refl _⟩
  | succ fuel ih =>
    refine wp_perform trivial ?_
    rintro found _ ⟨rfl, hplaced⟩
    cases found with
    | none => exact wp_ret ⟨hs, .refl _⟩
    | some outcome =>
      refine wp_seq (tally_spec hs (hplaced outcome rfl)) ?_
      rintro - s' ⟨hs', hwaits⟩
      exact wp_mono (ih hs') fun _ _ h => ⟨h.1, hwaits.trans h.2⟩

variable (hctx : ctx.Accepted)
include hctx

theorem returnWaited_spec (hs : Rest ctx s) :
    wp (contract ctx) (returnWaited ctx) (fun _ s' => Rest ctx s' ∧ Later s s') s := by
  refine wp_perform trivial ?_
  rintro _ _ (⟨rfl, rfl⟩ | ⟨reply, rfl, hplaced, rfl⟩)
  · exact wp_ret ⟨hs, .refl _⟩
  · have hquiet := hs.quiet
    have hreturns : s.returns ++ [reply] = [reply] := by rw [hs.returns, nil_append]
    refine wp_mono (handleWorkerReturns_spec hctx ?_ hreturns) ?_
    · refine { hquiet with returns := fun r hr => ?_ }
      dsimp only at hr
      rw [hreturns] at hr
      rw [mem_singleton.mp hr]
      exact hplaced
    · rintro alive t ⟨ht, hlater, hbatch, hcurrent, -, hnil, -⟩
      exact ⟨⟨ht, hbatch.trans hs.batch, hnil, hcurrent.trans hs.current⟩,
        { hlater with }⟩

theorem roomSelect_spec (hs : Rest ctx s) (fuel : ℕ) :
    wp (contract ctx) (roomSelect ctx fuel) (fun _ s' => Rest ctx s' ∧ Waits s s') s := by
  refine wp_perform trivial ?_
  rintro choice s rfl
  split
  · exact wp_mono (drainEvents_spec hctx hs fuel) fun _ _ h => ⟨h.1, h.2.waits⟩
  · refine wp_waited (.refl s) (returnWaited_spec hctx hs) fun alive s' hs' hwaits => ?_
    split
    · exact wp_ret ⟨hs', hwaits⟩
    · exact wp_ret ⟨hs', hwaits⟩
  · refine wp_perform trivial ?_
    rintro found s ⟨rfl, hplaced⟩
    obtain _ | outcome := found
    · exact wp_ret ⟨hs, .refl _⟩
    refine wp_seq (tally_spec hs (hplaced outcome rfl)) ?_
    rintro - s' ⟨hs', hwaits⟩
    refine wp_seq (poolGone_spec s') ?_
    rintro gone s' rfl
    split
    · exact wp_ret ⟨hs', hwaits⟩
    · exact wp_ret ⟨hs', hwaits⟩
  · exact wp_fail
  · exact wp_ret ⟨hs, .refl _⟩

theorem waitForRoom_spec (hs : Rest ctx s) (fuel : ℕ) :
    wp (contract ctx) (waitForRoom ctx fuel) (fun _ s' => Rest ctx s' ∧ Waits s s') s := by
  refine wp_seq (collectOutcomes_spec hs fuel) ?_
  rintro - s₁ ⟨hs₁, hwaits₁⟩
  refine wp_seq (poolGone_spec s₁) ?_
  rintro gone s₁ rfl
  split
  · exact wp_ret ⟨hs₁, hwaits₁⟩
  · refine wp_seq (roomSelect_spec hctx hs₁ fuel) ?_
    rintro outcome s₂ ⟨hs₂, hwaits₂⟩
    split
    · exact wp_ret ⟨hs₂, hwaits₁.trans hwaits₂⟩
    · refine wp_waited (hwaits₁.trans hwaits₂) (retryParkedFaults_spec hctx hs₂) fun alive s₃ hs₃ hwaits₃ => ?_
      split
      · exact wp_ret ⟨hs₃, hwaits₃⟩
      · exact wp_ret ⟨hs₃, hwaits₃⟩

theorem splitJobAgainstRemoved_planned (hs : Quiet ctx s)
    (h : ∀ run ∈ job.runs, run.Placed ctx) : (splitJobAgainstRemoved ctx s job).Planned ctx s.removed s.generation := by
  intro piece hpiece
  obtain ⟨run, hrun, hpiece⟩ := mem_flatMap.mp hpiece
  obtain ⟨⟨hmaps, hclear⟩, -⟩ := (PlainRuns.collect_new hctx hs.sound.counted (h run hrun)).2.2 piece hpiece
  exact ⟨hmaps, le_rfl, fun _ => hclear⟩

theorem flushJob_spec (hs : Rest ctx s) (waits fuel : ℕ) (hjob : job.Planned ctx s.removed s.generation) :
    wp (contract ctx) (flushJob ctx waits fuel job) (fun _ s' => Rest ctx s' ∧ Waits s s') s := by
  induction fuel generalizing s job with
  | zero =>
    refine wp_perform trivial ?_
    rintro - _ rfl
    exact wp_ret ⟨hs, .refl _⟩
  | succ fuel ih =>
    refine wp_perform trivial ?_
    rintro _ s ⟨rfl, rfl⟩
    have hplanned : (if job.generation ≠ s.generation then splitJobAgainstRemoved ctx s job else job).Planned ctx
        s.removed s.generation := by
      split
      · exact splitJobAgainstRemoved_planned hctx hs.quiet fun run hrun => (hjob run hrun).1
      · exact hjob
    dsimp only
    generalize (if job.generation ≠ s.generation then splitJobAgainstRemoved ctx s job else job) = again at hplanned
    split
    · exact wp_ret ⟨hs, .refl _⟩
    · have hepoch : s.epoch = s.generation := by
        unfold Handler.epoch
        rw [hs.quiet.unbumped]
        rfl
      refine wp_perform (by rw [← hepoch] at hplanned; exact hplanned) ?_
      rintro submitted s rfl
      cases submitted with
      | ok => exact wp_ret ⟨hs, .refl _⟩
      | disconnected => exact wp_ret ⟨hs, .refl _⟩
      | full =>
        refine wp_seq (waitForRoom_spec hctx hs waits) ?_
        rintro outcome s' ⟨hs', hwaits⟩
        split
        · refine wp_seq (vmGone_spec hs') ?_
          rintro - s'' ⟨hs'', hwaits'⟩
          exact wp_ret ⟨hs'', hwaits.trans hwaits'⟩
        · exact wp_mono (ih hs' (hplanned.since hwaits.since)) fun _ _ h => ⟨h.1, hwaits.trans h.2⟩

end Fcvm.Uffd
