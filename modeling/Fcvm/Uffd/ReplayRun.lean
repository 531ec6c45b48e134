import Fcvm.Uffd.Plan
import Fcvm.Uffd.ReplaySpec

namespace Fcvm.Uffd

open Library Prog List Option

variable {ctx : VmContext} {s : Handler}

variable {segment : Segment} {done : ℕ}

variable (hctx : ctx.Accepted)
include hctx

theorem flush_spec (hs : Rest ctx s) (fuel : ℕ) :
    wp (contract ctx) (flush ctx fuel) (fun _ s' => Rest ctx s' ∧ Since s s' ∧
      ∀ pool', s'.pool = some pool' → pool'.pending = []) s := by
  refine wp_perform trivial ?_
  rintro _ s ⟨rfl, rfl⟩
  split
  · next hnone =>
    refine wp_ret ⟨hs, .refl s, fun pool' hpool' => ?_⟩
    cases hnone.symm.trans hpool'
  · next pool hpool =>
    have hok := hs.quiet.pool pool hpool
    split
    · next hempty =>
      refine wp_ret ⟨hs, .refl s, fun pool' hpool' => ?_⟩
      cases hpool.symm.trans hpool'
      exact hempty
    · refine wp_seq (modifyPool_spec hs fun pool _ h => ⟨h.le, ?_, ?_, h.stale⟩) ?_
      · exact nofun
      · exact nofun
      · rintro - _ ⟨rfl, hs'⟩
        have hplanned : (ReplayJob.mk pool.pending pool.pendingGeneration).Planned ctx s.removed s.generation :=
          fun run hrun => ⟨hok.placed run hrun, hok.le, fun heq => hok.clear heq run hrun⟩
        refine wp_mono (flushJob_spec hctx hs' fuel fuel hplanned) ?_
        rintro - t ⟨ht, hwaits⟩
        refine ⟨ht, ⟨hwaits.since.generation, hwaits.since.removed, hwaits.since.planned⟩, fun pool' hpool' => ?_⟩
        obtain ⟨before, hbefore, heq⟩ := hwaits.pending pool' hpool'
        obtain ⟨old, -, rfl⟩ := map_eq_some_iff.mp hbefore
        exact heq

theorem dispatchPlain_spec (waits fuel : ℕ) {planned : ℕ} {plain : PlainRuns} (hs : Rest ctx s)
    (hle : planned ≤ s.generation) (hpool : ∀ pool, s.pool = some pool → pool.pendingGeneration ≤ planned)
    (hplain : plain.Ok ctx s.removed (planned = s.generation)) :
    wp (contract ctx) (dispatchPlain ctx waits planned fuel plain) (fun _ s' => Rest ctx s' ∧ Since s s') s := by
  induction fuel generalizing s plain with
  | zero =>
    refine wp_perform trivial ?_
    rintro - s rfl
    exact wp_ret ⟨hs, .refl s⟩
  | succ fuel ih =>
    refine wp_perform trivial ?_
    rintro _ s ⟨rfl, rfl⟩
    split
    · exact wp_ret ⟨hs, .refl s⟩
    · next run plain' hnext =>
      have hspec := PlainRuns.next_spec hctx hs.quiet.sound.counted hplain
      rw [hnext] at hspec
      obtain ⟨⟨hmaps, hclear, hplain'⟩, -⟩ := hspec
      refine wp_seq (modifyPool_spec hs fun pool hsome h => ⟨h.le, ?_, ?_, h.stale⟩) ?_
      · intro other hother
        rcases mem_append.mp hother with hother | hother
        · exact h.placed other hother
        · rw [mem_singleton.mp hother]
          exact hmaps
      · intro heq other hother
        rcases mem_append.mp hother with hother | hother
        · exact h.clear heq other hother
        · rw [mem_singleton.mp hother]
          have hpending := hpool pool hsome
          apply hclear
          dsimp only at heq
          omega
      · rintro - _ ⟨rfl, hs'⟩
        refine wp_perform trivial ?_
        rintro _ s' ⟨rfl, hs₁⟩
        subst hs₁
        have hpool' : ∀ pool', (s.pool.map fun pool => { pool with
            pendingBytes := pool.pendingBytes + run.len, pending := pool.pending ++ [run] }) = some pool' →
            pool'.pendingGeneration ≤ planned := by
          intro pool' hmap
          obtain ⟨pool, hold, rfl⟩ := map_eq_some_iff.mp hmap
          exact hpool pool hold
        split
        · refine wp_seq (flush_spec hctx hs' waits) ?_
          rintro flushed t ⟨ht, hsince, hempty⟩
          have hsince' : Since s t := ⟨hsince.generation, hsince.removed, hsince.planned⟩
          have hle' := hsince'.generation
          split
          · refine wp_seq (poolGone_spec t) ?_
            rintro gone t rfl
            split
            · exact wp_ret ⟨ht, hsince'⟩
            · refine wp_seq (modifyPool_spec ht fun pool hsome h => ⟨hle.trans hle', h.placed, ?_, h.stale⟩) ?_
              · intro _ other hother
                simp [hempty pool hsome] at hother
              · rintro - _ ⟨rfl, hu⟩
                refine wp_mono (ih hu (hle.trans hle') ?_ ?_) fun _ _ h => ⟨h.1, hsince'.trans ?_⟩
                · intro pool' hsome
                  obtain ⟨pool, -, rfl⟩ := map_eq_some_iff.mp hsome
                  exact le_rfl
                · refine hplain'.weaken fun heq => ?_
                  dsimp only at heq ⊢
                  exact ⟨by omega, hsince'.removed (by omega)⟩
                · exact ⟨h.2.generation, h.2.removed, h.2.planned⟩
          · exact wp_ret ⟨ht, hsince'⟩
        · refine wp_mono (ih hs' hle hpool' hplain') fun _ _ h => ⟨h.1, ?_⟩
          exact ⟨h.2.generation, h.2.removed, h.2.planned⟩

variable (fuel : ℕ)

theorem dispatchRun_spec {run : ReplayRun} (hs : Rest ctx s) (hrun : run.Placed ctx) :
    wp (contract ctx) (dispatchRun ctx fuel run) (fun _ s' => Rest ctx s' ∧ Since s s') s := by
  refine wp_perform trivial ?_
  rintro _ s ⟨rfl, rfl⟩
  refine wp_seq (modifyPool_spec hs fun pool _ h => ?_) ?_
  · split
    · next hempty =>
      refine ⟨le_rfl, h.placed, fun _ other hother => ?_, h.stale⟩
      dsimp only at hother
      simp [hempty] at hother
    · exact h
  · rintro - _ ⟨rfl, hs'⟩
    refine wp_mono (dispatchPlain_spec hctx fuel fuel hs' le_rfl ?_ (PlainRuns.ok_new hrun)) fun _ _ h => ⟨h.1, ?_⟩
    · intro pool' hmap
      obtain ⟨pool, hold, rfl⟩ := map_eq_some_iff.mp hmap
      split
      · exact le_rfl
      · exact (hs.quiet.pool pool hold).le
    · exact ⟨h.2.generation, h.2.removed, h.2.planned⟩

theorem dispatchRuns_spec {runs : List ReplayRun} (hs : Rest ctx s) (hruns : ∀ run ∈ runs, run.Placed ctx) :
    wp (contract ctx) (dispatchRuns ctx fuel runs) (fun _ s' => Rest ctx s' ∧ Since s s') s := by
  induction runs generalizing s with
  | nil => exact wp_ret ⟨hs, .refl s⟩
  | cons run runs ih =>
    refine wp_seq (dispatchRun_spec hctx fuel hs (hruns run mem_cons_self)) ?_
    rintro sent s' ⟨hs', hsince⟩
    split
    · exact wp_mono (ih hs' fun other hother => hruns other (mem_cons_of_mem _ hother)) fun _ _ h =>
        ⟨h.1, hsince.trans h.2⟩
    · exact wp_ret ⟨hs', hsince⟩

theorem replanStale_spec (hs : Rest ctx s) :
    wp (contract ctx) (replanStale ctx fuel) (fun _ s' => Rest ctx s' ∧ Since s s') s := by
  refine wp_perform trivial ?_
  rintro _ s ⟨rfl, rfl⟩
  split
  · exact wp_ret ⟨hs, .refl s⟩
  · next pool hpool =>
    have hstale := (hs.quiet.pool pool hpool).stale
    refine wp_seq (modifyPool_spec hs fun pool _ h => ⟨h.le, h.placed, h.clear, ?_⟩) ?_
    · exact nofun
    · rintro - _ ⟨rfl, hs'⟩
      refine wp_seq (dispatchRuns_spec hctx fuel hs' fun run hrun => ?_) ?_
      · obtain ⟨job, hjob, hrun⟩ := mem_flatMap.mp hrun
        exact hstale job hjob run hrun
      · rintro - t ⟨ht, hsince⟩
        exact wp_ret ⟨ht, ⟨hsince.generation, hsince.removed, hsince.planned⟩⟩

omit hctx in
theorem dropPool_moves (s : Handler) : s.Moves ctx { s with pool := none } := {}

omit hctx in
theorem Rest.without_pool (hs : Rest ctx s) : Rest ctx { s with pool := none } := by
  have hquiet := hs.quiet
  refine ⟨?_, hs.batch, hs.returns, hs.current⟩
  exact { hquiet with pool := nofun }

omit hctx in
theorem dropPool_spec (s : Handler) :
    wp (contract ctx) dropPool (fun _ s' => s' = { s with pool := none }) s := by
  refine wp_perform trivial ?_
  rintro - s rfl
  refine wp_perform trivial ?_
  rintro - s rfl
  refine wp_perform trivial ?_
  rintro - s rfl
  refine ⟨dropPool_moves s, ?_⟩
  rintro - _ rfl
  exact rfl

omit hctx in
theorem copyChunk_spec {source : Copied} {chunk : Segment}
    (hsnapshot : source = .snapshot → Maps ctx chunk.hostAddr chunk.fileOffset chunk.len ∧
      s.removed.Clear ctx.pageSize chunk.fileOffset chunk.len)
    (halone : source = .alone → s.unbumped = false ∧ Maps ctx chunk.hostAddr chunk.fileOffset chunk.len ∧
      (s.planned = s.generation → s.removed.Clear ctx.pageSize chunk.fileOffset chunk.len)) :
    wp (contract ctx) (copyChunk chunk source) (fun answer s' => s' = s.answered chunk.hostAddr answer ∧
      ∀ bytes, answer = .populated bytes → ctx.pageSize ∣ bytes ∧ 0 < bytes ∧ bytes ≤ chunk.len) s := by
  cases source with
  | snapshot =>
    refine ⟨fun fileOffset hsource _ _ => ?_, fun _ _ h => h⟩
    cases hsource
    exact hsnapshot rfl
  | alone => exact ⟨halone rfl, fun _ _ h => h⟩
  | zeros | zeroPage | minor => exact ⟨nofun, fun _ _ h => h⟩

theorem populateChunk_spec {source : Copied} (hlen : ctx.pageSize ∣ segment.len - done)
    (hmaps : source = .snapshot ∨ source = .alone →
      Maps ctx (segment.hostAddr + done) (segment.fileOffset + done) (segment.len - done))
    (hsnapshot : source = .snapshot → s.removed.Clear ctx.pageSize (segment.fileOffset + done) (segment.len - done))
    (halone : source = .alone → s.unbumped = false ∧
      (s.planned = s.generation → s.removed.Clear ctx.pageSize (segment.fileOffset + done) (segment.len - done))) :
    wp (contract ctx) (populateChunk ctx source segment done)
      (fun result s' => Fills s s' ∧ ∀ bytes, result = .ok bytes → ctx.pageSize ∣ bytes) s := by
  unfold populateChunk
  split
  · exact wp_ret ⟨.refl s, nofun⟩
  · next chunk hchunk =>
    obtain ⟨hdone, rfl⟩ := chunkAt_eq_some hchunk
    have hdvd : ctx.pageSize ∣ min CHUNK_BYTES (segment.len - done) := by
      rcases min_choice CHUNK_BYTES (segment.len - done) with hm | hm
      · rw [hm]
        exact hctx.pageSize_dvd_chunk
      · rw [hm]
        exact hlen
    have hpos : 0 < min CHUNK_BYTES (segment.len - done) := by
      have hchunk : 0 < CHUNK_BYTES := by decide
      omega
    generalize hn : min CHUNK_BYTES (segment.len - done) = n at hdvd hpos
    have hn' : n ≤ segment.len - done := by omega
    have hspec := @copyChunk_spec ctx s source ⟨segment.hostAddr + done, segment.fileOffset + done, n⟩
      (fun h => ⟨(hmaps (.inl h)).take hn' hdvd, (hsnapshot h).mono le_rfl (Nat.add_le_add_left hn' _)⟩)
      (fun h => ⟨(halone h).1, (hmaps (.inr h)).take hn' hdvd,
        fun heq => ((halone h).2 heq).mono le_rfl (Nat.add_le_add_left hn' _)⟩)
    refine wp_seq hspec ?_
    rintro answer _ ⟨rfl, hbytes⟩
    have hfills := fills_answered s (segment.hostAddr + done) answer
    cases answer with
    | populated bytes =>
      refine wp_ret ⟨hfills, fun found hfound => ?_⟩
      cases hfound
      exact (hbytes bytes rfl).1
    | present =>
      refine wp_ret ⟨hfills, fun found hfound => ?_⟩
      cases hfound
      rw [min_eq_left (Nat.le_of_dvd hpos hdvd)]
    | gone | again | invalid | failed => exact wp_ret ⟨hfills, nofun⟩

def ChunkStep.Whole (ctx : VmContext) (step : ChunkStep) : Prop := ∀ bytes, step = .advance bytes → ctx.pageSize ∣ bytes

omit hctx in
theorem ChunkStep.whole_ofPopulate {result : Except Stop ℕ} (h : ∀ bytes, result = .ok bytes → ctx.pageSize ∣ bytes) :
    (ChunkStep.ofPopulate result).Whole ctx := by
  intro bytes hstep
  cases result with
  | ok n =>
    cases hstep
    exact h _ rfl
  | error stop => cases stop <;> cases hstep

theorem replayHole_spec {run : ℕ} (hs : Rest ctx s) (hrun : ctx.pageSize ∣ run) :
    wp (contract ctx) (replayHole ctx segment done run) (fun step s' => Rest ctx s' ∧ step.Whole ctx) s := by
  have hfill : ∀ source : Copied, source ≠ .snapshot → source ≠ .alone →
      wp (contract ctx) (do
        let filled ← populateChunk ctx source ⟨segment.hostAddr + done, 0, run⟩ 0
        pure (ChunkStep.ofPopulate filled)) (fun step s' => Rest ctx s' ∧ step.Whole ctx) s := by
    intro source hsnapshot halone
    refine wp_seq (populateChunk_spec hctx hrun ?_ (fun h => (hsnapshot h).elim) fun h => (halone h).elim) ?_
    · rintro (h | h)
      · exact (hsnapshot h).elim
      · exact (halone h).elim
    · rintro result s' ⟨hfills, hwhole⟩
      exact wp_ret ⟨hs.of_fills hfills, ChunkStep.whole_ofPopulate hwhole⟩
  refine wp_perform trivial ?_
  rintro _ s ⟨rfl, rfl⟩
  split
  · exact wp_ret ⟨hs, nofun⟩
  · split
    · exact hfill .zeroPage (by decide) (by decide)
    · refine wp_perform trivial ?_
      rintro answer s rfl
      split
      · refine wp_ret ⟨hs, fun bytes h => ?_⟩
        cases h
        exact hrun
      · exact hfill .zeros (by decide) (by decide)

theorem replayPlain_spec {run : ℕ} (hs : Rest ctx s)
    (hmaps : Maps ctx (segment.hostAddr + done) (segment.fileOffset + done) run) (hplanned : s.planned = s.generation)
    (hclear : s.removed.Clear ctx.pageSize (segment.fileOffset + done) run)
    (hhost : segment.hostAddr + done < ADDRESSES) (hfile : segment.fileOffset + done < ADDRESSES) :
    wp (contract ctx) (replayPlain ctx fuel segment done run) (fun step s' => Rest ctx s' ∧ step.Whole ctx) s := by
  have hlen : done + run - done = run := Nat.add_sub_cancel_left done run
  refine wp_perform trivial ?_
  rintro _ s ⟨rfl, rfl⟩
  split
  · refine wp_seq (populateChunk_spec hctx ?_ ?_ ?_ ?_) ?_
    · dsimp only
      rw [hlen]
      exact hmaps.len_dvd
    · intro _
      dsimp only
      rw [hlen]
      exact hmaps
    · intro _
      dsimp only
      rw [hlen]
      exact hclear
    · intro hsource
      split at hsource <;> cases hsource
    · rintro result s' ⟨hfills, hwhole⟩
      exact wp_ret ⟨hs.of_fills hfills, ChunkStep.whole_ofPopulate hwhole⟩
  · refine wp_seq (collectOutcomes_spec hs fuel) ?_
    rintro - s₁ ⟨hs₁, hwaits⟩
    refine wp_seq (replanStale_spec hctx fuel hs₁) ?_
    rintro - s₂ ⟨hs₂, hsince₂⟩
    have hhanded : ctx.pageSize ∣ min run CHUNK_BYTES := by
      rcases min_choice run CHUNK_BYTES with hm | hm
      · rw [hm]
        exact hmaps.len_dvd
      · rw [hm]
        exact hctx.pageSize_dvd_chunk
    refine wp_seq (dispatchRun_spec hctx fuel hs₂ ?_) ?_
    · unfold ReplayRun.Placed
      dsimp only
      rw [saturatingAdd_eq hhost, saturatingAdd_eq hfile]
      exact hmaps.take (min_le_left _ _) hhanded
    · rintro sent s₃ ⟨hs₃, hsince₃⟩
      have hsince := (hwaits.since.trans hsince₂).trans hsince₃
      split
      · refine wp_seq (poolGone_spec s₃) ?_
        rintro gone s₃ rfl
        split
        · exact wp_ret ⟨hs₃, nofun⟩
        · refine wp_ret ⟨hs₃, fun bytes h => ?_⟩
          cases h
          exact hhanded
      · refine wp_seq (dropPool_spec s₃) ?_
        rintro - _ rfl
        refine wp_seq (populateChunk_spec hctx ?_ ?_ nofun fun _ => ⟨hs₃.quiet.unbumped, fun heq => ?_⟩) ?_
        · dsimp only
          rw [hlen]
          exact hmaps.len_dvd
        · intro _
          dsimp only
          rw [hlen]
          exact hmaps
        · dsimp only at heq ⊢
          rw [hlen]
          have hle := hsince.generation
          rw [hsince.planned] at heq
          rw [hsince.removed (by omega)]
          exact hclear
        · rintro result t ⟨hfills, hwhole⟩
          exact wp_ret ⟨hs₃.without_pool.of_fills hfills, ChunkStep.whole_ofPopulate hwhole⟩

omit hctx in
theorem memfdRun_spec {run : ℕ} (answer : ℕ) (hrun : ctx.pageSize ∣ run) :
    (memfdRun ctx run answer).2 ≤ run ∧ ctx.pageSize ∣ (memfdRun ctx run answer).2 := by
  unfold memfdRun
  split
  · refine ⟨min_le_left _ _, ?_⟩
    rcases min_choice run ((answer / 2 + 1) * ctx.pageSize) with hm | hm
    · rw [hm]
      exact hrun
    · rw [hm]
      exact Nat.dvd_mul_left _ _
  · exact ⟨le_rfl, hrun⟩

theorem replayChunk_spec (hs : Rest ctx s)
    (hmaps : Maps ctx segment.hostAddr segment.fileOffset segment.len) (hdone : done < segment.len)
    (hdvd : ctx.pageSize ∣ done) :
    wp (contract ctx) (replayChunk ctx fuel segment done) (fun step s' => Rest ctx s' ∧ step.Whole ctx) s := by
  have hrest := hmaps.drop hdone.le hdvd
  unfold replayChunk
  split
  · exact wp_ret ⟨hs, nofun⟩
  · refine wp_perform {} ?_
    rintro - _ rfl
    have hs' : Rest ctx { s with planned := s.generation } :=
      ⟨hs.quiet.of_eq rfl rfl, hs.batch, hs.returns, hs.current⟩
    refine wp_seq (skipRunAt_spec hctx hs'.quiet.sound _ _) ?_
    rintro ⟨zero, run⟩ _ ⟨rfl, hfound⟩
    obtain ⟨hle, hwhole, hclear⟩ := hfound hrest.file_dvd
    have hrun := hwhole hrest.len_dvd
    dsimp only at hle hrun hclear ⊢
    refine wp_perform trivial ?_
    rintro answer _ rfl
    split
    · refine wp_ret ⟨hs', fun bytes h => ?_⟩
      cases h
      exact hrun
    · exact replayHole_spec hctx hs' hrun
    · obtain ⟨hcut, hcut'⟩ := memfdRun_spec answer hrun
      generalize memfdRun ctx run answer = found at hcut hcut'
      obtain ⟨hole, cut⟩ := found
      dsimp only at hcut hcut' ⊢
      split
      · refine wp_ret ⟨hs', fun bytes h => ?_⟩
        cases h
        exact hcut'
      · have hhost := hrest.places.host_lt hctx (by omega)
        have hfile := hrest.places.file_lt hctx (by omega)
        apply replayPlain_spec hctx fuel hs' (hrest.take (by omega) hcut') rfl
        · exact (hclear rfl).mono le_rfl (by omega)
        · omega
        · omega

theorem drainIfReadable_spec (hs : Rest ctx s) (fuel : ℕ) :
    wp (contract ctx) (drainIfReadable ctx fuel) (fun _ s' => Rest ctx s') s := by
  refine wp_seq (finishWorkerReturns_spec hctx hs) ?_
  rintro alive s₁ ⟨hs₁, -⟩
  split
  · refine wp_perform trivial ?_
    rintro ready _ rfl
    split
    · exact wp_fail
    · exact wp_mono (drainEvents_spec hctx hs₁ fuel) fun _ _ h => h.1
    · exact wp_ret hs₁
  · exact wp_ret hs₁

theorem replayChunks_spec (waits fuel : ℕ) (hs : Rest ctx s)
    (hmaps : Maps ctx segment.hostAddr segment.fileOffset segment.len) (hdvd : ctx.pageSize ∣ done) :
    wp (contract ctx) (replayChunks ctx waits segment fuel done) (fun _ s' => Rest ctx s') s := by
  induction fuel generalizing s done with
  | zero =>
    refine wp_perform trivial ?_
    rintro - _ rfl
    exact wp_ret hs
  | succ fuel ih =>
    unfold replayChunks
    split
    · exact wp_ret hs
    · next hdone =>
      refine wp_seq (drainIfReadable_spec hctx hs waits) fun outcome s₁ hs₁ => ?_
      split
      · exact wp_ret hs₁
      · refine wp_seq (retryParkedFaults_spec hctx hs₁) ?_
        rintro alive s₂ ⟨hs₂, -⟩
        split
        · refine wp_perform trivial ?_
          rintro _ s₂ ⟨rfl, rfl⟩
          split
          · exact ih hs₂ hdvd
          · refine wp_seq (replayChunk_spec hctx waits hs₂ hmaps (by omega) hdvd) ?_
            rintro step s₃ ⟨hs₃, hwhole⟩
            cases step with
            | advance bytes => exact ih hs₃ (Nat.dvd_add hdvd (hwhole bytes rfl))
            | giveUp => exact wp_ret hs₃
            | exited => exact wp_ret hs₃
        · exact wp_ret hs₂

theorem replaySegments_spec {segments : List Segment} (hs : Rest ctx s)
    (hmaps : ∀ segment ∈ segments, Maps ctx segment.hostAddr segment.fileOffset segment.len) (passed : ℕ) :
    wp (contract ctx) (replaySegments ctx fuel segments passed) (fun _ s' => Rest ctx s') s := by
  induction segments generalizing s passed with
  | nil => exact wp_ret hs
  | cons segment segments ih =>
    have hsegment := hmaps segment mem_cons_self
    refine wp_perform trivial ?_
    rintro _ s ⟨rfl, rfl⟩
    dsimp only
    split
    · exact wp_ret hs
    · refine wp_seq (replayChunks_spec hctx fuel fuel hs ?_ (dvd_zero _)) fun alive s' hs' => ?_
      · refine hsegment.take (min_le_left _ _) ?_
        cases s.replayLimit with
        | none =>
          rw [map_none, getD_none, min_self]
          exact hsegment.len_dvd
        | some limit =>
          rw [map_some, getD_some]
          rcases min_choice segment.len ((limit - passed) / ctx.pageSize * ctx.pageSize) with hm | hm
          · rw [hm]
            exact hsegment.len_dvd
          · rw [hm]
            exact Nat.dvd_mul_left _ _
      · split
        · exact ih hs' (fun other hother => hmaps other (mem_cons_of_mem _ hother)) _
        · exact wp_ret hs'

theorem finishSelect_spec (waits : ℕ) (hs : Rest ctx s) :
    wp (contract ctx) (finishLoop.finishSelect ctx waits) (fun _ s' => Rest ctx s') s := by
  have hgone : ∀ {s' : Handler}, Rest ctx s' →
      wp (contract ctx) (do modifyPool fun pool => { pool with vmGone := true }; pure false)
        (fun _ s'' => Rest ctx s'') s' := fun hs' => wp_seq (vmGone_spec hs') fun _ _ h => wp_ret h.1
  refine wp_perform trivial ?_
  rintro choice s rfl
  split
  · refine wp_seq (drainEvents_spec hctx hs waits) ?_
    rintro outcome s' ⟨hs', -⟩
    split
    · exact hgone hs'
    · exact wp_ret hs'
  · refine wp_perform trivial ?_
    rintro found s ⟨rfl, hplaced⟩
    cases found with
    | none => exact wp_ret hs
    | some outcome => exact wp_seq (tally_spec hs (hplaced outcome rfl)) fun _ _ h => wp_ret h.1
  · refine wp_seq (returnWaited_spec hctx hs) ?_
    rintro alive s' ⟨hs', -⟩
    split
    · exact wp_ret hs'
    · exact hgone hs'
  · exact wp_fail
  · exact wp_ret hs

theorem finishLoop_spec (waits fuel : ℕ) (hs : Rest ctx s) :
    wp (contract ctx) (finishLoop ctx waits fuel) (fun _ s' => Rest ctx s') s := by
  induction fuel generalizing s with
  | zero =>
    refine ⟨trivial, ?_⟩
    rintro - _ rfl
    exact hs
  | succ fuel ih =>
    refine wp_seq (finishSelect_spec hctx waits hs) fun ended s₁ hs₁ => ?_
    split
    · exact wp_ret hs₁
    · refine wp_seq (poolGone_spec s₁) ?_
      rintro gone _ rfl
      split
      · exact ih hs₁
      · refine wp_seq (retryParkedFaults_spec hctx hs₁) ?_
        rintro alive s₂ ⟨hs₂, -⟩
        split
        · exact ih hs₂
        · exact wp_seq (vmGone_spec hs₂) fun _ _ h => ih h.1

theorem flushLast_spec (hs : Rest ctx s) : wp (contract ctx) (flushLast ctx fuel) (fun _ s' => Rest ctx s') s := by
  refine wp_seq (poolGone_spec s) ?_
  rintro gone s rfl
  split
  · exact wp_ret hs
  · exact wp_seq (flush_spec hctx hs fuel) fun _ _ h => wp_ret h.1

theorem finish_spec (hs : Rest ctx s) : wp (contract ctx) (finish ctx fuel) (fun _ s' => Rest ctx s') s := by
  refine wp_seq (flushLast_spec hctx fuel hs) fun _ s₁ hs₁ => ?_
  refine wp_perform trivial ?_
  rintro - _ rfl
  refine wp_seq (finishLoop_spec hctx fuel fuel hs₁) fun _ s₂ hs₂ => ?_
  refine wp_perform trivial ?_
  rintro - _ rfl
  refine wp_seq (poolGone_spec _) ?_
  rintro gone _ rfl
  refine wp_perform (dropPool_moves _) ?_
  rintro - _ rfl
  exact wp_ret hs₂.without_pool

theorem finishPool_spec (hs : Rest ctx s) : wp (contract ctx) (finishPool ctx fuel) (fun _ s' => Rest ctx s') s := by
  refine wp_perform trivial ?_
  rintro _ s ⟨rfl, rfl⟩
  split
  · exact finish_spec hctx fuel hs
  · exact wp_ret hs

omit hctx in
theorem Rest.replaying (hs : Rest ctx s) (replaying : Bool) : Rest ctx { s with replaying := replaying } :=
  ⟨hs.quiet.of_eq rfl rfl, hs.batch, hs.returns, hs.current⟩

theorem replayWorkingSet_spec {plan : List Segment} (hs : Rest ctx s)
    (hplan : ∀ segment ∈ plan, Maps ctx segment.hostAddr segment.fileOffset segment.len) :
    wp (contract ctx) (replayWorkingSet ctx fuel plan) (fun _ s' => Rest ctx s') s := by
  refine wp_perform {} ?_
  rintro - _ rfl
  have hrun : wp (contract ctx) ((replaySegments ctx fuel plan 0).orElse do dropPool; Prog.fail)
      (fun _ s' => Rest ctx s') { s with replaying := true } :=
    wp_orElse (replaySegments_spec hctx fuel (hs.replaying true) hplan 0) fun t =>
      wp_seq (dropPool_spec t) fun _ _ _ => wp_fail
  refine wp_seq hrun fun ran s₁ hs₁ => ?_
  refine wp_seq (finishPool_spec hctx fuel hs₁) fun gone s₂ hs₂ => ?_
  refine wp_perform {} ?_
  rintro - _ rfl
  exact wp_ret (hs₂.replaying false)

theorem serveSelect_spec (waits : ℕ) (hs : Rest ctx s) :
    wp (contract ctx) (serveFaults.serveSelect ctx waits) (fun _ s' => Rest ctx s') s := by
  refine wp_perform trivial ?_
  rintro choice s rfl
  split
  · refine wp_perform { gone := fun _ => rfl } ?_
    rintro - _ rfl
    exact wp_ret ⟨hs.quiet.of_eq rfl rfl, hs.batch, hs.returns, hs.current⟩
  · exact wp_seq (drainEvents_spec hctx hs waits) fun _ _ h => wp_ret h.1
  · refine wp_seq (returnWaited_spec hctx hs) ?_
    rintro alive s' ⟨hs', -⟩
    split
    · exact wp_mono (finishWorkerReturns_spec hctx hs') fun _ _ h => h.1
    · exact wp_ret hs'
  · exact wp_fail
  · exact wp_ret hs

theorem serveFaults_spec (waits fuel : ℕ) (hs : Rest ctx s) :
    wp (contract ctx) (serveFaults ctx waits fuel) (fun _ s' => Rest ctx s') s := by
  induction fuel generalizing s with
  | zero =>
    refine ⟨trivial, ?_⟩
    rintro - _ rfl
    exact hs
  | succ fuel ih =>
    refine wp_seq (serveSelect_spec hctx waits hs) fun alive s₁ hs₁ => ?_
    split
    · refine wp_seq (retryParkedFaults_spec hctx hs₁) ?_
      rintro alive s₂ ⟨hs₂, -⟩
      split
      · exact ih hs₂
      · exact wp_ret hs₂
    · exact wp_ret hs₁

theorem replayThenServe_spec (recorded : List (ℕ × ℕ)) (hs : Rest ctx s) :
    wp (contract ctx) (replayThenServe ctx fuel recorded) (fun _ s' => Rest ctx s') s := by
  unfold replayThenServe
  split
  · exact serveFaults_spec hctx fuel fuel hs
  · refine wp_seq (replayWorkingSet_spec hctx fuel hs (plan_maps hctx recorded)) fun finished s₁ hs₁ => ?_
    split
    · exact serveFaults_spec hctx fuel fuel hs₁
    · exact wp_ret hs₁

end Fcvm.Uffd
