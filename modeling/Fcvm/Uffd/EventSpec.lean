import Fcvm.Uffd.DrainSpec

namespace Fcvm.Uffd

open Library Prog List

variable {ctx : VmContext} {s : Handler}

structure Later (s s' : Handler) : Prop where
  generation : s.generation ≤ s'.generation
  removed : s'.generation = s.generation → s'.removed = s.removed
  pool : s'.pool = s.pool
  planned : s'.planned = s.planned

namespace Later

theorem refl (s : Handler) : Later s s := ⟨le_rfl, fun _ => rfl, rfl, rfl⟩

theorem trans {s s' s'' : Handler} (h : Later s s') (h' : Later s' s'') : Later s s'' := by
  refine ⟨h.generation.trans h'.generation, fun heq => ?_, h'.pool.trans h.pool, h'.planned.trans h.planned⟩
  have hle := h.generation
  have hle' := h'.generation
  rw [h'.removed (by omega), h.removed (by omega)]

end Later

theorem Stays.later {s s' : Handler} (h : Stays s s') : Later s s' :=
  ⟨h.generation.ge, fun _ => h.removed, h.pool, h.planned⟩

theorem ReplayWorkers.Ok.later {pool : ReplayWorkers} {s s' : Handler} (h : pool.Ok ctx s.removed s.generation)
    (hlater : Later s s') : pool.Ok ctx s'.removed s'.generation := by
  refine ⟨h.le.trans hlater.generation, h.placed, fun heq => ?_, h.stale⟩
  -- nothing was recorded since where the generation is still the one of the plan
  have hle := h.le
  have hle' := hlater.generation
  rw [hlater.removed (by omega)]
  exact h.clear (by omega)

def Records (ctx : VmContext) (s s' : Handler) : Prop :=
  ∃ removed generation, s' = { s with removed := removed, generation := generation, unbumped := false } ∧
    removed.Sound ctx.pageSize ctx.memSize ∧ s.generation ≤ generation ∧
    (generation = s.generation → removed = s.removed)

namespace Records

theorem refl (hunbumped : s.unbumped = false) (hsound : s.removed.Sound ctx.pageSize ctx.memSize) :
    Records ctx s s := by
  refine ⟨s.removed, s.generation, ?_, hsound, le_rfl, fun _ => rfl⟩
  rw [← hunbumped]

theorem trans {s' s'' : Handler} (h : Records ctx s s') (h' : Records ctx s' s'') : Records ctx s s'' := by
  obtain ⟨removed, generation, rfl, hsound, hle, hsame⟩ := h
  obtain ⟨removed', generation', rfl, hsound', hle', hsame'⟩ := h'
  dsimp only at hle' hsame'
  refine ⟨removed', generation', rfl, hsound', hle.trans hle', fun heq => ?_⟩
  rw [hsame' (by omega), hsame (by omega)]

end Records

variable (hctx : ctx.Accepted)
include hctx

theorem recordRemove_spec (hholding : s.holding = true) (hunbumped : s.unbumped = false)
    (hsound : s.removed.Sound ctx.pageSize ctx.memSize) (start stop : ℕ) :
    wp (contract ctx) (recordRemove ctx start stop) (fun _ s' => Records ctx s s') s := by
  unfold recordRemove
  split
  · exact wp_ret (.refl hunbumped hsound)
  · refine wp_perform ⟨hholding, hunbumped⟩ ?_
    rintro - _ rfl
    refine ⟨⟨hholding, rfl⟩, ?_⟩
    rintro - _ rfl
    refine ⟨_, s.generation + 1, rfl, (rememberRemoved_spec hctx hsound start stop).1, Nat.le_succ _, fun heq => ?_⟩
    omega

theorem recordRemoves_spec (hholding : s.holding = true) (hunbumped : s.unbumped = false)
    (hsound : s.removed.Sound ctx.pageSize ctx.memSize) (events : List Event) :
    wp (contract ctx) (recordRemoves ctx events) (fun _ s' => Records ctx s s') s := by
  induction events generalizing s with
  | nil => exact wp_ret (.refl hunbumped hsound)
  | cons event events ih =>
    cases event with
    | remove start stop =>
      refine wp_seq (recordRemove_spec hctx hholding hunbumped hsound start stop) fun _ s' hs' => ?_
      have hstep : wp (contract ctx) (recordRemoves ctx events) (fun _ s'' => Records ctx s' s'') s' := by
        obtain ⟨removed, generation, rfl, hsound', -⟩ := hs'
        exact ih hholding rfl hsound'
      exact wp_mono hstep fun _ _ h => hs'.trans h
    | pagefault | other => exact ih hholding hunbumped hsound

theorem readUnderGate_spec (hs : Quiet ctx s) (hbatch : s.batch = []) (houtcome : s.outcome = none) (room : ℕ) :
    wp (contract ctx) (readUnderGate ctx room) (fun read s' => Quiet ctx s' ∧ Later s s' ∧ s'.current = s.current ∧
      s'.returns = s.returns ∧ s'.outcome = none ∧ s'.batch.length ≤ room ∧ (read = false ↔ s'.batch = [])) s := by
  refine wp_perform ⟨hs.holding, hs.unbumped⟩ ?_
  rintro - _ rfl
  refine wp_perform ⟨rfl, hs.unbumped⟩ ?_
  rintro - _ rfl
  refine wp_perform ⟨rfl, hs.unbumped, hbatch, houtcome⟩ ?_
  rintro _ _ (⟨rfl, rfl⟩ | ⟨events, rfl, hlen, rfl⟩)
  · refine wp_perform hs.unbumped ?_
    rintro - _ rfl
    exact wp_fail
  · refine wp_seq (recordRemoves_spec hctx (by rfl) (by exact hs.unbumped) (by exact hs.sound) events) ?_
    rintro - _ ⟨removed, generation, rfl, hsound, hle, hsame⟩
    refine wp_perform rfl ?_
    rintro - _ rfl
    refine wp_ret ⟨?_, ⟨hle, hsame, rfl, rfl⟩, rfl, rfl, houtcome, hlen, ?_⟩
    · exact ⟨rfl, rfl, rfl, hsound, hs.workers, fun pool hpool => (hs.pool pool hpool).later ⟨hle, hsame, rfl, rfl⟩,
        hs.parked, hs.returns⟩
    · cases events with
      | nil => exact ⟨fun _ => rfl, fun _ => rfl⟩
      | cons event events => exact ⟨nofun, nofun⟩

theorem handleEvent_spec {event : Event} {rest : List Event} (hs : Quiet ctx s)
    (hcurrent : s.current = none) (houtcome : s.outcome = none) (hbatch : s.batch = event :: rest) (fuel : ℕ) :
    wp (contract ctx) (handleEvent ctx fuel event) (fun alive s' => Quiet ctx s' ∧ Later s s' ∧ s'.batch = rest ∧
      s'.returns = s.returns ∧ s'.outcome = none ∧ (alive = true → s'.current = none) ∧
      (alive = false → s'.gone = true)) s := by
  have hmoves : ∀ current, (event.fault ctx = none ∨ event.fault ctx = current) →
      s.Moves ctx { s with batch := s.batch.tail, current := current } := by
    intro current hevent
    refine { keeps := fun f hf => .inl ?_, tidy := fun _ h => ?_ }
    · rcases hf with hf | ⟨e, he, hf⟩ | hf | hf
      · cases hcurrent.symm.trans hf
      · rw [hbatch] at he
        rcases mem_cons.mp he with rfl | he
        · rcases hevent with hevent | hevent
          · cases hf.symm.trans hevent
          · exact .inl (hevent.symm.trans hf)
        · refine .inr (.inl ⟨e, ?_, hf⟩)
          dsimp only
          rw [hbatch]
          exact he
      · exact .inr (.inr (.inl hf))
      · exact .inr (.inr (.inr hf))
    · dsimp only at h
      rw [houtcome] at h
      rcases h with h | h <;> cases h
  have hrest : s.batch.tail = rest := by rw [hbatch, tail_cons]
  cases event with
  | pagefault addr minorFault write =>
    refine wp_perform (hmoves (some ⟨ctx.faultPage addr, write⟩) (.inr rfl)) ?_
    rintro - _ rfl
    refine wp_mono (serveFault_spec hctx (by exact hs.of_eq rfl rfl) (by rfl) fuel minorFault) fun alive s' h => ?_
    exact ⟨h.quiet, ⟨h.stays.generation.ge, fun _ => h.stays.removed, h.stays.pool, h.stays.planned⟩,
      h.stays.batch.trans hrest, h.stays.returns,
      h.stays.outcome.trans houtcome, h.current, h.gone⟩
  | remove | other =>
    refine wp_perform (hmoves s.current (.inl rfl)) ?_
    rintro - _ rfl
    exact wp_ret ⟨hs.of_eq rfl rfl, ⟨le_rfl, fun _ => rfl, rfl, rfl⟩, hrest, rfl, houtcome, fun _ => hcurrent, nofun⟩

theorem drainLoop_spec (fuel : ℕ) {remaining : ℕ} (hs : Quiet ctx s) (hcurrent : s.current = none)
    (hreturns : s.returns = []) (houtcome : s.outcome = none) (hbatch : s.batch.length ≤ remaining) :
    wp (contract ctx) (drainLoop ctx fuel remaining) (fun outcome s' => Quiet ctx s' ∧ Later s s' ∧ s'.returns = [] ∧
      s'.outcome = none ∧ (outcome ≠ .vmExited → s'.batch = [] ∧ s'.current = none) ∧
      (outcome = .vmExited → s'.gone = true)) s := by
  induction remaining generalizing s with
  | zero =>
    refine wp_ret ⟨hs, .refl s, hreturns, houtcome, fun _ => ⟨?_, hcurrent⟩, nofun⟩
    exact eq_nil_of_length_eq_zero (by omega)
  | succ remaining ih =>
    -- one event is handled, and the loop goes on with the rest
    have hevent : ∀ {s' : Handler} {event : Event} {rest : List Event}, Quiet ctx s' → Later s s' → s'.current = none →
        s'.returns = [] → s'.outcome = none → s'.batch = event :: rest → rest.length ≤ remaining →
        wp (contract ctx) (do if ← handleEvent ctx fuel event then drainLoop ctx fuel remaining else pure .vmExited)
          (fun outcome s'' => Quiet ctx s'' ∧ Later s s'' ∧ s''.returns = [] ∧ s''.outcome = none ∧
            (outcome ≠ .vmExited → s''.batch = [] ∧ s''.current = none) ∧
            (outcome = .vmExited → s''.gone = true)) s' := by
      intro s' event rest hs' hlater hcurrent' hreturns' houtcome' hbatch' hrest
      refine wp_seq (handleEvent_spec hctx hs' hcurrent' houtcome' hbatch' fuel) ?_
      rintro alive t ⟨ht, hlater', hbatch, hreturns, houtcome, hcurrent, hgone⟩
      cases alive with
      | true =>
        refine wp_mono (ih ht (hcurrent rfl) (hreturns.trans hreturns') houtcome (by rw [hbatch]; exact hrest)) ?_
        exact fun outcome u hu => ⟨hu.1, (hlater.trans hlater').trans hu.2.1, hu.2.2⟩
      | false =>
        exact wp_ret ⟨ht, hlater.trans hlater', hreturns.trans hreturns', houtcome, fun h => (h rfl).elim,
          fun _ => hgone rfl⟩
    refine wp_perform trivial ?_
    rintro _ s ⟨rfl, rfl⟩
    split
    · next event rest heq =>
      rw [heq, length_cons] at hbatch
      exact hevent hs (.refl s) hcurrent hreturns houtcome heq (by omega)
    · next heq =>
      refine wp_seq (readUnderGate_spec hctx hs heq houtcome _) ?_
      rintro read s' ⟨hs', hlater, hcurrent', hreturns', houtcome', hlen, hread⟩
      cases read with
      | true =>
        refine wp_perform trivial ?_
        rintro _ s' ⟨rfl, rfl⟩
        split
        · next event rest heq' =>
          rw [heq', length_cons] at hlen
          exact hevent hs' hlater (hcurrent'.trans hcurrent) (hreturns'.trans hreturns) houtcome' heq' (by omega)
        · next heq' => cases hread.mpr heq'
      | false =>
        exact wp_ret ⟨hs', hlater, hreturns'.trans hreturns, houtcome',
          fun _ => ⟨hread.mp rfl, hcurrent'.trans hcurrent⟩, nofun⟩

theorem handleReturn_spec {reply : WorkerReturn} (hs : Quiet ctx s) (hplaced : reply.Placed ctx) :
    wp (contract ctx) (handleReturn ctx reply) (fun alive s' => Quiet ctx s' ∧ Stays s s' ∧ s'.current = s.current ∧
      (alive = true → ∀ f, reply.fault = some f → s'.Parked f ∨ f.page ∈ s'.filled) ∧
      (alive = true → reply.isEnd = false) ∧ (alive = false → s'.gone = true)) s := by
  have hpark : ∀ {job : FaultJob} {s' : Handler}, reply = .stale job ∨ reply = .retry job → Quiet ctx s' → Stays s s' →
      s'.current = s.current →
      wp (contract ctx) (do modify fun s => s.park job.page job.offset job.write; pure true)
        (fun alive s'' => Quiet ctx s'' ∧ Stays s s'' ∧ s''.current = s.current ∧
          (alive = true → ∀ f, reply.fault = some f → s''.Parked f ∨ f.page ∈ s''.filled) ∧
          (alive = true → reply.isEnd = false) ∧ (alive = false → s''.gone = true)) s' := by
    intro job s' hreply hs' hstays hcurrent
    have hfault : reply.fault = some job.fault ∧ reply.isEnd = false := by
      rcases hreply with rfl | rfl
      · exact ⟨rfl, rfl⟩
      · exact ⟨rfl, rfl⟩
    refine wp_perform (moves_park s' _ _ _) ?_
    rintro - _ rfl
    refine wp_ret ⟨hs'.park (hplaced job hreply) job.write, ?_, hcurrent, fun _ f hf => .inl ?_, fun _ => hfault.2,
      nofun⟩
    · exact { hstays with }
    · cases hfault.1.symm.trans hf
      exact parked_park s' job.page job.offset job.write
  cases reply with
  | traced =>
    exact wp_ret ⟨hs, {}, rfl, nofun, fun _ => rfl,
      nofun⟩
  | zeroPageRefused =>
    refine wp_perform {} ?_
    rintro - _ rfl
    exact wp_ret ⟨hs.of_eq rfl rfl, {}, rfl, nofun, fun _ => rfl,
      nofun⟩
  | vmGone =>
    refine wp_perform { gone := fun _ => rfl } ?_
    rintro - _ rfl
    exact wp_ret ⟨hs.of_eq rfl rfl, {}, rfl, nofun, nofun,
      fun _ => rfl⟩
  | failed => exact wp_fail
  | retry job => exact hpark (.inr rfl) hs {} rfl
  | stale job =>
    have hmaps := hplaced job (.inl rfl)
    refine wp_seq (zeroAnswer_spec s job.offset) ?_
    rintro zero s ⟨rfl, hzero⟩
    refine wp_perform trivial ?_
    rintro _ s ⟨rfl, rfl⟩
    refine wp_seq (resolveFault_spec fun hminor hnone => ⟨hmaps, ?_⟩) ?_
    · exact RemovedPages.clear_of_contains hctx.pageSize_pos hmaps.file_dvd (hzero (by simpa using hnone) hminor)
    · intro outcome s' hattempt
      have hcurrent : s'.current = s.current := by
        obtain ⟨refused, pages, gone, -, rfl⟩ := hattempt.fills
        rfl
      have hdone : outcome = .resolved ∨ outcome = .alreadyPresent → ∀ f, some job.fault = some f →
          s'.Parked f ∨ f.page ∈ s'.filled := by
        intro ho f hf
        cases hf
        exact .inr (hattempt.filled ho)
      have hs' := hattempt.fills.quiet hs
      cases outcome with
      | resolved =>
        exact wp_ret ⟨hs', hattempt.fills.stays, hcurrent, fun _ => hdone (.inl rfl), fun _ => rfl, nofun⟩
      | alreadyPresent =>
        exact wp_ret ⟨hs', hattempt.fills.stays, hcurrent, fun _ => hdone (.inr rfl), fun _ => rfl, nofun⟩
      | vmGone =>
        exact wp_ret ⟨hs', hattempt.fills.stays, hcurrent, nofun, nofun,
          fun _ => hattempt.gone rfl⟩
      | retry => exact hpark (.inl rfl) hs' hattempt.fills.stays hcurrent

omit hctx in
theorem moves_tail {reply : WorkerReturn} {back : List WorkerReturn} (hreturns : s.returns = reply :: back)
    (hreply : ∀ f, reply.fault = some f → s.Parked f ∨ f.page ∈ s.filled) (hgoes : reply.isEnd = false) :
    s.Moves ctx { s with returns := s.returns.tail } := by
  have htail : { s with returns := s.returns.tail }.returns = back := by
    dsimp only
    rw [hreturns, tail_cons]
  refine { keeps := fun f hf => ?_, ends := ?_ }
  · rcases hf with hf | hf | ⟨other, hother, hf⟩ | hf
    · exact .inl (.inl hf)
    · exact .inl (.inr (.inl hf))
    · rw [hreturns] at hother
      rcases mem_cons.mp hother with rfl | hother
      · rcases hreply f hf with h | h
        · exact .inl (.inr (.inr (.inr h)))
        · exact .inr (.inl h)
      · exact .inl (.inr (.inr (.inl ⟨other, htail ▸ hother, hf⟩)))
    · exact .inl (.inr (.inr (.inr hf)))
  · rintro ⟨other, hother, hend⟩
    rw [hreturns] at hother
    rcases mem_cons.mp hother with rfl | hother
    · cases hgoes.symm.trans hend
    · exact .inl ⟨other, htail ▸ hother, hend⟩

theorem handleWorkerReturns_spec {back : List WorkerReturn} (hs : Quiet ctx s) (hreturns : s.returns = back) :
    wp (contract ctx) (handleWorkerReturns ctx back) (fun alive s' => Quiet ctx s' ∧ Later s s' ∧ s'.batch = s.batch ∧
      s'.current = s.current ∧ s'.outcome = s.outcome ∧ s'.returns = [] ∧ (alive = false → s'.gone = true)) s := by
  induction back generalizing s with
  | nil => exact wp_ret ⟨hs, .refl s, rfl, rfl, rfl, hreturns, nofun⟩
  | cons reply back ih =>
    have hplaced := hs.returns reply (by rw [hreturns]; exact mem_cons_self)
    refine wp_seq (handleReturn_spec hctx hs hplaced) ?_
    rintro alive s' ⟨hs', hstays, hcurrent, hreply, hgoes, hgone⟩
    have hreturns' := hstays.returns.trans hreturns
    cases alive with
    | true =>
      refine wp_perform (moves_tail hreturns' (hreply rfl) (hgoes rfl)) ?_
      rintro - _ rfl
      have htail : Quiet ctx { s' with returns := s'.returns.tail } := by
        refine { hs' with returns := fun r hr => ?_ }
        exact hs'.returns r (mem_of_mem_tail hr)
      refine wp_mono (ih htail (by dsimp only; rw [hreturns', tail_cons])) ?_
      rintro alive t ⟨ht, hlater, hbatch, hcurrent', houtcome, hnil, hgone⟩
      exact ⟨ht, hstays.later.trans { hlater with }, hbatch.trans hstays.batch,
        hcurrent'.trans hcurrent, houtcome.trans hstays.outcome, hnil, hgone⟩
    | false =>
      refine wp_perform { keeps := fun f _ => .inr (.inr (hgone rfl)), ends := fun _ => .inr (hgone rfl) } ?_
      rintro - _ rfl
      refine wp_ret ⟨?_, ⟨hstays.generation.ge, fun _ => hstays.removed, hstays.pool, hstays.planned⟩, hstays.batch,
        hcurrent, hstays.outcome, rfl,
        fun _ => hgone rfl⟩
      exact { hs' with returns := nofun }

omit hctx in
theorem takeReturns_spec (hs : Quiet ctx s) (room : ℕ) :
    wp (contract ctx) (takeReturns room)
      (fun _ s' => Quiet ctx s' ∧ ∃ more, s' = { s with returns := s.returns ++ more }) s := by
  induction room generalizing s with
  | zero =>
    refine wp_ret ⟨hs, [], ?_⟩
    rw [append_nil]
  | succ room ih =>
    refine wp_perform trivial ?_
    rintro _ _ (⟨rfl, rfl⟩ | ⟨reply, rfl, hplaced, rfl⟩)
    · refine wp_ret ⟨hs, [], ?_⟩
      rw [append_nil]
    · have hs' : Quiet ctx { s with returns := s.returns ++ [reply] } := by
        refine { hs with returns := fun r hr => ?_ }
        rcases mem_append.mp hr with hr | hr
        · exact hs.returns r hr
        · rw [mem_singleton.mp hr]
          exact hplaced
      refine wp_mono (ih hs') ?_
      rintro - _ ⟨hs'', more, rfl⟩
      refine ⟨hs'', reply :: more, ?_⟩
      rw [append_assoc, singleton_append]

structure Rest (ctx : VmContext) (s : Handler) : Prop where
  quiet : Quiet ctx s
  batch : s.batch = []
  returns : s.returns = []
  current : s.current = none

omit hctx in
theorem Rest.of_fills {s' : Handler} (h : Rest ctx s) (hfills : Fills s s') : Rest ctx s' := by
  have hquiet := hfills.quiet h.quiet
  obtain ⟨refused, pages, gone, -, rfl⟩ := hfills
  exact ⟨hquiet, h.batch, h.returns, h.current⟩

theorem finishWorkerReturns_spec (hs : Rest ctx s) :
    wp (contract ctx) (finishWorkerReturns ctx) (fun alive s' => Rest ctx s' ∧ Later s s' ∧ s'.outcome = s.outcome ∧
      (alive = false → s'.gone = true)) s := by
  refine wp_perform trivial ?_
  rintro _ s ⟨rfl, rfl⟩
  split
  · refine wp_seq (takeReturns_spec hs.quiet _) ?_
    rintro - _ ⟨hs', more, rfl⟩
    refine wp_perform trivial ?_
    rintro _ _ ⟨rfl, rfl⟩
    refine wp_mono (handleWorkerReturns_spec hctx hs' rfl) ?_
    rintro alive t ⟨ht, hlater, hbatch, hcurrent, houtcome, hreturns, hgone⟩
    exact ⟨⟨ht, hbatch.trans hs.batch, hreturns, hcurrent.trans hs.current⟩, { hlater with },
      houtcome, hgone⟩
  · exact wp_ret ⟨hs, .refl s, rfl, nofun⟩

theorem drainEvents_spec (hs : Rest ctx s) (fuel : ℕ) :
    wp (contract ctx) (drainEvents ctx fuel) (fun _ s' => Rest ctx s' ∧ Later s s') s := by
  have hexit : ∀ {s' : Handler}, Quiet ctx s' → Later s s' → s'.returns = [] → s'.gone = true →
      wp (contract ctx) (endDrain .vmExited) (fun _ s'' => Rest ctx s'' ∧ Later s s'') s' := by
    intro s' hs' hlater hreturns hgone
    refine wp_perform { keeps := fun f _ => .inr (.inr hgone), tidy := fun _ h => ?_ } ?_
    · rcases h with h | h <;> cases h
    · rintro - _ rfl
      exact wp_ret ⟨⟨hs'.of_eq rfl rfl, rfl, hreturns, rfl⟩, { hlater with }⟩
  refine wp_perform { tidy := fun _ h => ?_ } ?_
  · rcases h with h | h <;> cases h
  · rintro - _ rfl
    refine wp_seq (finishWorkerReturns_spec hctx ⟨by exact hs.quiet.of_eq rfl rfl, hs.batch, hs.returns, hs.current⟩) ?_
    rintro alive s' ⟨hs', hlater, houtcome, hgone⟩
    cases alive with
    | true =>
      refine wp_seq (drainLoop_spec hctx fuel hs'.quiet hs'.current hs'.returns houtcome
        (by rw [hs'.batch]; exact Nat.zero_le _)) ?_
      rintro outcome t ⟨ht, hlater', hreturns, -, hempty, hgone⟩
      have hlater := (Later.mk hlater.generation hlater.removed hlater.pool hlater.planned : Later s s').trans hlater'
      -- on both ordinary ends nothing of the batch is left
      have hend : outcome ≠ .vmExited → wp (contract ctx)
          (do modify fun s => { s with outcome := some outcome }; pure outcome)
          (fun _ s'' => Rest ctx s'' ∧ Later s s'') t := by
        intro hne
        obtain ⟨hbatch, hcurrent⟩ := hempty hne
        refine wp_perform { tidy := fun _ _ => ⟨hbatch, hcurrent⟩ } ?_
        rintro - _ rfl
        exact wp_ret ⟨⟨ht.of_eq rfl rfl, hbatch, hreturns, hcurrent⟩, { hlater with }⟩
      cases outcome with
      | vmExited => exact hexit ht hlater hreturns (hgone rfl)
      | queueDrained => exact hend (by decide)
      | batchFull => exact hend (by decide)
    | false => exact hexit hs'.quiet { hlater with } hs'.returns (hgone rfl)

theorem retryEach_spec (hs : Quiet ctx s) (pages : List ℕ) {resolved : List ℕ}
    (hresolved : ∀ page ∈ resolved, page ∈ s.filled) :
    wp (contract ctx) (retryEach ctx pages resolved) (fun found s' => Fills s s' ∧
      ∀ resolved, found = some resolved → ∀ page ∈ resolved, page ∈ s'.filled) s := by
  induction pages generalizing s resolved with
  | nil =>
    refine wp_ret ⟨.refl s, fun found hfound => ?_⟩
    cases hfound
    exact hresolved
  | cons page pages ih =>
    refine wp_perform trivial ?_
    rintro _ s ⟨rfl, rfl⟩
    split
    · exact ih hs hresolved
    · next parked hparked =>
      have hmaps := hs.parked page parked hparked
      refine wp_seq (zeroAnswer_spec s parked.fileOffset) ?_
      rintro zero s ⟨rfl, hzero⟩
      refine wp_seq (resolveFault_spec fun hminor hnone => ⟨hmaps, ?_⟩) ?_
      · exact RemovedPages.clear_of_contains hctx.pageSize_pos hmaps.file_dvd (hzero (by simpa using hnone) hminor)
      · intro outcome s' hattempt
        have hkept : ∀ page ∈ resolved, page ∈ s'.filled := by
          obtain ⟨refused, pages, gone, -, rfl⟩ := hattempt.fills
          exact fun page hpage => mem_append_right _ (hresolved page hpage)
        have hs' := hattempt.fills.quiet hs
        -- the rest of the pages, with what is resolved by now
        have hnext : ∀ {resolved' : List ℕ}, (∀ page ∈ resolved', page ∈ s'.filled) →
            wp (contract ctx) (retryEach ctx pages resolved') (fun found s'' => Fills s s'' ∧
              ∀ resolved, found = some resolved → ∀ page ∈ resolved, page ∈ s''.filled) s' :=
          fun h => wp_mono (ih hs' h) fun found t ht => ⟨hattempt.fills.trans ht.1, ht.2⟩
        have hdone : outcome = .resolved ∨ outcome = .alreadyPresent → ∀ other ∈ page :: resolved,
            other ∈ s'.filled := by
          intro ho other hother
          rcases mem_cons.mp hother with rfl | hother
          · exact hattempt.filled ho
          · exact hkept other hother
        cases outcome with
        | resolved => exact hnext (hdone (.inl rfl))
        | alreadyPresent => exact hnext (hdone (.inr rfl))
        | vmGone => exact wp_ret ⟨hattempt.fills, nofun⟩
        | retry =>
          refine wp_perform trivial ?_
          rintro stalled s' rfl
          split
          · exact hnext hkept
          · exact wp_fail

omit hctx in
theorem lookup_foldl_erase {β : ℕ → Type} (parked : AList β) (pages : List ℕ) (page : ℕ) :
    (pages.foldl (fun parked page => parked.erase page) parked).lookup page =
      if page ∈ pages then none else parked.lookup page := by
  induction pages generalizing parked with
  | nil => simp only [foldl_nil, not_mem_nil, if_false]
  | cons first pages ih =>
    rw [foldl_cons, ih]
    by_cases hpage : page ∈ pages
    · rw [if_pos hpage, if_pos (mem_cons_of_mem _ hpage)]
    · rw [if_neg hpage]
      by_cases heq : page = first
      · rw [heq, AList.lookup_erase, if_pos mem_cons_self]
      · rw [AList.lookup_erase_ne heq, if_neg (by simp only [mem_cons, not_or]; exact ⟨heq, hpage⟩)]

theorem retryParkedFaults_spec (hs : Rest ctx s) :
    wp (contract ctx) (retryParkedFaults ctx) (fun _ s' => Rest ctx s' ∧ Later s s') s := by
  refine wp_perform trivial ?_
  rintro _ s ⟨rfl, rfl⟩
  refine wp_seq (retryEach_spec hctx hs.quiet _ fun page hpage => (not_mem_nil hpage).elim) ?_
  rintro found s' ⟨hfills, hfound⟩
  have hs' := hs.of_fills hfills
  have hlater := hfills.stays.later
  obtain _ | resolved := found
  · exact wp_ret ⟨hs', hlater⟩
  refine wp_perform { keeps := fun f hf => ?_ } ?_
  · rcases hf with hf | hf | hf | ⟨p, hp, hwrite⟩
    · exact .inl (.inl hf)
    · exact .inl (.inr (.inl hf))
    · exact .inl (.inr (.inr (.inl hf)))
    · by_cases hpage : f.page ∈ resolved
      · exact .inr (.inl (hfound resolved rfl _ hpage))
      · refine .inl (.inr (.inr (.inr ⟨p, ?_, hwrite⟩)))
        dsimp only
        rw [lookup_foldl_erase, if_neg hpage]
        exact hp
  · rintro - _ rfl
    have hquiet := hs'.quiet
    refine wp_ret ⟨⟨?_, hs'.batch, hs'.returns, hs'.current⟩, { hlater with }⟩
    refine { hquiet with parked := fun page p hp => ?_ }
    dsimp only at hp
    rw [lookup_foldl_erase] at hp
    split at hp
    · cases hp
    · exact hquiet.parked page p hp

end Fcvm.Uffd
