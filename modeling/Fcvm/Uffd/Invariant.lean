import Fcvm.Uffd.WorkerMoves

namespace Fcvm.Uffd

open Library List

variable {ctx : VmContext} {w : World}

def Work.Planned (ctx : VmContext) (removed : RemovedPages) (epoch : ℕ) : Work → Prop
  | fault job => job.Planned ctx removed epoch
  | replay job _ done => job.Planned ctx removed epoch ∧ ctx.pageSize ∣ done

def Out.Placed (ctx : VmContext) : Out → Prop
  | back reply => reply.Placed ctx
  | result outcome => outcome.Placed ctx
  | _ => True

structure Inv (ctx : VmContext) (w : World) : Prop where
  counted : w.copiers = w.workers.countP (·.phase.counted)
  gate : w.handler.holding = true → w.handler.reading = true ∧ ∀ k ∈ w.workers, k.phase.inside = false
  unbumped : w.handler.unbumped = true → w.handler.holding = true
  sound : w.handler.removed.Sound ctx.pageSize ctx.memSize
  checked : ∀ k ∈ w.workers, ∀ work, k.phase = .filling work → work.generation = w.handler.generation
  works : ∀ k ∈ w.workers, ∀ work, k.phase.work = some work → work.Planned ctx w.handler.removed w.handler.epoch
  outs : ∀ k ∈ w.workers, ∀ out ∈ k.phase.outs, out.Placed ctx
  jobs : ∀ job ∈ w.jobs, job.Planned ctx w.handler.removed w.handler.epoch
  back : ∀ reply ∈ w.back, reply.Placed ctx
  replayJobs : ∀ job ∈ w.replayJobs, job.Planned ctx w.handler.removed w.handler.epoch
  results : ∀ outcome ∈ w.results, outcome.Placed ctx
  recorded : ∀ start stop, .removed start stop ∈ w.log → ∀ m ∈ ctx.mappings, ∀ page, ctx.pageSize ∣ page →
    start ≤ page → page + ctx.pageSize ≤ stop → m.baseHostVirtAddr ≤ page → page < m.baseHostVirtAddr + m.size →
    w.handler.removed.has ((m.offset + (page - m.baseHostVirtAddr)) / ctx.pageSize) = true

theorem populate_eq_some {w' : World} {host len : ℕ} {source : Source} {answer : Answer}
    (h : w.populate ctx host len source answer = some w') :
    (∃ bytes, answer = .populated bytes ∧ ctx.pageSize ∣ host ∧ ctx.pageSize ∣ len ∧ ctx.pageSize ∣ bytes ∧ 0 < bytes ∧
        bytes ≤ len ∧ w' = { w with log := .installed host bytes source :: w.log }) ∨
      (answer = .present ∧ w' = { w with log := .present host :: w.log }) ∨
      ((∀ bytes, answer ≠ .populated bytes) ∧ answer ≠ .present ∧ w' = w) := by
  cases answer with
  | populated bytes =>
    simp only [World.populate] at h
    split at h
    · next hwhole =>
      cases h
      exact .inl ⟨bytes, rfl, hwhole.1, hwhole.2.1, hwhole.2.2.1, hwhole.2.2.2.1, hwhole.2.2.2.2, rfl⟩
    · cases h
  | present =>
    cases h
    exact .inr (.inl ⟨rfl, rfl⟩)
  | again | gone | invalid | failed =>
    cases h
    exact .inr (.inr ⟨nofun, nofun, rfl⟩)

theorem populate_log {w' : World} {host len : ℕ} {source : Source} {answer : Answer}
    (h : w.populate ctx host len source answer = some w') : ∃ entries, w' = { w with log := entries ++ w.log } ∧
      ∀ start stop, .removed start stop ∉ entries := by
  rcases populate_eq_some h with ⟨bytes, -, -, -, -, -, -, rfl⟩ | ⟨-, rfl⟩ | ⟨-, -, rfl⟩
  · exact ⟨[_], rfl, fun start stop hin => by cases mem_singleton.mp hin⟩
  · exact ⟨[_], rfl, fun start stop hin => by cases mem_singleton.mp hin⟩
  · exact ⟨[], rfl, nofun⟩

namespace Move

variable {core : World} {replay : Bool} {phase phase' : Phase}

theorem afterFill_placed {job : FaultJob} (hjob : Maps ctx job.page job.offset ctx.pageSize) (refused : Bool)
    (answer : Answer) : ∃ outs, afterFill ctx job refused answer = .emit outs ∧ ∀ out ∈ outs, out.Placed ctx := by
  have hquiet : ∀ out ∈ (if refused then [Out.back .zeroPageRefused] else []) ++
      (if ctx.traced then [.back .traced] else []), out.Placed ctx := by
    intro out hout
    rcases mem_append.mp hout with hout | hout
    · split at hout
      · rw [mem_singleton.mp hout]
        rintro job (h | h) <;> cases h
      · cases hout
    · split at hout
      · rw [mem_singleton.mp hout]
        rintro job (h | h) <;> cases h
      · cases hout
  cases answer with
  | populated | present => exact ⟨_, rfl, hquiet⟩
  | again =>
    refine ⟨_, rfl, fun out hout => ?_⟩
    rw [mem_singleton.mp hout]
    rintro job' (h | h)
    · cases h
    · cases h
      exact hjob
  | gone =>
    refine ⟨_, rfl, fun out hout => ?_⟩
    rcases mem_cons.mp hout with rfl | hout
    · trivial
    · rw [mem_singleton.mp hout]
      rintro job (h | h) <;> cases h
  | invalid | failed =>
    refine ⟨_, rfl, fun out hout => ?_⟩
    rw [mem_singleton.mp hout]
    rintro job (h | h) <;> cases h

theorem afterCopy_cases (job : ReplayJob) (index done len : ℕ) (late : Bool) (answer : Answer) :
    (∃ outs, afterCopy ctx job index done len late answer = .emit outs ∧ ∀ out ∈ outs, out.Placed ctx) ∨
      ∃ bytes, afterCopy ctx job index done len late answer = .resume (.replay job index (done + bytes)) ∧
        (bytes = 0 ∨ answer = .populated bytes ∨ bytes = min ctx.pageSize len) := by
  have hlate : (∃ outs,
      (if late then After.emit [.result .refused] else .resume (.replay job index done)) = .emit outs ∧
      ∀ out ∈ outs, out.Placed ctx) ∨ ∃ bytes, (if late then After.emit [.result .refused]
        else .resume (.replay job index done)) = .resume (.replay job index (done + bytes)) ∧
        (bytes = 0 ∨ answer = .populated bytes ∨ bytes = min ctx.pageSize len) := by
    split
    · refine .inl ⟨_, rfl, fun out hout => ?_⟩
      rw [mem_singleton.mp hout]
      exact nofun
    · exact .inr ⟨0, rfl, .inl rfl⟩
  cases answer with
  | populated bytes => exact .inr ⟨bytes, rfl, .inr (.inl rfl)⟩
  | present => exact .inr ⟨_, rfl, .inr (.inr rfl)⟩
  | gone =>
    refine .inl ⟨_, rfl, fun out hout => ?_⟩
    rcases mem_cons.mp hout with rfl | hout
    · exact nofun
    · rw [mem_singleton.mp hout]
      trivial
  | again | invalid | failed => exact hlate

theorem staleFrom_placed {job : ReplayJob} {removed : RemovedPages} {epoch index done : ℕ} (hctx : ctx.Accepted)
    (hjob : job.Planned ctx removed epoch) (hdone : ctx.pageSize ∣ done) : (staleFrom job index done).Placed ctx := by
  intro rest hrest run hrun
  unfold staleFrom at hrest
  split at hrest
  · cases hrest
    cases hrun
  · next current hcurrent =>
    cases hrest
    have hplaced := (hjob current (mem_of_getElem? hcurrent)).1
    rcases mem_append.mp hrun with hrun | hrun
    · split at hrun
      · next hlt =>
        rw [mem_singleton.mp hrun]
        obtain ⟨hhost, hfile⟩ := hplaced.saturating hctx hlt
        unfold ReplayRun.Placed
        dsimp only
        rw [hhost, hfile]
        exact hplaced.drop hlt.le hdone
      · cases hrun
    · exact (hjob run (mem_of_mem_drop hrun)).1

theorem chunk_planned {job : ReplayJob} {removed : RemovedPages} {epoch index done : ℕ} {run : ReplayRun}
    {chunk : Segment} (hctx : ctx.Accepted) (hjob : job.Planned ctx removed epoch) (hdone : ctx.pageSize ∣ done)
    (hrun : job.runs[index]? = some run) (hchunk : chunkAt (some ctx.memSize) run done = some chunk) :
    Maps ctx chunk.hostAddr chunk.fileOffset chunk.len ∧
      (job.generation = epoch → removed.Clear ctx.pageSize chunk.fileOffset chunk.len) := by
  obtain ⟨hplaced, -, hclear⟩ := hjob run (mem_of_getElem? hrun)
  obtain ⟨hlt, rfl⟩ := chunkAt_eq_some hchunk
  have hrest := hplaced.drop hlt.le hdone
  have hdvd : ctx.pageSize ∣ min CHUNK_BYTES (run.len - done) := by
    rcases min_choice CHUNK_BYTES (run.len - done) with hm | hm
    · rw [hm]
      exact hctx.pageSize_dvd_chunk
    · rw [hm]
      exact hrest.len_dvd
  refine ⟨hrest.take (min_le_right _ _) hdvd, fun heq => (hclear heq).mono (by dsimp only; omega) ?_⟩
  dsimp only
  omega

section

variable (h : Move ctx w replay phase core phase')
include h

theorem core_eq :
    core.handler = w.handler ∧ core.workers = w.workers ∧ ∃ entries, core.log = entries ++ w.log ∧
      ∀ start stop, .removed start stop ∉ entries := by
  cases h with
  | fill hfill | refill hfill | copy hrun hchunk hfill =>
    obtain ⟨entries, rfl, hentries⟩ := populate_log hfill
    exact ⟨rfl, rfl, entries, rfl, hentries⟩
  | takeReplay | takeFault | closed | dropped | start | enter | done | nextRun | count | back | hold | uncount | again
  | check | staleFault | staleReplay | refuse | skip | leave | resume | rest | stop | reply | result | quit | panic =>
    exact ⟨rfl, rfl, [], rfl, nofun⟩

theorem copiers (hpos : phase.counted = true → 0 < w.copiers) :
    core.copiers = (w.copiers - if phase.counted = true then 1 else 0) + if phase'.counted = true then 1 else 0 := by
  cases h with
  | fill hfill | refill hfill | copy hrun hchunk hfill =>
    obtain ⟨entries, rfl, -⟩ := populate_log hfill
    have := hpos rfl
    simp only [Phase.counted, if_true]
    omega
  | takeReplay | takeFault | closed | dropped | start | enter | done | nextRun | count | again | rest | stop | reply
  | result | quit | panic => simp [Phase.counted]
  | back | hold | check | staleFault | staleReplay | refuse | skip =>
    have := hpos rfl
    simp only [Phase.counted, if_true]
    omega
  | uncount | leave | resume => simp [Phase.counted]

theorem inside (hreading : w.handler.reading = true) (hphase : phase.inside = false) : phase'.inside = false := by
  cases h with
  | hold hnot =>
    cases hreading.symm.trans hnot
  | check | refuse => cases hphase
  | takeReplay | takeFault | closed | dropped | start | enter | done | nextRun | count | back | uncount | again
  | staleFault | staleReplay | skip | leave | resume | rest | stop | reply | result | quit | panic | fill | refill
  | copy => rfl

theorem checked {work : Work} (hwork : phase' = .filling work) : work.generation = w.handler.generation := by
  cases h with
  | check hgeneration =>
    cases hwork
    exact hgeneration.symm
  | takeReplay | takeFault | closed | dropped | start | enter | done | nextRun | count | back | hold | uncount | again
  | staleFault | staleReplay | refuse | skip | leave | resume | rest | stop | reply | result | quit | panic | fill
  | refill | copy => cases hwork

theorem planned (hctx : ctx.Accepted) (hw : Inv ctx w)
    (hphase : ∀ work, phase.work = some work → work.Planned ctx w.handler.removed w.handler.epoch) {work : Work}
    (hwork : phase'.work = some work) : work.Planned ctx w.handler.removed w.handler.epoch := by
  cases h with
  | takeReplay _ hjobs =>
    cases hwork
    exact ⟨hw.replayJobs _ (by rw [hjobs]; exact mem_cons_self), dvd_zero _⟩
  | takeFault _ hjobs =>
    cases hwork
    exact hw.jobs _ (by rw [hjobs]; exact mem_cons_self)
  | start | enter | count | back | hold | uncount | again | check | resume | refuse => exact hphase work hwork
  | nextRun =>
    cases hwork
    exact ⟨(hphase _ rfl).1, dvd_zero _⟩
  | closed | dropped | done | staleFault | staleReplay | leave | rest | stop | reply | result | quit | panic =>
    cases hwork
  | @fill job _ answer hfill | @refill job _ answer hfill =>
    obtain ⟨outs, houts, -⟩ := afterFill_placed (hphase _ rfl).1 _ answer
    rw [houts] at hwork
    cases hwork
  | @skip job index done late =>
    rcases @afterCopy_cases ctx job index done 0 late .failed with ⟨outs, hafter, -⟩ | ⟨bytes, hafter, hbytes⟩
    · rw [hafter] at hwork
      cases hwork
    · rw [hafter] at hwork
      cases hwork
      obtain ⟨hjob, hdone⟩ := hphase _ rfl
      refine ⟨hjob, Nat.dvd_add hdone ?_⟩
      rcases hbytes with rfl | hbytes | rfl
      · exact dvd_zero _
      · cases hbytes
      · rw [Nat.min_zero]
        exact dvd_zero _
  | @copy job index done run chunk filled answer late hrun hchunk hfill =>
    obtain ⟨hjob, hdone⟩ := hphase _ rfl
    rcases @afterCopy_cases ctx job index done chunk.len late answer with ⟨outs, hafter, -⟩ | ⟨bytes, hafter, hbytes⟩
    · rw [hafter] at hwork
      cases hwork
    · rw [hafter] at hwork
      cases hwork
      refine ⟨hjob, Nat.dvd_add hdone ?_⟩
      rcases hbytes with rfl | rfl | rfl
      · exact dvd_zero _
      · rcases populate_eq_some hfill with ⟨n, heq, -, -, hn, -⟩ | ⟨heq, -⟩ | ⟨hne, -⟩
        · cases heq
          exact hn
        · cases heq
        · exact (hne _ rfl).elim
      · obtain ⟨hmaps, -⟩ := chunk_planned hctx hjob hdone hrun hchunk
        rcases Nat.eq_zero_or_pos chunk.len with hzero | hpos
        · rw [hzero, Nat.min_zero]
          exact dvd_zero _
        · rw [min_eq_left (Nat.le_of_dvd hpos hmaps.len_dvd)]

theorem placed (hctx : ctx.Accepted)
    (hphase : ∀ work, phase.work = some work → work.Planned ctx w.handler.removed w.handler.epoch)
    (houts : ∀ out ∈ phase.outs, out.Placed ctx) : ∀ out ∈ phase'.outs, out.Placed ctx := by
  cases h with
  | takeReplay | takeFault | closed | dropped | start | enter | nextRun | count | back | hold | uncount | again | check
  | refuse | resume | rest | quit | panic => exact nofun
  | done hdone =>
    intro out hout
    rw [mem_singleton.mp hout]
    rintro rest rfl
    rcases hdone with h | h <;> cases h
  | staleFault =>
    intro out hout
    rw [mem_singleton.mp hout]
    rintro job (h | h)
    · cases h
      exact (hphase _ rfl).1
    · cases h
  | staleReplay =>
    intro out hout
    rw [mem_singleton.mp hout]
    obtain ⟨hjob, hdone⟩ := hphase _ rfl
    exact staleFrom_placed hctx hjob hdone
  | @fill job _ answer hfill | @refill job _ answer hfill =>
    obtain ⟨outs, heq, hplaced⟩ := afterFill_placed (hphase _ rfl).1 _ answer
    rw [heq]
    exact hplaced
  | @skip job index done late =>
    rcases @afterCopy_cases ctx job index done 0 late .failed with ⟨outs, hafter, hplaced⟩ | ⟨bytes, hafter, -⟩
    · rw [hafter]
      exact hplaced
    · rw [hafter]
      exact nofun
  | @copy job index done run chunk filled answer late hrun hchunk hfill =>
    rcases @afterCopy_cases ctx job index done chunk.len late answer with ⟨outs, hafter, hplaced⟩ | ⟨bytes, hafter, -⟩
    · rw [hafter]
      exact hplaced
    · rw [hafter]
      exact nofun
  | leave => exact houts
  | stop | reply | result => exact fun out hout => houts out (mem_cons_of_mem _ hout)

theorem channels : (∀ job ∈ core.jobs, job ∈ w.jobs) ∧ (∀ job ∈ core.replayJobs, job ∈ w.replayJobs) ∧
      (∀ reply ∈ core.back, reply ∈ w.back ∨ .back reply ∈ phase.outs) ∧
      ∀ outcome ∈ core.results, outcome ∈ w.results ∨ .result outcome ∈ phase.outs := by
  cases h with
  | takeReplay _ hjobs =>
    refine ⟨fun _ h => h, fun job hjob => ?_, fun _ h => .inl h, fun _ h => .inl h⟩
    rw [hjobs]
    exact mem_cons_of_mem _ hjob
  | takeFault _ hjobs =>
    refine ⟨fun job hjob => ?_, fun _ h => h, fun _ h => .inl h, fun _ h => .inl h⟩
    rw [hjobs]
    exact mem_cons_of_mem _ hjob
  | reply =>
    refine ⟨fun _ h => h, fun _ h => h, fun other hother => ?_, fun _ h => .inl h⟩
    rcases mem_append.mp hother with hother | hother
    · exact .inl hother
    · rw [mem_singleton.mp hother]
      exact .inr mem_cons_self
  | result =>
    refine ⟨fun _ h => h, fun _ h => h, fun _ h => .inl h, fun other hother => ?_⟩
    rcases mem_append.mp hother with hother | hother
    · exact .inl hother
    · rw [mem_singleton.mp hother]
      exact .inr mem_cons_self
  | fill hfill | refill hfill | copy hrun hchunk hfill =>
    obtain ⟨entries, rfl, -⟩ := populate_log hfill
    exact ⟨fun _ h => h, fun _ h => h, fun _ h => .inl h, fun _ h => .inl h⟩
  | closed | dropped | start | enter | done | nextRun | count | back | hold | uncount | again | check | staleFault
  | staleReplay | refuse | skip | leave | resume | rest | stop | quit | panic =>
    exact ⟨fun _ h => h, fun _ h => h, fun _ h => .inl h, fun _ h => .inl h⟩

end

end Move

theorem Inv.move {core : World} {i : ℕ} {k : Worker} {phase : Phase} (hw : Inv ctx w) (hctx : ctx.Accepted)
    (hk : w.workers[i]? = some k) (h : Move ctx w k.replay k.phase core phase) : Inv ctx (core.setPhase i k phase) := by
  have hin := mem_of_getElem? hk
  obtain ⟨hhandler, hworkers, entries, hlog, hentries⟩ := h.core_eq
  obtain ⟨hjobs, hreplay, hback, hresults⟩ := h.channels
  -- a worker after the step is one of before, or the one that made it
  have hset : ∀ {P : Worker → Prop}, (∀ k ∈ w.workers, P k) → P { k with phase := phase } →
      ∀ k' ∈ (core.setPhase i k phase).workers, P k' := by
    intro P hall hnew k' hk'
    unfold World.setPhase at hk'
    dsimp only at hk'
    rw [hworkers] at hk'
    rcases mem_or_eq_of_mem_set hk' with hk' | rfl
    · exact hall k' hk'
    · exact hnew
  have hplanned := fun work hwork => hw.works k hin work hwork
  constructor
  · have hi := (List.getElem?_eq_some_iff.mp hk).1
    have hget := (List.getElem?_eq_some_iff.mp hk).2
    unfold World.setPhase
    dsimp only
    rw [hworkers, countP_set hi, hget, ← hw.counted]
    refine h.copiers fun hcounted => ?_
    rw [hw.counted]
    exact countP_pos_iff.mpr ⟨k, hin, hcounted⟩
  · intro hholding
    dsimp only [World.setPhase] at hholding ⊢
    rw [hhandler] at hholding ⊢
    obtain ⟨hreading, hout⟩ := hw.gate hholding
    exact ⟨hreading, hset hout (h.inside hreading (hout k hin))⟩
  · dsimp only [World.setPhase]
    rw [hhandler]
    exact hw.unbumped
  · dsimp only [World.setPhase]
    rw [hhandler]
    exact hw.sound
  · dsimp only [World.setPhase]
    rw [hhandler]
    exact hset hw.checked fun work hwork => h.checked hwork
  · dsimp only [World.setPhase]
    rw [hhandler]
    exact hset hw.works fun work hwork => h.planned hctx hw hplanned hwork
  · exact hset hw.outs (h.placed hctx hplanned (hw.outs k hin))
  · dsimp only [World.setPhase]
    rw [hhandler]
    exact fun job hjob => hw.jobs job (hjobs job hjob)
  · intro reply hreply
    rcases hback reply hreply with hreply | hreply
    · exact hw.back reply hreply
    · exact hw.outs k hin _ hreply
  · dsimp only [World.setPhase]
    rw [hhandler]
    exact fun job hjob => hw.replayJobs job (hreplay job hjob)
  · intro outcome houtcome
    rcases hresults outcome houtcome with houtcome | houtcome
    · exact hw.results outcome houtcome
    · exact hw.outs k hin _ houtcome
  · intro start stop hremoved
    dsimp only [World.setPhase] at hremoved ⊢
    rw [hlog] at hremoved
    rw [hhandler]
    rcases mem_append.mp hremoved with hremoved | hremoved
    · exact (hentries start stop hremoved).elim
    · exact hw.recorded start stop hremoved

theorem Inv.beside {w' : World} {e : Beside} (hw : Inv ctx w) (hctx : ctx.Accepted) (h : beside ctx w e = some w') :
    Inv ctx w' ∧ w'.handler = w.handler := by
  rcases beside_cases h with ⟨i, k, core, phase, hk, hmove, rfl⟩ | ⟨queue, holes, rfl⟩
  · exact ⟨hw.move hctx hk hmove, hmove.core_eq.1⟩
  · exact ⟨{ hw with }, rfl⟩

end Fcvm.Uffd
