import Fcvm.Library.History
import Fcvm.Uffd.HandlerSteps
import Fcvm.Uffd.ReplayRun

namespace Fcvm.Uffd

open Library

variable {ctx : VmContext} {w w' : World}

structure Starts (ctx : VmContext) (w : World) : Prop where
  handler : w.handler.parkedFaults = ∅ ∧ w.handler.removed = .empty ∧ w.handler.generation = 0
  gate : w.handler.reading = false ∧ w.handler.holding = false ∧ w.handler.unbumped = false
  hands : w.handler.batch = [] ∧ w.handler.returns = [] ∧ w.handler.current = none ∧ w.handler.filled = [] ∧
    w.handler.outcome = none
  faultWorkers : ctx.minor = true → w.handler.faultWorkers = false
  pool : ∀ pool, w.handler.pool = some pool → pool.pending = [] ∧ pool.pendingGeneration = 0 ∧ pool.stale = []
  workers : w.copiers = 0 ∧ ∀ k ∈ w.workers, k.phase = .idle
  channels : w.jobs = [] ∧ w.back = [] ∧ w.replayJobs = [] ∧ w.results = []
  stop : w.stop = false
  log : w.log = []

def clone (ctx : VmContext) (recorded : List (ℕ × ℕ)) : System (World × Run Unit) (Input ⊕ Beside) :=
  (machine ctx).system fun t => Starts ctx t.1 ∧ ∃ fuel, t.2 = replayThenServe ctx fuel recorded

theorem Starts.inv (h : Starts ctx w) : Inv ctx w := by
  obtain ⟨hcopiers, hidle⟩ := h.workers
  obtain ⟨hjobs, hback, hreplay, hresults⟩ := h.channels
  have hphase : ∀ k ∈ w.workers, k.phase.counted = false ∧ k.phase.inside = false ∧ k.phase.work = none ∧
      k.phase.outs = [] := by
    intro k hk
    rw [hidle k hk]
    exact ⟨rfl, rfl, rfl, rfl⟩
  constructor
  · rw [hcopiers, eq_comm, List.countP_eq_zero]
    intro k hk hcounted
    simp [(hphase k hk).1] at hcounted
  · intro hholding
    cases h.gate.2.1.symm.trans hholding
  · intro hunbumped
    cases h.gate.2.2.symm.trans hunbumped
  · rw [h.handler.2.1]
    exact RemovedPages.sound_empty _ _
  · intro k hk work hwork
    simp [hidle k hk] at hwork
  · intro k hk work hwork
    simp [(hphase k hk).2.2.1] at hwork
  · intro k hk out hout
    simp [(hphase k hk).2.2.2] at hout
  · rw [hjobs]
    exact nofun
  · rw [hback]
    exact nofun
  · rw [hreplay]
    exact nofun
  · rw [hresults]
    exact nofun
  · rw [h.log]
    exact nofun

theorem Starts.rest (h : Starts ctx w) : Rest ctx w.handler := by
  obtain ⟨hparked, hremoved, hgeneration⟩ := h.handler
  obtain ⟨hbatch, hreturns, hcurrent, -⟩ := h.hands
  refine ⟨⟨h.gate.2.1, h.gate.1, h.gate.2.2, ?_, h.faultWorkers, fun pool hpool => ?_, ?_, ?_⟩, hbatch, hreturns,
    hcurrent⟩
  · rw [hremoved]
    exact RemovedPages.sound_empty _ _
  · obtain ⟨hpending, hzero, hstale⟩ := h.pool pool hpool
    refine ⟨?_, ?_, ?_, ?_⟩
    · rw [hzero]
      exact Nat.zero_le _
    · rw [hpending]
      exact nofun
    · rw [hpending]
      exact nofun
    · rw [hstale]
      exact nofun
  · rw [hparked]
    intro page p hp
    cases hp
  · rw [hreturns]
    exact nofun

def Kept (ctx : VmContext) (e : Entry) (older : List Entry) : Prop :=
  ∀ host bytes fileOffset, e = .installed host bytes (.snapshot fileOffset) → ∀ start stop,
    .removed start stop ∈ older →
    ∀ page, ctx.pageSize ∣ page → start ≤ page → page + ctx.pageSize ≤ stop →
      page + ctx.pageSize ≤ host ∨ host + bytes ≤ page

theorem kept_of_clear {host bytes len fileOffset : ℕ} (hctx : ctx.Accepted) (hw : Inv ctx w)
    (hmaps : Maps ctx host fileOffset len) (hclear : w.handler.removed.Clear ctx.pageSize fileOffset len)
    (hle : bytes ≤ len) : Kept ctx (.installed host bytes (.snapshot fileOffset)) w.log := by
  intro host' bytes' fileOffset' heq start stop hin page hpage hstart hstop
  cases heq
  by_contra hnot
  have hpos := hctx.pageSize_pos
  -- the two are whole pages, so the page begins in the range
  have hbegins : host ≤ page := by
    by_contra hlt
    have hgap : ctx.pageSize ≤ host - page := Nat.le_of_dvd (by omega) (Nat.dvd_sub hmaps.host_dvd hpage)
    omega
  obtain ⟨m, hm, hlow, hhigh, hplace⟩ := hmaps.places (page - host) (by omega)
  have hat : host + (page - host) = page := by omega
  rw [hat] at hlow hhigh hplace
  have hhas := hw.recorded start stop hin m hm page hpage hstart hstop hlow hhigh
  rw [← hplace] at hhas
  have hdvd : ctx.pageSize ∣ fileOffset + (page - host) :=
    Nat.dvd_add hmaps.file_dvd (Nat.dvd_sub hpage hmaps.host_dvd)
  have hmul := Nat.div_mul_cancel hdvd
  have hnone := hclear _ (by rw [hmul]; omega) (by rw [hmul]; omega)
  cases hhas.symm.trans hnone

theorem kept_of_populate {host len : ℕ} {source : Source} {answer : Answer} (hctx : ctx.Accepted) (hw : Inv ctx w)
    (hlog : Always (Kept ctx) w.log) (h : w.populate ctx host len source answer = some w')
    (hsource : ∀ fileOffset, source = .snapshot fileOffset → ctx.pageSize ∣ host → ctx.pageSize ∣ len →
      Maps ctx host fileOffset len ∧ w.handler.removed.Clear ctx.pageSize fileOffset len) :
    Always (Kept ctx) w'.log := by
  rcases populate_eq_some h with ⟨bytes, -, hhost, hlen, -, -, hle, rfl⟩ | ⟨-, rfl⟩ | ⟨-, -, rfl⟩
  · refine ⟨fun host' bytes' fileOffset heq => ?_, hlog⟩
    cases heq
    obtain ⟨hmaps, hclear⟩ := hsource fileOffset rfl hhost hlen
    exact kept_of_clear hctx hw hmaps hclear hle _ _ _ rfl
  · exact ⟨nofun, hlog⟩
  · exact hlog

theorem Inv.filling_epoch {k : Worker} {work : Work} (hw : Inv ctx w) (hk : k ∈ w.workers)
    (hphase : k.phase = .filling work) : work.generation = w.handler.epoch := by
  have hout : w.handler.unbumped = false := by
    cases hunbumped : w.handler.unbumped with
    | false => rfl
    | true =>
      have hinside := (hw.gate (hw.unbumped hunbumped)).2 k hk
      rw [hphase] at hinside
      cases hinside
  unfold Handler.epoch
  rw [hout]
  exact hw.checked k hk work hphase

theorem Move.kept {core : World} {k : Worker} {phase : Phase} (h : Move ctx w k.replay k.phase core phase)
    (hctx : ctx.Accepted) (hw : Inv ctx w) (hk : k ∈ w.workers) (hlog : Always (Kept ctx) w.log) :
    Always (Kept ctx) core.log := by
  have hworks := hw.works k hk
  have hfilling := fun work => @Inv.filling_epoch ctx w k work hw hk
  generalize k.phase = phase at h hworks hfilling
  cases h with
  | @fill job filled answer hfill =>
    refine kept_of_populate hctx hw hlog hfill fun fileOffset hsource _ _ => ?_
    have hanswer : job.answer = .snapshot ∧ job.offset = fileOffset := by
      cases hjob : job.answer with
      | snapshot =>
        rw [hjob] at hsource
        cases hsource
        exact ⟨rfl, rfl⟩
      | hole fill =>
        rw [hjob] at hsource
        cases fill <;> cases hsource
    obtain ⟨hmaps, hfresh⟩ := hworks _ rfl
    rw [← hanswer.2]
    exact ⟨hmaps, (hfresh hanswer.1).2 (hfilling _ rfl)⟩
  | refill hfill => exact kept_of_populate hctx hw hlog hfill nofun
  | copy hrun hchunk hfill =>
    refine kept_of_populate hctx hw hlog hfill fun fileOffset hsource _ _ => ?_
    cases hsource
    obtain ⟨hjob, hdone⟩ := hworks _ rfl
    obtain ⟨hmaps, hclear⟩ := Move.chunk_planned hctx hjob hdone hrun hchunk
    exact ⟨hmaps, hclear (hfilling _ rfl)⟩
  | takeReplay | takeFault | closed | dropped | start | enter | done | nextRun | count | back | hold | uncount | again
  | check | staleFault | staleReplay | refuse | skip | leave | resume | rest | stop | reply | result | quit | panic =>
    exact hlog

def plannedSince (t : World × Run Unit) : Input ⊕ Beside → Bool
  | .inl _ =>
    match t.2 with
    | .op (.copyAlone _ _ _) _ => t.1.handler.planned == t.1.handler.generation
    | _ => true
  | .inr _ => true

theorem exec_kept {o : Op} {input : Input} {r : o.Result} (hctx : ctx.Accepted) (hw : Inv ctx w)
    (hlog : Always (Kept ctx) w.log) (hpre : (contract ctx).pre o w.handler)
    (hplanned : ∀ host len fileOffset, o = .copyAlone host len fileOffset → w.handler.planned = w.handler.generation)
    (h : exec ctx o w input = some (w', r)) : Always (Kept ctx) w'.log := by
  cases o with
  | populate host len source =>
    obtain ⟨-, filled, hfilled, rfl⟩ := handlerPopulate_eq_some h
    exact (kept_of_populate hctx hw hlog hfilled hpre : Always (Kept ctx) filled.log)
  | copyAlone host len fileOffset =>
    obtain ⟨-, filled, hfilled, rfl⟩ := handlerPopulate_eq_some h
    refine (kept_of_populate hctx hw hlog hfilled fun fileOffset' hsource _ _ => ?_ : Always (Kept ctx) filled.log)
    cases hsource
    exact ⟨hpre.2.1, hpre.2.2 (hplanned host len fileOffset rfl)⟩
  | remember start stop =>
    cases h
    exact ⟨by rintro _ _ _ ⟨⟩, hlog⟩
  | readEvents room =>
    simp only [exec] at h
    split at h
    · cases h
      refine Always.append (fun e he _ => ?_) hlog
      obtain ⟨fault, -, rfl⟩ := List.mem_map.mp he
      rintro _ _ _ ⟨⟩
    · cases h
      exact hlog
  | get | modify | bump | startReading | stopReading | published | closeReplay | stopReplay | choose =>
    cases h
    exact hlog
  | awaitCopiers | joinReplay | submit =>
    simp only [exec] at h
    split at h
    · cases h <;> exact hlog
    · cases h <;> exact hlog
  | takeReturn | takeResult | trySubmit =>
    simp only [exec] at h
    split at h
    · cases h
      exact hlog
    · split at h
      · cases h <;> exact hlog
      · cases h
        exact hlog
  | poll =>
    simp only [exec] at h
    split at h <;>
    · cases h
      exact hlog
  | halt => cases h

theorem given_back_stays_given_back (hctx : ctx.Accepted) {recorded : List (ℕ × ℕ)} {t : World × Run Unit}
    (h : (clone ctx recorded).ReachableBy (fun t a => plannedSince t a = true) t) {newer older : List Entry}
    {start stop page : ℕ} (hlog : t.1.log = newer ++ .removed start stop :: older) (hpage : ctx.pageSize ∣ page)
    (hstart : start ≤ page) (hstop : page + ctx.pageSize ≤ stop) :
    ∀ host bytes fileOffset, .installed host bytes (.snapshot fileOffset) ∈ newer →
      page + ctx.pageSize ≤ host ∨ host + bytes ≤ page := by
  have hreach := @Machine.reachable World Handler Input Beside Op Unit Op.Result (machine ctx) _
    (fun w => Inv ctx w ∧ Always (Kept ctx) w.log) (contract ctx) (fun _ s => Rest ctx s)
    (fun t a => plannedSince t a = true) ?_ ?_ ?_ t h
  · obtain ⟨⟨-, hkept⟩, -⟩ := hreach
    intro host bytes fileOffset hin
    obtain ⟨newest, between, rfl⟩ := List.append_of_mem hin
    rw [hlog, List.append_assoc, List.cons_append] at hkept
    exact hkept.at_split host bytes fileOffset rfl start stop (List.mem_append_right _ List.mem_cons_self) page hpage
      hstart hstop
  · rintro w p ⟨hstarts, fuel, rfl⟩
    refine ⟨⟨hstarts.inv, ?_⟩, replayThenServe_spec hctx fuel recorded hstarts.rest⟩
    rw [hstarts.log]
    trivial
  · rintro w e w' ⟨hw, hkept⟩ hstep
    obtain ⟨hw', hhandler⟩ := hw.beside hctx hstep
    refine ⟨⟨hw', ?_⟩, hhandler⟩
    rcases beside_cases hstep with ⟨i, k, core, phase, hk, hmove, rfl⟩ | ⟨queue, holes, rfl⟩
    · exact hmove.kept hctx hw (List.mem_of_getElem? hk) hkept
    · exact hkept
  · rintro w o k input w' r ⟨hw, hkept⟩ hcond hpre hstep
    obtain ⟨hw', hpost⟩ := exec_inv hctx hw hpre hstep
    refine ⟨⟨hw', exec_kept hctx hw hkept hpre (fun host len fileOffset heq => ?_) hstep⟩, hpost⟩
    subst heq
    exact beq_iff_eq.mp hcond

def smallClone : VmContext where
  mappings := [⟨2 ^ 40, 0, 18 * 2 ^ 20⟩]
  pageSize := 4096
  memSize := 18 * 2 ^ 20
  minor := false
  nv2 := false
  hostPageSize := 4096
  faultAround := 0
  replayQueue := 8
  traced := false

theorem smallClone_accepted : smallClone.Accepted where
  pageSize := ⟨12, by decide, by decide, by decide⟩
  memSize := by decide
  host := by decide
  file := by decide
  aligned := by decide
  disjoint := List.pairwise_singleton _ _

def smallWorld (faultWorkers : Bool) (workers : List Worker) : World where
  handler :=
    { parkedFaults := ∅, removed := .empty, zeroPageRefused := false, replaying := false, faultWorkers := faultWorkers,
      readBatch := 1, replayLimit := none, pool := some ⟨[], 0, 0, [], false⟩, generation := 0, reading := false,
      batch := [], returns := [], current := none, holding := false, unbumped := false, filled := [], planned := 0,
      gone := false, outcome := none }
  queue := []
  copiers := 0
  jobs := []
  back := []
  stop := false
  replayJobs := []
  replayClosed := false
  replayStop := false
  results := []
  workers := workers
  holes := none
  log := []

theorem smallWorld_starts {faultWorkers : Bool} {workers : List Worker} (h : ∀ k ∈ workers, k.phase = .idle) :
    Starts smallClone (smallWorld faultWorkers workers) where
  handler := ⟨rfl, rfl, rfl⟩
  gate := ⟨rfl, rfl, rfl⟩
  hands := ⟨rfl, rfl, rfl, rfl, rfl⟩
  faultWorkers := nofun
  pool := fun pool hpool => by
    cases hpool
    exact ⟨rfl, rfl, rfl⟩
  workers := ⟨rfl, h⟩
  channels := ⟨rfl, rfl, rfl, rfl⟩
  stop := rfl
  log := rfl

def smallRun (check : World × Run Unit → Input ⊕ Beside → Bool) (recorded : List (ℕ × ℕ)) (faultWorkers : Bool)
    (workers : List Worker) (steps : List (Input ⊕ Beside)) : Option (World × Run Unit) :=
  ((clone smallClone recorded).restrict check).exec
    (smallWorld faultWorkers workers, replayThenServe smallClone 50 recorded) steps

theorem smallRun_reachable {check : World × Run Unit → Input ⊕ Beside → Bool} {recorded : List (ℕ × ℕ)}
    {faultWorkers : Bool} {workers : List Worker} {steps : List (Input ⊕ Beside)} {t : World × Run Unit}
    (hidle : ∀ k ∈ workers, k.phase = .idle) (h : smallRun check recorded faultWorkers workers steps = some t) :
    ((clone smallClone recorded).restrict check).Reachable t :=
  System.Reachable.exec (.initial ⟨smallWorld_starts hidle, 50, rfl⟩) h

def own (count : ℕ) (bytes : ℕ) : Input ⊕ Beside := .inl ⟨count, true, .populated bytes⟩

/-- A page is given back, and then the next one faults. -/
theorem given_back_stays_given_back_fault : ∃ t : World × Run Unit,
    (clone smallClone []).ReachableBy (fun t a => plannedSince t a = true) t ∧
    t.1.log = [.installed (2 ^ 40 + 4096) 4096 (.snapshot 4096), .read ⟨2 ^ 40 + 4096, false⟩] ++
      .removed (2 ^ 40) (2 ^ 40 + 4096) :: [] ∧
    ∀ host bytes fileOffset, .installed host bytes (.snapshot fileOffset) ∈
      [Entry.installed (2 ^ 40 + 4096) 4096 (.snapshot 4096), .read ⟨2 ^ 40 + 4096, false⟩] →
        2 ^ 40 + 4096 ≤ host ∨ host + bytes ≤ 2 ^ 40 := by
  have hrun : (smallRun plannedSince [] false []
      ([.inr (.event (.remove (2 ^ 40) (2 ^ 40 + 4096))), .inr (.event (.pagefault (2 ^ 40 + 4100) false false))] ++
        List.replicate 25 (own 1 4096))).map (fun t => t.1.log) =
      some ([.installed (2 ^ 40 + 4096) 4096 (.snapshot 4096), .read ⟨2 ^ 40 + 4096, false⟩] ++
        .removed (2 ^ 40) (2 ^ 40 + 4096) :: []) := by
    decide +kernel
  obtain ⟨t, ht, hlog⟩ := Option.map_eq_some_iff.mp hrun
  have hreach := System.ReachableBy.of_restrict (smallRun_reachable (by decide) ht)
  exact ⟨t, hreach, hlog, given_back_stays_given_back smallClone_accepted hreach hlog (by decide) le_rfl le_rfl⟩

/-- The handler waits for room in the workers' queue when it reads that a page of the held run was given back; the
workers panic, and the handler copies the run itself. -/
theorem given_back_page_copied_alone : ∃ t : World × Run Unit,
    smallClone.Accepted ∧ (clone smallClone [(0, 18 * 2 ^ 20)]).Reachable t ∧
    t.1.log = [.installed (2 ^ 40 + 2 ^ 24) (2 ^ 21) (.snapshot (2 ^ 24)),
      .removed (2 ^ 40 + 2 ^ 24) (2 ^ 40 + 2 ^ 24 + smallClone.pageSize)] := by
  have hrun : (smallRun (fun _ _ => true) [(0, 18 * 2 ^ 20)] false [⟨true, .idle⟩, ⟨true, .idle⟩]
      (List.replicate 1069 (own 0 0) ++
        [.inr (.event (.remove (2 ^ 40 + 2 ^ 24) (2 ^ 40 + 2 ^ 24 + 4096))),
          .inr (.worker 0 ⟨0, true, .failed⟩), .inr (.worker 0 ⟨0, true, .failed⟩), .inr (.panic 0),
          .inr (.worker 1 ⟨0, true, .failed⟩), .inr (.worker 1 ⟨0, true, .failed⟩), .inr (.panic 1)] ++
        List.replicate 8 (own 0 0) ++ [own 1 0] ++ List.replicate 19 (own 0 0) ++ [own 0 (2 ^ 21)])).map
        (fun t => t.1.log) =
      some [.installed (2 ^ 40 + 2 ^ 24) (2 ^ 21) (.snapshot (2 ^ 24)),
        .removed (2 ^ 40 + 2 ^ 24) (2 ^ 40 + 2 ^ 24 + smallClone.pageSize)] := by
    decide +kernel
  obtain ⟨t, ht, hlog⟩ := Option.map_eq_some_iff.mp hrun
  exact ⟨t, smallClone_accepted, (smallRun_reachable (by decide) ht).of_restrict, hlog⟩

end Fcvm.Uffd
