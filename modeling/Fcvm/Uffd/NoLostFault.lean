import Fcvm.Uffd.GivenBack

namespace Fcvm.Uffd

open Library List

variable {ctx : VmContext} {w w' : World} {f : Fault}

def Entry.Answers (page : ℕ) : Entry → Prop
  | installed host bytes _ => host ≤ page ∧ page < host + bytes
  | present host => host = page
  | _ => False

def Unanswered (f : Fault) : List Entry → Prop
  | [] => False
  | e :: older => e = .read f ∨ ¬e.Answers f.page ∧ Unanswered f older

theorem unanswered_of_split {newer older : List Entry} (h : ∀ e ∈ newer, ¬e.Answers f.page) :
    Unanswered f (newer ++ .read f :: older) := by
  induction newer with
  | nil => exact .inl rfl
  | cons e newer ih =>
    apply Or.inr
    constructor
    · exact h e mem_cons_self
    · exact ih fun e he => h e (mem_cons_of_mem _ he)

theorem unanswered_reads {faults : List Fault} {older : List Entry}
    (h : Unanswered f (faults.map .read ++ older)) : f ∈ faults ∨ Unanswered f older := by
  induction faults with
  | nil => exact .inr h
  | cons g faults ih =>
    rcases h with h | ⟨-, h⟩
    · cases h
      exact .inl mem_cons_self
    · rcases ih h with h | h
      · exact .inl (mem_cons_of_mem _ h)
      · exact .inr h

theorem unanswered_populate {host len : ℕ} {source : Source} {answer : Answer}
    (h : w.populate ctx host len source answer = some w') (hf : Unanswered f w'.log) :
    Unanswered f w.log ∧ ((∃ bytes, answer = .populated bytes) ∨ answer = .present → f.page ≠ host) := by
  rcases populate_eq_some h with ⟨bytes, -, -, -, -, hpos, -, rfl⟩ | ⟨-, rfl⟩ | ⟨hne, hnot, rfl⟩
  · rcases hf with hf | ⟨hf, hold⟩
    · cases hf
    · refine ⟨hold, fun _ heq => hf ?_⟩
      rw [heq]
      exact ⟨le_rfl, Nat.lt_add_of_pos_right hpos⟩
  · rcases hf with hf | ⟨hf, hold⟩
    · cases hf
    · exact ⟨hold, fun _ heq => hf heq.symm⟩
  · refine ⟨hf, ?_⟩
    rintro (⟨bytes, h⟩ | h)
    · exact (hne bytes h).elim
    · exact (hnot h).elim

namespace Phase

def Holds (phase : Phase) (f : Fault) : Prop :=
  (∃ job, phase.work = some (.fault job) ∧ job.fault = f) ∨ ∃ reply, .back reply ∈ phase.outs ∧ reply.fault = some f

def Ends (phase : Phase) : Prop := ∃ reply, .back reply ∈ phase.outs ∧ reply.isEnd = true

structure OfKind (phase : Phase) (kind : Bool) : Prop where
  faults : ∀ job, phase.work = some (.fault job) → kind = false
  replays : ∀ job index done, phase.work = some (.replay job index done) → kind = true
  backs : ∀ reply, .back reply ∈ phase.outs → kind = false
  quits : .quit ∈ phase.outs → kind = true

theorem OfKind.at_work {phase phase' : Phase} {kind : Bool} (h : phase.OfKind kind) (hwork : phase'.work = phase.work)
    (houts : phase'.outs = []) : phase'.OfKind kind := by
  constructor
  · rw [hwork]
    exact h.faults
  · rw [hwork]
    exact h.replays
  · rw [houts]
    exact nofun
  · rw [houts]
    exact nofun

theorem OfKind.sending {phase : Phase} {kind : Bool} (hwork : phase.work = none)
    (hbacks : ∀ reply, .back reply ∈ phase.outs → kind = false) (hquits : .quit ∈ phase.outs → kind = true) :
    phase.OfKind kind := by
  constructor
  · intro job hjob
    cases hwork.symm.trans hjob
  · intro job index done hjob
    cases hwork.symm.trans hjob
  · exact hbacks
  · exact hquits

theorem OfKind.fault_worker {phase : Phase} {job : FaultJob} (hwork : phase.work = some (.fault job))
    (houts : phase.outs = []) : phase.OfKind false := by
  have hjob : (Phase.taken (.fault job)).OfKind false :=
    ⟨fun _ _ => rfl, nofun, nofun, nofun⟩
  exact hjob.at_work hwork houts

theorem OfKind.replay_worker {phase : Phase} {job : ReplayJob} {index done : ℕ}
    (hwork : phase.work = some (.replay job index done)) (houts : phase.outs = []) : phase.OfKind true := by
  have hjob : (Phase.taken (.replay job index done)).OfKind true :=
    ⟨nofun, fun _ _ _ _ => rfl, nofun, fun _ => rfl⟩
  exact hjob.at_work hwork houts

end Phase

namespace World

def Carried (w : World) (f : Fault) : Prop :=
  (∃ job ∈ w.jobs, job.fault = f) ∨ ∃ reply ∈ w.back, reply.fault = some f

def Held (ctx : VmContext) (w : World) (f : Fault) : Prop :=
  w.handler.InHand ctx f ∨ (∃ k ∈ w.workers, k.phase.Holds f) ∨ w.Carried f

/-- The handler has found the clone gone, or a fault worker has ended its service and the handler's end is on its way
to it. -/
def Ended (w : World) : Prop :=
  w.handler.gone = true ∨ w.handler.Ending ∨ (∃ k ∈ w.workers, k.phase.Ends) ∨ ∃ reply ∈ w.back, reply.isEnd = true

end World

namespace Move

variable {core : World} {replay : Bool} {phase phase' : Phase}

theorem afterFill_outs (job : FaultJob) (refused : Bool) (answer : Answer) :
    ∃ outs, afterFill ctx job refused answer = .emit outs ∧ .quit ∉ outs ∧
      (.stop ∈ outs → ∃ reply, .back reply ∈ outs ∧ reply.isEnd = true) ∧
      ((∃ bytes, answer = .populated bytes) ∨ answer = .present ∨ .back (.retry job) ∈ outs ∨
        ∃ reply, .back reply ∈ outs ∧ reply.isEnd = true) := by
  cases answer with
  | populated bytes =>
    refine ⟨_, rfl, ?_, ?_, .inl ⟨bytes, rfl⟩⟩ <;> cases refused <;> cases ctx.traced <;> simp
  | present =>
    refine ⟨_, rfl, ?_, ?_, .inr (.inl rfl)⟩ <;> cases refused <;> cases ctx.traced <;> simp
  | again => exact ⟨_, rfl, by simp, by simp, by simp⟩
  | gone => exact ⟨_, rfl, by simp, by simp [WorkerReturn.isEnd], .inr (.inr (.inr ⟨.vmGone, by simp, rfl⟩))⟩
  | invalid | failed => exact ⟨_, rfl, by simp, by simp, .inr (.inr (.inr ⟨.failed, by simp, rfl⟩))⟩

theorem afterCopy_outs (job : ReplayJob) (index done len : ℕ) (late : Bool) (answer : Answer) :
    (Phase.leaving (afterCopy ctx job index done len late answer)).OfKind true ∧
      .stop ∉ (Phase.leaving (afterCopy ctx job index done len late answer)).outs := by
  have hlate : (Phase.leaving
      (if late then .emit [.result .refused] else .resume (.replay job index done))).OfKind true ∧
      .stop ∉ (Phase.leaving (if late then .emit [.result .refused] else .resume (.replay job index done))).outs := by
    split
    · exact ⟨.sending rfl (by simp [Phase.outs]) (by simp), by simp [Phase.outs]⟩
    · exact ⟨.replay_worker rfl rfl, not_mem_nil⟩
  cases answer with
  | populated | present => exact ⟨.replay_worker rfl rfl, not_mem_nil⟩
  | gone => exact ⟨.sending rfl (by simp [afterCopy, Phase.outs]) (by simp), by simp [afterCopy, Phase.outs]⟩
  | again | invalid | failed => exact hlate

section

variable (h : Move ctx w replay phase core phase')
include h

theorem ofKind (hphase : phase.OfKind replay) : phase'.OfKind replay := by
  cases h with
  | takeReplay hkind =>
    subst hkind
    exact .replay_worker rfl rfl
  | takeFault hkind =>
    subst hkind
    exact .fault_worker rfl rfl
  | start | enter | count | back | hold | uncount | again | check | resume | refuse => exact hphase.at_work rfl rfl
  | nextRun =>
    rw [hphase.replays _ _ _ rfl]
    exact .replay_worker rfl rfl
  | done | staleReplay => exact .sending rfl (by simp [Phase.outs]) (by simp [Phase.outs])
  | staleFault =>
    rw [hphase.faults _ rfl]
    exact .sending rfl (fun _ _ => rfl) (by simp [Phase.outs])
  | @fill job _ answer | @refill job _ answer =>
    obtain ⟨outs, heq, hquit, -⟩ := @afterFill_outs ctx job _ answer
    rw [heq, hphase.faults _ rfl]
    exact .sending rfl (fun _ _ => rfl) fun h => (hquit h).elim
  | skip | copy =>
    rw [hphase.replays _ _ _ rfl]
    exact (afterCopy_outs _ _ _ _ _ _).1
  | leave => exact .sending rfl hphase.backs hphase.quits
  | stop | reply | result =>
    exact .sending rfl (fun other hother => hphase.backs other (mem_cons_of_mem _ hother))
      fun hquit => hphase.quits (mem_cons_of_mem _ hquit)
  | closed | dropped | rest | quit | panic =>
    exact .sending rfl nofun nofun

omit h in
theorem fill_keeps {filled : World} {job : FaultJob} {source : Source} {answer : Answer} {refused : Bool}
    (hfill : w.populate ctx job.page ctx.pageSize source answer = some filled)
    (hf : Unanswered f filled.log) (hheld : (Phase.refilling job).Holds f ∨ w.Carried f) :
    (Phase.leaving (afterFill ctx job refused answer)).Holds f ∨ filled.Carried f ∨
      (Phase.leaving (afterFill ctx job refused answer)).Ends := by
  obtain ⟨outs, heq, -, -, houts⟩ := @afterFill_outs ctx job refused answer
  rw [heq]
  have hanswered := (unanswered_populate hfill hf).2
  obtain ⟨entries, rfl, -⟩ := populate_log hfill
  rcases hheld with (⟨job', hjob, rfl⟩ | ⟨reply, hreply, -⟩) | hheld
  · cases hjob
    rcases houts with h | h | h | h
    · exact (hanswered (.inl h) rfl).elim
    · exact (hanswered (.inr h) rfl).elim
    · exact .inl (.inr ⟨_, h, rfl⟩)
    · exact .inr (.inr h)
  · cases hreply
  · exact .inr (.inl hheld)

theorem keeps_fault (hphase : phase.OfKind replay) (hf : Unanswered f core.log) (hheld : phase.Holds f ∨ w.Carried f) :
    phase'.Holds f ∨ core.Carried f ∨ phase'.Ends ∨ w.stop = true := by
  -- a step that leaves the worker's work and what it sends as they are
  have hsame : phase'.work = phase.work → phase'.outs = phase.outs → core.jobs = w.jobs → core.back = w.back →
      phase'.Holds f ∨ core.Carried f ∨ phase'.Ends ∨ w.stop = true := by
    intro hwork houts hjobs hback
    rcases hheld with hheld | hheld
    · unfold Phase.Holds
      rw [hwork, houts]
      exact .inl hheld
    · unfold World.Carried
      rw [hjobs, hback]
      exact .inr (.inl hheld)
  -- a worker without a fault at hand that leaves the channels alone
  have hidle : ¬phase.Holds f → core.jobs = w.jobs → core.back = w.back →
      phase'.Holds f ∨ core.Carried f ∨ phase'.Ends ∨ w.stop = true := by
    intro hnot hjobs hback
    unfold World.Carried
    rw [hjobs, hback]
    exact .inr (.inl (hheld.resolve_left hnot))
  cases h with
  | start | enter | count | back | hold | uncount | again | check | resume | leave | refuse =>
    exact hsame rfl rfl rfl rfl
  | takeReplay | closed | rest | nextRun | done | staleReplay | panic | skip =>
    refine hidle ?_ rfl rfl
    rintro (⟨job, hjob, -⟩ | ⟨reply, hreply, -⟩)
    · cases hjob
    · cases hreply
  | copy _ _ hfill =>
    obtain ⟨entries, rfl, -⟩ := populate_log hfill
    refine hidle ?_ rfl rfl
    rintro (⟨job, hjob, -⟩ | ⟨reply, hreply, -⟩)
    · cases hjob
    · cases hreply
  | takeFault _ hjobs =>
    rcases hheld with (⟨job, hjob, -⟩ | ⟨reply, hreply, -⟩) | ⟨job, hjob, rfl⟩ | hback
    · cases hjob
    · cases hreply
    · rw [hjobs] at hjob
      rcases mem_cons.mp hjob with rfl | hjob
      · exact .inl (.inl ⟨_, rfl, rfl⟩)
      · exact .inr (.inl (.inl ⟨job, hjob, rfl⟩))
    · exact .inr (.inl (.inr hback))
  | dropped hstop =>
    rcases hheld with (⟨job, hjob, -⟩ | ⟨reply, hreply, -⟩) | hheld
    · rw [hphase.faults job hjob] at hstop
      exact .inr (.inr (.inr hstop))
    · cases hreply
    · exact .inr (.inl hheld)
  | staleFault =>
    rcases hheld with (⟨job, hjob, rfl⟩ | ⟨reply, hreply, -⟩) | hheld
    · cases hjob
      exact .inl (.inr ⟨_, mem_singleton_self _, rfl⟩)
    · cases hreply
    · exact .inr (.inl hheld)
  | fill hfill | refill hfill =>
    rcases fill_keeps hfill hf hheld with h | h | h
    · exact .inl h
    · exact .inr (.inl h)
    · exact .inr (.inr (.inl h))
  | @stop outs | @result outcome outs =>
    rcases hheld with (⟨job, hjob, -⟩ | ⟨reply, hreply, hreplyf⟩) | hheld
    · cases hjob
    · rcases mem_cons.mp hreply with h | hreply
      · cases h
      · exact .inl (.inr ⟨reply, hreply, hreplyf⟩)
    · exact .inr (.inl hheld)
  | @reply first outs =>
    rcases hheld with (⟨job, hjob, -⟩ | ⟨reply, hreply, hreplyf⟩) | hjobs | ⟨reply, hreply, hreplyf⟩
    · cases hjob
    · rcases mem_cons.mp hreply with h | hreply
      · cases h
        exact .inr (.inl (.inr ⟨first, mem_append_right _ (mem_singleton_self _), hreplyf⟩))
      · exact .inl (.inr ⟨reply, hreply, hreplyf⟩)
    · exact .inr (.inl (.inl hjobs))
    · exact .inr (.inl (.inr ⟨reply, mem_append_left _ hreply, hreplyf⟩))
  | quit =>
    refine hidle ?_ rfl rfl
    rintro (⟨job, hjob, -⟩ | ⟨reply, hreply, -⟩)
    · cases hjob
    · cases (hphase.backs reply hreply).symm.trans (hphase.quits mem_cons_self)

theorem keeps_end (hphase : phase.OfKind replay) (hends : phase.Ends ∨ ∃ reply ∈ w.back, reply.isEnd = true) :
    phase'.Ends ∨ ∃ reply ∈ core.back, reply.isEnd = true := by
  have hback : ∀ reply ∈ w.back, reply ∈ core.back := by
    intro reply hreply
    cases h with
    | reply => exact mem_append_left _ hreply
    | fill hfill | refill hfill | copy _ _ hfill =>
      obtain ⟨entries, rfl, -⟩ := populate_log hfill
      exact hreply
    | _ => exact hreply
  rcases hends with ⟨reply, hreply, hend⟩ | ⟨reply, hreply, hend⟩
  · cases h with
    | leave => exact .inl ⟨reply, hreply, hend⟩
    | stop | result =>
      rcases mem_cons.mp hreply with h | hreply
      · cases h
      · exact .inl ⟨reply, hreply, hend⟩
    | reply =>
      rcases mem_cons.mp hreply with h | hreply
      · cases h
        exact .inr ⟨reply, mem_append_right _ (mem_singleton_self _), hend⟩
      · exact .inl ⟨reply, hreply, hend⟩
    | quit => cases (hphase.backs reply hreply).symm.trans (hphase.quits mem_cons_self)
    | _ => cases hreply
  · exact .inr ⟨reply, hback reply hreply, hend⟩

theorem unanswered (hf : Unanswered f core.log) : Unanswered f w.log := by
  cases h with
  | fill hfill | refill hfill | copy _ _ hfill => exact (unanswered_populate hfill hf).1
  | _ => exact hf

theorem stops (hstop : core.stop = true ∨ .stop ∈ phase'.outs) : w.stop = true ∨ .stop ∈ phase.outs ∨ phase'.Ends := by
  cases h with
  | @fill job _ answer hfill | @refill job _ answer hfill =>
    obtain ⟨entries, rfl, -⟩ := populate_log hfill
    obtain ⟨outs, heq, -, hends, -⟩ := @afterFill_outs ctx job _ answer
    rw [heq] at hstop ⊢
    rcases hstop with hstop | hstop
    · exact .inl hstop
    · exact .inr (.inr (hends hstop))
  | skip =>
    rcases hstop with hstop | hstop
    · exact .inl hstop
    · exact ((afterCopy_outs _ _ _ _ _ _).2 hstop).elim
  | copy _ _ hfill =>
    obtain ⟨entries, rfl, -⟩ := populate_log hfill
    rcases hstop with hstop | hstop
    · exact .inl hstop
    · exact ((afterCopy_outs _ _ _ _ _ _).2 hstop).elim
  | stop => exact .inr (.inl mem_cons_self)
  | leave => exact hstop.imp id .inl
  | reply | result => exact hstop.imp id fun h => .inl (mem_cons_of_mem _ h)
  | done | staleFault | staleReplay =>
    rcases hstop with hstop | hstop
    · exact .inl hstop
    · cases mem_singleton.mp hstop
  | _ =>
    rcases hstop with hstop | hstop
    · exact .inl hstop
    · cases hstop

end

end Move

structure Accounted (ctx : VmContext) (w : World) : Prop where
  kind : ∀ k ∈ w.workers, k.phase.OfKind k.replay
  stopped : (w.stop = true ∨ ∃ k ∈ w.workers, .stop ∈ k.phase.outs) → w.Ended
  held : ∀ f, Unanswered f w.log → w.Held ctx f ∨ w.Ended
  filled : ∀ f, Unanswered f w.log → f.page ∉ w.handler.filled
  tidy : w.handler.Tidy

namespace Accounted

section

variable (hw : Accounted ctx w)
include hw

theorem move {core : World} {i : ℕ} {k : Worker} {phase : Phase}
    (hk : w.workers[i]? = some k) (h : Move ctx w k.replay k.phase core phase) :
    Accounted ctx (core.setPhase i k phase) := by
  have hin := mem_of_getElem? hk
  have hi := (List.getElem?_eq_some_iff.mp hk).1
  obtain ⟨hhandler, hworkers, entries, hlog, -⟩ := h.core_eq
  have hkind := hw.kind k hin
  -- the worker is in its new phase, and the others are where they were
  have hnew : { k with phase := phase } ∈ (core.setPhase i k phase).workers := by
    dsimp only [World.setPhase]
    rw [hworkers]
    exact mem_set hi _
  have hold : ∀ k' ∈ w.workers, k' = k ∨ k' ∈ (core.setPhase i k phase).workers := by
    intro k' hk'
    obtain ⟨j, hj⟩ := List.getElem?_of_mem hk'
    by_cases hij : i = j
    · subst hij
      exact .inl (Option.some.inj (hj.symm.trans hk))
    · apply Or.inr
      dsimp only [World.setPhase]
      rw [hworkers]
      exact mem_of_getElem? ((List.getElem?_set_ne hij).trans hj)
  have hends : w.Ended → (core.setPhase i k phase).Ended := by
    rintro (hgone | hending | ⟨k', hk', hends⟩ | hback)
    · exact .inl (by dsimp only [World.setPhase]; rw [hhandler]; exact hgone)
    · exact .inr (.inl (by dsimp only [World.setPhase]; rw [hhandler]; exact hending))
    · rcases hold k' hk' with rfl | hk'
      · rcases h.keeps_end hkind (.inl hends) with hends | hback
        · exact .inr (.inr (.inl ⟨_, hnew, hends⟩))
        · exact .inr (.inr (.inr hback))
      · exact .inr (.inr (.inl ⟨k', hk', hends⟩))
    · rcases h.keeps_end hkind (.inr hback) with hends | hback
      · exact .inr (.inr (.inl ⟨_, hnew, hends⟩))
      · exact .inr (.inr (.inr hback))
  have hset : ∀ k' ∈ (core.setPhase i k phase).workers, k' ∈ w.workers ∨ k' = { k with phase := phase } := by
    intro k' hk'
    dsimp only [World.setPhase] at hk'
    rw [hworkers] at hk'
    exact mem_or_eq_of_mem_set hk'
  constructor
  · intro k' hk'
    rcases hset k' hk' with hk' | rfl
    · exact hw.kind k' hk'
    · exact h.ofKind hkind
  · intro hstop
    have hsource : core.stop = true ∨ .stop ∈ phase.outs ∨ ∃ k' ∈ w.workers, .stop ∈ k'.phase.outs := by
      rcases hstop with hstop | ⟨k', hk', hstop⟩
      · exact .inl hstop
      · rcases hset k' hk' with hk' | rfl
        · exact .inr (.inr ⟨k', hk', hstop⟩)
        · exact .inr (.inl hstop)
    have hown : core.stop = true ∨ .stop ∈ phase.outs → (core.setPhase i k phase).Ended := by
      intro hstop
      rcases h.stops hstop with hstop | hstop | hstop
      · exact hends (hw.stopped (.inl hstop))
      · exact hends (hw.stopped (.inr ⟨k, hin, hstop⟩))
      · exact .inr (.inr (.inl ⟨_, hnew, hstop⟩))
    rcases hsource with hstop | hstop | hstop
    · exact hown (.inl hstop)
    · exact hown (.inr hstop)
    · exact hends (hw.stopped (.inr hstop))
  · intro f hf
    have hworker : k.phase.Holds f ∨ w.Carried f →
        (core.setPhase i k phase).Held ctx f ∨ (core.setPhase i k phase).Ended := by
      intro hheld
      rcases h.keeps_fault hkind hf hheld with hheld | hheld | hheld | hstop
      · exact .inl (.inr (.inl ⟨_, hnew, hheld⟩))
      · exact .inl (.inr (.inr hheld))
      · exact .inr (.inr (.inr (.inl ⟨_, hnew, hheld⟩)))
      · exact .inr (hends (hw.stopped (.inl hstop)))
    rcases hw.held f (h.unanswered hf) with (hheld | ⟨k', hk', hheld⟩ | hheld) | hended
    · exact .inl (.inl (by dsimp only [World.setPhase]; rw [hhandler]; exact hheld))
    · rcases hold k' hk' with rfl | hk'
      · exact hworker (.inl hheld)
      · exact .inl (.inr (.inl ⟨k', hk', hheld⟩))
    · exact hworker (.inr hheld)
    · exact .inr (hends hended)
  · intro f hf
    dsimp only [World.setPhase]
    rw [hhandler]
    exact hw.filled f (h.unanswered hf)
  · dsimp only [World.setPhase]
    rw [hhandler]
    exact hw.tidy

theorem handler {s' : Handler}
    (hkeeps : ∀ f, w.handler.InHand ctx f → s'.InHand ctx f ∨ f.page ∈ w.handler.filled ∨ s'.gone = true)
    (hgone : w.handler.gone = true → s'.gone = true) (hends : w.handler.Ending → s'.Ending ∨ s'.gone = true)
    (hfilled : s'.filled = w.handler.filled) (htidy : s'.Tidy) : Accounted ctx { w with handler := s' } := by
  have hended : w.Ended → { w with handler := s' }.Ended := by
    rintro (h | h | h | h)
    · exact .inl (hgone h)
    · rcases hends h with h | h
      · exact .inr (.inl h)
      · exact .inl h
    · exact .inr (.inr (.inl h))
    · exact .inr (.inr (.inr h))
  constructor
  · exact hw.kind
  · exact fun h => hended (hw.stopped h)
  · intro f hf
    rcases hw.held f hf with (hheld | hheld) | h
    · rcases hkeeps f hheld with h | h | h
      · exact .inl (.inl h)
      · exact (hw.filled f hf h).elim
      · exact .inr (.inl h)
    · exact .inl (.inr hheld)
    · exact .inr (hended h)
  · intro f hf
    dsimp only
    rw [hfilled]
    exact hw.filled f hf
  · exact htidy

theorem aside {s' : Handler}
    (hsame : (s'.current, s'.batch, s'.returns, s'.parkedFaults, s'.filled, s'.gone, s'.outcome) =
      (w.handler.current, w.handler.batch, w.handler.returns, w.handler.parkedFaults, w.handler.filled, w.handler.gone,
        w.handler.outcome)) : Accounted ctx { w with handler := s' } := by
  simp only [Prod.mk.injEq] at hsame
  obtain ⟨hcurrent, hbatch, hreturns, hparked, hfilled, hgone, houtcome⟩ := hsame
  apply hw.handler
  · intro f hf
    unfold Handler.InHand Handler.Parked at hf ⊢
    rw [hcurrent, hbatch, hreturns, hparked]
    exact .inl hf
  · rw [hgone]
    exact id
  · intro hends
    unfold Handler.Ending at hends ⊢
    rw [hreturns]
    exact .inl hends
  · exact hfilled
  · unfold Handler.Tidy
    rw [houtcome, hbatch, hcurrent]
    exact hw.tidy

theorem populate {host len : ℕ} {source : Source} {answer r : Answer}
    (h : handlerPopulate ctx w host len source answer = some (w', r)) : Accounted ctx w' := by
  obtain ⟨-, filled, hfilled, rfl⟩ := handlerPopulate_eq_some h
  have hlog := fun f => @unanswered_populate ctx w filled f host len source answer hfilled
  obtain ⟨entries, rfl, -⟩ := populate_log hfilled
  -- what the handler has filled is answered
  have hfill : (∃ bytes, answer = .populated bytes) ∨ answer = .present →
      ∀ f, Unanswered f (entries ++ w.log) → f.page ∉ host :: w.handler.filled := by
    intro hanswer f hf hin
    obtain ⟨hold, hne⟩ := hlog f hf
    rcases mem_cons.mp hin with heq | hin
    · exact hne hanswer heq
    · exact hw.filled f hold hin
  have hsame : Accounted ctx { w with log := entries ++ w.log } :=
    ⟨hw.kind, hw.stopped, fun f hf => hw.held f (hlog f hf).1, fun f hf => hw.filled f (hlog f hf).1, hw.tidy⟩
  cases answer with
  | populated bytes => exact ⟨hsame.kind, hsame.stopped, hsame.held, hfill (.inl ⟨bytes, rfl⟩), hsame.tidy⟩
  | present => exact ⟨hsame.kind, hsame.stopped, hsame.held, hfill (.inr rfl), hsame.tidy⟩
  | gone => exact hsame.handler (fun f hf => .inl hf) (fun _ => rfl) .inl rfl hsame.tidy
  | again | invalid | failed => exact hsame

theorem exec {o : Op} {input : Input} {r : o.Result} (hpre : (contract ctx).pre o w.handler)
    (h : exec ctx o w input = some (w', r)) : Accounted ctx w' := by
  cases o with
  | modify g =>
    cases h
    exact hw.handler hpre.keeps hpre.gone hpre.ends hpre.filled (hpre.tidy hw.tidy)
  | get | published | choose =>
    cases h
    exact hw
  | remember start stop =>
    cases h
    have hlog : ∀ f, Unanswered f (.removed start stop :: w.log) → Unanswered f w.log := by
      rintro f (hf | hf)
      · cases hf
      · exact hf.2
    have hstep : Accounted ctx { w with
        handler := { w.handler with removed := rememberRemoved ctx w.handler.removed start stop, unbumped := true } } :=
      hw.aside rfl
    exact ⟨hstep.kind, hstep.stopped, fun f hf => hstep.held f (hlog f hf), fun f hf => hstep.filled f (hlog f hf),
      hstep.tidy⟩
  | bump | startReading | stopReading =>
    cases h
    exact hw.aside rfl
  | awaitCopiers =>
    simp only [Uffd.exec] at h
    split at h
    · cases h
      exact hw.aside rfl
    · cases h
  | readEvents room =>
    simp only [Uffd.exec] at h
    split at h
    · cases h
      obtain ⟨-, -, hbatch, houtcome⟩ := hpre
      -- the faults just read are in the batch
      have hread : ∀ f, Unanswered f (((w.queue.take (min input.count room)).filterMap (Event.fault ctx)).reverse.map
          .read ++ w.log) → (∃ e ∈ w.queue.take (min input.count room), e.fault ctx = some f) ∨ Unanswered f w.log := by
        intro f hf
        rcases unanswered_reads hf with hf | hf
        · obtain ⟨e, he, hfault⟩ := mem_filterMap.mp (mem_reverse.mp hf)
          exact .inl ⟨e, he, hfault⟩
        · exact .inr hf
      constructor
      · exact hw.kind
      · exact hw.stopped
      · intro f hf
        rcases hread f hf with hf | hf
        · exact .inl (.inl (.inr (.inl hf)))
        · rcases hw.held f hf with ((hheld | ⟨e, he, -⟩ | hheld) | hheld) | hended
          · exact .inl (.inl (.inl hheld))
          · simp [hbatch] at he
          · exact .inl (.inl (.inr (.inr hheld)))
          · exact .inl (.inr hheld)
          · exact .inr hended
      · exact fun f _ => not_mem_nil
      · intro hends
        dsimp only [World.update] at hends
        rw [houtcome] at hends
        rcases hends with hends | hends <;> cases hends
    · cases h
      exact hw
  | takeReturn wait =>
    simp only [Uffd.exec] at h
    split at h
    · next reply back hback =>
      cases h
      have hended : w.Ended → World.Ended { w.update (fun s => { s with returns := s.returns ++ [reply] }) with
          back := back } := by
        rintro (h | ⟨other, hother, h⟩ | h | ⟨other, hother, h⟩)
        · exact .inl h
        · exact .inr (.inl ⟨other, mem_append_left _ hother, h⟩)
        · exact .inr (.inr (.inl h))
        · rw [hback] at hother
          rcases mem_cons.mp hother with rfl | hother
          · exact .inr (.inl ⟨other, mem_append_right _ (mem_singleton_self _), h⟩)
          · exact .inr (.inr (.inr ⟨other, hother, h⟩))
      constructor
      · exact hw.kind
      · exact fun hstop => hended (hw.stopped hstop)
      · intro f hf
        rcases hw.held f hf with ((hheld | hheld | ⟨other, hother, hheld⟩ | hheld) | hheld | hheld |
          ⟨other, hother, hheld⟩) | h
        · exact .inl (.inl (.inl hheld))
        · exact .inl (.inl (.inr (.inl hheld)))
        · exact .inl (.inl (.inr (.inr (.inl ⟨other, mem_append_left _ hother, hheld⟩))))
        · exact .inl (.inl (.inr (.inr (.inr hheld))))
        · exact .inl (.inr (.inl hheld))
        · exact .inl (.inr (.inr (.inl hheld)))
        · rw [hback] at hother
          rcases mem_cons.mp hother with rfl | hother
          · have hin : other ∈ w.handler.returns ++ [other] := mem_append_right _ (mem_singleton_self _)
            exact .inl (.inl (.inr (.inr (.inl ⟨other, hin, hheld⟩))))
          · exact .inl (.inr (.inr (.inr ⟨other, hother, hheld⟩)))
        · exact .inr (hended h)
      · exact hw.filled
      · exact hw.tidy
    · split at h
      · cases h
      · cases h
        exact hw
  | submit job =>
    simp only [Uffd.exec] at h
    split at h
    · cases h
      constructor
      · exact hw.kind
      · exact hw.stopped
      · intro f hf
        rcases hw.held f hf with ((hheld | hheld) | hheld | ⟨other, hother, hheld⟩ | hheld) | h
        · have hjob : job.fault = f := Option.some.inj (hpre.1.symm.trans hheld)
          exact .inl (.inr (.inr (.inl ⟨job, mem_append_right _ (mem_singleton_self _), hjob⟩)))
        · exact .inl (.inl (.inr hheld))
        · exact .inl (.inr (.inl hheld))
        · exact .inl (.inr (.inr (.inl ⟨other, mem_append_left _ hother, hheld⟩)))
        · exact .inl (.inr (.inr (.inr hheld)))
        · exact .inr h
      · exact hw.filled
      · exact fun hends => ⟨(hw.tidy hends).1, rfl⟩
    · cases h
      exact hw
  | populate host len source => exact hw.populate h
  | copyAlone host len fileOffset => exact hw.populate h
  | poll =>
    simp only [Uffd.exec] at h
    split at h <;>
    · cases h
      exact hw
  | takeResult wait =>
    simp only [Uffd.exec] at h
    split at h
    · cases h
      exact { hw with }
    · split at h
      · cases h
      · cases h
        exact hw
  | trySubmit job =>
    simp only [Uffd.exec] at h
    split at h
    · cases h
      exact hw
    · split at h
      · cases h
        exact hw
      · cases h
        exact { hw with }
  | closeReplay | stopReplay =>
    cases h
    exact { hw with }
  | joinReplay =>
    simp only [Uffd.exec] at h
    split at h
    · cases h
    · cases h
      exact hw
  | halt => cases h

theorem beside {e : Beside} (h : beside ctx w e = some w') : Accounted ctx w' := by
  rcases beside_cases h with ⟨i, k, core, phase, hk, hmove, rfl⟩ | ⟨queue, holes, rfl⟩
  · exact hw.move hk hmove
  · exact { hw with }

end

end Accounted

theorem Starts.accounted (h : Starts ctx w) : Accounted ctx w := by
  constructor
  · intro k hk
    rw [h.workers.2 k hk]
    exact .sending rfl nofun nofun
  · rintro (hstop | ⟨k, hk, hstop⟩)
    · cases h.stop.symm.trans hstop
    · rw [h.workers.2 k hk] at hstop
      cases hstop
  · intro f hf
    rw [h.log] at hf
    exact hf.elim
  · intro f hf
    rw [h.log] at hf
    exact hf.elim
  · intro hends
    rw [h.hands.2.2.2.2] at hends
    rcases hends with hends | hends <;> cases hends

theorem no_fault_lost (hctx : ctx.Accepted) {recorded : List (ℕ × ℕ)} {t : World × Run Unit}
    (h : (clone ctx recorded).Reachable t) :
    (∀ newer f older, t.1.log = newer ++ .read f :: older →
      (∃ e ∈ newer, e.Answers f.page) ∨ t.1.Held ctx f ∨ t.1.Ended) ∧ t.1.handler.Tidy := by
  have hreach := @Machine.reachable World Handler Input Beside Op Unit Op.Result (machine ctx) _
    (fun w => Inv ctx w ∧ Accounted ctx w) (contract ctx) (fun _ s => Rest ctx s) (fun _ _ => True) ?_ ?_ ?_ t
    (.of_reachable h)
  · obtain ⟨⟨-, hw⟩, -⟩ := hreach
    refine ⟨fun newer f older hlog => ?_, hw.tidy⟩
    by_cases hanswered : ∃ e ∈ newer, e.Answers f.page
    · exact .inl hanswered
    · apply Or.inr
      apply hw.held
      rw [hlog]
      exact unanswered_of_split fun e he hanswers => hanswered ⟨e, he, hanswers⟩
  · rintro w p ⟨hstarts, fuel, rfl⟩
    exact ⟨⟨hstarts.inv, hstarts.accounted⟩, replayThenServe_spec hctx fuel recorded hstarts.rest⟩
  · rintro w e w' ⟨hw, haccounted⟩ hstep
    obtain ⟨hw', hhandler⟩ := hw.beside hctx hstep
    exact ⟨⟨hw', haccounted.beside hstep⟩, hhandler⟩
  · rintro w o k input w' r ⟨hw, haccounted⟩ - hpre hstep
    obtain ⟨hw', hpost⟩ := exec_inv hctx hw hpre hstep
    exact ⟨⟨hw', haccounted.exec hpre hstep⟩, hpost⟩

def twoFaults : List (Input ⊕ Beside) :=
  [.inr (.event (.pagefault (2 ^ 40) false false)), .inr (.event (.pagefault (2 ^ 40 + 4096) false false))] ++
    List.replicate 35 (own 1 4096)

theorem no_fault_lost_submitted : smallClone.Accepted ∧ ∃ t : World × Run Unit,
    (clone smallClone []).Reachable t ∧
    t.1.log = [] ++ .read ⟨2 ^ 40 + 4096, false⟩ :: [.read ⟨2 ^ 40, false⟩] ∧
    (t.1.Held smallClone ⟨2 ^ 40 + 4096, false⟩ ∨ t.1.Ended) ∧ t.1.handler.Tidy := by
  have hrun : (smallRun (fun _ _ => true) [] true [⟨false, .idle⟩, ⟨false, .idle⟩] twoFaults).map
      (fun t => t.1.log) = some ([] ++ .read ⟨2 ^ 40 + 4096, false⟩ :: [.read ⟨2 ^ 40, false⟩]) := by
    decide +kernel
  obtain ⟨t, ht, hlog⟩ := Option.map_eq_some_iff.mp hrun
  have hreach := (smallRun_reachable (by decide) ht).of_restrict
  obtain ⟨hheld, htidy⟩ := no_fault_lost smallClone_accepted hreach
  refine ⟨smallClone_accepted, t, hreach, hlog, (hheld _ _ _ hlog).resolve_left ?_, htidy⟩
  rintro ⟨e, he, -⟩
  exact not_mem_nil he

def firstWorkerGone : Option (World × Run Unit) :=
  smallRun (fun _ _ => true) [] true [⟨false, .idle⟩, ⟨false, .idle⟩] (twoFaults ++
    List.replicate 9 (.inr (.worker 0 ⟨0, true, .gone⟩)) ++ List.replicate 2 (.inr (.worker 1 ⟨0, true, .gone⟩)))

/-- The first worker finds the clone gone and says so to the other one, which drops its job; the handler has not heard
of it. -/
theorem fault_dropped_by_stopped_worker : ∃ t : World × Run Unit,
    smallClone.Accepted ∧ (clone smallClone []).Reachable t ∧
    t.1.log = [.read ⟨2 ^ 40 + 4096, false⟩, .read ⟨2 ^ 40, false⟩] ∧ t.1.jobs = [] ∧ t.1.back = [] ∧
    t.1.workers = [⟨false, .emitting [.back .vmGone]⟩, ⟨false, .exited⟩] ∧ t.1.handler.parkedFaults.keys = [] ∧
    t.1.handler.batch.length = 0 ∧ t.1.handler.current = none ∧ t.1.handler.gone = false ∧
    (match t.2 with | .op _ _ => true | _ => false) = true := by
  have hworld : firstWorkerGone.map (fun t => (t.1.log, t.1.jobs, t.1.back, t.1.workers)) =
      some ([.read ⟨2 ^ 40 + 4096, false⟩, .read ⟨2 ^ 40, false⟩], [], [],
        [⟨false, .emitting [.back .vmGone]⟩, ⟨false, .exited⟩]) := by
    decide +kernel
  have hhandler : firstWorkerGone.map (fun t => (t.1.handler.parkedFaults.keys, t.1.handler.batch.length,
      t.1.handler.current, t.1.handler.gone, match t.2 with | .op _ _ => true | _ => false)) =
      some ([], 0, none, false, true) := by
    decide +kernel
  obtain ⟨t, ht, hworld⟩ := Option.map_eq_some_iff.mp hworld
  rw [ht] at hhandler
  simp only [Option.map_some, Option.some.injEq, Prod.mk.injEq] at hworld hhandler
  obtain ⟨hlog, hjobs, hback, hworkers⟩ := hworld
  obtain ⟨hparked, hbatch, hcurrent, hgone, hrunning⟩ := hhandler
  exact ⟨t, smallClone_accepted, (smallRun_reachable (by decide) ht).of_restrict, hlog, hjobs, hback, hworkers, hparked,
    hbatch, hcurrent, hgone, hrunning⟩

end Fcvm.Uffd
