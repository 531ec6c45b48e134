import Fcvm.Uffd.Invariant

namespace Fcvm.Uffd

open Library List

variable {ctx : VmContext} {w w' : World}

variable {s s' : Handler} {len : ℕ}

def Ages (s s' : Handler) : Prop := (s'.epoch = s.epoch ∧ s'.removed = s.removed) ∨ s.epoch < s'.epoch

theorem Fresh.ages {generation fileOffset : ℕ}
    (h : Fresh ctx s.removed s.epoch generation fileOffset len) (hages : Ages s s') :
    Fresh ctx s'.removed s'.epoch generation fileOffset len := by
  rcases hages with ⟨hepoch, hremoved⟩ | hlt
  · rw [hepoch, hremoved]
    exact h
  · have hle := h.1
    exact ⟨by omega, fun heq => by omega⟩

theorem FaultJob.Planned.ages {job : FaultJob} (h : job.Planned ctx s.removed s.epoch)
    (hages : Ages s s') : job.Planned ctx s'.removed s'.epoch :=
  ⟨h.1, fun hanswer => (h.2 hanswer).ages hages⟩

theorem ReplayJob.Planned.ages {job : ReplayJob} (h : job.Planned ctx s.removed s.epoch)
    (hages : Ages s s') : job.Planned ctx s'.removed s'.epoch :=
  fun run hrun => ⟨(h run hrun).1, (h run hrun).2.ages hages⟩

theorem Work.Planned.ages {work : Work} (h : work.Planned ctx s.removed s.epoch)
    (hages : Ages s s') : work.Planned ctx s'.removed s'.epoch := by
  cases work with
  | fault job => exact FaultJob.Planned.ages h hages
  | replay job index done => exact ⟨ReplayJob.Planned.ages h.1 hages, h.2⟩

namespace Inv

section

variable (hw : Inv ctx w)
include hw

theorem handler (hages : Ages w.handler s')
    (hgate : s'.holding = true → s'.reading = true ∧ ∀ k ∈ w.workers, k.phase.inside = false)
    (hunbumped : s'.unbumped = true → s'.holding = true) (hsound : s'.removed.Sound ctx.pageSize ctx.memSize)
    (hgeneration : s'.generation = w.handler.generation ∨ ∀ k ∈ w.workers, k.phase.inside = false)
    (hkeep : ∀ g, w.handler.removed.has g = true → s'.removed.has g = true) : Inv ctx { w with handler := s' } := by
  refine ⟨hw.counted, hgate, hunbumped, hsound, ?_, ?_, hw.outs, ?_, hw.back, ?_, hw.results, ?_⟩
  · intro k hk work hwork
    rcases hgeneration with heq | hout
    · dsimp only
      rw [heq]
      exact hw.checked k hk work hwork
    · have hnot := hout k hk
      rw [hwork] at hnot
      cases hnot
  · exact fun k hk work hwork => (hw.works k hk work hwork).ages hages
  · exact fun job hjob => (hw.jobs job hjob).ages hages
  · exact fun job hjob => (hw.replayJobs job hjob).ages hages
  · exact fun start stop hin m hm page hpage hstart hstop hbase hlt =>
      hkeep _ (hw.recorded start stop hin m hm page hpage hstart hstop hbase hlt)

theorem aside (hsame : (s'.removed, s'.generation, s'.reading, s'.holding, s'.unbumped) =
      (w.handler.removed, w.handler.generation, w.handler.reading, w.handler.holding, w.handler.unbumped)) :
    Inv ctx { w with handler := s' } := by
  simp only [Prod.mk.injEq] at hsame
  obtain ⟨hremoved, hgeneration, hreading, hholding, hunbumped⟩ := hsame
  apply hw.handler
  · refine .inl ⟨?_, hremoved⟩
    unfold Handler.epoch
    rw [hunbumped, hgeneration]
  · rw [hholding, hreading]
    exact hw.gate
  · rw [hunbumped, hholding]
    exact hw.unbumped
  · rw [hremoved]
    exact hw.sound
  · exact .inl hgeneration
  · rw [hremoved]
    exact fun _ h => h

theorem log {entries : List Entry} (hentries : ∀ start stop, .removed start stop ∉ entries) :
    Inv ctx { w with log := entries ++ w.log } := by
  refine { hw with recorded := fun start stop hin => ?_ }
  rcases mem_append.mp hin with hin | hin
  · exact (hentries start stop hin).elim
  · exact hw.recorded start stop hin

theorem remember (hctx : ctx.Accepted) (start stop : ℕ) (hholding : w.handler.holding = true)
    (hunbumped : w.handler.unbumped = false) :
    Inv ctx { w with
      handler := { w.handler with removed := rememberRemoved ctx w.handler.removed start stop, unbumped := true }
      log := .removed start stop :: w.log } := by
  obtain ⟨hsound, hkeep, hadd⟩ := rememberRemoved_spec hctx hw.sound start stop
  have hepoch : w.handler.epoch = w.handler.generation := by
    unfold Handler.epoch
    rw [hunbumped]
    rfl
  have hstep : Inv ctx { w with
      handler :=
        { w.handler with removed := rememberRemoved ctx w.handler.removed start stop, unbumped := true } } := by
    refine hw.handler (.inr ?_) hw.gate (fun _ => hholding) hsound (.inl rfl) hkeep
    rw [hepoch]
    exact Nat.lt_succ_self _
  refine { hstep with recorded := fun start' stop' hin => ?_ }
  rcases mem_cons.mp hin with heq | hin
  · cases heq
    exact hadd
  · exact hstep.recorded start' stop' hin

theorem bump (hholding : w.handler.holding = true) (hunbumped : w.handler.unbumped = true) :
    Inv ctx { w with
      handler := { w.handler with generation := w.handler.generation + 1, unbumped := false } } := by
  refine hw.handler (.inl ⟨?_, rfl⟩) hw.gate nofun hw.sound (.inr (hw.gate hholding).2) fun _ h => h
  unfold Handler.epoch
  rw [hunbumped]
  rfl

theorem awaitCopiers (hcopiers : w.copiers = 0) (hreading : w.handler.reading = true) :
    Inv ctx { w with handler := { w.handler with holding := true } } := by
  refine hw.handler (.inl ⟨rfl, rfl⟩) (fun _ => ⟨hreading, fun k hk => ?_⟩) (fun _ => rfl) hw.sound (.inl rfl)
    fun _ h => h
  -- a worker inside the gate would be counted
  cases hin : k.phase.inside with
  | false => rfl
  | true =>
    have hcounted : k.phase.counted = true := by
      cases hp : k.phase <;> rw [hp] at hin <;> first | rfl | cases hin
    have hpos : 0 < w.workers.countP (·.phase.counted) := countP_pos_iff.mpr ⟨k, hk, hcounted⟩
    rw [← hw.counted] at hpos
    omega

end

end Inv

theorem handlerPopulate_eq_some {host : ℕ} {source : Source} {answer r : Answer}
    (h : handlerPopulate ctx w host len source answer = some (w', r)) :
    r = answer ∧ ∃ filled, w.populate ctx host len source answer = some filled ∧
      w' = filled.update (·.answered host answer) := by
  obtain ⟨filled, hfilled, h⟩ := Option.bind_eq_some_iff.mp h
  cases h
  exact ⟨rfl, filled, hfilled, rfl⟩

theorem handlerPopulate_inv {host : ℕ} {source : Source} {answer r : Answer} (hw : Inv ctx w)
    (h : handlerPopulate ctx w host len source answer = some (w', r)) :
    Inv ctx w' ∧ w'.handler = w.handler.answered host r ∧
      ∀ bytes, r = .populated bytes → ctx.pageSize ∣ bytes ∧ 0 < bytes ∧ bytes ≤ len := by
  obtain ⟨rfl, filled, hfilled, rfl⟩ := handlerPopulate_eq_some h
  obtain ⟨entries, hlog, hentries⟩ := populate_log hfilled
  refine ⟨?_, ?_, fun bytes heq => ?_⟩
  · rw [hlog]
    apply (hw.log hentries).aside
    cases r <;> rfl
  · rw [hlog]
    rfl
  · subst heq
    rcases populate_eq_some hfilled with ⟨n, heq, -, -, hn, hpos, hle, -⟩ | ⟨heq, -⟩ | ⟨hne, -⟩
    · cases heq
      exact ⟨hn, hpos, hle⟩
    · cases heq
    · exact (hne bytes rfl).elim

theorem exec_inv (hctx : ctx.Accepted) (hw : Inv ctx w) {o : Op} {input : Input} {r : o.Result}
    (hpre : (contract ctx).pre o w.handler) (h : exec ctx o w input = some (w', r)) :
    Inv ctx w' ∧ (contract ctx).post o w.handler r w'.handler := by
  cases o with
  | get =>
    cases h
    exact ⟨hw, rfl, rfl⟩
  | modify f =>
    cases h
    refine ⟨hw.aside ?_, rfl⟩
    rw [hpre.removed, hpre.generation, hpre.reading, hpre.holding, hpre.unbumped]
  | remember start stop =>
    cases h
    exact ⟨hw.remember hctx start stop hpre.1 hpre.2, rfl⟩
  | bump =>
    cases h
    exact ⟨hw.bump hpre.1 hpre.2, rfl⟩
  | startReading =>
    cases h
    refine ⟨hw.handler (.inl ⟨rfl, rfl⟩) (fun hholding => ?_) hw.unbumped hw.sound (.inl rfl) fun _ h => h, rfl⟩
    dsimp only at hholding
    cases hpre.1.symm.trans hholding
  | awaitCopiers =>
    simp only [exec] at h
    split at h
    · next hcopiers =>
      cases h
      exact ⟨hw.awaitCopiers hcopiers hpre.1, rfl⟩
    · cases h
  | stopReading =>
    cases h
    refine ⟨hw.handler (.inl ⟨rfl, rfl⟩) nofun (fun h => ?_) hw.sound (.inl rfl) fun _ h => h, rfl⟩
    have hunbumped : w.handler.unbumped = false := hpre
    dsimp only at h
    cases hunbumped.symm.trans h
  | readEvents room =>
    simp only [exec] at h
    split at h
    · cases h
      refine ⟨?_, .inr ⟨_, rfl, ?_, rfl⟩⟩
      · have hstep : Inv ctx { w with handler := { w.handler with
            batch := w.queue.take (min input.count room), filled := [] } } := hw.aside rfl
        have hreads : ∀ start stop, Entry.removed start stop ∉
            ((w.queue.take (min input.count room)).filterMap (Event.fault ctx)).reverse.map .read := by
          intro start stop hin
          obtain ⟨fault, -, heq⟩ := mem_map.mp hin
          cases heq
        have hlog := hstep.log hreads
        exact { hlog with }
      · rw [length_take]
        omega
    · cases h
      exact ⟨hw, .inl ⟨rfl, rfl⟩⟩
  | takeReturn wait =>
    simp only [exec] at h
    split at h
    · next reply back hback =>
      cases h
      have hstep : Inv ctx { w with handler := { w.handler with returns := w.handler.returns ++ [reply] } } :=
        hw.aside rfl
      refine ⟨?_, .inr ⟨reply, rfl, hw.back reply (by rw [hback]; exact mem_cons_self), rfl⟩⟩
      refine { hstep with back := fun other hother => ?_ }
      exact hw.back other (by rw [hback]; exact mem_cons_of_mem _ hother)
    · split at h
      · cases h
      · cases h
        exact ⟨hw, .inl ⟨rfl, rfl⟩⟩
  | submit job =>
    simp only [exec] at h
    split at h
    · cases h
      have hstep : Inv ctx { w with handler := { w.handler with current := none } } := hw.aside rfl
      refine ⟨?_, .inl ⟨rfl, rfl⟩⟩
      refine { hstep with jobs := fun other hother => ?_ }
      rcases mem_append.mp hother with hother | hother
      · exact hstep.jobs other hother
      · rw [mem_singleton.mp hother]
        exact hpre.2
    · cases h
      exact ⟨hw, .inr ⟨rfl, rfl⟩⟩
  | populate | copyAlone =>
    obtain ⟨hinv, hhandler, hbytes⟩ := handlerPopulate_inv hw h
    exact ⟨hinv, hhandler, hbytes⟩
  | poll =>
    simp only [exec] at h
    split at h <;>
    · cases h
      exact ⟨hw, rfl⟩
  | published =>
    cases h
    exact ⟨hw, rfl⟩
  | takeResult wait =>
    simp only [exec] at h
    split at h
    · next outcome results hresults =>
      cases h
      refine ⟨?_, rfl, fun found hfound => ?_⟩
      · refine { hw with results := fun other hother => ?_ }
        exact hw.results other (by rw [hresults]; exact mem_cons_of_mem _ hother)
      · cases hfound
        exact hw.results _ (by rw [hresults]; exact mem_cons_self)
    · split at h
      · cases h
      · cases h
        exact ⟨hw, rfl, nofun⟩
  | trySubmit job =>
    simp only [exec] at h
    split at h
    · cases h
      exact ⟨hw, rfl⟩
    · split at h
      · cases h
        exact ⟨hw, rfl⟩
      · cases h
        refine ⟨{ hw with replayJobs := fun other hother => ?_ }, rfl⟩
        rcases mem_append.mp hother with hother | hother
        · exact hw.replayJobs other hother
        · rw [mem_singleton.mp hother]
          exact hpre
  | closeReplay | stopReplay =>
    cases h
    exact ⟨{ hw with }, rfl⟩
  | joinReplay =>
    simp only [exec] at h
    split at h
    · cases h
    · cases h
      exact ⟨hw, rfl⟩
  | choose =>
    cases h
    exact ⟨hw, rfl⟩
  | halt => cases h

end Fcvm.Uffd
