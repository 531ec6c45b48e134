import Fcvm.Uffd.Contract

namespace Fcvm.Uffd

open Library Prog List

variable {ctx : VmContext}

variable {s s' s'' : Handler} {page : ℕ} {m : GuestRegionUffdMapping} {write : Bool} {f : Fault}

structure ReplayWorkers.Ok (ctx : VmContext) (removed : RemovedPages) (generation : ℕ) (pool : ReplayWorkers) :
    Prop where
  le : pool.pendingGeneration ≤ generation
  placed : ∀ run ∈ pool.pending, run.Placed ctx
  clear : pool.pendingGeneration = generation →
    ∀ run ∈ pool.pending, removed.Clear ctx.pageSize run.fileOffset run.len
  stale : ∀ job ∈ pool.stale, ∀ run ∈ job.runs, run.Placed ctx

structure Quiet (ctx : VmContext) (s : Handler) : Prop where
  holding : s.holding = false
  reading : s.reading = false
  unbumped : s.unbumped = false
  sound : s.removed.Sound ctx.pageSize ctx.memSize
  workers : ctx.minor = true → s.faultWorkers = false
  pool : ∀ pool, s.pool = some pool → pool.Ok ctx s.removed s.generation
  parked : ∀ page p, s.parkedFaults.lookup page = some p → Maps ctx page p.fileOffset ctx.pageSize
  returns : ∀ reply ∈ s.returns, reply.Placed ctx

theorem Quiet.of_eq (hs : Quiet ctx s)
    (hgate : (s'.removed, s'.generation, s'.reading, s'.holding, s'.unbumped) =
      (s.removed, s.generation, s.reading, s.holding, s.unbumped))
    (hstate : (s'.faultWorkers, s'.pool, s'.parkedFaults, s'.returns) =
      (s.faultWorkers, s.pool, s.parkedFaults, s.returns)) : Quiet ctx s' := by
  simp only [Prod.mk.injEq] at hgate hstate
  obtain ⟨hremoved, hgeneration, hreading, hholding, hunbumped⟩ := hgate
  obtain ⟨hworkers, hpool, hparked, hreturns⟩ := hstate
  constructor
  · rw [hholding]
    exact hs.holding
  · rw [hreading]
    exact hs.reading
  · rw [hunbumped]
    exact hs.unbumped
  · rw [hremoved]
    exact hs.sound
  · rw [hworkers]
    exact hs.workers
  · rw [hpool, hremoved, hgeneration]
    exact hs.pool
  · rw [hparked]
    exact hs.parked
  · rw [hreturns]
    exact hs.returns

def Fills (s s' : Handler) : Prop :=
  ∃ refused pages gone, (s.gone = true → gone = true) ∧
    s' = { s with zeroPageRefused := refused, filled := pages ++ s.filled, gone := gone }

namespace Fills

theorem refl (s : Handler) : Fills s s := ⟨s.zeroPageRefused, [], s.gone, id, rfl⟩

theorem trans (h : Fills s s') (h' : Fills s' s'') : Fills s s'' := by
  obtain ⟨refused, pages, gone, hgone, rfl⟩ := h
  obtain ⟨refused', pages', gone', hgone', rfl⟩ := h'
  refine ⟨refused', pages' ++ pages, gone', fun h => hgone' (hgone h), ?_⟩
  rw [append_assoc]

theorem quiet (h : Fills s s') (hs : Quiet ctx s) : Quiet ctx s' := by
  obtain ⟨refused, pages, gone, -, rfl⟩ := h
  exact hs.of_eq rfl rfl

end Fills

theorem fills_answered (s : Handler) (host : ℕ) (answer : Answer) : Fills s (s.answered host answer) := by
  cases answer with
  | populated | present => exact ⟨s.zeroPageRefused, [host], s.gone, id, rfl⟩
  | gone => exact ⟨s.zeroPageRefused, [], true, fun _ => rfl, rfl⟩
  | again | invalid | failed => exact .refl s

structure Attempt (page : ℕ) (s : Handler) (outcome : FaultOutcome) (s' : Handler) : Prop where
  fills : Fills s s'
  filled : outcome = .resolved ∨ outcome = .alreadyPresent → page ∈ s'.filled
  gone : outcome = .vmGone → s'.gone = true

theorem attempt_answered {answer : Answer} {outcome : FaultOutcome}
    (h : FaultOutcome.ofAnswer answer = some outcome) : Attempt page s outcome (s.answered page answer) := by
  refine ⟨fills_answered s page answer, fun ho => ?_, fun ho => ?_⟩
  · cases answer with
    | populated | present => exact mem_cons_self
    | again | gone =>
      cases h
      rcases ho with ho | ho <;> cases ho
    | invalid | failed => cases h
  · subst ho
    cases answer with
    | gone => rfl
    | populated | present | again | invalid | failed => cases h

theorem zeroAnswer_spec (s : Handler) (fileOffset : ℕ) :
    wp (contract ctx) (zeroAnswer ctx fileOffset) (fun zero s' => s' = s ∧
      (zero = none → ctx.minor = false → s.removed.contains fileOffset ctx.pageSize = false)) s := by
  unfold zeroAnswer
  split
  · next hminor => exact wp_ret ⟨rfl, fun _ h => by rw [hminor] at h; cases h⟩
  · refine wp_perform trivial ?_
    rintro _ _ ⟨rfl, rfl⟩
    refine wp_perform trivial ?_
    rintro holes _ rfl
    refine wp_ret ⟨rfl, fun hzero _ => ?_⟩
    split at hzero
    · cases hzero
    · next hnot => exact Bool.not_eq_true _ ▸ hnot

theorem skipRunAt_spec (hctx : ctx.Accepted) (hsound : s.removed.Sound ctx.pageSize ctx.memSize)
    (fileOffset maxLen : ℕ) :
    wp (contract ctx) (skipRunAt ctx fileOffset maxLen) (fun found s' => s' = s ∧
      (ctx.pageSize ∣ fileOffset → found.2 ≤ maxLen ∧ (ctx.pageSize ∣ maxLen → ctx.pageSize ∣ found.2) ∧
        (found.1 = none → s.removed.Clear ctx.pageSize fileOffset found.2))) s := by
  unfold skipRunAt
  refine wp_perform trivial ?_
  rintro _ _ ⟨rfl, rfl⟩
  refine wp_perform trivial ?_
  rintro holes s rfl
  have hspec := @RemovedPages.runAt_spec s.removed ctx.pageSize fileOffset maxLen hctx.pageSize_pos hsound.counted
  generalize s.removed.runAt fileOffset maxLen ctx.pageSize = found at hspec ⊢
  obtain ⟨givenBack, run⟩ := found
  refine wp_ret ⟨rfl, fun haligned => ?_⟩
  obtain ⟨hle, hdvd, huniform⟩ := hspec haligned
  have hdvd := fun h => hdvd h hctx.pageSize_dvd_chunk
  dsimp only at hle hdvd huniform ⊢
  split
  · exact ⟨hle, hdvd, nofun⟩
  · next hback =>
    have hclear : s.removed.Clear ctx.pageSize fileOffset run :=
      fun g hg hlt => (huniform g hg hlt).trans (Bool.not_eq_true _ ▸ hback)
    split
    · exact ⟨hle, hdvd, fun _ => hclear⟩
    · next map =>
      split
      · exact ⟨hle, hdvd, fun _ => hclear⟩
      · obtain ⟨hrun, hpages⟩ := map.runAt_spec fileOffset run ctx.pageSize
        refine ⟨hrun.trans hle, fun h => hpages (hdvd h) hctx.pageSize_dvd_chunk, fun _ => ?_⟩
        exact hclear.mono le_rfl (Nat.add_le_add_left hrun _)

theorem fillPage_spec {source : Source}
    (h : ∀ fileOffset, source = .snapshot fileOffset → Maps ctx page fileOffset ctx.pageSize ∧
      s.removed.Clear ctx.pageSize fileOffset ctx.pageSize) :
    wp (contract ctx) (fillPage ctx page source) (Attempt page s) s := by
  refine wp_perform (fun fileOffset hsource _ _ => h fileOffset hsource) ?_
  rintro answer _ ⟨rfl, -⟩
  split
  · next outcome ho => exact wp_ret (attempt_answered ho)
  · exact wp_fail

theorem copyZeros_spec (s : Handler) (page : ℕ) : wp (contract ctx) (copyZeros ctx page) (Attempt page s) s :=
  fillPage_spec nofun

theorem Attempt.after {outcome : FaultOutcome} (h : Fills s s')
    (h' : Attempt page s' outcome s'') : Attempt page s outcome s'' := ⟨h.trans h'.fills, h'.filled, h'.gone⟩

theorem resolveFault_spec {offsetInFile : ℕ} {zero : Option ZeroFill}
    (h : ctx.minor = false → zero = none → Maps ctx page offsetInFile ctx.pageSize ∧
      s.removed.Clear ctx.pageSize offsetInFile ctx.pageSize) :
    wp (contract ctx) (resolveFault ctx page offsetInFile zero) (Attempt page s) s := by
  unfold resolveFault
  split
  · unfold continuePage
    refine wp_seq (fillPage_spec fun _ h => by cases h) fun outcome s' hs' => ?_
    split
    · exact wp_ret ⟨hs'.fills, fun _ => hs'.filled (.inr rfl), nofun⟩
    · exact wp_ret hs'
  · next hminor =>
    split
    · split
      · exact wp_fail
      · refine fillPage_spec fun fileOffset hsource => ?_
        cases hsource
        exact h (Bool.not_eq_true _ ▸ hminor) rfl
    · exact copyZeros_spec s page
    · refine wp_perform nofun ?_
      rintro answer _ ⟨rfl, -⟩
      split
      · refine wp_perform {} ?_
        rintro - _ rfl
        exact wp_mono (copyZeros_spec _ page) fun outcome s' hs' => hs'.after ⟨true, [], s.gone, id, rfl⟩
      · split
        · next outcome ho => exact wp_ret (attempt_answered ho)
        · exact wp_fail

theorem populatePiece_spec {segment : Segment} (hctx : ctx.Accepted)
    (hsound : s.removed.Sound ctx.pageSize ctx.memSize)
    (h : Places ctx segment.hostAddr segment.fileOffset segment.len) (fuel done : ℕ) :
    wp (contract ctx) (populatePiece ctx segment fuel done)
      (fun alive s' => Fills s s' ∧ (alive = some false → s'.gone = true)) s := by
  induction fuel generalizing s done with
  | zero =>
    refine wp_perform trivial ?_
    rintro - _ rfl
    exact wp_ret ⟨.refl _, nofun⟩
  | succ fuel ih =>
    unfold populatePiece
    split
    · exact wp_ret ⟨.refl _, nofun⟩
    · next hdone =>
      split
      · exact wp_ret ⟨.refl _, nofun⟩
      · refine wp_seq (skipRunAt_spec hctx hsound _ _) ?_
        rintro ⟨zero, run⟩ s' ⟨rfl, hfound⟩
        dsimp only at hfound ⊢
        split
        · exact ih hsound _
        · next hzero =>
          refine wp_perform trivial ?_
          rintro answer s' rfl
          split
          · exact ih hsound _
          · split
            · exact wp_ret ⟨.refl _, nofun⟩
            · next chunk hchunk =>
              obtain ⟨-, rfl⟩ := chunkAt_eq_some hchunk
              have hcached : (populatePiece.residencyRun ctx (segment.fileOffset + done) run answer).2 ≤ run := by
                unfold populatePiece.residencyRun
                split
                · exact le_rfl
                · exact min_le_left _ _
              generalize (populatePiece.residencyRun ctx (segment.fileOffset + done) run answer).2 = cached at hcached
              refine wp_perform ?_ ?_
              · intro fileOffset hsource hhost hlen
                cases hsource
                have hpiece := h.sub (show done + (segment.len - done) ≤ segment.len by omega)
                have hfile := hpiece.file_dvd hctx (by omega) hhost
                obtain ⟨hle, -, hclear⟩ := hfound hfile
                have hzero : zero = none := by simpa using hzero
                dsimp only at hlen ⊢
                have hbound : min CHUNK_BYTES (done + cached - done) ≤ run := by omega
                exact ⟨⟨hhost, hfile, hlen, h.sub (by omega)⟩, (hclear hzero).mono le_rfl (by omega)⟩
              · rintro reply s'' ⟨rfl, -⟩
                have hfills := fills_answered s' (segment.hostAddr + done) reply
                have hstep : ∀ done', wp (contract ctx) (populatePiece ctx segment fuel done')
                    (fun alive s'' => Fills s' s'' ∧ (alive = some false → s''.gone = true))
                    (s'.answered (segment.hostAddr + done) reply) := by
                  intro done'
                  have hsound' :
                      (s'.answered (segment.hostAddr + done) reply).removed.Sound ctx.pageSize ctx.memSize := by
                    cases reply <;> exact hsound
                  exact wp_mono (ih hsound' done') fun alive t ht => ⟨hfills.trans ht.1, ht.2⟩
                cases reply with
                | populated bytes => exact hstep _
                | present => exact hstep _
                | gone => exact wp_ret ⟨hfills, fun _ => rfl⟩
                | again | invalid | failed => exact wp_ret ⟨hfills, nofun⟩

theorem populatePieces_spec (hctx : ctx.Accepted) (hsound : s.removed.Sound ctx.pageSize ctx.memSize)
    (fuel : ℕ) {segments : List Segment}
    (h : ∀ segment ∈ segments, Places ctx segment.hostAddr segment.fileOffset segment.len) :
    wp (contract ctx) (populatePieces ctx fuel segments)
      (fun alive s' => Fills s s' ∧ (alive = false → s'.gone = true)) s := by
  induction segments generalizing s with
  | nil => exact wp_ret ⟨.refl _, nofun⟩
  | cons segment segments ih =>
    refine wp_seq (populatePiece_spec hctx hsound (h segment mem_cons_self) fuel 0) ?_
    rintro alive s' ⟨hfills, hgone⟩
    cases alive with
    | none =>
      have hsound' : s'.removed.Sound ctx.pageSize ctx.memSize := by
        obtain ⟨refused, pages, gone, -, rfl⟩ := hfills
        exact hsound
      refine wp_mono (ih hsound' fun other hother => h other (mem_cons_of_mem _ hother)) ?_
      exact fun alive t ht => ⟨hfills.trans ht.1, ht.2⟩
    | some alive => exact wp_ret ⟨hfills, fun h => hgone (congrArg some h)⟩

theorem region_of_find (hctx : ctx.Accepted)
    (h : ctx.mappings.find? (·.contains page) = some m) :
    m ∈ ctx.mappings ∧ m.baseHostVirtAddr ≤ page ∧ page < m.baseHostVirtAddr + m.size := by
  have hm := mem_of_find?_eq_some h
  have hin := find?_some h
  have := hctx.host m hm
  simp only [GuestRegionUffdMapping.contains, Bool.and_eq_true, Bool.or_eq_true, decide_eq_true_eq] at hin
  exact ⟨hm, hin.1, by omega⟩

theorem faultPage_dvd (addr : ℕ) : ctx.pageSize ∣ ctx.faultPage addr := Nat.dvd_mul_left _ _

structure Stays (s s' : Handler) : Prop where
  removed : s'.removed = s.removed := by rfl
  generation : s'.generation = s.generation := by rfl
  batch : s'.batch = s.batch := by rfl
  returns : s'.returns = s.returns := by rfl
  outcome : s'.outcome = s.outcome := by rfl
  pool : s'.pool = s.pool := by rfl
  planned : s'.planned = s.planned := by rfl

theorem Fills.stays (h : Fills s s') : Stays s s' := by
  obtain ⟨refused, pages, gone, -, rfl⟩ := h
  exact {}

theorem Stays.trans (h : Stays s s') (h' : Stays s' s'') : Stays s s'' :=
  ⟨h'.removed.trans h.removed, h'.generation.trans h.generation, h'.batch.trans h.batch, h'.returns.trans h.returns,
    h'.outcome.trans h.outcome, h'.pool.trans h.pool, h'.planned.trans h.planned⟩

theorem submitToWorker_spec {offset : ℕ} {zero : Option ZeroReason}
    (hctx : ctx.Accepted) (hs : Quiet ctx s) (hcurrent : s.current = some ⟨page, write⟩)
    (hmaps : Maps ctx page offset ctx.pageSize)
    (hzero : zero = none → ctx.minor = false → s.removed.contains offset ctx.pageSize = false) :
    wp (contract ctx) (submitToWorker ctx page offset write zero)
      (fun sent s' => (sent = true ∧ s' = { s with current := none }) ∨ (sent = false ∧ s' = s)) s := by
  refine wp_perform trivial ?_
  rintro _ s ⟨rfl, rfl⟩
  have hsubmit : ∀ answer : WorkerAnswer, (answer = .snapshot → zero = none) →
      wp (contract ctx) (if s.faultWorkers = true then perform (.submit ⟨page, offset, write, answer, s.generation⟩)
        else pure false) (fun sent s' => (sent = true ∧ s' = { s with current := none }) ∨
          (sent = false ∧ s' = s)) s := by
    intro answer hanswer
    split
    · next hworkers =>
      have hminor : ctx.minor = false := by
        cases hm : ctx.minor with
        | false => rfl
        | true =>
          rw [hs.workers hm] at hworkers
          cases hworkers
      refine ⟨⟨hcurrent, hmaps, fun hsnapshot => ⟨?_, fun _ => ?_⟩⟩, fun sent s' hs' => hs'⟩
      · unfold Handler.epoch
        rw [hs.unbumped]
        exact le_rfl
      · exact RemovedPages.clear_of_contains hctx.pageSize_pos hmaps.file_dvd (hzero (hanswer hsnapshot) hminor)
    · exact wp_ret (.inr ⟨rfl, rfl⟩)
  cases zero with
  | none => exact hsubmit .snapshot fun _ => rfl
  | some reason =>
    cases reason with
    | hole => exact hsubmit (.hole _) nofun
    | givenBack => exact wp_ret (.inr ⟨rfl, rfl⟩)

theorem lookup_park (s : Handler) (page fileOffset : ℕ) (write : Bool) (page' : ℕ) :
    (s.park page fileOffset write).parkedFaults.lookup page' =
      if page' = page then
        some (match s.parkedFaults.lookup page with
          | some parked => { parked with write := parked.write || write }
          | none => ⟨fileOffset, write⟩)
      else s.parkedFaults.lookup page' := by
  unfold Handler.park VmState.park
  dsimp only
  by_cases heq : page' = page
  · rw [if_pos heq, heq]
    exact AList.lookup_insert _
  · rw [if_neg heq]
    exact AList.lookup_insert_ne heq

theorem parked_park (s : Handler) (page fileOffset : ℕ) (write : Bool) :
    (s.park page fileOffset write).Parked ⟨page, write⟩ := by
  unfold Handler.Parked
  rw [lookup_park, if_pos rfl]
  refine ⟨_, rfl, fun hwrite => ?_⟩
  dsimp only at hwrite
  split
  · dsimp only
    rw [hwrite, Bool.or_true]
  · exact hwrite

theorem Handler.Parked.park (h : s.Parked f) (page fileOffset : ℕ) (write : Bool) :
    (s.park page fileOffset write).Parked f := by
  obtain ⟨p, hp, hwrite⟩ := h
  unfold Handler.Parked
  rw [lookup_park]
  split
  · next heq =>
    rw [← heq, hp]
    refine ⟨_, rfl, fun h => ?_⟩
    dsimp only
    rw [hwrite h, Bool.true_or]
  · exact ⟨p, hp, hwrite⟩

theorem Quiet.park (hs : Quiet ctx s) {fileOffset : ℕ} (hmaps : Maps ctx page fileOffset ctx.pageSize)
    (write : Bool) : Quiet ctx (s.park page fileOffset write) := by
  refine { hs with parked := fun page' p hp => ?_ }
  rw [lookup_park] at hp
  split at hp
  · next heq =>
    cases hp
    subst heq
    split
    · next parked hparked => exact hs.parked _ parked hparked
    · exact hmaps
  · exact hs.parked page' p hp

theorem Handler.InHand.park (h : s.InHand ctx f) (page fileOffset : ℕ) (write : Bool) :
    (s.park page fileOffset write).InHand ctx f := by
  rcases h with h | h | h | h
  · exact .inl h
  · exact .inr (.inl h)
  · exact .inr (.inr (.inl h))
  · exact .inr (.inr (.inr (h.park page fileOffset write)))

theorem moves_park (s : Handler) (page fileOffset : ℕ) (write : Bool) :
    s.Moves ctx (s.park page fileOffset write) where
  keeps := fun _ hf => .inl (hf.park page fileOffset write)

theorem moves_let_go (hcurrent : s.current = some f) (hmoves : s.Moves ctx s')
    (hs' : s'.batch = s.batch ∧ s'.returns = s.returns)
    (hf : s'.Parked f ∨ f.page ∈ s.filled) (hkeep : ∀ f, s.Parked f → s'.Parked f) :
    s.Moves ctx { s' with current := none } where
  __ := hmoves
  keeps := by
    intro g hg
    rcases hg with hg | hg | hg | hg
    · cases hcurrent.symm.trans hg
      rcases hf with hf | hf
      · exact .inl (.inr (.inr (.inr hf)))
      · exact .inr (.inl hf)
    · rw [← hs'.1] at hg
      exact .inl (.inr (.inl hg))
    · rw [← hs'.2] at hg
      exact .inl (.inr (.inr (.inl hg)))
    · exact .inl (.inr (.inr (.inr (hkeep g hg))))
  tidy := fun h ho => ⟨(hmoves.tidy h ho).1, rfl⟩

theorem Handler.Moves.refl (s : Handler) : s.Moves ctx s := {}

/-- What handling an event or a fault comes to; `alive` says that the clone is not gone. -/
structure Handled (ctx : VmContext) (s : Handler) (alive : Bool) (s' : Handler) : Prop where
  quiet : Quiet ctx s'
  stays : Stays s s'
  current : alive = true → s'.current = none
  gone : alive = false → s'.gone = true

theorem populateAroundFault_spec (hctx : ctx.Accepted)
    (hsound : s.removed.Sound ctx.pageSize ctx.memSize) (fuel : ℕ) (hm : m ∈ ctx.mappings)
    (hle : m.baseHostVirtAddr ≤ page) (hlt : page < m.baseHostVirtAddr + m.size) :
    wp (contract ctx) (populateAroundFault ctx fuel m page (m.offset + (page - m.baseHostVirtAddr)))
      (fun alive s' => Fills s s' ∧ (alive = false → s'.gone = true)) s := by
  unfold populateAroundFault
  split
  · exact wp_ret ⟨.refl _, nofun⟩
  · exact populatePieces_spec hctx hsound fuel fun segment hsegment => granuleSegments_places hm hle hlt rfl hsegment

theorem resolveHere_spec
    {zero : Option ZeroReason} (hctx : ctx.Accepted) (hs : Quiet ctx s) (hcurrent : s.current = some ⟨page, write⟩)
    (fuel : ℕ) (hm : m ∈ ctx.mappings) (hle : m.baseHostVirtAddr ≤ page) (hlt : page < m.baseHostVirtAddr + m.size)
    (hpage : ctx.pageSize ∣ page)
    (hzero : zero = none → ctx.minor = false →
      s.removed.contains (m.offset + (page - m.baseHostVirtAddr)) ctx.pageSize = false) :
    wp (contract ctx) (resolveHere ctx fuel m page (m.offset + (page - m.baseHostVirtAddr)) write zero)
      (Handled ctx s) s := by
  have hmaps := maps_page hctx hm hle hlt hpage
  refine wp_perform trivial ?_
  rintro _ s ⟨rfl, rfl⟩
  refine wp_seq (resolveFault_spec fun hminor hnone => ⟨hmaps, ?_⟩) ?_
  · exact RemovedPages.clear_of_contains hctx.pageSize_pos hmaps.file_dvd (hzero (by simpa using hnone) hminor)
  · intro outcome s' hattempt
    have hs' := hattempt.fills.quiet hs
    have hstays := hattempt.fills.stays
    have hcurrent' : s'.current = some ⟨page, write⟩ := by
      obtain ⟨refused, pages, gone, -, rfl⟩ := hattempt.fills
      exact hcurrent
    -- the fault is let go with its page filled
    have hlet : outcome = .resolved ∨ outcome = .alreadyPresent → s'.Moves ctx { s' with current := none } :=
      fun ho => moves_let_go hcurrent' (.refl s') ⟨rfl, rfl⟩ (.inr (hattempt.filled ho)) fun _ h => h
    have hquiet : Quiet ctx { s' with current := none } := hs'.of_eq rfl rfl
    have hstays' : Stays s { s' with current := none } :=
      { hstays with }
    cases outcome with
    | resolved =>
      refine wp_perform (hlet (.inl rfl)) ?_
      rintro - _ rfl
      split
      · refine wp_mono (populateAroundFault_spec hctx hquiet.sound fuel hm hle hlt) ?_
        rintro alive t ⟨hfills, hgone⟩
        refine ⟨hfills.quiet hquiet, hstays'.trans hfills.stays, fun _ => ?_, hgone⟩
        obtain ⟨refused, pages, gone, -, rfl⟩ := hfills
        rfl
      · exact wp_ret ⟨hquiet, hstays', fun _ => rfl, nofun⟩
    | alreadyPresent =>
      refine wp_perform (hlet (.inr rfl)) ?_
      rintro - _ rfl
      exact wp_ret ⟨hquiet, hstays', fun _ => rfl, nofun⟩
    | vmGone => exact wp_ret ⟨hs', hstays, nofun, fun _ => hattempt.gone rfl⟩
    | retry =>
      refine wp_perform (moves_let_go hcurrent' (moves_park s' page _ write) ⟨rfl, rfl⟩
        (.inl (parked_park s' page _ write)) fun _ h => h.park page _ write) ?_
      rintro - _ rfl
      refine wp_ret ⟨(hs'.park hmaps write).of_eq rfl rfl, ?_, fun _ => rfl, nofun⟩
      exact { hstays with }

theorem serveFault_spec {addr : ℕ} (hctx : ctx.Accepted) (hs : Quiet ctx s)
    (hcurrent : s.current = some ⟨ctx.faultPage addr, write⟩) (fuel : ℕ) (minorFault : Bool) :
    wp (contract ctx) (serveFault ctx fuel addr minorFault write) (Handled ctx s) s := by
  unfold serveFault
  dsimp only
  split
  · exact wp_fail
  · next m hfind =>
    obtain ⟨hm, hle, hlt⟩ := region_of_find hctx hfind
    split
    · exact wp_fail
    · split
      · exact wp_fail
      · refine wp_seq (zeroAnswer_spec s _) ?_
        rintro zero s ⟨rfl, hzero⟩
        split
        · exact wp_fail
        · have hmaps := maps_page hctx hm hle hlt (faultPage_dvd addr)
          refine wp_seq (submitToWorker_spec hctx hs hcurrent hmaps hzero) ?_
          rintro sent s' (⟨rfl, rfl⟩ | ⟨rfl, rfl⟩)
          · exact wp_ret ⟨hs.of_eq rfl rfl, {}, fun _ => rfl, nofun⟩
          · exact resolveHere_spec hctx hs hcurrent fuel hm hle hlt (faultPage_dvd addr) hzero

end Fcvm.Uffd
