import Fcvm.Library.History
import Fcvm.OutputWriter.Model

namespace Fcvm.OutputWriter

open Library List Option

variable {s s' : State}

variable {n : ℕ} {log : List Entry}

def since (n : ℕ) (log : List Entry) : List Entry := log.takeWhile (· ≠ .began n)

theorem mem_since_cons {e f : Entry} (hne : e ≠ .began n) (h : f ∈ since n log) :
    f ∈ since n (e :: log) := by
  unfold since
  rw [takeWhile_cons_of_pos (by simpa using hne)]
  exact mem_cons_of_mem _ h

theorem head_mem_since {e : Entry} (hne : e ≠ .began n) : e ∈ since n (e :: log) := by
  unfold since
  rw [takeWhile_cons_of_pos (by simpa using hne)]
  exact mem_cons_self

theorem since_append {newer older : List Entry} (h : .began n ∈ newer) :
    since n (newer ++ older) = since n newer := by
  induction newer with
  | nil => cases h
  | cons e newer ih =>
    by_cases he : e = .began n
    · subst he
      simp [since]
    · have hin : .began n ∈ newer := (mem_cons.mp h).resolve_left fun heq => he heq.symm
      have hih := ih hin
      unfold since at hih ⊢
      rw [cons_append, takeWhile_cons_of_pos (by simpa using he),
        takeWhile_cons_of_pos (by simpa using he), hih]

def Entry.Follows : Entry → List Entry → Prop
  | reconnect, _ => True
  | began n, older => .began n ∉ older
  | connected n, older | writeFailed n, older | reset n, older => .began n ∈ older
  | dropped n, older => .began n ∈ older ∧
      (.writeFailed n ∈ older ∨ .reset n ∈ older ∨ .reconnect ∈ since n older)

def State.Signalled (s : State) : Prop := s.reconnectFlag = true ∨ s.permit = true ∨ 0 < s.notifying

instance (s : State) : Decidable s.Signalled := inferInstanceAs (Decidable (_ ∨ _ ∨ _))

def attemptsUnsignalled (s : State) : Action → Bool
  | .writer _ =>
    match s.phase with
    | .start | .trying _ _ => decide ¬s.Signalled
    | _ => true
  | _ => true

namespace Phase

def connected : Phase → Bool
  | writingPending _ | idle | writing _ => true
  | _ => false

def mayHold : Phase → Bool
  | top | writingPending _ | idle | writing _ | ended => true
  | _ => false

def attempting : Phase → Bool
  | starting | connecting _ _ => true
  | _ => false

end Phase

structure Inv (s : State) : Prop where
  log : Always Entry.Follows s.log
  begun : ∀ n, .began n ∈ s.log → n < s.attempts
  stream : s.stream.isSome = true → s.phase.mayHold = true
  connected : s.phase.connected = true → s.stream.isSome = true
  /-- A stream, or the attempt under way, is signalled only by calls made since it was begun. -/
  signals : ∀ n, s.stream = some n ∨ s.phase.attempting = true ∧ n = s.attempts - 1 →
    .began n ∈ s.log ∧ (s.Signalled → .reconnect ∈ since n s.log)
  kept : ∀ n, .connected n ∈ s.log → s.stream = some n ∨ .dropped n ∈ s.log

namespace Inv

theorem quiet (hs : Inv s) (hsame : (s'.stream, s'.attempts, s'.log) = (s.stream, s.attempts, s.log))
    (hsignals : s'.Signalled → s.Signalled ∨ s.stream = none) (hphase : s'.phase.attempting = false)
    (hhold : s.stream.isSome = true → s'.phase.mayHold = true)
    (hconnected : s'.phase.connected = true → s.stream.isSome = true) : Inv s' := by
  simp only [Prod.mk.injEq] at hsame
  obtain ⟨hstream, hattempts, hlog⟩ := hsame
  constructor
  · rw [hlog]
    exact hs.log
  · rw [hlog, hattempts]
    exact hs.begun
  · rw [hstream]
    exact hhold
  · rw [hstream]
    exact hconnected
  · rintro n (hn | ⟨hn, -⟩)
    · rw [hstream] at hn
      rw [hlog]
      obtain ⟨hbegan, hsince⟩ := hs.signals n (.inl hn)
      refine ⟨hbegan, fun hsignalled => ?_⟩
      rcases hsignals hsignalled with h | h
      · exact hsince h
      · cases hn.symm.trans h
    · cases hphase.symm.trans hn
  · rw [hlog, hstream]
    exact hs.kept

theorem drop (hs : Inv s) (hstream : s.stream = some n) (reasons : ℕ → List Entry)
    (hsame : (s'.stream, s'.attempts, s'.log) = ((s.drop reasons).stream, s.attempts, (s.drop reasons).log))
    (hphase : s'.phase.attempting = false) (hconnected : s'.phase.connected = false)
    (hreasons : reasons n = [] ∧ s.Signalled ∨ reasons n = [.writeFailed n] ∨ reasons n = [.reset n]) : Inv s' := by
  simp only [Prod.mk.injEq] at hsame
  obtain ⟨hstream', hattempts, hlog⟩ := hsame
  replace hlog : s'.log = .dropped n :: (reasons n ++ s.log) := by
    rw [hlog]
    simp only [State.drop, hstream, elim_some, cons_append]
  replace hstream' : s'.stream = none := hstream'
  generalize reasons n = entries at hlog hreasons
  obtain ⟨hbegan, hsince⟩ := hs.signals n (.inl hstream)
  have hfollows : Always Entry.Follows s'.log ∧ ∀ m, .began m ∈ s'.log → .began m ∈ s.log := by
    rw [hlog]
    rcases hreasons with ⟨rfl, hsignalled⟩ | rfl | rfl
    · exact ⟨⟨⟨hbegan, .inr (.inr (hsince hsignalled))⟩, hs.log⟩, fun m hm => by simpa using hm⟩
    · exact ⟨⟨⟨mem_cons_of_mem _ hbegan, .inl mem_cons_self⟩, hbegan, hs.log⟩, fun m hm => by simpa using hm⟩
    · exact ⟨⟨⟨mem_cons_of_mem _ hbegan, .inr (.inl mem_cons_self)⟩, hbegan, hs.log⟩,
        fun m hm => by simpa using hm⟩
  constructor
  · exact hfollows.1
  · intro m hm
    rw [hattempts]
    exact hs.begun m (hfollows.2 m hm)
  · intro h
    simp [hstream'] at h
  · intro h
    simp [hconnected] at h
  · rintro m (hm | ⟨hm, -⟩)
    · cases hstream'.symm.trans hm
    · cases hphase.symm.trans hm
  · intro m hm
    have hold : .connected m ∈ s.log := by
      rw [hlog] at hm
      rcases hreasons with ⟨rfl, -⟩ | rfl | rfl <;> simpa using hm
    rw [hlog]
    rcases hs.kept m hold with h | h
    · cases hstream.symm.trans h
      exact .inr mem_cons_self
    · exact .inr (mem_cons_of_mem _ (mem_append_right _ h))

theorem begin {phase : Phase} (hs : Inv s) (hconnected : phase.connected = false) (hstream : s.stream = none)
    (hsignals : ¬s.Signalled) : Inv (s.begin phase) := by
  have hnew : .began s.attempts ∉ s.log := fun h => Nat.lt_irrefl _ (hs.begun _ h)
  constructor
  · exact ⟨hnew, hs.log⟩
  · intro n hn
    rcases mem_cons.mp hn with h | h
    · cases h
      exact Nat.lt_succ_self _
    · exact Nat.lt_succ_of_lt (hs.begun n h)
  · intro h
    have hnone : (s.begin phase).stream = none := hstream
    simp [hnone] at h
  · intro h
    have heq : (s.begin phase).phase = phase := rfl
    simp [heq, hconnected] at h
  · rintro n (hn | ⟨-, rfl⟩)
    · cases hstream.symm.trans hn
    · exact ⟨mem_cons_self, fun h => (hsignals h).elim⟩
  · intro n hn
    have hold : .connected n ∈ s.log := by simpa [State.begin] using hn
    rcases hs.kept n hold with h | h
    · exact .inl h
    · exact .inr (mem_cons_of_mem _ h)

theorem connect (hs : Inv s) (hphase : s.phase.attempting = true) (hstream : s.stream = none) : Inv s.connect := by
  obtain ⟨hbegan, hsince⟩ := hs.signals _ (.inr ⟨hphase, rfl⟩)
  constructor
  · exact ⟨hbegan, hs.log⟩
  · exact fun n hn => hs.begun n (by simpa [State.connect] using hn)
  · exact fun _ => rfl
  · exact nofun
  · rintro n (hn | ⟨hn, -⟩)
    · cases hn
      exact ⟨mem_cons_of_mem _ hbegan, fun h => mem_since_cons nofun (hsince h)⟩
    · cases hn
  · intro n hn
    rcases mem_cons.mp hn with h | h
    · cases h
      exact .inl rfl
    · rcases hs.kept n h with h | h
      · cases hstream.symm.trans h
      · exact .inr (mem_cons_of_mem _ h)

theorem call (hs : Inv s) :
    Inv { s with reconnectFlag := true, notifying := s.notifying + 1, log := .reconnect :: s.log } := by
  constructor
  · exact ⟨trivial, hs.log⟩
  · exact fun n hn => hs.begun n (by simpa using hn)
  · exact hs.stream
  · exact hs.connected
  · exact fun n hn => ⟨mem_cons_of_mem _ (hs.signals n hn).1, fun _ => head_mem_since nofun⟩
  · intro n hn
    rcases hs.kept n (by simpa using hn) with h | h
    · exact .inl h
    · exact .inr (mem_cons_of_mem _ h)

theorem notify (hs : Inv s) (hpos : 0 < s.notifying) :
    Inv { s with permit := true, notifying := s.notifying - 1 } := by
  refine { hs with signals := fun n hn => ?_ }
  exact ⟨(hs.signals n hn).1, fun _ => (hs.signals n hn).2 (.inr (.inr hpos))⟩

end Inv

theorem stream_none_of_phase (hs : Inv s) (h : s.phase.mayHold = false) : s.stream = none := by
  cases hstream : s.stream with
  | none => rfl
  | some n =>
    have hhold := hs.stream (by rw [hstream]; rfl)
    cases h.symm.trans hhold

theorem stream_some_of_phase (hs : Inv s) (h : s.phase.connected = true) : ∃ n, s.stream = some n :=
  isSome_iff_exists.mp (hs.connected h)

theorem Inv.signalled {pending : Option String} (hs : Inv s) (hphase : s.phase.connected = true)
    (h : (if s.permit then some (s.signalled pending) else none) = some s') : Inv s' := by
  obtain ⟨n, hn⟩ := stream_some_of_phase hs hphase
  split at h
  · next hpermit =>
    cases h
    exact hs.drop hn (fun _ => []) rfl rfl rfl (.inl ⟨rfl, .inr (.inl hpermit)⟩)
  · cases h

theorem Inv.writer {choice : Choice} (hs : Inv s) (hcond : attemptsUnsignalled s (.writer choice) = true)
    (h : writerStep s choice = some s') : Inv s' := by
  cases hphase : s.phase with
  | start | trying =>
    have hnone := stream_none_of_phase hs (by rw [hphase]; rfl)
    cases choice <;> simp only [writerStep, hphase, reduceCtorEq, some.injEq] at h
    subst h
    refine hs.begin rfl hnone ?_
    simpa [attemptsUnsignalled, hphase] using hcond
  | starting =>
    have hnone := stream_none_of_phase hs (by rw [hphase]; rfl)
    cases choice <;> simp only [writerStep, hphase, reduceCtorEq, some.injEq] at h
    · subst h
      exact hs.connect (by rw [hphase]; rfl) hnone
    · subst h
      exact hs.quiet rfl .inl rfl (fun _ => rfl) nofun
  | top =>
    cases choice <;> simp only [writerStep, hphase, reduceCtorEq] at h
    split at h
    · next hflag =>
      cases h
      cases hstream : s.stream with
      | none =>
        refine hs.quiet ?_ (fun _ => .inr hstream) rfl (fun h => ?_) nofun
        · simp only [State.drop, hstream, elim_none, nil_append]
        · simp [hstream] at h
      | some n => exact hs.drop hstream (fun _ => []) rfl rfl rfl (.inl ⟨rfl, .inl hflag⟩)
    · split at h
      · next hstream _ =>
        cases h
        exact hs.quiet rfl .inl rfl (fun _ => rfl) fun _ => by rw [hstream]; rfl
      · next hstream _ =>
        cases h
        exact hs.quiet rfl .inl rfl (fun _ => rfl) fun _ => by rw [hstream]; rfl
      · next hstream =>
        cases h
        refine hs.quiet rfl .inl ?_ (fun h => ?_) fun h => ?_
        · dsimp only
          split <;> rfl
        · simp [hstream] at h
        · dsimp only at h
          split at h <;> cases h
  | connecting attempt explicit =>
    have hnone := stream_none_of_phase hs (by rw [hphase]; rfl)
    cases choice <;> simp only [writerStep, hphase, reduceCtorEq, some.injEq] at h
    · subst h
      exact hs.connect (by rw [hphase]; rfl) hnone
    · subst h
      refine hs.quiet rfl .inl ?_ (fun h => ?_) fun h => ?_
      · dsimp only
        split
        · rfl
        · split <;> rfl
      · simp [hnone] at h
      · dsimp only at h
        split at h
        · cases h
        · split at h <;> cases h
  | rearm =>
    have hnone := stream_none_of_phase hs (by rw [hphase]; rfl)
    cases choice <;> simp only [writerStep, hphase, reduceCtorEq, some.injEq] at h
    subst h
    exact hs.quiet rfl (fun _ => .inr hnone) rfl (fun _ => rfl) nofun
  | writingPending | writing =>
    obtain ⟨n, hn⟩ := stream_some_of_phase hs (by rw [hphase]; rfl)
    cases choice <;> simp only [writerStep, hphase, reduceCtorEq, some.injEq] at h
    · subst h
      exact hs.quiet rfl .inl rfl (fun _ => rfl) fun _ => by rw [hn]; rfl
    · subst h
      exact hs.drop hn (fun n => [.writeFailed n]) rfl rfl rfl (.inr (.inl rfl))
    · exact hs.signalled (by rw [hphase]; rfl) h
  | idle =>
    obtain ⟨n, hn⟩ := stream_some_of_phase hs (by rw [hphase]; rfl)
    cases choice <;> simp only [writerStep, hphase, reduceCtorEq, some.injEq] at h
    · split at h
      · cases h
        exact hs.quiet rfl .inl rfl (fun _ => rfl) fun _ => by rw [hn]; rfl
      · cases h
        exact hs.quiet rfl .inl rfl (fun _ => rfl) nofun
      · split at h
        · cases h
          exact hs.quiet rfl .inl rfl (fun _ => rfl) nofun
        · cases h
    · exact hs.signalled (by rw [hphase]; rfl) h
    · subst h
      exact hs.drop hn (fun n => [.reset n]) rfl rfl rfl (.inr (.inr rfl))
  | waiting | waitingAtFirst =>
    have hnone := stream_none_of_phase hs (by rw [hphase]; rfl)
    have hquiet : ∀ t : State, (t.stream, t.attempts, t.log) = (s.stream, s.attempts, s.log) →
        t.phase = .top ∨ t.phase = .clearing → Inv t := by
      rintro t hsame (ht | ht) <;>
        refine hs.quiet hsame (fun _ => .inr hnone) (by rw [ht]; rfl) (fun h => ?_) fun h => ?_
      all_goals first | (rw [hnone] at h; cases h) | (rw [ht] at h; cases h)
    cases choice <;> simp only [writerStep, hphase, reduceCtorEq, some.injEq] at h
    · split at h
      · cases h
        exact hquiet _ rfl (by first | exact .inl rfl | exact .inr rfl)
      · cases h
    · subst h
      exact hquiet _ rfl (by first | exact .inl rfl | exact .inr rfl)
  | clearing =>
    have hnone := stream_none_of_phase hs (by rw [hphase]; rfl)
    cases choice <;> simp only [writerStep, hphase, reduceCtorEq, some.injEq] at h
    subst h
    refine hs.quiet rfl (fun _ => .inr hnone) rfl (fun h => ?_) nofun
    simp [hnone] at h
  | ended => cases choice <;> simp only [writerStep, hphase, reduceCtorEq] at h

theorem Inv.step {a : Action} (hs : Inv s) (hcond : attemptsUnsignalled s a = true) (h : step s a = some s') :
    Inv s' := by
  cases a with
  | writer choice => exact hs.writer hcond h
  | call =>
    cases h
    exact hs.call
  | notify =>
    simp only [OutputWriter.step] at h
    split at h
    · next hpos =>
      cases h
      exact hs.notify hpos
    · cases h
  | send message =>
    simp only [OutputWriter.step] at h
    split at h
    · cases h
    · cases h
      exact { hs with }
  | close =>
    cases h
    exact { hs with }

theorem Inv.initial : Inv .initial where
  log := trivial
  begun := nofun
  stream := nofun
  connected := nofun
  signals := by
    rintro n (h | ⟨h, -⟩) <;> cases h
  kept := nofun

theorem began_once {newer older : List Entry} (h : Always Entry.Follows log)
    (hlog : log = newer ++ older) (hnew : .began n ∈ newer) : .began n ∉ older := by
  obtain ⟨a, b, rfl⟩ := append_of_mem hnew
  rw [hlog, append_assoc, cons_append] at h
  exact fun hin => h.at_split (mem_append_right _ hin)

theorem dropped_since {after before : List Entry} (h : Always Entry.Follows (after ++ .reconnect :: before))
    (hlast : .reconnect ∉ after) (hbegan : .began n ∈ after) (hdropped : .dropped n ∈ after ++ .reconnect :: before) :
    .writeFailed n ∈ after ∨ .reset n ∈ after := by
  have honce := began_once h rfl hbegan
  -- what comes after the begin of the attempt is after the call
  have hold : ∀ e older newer, before = newer ++ e :: older → Entry.Follows e older →
    (e = .dropped n ∨ e = .writeFailed n ∨
      e = .reset n) → False := by
    intro e older newer hbefore hfollows he
    have hin : .began n ∈ older := by
      rcases he with rfl | rfl | rfl
      · exact hfollows.1
      · exact hfollows
      · exact hfollows
    refine honce (mem_cons_of_mem _ ?_)
    rw [hbefore]
    exact mem_append_right _ (mem_cons_of_mem _ hin)
  have hbefore : Always Entry.Follows before := (Always.older h).2
  have hnot : ∀ e, e = .dropped n ∨ e = .writeFailed n ∨ e = .reset n → e ∉ before := by
    intro e he hin
    obtain ⟨newer, older, hsplit⟩ := append_of_mem hin
    rw [hsplit] at hbefore
    exact hold e older newer hsplit hbefore.at_split he
  rcases mem_append.mp hdropped with hdropped | hdropped
  · obtain ⟨newer, older, rfl⟩ := append_of_mem hdropped
    rw [append_assoc, cons_append] at h
    obtain ⟨hin, hreason⟩ := h.at_split
    have hbegan' : .began n ∈ older := by
      rcases mem_append.mp hin with hin | hin
      · exact hin
      · exact (honce hin).elim
    have hcase : ∀ e, e = .writeFailed n ∨ e = .reset n → e ∈ older ++ .reconnect :: before →
        e ∈ newer ++ .dropped n :: older := by
      intro e he hin
      rcases mem_append.mp hin with hin | hin
      · exact mem_append_right _ (mem_cons_of_mem _ hin)
      · rcases mem_cons.mp hin with rfl | hin
        · rcases he with he | he <;> cases he
        · exact (hnot e (.inr he) hin).elim
    rcases hreason with hreason | hreason | hreason
    · exact .inl (hcase _ (.inl rfl) hreason)
    · exact .inr (hcase _ (.inr rfl) hreason)
    · rw [since_append hbegan'] at hreason
      have hin' : .reconnect ∈ older := takeWhile_subset _ hreason
      exact (hlast (mem_append_right _ (mem_cons_of_mem _ hin'))).elim
  · rcases mem_cons.mp hdropped with hdropped | hdropped
    · cases hdropped
    · exact (hnot _ (.inl rfl) hdropped).elim

theorem reconnect_not_undone (h : outputWriter.ReachableBy (fun s a => attemptsUnsignalled s a = true) s) :
    (∀ n newer older, s.log = newer ++ .dropped n :: older →
      .writeFailed n ∈ older ∨ .reset n ∈ older ∨ .reconnect ∈ since n older) ∧
    ∀ n after before, s.log = after ++ .reconnect :: before → .reconnect ∉ after → .began n ∈ after →
      .connected n ∈ after → (∀ m, .writeFailed m ∉ after ∧ .reset m ∉ after) →
      ¬(s.phase = .waiting ∧ s.reconnectFlag = false) := by
  have hs : Inv s := by
    refine h.invariant ?_ fun s a t hs hcond hstep => hs.step hcond hstep
    rintro s rfl
    exact .initial
  constructor
  · intro n newer older hlog
    have hfollows := hs.log
    rw [hlog] at hfollows
    exact hfollows.at_split.2
  · rintro n after before hlog hlast hbegan hconnected hnone ⟨hwaiting, -⟩
    have hstream := stream_none_of_phase hs (by rw [hwaiting]; rfl)
    have hdropped : .dropped n ∈ s.log := by
      have hin : .connected n ∈ s.log := by
        rw [hlog]
        exact mem_append_left _ hconnected
      rcases hs.kept n hin with h | h
      · cases hstream.symm.trans h
      · exact h
    have hfollows := hs.log
    rw [hlog] at hfollows hdropped
    rcases dropped_since hfollows hlast hbegan hdropped with h | h
    · exact (hnone n).1 h
    · exact (hnone n).2 h

/-- A call that reaches the writer in its wait, and the connection it asked for. -/
theorem reconnect_not_undone_idle : ∃ s, outputWriter.ReachableBy (fun s a => attemptsUnsignalled s a = true) s ∧
    s.log = [.connected 1, .began 1] ++ .dropped 0 :: [.reconnect, .connected 0, .began 0] ∧
    (.writeFailed 0 ∈ [Entry.reconnect, .connected 0, .began 0] ∨ .reset 0 ∈ [Entry.reconnect, .connected 0, .began 0] ∨
      .reconnect ∈ since 0 [.reconnect, .connected 0, .began 0]) ∧
    ¬(s.phase = .waiting ∧ s.reconnectFlag = false) := by
  have hrun : ((outputWriter.restrict attemptsUnsignalled).exec .initial [.writer .ok, .writer .ok, .writer .ok, .call,
      .notify, .writer .signal, .writer .ok, .writer .ok, .writer .ok, .writer .ok]).map (·.log) =
      some ([.connected 1, .began 1] ++ .dropped 0 :: [.reconnect, .connected 0, .began 0]) := by
    decide +kernel
  obtain ⟨s, hs, hlog⟩ := Option.map_eq_some_iff.mp hrun
  have hstart : (outputWriter.restrict attemptsUnsignalled).Reachable .initial := .initial rfl
  have hreach := System.ReachableBy.of_restrict (hstart.exec hs)
  obtain ⟨hdropped, hwaiting⟩ := reconnect_not_undone hreach
  refine ⟨s, hreach, hlog, hdropped 0 _ _ hlog, ?_⟩
  exact hwaiting 1 [.connected 1, .began 1, .dropped 0] [.connected 0, .began 0] hlog (by decide) (by decide)
    (by decide)
    fun m => by simp

/-- The writer takes a message before it sees the permit: it reconnects for the flag, the permit drops the new stream,
and nothing asks for another. -/
theorem reconnect_undone_by_permit : ∃ s, outputWriter.Reachable s ∧
    s.log = .dropped 1 :: [.connected 1, .began 1, .dropped 0, .reconnect, .connected 0, .began 0] ∧
    s.phase = .waiting ∧ s.reconnectFlag = false ∧ s.permit = false ∧ s.notifying = 0 := by
  have hrun : (outputWriter.exec .initial [.send (.line "stdout" "ready"), .writer .ok, .writer .ok, .writer .ok, .call,
      .notify, .writer .ok, .writer .ok, .writer .ok, .writer .ok, .writer .ok, .writer .ok, .writer .signal,
      .writer .ok]).map (fun s => (s.log, s.phase, s.reconnectFlag, s.permit, s.notifying)) =
      some (.dropped 1 :: [.connected 1, .began 1, .dropped 0, .reconnect, .connected 0, .began 0], .waiting, false,
        false,
        0) := by
    decide +kernel
  obtain ⟨s, hs, hend⟩ := Option.map_eq_some_iff.mp hrun
  simp only [Prod.mk.injEq] at hend
  have hstart : outputWriter.Reachable .initial := .initial rfl
  exact ⟨s, hstart.exec hs, hend⟩

end Fcvm.OutputWriter
