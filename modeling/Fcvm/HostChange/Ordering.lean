import Fcvm.HostChange.WorkerSteps

namespace Fcvm.HostChange

open Library Option

variable {ρ : Type} [DecidableEq ρ] {s t : State ρ} {r : ρ}

namespace Inv

omit [DecidableEq ρ] in
theorem onFile (h : Inv s) {ino : ℕ} {f : Option Known → Option Known} (ht : s.onFile ino f = some t) : Inv t := by
  simp only [State.onFile] at ht
  split at ht
  · cases ht
    exact h.congr rfl rfl rfl rfl rfl rfl rfl
  · cases ht

theorem recordStep (h : Inv s) (ht : recordStep s r = some t) : Inv t := by
  unfold HostChange.recordStep at ht
  split at ht
  case h_2 => cases ht
  case h_1 stale ino attr asked entry writeback hp =>
    split at ht
    case isFalse => cases ht
    case isTrue hl =>
      have href : (s.phase r).refreshes := by simp [hp, Phase.refreshes]
      cases hf : (refreshKnown writeback attr asked entry (s.files ino)).2 with
      | true =>
        simp only [hf, Bool.true_and, if_true, some.injEq] at ht
        subst ht
        exact (h.record_stale href hl).congr rfl rfl rfl rfl rfl rfl rfl
      | false =>
        simp only [hf, Bool.false_and, Bool.false_eq_true, if_false, some.injEq] at ht
        subst ht
        have hbal : staleOf ino s.log = queuedOf ino s.log := by simpa [hl] using h.recorded ino
        have hn : Inv (s.note (.recorded r ino attr.ctime false)) :=
          h.note (fun i => by simp [Event.isStale]) (fun _ => rfl) (fun _ => rfl) hbal
            (by rintro r' rfl; exact href)
        have hidle : (s.phase r).isIdle := by simp [hp, Phase.isIdle]
        refine (hn.toPhase (r := r) (p := .serving stale) hidle ?_ trivial trivial).congr rfl rfl rfl rfl rfl rfl rfl
        simp [State.note, hp]

theorem countStep (h : Inv s) (ht : countStep s r = some t) : Inv t := by
  unfold HostChange.countStep at ht
  split at ht
  case h_2 => cases ht
  case h_1 stale ino hp =>
    split at ht
    case isTrue hj =>
      cases ht
      exact h.count hp hj
    case isFalse hj =>
      cases ht
      exact h.count_unstarted hp (by simpa using hj)

theorem replyAfterStep (h : Inv s) (ht : replyAfterStep s r = some t) : Inv t := by
  unfold HostChange.replyAfterStep at ht
  split at ht
  case h_2 => cases ht
  case h_1 stale hp =>
    have hown : SoundEvent (.called r) s.log := by
      intro newer i c oldest hlog
      refine (h.own newer r i c oldest hlog).resolve_right fun hl => ?_
      have := (h.locks i r).mp hl
      simp [hp] at this
    have hn : Inv (s.note (.called r)) :=
      h.note (fun _ => rfl) (fun _ => rfl) (fun _ => rfl) hown (fun _ => False.elim)
    have hwait : ∀ bound : ℕ → ℕ, (∀ i, queuedOf i s.log ≤ bound i) → Waits r (.called r :: s.log) bound :=
      fun bound hb => ⟨[], s.log, rfl, by simp, hb⟩
    simp only [some.injEq] at ht
    subst ht
    apply hn.toPhase
    · simp [State.note, hp, Phase.isIdle]
    · simp [State.note, hp]
    · split <;> exact trivial
    · split
      case isTrue hq =>
        -- the fast path: the counter read zero, so everything queued has been sent
        have hz : s.queued = 0 := by simp_all
        exact hwait _ fun i => by
          simpa [State.note, sentOf_cons, Event.isSent] using h.queuedOf_le_sentOf hz i
      case isFalse =>
        exact hwait _ fun i => by simp [State.note, queuedOf_cons]

theorem replyStep (h : Inv s) (hp : s.phase r = .direct) : Inv ((s.note (.replied r)).toPhase r .finished) := by
  have hw := h.awaits r
  simp only [hp, Phase.Awaits] at hw
  exact (h.replied hw).toPhase (by simp [State.note, hp, Phase.isIdle]) (by simp [State.note, hp]) trivial trivial

theorem enqueueStep (h : Inv s) (ht : enqueueStep s r = some t) : Inv t := by
  unfold HostChange.enqueueStep at ht
  split at ht
  case h_2 => cases ht
  case h_1 hp =>
    split at ht
    case isTrue hj =>
      cases ht
      exact h.enqueue hp
    case isFalse hj =>
      cases ht
      have hw := h.awaits r
      simp only [hp, Phase.Awaits] at hw
      have hr := h.replied (hw.mono fun i => by simp [h.unstarted (by simpa using hj) i])
      exact hr.toPhase (by simp [State.note, hp, Phase.isIdle]) (by simp [State.note, hp]) trivial trivial

omit [DecidableEq ρ] in
theorem workerStep (h : Inv s) {a : Action ρ} (ht : workerStep s a = some t) : Inv t := by
  unfold HostChange.workerStep at ht
  split at ht
  · split at ht
    case h_2 => cases ht
    case h_1 job rest hw hc =>
      split at ht
      case isTrue hj =>
        cases ht
        exact h.receive hw hc
      case isFalse => cases ht
  · split at ht
    case h_2 => cases ht
    case h_1 job hw =>
      cases ht
      exact h.sendInvalidations hw
  · split at ht
    case h_2 => cases ht
    case h_1 job hw =>
      cases ht
      exact h.subtract hw
  · split at ht
    case h_2 => cases ht
    case h_1 job hw =>
      cases hr : job.reply with
      | none =>
        simp only [hr, some.injEq] at ht
        subst ht
        exact h.workerDone hw
      | some r =>
        simp only [hr, some.injEq] at ht
        subst ht
        obtain ⟨-, hwait⟩ := h.inWorker job r (by simp [hw, Worker.job]) hr
        have hrep := h.replied (r := r) (by simpa [hw, Worker.unsent] using hwait)
        have hcounted : (s.note (.replied r)).worker = .counted job := by simp [State.note, hw]
        exact hrep.workerDone hcounted
  · cases ht

end Inv

theorem inv_next (a : Action ρ) (h : Inv s) (ht : next s a = some t) : Inv t := by
  cases a with
  | setWriteback | now => cases ht; exact h.congr rfl rfl rfl rfl rfl rfl rfl
  | refresh r ino attr asked entry =>
    simp only [next] at ht
    split at ht
    case h_2 => cases ht
    case h_1 stale hp =>
      split at ht
      · cases ht
        exact h.toPhase (by simp [hp, Phase.isIdle]) (by simp [hp]) trivial trivial
      · cases ht
        refine h.note (fun _ => rfl) (fun _ => rfl) (fun _ => rfl) trivial ?_
        rintro r' rfl
        simp [hp, Phase.refreshes]
  | record r => exact h.recordStep ht
  | count r => exact h.countStep ht
  | send r =>
    simp only [next, sendStep] at ht
    split at ht
    case h_2 => cases ht
    case h_1 stale ino hp => cases ht; exact h.send hp
  | replyAfter r => exact h.replyAfterStep ht
  | reply r =>
    simp only [next] at ht
    split at ht
    case h_2 => cases ht
    case h_1 hp => cases ht; exact h.replyStep hp
  | enqueue r => exact h.enqueueStep ht
  | created | changedHere | changing =>
    simp only [next] at ht
    split at ht
    · exact h.onFile ht
    · cases ht; exact h
  | changeDropped ino =>
    have hc : Inv { s with clock := s.clock + 1 } := h.congr rfl rfl rfl rfl rfl rfl rfl
    exact hc.onFile ht
  | forget ino nlookup => exact h.onFile (f := fun k => k.bind (forgetKnown nlookup)) ht
  | receive => exact h.workerStep (a := .receive) ht
  | sendInvalidations => exact h.workerStep (a := .sendInvalidations) ht
  | subtract => exact h.workerStep (a := .subtract) ht
  | workerReply => exact h.workerStep (a := .workerReply) ht

theorem inv_reachable (h : (system ρ).Reachable s) : Inv s := by
  refine h.invariant (P := Inv) ?_ fun _ a _ hs ht => inv_next a hs ht
  rintro s ⟨jobs, rfl⟩
  exact inv_initial jobs

/-- Invalidations of one inode are queued in the order of its stale refreshes and sent in that order,
so that of the newest stale refresh in `upTo` is out once as many were sent. -/
def InvalidationSent (i : ℕ) (upTo log : List (Event ρ)) : Prop := staleOf i upTo ≤ sentOf i log

instance (i : ℕ) (upTo log : List (Event ρ)) : Decidable (InvalidationSent i upTo log) :=
  inferInstanceAs (Decidable (_ ≤ _))

section

variable {newest newer older oldest : List (Event ρ)} {r' : ρ} {i : ℕ} {c c' : ℤ × ℕ}

omit [DecidableEq ρ] in
theorem Inv.called_after (h : Inv s) (hlog : s.log = newest ++ .replied r :: older) {e : Event ρ}
    (he : e.refreshBy r) (hold : older = newer ++ e :: oldest) :
    ∃ between, SoundEvent (.called r) (between ++ e :: oldest) ∧
      ∀ i, queuedOf i (between ++ e :: oldest) ≤ sentOf i older := by
  have hs := h.sound
  rw [hlog] at hs
  obtain ⟨since, asked, hsplit, hnone, hle⟩ := hs.at_split
  have hne : e ≠ .called r := by rintro rfl; exact he
  obtain ⟨between, hask, -⟩ := older_of_notMem (hold.symm.trans hsplit) hne fun hm => hnone e hm he
  have hcalled : Always SoundEvent (newest ++ .replied r :: (since ++ .called r :: asked)) := by
    rw [← hsplit]
    exact hs
  refine ⟨between, ?_, ?_⟩
  · rw [← hask]
    have hc := hcalled.older
    exact hc.2.at_split
  · rw [← hask]
    exact hle

omit [DecidableEq ρ] in
theorem Inv.own_invalidation (h : Inv s) (hlog : s.log = newest ++ .replied r :: older)
    (hold : older = newer ++ .recorded r i c true :: oldest) :
    InvalidationSent i (.recorded r i c true :: oldest) older := by
  obtain ⟨between, hcalled, hle⟩ := h.called_after (e := .recorded r i c true) hlog rfl hold
  exact (hcalled between i c oldest rfl).trans (hle i)

omit [DecidableEq ρ] in
theorem Inv.earlier_invalidation (h : Inv s) (hlog : s.log = newest ++ .replied r :: older)
    (hold : older = newer ++ .recorded r' i c true :: oldest) {stale : Bool}
    (hmem : Event.recorded r i c' stale ∈ newer) :
    InvalidationSent i (.recorded r' i c true :: oldest) older := by
  obtain ⟨since, between, rfl⟩ := List.append_of_mem hmem
  have hold' : older = since ++ .recorded r i c' stale :: (between ++ .recorded r' i c true :: oldest) := by
    simp [hold]
  obtain ⟨later, -, hle⟩ := h.called_after (e := .recorded r i c' stale) hlog rfl hold'
  have hs := h.sound
  rw [hlog, hold'] at hs
  -- the entry's lock: when `r` refreshed, every stale refresh of `i` had queued its invalidation
  have hbal : staleOf i (between ++ .recorded r' i c true :: oldest) =
      queuedOf i (between ++ .recorded r' i c true :: oldest) := hs.older.2.at_split
  calc staleOf i (.recorded r' i c true :: oldest)
      ≤ staleOf i (between ++ .recorded r' i c true :: oldest) := staleOf_le_append i _ _
    _ = queuedOf i (between ++ .recorded r' i c true :: oldest) := hbal
    _ ≤ queuedOf i (later ++ .recorded r i c' stale :: (between ++ .recorded r' i c true :: oldest)) := by
      have hq := queuedOf_le_append i (between ++ .recorded r' i c true :: oldest)
        (later ++ [.recorded r i c' stale])
      simpa using hq
    _ ≤ sentOf i older := hle i

end

omit [DecidableEq ρ] in
theorem Inv.queued_eq_zero_iff (h : Inv s) :
    s.queued = 0 ↔ (∀ r, ¬ (s.phase r).isSending) ∧ s.worker.held = 0 ∧ heldIn s.channel = 0 := by
  obtain ⟨S, hS, hcard⟩ := h.counted
  have hempty : S.card = 0 ↔ ∀ r, ¬ (s.phase r).isSending := by
    rw [Finset.card_eq_zero, Finset.eq_empty_iff_forall_notMem]
    exact forall_congr' fun r => not_congr (hS r)
  rw [← hempty, hcard]
  omega

omit [DecidableEq ρ] in
theorem Inv.sent_of_queued_zero (h : Inv s) (hq : s.queued = 0) : sentInodes s.log = queuedInodes s.log := by
  obtain ⟨-, hw, hc⟩ := h.queued_eq_zero_iff.mp hq
  have hlen : (s.channel.flatMap Job.inodes).length = 0 := by
    rw [← hc, heldIn, List.length_flatMap]
  have hunsent : s.worker.unsentInodes = [] := by
    cases hs : s.worker <;> simp_all [Worker.held, Worker.unsentInodes]
  rw [h.fifo, hunsent, List.eq_nil_of_length_eq_zero hlen]
  simp

theorem reply_after_invalidation (hs : (system ρ).Reachable s) :
    (∀ newest r older, s.log = newest ++ .replied r :: older →
      ∀ newer r' i c oldest, older = newer ++ .recorded r' i c true :: oldest →
        (∃ c' stale, Event.recorded r i c' stale ∈ newer ++ [.recorded r' i c true]) →
        InvalidationSent i (.recorded r' i c true :: oldest) older) ∧
    sentInodes s.log <+: queuedInodes s.log ∧
    (s.queued = 0 → sentInodes s.log = queuedInodes s.log) ∧
    (s.queued = 0 ↔ (∀ r, ¬ (s.phase r).isSending) ∧ s.worker.held = 0 ∧ heldIn s.channel = 0) := by
  have h := inv_reachable hs
  refine ⟨?_, ?_, h.sent_of_queued_zero, h.queued_eq_zero_iff⟩
  · rintro newest r older hlog newer r' i c oldest hold ⟨c', stale, hmem⟩
    rcases List.mem_append.mp hmem with hnew | hself
    · exact h.earlier_invalidation hlog hold hnew
    · simp only [List.mem_singleton, Event.recorded.injEq] at hself
      obtain ⟨rfl, -, -, -⟩ := hself
      exact h.own_invalidation hlog hold
  · rw [h.fifo, List.append_assoc]
    exact List.prefix_append _ _

def regular (ctime : ℤ) : FileAttr := ⟨5, 10, 0, ctime, 0, 0o100644⟩

def twoRefreshes : List (Action ℕ) :=
  [.refresh 0 7 (regular 1) 0 true, .record 0, .replyAfter 0, .reply 0,
    .refresh 1 7 (regular 2) 0 false, .record 1, .count 1, .send 1,
    .refresh 2 7 (regular 2) 0 false, .record 2, .replyAfter 2, .enqueue 2,
    .receive, .sendInvalidations, .subtract, .workerReply, .receive, .sendInvalidations, .subtract, .workerReply]

theorem reply_after_invalidation_two :
    ∃ s, (system ℕ).Reachable s ∧ (∃ newest older, s.log = newest ++ .replied 2 :: older ∧
      ∃ newer oldest, older = newer ++ .recorded 1 7 (2, 0) true :: oldest ∧
        InvalidationSent 7 (.recorded 1 7 (2, 0) true :: oldest) older) := by
  have hrun : ∃ s, (system ℕ).exec (initial true) twoRefreshes = some s ∧
      ∃ newest older, s.log = newest ++ .replied 2 :: older ∧
        ∃ newer oldest, older = newer ++ .recorded 1 7 (2, 0) true :: oldest ∧
          Event.recorded 2 7 (2, 0) false ∈ newer := by
    exact ⟨_, rfl, [], _, rfl, [.sent 7, .called 2, .recorded 2 7 (2, 0) false, .queued 7], _, rfl, by simp⟩
  obtain ⟨s, hexec, newest, older, hlog, newer, oldest, hold, hmem⟩ := hrun
  have hreach : (system ℕ).Reachable s := (System.Reachable.initial (M := system ℕ) ⟨true, rfl⟩).exec hexec
  exact ⟨s, hreach, newest, older, hlog, newer, oldest, hold,
    (reply_after_invalidation hreach).1 newest 2 older hlog newer 1 7 (2, 0) oldest hold
      ⟨(2, 0), false, List.mem_append_left _ hmem⟩⟩

/-- The thread sends before it counts off: everything queued is sent and the counter is not yet zero. -/
theorem queued_pos_of_all_sent :
    ∃ s, (system ℕ).Reachable s ∧ sentInodes s.log = queuedInodes s.log ∧ queuedInodes s.log = [7] ∧
      s.channel = [] ∧ s.queued ≠ 0 := by
  have hrun : ∃ s, (system ℕ).exec (initial true) [.refresh 0 7 (regular 1) 0 true, .record 0, .replyAfter 0,
      .reply 0, .refresh 1 7 (regular 2) 0 false, .record 1, .count 1, .send 1, .receive, .sendInvalidations]
      = some s ∧ sentInodes s.log = queuedInodes s.log ∧ queuedInodes s.log = [7] ∧
      s.channel.length = 0 ∧ s.queued ≠ 0 := ⟨_, rfl, by decide⟩
  obtain ⟨s, hexec, hsent, hseven, hchannel, hqueued⟩ := hrun
  exact ⟨s, (System.Reachable.initial (M := system ℕ) ⟨true, rfl⟩).exec hexec, hsent, hseven,
    List.eq_nil_of_length_eq_zero hchannel, hqueued⟩

end Fcvm.HostChange
