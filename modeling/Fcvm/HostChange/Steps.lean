import Fcvm.HostChange.Invariant

namespace Fcvm.HostChange

open Library List Function

variable {ρ : Type}

variable {p : Phase} {ino : ℕ} {stale : List ℕ}

theorem inv_initial (jobs : Bool) : Inv (initial jobs : State ρ) where
  locks := by simp [initial, Phase.holds]
  started := by simp [initial, Phase.isSending]
  unstarted := by simp [initial]
  fifo := by simp [initial, queuedInodes, sentInodes, Worker.unsentInodes]
  counted := ⟨∅, by simp [initial, Phase.isSending], by simp [initial, Worker.held]⟩
  recorded := by simp [initial]
  own := by simp [initial]
  sound := trivial
  awaits := by simp [initial, Phase.Awaits]
  inChannel := by simp [initial]
  inWorker := by simp [initial, Worker.job]

def Phase.isIdle : Phase → Prop
  | .counting _ _ => False
  | .sending _ _ => False
  | _ => True

theorem Phase.isIdle.not_holds (h : p.isIdle) (i : ℕ) : ¬ p.holds i := by
  cases p <;> simp_all [Phase.isIdle, Phase.holds]

theorem Phase.isIdle.not_isSending (h : p.isIdle) : ¬ p.isSending := by
  cases p <;> simp_all [Phase.isIdle, Phase.isSending]

def Phase.refreshes : Phase → Prop
  | .serving _ => True
  | .loaded _ _ _ _ _ _ => True
  | _ => False

theorem Phase.refreshes.awaits {r : ρ} {log : List (Event ρ)} (h : p.refreshes) : p.Awaits r log := by
  cases p with
  | direct | enqueueing => cases h
  | _ => trivial

theorem Phase.Awaits.append {r : ρ} {log newest : List (Event ρ)} (h : p.Awaits r log)
    (hn : ∀ e ∈ newest, ¬ e.refreshBy r) : p.Awaits r (newest ++ log) := by
  cases p with
  | direct => exact (Waits.append h newest hn).mono fun i => by simp [sentOf, countP_append]
  | enqueueing => exact (Waits.append h newest hn).mono fun i => queuedOf_le_append i log newest
  | _ => trivial

theorem Phase.Awaits.cons {r : ρ} {log : List (Event ρ)} (h : p.Awaits r log) (e : Event ρ) (hn : ¬ e.refreshBy r) :
    p.Awaits r (e :: log) :=
  Phase.Awaits.append h (forall_mem_singleton.mpr hn)

namespace Inv

variable {s : State ρ} {r : ρ}

theorem congr {t : State ρ} (h : Inv s) (hl : t.locked = s.locked) (hj : t.jobs = s.jobs)
    (hc : t.channel = s.channel) (hq : t.queued = s.queued) (hw : t.worker = s.worker)
    (hp : t.phase = s.phase) (hlog : t.log = s.log) : Inv t where
  locks := by rw [hl, hp]; exact h.locks
  started := by rw [hj, hp]; exact h.started
  unstarted := by rw [hj, hlog]; exact h.unstarted
  fifo := by rw [hc, hw, hlog]; exact h.fifo
  counted := by rw [hc, hq, hw, hp]; exact h.counted
  recorded := by rw [hl, hj, hlog]; exact h.recorded
  own := by rw [hl, hlog]; exact h.own
  sound := by rw [hlog]; exact h.sound
  awaits := by rw [hp, hlog]; exact h.awaits
  inChannel := by rw [hc, hw, hp, hlog]; exact h.inChannel
  inWorker := by rw [hw, hp, hlog]; exact h.inWorker

theorem note (h : Inv s) {e : Event ρ} (hst : ∀ i, e.isStale i = false) (hqu : ∀ i, e.isQueued i = false)
    (hse : ∀ i, e.isSent i = false) (hsound : SoundEvent e s.log)
    (hby : ∀ r', e.refreshBy r' → (s.phase r').refreshes) : Inv (s.note e) := by
  have hstale : ∀ i, staleOf i (e :: s.log) = staleOf i s.log := fun i => by simp [staleOf_cons, hst i]
  have hqueued : ∀ i, queuedOf i (e :: s.log) = queuedOf i s.log := fun i => by simp [queuedOf_cons, hqu i]
  have hsent : ∀ i, sentOf i (e :: s.log) = sentOf i s.log := fun i => by simp [sentOf_cons, hse i]
  have hfin : ∀ r', s.phase r' = .finished → ¬ e.refreshBy r' := by
    intro r' hf hr
    have := hby r' hr
    simp [hf, Phase.refreshes] at this
  exact { h with
    unstarted := fun hj i => by simpa [State.note, hqueued] using h.unstarted hj i
    fifo := by simpa [State.note, queuedInodes_cons _ e hqu, sentInodes_cons _ e hse] using h.fifo
    recorded := fun i => by
      have hr := h.recorded i
      rw [← hstale i, ← hqueued i] at hr
      exact hr
    own := by
      intro newer r' i c oldest hlog
      simp only [State.note, hqueued] at hlog ⊢
      cases newer with
      | nil =>
        simp only [nil_append, cons.injEq] at hlog
        have := hst i
        simp [hlog.1, Event.isStale] at this
      | cons a newer =>
        simp only [cons_append, cons.injEq] at hlog
        exact h.own newer r' i c oldest hlog.2
    sound := ⟨hsound, h.sound⟩
    awaits := fun r' => by
      by_cases hr : e.refreshBy r'
      · exact (hby r' hr).awaits
      · exact (h.awaits r').cons e hr
    inChannel := fun before job after r' hc hj => by
      obtain ⟨hf, hw⟩ := h.inChannel before job after r' hc hj
      simp only [State.note, hsent]
      exact ⟨hf, hw.cons e (hfin r' hf)⟩
    inWorker := fun job r' hc hj => by
      obtain ⟨hf, hw⟩ := h.inWorker job r' hc hj
      simp only [State.note, hsent]
      exact ⟨hf, hw.cons e (hfin r' hf)⟩ }

theorem queuedOf_le_sentOf (h : Inv s) (hq : s.queued = 0) (i : ℕ) : queuedOf i s.log ≤ sentOf i s.log := by
  obtain ⟨S, -, hcard⟩ := h.counted
  have hb := h.balance i
  have hw := Worker.unsent_le_held i s.worker
  have hc := unsentIn_le_heldIn i s.channel
  omega

variable [DecidableEq ρ]

theorem finished_update {r' : ρ} (hne : s.phase r ≠ .finished) (hf : s.phase r' = .finished) :
    update s.phase r p r' = .finished := by
  rw [update_of_ne, hf]
  rintro rfl
  exact hne hf

theorem awaits_update {log : List (Event ρ)} (h : ∀ r', r' ≠ r → (s.phase r').Awaits r' log) (hp : p.Awaits r log)
    (r' : ρ) : (update s.phase r p r').Awaits r' log := by
  by_cases hr : r' = r
  · subst hr
    rwa [update_self]
  · rw [update_of_ne hr]
    exact h r' hr

theorem sending_update {S : Finset ρ} (hS : ∀ r', r' ∈ S ↔ (s.phase r').isSending) (ho : ¬ (s.phase r).isSending)
    (hp : ¬ p.isSending) (r' : ρ) : r' ∈ S ↔ (update s.phase r p r').isSending := by
  by_cases hr : r' = r
  · subst hr
    simp [hS, ho, hp]
  · simpa [hr] using hS r'

theorem toPhase (h : Inv s) (ho : (s.phase r).isIdle) (hne : s.phase r ≠ .finished)
    (hp : p.isIdle) (ha : p.Awaits r s.log) : Inv (s.toPhase r p) := by
  exact { h with
    locks i r' := by
      by_cases hr : r' = r
      · subst hr
        have hs := h.locks i r'
        simpa [State.toPhase, hp.not_holds, ho.not_holds] using hs
      · simpa [State.toPhase, hr] using h.locks i r'
    started r' hs := by
      by_cases hr : r' = r
      · subst hr
        exact absurd (by simpa [State.toPhase] using hs) hp.not_isSending
      · exact h.started r' (by simpa [State.toPhase, hr] using hs)
    counted := by
      obtain ⟨S, hS, hcard⟩ := h.counted
      exact ⟨S, sending_update hS ho.not_isSending hp.not_isSending, hcard⟩
    awaits := awaits_update (fun r' _ => h.awaits r') ha
    inChannel before job after r' hc hj := by
      obtain ⟨hf, hw⟩ := h.inChannel before job after r' hc hj
      exact ⟨finished_update hne hf, hw⟩
    inWorker job r' hc hj := by
      obtain ⟨hf, hw⟩ := h.inWorker job r' hc hj
      exact ⟨finished_update hne hf, hw⟩ }

theorem record_stale (h : Inv s) {c : ℤ × ℕ} (hp : (s.phase r).refreshes)
    (hl : s.locked ino = none) :
    Inv { (s.note (.recorded r ino c s.jobs)).toPhase r (.counting stale ino) with
      locked := update s.locked ino (some r) } := by
  have hidle : (s.phase r).isIdle := by
    revert hp; cases s.phase r <;> simp [Phase.refreshes, Phase.isIdle]
  have hne : s.phase r ≠ .finished := by
    rintro hf; simp [hf, Phase.refreshes] at hp
  have hbal : staleOf ino s.log = queuedOf ino s.log := by
    have hr := h.recorded ino
    simpa [hl] using hr
  have hby : ∀ r', s.phase r' = .finished → ¬ (Event.recorded r ino c s.jobs).refreshBy r' := by
    rintro r' hf rfl
    exact hne hf
  have hqueued : ∀ i, queuedOf i (.recorded r ino c s.jobs :: s.log) = queuedOf i s.log := fun i => by
    simp [queuedOf_cons, Event.isQueued]
  have hsent : ∀ i, sentOf i (.recorded r ino c s.jobs :: s.log) = sentOf i s.log := fun i => by
    simp [sentOf_cons, Event.isSent]
  exact {
    locks := fun i r' => by
      by_cases hi : i = ino
      · subst hi
        by_cases hr : r' = r
        · subst hr
          simp [State.toPhase]
        · have hs := h.locks i r'
          simpa [State.toPhase, State.note, hr, Ne.symm hr, hl] using hs
      · by_cases hr : r' = r
        · subst hr
          have hs := h.locks i r'
          simpa [State.toPhase, State.note, hi, Ne.symm hi, hidle.not_holds] using hs
        · simpa [State.toPhase, State.note, hi, hr] using h.locks i r'
    started := fun r' hs => by
      by_cases hr : r' = r
      · subst hr
        simp [State.toPhase] at hs
      · exact h.started r' (by simpa [State.toPhase, State.note, hr] using hs)
    unstarted := fun hj i => by
      simpa [State.toPhase, State.note, hqueued] using h.unstarted hj i
    fifo := h.fifo
    counted := by
      obtain ⟨S, hS, hcard⟩ := h.counted
      exact ⟨S, sending_update hS hidle.not_isSending id, hcard⟩
    recorded := fun i => by
      have hr := h.recorded i
      by_cases hi : i = ino
      · subst hi
        simp [State.toPhase, State.note, staleOf_cons, hqueued, hbal, Event.isStale]
      · simpa [State.toPhase, State.note, staleOf_cons, hqueued, Event.isStale, hi, Ne.symm hi] using hr
    own := by
      intro newer r' i c' oldest hlog
      simp only [State.toPhase, State.note, hqueued] at hlog ⊢
      cases newer with
      | nil =>
        simp only [nil_append, cons.injEq, Event.recorded.injEq] at hlog
        right
        simp [hlog.1.1, hlog.1.2.1]
      | cons a newer =>
        simp only [cons_append, cons.injEq] at hlog
        refine (h.own newer r' i c' oldest hlog.2).imp id fun hlk => ?_
        have hi : i ≠ ino := by rintro rfl; simp [hl] at hlk
        simpa [hi] using hlk
    sound := ⟨hbal, h.sound⟩
    awaits := awaits_update (fun r' hr => (h.awaits r').cons _ fun heq => hr heq.symm) trivial
    inChannel := fun before job after r' hc hj => by
      obtain ⟨hf, hw⟩ := h.inChannel before job after r' hc hj
      refine ⟨finished_update hne hf, ?_⟩
      simpa [State.toPhase, State.note, hsent] using hw.cons _ (hby r' hf)
    inWorker := fun job r' hc hj => by
      obtain ⟨hf, hw⟩ := h.inWorker job r' hc hj
      refine ⟨finished_update hne hf, ?_⟩
      simpa [State.toPhase, State.note, hsent] using hw.cons _ (hby r' hf) }

theorem count_unstarted (h : Inv s) (hp : s.phase r = .counting stale ino)
    (hj : s.jobs = false) : Inv ((s.release ino).toPhase r (.serving stale)) := by
  have hlk : s.locked ino = some r := (h.locks ino r).mpr (by simp [hp])
  have hbal : ∀ i, staleOf i s.log = queuedOf i s.log := fun i => by
    simpa [hj] using h.recorded i
  have hne : s.phase r ≠ .finished := by simp [hp]
  have ho : ¬ (s.phase r).isSending := by simp [hp]
  exact { h with
    locks := fun i r' => by
      have hs := h.locks i r'
      by_cases hr : r' = r
      · subst hr
        by_cases hi : i = ino
        · simp [State.toPhase, State.release, hi]
        · simpa [State.toPhase, State.release, hi, hp, Ne.symm hi] using hs
      · by_cases hi : i = ino
        · subst hi
          simpa [State.toPhase, State.release, hr, hlk, Ne.symm hr] using hs
        · simpa [State.toPhase, State.release, hr, hi] using hs
    started := fun r' hs => by
      by_cases hr : r' = r
      · subst hr
        simp [State.toPhase] at hs
      · exact h.started r' (by simpa [State.toPhase, State.release, hr] using hs)
    counted := by
      obtain ⟨S, hS, hcard⟩ := h.counted
      exact ⟨S, sending_update hS ho id, hcard⟩
    recorded := fun i => by simpa [State.toPhase, State.release, hj] using hbal i
    own := by
      intro newer r' i c oldest hlog
      left
      have hle := staleOf_le_append i (.recorded r' i c true :: oldest) newer
      rw [← hlog] at hle
      exact hle.trans (hbal i).le
    awaits := awaits_update (fun r' _ => h.awaits r') trivial
    inChannel := fun before job after r' hc hjob => by
      obtain ⟨hf, hw⟩ := h.inChannel before job after r' hc hjob
      exact ⟨finished_update hne hf, hw⟩
    inWorker := fun job r' hc hjob => by
      obtain ⟨hf, hw⟩ := h.inWorker job r' hc hjob
      exact ⟨finished_update hne hf, hw⟩ }

theorem count (h : Inv s) (hp : s.phase r = .counting stale ino)
    (hj : s.jobs = true) : Inv { s.toPhase r (.sending stale ino) with queued := s.queued + 1 } := by
  exact { h with
    locks i r' := by
      have hs := h.locks i r'
      by_cases hr : r' = r
      · subst hr
        simpa [State.toPhase, hp] using hs
      · simpa [State.toPhase, hr] using hs
    started _ _ := hj
    counted := by
      obtain ⟨S, hS, hcard⟩ := h.counted
      have hnot : r ∉ S := by rw [hS, hp]; simp
      refine ⟨insert r S, fun r' => ?_, ?_⟩
      · by_cases hr : r' = r
        · subst hr
          simp [State.toPhase]
        · simpa [State.toPhase, hr] using hS r'
      · simp only [State.toPhase, Finset.card_insert_of_notMem hnot]
        omega
    awaits := awaits_update (fun r' _ => h.awaits r') trivial
    inChannel before job after r' hc hjob := by
      obtain ⟨hf, hw⟩ := h.inChannel before job after r' hc hjob
      exact ⟨finished_update (by simp [hp]) hf, hw⟩
    inWorker job r' hc hjob := by
      obtain ⟨hf, hw⟩ := h.inWorker job r' hc hjob
      exact ⟨finished_update (by simp [hp]) hf, hw⟩ }

theorem send (h : Inv s) (hp : s.phase r = .sending stale ino) :
    Inv ((({ s with channel := s.channel ++ [Job.mk [ino] none] }.release ino).note (.queued ino)).toPhase r
      (.serving (stale ++ [ino]))) := by
  have hlk : s.locked ino = some r := (h.locks ino r).mpr (by simp [hp])
  have hne : s.phase r ≠ .finished := by simp [hp]
  have hj : s.jobs = true := h.started r (by simp [hp])
  have hbal : staleOf ino s.log = queuedOf ino s.log + 1 := by
    simpa [hj, hlk] using h.recorded ino
  have hstale : ∀ i, staleOf i (.queued ino :: s.log) = staleOf i s.log := fun i => by
    simp [staleOf_cons, Event.isStale]
  have hsent : ∀ i, sentOf i (.queued ino :: s.log) = sentOf i s.log := fun i => by
    simp [sentOf_cons, Event.isSent]
  have hqueued : ∀ i, queuedOf i (.queued ino :: s.log) = queuedOf i s.log + if ino = i then 1 else 0 := by
    intro i
    simp [queuedOf_cons, Event.isQueued]
  have hby : ∀ r', ¬ (Event.queued ino : Event ρ).refreshBy r' := fun _ => id
  exact {
    locks := fun i r' => by
      have hs := h.locks i r'
      by_cases hr : r' = r
      · subst hr
        by_cases hi : i = ino
        · simp [State.toPhase, State.release, State.note, hi]
        · simpa [State.toPhase, State.release, State.note, hi, hp, Ne.symm hi] using hs
      · by_cases hi : i = ino
        · subst hi
          simpa [State.toPhase, State.release, State.note, hr, hlk, Ne.symm hr] using hs
        · simpa [State.toPhase, State.release, State.note, hr, hi] using hs
    started := fun _ _ => hj
    unstarted := fun hj' => by
      rw [show s.jobs = false from hj'] at hj
      cases hj
    fifo := by
      have hf := h.fifo
      simp only [State.toPhase, State.release, State.note, queuedInodes, sentInodes, flatMap_append] at hf ⊢
      simp [hf]
    counted := by
      obtain ⟨S, hS, hcard⟩ := h.counted
      have hmem : r ∈ S := by rw [hS, hp]; simp
      refine ⟨S.erase r, fun r' => ?_, ?_⟩
      · by_cases hr : r' = r
        · subst hr
          simp [State.toPhase]
        · simpa [State.toPhase, State.release, State.note, hr] using hS r'
      · have hpos := Finset.card_pos.mpr ⟨r, hmem⟩
        simp only [State.toPhase, State.release, State.note, Finset.card_erase_of_mem hmem, heldIn_append,
          heldIn_cons, heldIn_nil, length_singleton]
        omega
    recorded := fun i => by
      by_cases hi : i = ino
      · subst hi
        simp [State.toPhase, State.release, State.note, hstale, hqueued, hbal]
      · have hr := h.recorded i
        simpa [State.toPhase, State.release, State.note, hstale, hqueued, hi, Ne.symm hi] using hr
    own := by
      intro newer r' i c oldest hlog
      cases newer with
      | nil => simp [State.toPhase, State.note] at hlog
      | cons a newer =>
        simp only [State.toPhase, State.note, State.release, cons_append, cons.injEq, hqueued] at hlog ⊢
        by_cases hi : i = ino
        · subst hi
          have hle := staleOf_le_append i (.recorded r' i c true :: oldest) newer
          rw [← hlog.2, hbal] at hle
          exact .inl (by simpa using hle)
        · simpa [hi, Ne.symm hi] using h.own newer r' i c oldest hlog.2
    sound := ⟨trivial, h.sound⟩
    awaits := awaits_update (fun r' _ => (h.awaits r').cons _ (hby r')) trivial
    inChannel := fun before job after r' hc hjob => by
      rcases eq_nil_or_concat after with rfl | ⟨after, last, rfl⟩
      · have hlast := (append_inj' hc rfl).2
        simp only [cons.injEq, and_true] at hlast
        simp [← hlast] at hjob
      · rw [concat_eq_append, ← cons_append, ← append_assoc] at hc
        obtain ⟨hf, hw⟩ := h.inChannel before job after r' (append_inj' hc rfl).1 hjob
        refine ⟨finished_update hne hf, ?_⟩
        simpa [State.toPhase, State.note, State.release, hsent] using hw.cons _ (hby r')
    inWorker := fun job r' hc hjob => by
      obtain ⟨hf, hw⟩ := h.inWorker job r' hc hjob
      refine ⟨finished_update hne hf, ?_⟩
      simpa [State.toPhase, State.note, State.release, hsent] using hw.cons _ (hby r') }

end Inv

end Fcvm.HostChange
