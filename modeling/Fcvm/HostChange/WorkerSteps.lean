import Fcvm.HostChange.Steps

namespace Fcvm.HostChange

open Library List

variable {ρ : Type} {s : State ρ} {r : ρ}

namespace Inv

theorem enqueue [DecidableEq ρ] (h : Inv s) (hp : s.phase r = .enqueueing) :
    Inv ({ s with channel := s.channel ++ [Job.mk [] (some r)] }.toPhase r .finished) := by
  have hwait : Waits r s.log fun i => sentOf i s.log + s.worker.unsent i + unsentIn i s.channel := by
    have ha := h.awaits r
    simp only [hp, Phase.Awaits] at ha
    exact ha.mono fun i => (h.balance i).le
  have hs : Inv (s.toPhase r .finished) :=
    h.toPhase (by simp [hp, Phase.isIdle]) (by simp [hp]) (by simp [Phase.isIdle]) (by simp [Phase.Awaits])
  exact { hs with
    fifo := by simpa [State.toPhase] using h.fifo
    counted := by
      obtain ⟨S, hS, hcard⟩ := hs.counted
      exact ⟨S, hS, by simpa [State.toPhase, heldIn_append, heldIn_cons] using hcard⟩
    inChannel := fun before job after r' hc hjob => by
      rcases eq_nil_or_concat after with rfl | ⟨after, last, rfl⟩
      · obtain ⟨hfront, hlast⟩ := append_inj' hc rfl
        simp only [List.cons.injEq, and_true] at hlast
        have hr : r = r' := by simpa [← hlast] using hjob
        subst hr
        refine ⟨by simp [State.toPhase], ?_⟩
        rw [← hfront]
        exact hwait
      · rw [concat_eq_append, ← cons_append, ← append_assoc] at hc
        exact hs.inChannel before job after r' (append_inj' hc rfl).1 hjob }

variable {job : Job ρ}

theorem receive (h : Inv s) {rest : List (Job ρ)} (hw : s.worker = .waiting)
    (hc : s.channel = job :: rest) : Inv { s with worker := .received job, channel := rest } := by
  exact { h with
    fifo := by
      have hf := h.fifo
      simp only [hw, hc, Worker.unsentInodes, flatMap_cons] at hf ⊢
      simpa using hf
    counted := by
      obtain ⟨S, hS, hcard⟩ := h.counted
      refine ⟨S, hS, ?_⟩
      simp only [hw, hc, Worker.held, heldIn_cons] at hcard ⊢
      omega
    inChannel before job' after r' hch hjob := by
      obtain ⟨hf, hwait⟩ := h.inChannel (job :: before) job' after r' (by simp [hc, ← hch]) hjob
      refine ⟨hf, hwait.mono fun i => ?_⟩
      simp only [hw, Worker.unsent, unsentIn_cons]
      omega
    inWorker job' r' hjob hr := by
      simp only [Worker.job, Option.some.injEq] at hjob
      subst hjob
      obtain ⟨hf, hwait⟩ := h.inChannel [] job rest r' (by simp [hc]) hr
      refine ⟨hf, hwait.mono fun i => ?_⟩
      simp [hw, Worker.unsent] }

theorem sendInvalidations (h : Inv s) (hw : s.worker = .received job) :
    Inv { s with worker := .invalidated job, log := (job.inodes.map Event.sent).reverse ++ s.log } := by
  have hby : ∀ r', ∀ e ∈ (job.inodes.map (Event.sent : ℕ → Event ρ)).reverse, ¬ e.refreshBy r' := by
    intro r' e he
    simp only [mem_reverse, mem_map] at he
    obtain ⟨j, -, rfl⟩ := he
    exact id
  have hsum : ∀ i, sentOf i ((job.inodes.map (Event.sent : ℕ → Event ρ)).reverse ++ s.log) =
      sentOf i s.log + s.worker.unsent i := fun i => by
    rw [sentOf_sent, hw, Worker.unsent, Nat.add_comm]
  exact {
    locks := h.locks
    started := h.started
    unstarted := fun hj i => by rw [queuedOf_sent]; exact h.unstarted hj i
    fifo := by
      rw [queuedInodes_sent, sentInodes_sent]
      simpa [hw, Worker.unsentInodes] using h.fifo
    counted := by
      obtain ⟨S, hS, hcard⟩ := h.counted
      exact ⟨S, hS, by simpa [hw, Worker.held] using hcard⟩
    recorded := fun i => by
      rw [staleOf_sent, queuedOf_sent]
      exact h.recorded i
    own := by
      intro newer r' i c oldest hlog
      rw [queuedOf_sent]
      -- the events sent now are newer than the refresh
      rcases append_eq_append_iff.mp hlog with ⟨l, -, hl⟩ | ⟨l, hl, hold⟩
      · exact h.own l r' i c oldest hl
      · cases l with
        | nil => exact h.own [] r' i c oldest hold.symm
        | cons a l =>
          simp only [cons_append, List.cons.injEq] at hold
          have hmem : a ∈ (job.inodes.map (Event.sent : ℕ → Event ρ)).reverse := by rw [hl]; simp
          exact absurd (by rw [← hold.1]; rfl) (hby r' a hmem)
    sound := by
      refine Always.append ?_ h.sound
      intro e he l
      simp only [mem_reverse, mem_map] at he
      obtain ⟨j, -, rfl⟩ := he
      trivial
    awaits := fun r' => (h.awaits r').append (hby r')
    inChannel := fun before job' after r' hc hjob => by
      obtain ⟨hf, hwait⟩ := h.inChannel before job' after r' hc hjob
      refine ⟨hf, (hwait.append _ (hby r')).mono fun i => ?_⟩
      rw [hsum]
      exact Nat.le_refl _
    inWorker := fun job' r' hjob hr => by
      simp only [Worker.job, Option.some.injEq] at hjob
      subst hjob
      obtain ⟨hf, hwait⟩ := h.inWorker job r' (by simp [hw, Worker.job]) hr
      refine ⟨hf, (hwait.append _ (hby r')).mono fun i => ?_⟩
      rw [hsum]
      exact Nat.le_refl _ }

theorem subtract (h : Inv s) (hw : s.worker = .invalidated job) :
    Inv { s with worker := .counted job, queued := s.queued - job.inodes.length } := by
  exact { h with
    fifo := by simpa [hw, Worker.unsentInodes] using h.fifo
    counted := by
      obtain ⟨S, hS, hcard⟩ := h.counted
      refine ⟨S, hS, ?_⟩
      simp only [hw, Worker.held] at hcard ⊢
      omega
    inChannel before job' after r' hc hjob := by
      simpa [hw, Worker.unsent] using h.inChannel before job' after r' hc hjob
    inWorker job' r' hjob hr := by
      simpa [hw, Worker.unsent] using h.inWorker job' r' (by simpa [hw, Worker.job] using hjob) hr }

theorem workerDone (h : Inv s) (hw : s.worker = .counted job) : Inv { s with worker := .waiting } := by
  exact { h with
    fifo := by simpa [hw, Worker.unsentInodes] using h.fifo
    counted := by
      obtain ⟨S, hS, hcard⟩ := h.counted
      exact ⟨S, hS, by simpa [hw, Worker.held] using hcard⟩
    inChannel before job' after r' hc hjob := by
      simpa [hw, Worker.unsent] using h.inChannel before job' after r' hc hjob
    inWorker job' r' hjob := by simp [Worker.job] at hjob }

theorem replied (h : Inv s) (hw : Waits r s.log fun i => sentOf i s.log) : Inv (s.note (.replied r)) :=
  h.note (fun _ => rfl) (fun _ => rfl) (fun _ => rfl) hw (fun _ => False.elim)

end Inv

end Fcvm.HostChange
