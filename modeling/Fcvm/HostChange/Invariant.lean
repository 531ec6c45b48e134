import Mathlib.Algebra.GroupWithZero.Nat
import Mathlib.Data.Finset.Card
import Fcvm.HostChange.Model
import Fcvm.Library.History

namespace Fcvm.HostChange

open Library List Function

variable {ρ : Type}

variable (i : ℕ)

def Event.isStale : Event ρ → Bool
  | .recorded _ j _ stale => j == i && stale
  | _ => false

def Event.isQueued : Event ρ → Bool
  | .queued j => j == i
  | _ => false

def Event.isSent : Event ρ → Bool
  | .sent j => j == i
  | _ => false

def Event.refreshBy (r : ρ) : Event ρ → Prop
  | .recorded r' _ _ _ => r' = r
  | .skipped r' _ => r' = r
  | _ => False

def staleOf (log : List (Event ρ)) : ℕ := log.countP (Event.isStale i)
def queuedOf (log : List (Event ρ)) : ℕ := log.countP (Event.isQueued i)
def sentOf (log : List (Event ρ)) : ℕ := log.countP (Event.isSent i)

def queuedInodes : List (Event ρ) → List ℕ
  | [] => []
  | .queued i :: log => queuedInodes log ++ [i]
  | _ :: log => queuedInodes log

def sentInodes : List (Event ρ) → List ℕ
  | [] => []
  | .sent i :: log => sentInodes log ++ [i]
  | _ :: log => sentInodes log

def unsentIn (jobs : List (Job ρ)) : ℕ := (jobs.map fun j => j.inodes.count i).sum
def heldIn (jobs : List (Job ρ)) : ℕ := (jobs.map fun j => j.inodes.length).sum

def Worker.unsentInodes : Worker ρ → List ℕ
  | .received job => job.inodes
  | _ => []

def Worker.unsent : Worker ρ → ℕ
  | .received job => job.inodes.count i
  | _ => 0

def Worker.held : Worker ρ → ℕ
  | .received job => job.inodes.length
  | .invalidated job => job.inodes.length
  | _ => 0

def Worker.job : Worker ρ → Option (Job ρ)
  | .waiting => none
  | .received job => some job
  | .invalidated job => some job
  | .counted job => some job

def Phase.holds : Phase → Prop
  | .counting _ j => j = i
  | .sending _ j => j = i
  | _ => False

def Phase.isSending : Phase → Prop
  | .sending _ _ => True
  | _ => False

section

variable (i j : ℕ) (stale : List ℕ)

@[simp] theorem Phase.holds_serving : ¬ (Phase.serving stale).holds i := id
@[simp] theorem Phase.holds_counting : (Phase.counting stale j).holds i ↔ j = i := Iff.rfl
@[simp] theorem Phase.holds_sending : (Phase.sending stale j).holds i ↔ j = i := Iff.rfl
@[simp] theorem Phase.isSending_serving : ¬ (Phase.serving stale).isSending := id
@[simp] theorem Phase.isSending_counting : ¬ (Phase.counting stale j).isSending := id
@[simp] theorem Phase.isSending_sending : (Phase.sending stale j).isSending := trivial
@[simp] theorem Phase.isSending_finished : ¬ Phase.finished.isSending := id

end

/-- `r` asked to reply when the invalidations queued were at most `bound`, and has refreshed nothing since. -/
def Waits (r : ρ) (log : List (Event ρ)) (bound : ℕ → ℕ) : Prop :=
  ∃ newer older, log = newer ++ Event.called r :: older ∧ (∀ e ∈ newer, ¬ e.refreshBy r) ∧
    ∀ i, queuedOf i older ≤ bound i

def SoundEvent : Event ρ → List (Event ρ) → Prop
  | .recorded _ i _ _, older => staleOf i older = queuedOf i older
  | .called r, older => ∀ newer i c oldest, older = newer ++ Event.recorded r i c true :: oldest →
      staleOf i (Event.recorded r i c true :: oldest) ≤ queuedOf i older
  | .replied r, older => Waits r older fun i => sentOf i older
  | _, _ => True

def Phase.Awaits (r : ρ) (log : List (Event ρ)) : Phase → Prop
  | .direct => Waits r log fun i => sentOf i log
  | .enqueueing => Waits r log fun i => queuedOf i log
  | _ => True

structure Inv (s : State ρ) : Prop where
  locks : ∀ i r, s.locked i = some r ↔ (s.phase r).holds i
  started : ∀ r, (s.phase r).isSending → s.jobs = true
  unstarted : s.jobs = false → ∀ i, queuedOf i s.log = 0
  fifo : queuedInodes s.log = sentInodes s.log ++ s.worker.unsentInodes ++ s.channel.flatMap Job.inodes
  counted : ∃ S : Finset ρ, (∀ r, r ∈ S ↔ (s.phase r).isSending) ∧
    s.queued = S.card + s.worker.held + heldIn s.channel
  recorded : ∀ i, staleOf i s.log = queuedOf i s.log + if s.jobs ∧ (s.locked i).isSome then 1 else 0
  own : ∀ newer r i c oldest, s.log = newer ++ Event.recorded r i c true :: oldest →
    staleOf i (Event.recorded r i c true :: oldest) ≤ queuedOf i s.log ∨ s.locked i = some r
  sound : Always SoundEvent s.log
  awaits : ∀ r, (s.phase r).Awaits r s.log
  inChannel : ∀ before job after r, s.channel = before ++ job :: after → job.reply = some r →
    s.phase r = .finished ∧ Waits r s.log fun i => sentOf i s.log + s.worker.unsent i + unsentIn i before
  inWorker : ∀ job r, s.worker.job = some job → job.reply = some r →
    s.phase r = .finished ∧ Waits r s.log fun i => sentOf i s.log + s.worker.unsent i

section Counts

variable (i : ℕ) (log : List (Event ρ))

@[simp] theorem staleOf_nil : staleOf i ([] : List (Event ρ)) = 0 := rfl
@[simp] theorem queuedOf_nil : queuedOf i ([] : List (Event ρ)) = 0 := rfl
@[simp] theorem sentOf_nil : sentOf i ([] : List (Event ρ)) = 0 := rfl

theorem staleOf_cons (e : Event ρ) :
    staleOf i (e :: log) = staleOf i log + if e.isStale i then 1 else 0 := by
  simp [staleOf, countP_cons]

theorem queuedOf_cons (e : Event ρ) :
    queuedOf i (e :: log) = queuedOf i log + if e.isQueued i then 1 else 0 := by
  simp [queuedOf, countP_cons]

theorem sentOf_cons (e : Event ρ) :
    sentOf i (e :: log) = sentOf i log + if e.isSent i then 1 else 0 := by
  simp [sentOf, countP_cons]

theorem staleOf_le_append (newer : List (Event ρ)) : staleOf i log ≤ staleOf i (newer ++ log) := by
  simp [staleOf, countP_append]

theorem queuedOf_le_append (newer : List (Event ρ)) : queuedOf i log ≤ queuedOf i (newer ++ log) := by
  simp [queuedOf, countP_append]

variable (inodes : List ℕ)

theorem staleOf_sent : staleOf i ((inodes.map Event.sent).reverse ++ log) = staleOf i log := by
  simp [staleOf, countP_append, Event.isStale, comp_def]

theorem queuedOf_sent : queuedOf i ((inodes.map Event.sent).reverse ++ log) = queuedOf i log := by
  simp [queuedOf, countP_append, Event.isQueued, comp_def]

theorem sentOf_sent : sentOf i ((inodes.map Event.sent).reverse ++ log) = inodes.count i + sentOf i log := by
  simp [sentOf, countP_append, Event.isSent, comp_def, List.count]

theorem count_queuedInodes : (queuedInodes log).count i = queuedOf i log := by
  induction log with
  | nil => rfl
  | cons e log ih =>
    cases e <;> simp [queuedInodes, queuedOf_cons, Event.isQueued, ih, count_singleton]

theorem count_sentInodes : (sentInodes log).count i = sentOf i log := by
  induction log with
  | nil => rfl
  | cons e log ih =>
    cases e <;> simp [sentInodes, sentOf_cons, Event.isSent, ih, count_singleton]

theorem queuedInodes_cons (e : Event ρ) (h : ∀ i, e.isQueued i = false) :
    queuedInodes (e :: log) = queuedInodes log := by
  cases e with
  | queued j => simp [Event.isQueued] at h
  | _ => rfl

theorem sentInodes_cons (e : Event ρ) (h : ∀ i, e.isSent i = false) :
    sentInodes (e :: log) = sentInodes log := by
  cases e with
  | sent j => simp [Event.isSent] at h
  | _ => rfl

theorem queuedInodes_sent : queuedInodes ((inodes.map Event.sent).reverse ++ log) = queuedInodes log := by
  induction inodes generalizing log with
  | nil => rfl
  | cons j inodes ih =>
    rw [map_cons, reverse_cons, append_assoc, ih]
    rfl

theorem sentInodes_sent : sentInodes ((inodes.map Event.sent).reverse ++ log) = sentInodes log ++ inodes := by
  induction inodes generalizing log with
  | nil => simp
  | cons j inodes ih =>
    rw [map_cons, reverse_cons, append_assoc, ih]
    simp [sentInodes]

theorem unsentIn_cons (j : Job ρ) (l : List (Job ρ)) :
    unsentIn i (j :: l) = j.inodes.count i + unsentIn i l := by
  simp [unsentIn]

@[simp] theorem unsentIn_nil : unsentIn i ([] : List (Job ρ)) = 0 := rfl

theorem heldIn_append (a b : List (Job ρ)) : heldIn (a ++ b) = heldIn a + heldIn b := by
  simp [heldIn]

theorem heldIn_cons (j : Job ρ) (l : List (Job ρ)) : heldIn (j :: l) = j.inodes.length + heldIn l := by
  simp [heldIn]

@[simp] theorem heldIn_nil : heldIn ([] : List (Job ρ)) = 0 := rfl

theorem unsentIn_le_heldIn (jobs : List (Job ρ)) : unsentIn i jobs ≤ heldIn jobs := by
  induction jobs with
  | nil => simp
  | cons j jobs ih =>
    rw [unsentIn_cons, heldIn_cons]
    exact Nat.add_le_add count_le_length ih

theorem count_flatMap_inodes (jobs : List (Job ρ)) : (jobs.flatMap Job.inodes).count i = unsentIn i jobs := by
  simp [unsentIn, count_flatMap, comp_def]

theorem Worker.count_unsentInodes (w : Worker ρ) : w.unsentInodes.count i = w.unsent i := by
  cases w <;> rfl

theorem Worker.unsent_le_held (w : Worker ρ) : w.unsent i ≤ w.held := by
  cases w <;> simp [Worker.unsent, Worker.held, count_le_length]

end Counts

theorem Inv.balance {s : State ρ} (h : Inv s) (i : ℕ) :
    queuedOf i s.log = sentOf i s.log + s.worker.unsent i + unsentIn i s.channel := by
  rw [← count_queuedInodes, h.fifo, count_append, count_append, count_sentInodes,
    Worker.count_unsentInodes, count_flatMap_inodes]

namespace Waits

variable {r : ρ} {log : List (Event ρ)} {bound bound' : ℕ → ℕ}

theorem mono (h : Waits r log bound) (hb : ∀ i, bound i ≤ bound' i) : Waits r log bound' := by
  obtain ⟨newer, older, hlog, hnew, hle⟩ := h
  exact ⟨newer, older, hlog, hnew, fun i => (hle i).trans (hb i)⟩

theorem append (h : Waits r log bound) (newest : List (Event ρ)) (hn : ∀ e ∈ newest, ¬ e.refreshBy r) :
    Waits r (newest ++ log) bound := by
  obtain ⟨newer, older, rfl, hnew, hle⟩ := h
  refine ⟨newest ++ newer, older, by simp, ?_, hle⟩
  intro e he
  rcases mem_append.mp he with he | he
  · exact hn e he
  · exact hnew e he

theorem cons (h : Waits r log bound) (e : Event ρ) (hn : ¬ e.refreshBy r) : Waits r (e :: log) bound :=
  h.append [e] (by simpa using hn)

end Waits

end Fcvm.HostChange
