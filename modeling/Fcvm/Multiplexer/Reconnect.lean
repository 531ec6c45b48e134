import Fcvm.Multiplexer.Core

namespace Fcvm.Multiplexer.Reconnect

open Library List Function

def maxAttempts : ℕ := 60

inductive Reader
  | unborn
  | reading
  | dying
  | exited
deriving DecidableEq

/-- From `reconnecting` to `resending` the writer is in `do_reconnect`; `retry` is the fire-and-forget
request it writes once more afterwards. -/
inductive Writer
  | waiting
  | received (req : PendingRequest)
  | writing (unique : ℕ) (retry : Option ℕ)
  | reconnecting (retry : Option ℕ) (attempt : ℕ)
  | cloning (retry : Option ℕ)
  | failing (retry : Option ℕ)
  | removing (retry : Option ℕ) (keys : List ℕ)
  | collecting (retry : Option ℕ)
  | resending (retry : Option ℕ) (keys : List ℕ)
  | retrying (unique : ℕ)
deriving DecidableEq

/-- Sockets and readers are named by generation. `written` is the last socket that took each request. -/
structure State (ρ : Type) where
  core : Core ρ
  accepts : ℕ → Bool
  frames : ℕ → List (Frame ρ)
  reader : ℕ → Reader
  died : Option ℕ
  generation : ℕ
  writer : Writer
  written : ℕ → Option ℕ

inductive Action (ρ : Type)
  | call (a : CallStep)
  | serve (g : ℕ) (frame : Frame ρ)
  | socketFails (g : ℕ)
  | receive
  | handle
  | write
  | notified
  | attempt (ok : Bool)
  | clone (ok : Bool)
  | collect
  | remove
  | resend
  | retry
  | read (g : ℕ)
  | readFails (g : ℕ)
  | notify (g : ℕ)

section

variable {ρ : Type} (eio : ρ)

def resume : Option ℕ → Writer
  | none => .waiting
  | some unique => .retrying unique

def State.become (s : State ρ) (g : ℕ) (r : Reader) : State ρ := { s with reader := Function.update s.reader g r }

def writerStep (s : State ρ) : Action ρ → Option (State ρ)
  | .receive =>
    match s.writer, s.core.requests with
    | .waiting, req :: rest => some { s with core := { s.core with requests := rest }, writer := .received req }
    | _, _ => none
  | .handle =>
    match s.writer with
    | .received req =>
      if req.valid then
        let unique := uniqueOf req.call
        let retry := if req.reply then none else some unique
        some { s with core := s.core.register eio req, writer := .writing unique retry }
      else some { s with core := s.core.drop eio req, writer := .waiting }
    | _ => none
  | .write =>
    match s.writer with
    | .writing unique retry =>
      if s.accepts s.generation then
        some { s with written := Function.update s.written unique (some s.generation), writer := .waiting }
      else some { s with writer := .reconnecting retry 0 }
    | _ => none
  | .notified =>
    match s.writer, s.died with
    | .waiting, some g =>
      some { s with died := none, writer := if g = s.generation then .reconnecting none 0 else .waiting }
    | _, _ => none
  | .attempt ok =>
    match s.writer with
    | .reconnecting retry attempt =>
      if ok then some { s with writer := .cloning retry }
      else if attempt + 1 ≥ maxAttempts then some { s with writer := .failing retry }
      else some { s with writer := .reconnecting retry (attempt + 1) }
    | _ => none
  | .clone ok =>
    match s.writer with
    | .cloning retry =>
      if ok then
        let g := s.generation + 1
        some { s.become g .reading with generation := g, writer := .collecting retry }
      else some { s with writer := .failing retry }
    | _ => none
  | .collect =>
    match s.writer with
    | .failing retry => some { s with writer := .removing retry s.core.pending.keys }
    | .collecting retry => some { s with writer := .resending retry s.core.pending.keys }
    | _ => none
  | .remove =>
    match s.writer with
    | .removing retry (key :: keys) => some { s with core := s.core.send key eio, writer := .removing retry keys }
    | .removing retry [] => some { s with writer := resume retry }
    | _ => none
  | .resend =>
    match s.writer with
    | .resending retry (key :: keys) =>
      -- a re-send that the socket refuses is logged, and the request stays pending
      let written := if key ∈ s.core.pending ∧ s.accepts s.generation then
        Function.update s.written key (some s.generation) else s.written
      some { s with written := written, writer := .resending retry keys }
    | .resending retry [] => some { s with writer := resume retry }
    | _ => none
  | .retry =>
    match s.writer with
    | .retrying _ => some { s with writer := .waiting }
    | _ => none
  | _ => none

def readerStep (s : State ρ) : Action ρ → Option (State ρ)
  | .read g =>
    match s.reader g, s.frames g with
    | .reading, .response unique r :: rest =>
      some { s with core := s.core.send unique r, frames := Function.update s.frames g rest }
    | .reading, .bad :: rest => some { s.become g .dying with frames := Function.update s.frames g rest }
    | _, _ => none
  | .readFails g => if s.reader g = .reading then some (s.become g .dying) else none
  | .notify g =>
    if s.reader g = .dying ∧ s.died = none then some { s.become g .exited with died := some g } else none
  | _ => none

def next (capacity : ℕ) (s : State ρ) : Action ρ → Option (State ρ)
  | .call a => (s.core.callStep eio capacity a).map fun k => { s with core := k }
  | .serve g frame =>
    some { s with core := s.core.serve frame, frames := Function.update s.frames g (s.frames g ++ [frame]) }
  | .socketFails g => some { s with accepts := Function.update s.accepts g false }
  | .read g => readerStep s (.read g)
  | .readFails g => readerStep s (.readFails g)
  | .notify g => readerStep s (.notify g)
  | a => writerStep eio s a

def initial : State ρ where
  core := .initial
  accepts _ := true
  frames _ := []
  reader := Function.update (fun _ => .unborn) 0 .reading
  died := none
  generation := 0
  writer := .waiting
  written _ := none

def system (capacity : ℕ) : Library.System (State ρ) (Action ρ) where
  initial s := s = initial
  next := next eio capacity

end

variable {ρ : Type} {eio : ρ} {capacity : ℕ} {s t : State ρ}

/-- `do_reconnect` gives up only when the socket it leaves in place is dead, and a new socket takes what is re-sent. -/
def reconnectsWell (s : State ρ) : Action ρ → Bool
  | .attempt false =>
    match s.writer with
    | .reconnecting _ attempt => decide (attempt + 1 < maxAttempts) || !s.accepts s.generation
    | _ => true
  | .clone false => !s.accepts s.generation
  | .resend =>
    match s.writer with
    | .resending _ (key :: _) => decide (key ∉ s.core.pending) || s.accepts s.generation
    | _ => true
  | _ => true

def Attended (s : State ρ) : Prop :=
  s.reader s.generation = .reading ∨ s.reader s.generation = .dying ∨ s.died = some s.generation

def Writer.hand : Writer → Option PendingRequest
  | .received req => some req
  | _ => none

@[simp] theorem hand_resume (retry : Option ℕ) : (resume retry).hand = none := by
  cases retry <;> rfl

structure Answers (eio : ρ) (s : State ρ) : Prop where
  ok : s.core.Ok eio s.writer.hand
  frames : ∀ g unique r, .response unique r ∈ s.frames g → (unique, r) ∈ s.core.sent

namespace Answers

theorem send (h : Answers eio s) {w : Writer} (hw : w.hand = s.writer.hand) (unique : ℕ) :
    Answers eio { s with core := s.core.send unique eio, writer := w } := by
  refine ⟨?_, ?_⟩
  · rw [hw]
    exact h.ok.send (.inl rfl)
  · rw [Core.sent_send]
    exact h.frames

theorem writerStep {a : Action ρ} (h : Answers eio s) (ht : writerStep eio s a = some t) : Answers eio t := by
  have hok := h.ok
  unfold Reconnect.writerStep at ht
  split at ht
  · split at ht
    case h_2 => cases ht
    case h_1 req rest hw hreq =>
      cases ht
      rw [hw] at hok
      exact ⟨hok.receive hreq, h.frames⟩
  · split at ht
    case h_2 => cases ht
    case h_1 req hw =>
      rw [hw] at hok
      split at ht
      · cases ht
        refine ⟨hok.register, ?_⟩
        rw [Core.sent_register]
        exact h.frames
      · cases ht
        refine ⟨hok.drop, ?_⟩
        rw [Core.sent_drop]
        exact h.frames
  · split at ht
    case h_2 => cases ht
    case h_1 unique retry hw =>
      rw [hw] at hok
      split at ht
      · cases ht; exact ⟨hok, h.frames⟩
      · cases ht; exact ⟨hok, h.frames⟩
  · split at ht
    case h_2 => cases ht
    case h_1 g hw hd =>
      cases ht
      rw [hw] at hok
      refine ⟨?_, h.frames⟩
      split <;> exact hok
  · split at ht
    case h_2 => cases ht
    case h_1 ok retry attempt hw =>
      rw [hw] at hok
      split at ht
      · cases ht; exact ⟨hok, h.frames⟩
      · split at ht
        · cases ht; exact ⟨hok, h.frames⟩
        · cases ht; exact ⟨hok, h.frames⟩
  · split at ht
    case h_2 => cases ht
    case h_1 ok retry hw =>
      rw [hw] at hok
      split at ht
      · cases ht; exact ⟨hok, h.frames⟩
      · cases ht; exact ⟨hok, h.frames⟩
  · split at ht
    case h_1 retry hw => rw [hw] at hok; cases ht; exact ⟨hok, h.frames⟩
    case h_2 retry hw => rw [hw] at hok; cases ht; exact ⟨hok, h.frames⟩
    case h_3 => cases ht
  · split at ht
    case h_1 retry key keys hw =>
      cases ht
      exact h.send (by simp [hw, Writer.hand]) key
    case h_2 retry hw =>
      cases ht
      rw [hw] at hok
      exact ⟨by rw [hand_resume]; exact hok, h.frames⟩
    case h_3 => cases ht
  · split at ht
    case h_1 retry key keys hw => rw [hw] at hok; cases ht; exact ⟨hok, h.frames⟩
    case h_2 retry hw =>
      cases ht
      rw [hw] at hok
      exact ⟨by rw [hand_resume]; exact hok, h.frames⟩
    case h_3 => cases ht
  · split at ht
    case h_1 unique hw => rw [hw] at hok; cases ht; exact ⟨hok, h.frames⟩
    case h_2 => cases ht
  · cases ht

theorem readerStep {a : Action ρ} (h : Answers eio s) (ht : readerStep s a = some t) : Answers eio t := by
  have hrest : ∀ {g : ℕ} {frame : Frame ρ} {rest : List (Frame ρ)}, s.frames g = frame :: rest →
      ∀ g' unique r, .response unique r ∈ update s.frames g rest g' → (unique, r) ∈ s.core.sent := by
    intro g frame rest hf g' unique r hmem
    by_cases hg : g' = g
    · subst hg
      rw [update_self] at hmem
      exact h.frames g' unique r (by rw [hf]; exact mem_cons_of_mem _ hmem)
    · rw [update_of_ne hg] at hmem
      exact h.frames g' unique r hmem
  unfold Reconnect.readerStep at ht
  split at ht
  case h_1 g =>
    split at ht
    case h_1 unique r rest hr hf =>
      cases ht
      have hsent := h.frames g unique r (by rw [hf]; exact mem_cons_self)
      refine ⟨h.ok.send (.inr hsent), ?_⟩
      rw [Core.sent_send]
      exact hrest hf
    case h_2 rest hr hf =>
      cases ht
      exact ⟨h.ok, hrest hf⟩
    case h_3 => cases ht
  case h_2 g | h_3 g =>
    split at ht
    · cases ht; exact ⟨h.ok, h.frames⟩
    · cases ht
  case h_4 => cases ht

end Answers

theorem answers_next (a : Action ρ) (h : Answers eio s) (ht : next eio capacity s a = some t) : Answers eio t := by
  unfold next at ht
  split at ht
  case h_1 a =>
    simp only [Option.map_eq_some_iff] at ht
    obtain ⟨k, hstep, rfl⟩ := ht
    refine ⟨h.ok.callStep hstep, ?_⟩
    rw [(Core.sent_callStep hstep).1]
    exact h.frames
  case h_2 g frame =>
    cases ht
    refine ⟨h.ok.serve frame, ?_⟩
    intro g' unique r hr
    have hgrow : ∀ p ∈ s.core.sent, p ∈ (s.core.serve frame).sent := by
      cases frame with
      | response => exact fun p hp => mem_cons_of_mem _ hp
      | bad => exact fun p hp => hp
    by_cases hg : g' = g
    · subst hg
      simp only [update_self, mem_append, mem_singleton] at hr
      rcases hr with hr | rfl
      · exact hgrow _ (h.frames g' unique r hr)
      · exact mem_cons_self
    · simp only [update_of_ne hg] at hr
      exact hgrow _ (h.frames g' unique r hr)
  case h_3 g =>
    cases ht
    exact ⟨h.ok, h.frames⟩
  case h_4 g | h_5 g | h_6 g => exact h.readerStep ht
  case h_7 => exact h.writerStep ht

theorem answers_reachable (h : (system eio capacity).Reachable s) : Answers eio s := by
  refine h.invariant (P := Answers eio) ?_ fun _ a _ hs ht => answers_next a hs ht
  rintro s rfl
  exact ⟨.initial, by simp [initial]⟩

end Fcvm.Multiplexer.Reconnect
