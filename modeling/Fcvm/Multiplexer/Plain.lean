import Fcvm.Multiplexer.Core

namespace Fcvm.Multiplexer.Plain

open Library List

inductive Reader
  | reading
  | failing
  | removing (keys : List ℕ)
  | exited
deriving DecidableEq

inductive Writer
  | waiting
  | received (req : PendingRequest)
  | writing (unique : ℕ)
  | failed (unique : ℕ)
deriving DecidableEq

structure State (ρ : Type) where
  core : Core ρ
  accepts : Bool
  frames : List (Frame ρ)
  reader : Reader
  writer : Writer

inductive Action (ρ : Type)
  | call (a : CallStep)
  | serve (frame : Frame ρ)
  | socketFails
  | receive
  | handle
  | write
  | fail
  | read
  | readFails
  | collect
  | remove

section

variable {ρ : Type} (eio : ρ)

def next (capacity : ℕ) (s : State ρ) : Action ρ → Option (State ρ)
  | .call a => (s.core.callStep eio capacity a).map fun k => { s with core := k }
  | .serve frame => some { s with core := s.core.serve frame, frames := s.frames ++ [frame] }
  | .socketFails => some { s with accepts := false }
  | .receive =>
    match s.writer, s.core.requests with
    | .waiting, req :: rest => some { s with core := { s.core with requests := rest }, writer := .received req }
    | _, _ => none
  | .handle =>
    match s.writer with
    | .received req =>
      if req.valid then some { s with core := s.core.register eio req, writer := .writing (uniqueOf req.call) }
      else some { s with core := s.core.drop eio req, writer := .waiting }
    | _ => none
  | .write =>
    match s.writer with
    | .writing unique => some { s with writer := if s.accepts then .waiting else .failed unique }
    | _ => none
  | .fail =>
    match s.writer with
    | .failed unique => some { s with core := s.core.send unique eio, writer := .waiting }
    | _ => none
  | .read =>
    match s.reader, s.frames with
    | .reading, .response unique r :: rest => some { s with core := s.core.send unique r, frames := rest }
    | .reading, .bad :: rest => some { s with frames := rest, reader := .failing }
    | _, _ => none
  | .readFails => if s.reader = .reading then some { s with reader := .failing } else none
  | .collect => if s.reader = .failing then some { s with reader := .removing s.core.pending.keys } else none
  | .remove =>
    match s.reader with
    | .removing (key :: keys) => some { s with core := s.core.send key eio, reader := .removing keys }
    | .removing [] => some { s with reader := .exited }
    | _ => none

def initial : State ρ := ⟨.initial, true, [], .reading, .waiting⟩

def system (capacity : ℕ) : Library.System (State ρ) (Action ρ) where
  initial s := s = initial
  next := next eio capacity

end

variable {ρ : Type} {eio : ρ} {capacity : ℕ} {s t : State ρ}

def leavesDead (s : State ρ) : Action ρ → Bool
  | .read =>
    match s.frames with
    | .bad :: _ => !s.accepts
    | _ => true
  | .readFails => !s.accepts
  | _ => true

def Attended (s : State ρ) (unique : ℕ) : Prop :=
  s.reader = .reading ∨ s.reader = .failing ∨ ∃ keys, s.reader = .removing keys ∧ unique ∈ keys

def Writer.hand : Writer → Option PendingRequest
  | .received req => some req
  | _ => none

structure Answers (eio : ρ) (s : State ρ) : Prop where
  ok : s.core.Ok eio s.writer.hand
  frames : ∀ unique r, .response unique r ∈ s.frames → (unique, r) ∈ s.core.sent

theorem answers_next (a : Action ρ) (h : Answers eio s) (ht : next eio capacity s a = some t) : Answers eio t := by
  cases a with
  | call a =>
    simp only [next, Option.map_eq_some_iff] at ht
    obtain ⟨k, hstep, rfl⟩ := ht
    refine ⟨h.ok.callStep hstep, ?_⟩
    rw [(Core.sent_callStep hstep).1]
    exact h.frames
  | serve frame =>
    cases ht
    refine ⟨h.ok.serve frame, ?_⟩
    intro unique r hr
    simp only [mem_append, mem_singleton] at hr
    rcases hr with hr | rfl
    · have hmem := h.frames unique r hr
      cases frame with
      | response => exact mem_cons_of_mem _ hmem
      | bad => exact hmem
    · exact mem_cons_self
  | socketFails =>
    cases ht
    exact ⟨h.ok, h.frames⟩
  | receive =>
    simp only [next] at ht
    split at ht
    case h_2 => cases ht
    case h_1 req rest hw hreq =>
      cases ht
      have hok := h.ok
      rw [hw] at hok
      exact ⟨hok.receive hreq, h.frames⟩
  | handle =>
    simp only [next] at ht
    split at ht
    case h_2 => cases ht
    case h_1 req hw =>
      have hok := h.ok
      rw [hw] at hok
      split at ht
      · cases ht
        refine ⟨hok.register, ?_⟩
        rw [Core.sent_register]
        exact h.frames
      · cases ht
        refine ⟨hok.drop, ?_⟩
        rw [Core.sent_drop]
        exact h.frames
  | write =>
    simp only [next] at ht
    split at ht
    case h_2 => cases ht
    case h_1 unique hw =>
      cases ht
      have hok := h.ok
      rw [hw] at hok
      refine ⟨?_, h.frames⟩
      split <;> exact hok
  | fail =>
    simp only [next] at ht
    split at ht
    case h_2 => cases ht
    case h_1 unique hw =>
      cases ht
      have hok := h.ok
      rw [hw] at hok
      refine ⟨hok.send (.inl rfl), ?_⟩
      rw [Core.sent_send]
      exact h.frames
  | read =>
    simp only [next] at ht
    split at ht
    case h_1 unique r rest hr hf =>
      cases ht
      have hsent := h.frames unique r (by rw [hf]; exact mem_cons_self)
      refine ⟨h.ok.send (.inr hsent), ?_⟩
      intro unique' r' hmem
      rw [Core.sent_send]
      exact h.frames unique' r' (by rw [hf]; exact mem_cons_of_mem _ hmem)
    case h_2 rest hr hf =>
      cases ht
      refine ⟨h.ok, ?_⟩
      intro unique' r' hmem
      exact h.frames unique' r' (by rw [hf]; exact mem_cons_of_mem _ hmem)
    case h_3 => cases ht
  | readFails | collect =>
    simp only [next] at ht
    split at ht
    · cases ht; exact ⟨h.ok, h.frames⟩
    · cases ht
  | remove =>
    simp only [next] at ht
    split at ht
    case h_1 key keys hr =>
      cases ht
      refine ⟨h.ok.send (.inl rfl), ?_⟩
      rw [Core.sent_send]
      exact h.frames
    case h_2 => cases ht; exact ⟨h.ok, h.frames⟩
    case h_3 => cases ht

theorem answers_reachable (h : (system eio capacity).Reachable s) : Answers eio s := by
  refine h.invariant (P := Answers eio) ?_ fun _ a _ hs ht => answers_next a hs ht
  rintro s rfl
  exact ⟨.initial, by simp [initial]⟩

def Writer.writes (unique : ℕ) : Writer → Prop
  | .writing u => u = unique
  | .failed u => u = unique
  | _ => False

structure Inv (s : State ρ) : Prop where
  dead : s.reader ≠ .reading → s.accepts = false
  removing : ∀ keys, s.reader = .removing keys → ∀ unique ∈ s.core.pending, unique ∈ keys ∨ s.writer.writes unique
  exited : s.reader = .exited → ∀ unique ∈ s.core.pending, s.writer.writes unique

theorem Inv.turn (h : Inv s) {core : Core ρ} {writer : Writer}
    (hu : ∀ u ∈ core.pending, writer.writes u ∨ u ∈ s.core.pending ∧ (s.writer.writes u → writer.writes u)) :
    Inv { s with core := core, writer := writer } := by
  refine ⟨h.dead, ?_, ?_⟩
  · intro keys hr u hmem
    rcases hu u hmem with hw | ⟨hold, hw⟩
    · exact .inr hw
    · exact (h.removing keys hr u hold).imp id hw
  · intro hr u hmem
    rcases hu u hmem with hw | ⟨hold, hw⟩
    · exact hw
    · exact hw (h.exited hr u hold)

theorem Inv.send (h : Inv s) (unique : ℕ) (r : ρ) : Inv { s with core := s.core.send unique r } where
  dead := h.dead
  removing keys hr u hu := h.removing keys hr u (Core.mem_send.mp hu).2
  exited hr u hu := h.exited hr u (Core.mem_send.mp hu).2

theorem inv_next (a : Action ρ) (h : Inv s) (hc : leavesDead s a = true) (ht : next eio capacity s a = some t) :
    Inv t := by
  cases a with
  | call a =>
    simp only [next, Option.map_eq_some_iff] at ht
    obtain ⟨k, hstep, rfl⟩ := ht
    have hp := (Core.sent_callStep hstep).2
    refine ⟨h.dead, ?_, ?_⟩
    · rw [hp]
      exact h.removing
    · rw [hp]
      exact h.exited
  | serve frame =>
    cases ht
    cases frame <;> exact ⟨h.dead, h.removing, h.exited⟩
  | socketFails =>
    cases ht
    exact ⟨fun _ => rfl, h.removing, h.exited⟩
  | receive =>
    simp only [next] at ht
    split at ht
    case h_2 => cases ht
    case h_1 req rest hw hreq =>
      cases ht
      exact h.turn fun u hu => .inr ⟨hu, by rw [hw]; exact id⟩
  | handle =>
    simp only [next] at ht
    split at ht
    case h_2 => cases ht
    case h_1 req hw =>
      split at ht
      · cases ht
        refine h.turn fun u hu => ?_
        rcases Core.mem_register hu with rfl | hu
        · exact .inl rfl
        · exact .inr ⟨hu, by rw [hw]; exact False.elim⟩
      · cases ht
        refine h.turn fun u hu => ?_
        rw [Core.pending_drop] at hu
        exact .inr ⟨hu, by rw [hw]; exact id⟩
  | write =>
    simp only [next] at ht
    split at ht
    case h_2 => cases ht
    case h_1 unique hw =>
      cases ht
      -- a write that is taken had the reader reading, so the two other clauses say nothing
      by_cases hacc : s.accepts = true
      · have hread : s.reader = .reading := by
          by_contra hno
          rw [h.dead hno] at hacc
          cases hacc
        exact ⟨h.dead, fun keys hr => by simp [hread] at hr, fun hr => by simp [hread] at hr⟩
      · rw [if_neg hacc]
        exact h.turn fun u hu => .inr ⟨hu, by rw [hw]; exact id⟩
  | fail =>
    simp only [next] at ht
    split at ht
    case h_2 => cases ht
    case h_1 unique hw =>
      cases ht
      refine h.turn fun u hu => ?_
      rw [Core.mem_send] at hu
      exact .inr ⟨hu.2, by rw [hw]; exact fun heq => hu.1 heq.symm⟩
  | read =>
    simp only [next] at ht
    split at ht
    case h_1 unique r rest hr hf =>
      cases ht
      have hsend := h.send unique r
      exact ⟨hsend.dead, hsend.removing, hsend.exited⟩
    case h_2 rest hr hf =>
      cases ht
      have hdead : s.accepts = false := by simpa [leavesDead, hf] using hc
      exact ⟨fun _ => hdead, by simp, by simp⟩
    case h_3 => cases ht
  | readFails =>
    simp only [next] at ht
    split at ht
    · cases ht
      exact ⟨fun _ => by simpa [leavesDead] using hc, by simp, by simp⟩
    · cases ht
  | collect =>
    simp only [next] at ht
    split at ht
    case isFalse => cases ht
    case isTrue hr =>
      cases ht
      refine ⟨fun _ => h.dead (by simp [hr]), ?_, by simp⟩
      intro keys hk u hu
      cases hk
      exact .inl (AList.mem_keys.mp hu)
  | remove =>
    simp only [next] at ht
    split at ht
    case h_1 key keys hr =>
      cases ht
      refine ⟨fun _ => h.dead (by simp [hr]), ?_, by simp⟩
      intro keys' hk u hu
      cases hk
      rw [Core.mem_send] at hu
      rcases h.removing (key :: keys) hr u hu.2 with hmem | hw
      · exact .inl ((mem_cons.mp hmem).resolve_left hu.1)
      · exact .inr hw
    case h_2 hr =>
      cases ht
      refine ⟨fun _ => h.dead (by simp [hr]), by simp, ?_⟩
      intro _ u hu
      exact (h.removing [] hr u hu).resolve_left (by simp)
    case h_3 => cases ht

theorem attended (h : ((system eio capacity).restrict leavesDead).Reachable s) (hw : s.writer = .waiting)
    {unique : ℕ} (hu : unique ∈ s.core.pending) : Attended s unique := by
  have hinv : Inv s := by
    refine h.invariant (P := Inv) ?_ fun _ a _ hs ht => ?_
    · rintro s rfl
      exact ⟨by simp [initial], by simp [initial], by simp [initial]⟩
    · obtain ⟨hc, hn⟩ := System.restrict_next ht
      exact inv_next a hs hc hn
  cases hr : s.reader with
  | reading => exact .inl hr
  | failing => exact .inr (.inl hr)
  | removing keys =>
    have hkeys := hinv.removing keys hr unique hu
    rw [hw] at hkeys
    exact .inr (.inr ⟨keys, hr, hkeys.resolve_right id⟩)
  | exited =>
    have hwrites := hinv.exited hr unique hu
    rw [hw] at hwrites
    exact hwrites.elim

end Fcvm.Multiplexer.Plain
