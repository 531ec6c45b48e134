import Mathlib.Algebra.Group.Nat.Defs
import Mathlib.Data.List.AList
import Mathlib.Logic.Function.Basic
import Fcvm.Library.System

namespace Fcvm.Multiplexer

open Function

def uniqueOf (call : ℕ) : ℕ := (1 + call) % 2 ^ 64

/-- `valid` says that the data has a length prefix and that it is not zero. -/
structure PendingRequest where
  call : ℕ
  reply : Bool
  valid : Bool
deriving DecidableEq

inductive Frame (ρ : Type)
  | response (unique : ℕ) (r : ρ)
  | bad

/-- What both multiplexers share. `responses` is what each caller has received, `sent` what the server sent. -/
structure Core (ρ : Type) where
  calls : ℕ
  submitting : ℕ → Option PendingRequest
  requests : List PendingRequest
  pending : AList fun _ : ℕ => ℕ
  responses : ℕ → List ρ
  sent : List (ℕ × ρ)

inductive CallStep
  | take (reply valid : Bool)
  | unserializable
  | submit (call : ℕ)
deriving DecidableEq

section

variable {ρ : Type}

def Core.initial : Core ρ := ⟨0, fun _ => none, [], ∅, fun _ => [], []⟩

namespace Core

variable (eio : ρ) (k : Core ρ)

def answers (call : ℕ) (r : ρ) : ℕ → List ρ := Function.update k.responses call (k.responses call ++ [r])

def answer (call : ℕ) (r : ρ) : Core ρ := { k with responses := k.answers call r }

variable (req : PendingRequest)

def drop : Core ρ := if req.reply then k.answer req.call eio else k

def send (unique : ℕ) (r : ρ) : Core ρ :=
  match k.pending.lookup unique with
  | none => k
  | some call => { k with pending := k.pending.erase unique, responses := k.answers call r }

def register : Core ρ :=
  if req.reply then
    let k := k.send (uniqueOf req.call) eio
    { k with pending := k.pending.insert (uniqueOf req.call) req.call }
  else k

def callStep (capacity : ℕ) : CallStep → Option (Core ρ)
  | .take reply valid =>
    some { k with
      calls := k.calls + 1
      submitting := Function.update k.submitting k.calls (some ⟨k.calls, reply, valid⟩) }
  | .unserializable => some { k with calls := k.calls + 1, responses := k.answers k.calls eio }
  | .submit call =>
    match k.submitting call with
    | some req =>
      if k.requests.length < capacity then
        some { k with
          submitting := Function.update k.submitting call none
          requests := k.requests ++ [req] }
      else none
    | none => none

def serve (frame : Frame ρ) : Core ρ :=
  match frame with
  | .response unique r => { k with sent := (unique, r) :: k.sent }
  | .bad => k

end Core

def PendingRequest.holds (call : ℕ) (req : PendingRequest) : Bool := req.reply && req.call == call

def Core.load (k : Core ρ) (hand : Option PendingRequest) (call : ℕ) : ℕ :=
  ((k.submitting call).any (·.holds call)).toNat + k.requests.countP (·.holds call) +
    (hand.any (·.holds call)).toNat + (k.pending.lookup (uniqueOf call) == some call).toNat +
    (k.responses call).length

structure Core.Ok (eio : ρ) (k : Core ρ) (hand : Option PendingRequest) : Prop where
  load_le : ∀ call, k.load hand call ≤ 1
  fresh : ∀ call, k.calls ≤ call → k.load hand call = 0
  keyed : ∀ unique call, k.pending.lookup unique = some call → unique = uniqueOf call
  named : ∀ call req, k.submitting call = some req → req.call = call
  own : ∀ call r, r ∈ k.responses call → r = eio ∨ (uniqueOf call, r) ∈ k.sent

namespace Core

variable {eio : ρ} {k : Core ρ} {hand : Option PendingRequest}

variable {r : ρ} {req : PendingRequest} {unique : ℕ}

theorem mem_answers {call call' : ℕ} {r' : ρ} (h : r' ∈ k.answers call r call') :
    r' ∈ k.responses call' ∨ (call' = call ∧ r' = r) := by
  by_cases hc : call' = call
  · subst hc
    simpa [answers] using h
  · rw [answers, update_of_ne hc] at h
    exact .inl h

theorem length_answers (call call' : ℕ) (r : ρ) :
    (k.answers call r call').length = (k.responses call').length + if call' = call then 1 else 0 := by
  by_cases hc : call' = call
  · subst hc
    simp [answers]
  · simp [answers, hc]

theorem load_answer (call call' : ℕ) (r : ρ) :
    (k.answer call r).load hand call' = k.load hand call' + if call' = call then 1 else 0 := by
  simp only [load, answer, length_answers]
  omega

theorem Ok.initial : (Core.initial : Core ρ).Ok eio none := by
  constructor <;> simp [Core.initial, load]

theorem Ok.of_load {k' : Core ρ} {hand' : Option PendingRequest} (h : k.Ok eio hand)
    (hload : ∀ call, k'.load hand' call = k.load hand call) (hcalls : k'.calls = k.calls)
    (hkeyed : ∀ unique call, k'.pending.lookup unique = some call → unique = uniqueOf call)
    (hnamed : ∀ call req, k'.submitting call = some req → req.call = call)
    (hown : ∀ call r, r ∈ k'.responses call → r = eio ∨ (uniqueOf call, r) ∈ k'.sent) : k'.Ok eio hand' := by
  refine ⟨?_, ?_, hkeyed, hnamed, hown⟩
  · intro call
    rw [hload]
    exact h.load_le call
  · intro call hle
    rw [hload]
    exact h.fresh call (hcalls ▸ hle)

theorem Ok.drop (h : k.Ok eio (some req)) : (k.drop eio req).Ok eio none := by
  have hload : ∀ call, (k.drop eio req).load none call = k.load (some req) call := by
    intro call
    cases hr : req.reply
    case false => simp [Core.drop, hr, load, PendingRequest.holds]
    rw [Core.drop, hr, if_pos rfl, load_answer]
    by_cases hc : call = req.call
    · subst hc
      simp only [load, PendingRequest.holds, hr, Option.any_some, Option.any_none, beq_self_eq_true, Bool.and_self,
        Bool.toNat_true, Bool.toNat_false, if_true]
      omega
    · simp [load, PendingRequest.holds, hc, Ne.symm hc]
  have hsame : (k.drop eio req).calls = k.calls ∧ (k.drop eio req).pending = k.pending ∧
      (k.drop eio req).submitting = k.submitting ∧ (k.drop eio req).sent = k.sent := by
    simp only [Core.drop]
    split <;> exact ⟨rfl, rfl, rfl, rfl⟩
  obtain ⟨hcalls, hpending, hsub, hsent⟩ := hsame
  apply h.of_load hload hcalls
  · rw [hpending]
    exact h.keyed
  · rw [hsub]
    exact h.named
  · intro call r hr
    rw [hsent]
    simp only [Core.drop] at hr
    split at hr
    · rcases mem_answers hr with hr | ⟨-, rfl⟩
      · exact h.own call r hr
      · exact .inl rfl
    · exact h.own call r hr

theorem send_some {call : ℕ} (hp : k.pending.lookup unique = some call) :
    k.send unique r = { k with pending := k.pending.erase unique, responses := k.answers call r } := by
  simp [send, hp]

theorem send_none (hp : k.pending.lookup unique = none) : k.send unique r = k := by
  simp [send, hp]

theorem lookup_send (unique unique' : ℕ) (r : ρ) :
    (k.send unique r).pending.lookup unique' = if unique' = unique then none else k.pending.lookup unique' := by
  cases hp : k.pending.lookup unique with
  | none =>
    rw [send_none hp]
    by_cases h : unique' = unique
    · rw [if_pos h, h, hp]
    · rw [if_neg h]
  | some call =>
    rw [send_some hp]
    by_cases h : unique' = unique
    · rw [if_pos h, h, AList.lookup_erase]
    · rw [if_neg h, AList.lookup_erase_ne h]

theorem Ok.load_send (h : k.Ok eio hand) (unique : ℕ) (r : ρ) (call' : ℕ) :
    (k.send unique r).load hand call' = k.load hand call' := by
  rcases hp : k.pending.lookup unique with _ | call
  · rw [send_none hp]
  have hkey := h.keyed unique call hp
  rw [send_some hp]
  by_cases hc : call' = call
  · subst hc
    subst hkey
    simp only [load, length_answers, hp, AList.lookup_erase, beq_self_eq_true, Bool.toNat_true, if_true,
      show ((none : Option ℕ) == some call') = false from rfl, Bool.toNat_false]
    omega
  · have hlookup : ((k.pending.erase unique).lookup (uniqueOf call') == some call') =
        (k.pending.lookup (uniqueOf call') == some call') := by
      by_cases hu : uniqueOf call' = unique
      · rw [hu, AList.lookup_erase, hp]
        simp [Ne.symm hc]
      · rw [AList.lookup_erase_ne hu]
    simp only [load, length_answers, hlookup, if_neg hc, Nat.add_zero]

theorem Ok.send (h : k.Ok eio hand) (hr : r = eio ∨ (unique, r) ∈ k.sent) :
    (k.send unique r).Ok eio hand := by
  have hload := h.load_send unique r
  have hlookup := fun unique' => lookup_send (k := k) unique unique' r
  have hsame : (k.send unique r).calls = k.calls ∧ (k.send unique r).submitting = k.submitting ∧
      (k.send unique r).sent = k.sent := by
    simp only [Core.send]
    split <;> exact ⟨rfl, rfl, rfl⟩
  obtain ⟨hcalls, hsub, hsent⟩ := hsame
  apply h.of_load hload hcalls
  · intro unique' call hp
    rw [hlookup] at hp
    split at hp
    · cases hp
    · exact h.keyed unique' call hp
  · rw [hsub]
    exact h.named
  · intro call r' hr'
    rw [hsent]
    cases hp : k.pending.lookup unique with
    | none =>
      rw [send_none hp] at hr'
      exact h.own call r' hr'
    | some call' =>
      rw [send_some hp] at hr'
      rcases mem_answers hr' with hr' | ⟨rfl, rfl⟩
      · exact h.own call r' hr'
      · rw [← h.keyed unique call hp]
        exact hr

theorem Ok.register (h : k.Ok eio (some req)) : (k.register eio req).Ok eio none := by
  cases hr : req.reply with
  | false =>
    have hload : ∀ call, k.load none call = k.load (some req) call := by
      intro call
      simp [load, PendingRequest.holds, hr]
    have heq : k.register eio req = k := by simp [Core.register, hr]
    rw [heq]
    exact h.of_load hload rfl h.keyed h.named h.own
  | true =>
    have hs : (k.send (uniqueOf req.call) eio).Ok eio (some req) := h.send (.inl rfl)
    have hnone : (k.send (uniqueOf req.call) eio).pending.lookup (uniqueOf req.call) = none := by
      rw [lookup_send, if_pos rfl]
    have heq : k.register eio req = { k.send (uniqueOf req.call) eio with
        pending := (k.send (uniqueOf req.call) eio).pending.insert (uniqueOf req.call) req.call } := by
      simp [Core.register, hr]
    generalize k.send (uniqueOf req.call) eio = k' at hs hnone heq
    rw [heq]
    have hload : ∀ call, ({ k' with pending := k'.pending.insert (uniqueOf req.call) req.call } : Core ρ).load none
        call = k'.load (some req) call := by
      intro call
      by_cases hc : call = req.call
      · subst hc
        simp [load, PendingRequest.holds, hr, AList.lookup_insert, hnone]
      · have hlookup : ((k'.pending.insert (uniqueOf req.call) req.call).lookup (uniqueOf call) == some call) =
            (k'.pending.lookup (uniqueOf call) == some call) := by
          by_cases hu : uniqueOf call = uniqueOf req.call
          · rw [hu, AList.lookup_insert, hnone]
            simp [Ne.symm hc]
          · rw [AList.lookup_insert_ne hu]
        simp [load, PendingRequest.holds, hlookup, Ne.symm hc]
    refine hs.of_load hload rfl ?_ hs.named hs.own
    intro unique call hp
    by_cases hu : unique = uniqueOf req.call
    · subst hu
      rw [AList.lookup_insert] at hp
      cases hp
      rfl
    · rw [AList.lookup_insert_ne hu] at hp
      exact hs.keyed unique call hp

theorem Ok.receive {rest : List PendingRequest} (h : k.Ok eio none)
    (hreq : k.requests = req :: rest) : ({ k with requests := rest } : Core ρ).Ok eio (some req) := by
  have hload : ∀ call, ({ k with requests := rest } : Core ρ).load (some req) call = k.load none call := by
    intro call
    cases hh : req.holds call <;> simp [load, hreq, hh]
    omega
  exact h.of_load hload rfl h.keyed h.named h.own

theorem Ok.serve (h : k.Ok eio hand) (frame : Frame ρ) : (k.serve frame).Ok eio hand := by
  cases frame with
  | bad => exact h
  | response unique r =>
    exact { h with own := fun c r' hr' => (h.own c r' hr').imp id (List.mem_cons_of_mem _) }

theorem Ok.callStep {capacity : ℕ} {a : CallStep} {k' : Core ρ} (h : k.Ok eio hand)
    (hstep : k.callStep eio capacity a = some k') : k'.Ok eio hand := by
  cases a with
  | take reply valid =>
    cases hstep
    have hzero := h.fresh k.calls (Nat.le_refl _)
    have hother : ∀ call, call ≠ k.calls → ({ k with
        calls := k.calls + 1
        submitting := update k.submitting k.calls (some ⟨k.calls, reply, valid⟩) } : Core ρ).load hand call =
          k.load hand call := by
      intro call hc
      simp [load, hc]
    constructor
    · intro call
      by_cases hc : call = k.calls
      · subst hc
        have hle := Bool.toNat_le (PendingRequest.holds k.calls ⟨k.calls, reply, valid⟩)
        simp only [load, update_self, Option.any_some] at hzero ⊢
        omega
      · rw [hother call hc]
        exact h.load_le call
    · intro call hle
      have hlt : k.calls + 1 ≤ call := hle
      rw [hother call (by omega)]
      exact h.fresh call (by omega)
    · exact h.keyed
    · intro call req hreq
      by_cases hc : call = k.calls
      · subst hc
        simp only [update_self, Option.some.injEq] at hreq
        rw [← hreq]
      · simp only [update_of_ne hc] at hreq
        exact h.named call req hreq
    · exact h.own
  | unserializable =>
    cases hstep
    have hload : ∀ call, ({ k with calls := k.calls + 1, responses := k.answers k.calls eio } : Core ρ).load hand call =
        k.load hand call + if call = k.calls then 1 else 0 := fun call => load_answer k.calls call eio
    constructor
    · intro call
      rw [hload]
      by_cases hc : call = k.calls
      · rw [if_pos hc, hc, h.fresh k.calls (Nat.le_refl _)]
      · rw [if_neg hc]
        exact h.load_le call
    · intro call hle
      have hlt : k.calls + 1 ≤ call := hle
      rw [hload, if_neg (by omega)]
      exact h.fresh call (by omega)
    · exact h.keyed
    · exact h.named
    · intro call r hr
      rcases mem_answers hr with hr | ⟨-, rfl⟩
      · exact h.own call r hr
      · exact .inl rfl
  | submit call =>
    simp only [Core.callStep] at hstep
    split at hstep
    case h_2 => cases hstep
    case h_1 req hreq =>
      split at hstep
      case isFalse => cases hstep
      case isTrue =>
        cases hstep
        have hname := h.named call req hreq
        have hload : ∀ call', ({ k with
            submitting := update k.submitting call none
            requests := k.requests ++ [req] } : Core ρ).load hand call' = k.load hand call' := by
          intro call'
          by_cases hc : call' = call
          · subst hc
            cases hh : req.holds call' <;> simp [load, hreq, hh]
            omega
          · have hno : req.holds call' = false := by
              simp [PendingRequest.holds, hname, Ne.symm hc]
            simp [load, hc, hno]
        refine h.of_load hload rfl h.keyed ?_ h.own
        intro call' req' hreq'
        by_cases hc : call' = call
        · subst hc
          simp at hreq'
        · simp only [update_of_ne hc] at hreq'
          exact h.named call' req' hreq'

theorem sent_send (unique : ℕ) (r : ρ) : (k.send unique r).sent = k.sent := by
  simp only [Core.send]
  split <;> rfl

theorem sent_drop : (k.drop eio req).sent = k.sent := by
  simp only [Core.drop]
  split <;> rfl

theorem sent_register : (k.register eio req).sent = k.sent := by
  simp only [Core.register]
  split
  · exact sent_send _ _
  · rfl

theorem sent_callStep {capacity : ℕ} {a : CallStep} {k' : Core ρ} (hstep : k.callStep eio capacity a = some k') :
    k'.sent = k.sent ∧ k'.pending = k.pending := by
  cases a with
  | take reply valid => cases hstep; exact ⟨rfl, rfl⟩
  | unserializable => cases hstep; exact ⟨rfl, rfl⟩
  | submit call =>
    simp only [Core.callStep] at hstep
    split at hstep
    case h_2 => cases hstep
    case h_1 =>
      split at hstep
      case isFalse => cases hstep
      case isTrue => cases hstep; exact ⟨rfl, rfl⟩

theorem mem_send {unique' : ℕ} : unique' ∈ (k.send unique r).pending ↔ unique' ≠ unique ∧ unique' ∈ k.pending := by
  rw [← AList.lookup_isSome, ← AList.lookup_isSome, lookup_send]
  by_cases h : unique' = unique <;> simp [h]

theorem mem_register (h : unique ∈ (k.register eio req).pending) :
    unique = uniqueOf req.call ∨ unique ∈ k.pending := by
  simp only [Core.register] at h
  split at h
  · rw [AList.mem_insert, mem_send] at h
    exact h.imp id And.right
  · exact .inr h

theorem pending_drop : (k.drop eio req).pending = k.pending := by
  simp only [Core.drop]
  split <;> rfl

theorem Ok.at_most_one (h : k.Ok eio hand) (call : ℕ) : (k.responses call).length ≤ 1 := by
  have hle := h.load_le call
  simp only [load] at hle
  omega

end Core

end

end Fcvm.Multiplexer
