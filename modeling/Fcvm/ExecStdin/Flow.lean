import Mathlib.Algebra.BigOperators.Group.List.Basic
import Mathlib.Algebra.GroupWithZero.Nat
import Mathlib.Data.List.Basic
import Fcvm.ExecStdin.Model

namespace Fcvm.ExecStdin

open Library List

/-- The bytes the guest has granted and the host has not yet sent: the counter, less the frame that is on
the wire and not yet subtracted from it. -/
def Host.unspent : Host → ℕ
  | .forward available (.wrote n) => available - n
  | .forward available _ => available
  | .terminal input _ => input.window

def Host.sending : Host → List UInt8
  | .terminal _ (some chunk) => chunk
  | _ => []

def Host.held : Host → List UInt8
  | .forward _ (.read chunk) => chunk
  | .forward _ _ => []
  | .terminal input sending => sending.getD [] ++ input.waiting

def Host.closed : Host → Bool
  | .forward _ .ended => true
  | _ => false

def Host.Sound : Host → Prop
  | .forward available (.polling opened) => opened ≤ available
  | .forward available (.read chunk) => 0 < chunk.length ∧ chunk.length ≤ available
  | .forward available (.wrote n) => n ≤ available
  | .terminal _ (some chunk) => 0 < chunk.length
  | _ => True

def Message.data : Message → List UInt8
  | .stdin data => data
  | .stdinEof => []

def HostInput.message : HostInput → Message
  | .stdin data => .stdin data
  | .eof => .stdinEof

def Applying.held : Applying → ℕ
  | .writing taken _ => taken
  | .written taken => taken
  | _ => 0

def Applying.left : Applying → List UInt8
  | .writing _ left => left
  | _ => []

def Applying.grant : Applying → ℕ
  | .granting taken => taken
  | _ => 0

def dataOf (frames : List Message) : List UInt8 := frames.flatMap Message.data

def queueData (queue : List HostInput) : List UInt8 := dataOf (queue.map HostInput.message)

section

variable (frames frames' : List Message) (queue queue' : List HostInput) (data : List UInt8) (taken : ℕ)

@[simp] theorem dataOf_nil : dataOf [] = [] := rfl
@[simp] theorem dataOf_stdin : dataOf (.stdin data :: frames) = data ++ dataOf frames := rfl
@[simp] theorem dataOf_stdinEof : dataOf (.stdinEof :: frames) = dataOf frames := rfl
@[simp] theorem dataOf_append : dataOf (frames ++ frames') = dataOf frames ++ dataOf frames' :=
  flatMap_append
@[simp] theorem queueData_nil : queueData [] = [] := rfl
@[simp] theorem queueData_stdin : queueData (.stdin data :: queue) = data ++ queueData queue := rfl
@[simp] theorem queueData_eof : queueData (.eof :: queue) = queueData queue := rfl
@[simp] theorem queueData_append : queueData (queue ++ queue') = queueData queue ++ queueData queue' := by
  simp [queueData]

@[simp] theorem Applying.held_waiting : waiting.held = 0 := rfl
@[simp] theorem Applying.held_writing : (writing taken data).held = taken := rfl
@[simp] theorem Applying.held_written : (written taken).held = taken := rfl
@[simp] theorem Applying.held_granting : (granting taken).held = 0 := rfl
@[simp] theorem Applying.left_waiting : waiting.left = [] := rfl
@[simp] theorem Applying.left_writing : (writing taken data).left = data := rfl
@[simp] theorem Applying.left_written : (written taken).left = [] := rfl
@[simp] theorem Applying.left_granting : (granting taken).left = [] := rfl
@[simp] theorem Applying.grant_waiting : waiting.grant = 0 := rfl
@[simp] theorem Applying.grant_writing : (writing taken data).grant = 0 := rfl
@[simp] theorem Applying.grant_written : (written taken).grant = 0 := rfl
@[simp] theorem Applying.grant_granting : (granting taken).grant = taken := rfl

end

namespace State

variable (s : State)

def wire : List UInt8 := dataOf s.toGuest
def queued : List UInt8 := queueData s.queue

def inFlight : ℕ := s.host.sending.length + s.wire.length
def guestHeld : ℕ := s.queued.length + s.applying.held
def grants : ℕ := s.toHost.sum + s.applying.grant

theorem credit_eq (unspent : ℕ) : unspent + s.inFlight + s.guestHeld + s.grants = unspent +
    (s.host.sending.length + (dataOf s.toGuest).length) + ((queueData s.queue).length + s.applying.held) +
    (s.toHost.sum + s.applying.grant) := rfl

def frames : List Message := s.queue.map HostInput.message ++ s.toGuest

def pending : List UInt8 := s.applying.left ++ s.queued ++ s.wire ++ s.host.held

end State

def NoEof (frames : List Message) : Prop := ∀ f ∈ frames, f ≠ .stdinEof

def EofLast (frames : List Message) : Prop := ∃ before, NoEof before ∧ frames = before ++ [.stdinEof]

structure Inv (s : State) : Prop where
  credit : s.host.unspent + s.inFlight + s.guestHeld + s.grants = if s.granted then stdinWindow else 0
  unstarted : s.started = false → s.granted = false ∧ s.toHost = [] ∧ s.applying = .waiting
  counter : s.window + s.guestHeld = stdinWindow
  sound : s.host.Sound
  ordered : s.hungUp = false → s.delivered ++ s.pending = s.input
  started : s.delivered <+: s.input
  opened : s.host.closed = false → s.eofApplied = false ∧ NoEof s.frames
  closed : s.host.closed = true → (s.eofApplied = true ∧ s.frames = [] ∧ s.applying.left = []) ∨
    (s.eofApplied = false ∧ EofLast s.frames)
  ended : s.ended = true → s.host.closed = true ∧ s.toGuest = []
  sink : s.stdin = none → s.hungUp = true ∨ s.eofApplied = true
  full : ∀ data, .stdin data ∈ s.toGuest → data ≠ []
  alive : ∀ taken left, s.applying = .writing taken left → s.hungUp = false
  hung : s.hungUp = true → s.stdin = none
  within : s.beyond = false

theorem inv_initial {host : Host} (h : host.initial) (sink : StdinSink) : Inv (initial host sink) := by
  cases host with
  | forward | terminal =>
    obtain ⟨rfl, rfl⟩ := h
    constructor <;> simp [initial, Host.unspent, State.inFlight, State.guestHeld, State.grants, Host.sending,
      State.wire, State.queued, Host.Sound, State.pending, Host.held,
      Host.closed, State.frames, NoEof]

namespace Inv

variable {s : State} {host : Host} {data : List UInt8}

theorem hostMoves (h : Inv s) {toHost : List ℕ} {input : List UInt8}
    (hu : host.unspent + host.sending.length + toHost.sum = s.host.unspent + s.host.sending.length + s.toHost.sum)
    (hst : s.started = false → toHost = []) (hs : host.Sound)
    (hin : ∃ data, input = s.input ++ data ∧ host.held = s.host.held ++ data) (hc : host.closed = s.host.closed) :
    Inv { s with host := host, toHost := toHost, input := input } := by
  obtain ⟨data, rfl, hheld⟩ := hin
  exact { h with
    credit := by
      have hcredit := h.credit
      simp only [State.credit_eq] at hcredit ⊢
      omega
    unstarted hno := ⟨(h.unstarted hno).1, hst hno, (h.unstarted hno).2.2⟩
    sound := hs
    ordered hup := by
      have ho := h.ordered hup
      simp only [State.pending, State.wire, State.queued, hheld] at ho ⊢
      rw [← ho]
      simp only [append_assoc]
    started := h.started.trans (prefix_append _ _)
    opened hcl := h.opened (hc ▸ hcl)
    closed hcl := h.closed (hc ▸ hcl)
    ended he := ⟨hc.trans (h.ended he).1, (h.ended he).2⟩ }

theorem moveHost (h : Inv s) (hu : host.unspent + host.sending.length = s.host.unspent + s.host.sending.length)
    (hs : host.Sound) (hheld : host.held = s.host.held) (hc : host.closed = s.host.closed) :
    Inv { s with host := host } :=
  h.hostMoves (by rw [hu]) (fun hno => (h.unstarted hno).2.1) hs ⟨[], by simp, by simpa using hheld⟩ hc

theorem moreInput (h : Inv s) (hu : host.unspent + host.sending.length = s.host.unspent + s.host.sending.length)
    (hs : host.Sound) (hheld : host.held = s.host.held ++ data) (hc : host.closed = s.host.closed) :
    Inv { s with host := host, input := s.input ++ data } :=
  h.hostMoves (by rw [hu]) (fun hno => (h.unstarted hno).2.1) hs ⟨data, rfl, hheld⟩ hc

theorem send (h : Inv s)
    (hu : host.unspent + host.sending.length + data.length = s.host.unspent + s.host.sending.length)
    (hne : data ≠ []) (hs : host.Sound) (hheld : s.host.held = data ++ host.held) (hc : host.closed = false)
    (ho : s.host.closed = false) : Inv { s with host := host, toGuest := s.toGuest ++ [.stdin data] } := by
  exact { h with
    credit := by
      have hcredit := h.credit
      simp only [State.credit_eq, dataOf_append, dataOf_stdin,
        dataOf_nil, append_nil, length_append] at hcredit ⊢
      omega
    sound := hs
    ordered hup := by
      have hord := h.ordered hup
      simp only [State.pending, State.wire, State.queued, hheld] at hord ⊢
      rw [← hord]
      simp
    opened _ := by
      obtain ⟨happlied, hno⟩ := h.opened ho
      refine ⟨happlied, ?_⟩
      intro f hf
      simp only [State.frames, ← append_assoc, mem_append, mem_singleton] at hf
      rcases hf with hf | rfl
      · exact hno f (by simpa [State.frames] using hf)
      · simp
    closed hcl := by
      simp [show host.closed = true from hcl] at hc
    ended he := by
      have hcl := (h.ended he).1
      cases ho.symm.trans hcl
    full d hd := by
      simp only [mem_append, mem_singleton, Message.stdin.injEq] at hd
      rcases hd with hd | rfl
      · exact h.full d hd
      · exact hne }

theorem sendEof (h : Inv s) (hu : host.unspent + host.sending.length = s.host.unspent + s.host.sending.length)
    (hs : host.Sound) (hheld : host.held = s.host.held) (hc : host.closed = true) (ho : s.host.closed = false) :
    Inv { s with host := host, toGuest := s.toGuest ++ [.stdinEof] } := by
  exact { h with
    credit := by
      have hcredit := h.credit
      simp only [State.credit_eq, dataOf_append,
        dataOf_stdinEof, dataOf_nil, append_nil] at hcredit ⊢
      omega
    sound := hs
    ordered hup := by
      have hord := h.ordered hup
      simp only [State.pending, State.wire, State.queued, hheld] at hord ⊢
      rw [← hord]
      simp
    opened hcl := by
      rw [show host.closed = false from hcl] at hc
      cases hc
    closed _ := by
      obtain ⟨happlied, hno⟩ := h.opened ho
      exact .inr ⟨happlied, s.frames, hno, by simp [State.frames]⟩
    ended he := by
      have hcl := (h.ended he).1
      cases ho.symm.trans hcl
    full d hd := h.full d (by simpa using hd) }

theorem grant (h : Inv s) {bytes : ℕ} {rest : List ℕ} (hto : s.toHost = bytes :: rest)
    (hu : host.unspent = s.host.unspent + bytes) (hsend : host.sending = s.host.sending) (hs : host.Sound)
    (hheld : host.held = s.host.held) (hc : host.closed = s.host.closed) :
    Inv { s with toHost := rest, host := host } := by
  refine h.hostMoves ?_ ?_ hs ⟨[], by simp, by simpa using hheld⟩ hc
  · rw [hto, sum_cons, hsend]
    omega
  · intro hno
    have hnil := (h.unstarted hno).2.1
    simp [hto] at hnil

end Inv

theorem TerminalInput.nextChunk_eq {t t' : TerminalInput} {chunk : List UInt8}
    (h : t.nextChunk = some (chunk, t')) :
    0 < chunk.length ∧ t'.window + chunk.length = t.window ∧ chunk ++ t'.waiting = t.waiting := by
  simp only [nextChunk] at h
  split at h
  case isTrue => cases h
  case isFalse hn =>
    cases h
    simp only [length_take, take_append_drop, and_true]
    omega

theorem inv_hostStep {s t : State} {a : Action} (h : Inv s) (ht : hostStep s a = some t) : Inv t := by
  unfold hostStep at ht
  have hsound := h.sound
  split at ht
  · split at ht
    case h_2 => cases ht
    case h_1 available hh =>
      cases ht
      apply h.moveHost <;> simp [hh, Host.unspent, Host.sending, Host.Sound, Host.held, Host.closed]
  · split at ht
    case h_2 => cases ht
    case h_1 available opened hh =>
      cases ht
      apply h.moveHost <;> simp [hh, Host.unspent, Host.sending, Host.Sound, Host.held, Host.closed]
  · split at ht
    case h_2 => cases ht
    case h_1 chunk available opened hh =>
      split at ht
      case isFalse => cases ht
      case isTrue hn =>
        cases ht
        simp only [hh, Host.Sound] at hsound
        apply h.moreInput
        · simp [hh, Host.unspent, Host.sending]
        · exact ⟨hn.1, by omega⟩
        · simp [hh, Host.held]
        · simp [hh, Host.closed]
  · split at ht
    case h_1 available chunk hh =>
      cases ht
      simp only [hh, Host.Sound] at hsound
      apply h.send
      · simp only [hh, Host.unspent, Host.sending, length_nil]
        omega
      · exact ne_nil_of_length_pos hsound.1
      · exact hsound.2
      · simp [hh, Host.held]
      · simp [Host.closed]
      · simp [hh, Host.closed]
    case h_2 input chunk hh =>
      cases ht
      simp only [hh, Host.Sound] at hsound
      have hne : chunk ≠ [] := ne_nil_of_length_pos hsound
      apply h.send <;> simp [hh, hne, Host.unspent, Host.sending, Host.Sound, Host.held, Host.closed]
    case h_3 => cases ht
  · split at ht
    case h_2 => cases ht
    case h_1 available n hh =>
      cases ht
      apply h.moveHost <;> simp [hh, Host.unspent, Host.sending, Host.Sound, Host.held, Host.closed]
  · split at ht
    case h_2 => cases ht
    case h_1 available opened hh =>
      split at ht
      case isFalse => cases ht
      case isTrue =>
        cases ht
        apply h.sendEof <;> simp [hh, Host.unspent, Host.sending, Host.Sound, Host.held, Host.closed]
  · split at ht
    case h_2 => cases ht
    case h_1 data input hh =>
      split at ht
      case isFalse => cases ht
      case isTrue =>
        cases ht
        apply h.moreInput <;>
          simp [hh, Host.unspent, Host.sending, Host.Sound, Host.held, Host.closed, TerminalInput.offer]
  · split at ht
    case h_2 => cases ht
    case h_1 input hh =>
      simp only [Option.map_eq_some_iff] at ht
      obtain ⟨⟨chunk, input'⟩, hchunk, rfl⟩ := ht
      obtain ⟨hpos, hwin, hwait⟩ := TerminalInput.nextChunk_eq hchunk
      apply h.moveHost
      · simp only [hh, Host.unspent, Host.sending, length_nil]
        omega
      · exact hpos
      · simp [hh, Host.held, hwait]
      · simp [hh, Host.closed]
  · split at ht
    case h_1 bytes rest available at_ hto hh =>
      cases ht
      rw [hh] at hsound
      apply h.grant hto
      · cases at_ <;> simp only [hh, Host.unspent, Host.Sound] at hsound ⊢
        omega
      · simp [hh, Host.sending]
      · cases at_ <;> simp only [Host.Sound] at hsound ⊢ <;> omega
      · cases at_ <;> simp [hh, Host.held]
      · cases at_ <;> simp [hh, Host.closed]
    case h_2 bytes rest input hto hh =>
      cases ht
      apply h.grant hto <;> simp [hh, Host.unspent, Host.sending, Host.Sound, Host.held, Host.closed,
        TerminalInput.grant]
    case h_3 => cases ht
  · cases ht

end Fcvm.ExecStdin
