import Fcvm.Multiplexer.Plain
import Fcvm.Multiplexer.Reconnect

namespace Fcvm.Multiplexer

open Library

variable {ρ : Type} {eio : ρ} {capacity : ℕ}

namespace Reconnect

variable {s t : State ρ}

/-- Everything pending is on the current socket, which is attended; or the socket is dead and nothing is pending
but what `but` allows. -/
def Settled (s : State ρ) (but : ℕ → Prop) : Prop :=
  (Attended s ∧ ∀ u ∈ s.core.pending, but u ∨ s.written u = some s.generation) ∨
    (s.accepts s.generation = false ∧ ∀ u ∈ s.core.pending, but u)

def Inv (s : State ρ) : Prop :=
  match s.writer with
  | .waiting => Settled s fun _ => False
  | .received _ => Settled s fun _ => False
  | .retrying _ => Settled s fun _ => False
  | .writing unique _ => Settled s fun u => u = unique
  | .reconnecting _ _ => True
  | .cloning _ => True
  | .failing _ => s.accepts s.generation = false
  | .removing _ keys => s.accepts s.generation = false ∧ ∀ u ∈ s.core.pending, u ∈ keys
  | .collecting _ => Attended s
  | .resending _ keys => Attended s ∧ ∀ u ∈ s.core.pending, u ∈ keys ∨ s.written u = some s.generation

structure Beside (s t : State ρ) : Prop where
  generation : t.generation = s.generation
  written : t.written = s.written
  pending : ∀ u ∈ t.core.pending, u ∈ s.core.pending
  attended : Attended s → Attended t
  accepts : s.accepts s.generation = false → t.accepts s.generation = false

theorem Settled.beside {but : ℕ → Prop} (h : Settled s but) (hb : Beside s t) : Settled t but := by
  rcases h with ⟨hatt, hall⟩ | ⟨hdead, hall⟩
  · refine .inl ⟨hb.attended hatt, fun u hu => ?_⟩
    rw [hb.written, hb.generation]
    exact hall u (hb.pending u hu)
  · refine .inr ⟨?_, fun u hu => hall u (hb.pending u hu)⟩
    rw [hb.generation]
    exact hb.accepts hdead

theorem Inv.beside (h : Inv s) (hsame : t.writer = s.writer) (hb : Beside s t) : Inv t := by
  unfold Inv at h ⊢
  rw [hsame]
  cases hw : s.writer with
  | waiting | received | retrying => rw [hw] at h; exact h.beside hb
  | writing unique retry => rw [hw] at h; exact Settled.beside h hb
  | reconnecting retry attempt => trivial
  | cloning retry => trivial
  | failing retry =>
    rw [hw] at h
    simp only [hb.generation]
    exact hb.accepts h
  | removing retry keys =>
    rw [hw] at h
    simp only [hb.generation]
    exact ⟨hb.accepts h.1, fun u hu => h.2 u (hb.pending u hu)⟩
  | collecting retry =>
    rw [hw] at h
    exact hb.attended h
  | resending retry keys =>
    rw [hw] at h
    refine ⟨hb.attended h.1, fun u hu => ?_⟩
    rw [hb.written, hb.generation]
    exact h.2 u (hb.pending u hu)

theorem beside_readerStep {a : Action ρ} (ht : readerStep s a = some t) : t.writer = s.writer ∧ Beside s t := by
  have hbecome : ∀ {g : ℕ} {r : Reader}, Attended s → (s.reader g = .reading → r = .dying) →
      (s.reader g ≠ .reading → g = s.generation → s.reader g ≠ .dying) →
      (s.become g r).reader s.generation = .reading ∨ (s.become g r).reader s.generation = .dying ∨
        s.died = some s.generation := by
    intro g r hatt hdying hother
    by_cases hg : s.generation = g
    · subst hg
      rcases hatt with h | h | h
      · exact .inr (.inl (by simp [State.become, hdying h]))
      · exact absurd h (hother (by simp [h]) rfl)
      · exact .inr (.inr h)
    · simpa [State.become, hg, Attended] using hatt
  unfold readerStep at ht
  split at ht
  case h_1 g =>
    split at ht
    case h_1 unique r rest hr hf =>
      cases ht
      exact ⟨rfl, rfl, rfl, fun u hu => (Core.mem_send.mp hu).2, id, id⟩
    case h_2 rest hr hf =>
      cases ht
      exact ⟨rfl, rfl, rfl, fun _ => id, fun hatt => hbecome hatt (fun _ => rfl) (fun hne => absurd hr hne), id⟩
    case h_3 => cases ht
  case h_2 g =>
    split at ht
    case isFalse => cases ht
    case isTrue hr =>
      cases ht
      exact ⟨rfl, rfl, rfl, fun _ => id, fun hatt => hbecome hatt (fun _ => rfl) (fun hne => absurd hr hne), id⟩
  case h_3 g =>
    split at ht
    case isFalse => cases ht
    case isTrue hr =>
      cases ht
      refine ⟨rfl, rfl, rfl, fun _ => id, fun hatt => ?_, id⟩
      by_cases hg : s.generation = g
      · exact .inr (.inr (by rw [← hg]; rfl))
      · rcases hatt with h | h | h
        · exact .inl (by simp [State.become, hg, h])
        · exact .inr (.inl (by simp [State.become, hg, h]))
        · simp [hr.2] at h
  case h_4 => cases ht

theorem inv_resume {retry : Option ℕ} (h : Settled s fun _ => False) : Inv { s with writer := resume retry } := by
  cases retry with
  | none => exact h
  | some unique => exact h

theorem inv_writerStep {a : Action ρ} (h : Inv s) (hc : reconnectsWell s a = true) (ht : writerStep eio s a = some t) :
    Inv t := by
  unfold writerStep at ht
  split at ht
  · split at ht
    case h_2 => cases ht
    case h_1 req rest hw hreq =>
      cases ht
      simp only [Inv, hw] at h
      exact h
  · split at ht
    case h_2 => cases ht
    case h_1 req hw =>
      simp only [Inv, hw] at h
      split at ht
      · cases ht
        rcases h with ⟨hatt, hall⟩ | ⟨hdead, hall⟩
        · refine .inl ⟨hatt, fun u hu => ?_⟩
          rcases Core.mem_register hu with rfl | hu
          · exact .inl rfl
          · exact (hall u hu).imp False.elim id
        · refine .inr ⟨hdead, fun u hu => ?_⟩
          rcases Core.mem_register hu with rfl | hu
          · exact rfl
          · exact (hall u hu).elim
      · cases ht
        refine Settled.beside h ⟨rfl, rfl, fun u hu => ?_, id, id⟩
        rwa [Core.pending_drop] at hu
  · split at ht
    case h_2 => cases ht
    case h_1 unique retry hw =>
      simp only [Inv, hw] at h
      split at ht
      case isFalse => cases ht; trivial
      case isTrue hacc =>
        cases ht
        rcases h with ⟨hatt, hall⟩ | ⟨hdead, -⟩
        · refine .inl ⟨hatt, fun u hu => .inr ?_⟩
          by_cases hu' : u = unique
          · subst hu'
            simp
          · simpa [hu'] using (hall u hu).resolve_left hu'
        · cases hdead.symm.trans hacc
  · split at ht
    case h_2 => cases ht
    case h_1 g hw hd =>
      cases ht
      simp only [Inv, hw] at h
      split
      case isTrue => trivial
      case isFalse hg =>
        refine Settled.beside h ⟨rfl, rfl, fun _ => id, fun hatt => ?_, id⟩
        rcases hatt with hr | hr | hr
        · exact .inl hr
        · exact .inr (.inl hr)
        · cases hd.symm.trans hr
          exact absurd rfl hg
  case h_5 ok =>
    split at ht
    case h_2 => cases ht
    case h_1 retry attempt hw =>
      split at ht
      case isTrue => cases ht; trivial
      case isFalse hno =>
        split at ht
        case isTrue hge =>
          cases ht
          have hok : ok = false := by simpa using hno
          subst hok
          simp only [reconnectsWell, hw, Bool.or_eq_true, decide_eq_true_eq, Bool.not_eq_true'] at hc
          exact hc.resolve_left (by omega)
        case isFalse => cases ht; trivial
  case h_6 ok =>
    split at ht
    case h_2 => cases ht
    case h_1 retry hw =>
      split at ht
      case isTrue =>
        cases ht
        exact .inl (by simp [State.become])
      case isFalse hno =>
        cases ht
        have hok : ok = false := by simpa using hno
        subst hok
        have hdead : s.accepts s.generation = false := by simpa [reconnectsWell] using hc
        exact hdead
  · split at ht
    case h_1 retry hw =>
      cases ht
      simp only [Inv, hw] at h
      exact ⟨h, fun u hu => AList.mem_keys.mp hu⟩
    case h_2 retry hw =>
      cases ht
      simp only [Inv, hw] at h
      exact ⟨h, fun u hu => .inl (AList.mem_keys.mp hu)⟩
    case h_3 => cases ht
  · split at ht
    case h_1 retry key keys hw =>
      cases ht
      simp only [Inv, hw] at h
      refine ⟨h.1, fun u hu => ?_⟩
      rw [Core.mem_send] at hu
      exact (List.mem_cons.mp (h.2 u hu.2)).resolve_left hu.1
    case h_2 retry hw =>
      cases ht
      simp only [Inv, hw] at h
      exact inv_resume (.inr ⟨h.1, fun u hu => by simpa using h.2 u hu⟩)
    case h_3 => cases ht
  · split at ht
    case h_1 retry key keys hw =>
      cases ht
      simp only [Inv, hw] at h
      refine ⟨h.1, fun u hu => ?_⟩
      have hmem : u ∈ s.core.pending := hu
      by_cases hk : u = key
      · subst hk
        have htaken : s.accepts s.generation = true := by simpa [reconnectsWell, hw, hmem] using hc
        exact .inr (by simp [hmem, htaken])
      · rcases h.2 u hu with hin | hwritten
        · exact .inl ((List.mem_cons.mp hin).resolve_left hk)
        · refine .inr ?_
          simp only
          split
          · rw [Function.update_of_ne hk]
            exact hwritten
          · exact hwritten
    case h_2 retry hw =>
      cases ht
      simp only [Inv, hw] at h
      exact inv_resume (.inl ⟨h.1, fun u hu => .inr (by simpa using h.2 u hu)⟩)
    case h_3 => cases ht
  · split at ht
    case h_1 unique hw =>
      cases ht
      simp only [Inv, hw] at h
      exact h
    case h_2 => cases ht
  · cases ht

theorem inv_next (a : Action ρ) (h : Inv s) (hc : reconnectsWell s a = true) (ht : next eio capacity s a = some t) :
    Inv t := by
  unfold next at ht
  split at ht
  case h_1 a =>
    simp only [Option.map_eq_some_iff] at ht
    obtain ⟨k, hstep, rfl⟩ := ht
    refine h.beside rfl ⟨rfl, rfl, fun u hu => ?_, id, id⟩
    rwa [(Core.sent_callStep hstep).2] at hu
  case h_2 g frame =>
    cases ht
    refine h.beside rfl ⟨rfl, rfl, fun u hu => ?_, id, id⟩
    cases frame <;> exact hu
  case h_3 g =>
    cases ht
    refine h.beside rfl ⟨rfl, rfl, fun _ => id, id, fun hdead => ?_⟩
    by_cases hg : s.generation = g
    · simp [hg]
    · simpa [hg] using hdead
  case h_4 g | h_5 g | h_6 g =>
    obtain ⟨hsame, hb⟩ := beside_readerStep ht
    exact h.beside hsame hb
  case h_7 => exact inv_writerStep h hc ht

theorem attended (h : ((system eio capacity).restrict reconnectsWell).Reachable s) (hw : s.writer = .waiting)
    {unique : ℕ} (hu : unique ∈ s.core.pending) : s.written unique = some s.generation ∧ Attended s := by
  have hinv : Inv s := by
    refine h.invariant (P := Inv) ?_ fun _ a _ hs ht => ?_
    · rintro s rfl
      exact .inl ⟨.inl (by simp [initial]), by simp [initial, Core.initial]⟩
    · obtain ⟨hc, hn⟩ := System.restrict_next ht
      exact inv_next a hs hc hn
  simp only [Inv, hw] at hinv
  rcases hinv with ⟨hatt, hall⟩ | ⟨-, hall⟩
  · exact ⟨(hall unique hu).resolve_left id, hatt⟩
  · exact (hall unique hu).elim

end Reconnect

theorem no_orphaned_request (eio : ρ) (capacity : ℕ) :
    (∀ s, ((Plain.system eio capacity).restrict Plain.leavesDead).Reachable s → s.writer = .waiting →
      ∀ unique ∈ s.core.pending, Plain.Attended s unique) ∧
    (∀ s, ((Reconnect.system eio capacity).restrict Reconnect.reconnectsWell).Reachable s → s.writer = .waiting →
      ∀ unique ∈ s.core.pending, s.written unique = some s.generation ∧ Reconnect.Attended s) ∧
    (∀ s, (Plain.system eio capacity).Reachable s → ∀ call, (s.core.responses call).length ≤ 1 ∧
      ∀ r ∈ s.core.responses call, r = eio ∨ (uniqueOf call, r) ∈ s.core.sent) ∧
    (∀ s, (Reconnect.system eio capacity).Reachable s → ∀ call, (s.core.responses call).length ≤ 1 ∧
      ∀ r ∈ s.core.responses call, r = eio ∨ (uniqueOf call, r) ∈ s.core.sent) := by
  refine ⟨?_, ?_, ?_, ?_⟩
  · exact fun s hs hw unique hu => Plain.attended hs hw hu
  · exact fun s hs hw unique hu => Reconnect.attended hs hw hu
  · intro s hs call
    have hok := (Plain.answers_reachable hs).ok
    exact ⟨hok.at_most_one call, hok.own call⟩
  · intro s hs call
    have hok := (Reconnect.answers_reachable hs).ok
    exact ⟨hok.at_most_one call, hok.own call⟩

def plainRequest : List (Plain.Action ℕ) :=
  [.call (.take true true), .call (.submit 0), .receive, .handle, .write]

def reconnectRequest : List (Reconnect.Action ℕ) :=
  [.call (.take true true), .call (.submit 0), .receive, .handle, .write]

theorem no_orphaned_request_first :
    (∃ s, ((Plain.system 5 4).restrict Plain.leavesDead).Reachable s ∧ 1 ∈ s.core.pending ∧ Plain.Attended s 1) ∧
      ∃ s, ((Reconnect.system 5 4).restrict Reconnect.reconnectsWell).Reachable s ∧ 1 ∈ s.core.pending ∧
        s.written 1 = some s.generation ∧ Reconnect.Attended s := by
  constructor
  · have hrun : ∃ s, ((Plain.system 5 4).restrict Plain.leavesDead).exec Plain.initial plainRequest = some s ∧
        s.writer = .waiting ∧ 1 ∈ s.core.pending := ⟨_, rfl, by decide⟩
    obtain ⟨s, hexec, hw, hu⟩ := hrun
    have hreach := (System.Reachable.initial (M := (Plain.system 5 4).restrict Plain.leavesDead) rfl).exec hexec
    exact ⟨s, hreach, hu, (no_orphaned_request 5 4).1 s hreach hw 1 hu⟩
  · have hrun : ∃ s, ((Reconnect.system 5 4).restrict Reconnect.reconnectsWell).exec Reconnect.initial
        reconnectRequest = some s ∧ s.writer = .waiting ∧ 1 ∈ s.core.pending := ⟨_, rfl, by decide⟩
    obtain ⟨s, hexec, hw, hu⟩ := hrun
    have hreach := (System.Reachable.initial (M := (Reconnect.system 5 4).restrict Reconnect.reconnectsWell) rfl).exec
      hexec
    exact ⟨s, hreach, hu, (no_orphaned_request 5 4).2.1 s hreach hw 1 hu⟩

/-- A frame that cannot be decoded ends the reader, and the next request is written to a socket nobody reads. In the
second run sixty failed attempts to reconnect come between. In the third the new socket refuses the request when it is
sent again. -/
theorem orphaned_request :
    (∃ s, (Plain.system 5 4).Reachable s ∧ s.writer = .waiting ∧ 1 ∈ s.core.pending ∧ ¬ Plain.Attended s 1) ∧
      (∃ s, (Reconnect.system 5 4).Reachable s ∧ s.writer = .waiting ∧ 1 ∈ s.core.pending ∧
        ¬ Reconnect.Attended s ∧ s.written 1 = some 0 ∧ s.reader 0 = .exited) ∧
      ∃ s, (Reconnect.system 5 4).Reachable s ∧ s.writer = .waiting ∧ 1 ∈ s.core.pending ∧
        s.written 1 = some 0 ∧ s.reader 0 = .exited ∧ s.generation = 1 ∧ s.reader 1 = .reading ∧ s.died = none := by
  refine ⟨?_, ?_, ?_⟩
  · have hrun : ∃ s, (Plain.system 5 4).exec Plain.initial
        ([.serve .bad, .read, .collect, .remove] ++ plainRequest) = some s ∧
        s.writer = .waiting ∧ 1 ∈ s.core.pending ∧ s.reader = .exited := ⟨_, rfl, by decide⟩
    obtain ⟨s, hexec, hw, hu, hr⟩ := hrun
    refine ⟨s, (System.Reachable.initial (M := Plain.system 5 4) rfl).exec hexec, hw, hu, ?_⟩
    simp [Plain.Attended, hr]
  · have hrun : ∃ s, (Reconnect.system 5 4).exec Reconnect.initial
        ([.serve 0 .bad, .read 0, .notify 0, .notified] ++ List.replicate 60 (.attempt false) ++
          [.collect, .remove] ++ reconnectRequest) = some s ∧ s.writer = .waiting ∧ 1 ∈ s.core.pending ∧
        s.generation = 0 ∧ s.reader 0 = .exited ∧ s.died = none ∧ s.written 1 = some 0 := ⟨_, rfl, by decide⟩
    obtain ⟨s, hexec, hw, hu, hg, hr, hd, hwritten⟩ := hrun
    refine ⟨s, (System.Reachable.initial (M := Reconnect.system 5 4) rfl).exec hexec, hw, hu, ?_, hwritten, hr⟩
    simp [Reconnect.Attended, hg, hr, hd]
  · have hrun : ∃ s, (Reconnect.system 5 4).exec Reconnect.initial
        (reconnectRequest ++ [.readFails 0, .notify 0, .notified, .attempt true, .clone true, .collect, .socketFails 1,
          .resend, .resend]) = some s ∧ s.writer = .waiting ∧ 1 ∈ s.core.pending ∧ s.written 1 = some 0 ∧
        s.reader 0 = .exited ∧ s.generation = 1 ∧ s.reader 1 = .reading ∧ s.died = none := ⟨_, rfl, by decide⟩
    obtain ⟨s, hexec, hrest⟩ := hrun
    exact ⟨s, (System.Reachable.initial (M := Reconnect.system 5 4) rfl).exec hexec, hrest⟩

end Fcvm.Multiplexer
