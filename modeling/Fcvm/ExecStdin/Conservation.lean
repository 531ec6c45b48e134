import Fcvm.ExecStdin.Guest

namespace Fcvm.ExecStdin

open Library Option

variable {s t : State}

theorem inv_readFrame (h : Inv s) (ht : readFrame s = some t) : Inv t := by
  unfold readFrame at ht
  split at ht
  case h_1 => cases ht
  case h_2 data rest hto =>
    have hne : data.isEmpty = false := by
      have hfull := h.full data (by rw [hto]; exact List.mem_cons_self)
      cases data with
      | nil => exact absurd rfl hfull
      | cons b data => rfl
    have hfits := h.fits hto
    simp only [hne, Bool.false_eq_true, if_false, if_neg (Int.not_lt.mpr hfits), some.injEq] at ht
    subst ht
    exact h.readStdin hto
  case h_3 rest hto =>
    have hended : s.ended = false := by
      by_contra he
      have hnil := (h.ended (by simpa using he)).2
      simp [hto] at hnil
    simp only [hended, Bool.false_eq_true, if_false, some.injEq] at ht
    subst ht
    exact h.readEof hto

theorem inv_takeInput (h : Inv s) (hst : s.started = true) (ht : takeInput s = some t) : Inv t := by
  unfold takeInput at ht
  split at ht
  case h_1 data rest hw hq =>
    simp only [some.injEq] at ht
    subst ht
    have hframes : s.frames ≠ [] := by simp [State.frames, hq]
    apply h.takeStdin hw hst hq
    · split <;> rfl
    · split <;> rfl
    · intro hup
      split
      case isTrue => rfl
      case isFalse hnone =>
        -- stdin is closed though the command never hung up: the end of input was applied, and nothing follows it
        rcases h.sink (by simpa using hnone) with hhung | happlied
        · cases hup.symm.trans hhung
        · simp [h.not_applied hframes] at happlied
    · intro taken left heq
      split at heq
      case isTrue hsome =>
        by_contra hup
        simp [h.hung (by simpa using hup)] at hsome
      case isFalse => cases heq
  case h_2 rest hw hq =>
    simp only [some.injEq] at ht
    subst ht
    exact h.takeEof hw hst hq
  case h_3 => cases ht

theorem inv_guestStep {a : Action} (h : Inv s) (hst : s.started = true ∨ (a ≠ .takeInput))
    (ht : guestStep s a = some t) : Inv t := by
  unfold guestStep at ht
  split at ht
  · split at ht
    case isTrue => cases ht
    case isFalse => exact inv_readFrame h ht
  · exact inv_takeInput h (hst.resolve_right (by simp)) ht
  · split at ht
    case h_2 => cases ht
    case h_1 n taken left hw =>
      split at ht
      case isFalse => cases ht
      case isTrue =>
        cases ht
        exact h.deliver hw
  · split at ht
    case h_2 => cases ht
    case h_1 taken left hw => cases ht; exact h.close hw
  · split at ht
    case h_2 => cases ht
    case h_1 taken hw => cases ht; exact h.reopen hw
  · split at ht
    case h_2 => cases ht
    case h_1 taken hw => cases ht; exact h.sendGrant hw
  · cases ht

theorem inv_next (a : Action) (h : Inv s) (ht : next s a = some t) : Inv t := by
  unfold next at ht
  split at ht
  · split at ht
    case isTrue => cases ht
    case isFalse hst =>
      cases ht
      exact h.start (by simpa using hst) _
  · split at ht
    case isTrue hst => exact inv_guestStep h (.inl hst) ht
    case isFalse => cases ht
  · split at ht
    case isTrue hst => exact inv_guestStep h (.inl hst) ht
    case isFalse => cases ht
  · exact inv_guestStep h (.inr (by simp)) ht
  · exact inv_guestStep h (.inr (by simp)) ht
  · exact inv_guestStep h (.inr (by simp)) ht
  · exact inv_guestStep h (.inr (by simp)) ht
  · exact inv_hostStep h ht

theorem inv_reachable (h : system.Reachable s) : Inv s := by
  refine h.invariant (P := Inv) ?_ fun _ a _ hs ht => inv_next a hs ht
  rintro s ⟨host, sink, hhost, rfl⟩
  exact inv_initial hhost sink

theorem Inv.queued_le (h : Inv s) : s.queued.length ≤ stdinWindow := by
  have hcredit := h.credit
  have htotal : (if s.granted then stdinWindow else 0) ≤ stdinWindow := by
    split <;> simp
  simp only [State.guestHeld] at hcredit
  omega

theorem Inv.all_dealt (h : Inv s) (happlied : s.eofApplied = true) : s.pending = [] := by
  have hclosed : s.host.closed = true := by
    by_contra hno
    rw [(h.opened (by simpa using hno)).1] at happlied
    cases happlied
  rcases h.closed hclosed with ⟨-, hnil, hleft⟩ | ⟨hno, -⟩
  · simp only [State.frames, List.append_eq_nil_iff, List.map_eq_nil_iff] at hnil
    have hheld : s.host.held = [] := by
      cases hh : s.host with
      | forward available at_ => cases at_ <;> simp_all [Host.closed, Host.held]
      | terminal input sending => simp [hh, Host.closed] at hclosed
    simp [State.pending, State.queued, State.wire, hleft, hnil.1, hnil.2, hheld]
  · cases happlied.symm.trans hno

theorem stdin_window_conserved (h : system.Reachable s) :
    (s.granted = true → s.host.unspent + s.inFlight + s.guestHeld + s.grants = stdinWindow) ∧
      s.queued.length ≤ stdinWindow ∧
      s.beyond = false ∧
      s.delivered <+: s.input ∧
      (s.hungUp = false → s.delivered ++ s.pending = s.input) ∧
      (s.eofApplied = true → s.pending = [] ∧ (s.hungUp = false → s.delivered = s.input)) := by
  have hinv := inv_reachable h
  refine ⟨?_, hinv.queued_le, hinv.within, hinv.started, hinv.ordered, ?_⟩
  · intro hgranted
    simpa [hgranted] using hinv.credit
  · intro happlied
    have hnil := hinv.all_dealt happlied
    refine ⟨hnil, fun hup => ?_⟩
    simpa [hnil] using hinv.ordered hup

def echoRun : List Action :=
  [.start true, .grant, .load, .read [104, 105], .write, .readFrame, .takeInput, .deliver 1, .spend, .deliver 1,
    .reopen, .load, .sendGrant, .endOfInput, .readFrame, .takeInput]

theorem stdin_window_conserved_echo :
    ∃ s, system.Reachable s ∧ s.granted = true ∧ s.eofApplied = true ∧ s.hungUp = false ∧
      s.host.unspent + s.inFlight + s.guestHeld + s.grants = stdinWindow ∧ s.delivered = s.input ∧
      s.input = [104, 105] := by
  have hrun : ∃ s, system.exec (initial (.forward 0 .top) .pipe) echoRun = some s ∧ s.granted = true ∧
      s.eofApplied = true ∧ s.hungUp = false ∧ s.input = [104, 105] := ⟨_, rfl, by decide⟩
  obtain ⟨s, hexec, hgranted, happlied, hup, hinput⟩ := hrun
  have hinit : system.initial (initial (.forward 0 .top) .pipe) := ⟨.forward 0 .top, .pipe, ⟨rfl, rfl⟩, rfl⟩
  have hreach : system.Reachable s := (System.Reachable.initial hinit).exec hexec
  obtain ⟨hsum, -, -, -, -, heof⟩ := stdin_window_conserved hreach
  exact ⟨s, hreach, hgranted, happlied, hup, hsum hgranted, (heof happlied).2 hup, hinput⟩

end Fcvm.ExecStdin
