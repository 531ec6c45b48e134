import Fcvm.ExecStdin.Flow

namespace Fcvm.ExecStdin

open Library List

section Frames

variable {frames before after : List Message} {data : List UInt8}

theorem NoEof.tail {f : Message} (h : NoEof (f :: frames)) : NoEof frames :=
  fun g hg => h g (mem_cons_of_mem _ hg)

theorem EofLast.tail (h : EofLast (.stdin data :: frames)) : EofLast frames := by
  obtain ⟨before, hno, heq⟩ := h
  cases before with
  | nil => simp at heq
  | cons f before =>
    simp only [cons_append, List.cons.injEq] at heq
    exact ⟨before, hno.tail, heq.2⟩

theorem EofLast.nothing_after (h : EofLast (before ++ .stdinEof :: after)) : after = [] := by
  obtain ⟨front, hno, heq⟩ := h
  rcases eq_nil_or_concat after with rfl | ⟨after, last, rfl⟩
  · rfl
  · rw [concat_eq_append, ← cons_append, ← append_assoc] at heq
    have hfront := (append_inj' heq rfl).1
    exact absurd rfl (hno .stdinEof (by rw [← hfront]; simp))

end Frames

namespace Inv

variable {s : State} {data : List UInt8}

variable (h : Inv s)
include h

theorem eof_mem (hmem : .stdinEof ∈ s.frames) : s.host.closed = true ∧ s.eofApplied = false ∧ EofLast s.frames := by
  have hclosed : s.host.closed = true := by
    by_contra hno
    exact (h.opened (by simpa using hno)).2 _ hmem rfl
  rcases h.closed hclosed with ⟨-, hnil, -⟩ | ⟨happlied, hlast⟩
  · simp [hnil] at hmem
  · exact ⟨hclosed, happlied, hlast⟩

theorem not_applied (hne : s.frames ≠ []) : s.eofApplied = false := by
  cases hc : s.host.closed with
  | false => exact (h.opened hc).1
  | true =>
    rcases h.closed hc with ⟨-, hnil, -⟩ | ⟨happlied, -⟩
    · exact absurd hnil hne
    · exact happlied

variable {rest : List Message} {taken : ℕ}

theorem fits (hto : s.toGuest = .stdin data :: rest) : (data.length : ℤ) ≤ s.window := by
  have hcredit := h.credit
  have hcounter := h.counter
  have hle : data.length ≤ s.wire.length := by
    simp [State.wire, hto]
  have htotal : (if s.granted then stdinWindow else 0) ≤ stdinWindow := by
    split <;> simp
  simp only [State.inFlight] at hcredit
  omega

theorem readStdin (hto : s.toGuest = .stdin data :: rest) :
    Inv { s with toGuest := rest, window := s.window - data.length, queue := s.queue ++ [.stdin data] } := by
  have hframes : s.queue.map HostInput.message ++ [Message.stdin data] ++ rest = s.frames := by
    simp [State.frames, hto]
  exact { h with
    credit := by
      have hcredit := h.credit
      simp only [State.credit_eq, hto, dataOf_stdin,
        queueData_append, queueData_stdin, queueData_nil, append_nil, length_append] at hcredit ⊢
      omega
    counter := by
      have hcounter := h.counter
      simp only [State.guestHeld, State.queued, queueData_append, queueData_stdin, queueData_nil, append_nil,
        length_append] at hcounter ⊢
      omega
    ordered := fun hup => by
      have hord := h.ordered hup
      simp only [State.pending, State.wire, State.queued, hto] at hord ⊢
      rw [← hord]
      simp
    opened := fun hc => by
      obtain ⟨happlied, hno⟩ := h.opened hc
      refine ⟨happlied, ?_⟩
      rw [← hframes] at hno
      simpa [State.frames, HostInput.message] using hno
    closed := fun hc => by
      have hcl := h.closed hc
      rw [← hframes] at hcl
      simpa [State.frames, HostInput.message] using hcl
    ended := fun he => by
      have hnil := (h.ended he).2
      simp [hto] at hnil
    full := fun d hd => h.full d (by rw [hto]; exact mem_cons_of_mem _ hd) }

theorem readEof (hto : s.toGuest = .stdinEof :: rest) :
    Inv { s with toGuest := rest, ended := true, queue := s.queue ++ [.eof] } := by
  have hframes : s.queue.map HostInput.message ++ [Message.stdinEof] ++ rest = s.frames := by
    simp [State.frames, hto]
  obtain ⟨hclosed, -, hlast⟩ := h.eof_mem (by rw [← hframes]; simp)
  have hrest : rest = [] := by
    rw [State.frames, hto] at hlast
    exact hlast.nothing_after
  exact { h with
    credit := by
      have hcredit := h.credit
      simp only [State.credit_eq, hto,
        dataOf_stdinEof, queueData_append, queueData_eof, queueData_nil, append_nil] at hcredit ⊢
      omega
    counter := by
      have hcounter := h.counter
      simpa [State.guestHeld, State.queued] using hcounter
    ordered := fun hup => by
      have hord := h.ordered hup
      simp only [State.pending, State.wire, State.queued, hto] at hord ⊢
      rw [← hord]
      simp
    opened := fun hc => by
      cases hclosed.symm.trans hc
    closed := fun hc => by
      have hcl := h.closed hc
      rw [← hframes] at hcl
      simpa [State.frames, HostInput.message] using hcl
    ended := fun _ => ⟨hclosed, hrest⟩
    full := fun d hd => by simp [hrest] at hd }

theorem takeStdin {rest : List HostInput} {applying : Applying} (hw : s.applying = .waiting)
    (hst : s.started = true) (hq : s.queue = .stdin data :: rest) (hheld : applying.held = data.length)
    (hgrant : applying.grant = 0) (hleft : s.hungUp = false → applying.left = data)
    (halive : ∀ taken left, applying = .writing taken left → s.hungUp = false) :
    Inv { s with queue := rest, applying := applying } := by
  have hframes : s.frames = .stdin data :: (rest.map HostInput.message ++ s.toGuest) := by
    simp [State.frames, hq, HostInput.message]
  have happlied := h.not_applied (by simp [hframes])
  exact { h with
    credit := by
      have hcredit := h.credit
      simp only [State.credit_eq, hq, hw, hheld, hgrant,
        queueData_stdin, length_append, Applying.held_waiting, Applying.grant_waiting] at hcredit ⊢
      omega
    unstarted := fun hno => by
      rw [show s.started = false from hno] at hst
      cases hst
    counter := by
      have hcounter := h.counter
      simp only [State.guestHeld, State.queued, hq, hw, hheld, queueData_stdin, length_append,
        Applying.held_waiting] at hcounter ⊢
      omega
    ordered := fun hup => by
      have hord := h.ordered hup
      simp only [State.pending, State.wire, State.queued, hq, hw, hleft hup] at hord ⊢
      rw [← hord]
      simp
    opened := fun hc => by
      obtain ⟨-, hno⟩ := h.opened hc
      rw [hframes] at hno
      exact ⟨happlied, hno.tail⟩
    closed := fun hc => by
      rcases h.closed hc with ⟨happ, -⟩ | ⟨-, hlast⟩
      · cases happlied.symm.trans happ
      · rw [hframes] at hlast
        exact .inr ⟨happlied, hlast.tail⟩
    alive := halive }

theorem takeEof {rest : List HostInput} (hw : s.applying = .waiting) (hst : s.started = true)
    (hq : s.queue = .eof :: rest) :
    Inv { s with queue := rest, stdin := if s.stdin = some .pipe then none else s.stdin, eofApplied := true } := by
  have hframes : s.frames = [] ++ .stdinEof :: (rest.map HostInput.message ++ s.toGuest) := by
    simp [State.frames, hq, HostInput.message]
  obtain ⟨hclosed, -, hlast⟩ := h.eof_mem (by rw [hframes]; simp)
  rw [hframes] at hlast
  have hnil := hlast.nothing_after
  exact { h with
    credit := by
      have hcredit := h.credit
      simp only [State.credit_eq, hq,
        queueData_eof] at hcredit ⊢
      omega
    unstarted := fun hno => by
      rw [show s.started = false from hno] at hst
      cases hst
    counter := by
      have hcounter := h.counter
      simpa [State.guestHeld, State.queued, hq] using hcounter
    ordered := fun hup => by
      have hord := h.ordered hup
      simp only [State.pending, State.wire, State.queued, hq] at hord ⊢
      rw [← hord]
      simp
    opened := fun hc => by
      cases hclosed.symm.trans hc
    closed := fun _ => .inl ⟨rfl, hnil, by simp [hw]⟩
    sink := fun _ => .inr rfl
    hung := fun hup => by
      simp [h.hung hup] }

theorem deliver {n : ℕ} {left : List UInt8} (hw : s.applying = .writing taken left) :
    Inv { s with
      applying := if n = left.length then .written taken else .writing taken (left.drop n)
      delivered := s.delivered ++ left.take n } := by
  have halive := h.alive taken left hw
  have happ : ∀ a : Applying, a = (if n = left.length then .written taken else .writing taken (left.drop n)) →
      a.held = taken ∧ a.grant = 0 ∧ a.left = left.drop n := by
    rintro a rfl
    split
    case isTrue heq => simp [heq]
    case isFalse => simp
  obtain ⟨hheld, hgrant, hleft⟩ := happ _ rfl
  have hord := h.ordered halive
  simp only [State.pending, hw, Applying.left_writing] at hord
  have hnew : s.delivered ++ left.take n ++ (left.drop n ++ s.queued ++ s.wire ++ s.host.held) = s.input := by
    rw [← hord]
    simp only [append_assoc, append_cancel_left_eq]
    rw [← append_assoc, take_append_drop]
  exact { h with
    credit := by
      have hcredit := h.credit
      simp only [State.credit_eq, hw, hheld, hgrant,
        Applying.held_writing, Applying.grant_writing] at hcredit ⊢
      omega
    unstarted := fun hno => by
      have hwait := (h.unstarted hno).2.2
      simp [hw] at hwait
    counter := by
      have hcounter := h.counter
      simp only [State.guestHeld, State.queued, hw, hheld, Applying.held_writing] at hcounter ⊢
      omega
    ordered := fun _ => by
      simp only [State.pending, hleft]
      exact hnew
    started := ⟨_, hnew⟩
    closed := fun hc => by
      refine (h.closed hc).imp ?_ id
      rintro ⟨h1, h2, h3⟩
      simp only [hw, Applying.left_writing] at h3
      exact ⟨h1, h2, by rw [hleft, h3]; simp⟩
    alive := fun _ _ _ => halive }

theorem close {left : List UInt8} (hw : s.applying = .writing taken left) :
    Inv { s with applying := .written taken, stdin := none, hungUp := true } := by
  exact { h with
    credit := by
      have hcredit := h.credit
      simp only [State.credit_eq, hw, Applying.held_writing, Applying.held_written, Applying.grant_writing,
        Applying.grant_written] at hcredit ⊢
      omega
    unstarted hno := by
      have hwait := (h.unstarted hno).2.2
      simp [hw] at hwait
    counter := by
      have hcounter := h.counter
      simp only [State.guestHeld, State.queued, hw, Applying.held_writing, Applying.held_written] at hcounter ⊢
      omega
    ordered hup := by cases hup
    closed hc := (h.closed hc).imp (fun hcl => ⟨hcl.1, hcl.2.1, rfl⟩) id
    sink _ := .inl rfl
    alive _ _ hno := by cases hno
    hung _ := rfl }

theorem turn {applying : Applying} {toHost : List ℕ} {window : ℤ} (hw : s.applying ≠ .waiting)
    (hold : s.applying.left = []) (hleft : applying.left = [])
    (hsum : applying.held + (toHost.sum + applying.grant) = s.applying.held + (s.toHost.sum + s.applying.grant))
    (hwindow : window + applying.held = s.window + s.applying.held)
    (halive : ∀ taken left, applying ≠ .writing taken left) :
    Inv { s with applying := applying, toHost := toHost, window := window } := by
  exact { h with
    credit := by
      have hcredit := h.credit
      simp only [State.credit_eq] at hcredit ⊢
      omega
    unstarted hno := absurd (h.unstarted hno).2.2 hw
    counter := by
      have hcounter := h.counter
      simp only [State.guestHeld, State.queued] at hcounter ⊢
      omega
    ordered hup := by
      have hord := h.ordered hup
      simpa [State.pending, State.wire, State.queued, hold, hleft] using hord
    closed hc := (h.closed hc).imp (fun hcl => ⟨hcl.1, hcl.2.1, hleft⟩) id
    alive taken left heq := absurd heq (halive taken left) }

theorem reopen (hw : s.applying = .written taken) :
    Inv { s with applying := .granting taken, window := s.window + taken } := by
  apply h.turn <;> simp [hw, Nat.add_comm]

theorem sendGrant (hw : s.applying = .granting taken) :
    Inv { s with applying := .waiting, toHost := s.toHost ++ [taken] } := by
  apply h.turn <;> simp [hw]

theorem start (hst : s.started = false) (sent : Bool) :
    Inv { s with started := true, granted := sent, toHost := if sent then [stdinWindow] else [] } := by
  exact { h with
    credit := by
      have hcredit := h.credit
      obtain ⟨hgranted, hnil, hwait⟩ := h.unstarted hst
      simp only [State.credit_eq, hgranted, hnil,
        Bool.false_eq_true, if_false, sum_nil] at hcredit ⊢
      cases sent <;> simp only [if_true, Bool.false_eq_true, if_false, sum_nil, sum_singleton] <;> omega
    unstarted hno := by cases hno }

end Inv

end Fcvm.ExecStdin
