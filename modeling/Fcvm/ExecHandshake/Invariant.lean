import Fcvm.ExecHandshake.Model

namespace Fcvm.ExecHandshake

open Library List Option

variable {line line' consumed rest : Bytes} {read : Read} {c d : Conn} {attempt : ℕ} {client : Client}

section Lines

variable (serde : Serde) (request : ExecRequest)

def requestLine : Bytes := serde.toString request ++ [newline]

def ackLine : Bytes := HANDSHAKE_ACK ++ [newline]

def goLine : Bytes := HANDSHAKE_GO ++ [newline]

def script : Bytes := requestLine serde request ++ goLine

def Guest.Holds : Guest → Bytes → Prop
  | .reading line, consumed => consumed = line ∧ newline ∉ line
  | .acking r _, consumed => consumed = requestLine serde request ∧ r = request
  | .go r line, consumed => consumed = requestLine serde request ++ line ∧ newline ∉ line ∧ r = request
  | .started r, consumed => consumed = script serde request ∧ r = request
  | .rejecting _, _ => True
  | .closed, _ => True

structure Conn.Valid (c : Conn) : Prop where
  sent : c.toGuest.written <+: script serde request
  guest : c.guest.Holds serde request c.toGuest.consumed

end Lines

def CallError.afterAck : CallError → Bool
  | .diedSendingGo => true
  | .setSessionTimeouts => true
  | _ => false

def Client.At (serde : Serde) (request : ExecRequest) (written consumed : Bytes) : Client → Prop
  | .connecting _ => written <+: requestLine serde request
  | .connected _ => written = [] ∧ consumed = []
  | .sending _ rest => written ++ rest = requestLine serde request ∧ consumed = []
  | .waiting _ line => written = requestLine serde request ∧ consumed = line ∧ newline ∉ line
  | .going rest => written ++ rest = script serde request ∧ consumed = ackLine
  | .resuming => written = script serde request ∧ consumed = ackLine
  | .returned (.ok _) => written = script serde request ∧ consumed = ackLine
  | .returned (.error e) => if e.afterAck then consumed = ackLine else written <+: requestLine serde request

def Client.Holds (serde : Serde) (request : ExecRequest) (client : Client) (c : Conn) : Prop :=
  client.At serde request c.toGuest.written c.toClient.consumed

structure Inv (serde : Serde) (request : ExecRequest) (w : World) : Prop where
  conns : ∀ c ∈ w.conns, c.Valid serde request
  earlier : ∀ c ∈ w.conns.tail, c.toGuest.written <+: requestLine serde request
  client : ∀ c ∈ w.conns.head?, w.client.Holds serde request c

variable {serde : Serde} {request : ExecRequest}

theorem Conn.fresh_valid (answer : Bytes) : (Conn.fresh answer).Valid serde request :=
  ⟨List.nil_prefix, rfl, not_mem_nil⟩

def Read.after (consumed : Bytes) : Read → Bytes
  | .byte b => consumed ++ [b]
  | .none _ => consumed

theorem Read.after_append (before : Bytes) (read : Read) : read.after (before ++ line) = before ++ read.after line := by
  cases read with
  | byte b => exact append_assoc ..
  | none reason => rfl

theorem notMem_after_byte {b : UInt8} (hb : b ≠ newline) (hline : newline ∉ line) :
    newline ∉ (Read.byte b).after line := by
  rw [Read.after, mem_append, mem_singleton]
  exact fun hmem => hmem.elim hline fun heq => hb heq.symm

/-- A read that does not end the line: it goes on with what was read, which is not a newline. -/
theorem readLineBounded_inl {maxLen : ℕ} (h : readLineBounded maxLen line read = .inl line') (hline : newline ∉ line) :
    line' = read.after line ∧ newline ∉ line' := by
  cases read with
  | byte b =>
    simp only [readLineBounded] at h
    split at h
    · cases h
    · next hb =>
      split at h
      · cases h
      · cases h
        exact ⟨rfl, notMem_after_byte hb hline⟩
  | none reason =>
    cases reason with
    | interrupted =>
      cases h
      exact ⟨rfl, hline⟩
    | _ => cases h

theorem readLineBounded_ok {maxLen : ℕ}
    (h : readLineBounded maxLen line read = .inr (.ok line')) : read = .byte newline ∧ line' = line := by
  cases read with
  | byte b =>
    simp only [readLineBounded] at h
    split at h
    · next hb =>
      cases h
      exact ⟨by rw [hb], rfl⟩
    · split at h <;> cases h
  | none reason => cases reason <;> cases h

theorem Guest.afterRequest_holds (hserde : serde.Lawful request)
    (hline : line = serde.toString request) (hconsumed : consumed = requestLine serde request) :
    (Guest.afterRequest serde line).Holds serde request consumed := by
  unfold Guest.afterRequest
  rw [hline, hserde.read]
  dsimp only
  split
  · trivial
  · exact ⟨hconsumed, rfl⟩

theorem Guest.afterRead_holds (hserde : serde.Lawful request) {g g' : Guest} (read : Read)
    (hg : g.Holds serde request consumed) (hsent : read.after consumed <+: script serde request)
    (h : g.afterRead serde read = some g') : g'.Holds serde request (read.after consumed) := by
  cases g with
  | reading line =>
    obtain ⟨rfl, hline⟩ := hg
    simp only [Guest.afterRead] at h
    split at h
    · next hread =>
      cases h
      obtain ⟨rfl, hline'⟩ := readLineBounded_inl hread hline
      exact ⟨rfl, hline'⟩
    · next hread =>
      cases h
      obtain ⟨rfl, rfl⟩ := readLineBounded_ok hread
      next line =>
      have hfirst : line = serde.toString request := by
        apply line_eq_of_prefix hline hserde.line
        simpa [Read.after, script, requestLine] using hsent
      apply Guest.afterRequest_holds hserde hfirst
      rw [hfirst]
      rfl
    · cases h
      trivial
    · cases h
      trivial
  | go r line =>
    obtain ⟨rfl, hline, rfl⟩ := hg
    simp only [Guest.afterRead] at h
    split at h
    · next hread =>
      cases h
      obtain ⟨rfl, hline'⟩ := readLineBounded_inl hread hline
      exact ⟨Read.after_append _ read, hline', rfl⟩
    · next hread =>
      cases h
      obtain ⟨rfl, rfl⟩ := readLineBounded_ok hread
      split
      · next hgo =>
        refine ⟨?_, rfl⟩
        rw [hgo]
        exact append_assoc _ _ _
      · trivial
    · cases h
      trivial
  | acking r rest => cases h
  | started r => cases h
  | rejecting rest => cases h
  | closed => cases h

theorem Guest.afterWrite_holds {g : Guest} {left : Bytes} (hg : g.Holds serde request consumed)
    (hrest : g.toWrite = some rest) : (g.afterWrite left).Holds serde request consumed := by
  cases g with
  | rejecting rest => cases left <;> trivial
  | acking r rest =>
    cases left with
    | nil => exact ⟨by rw [hg.1, append_nil], not_mem_nil, hg.2⟩
    | cons b left => exact hg
  | _ => cases hrest

theorem Conn.next_client {e : GuestEvent} (h : c.next serde e = some d) :
    d.toGuest.written = c.toGuest.written ∧ d.toClient.consumed = c.toClient.consumed := by
  cases e with
  | readByte =>
    simp only [Conn.next, bind_eq_some_iff, map_eq_some_iff] at h
    obtain ⟨⟨b, toGuest⟩, hread, guest, -, rfl⟩ := h
    exact ⟨(Pipe.read_eq hread).1, rfl⟩
  | readNone reason =>
    simp only [Conn.next, map_eq_some_iff] at h
    obtain ⟨guest, -, rfl⟩ := h
    exact ⟨rfl, rfl⟩
  | write n =>
    simp only [Conn.next, bind_eq_some_iff] at h
    obtain ⟨rest, -, h⟩ := h
    split at h
    · cases h
      exact ⟨rfl, rfl⟩
    · cases h
  | writeInterrupted | writeFailed =>
    simp only [Conn.next, map_eq_some_iff] at h
    obtain ⟨rest, -, rfl⟩ := h
    exact ⟨rfl, rfl⟩

theorem Conn.next_valid (hserde : serde.Lawful request) {e : GuestEvent} (hc : c.Valid serde request)
    (h : c.next serde e = some d) : d.Valid serde request := by
  have hsent : d.toGuest.written <+: script serde request := by
    rw [(Conn.next_client h).1]
    exact hc.sent
  refine ⟨hsent, ?_⟩
  cases e with
  | readByte =>
    simp only [Conn.next, bind_eq_some_iff, map_eq_some_iff] at h
    obtain ⟨⟨b, toGuest⟩, hread, guest, hguest, rfl⟩ := h
    have hconsumed := (Pipe.read_eq hread).2
    have hprefix := (Pipe.consumed_prefix toGuest).trans hsent
    rw [hconsumed] at hprefix
    dsimp only
    rw [hconsumed]
    exact Guest.afterRead_holds hserde (.byte b) hc.guest hprefix hguest
  | readNone reason =>
    simp only [Conn.next, map_eq_some_iff] at h
    obtain ⟨guest, hguest, rfl⟩ := h
    have hprefix := (Pipe.consumed_prefix c.toGuest).trans hc.sent
    exact Guest.afterRead_holds hserde (.none reason) hc.guest hprefix hguest
  | write n =>
    simp only [Conn.next, bind_eq_some_iff] at h
    obtain ⟨rest, hrest, h⟩ := h
    split at h
    · cases h
      exact Guest.afterWrite_holds hc.guest hrest
    · cases h
  | writeInterrupted =>
    simp only [Conn.next, map_eq_some_iff] at h
    obtain ⟨rest, -, rfl⟩ := h
    exact hc.guest
  | writeFailed =>
    simp only [Conn.next, map_eq_some_iff] at h
    obtain ⟨rest, -, rfl⟩ := h
    trivial

theorem Client.retry_holds {error : CallError} (herror : error.afterAck = false)
    (hc : c.toGuest.written <+: requestLine serde request) :
    (Client.retry attempt error).Holds serde request c := by
  unfold Client.retry
  split
  · exact hc
  · simp only [Client.Holds, Client.At, herror, Bool.false_eq_true, if_false]
    exact hc

theorem readAckLine_inl (h : readAckLine serde line read = .inl line') (hline : newline ∉ line) :
    line' = read.after line ∧ newline ∉ line' := by
  cases read with
  | byte b =>
    simp only [readAckLine] at h
    split at h
    · cases h
    · next hb =>
      split at h
      · cases h
      · cases h
        exact ⟨rfl, notMem_after_byte hb hline⟩
  | none reason =>
    cases reason with
    | interrupted =>
      cases h
      exact ⟨rfl, hline⟩
    | _ => cases h

theorem ackOutcome_acked (h : ackOutcome serde line = .acked) : line = HANDSHAKE_ACK := by
  unfold ackOutcome at h
  split at h
  · assumption
  · split at h
    · cases h
    · split at h <;> cases h

theorem readAckLine_acked (h : readAckLine serde line read = .inr .acked) :
    read = .byte newline ∧ line = HANDSHAKE_ACK := by
  cases read with
  | byte b =>
    simp only [readAckLine] at h
    split at h
    · next hb => exact ⟨by rw [hb], ackOutcome_acked (Sum.inr.inj h)⟩
    · split at h <;> cases h
  | none reason => cases reason <;> cases h

theorem Client.afterRead_holds
    (hc : (Client.waiting attempt line).Holds serde request c) (hwritten : d.toGuest.written = c.toGuest.written)
    (hconsumed : d.toClient.consumed = read.after c.toClient.consumed) :
    (Client.afterRead attempt (readAckLine serde line read)).Holds serde request d := by
  obtain ⟨hsent, rfl, hline⟩ := hc
  rw [← hwritten] at hsent
  cases hread : readAckLine serde c.toClient.consumed read with
  | inl line' =>
    obtain ⟨rfl, hline'⟩ := readAckLine_inl hread hline
    exact ⟨hsent, hconsumed, hline'⟩
  | inr outcome =>
    cases outcome with
    | acked =>
      obtain ⟨rfl, hack⟩ := readAckLine_acked hread
      refine ⟨by rw [hsent]; rfl, ?_⟩
      rw [hconsumed, hack]
      rfl
    | notAcked reason =>
      exact Client.retry_holds rfl (hsent ▸ prefix_rfl)
    | rejected reason =>
      change d.toGuest.written <+: requestLine serde request
      exact hsent ▸ prefix_rfl

theorem Client.afterWrite_holds {n : ℕ}
    (hc : client.Holds serde request c) (hrest : client.toWrite = some rest) :
    (client.afterWrite (rest.drop n)).Holds serde request { c with toGuest := c.toGuest.write (rest.take n) } := by
  have hwritten : (c.toGuest.write (rest.take n)).written ++ rest.drop n = c.toGuest.written ++ rest := by
    rw [Pipe.written_write, append_assoc, take_append_drop]
  cases client with
  | sending attempt rest' =>
    cases hrest
    cases hdrop : rest.drop n with
    | nil =>
      rw [hdrop, append_nil] at hwritten
      exact ⟨hwritten.trans hc.1, hc.2, not_mem_nil⟩
    | cons b left =>
      rw [hdrop] at hwritten
      exact ⟨hwritten.trans hc.1, hc.2⟩
  | going rest' =>
    cases hrest
    cases hdrop : rest.drop n with
    | nil =>
      rw [hdrop, append_nil] at hwritten
      exact ⟨hwritten.trans hc.1, hc.2⟩
    | cons b left =>
      rw [hdrop] at hwritten
      exact ⟨hwritten.trans hc.1, hc.2⟩
  | _ => cases hrest

theorem Client.written_prefix {n : ℕ} (hc : client.Holds serde request c)
    (hrest : client.toWrite = some rest) : (c.toGuest.write (rest.take n)).written <+: script serde request := by
  have hprefix : (c.toGuest.write (rest.take n)).written <+: c.toGuest.written ++ rest := by
    rw [Pipe.written_write, prefix_append_right_inj]
    exact take_prefix n rest
  cases client with
  | sending attempt rest' =>
    cases hrest
    rw [hc.1] at hprefix
    exact hprefix.trans (prefix_append _ _)
  | going rest' =>
    cases hrest
    rw [hc.1] at hprefix
    exact hprefix
  | _ => cases hrest

namespace Inv

variable {w : World}

theorem client_step (hw : Inv serde request w)
    (h : ∀ c, w.client.Holds serde request c → client.Holds serde request c) :
    Inv serde request { w with client := client } :=
  ⟨hw.conns, hw.earlier, fun c hc => h c (hw.client c hc)⟩

theorem fresh_step (hw : Inv serde request w) (hclient : w.client = .connecting attempt)
    {answer : Bytes} (h : client.Holds serde request (.fresh answer)) :
    Inv serde request ⟨client, .fresh answer :: w.conns⟩ := by
  refine ⟨?_, ?_, ?_⟩
  · intro c hc
    rcases mem_cons.mp hc with rfl | hc
    · exact Conn.fresh_valid answer
    · exact hw.conns c hc
  · intro c hc
    change c ∈ w.conns at hc
    obtain ⟨client, conns⟩ := w
    dsimp only at hc hclient
    subst hclient
    cases conns with
    | nil => cases hc
    | cons d conns =>
      rcases mem_cons.mp hc with rfl | hc
      · exact hw.client c rfl
      · exact hw.earlier c hc
  · intro c hc
    cases hc
    exact h

theorem head_step {client' : Client} {conns : List Conn}
    (hw : Inv serde request ⟨client, c :: conns⟩) (hd : d.Valid serde request)
    (h : client'.Holds serde request d) : Inv serde request ⟨client', d :: conns⟩ := by
  refine ⟨?_, hw.earlier, ?_⟩
  · intro x hx
    rcases mem_cons.mp hx with rfl | hx
    · exact hd
    · exact hw.conns x (mem_cons_of_mem _ hx)
  · intro x hx
    cases hx
    exact h

theorem Client.Holds.congr (h : client.Holds serde request c)
    (hwritten : d.toGuest.written = c.toGuest.written) (hconsumed : d.toClient.consumed = c.toClient.consumed) :
    client.Holds serde request d := by
  unfold Client.Holds at *
  rw [hwritten, hconsumed]
  exact h

theorem guest_step (hserde : serde.Lawful request) (hw : Inv serde request w) {i : ℕ} {e : GuestEvent}
    (hc : w.conns[i]? = some c) (h : c.next serde e = some d) :
    Inv serde request { w with conns := w.conns.set i d } := by
  have hmem := mem_of_getElem? hc
  have hsame := Conn.next_client h
  refine ⟨?_, ?_, ?_⟩
  · intro x hx
    rcases mem_or_eq_of_mem_set hx with hx | rfl
    · exact hw.conns x hx
    · exact Conn.next_valid hserde (hw.conns c hmem) h
  · obtain ⟨client, conns⟩ := w
    intro x hx
    cases conns with
    | nil => cases hc
    | cons y conns =>
      cases i with
      | zero => exact hw.earlier x hx
      | succ i =>
        rcases mem_or_eq_of_mem_set hx with hx | rfl
        · exact hw.earlier x hx
        · rw [hsame.1]
          exact hw.earlier c (mem_of_getElem? hc)
  · obtain ⟨client, conns⟩ := w
    intro x hx
    cases conns with
    | nil => cases hc
    | cons y conns =>
      cases i with
      | zero =>
        cases hc
        cases hx
        exact Client.Holds.congr (hw.client c rfl) hsame.1 hsame.2
      | succ i =>
        cases hx
        exact hw.client x rfl

theorem next (hserde : serde.Lawful request) (hw : Inv serde request w) {e : Event} {w' : World}
    (h : w.next serde request e = some w') : Inv serde request w' := by
  cases e with
  | orphaned =>
    simp only [World.next] at h
    split at h
    · next attempt hclient =>
      cases h
      apply fresh_step hw hclient
      rw [hclient]
      exact nil_prefix
    · cases h
  | connected answer =>
    simp only [World.next] at h
    split at h
    · next attempt hclient =>
      cases h
      exact fresh_step hw hclient ⟨rfl, rfl⟩
    · cases h
  | connectFailed =>
    simp only [World.next] at h
    split at h
    · next attempt hclient =>
      cases h
      apply client_step hw
      rw [hclient]
      exact fun c hc => hc
    · cases h
  | armed ok =>
    simp only [World.next] at h
    split at h
    · next attempt hclient =>
      cases h
      apply client_step hw
      rw [hclient]
      intro c hc
      cases ok with
      | true => exact ⟨by rw [hc.1]; rfl, hc.2⟩
      | false =>
        change c.toGuest.written <+: _
        rw [hc.1]
        exact nil_prefix
    · next hclient =>
      cases h
      apply client_step hw
      rw [hclient]
      intro c hc
      cases ok with
      | true => exact hc
      | false => exact hc.2
    · cases h
  | write n =>
    obtain ⟨client, conns⟩ := w
    simp only [World.next] at h
    split at h
    · next rest c conns' hrest =>
      split at h
      · cases h
        have hc := hw.client c rfl
        apply head_step hw
        · exact ⟨Client.written_prefix hc hrest, (hw.conns c mem_cons_self).guest⟩
        · exact Client.afterWrite_holds hc hrest
      · cases h
    · cases h
  | writeInterrupted =>
    simp only [World.next, map_eq_some_iff] at h
    obtain ⟨rest, -, rfl⟩ := h
    exact hw
  | writeFailed =>
    simp only [World.next] at h
    split at h
    · next attempt rest hclient =>
      cases h
      apply client_step hw
      rw [hclient]
      intro c hc
      apply Client.retry_holds rfl
      rw [← hc.1]
      exact prefix_append _ _
    · next rest hclient =>
      cases h
      apply client_step hw
      rw [hclient]
      exact fun c hc => hc.2
    · cases h
  | readByte =>
    obtain ⟨client, conns⟩ := w
    simp only [World.next] at h
    split at h
    · next attempt line c conns' =>
      simp only [map_eq_some_iff] at h
      obtain ⟨⟨b, toClient⟩, hread, rfl⟩ := h
      have hvalid := hw.conns c mem_cons_self
      apply head_step hw
      · exact ⟨hvalid.sent, hvalid.guest⟩
      · exact Client.afterRead_holds (hw.client c rfl) rfl (Pipe.read_eq hread).2
    · cases h
  | readNone reason =>
    simp only [World.next] at h
    split at h
    · next attempt line hclient =>
      cases h
      apply client_step hw
      rw [hclient]
      intro c hc
      exact Client.afterRead_holds hc rfl rfl
    · cases h
  | readUnarmed =>
    simp only [World.next] at h
    split at h
    · next attempt line hclient =>
      cases h
      apply client_step hw
      rw [hclient]
      intro c hc
      exact Client.retry_holds rfl (hc.1 ▸ prefix_rfl)
    · cases h
  | guest i e =>
    simp only [World.next, bind_eq_some_iff, map_eq_some_iff] at h
    obtain ⟨c, hc, d, hd, rfl⟩ := h
    exact guest_step hserde hw hc hd

theorem of_reachable (hserde : serde.Lawful request) (h : (system serde request).Reachable w) :
    Inv serde request w := by
  refine System.Reachable.invariant ?_ ?_ h
  · rintro w rfl
    refine ⟨?_, ?_, ?_⟩ <;> intro c hc <;> cases hc
  · exact fun w e w' hw h => next hserde hw h

end Inv

end Fcvm.ExecHandshake
