import Fcvm.ExecHandshake.Invariant

namespace Fcvm.ExecHandshake

open Library List

variable {serde : Serde} {request : ExecRequest} {w : World}

def Conn.WroteGo (serde : Serde) (request : ExecRequest) (c : Conn) : Prop :=
  (requestLine serde request).length < c.toGuest.written.length

def Client.gotAck : Client → Bool
  | .going _ => true
  | .resuming => true
  | .returned (.ok _) => true
  | .returned (.error e) => e.afterAck
  | _ => false

variable {c : Conn}

theorem Conn.Valid.started_consumed (hc : c.Valid serde request) {r : ExecRequest}
    (h : c.guest = .started r) : c.toGuest.consumed = script serde request ∧ r = request := by
  have hguest := hc.guest
  rw [h] at hguest
  exact hguest

theorem Conn.Valid.started_wroteGo (hc : c.Valid serde request) {r : ExecRequest}
    (h : c.guest = .started r) : c.WroteGo serde request := by
  have hconsumed := (Pipe.consumed_prefix c.toGuest).length_le
  rw [(hc.started_consumed h).1] at hconsumed
  unfold Conn.WroteGo
  simp only [script, goLine, HANDSHAKE_GO, length_append, length_cons, length_nil] at hconsumed
  omega

theorem not_wroteGo (h : c.toGuest.written <+: requestLine serde request) : ¬ c.WroteGo serde request := by
  have hle := h.length_le
  unfold Conn.WroteGo
  omega

theorem Inv.wroteGo_head (hw : Inv serde request w) {i : ℕ} (hc : w.conns[i]? = some c)
    (hgo : c.WroteGo serde request) : i = 0 := by
  cases i with
  | zero => rfl
  | succ i =>
    apply absurd hgo
    apply not_wroteGo
    apply hw.earlier
    rw [← getElem?_tail] at hc
    exact mem_of_getElem? hc

theorem Inv.error_before_go (hw : Inv serde request w) {e : CallError} (hclient : w.client = .returned (.error e))
    (he : e.afterAck = false) (hc : c ∈ w.conns) : ¬ c.WroteGo serde request := by
  apply not_wroteGo
  obtain ⟨client, conns⟩ := w
  dsimp only at hclient hc
  subst hclient
  cases conns with
  | nil => cases hc
  | cons d conns =>
    rcases mem_cons.mp hc with rfl | hc
    · have hhead := hw.client c rfl
      simp only [Client.Holds, Client.At, he, Bool.false_eq_true, if_false] at hhead
      exact hhead
    · exact hw.earlier c hc

theorem Client.At.consumed {client : Client} {written consumed : Bytes} (h : client.At serde request written consumed)
    (hack : client.gotAck = true) : consumed = ackLine := by
  cases client with
  | going rest => exact h.2
  | resuming => exact h.2
  | returned result =>
    cases result with
    | ok => exact h.2
    | error e =>
      simp only [Client.gotAck] at hack
      simp only [Client.At, hack, if_true] at h
      exact h
  | _ => cases hack

/-- A call starts its command on at most one of its connections, on none if it returns an error before it writes GO,
and only where the request and GO were read, each to the end of its line and no further. -/
theorem exec_at_most_once (hserde : serde.Lawful request) (h : (system serde request).Reachable w) :
    (∀ (i j : ℕ) c d r q, w.conns[i]? = some c → w.conns[j]? = some d →
      c.guest = .started r → d.guest = .started q → i = j) ∧
    (∀ e, w.client = .returned (.error e) → (e.afterAck = false ∨ ∀ c ∈ w.conns, ¬ c.WroteGo serde request) →
      ∀ c ∈ w.conns, ∀ r, c.guest ≠ .started r) ∧
    (∀ c ∈ w.conns, ∀ r, c.guest = .started r →
      r = request ∧ c.toGuest.consumed = serde.toString request ++ [newline] ++ (HANDSHAKE_GO ++ [newline])) ∧
    (w.client.gotAck = true → ∀ c ∈ w.conns.head?, c.toClient.consumed = HANDSHAKE_ACK ++ [newline]) := by
  have hw := Inv.of_reachable hserde h
  refine ⟨?_, ?_, ?_, ?_⟩
  · intro i j c d r q hc hd hr hq
    have hi := hw.wroteGo_head hc ((hw.conns c (List.mem_of_getElem? hc)).started_wroteGo hr)
    have hj := hw.wroteGo_head hd ((hw.conns d (List.mem_of_getElem? hd)).started_wroteGo hq)
    omega
  · intro e hclient hbefore c hc r hr
    have hgo := (hw.conns c hc).started_wroteGo hr
    rcases hbefore with he | hnone
    · exact hw.error_before_go hclient he hc hgo
    · exact hnone c hc hgo
  · intro c hc r hr
    obtain ⟨hconsumed, hrequest⟩ := (hw.conns c hc).started_consumed hr
    exact ⟨hrequest, hconsumed⟩
  · exact fun hack c hc => Client.At.consumed (hw.client c hc) hack

def trueRequest : ExecRequest := ⟨["true"], false, false, false, none, [], none, none, false, false⟩

/-- The line `serde_json` writes for it. -/
def trueLine : Bytes :=
  "\x7b\"command\":[\"true\"],\"in_container\":false,\"interactive\":false,\"tty\":false\x7d".toUTF8.toList

def trueSerde : Serde where
  toString _ := trueLine
  fromSlice line := if line = trueLine then .ok trueRequest else .error "expected value"
  rejectionLine reason := reason.toUTF8.toList
  parseRejection _ := none

def resentRun : List Event :=
  List.flatten [[.connected [], .armed true, .write 74, .guest 0 .readByte, .readNone .timedOut, .orphaned,
    .connected [], .armed true, .write 1, .guest 2 (.readNone .closed), .write 73],
    List.replicate 74 (.guest 0 .readByte), [.guest 0 (.write 5)], List.replicate 5 .readByte,
    [.write 3], List.replicate 3 (.guest 0 .readByte), [.armed true]]

theorem exec_at_most_once_resent :
    ∃ w, (system trueSerde trueRequest).Reachable w ∧ w.client.gotAck = true ∧
      (∃ c ∈ w.conns.head?, c.guest = .started trueRequest ∧ c.toClient.consumed = HANDSHAKE_ACK ++ [newline]) ∧
      ∀ (i : ℕ) c r, w.conns[i]? = some c → c.guest = .started r → i = 0 := by
  have hserde : trueSerde.Lawful trueRequest := ⟨by decide +kernel, by decide +kernel⟩
  have hstart : (system trueSerde trueRequest).Reachable ⟨.connecting 1, []⟩ := .initial rfl
  have hrun : (((system trueSerde trueRequest).exec ⟨.connecting 1, []⟩ resentRun).map fun w =>
      (w.client.gotAck, w.conns.head?.map Conn.guest)) = some (true, some (.started trueRequest)) := by decide +kernel
  obtain ⟨w, hw, hrun⟩ := Option.map_eq_some_iff.mp hrun
  rw [Prod.mk.injEq] at hrun
  obtain ⟨hack, hhead⟩ := hrun
  obtain ⟨c, hc, hguest⟩ := Option.map_eq_some_iff.mp hhead
  obtain ⟨honce, -, -, hconsumed⟩ := exec_at_most_once hserde (hstart.exec hw)
  refine ⟨w, hstart.exec hw, hack, ⟨c, hc, hguest, hconsumed hack c hc⟩, ?_⟩
  intro i d r hd hr
  rw [List.head?_eq_getElem?] at hc
  exact honce i 0 d c r trueRequest hd hc hr hguest

end Fcvm.ExecHandshake
