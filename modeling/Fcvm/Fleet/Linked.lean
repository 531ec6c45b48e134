import Fcvm.Fleet.ReplayTable
import Fcvm.Fleet.Lineage
import Fcvm.Library.PartialMap

namespace Fcvm.Fleet

open Library List Function Option

variable {w' : World} {c now moved : ℕ} {x : Coordinator} {a : Actor} {host : String}

namespace World

section Agents

variable (agents : String → Agent) (host host' : String)

theorem replay_setReplay (r : Replay) : (update agents host { agents host with replay := r } host').replay =
    if host' = host then r else (agents host').replay := by
  rw [update_apply, apply_ite Agent.replay]

theorem replay_setConn (c : Option ℕ) :
    (update agents host { agents host with conn := c } host').replay = (agents host').replay := by
  by_cases heq : host' = host <;> simp [heq]

end Agents

structure Linked (w : World) : Prop where
  coordinator : w.coordinator.Inv
  made : ∀ x ∈ w.made, x.2 < w.nextReport
  held : ∀ host sbdf n, (w.agents host).replay.held sbdf = some n → (⟨host, sbdf⟩, n) ∈ w.made
  replayed : ∀ x ∈ w.made, (∃ n, x.2 ≤ n ∧ (w.agents x.1.host).replay.held x.1.sbdf = some n) ∨
    ∃ n, x.2 ≤ n ∧ (x.1, n) ∈ w.acked
  acked : ∀ x ∈ w.acked, w.coordinator.Safe x.1 x.2
  conns : ∀ c, w.conns c ≠ none → c < w.nextConn
  hello : ∀ host named, .hello named ∈ (w.agents host).replay.lines → named = host
  onConn : ∀ host c, (w.agents host).conn = some c → ∃ k, w.conns c = some k ∧ k.host = host
  agents : ∀ a, w.coordinator.actor = some a → ∀ e ∈ a.agents.entries, ∃ k, w.conns e.1 = some k ∧ k.host = e.2
  up : ∀ c k named, w.conns c = some k → .hello named ∈ k.up → named = k.host
  down : ∀ c k sbdf n, w.conns c = some k → .quarantineStored sbdf (some n) ∈ k.down →
    w.coordinator.Safe ⟨k.host, sbdf⟩ n

structure Follows (w' : World) (k k' : Conn) : Prop where
  host : k'.host = k.host := by rfl
  up : ∀ named, .hello named ∈ k'.up → .hello named ∈ k.up ∨ named = k.host := by exact fun _ h => .inl h
  down : ∀ sbdf n, .quarantineStored sbdf (some n) ∈ k'.down →
    .quarantineStored sbdf (some n) ∈ k.down ∨ w'.coordinator.Safe ⟨k.host, sbdf⟩ n := by exact fun _ _ h => .inl h

instance : Std.Refl (Follows w') where
  refl _ := {}

structure Agent.Moves (w' : World) (host : String) (a a' : Agent) : Prop where
  conn : ∀ c, a'.conn = some c → a.conn = some c := by exact fun _ hc => hc
  hello : ∀ named, .hello named ∈ a'.replay.lines → .hello named ∈ a.replay.lines ∨ named = host := by
    exact fun _ hmem => .inl hmem
  held : ∀ sbdf n, a'.replay.held sbdf = some n → a.replay.held sbdf = some n ∨ (⟨host, sbdf⟩, n) ∈ w'.made := by
    exact fun _ _ hn => .inl hn
  replayed : ∀ sbdf n, a.replay.held sbdf = some n →
    (∃ n', n ≤ n' ∧ a'.replay.held sbdf = some n') ∨ (⟨host, sbdf⟩, n) ∈ w'.acked := by
      exact fun _ n hn => .inl ⟨n, le_refl _, hn⟩

theorem Agent.Moves.update {agents : String → Agent} {a' : Agent} (h : Agent.Moves w' host (agents host) a')
    (host' : String) : Agent.Moves w' host' (agents host') (update agents host a' host') :=
  (forall_update_iff agents fun host' => Agent.Moves w' host' (agents host')).mpr ⟨h, fun _ _ => {}⟩ host'

structure Moves (w w' : World) : Prop where
  coordinator : w.coordinator.Goes w'.coordinator
  nextConn : w'.nextConn = w.nextConn := by rfl
  conns : Pointwise (Follows w') w.conns w'.conns
  registered : ∀ a', w'.coordinator.actor = some a' → ∀ e ∈ a'.agents.entries,
    (∃ a, w.coordinator.actor = some a ∧ e ∈ a.agents.entries) ∨ ∃ k, w.conns e.1 = some k ∧ k.host = e.2 := by
      exact fun a ha e he => .inl ⟨a, ha, he⟩
  agents : ∀ host, Agent.Moves w' host (w.agents host) (w'.agents host) := by exact fun _ => {}
  made : ∀ x ∈ w'.made, x ∈ w.made ∨ x.2 < w'.nextReport ∧
    (w'.agents x.1.host).replay.held x.1.sbdf = some x.2 := by exact fun _ hx => .inl hx
  nextReport : w.nextReport ≤ w'.nextReport := by exact le_rfl
  madeKept : w.made ⊆ w'.made := by exact fun _ hx => hx
  ackedKept : w.acked ⊆ w'.acked := by exact fun _ hx => hx
  acked : ∀ x ∈ w'.acked, x ∈ w.acked ∨ w'.coordinator.Safe x.1 x.2 := by exact fun _ hx => .inl hx

theorem Linked.moves {w : World} (h : Linked w) (hm : Moves w w') : Linked w' where
  coordinator := hm.coordinator.inv
  made := by
    intro x hx
    rcases hm.made x hx with hx | ⟨hx, -⟩
    · exact (h.made x hx).trans_le hm.nextReport
    · exact hx
  held := by
    intro host sbdf n hn
    rcases (hm.agents host).held sbdf n hn with hn | hn
    · exact hm.madeKept (h.held host sbdf n hn)
    · exact hn
  replayed := by
    intro x hx
    rcases hm.made x hx with hx | ⟨-, hx⟩
    · rcases h.replayed x hx with ⟨n, hle, hn⟩ | ⟨n, hle, hn⟩
      · rcases (hm.agents _).replayed _ n hn with ⟨n', hle', hn'⟩ | hn'
        · exact .inl ⟨n', hle.trans hle', hn'⟩
        · exact .inr ⟨n, hle, hn'⟩
      · exact .inr ⟨n, hle, hm.ackedKept hn⟩
    · exact .inl ⟨x.2, le_refl _, hx⟩
  acked := by
    intro x hx
    rcases hm.acked x hx with hx | hx
    · exact hm.coordinator.safe _ _ (h.acked x hx)
    · exact hx
  conns := by
    intro c hc
    rw [hm.nextConn]
    apply h.conns
    exact fun hnone => hc (hm.conns.none hnone)
  hello := by
    intro host named hmem
    rcases (hm.agents host).hello named hmem with hmem | heq
    · exact h.hello host named hmem
    · exact heq
  onConn := by
    intro host c hc
    obtain ⟨k, hk, hhost⟩ := h.onConn host c ((hm.agents host).conn c hc)
    obtain ⟨k', hk', hf⟩ := hm.conns.after hk
    exact ⟨k', hk', hf.host.trans hhost⟩
  agents := by
    intro a' ha' e he
    obtain ⟨k, hk, hhost⟩ : ∃ k, w.conns e.1 = some k ∧ k.host = e.2 := by
      rcases hm.registered a' ha' e he with ⟨a, ha, he⟩ | hk
      · exact h.agents a ha e he
      · exact hk
    obtain ⟨k', hk', hf⟩ := hm.conns.after hk
    exact ⟨k', hk', hf.host.trans hhost⟩
  up := by
    intro c k' named hk' hmem
    obtain ⟨k, hk, hf⟩ := hm.conns.before hk'
    rw [hf.host]
    rcases hf.up named hmem with hmem | heq
    · exact h.up c k named hk hmem
    · exact heq
  down := by
    intro c k' sbdf n hk' hmem
    obtain ⟨k, hk, hf⟩ := hm.conns.before hk'
    rw [hf.host]
    rcases hf.down sbdf n hmem with hmem | hsafe
    · exact hm.coordinator.safe _ _ (h.down c k sbdf n hk hmem)
    · exact hsafe

section Moves

variable {w : World} {conns' : ℕ → Option Conn}

variable {k k' : Conn} {conns : ℕ → Option Conn}

theorem Moves.ofCoordinator (hg : w.coordinator.Goes x)
    (hconns : Pointwise (Follows { w with coordinator := x, conns := conns }) w.conns conns)
    (hagents : ∀ a', x.actor = some a' → ∀ e ∈ a'.agents.entries,
      (∃ a, w.coordinator.actor = some a ∧ e ∈ a.agents.entries) ∨ ∃ k, w.conns e.1 = some k ∧ k.host = e.2) :
    Moves w { w with coordinator := x, conns := conns } where
  coordinator := hg
  conns := hconns
  registered := hagents

def KeepsAgents (k x : Coordinator) : Prop :=
  ∀ a', x.actor = some a' → ∃ a, k.actor = some a ∧ a'.agents.entries ⊆ a.agents.entries

/-- The same host, greeted or not as before. -/
structure Meets (k k' : Conn) : Prop where
  host : k'.host = k.host := by rfl
  greeted : k'.greeted = k.greeted := by rfl

structure Shortens (k k' : Conn) : Prop where
  host : k'.host = k.host := by rfl
  up : k'.up.Sublist k.up := by exact .refl _
  served : k'.served = true → k.served = true := by exact fun hs => hs

structure Trims (k k' : Conn) : Prop extends Meets k k', Shortens k k'

structure Kept (x : Coordinator) (k k' : Conn) : Prop extends Trims k k' where
  down : ∀ sbdf n, .quarantineStored sbdf (some n) ∈ k'.down →
    .quarantineStored sbdf (some n) ∈ k.down ∨ x.Safe ⟨k.host, sbdf⟩ n := by exact fun _ _ hmem => .inl hmem

/-- A step of the coordinator or the network that takes no report and no hello, and releases nothing. -/
structure Passes (w : World) (x : Coordinator) (conns : ℕ → Option Conn) : Prop where
  goes : w.coordinator.Goes x
  conns : Pointwise (Kept x) w.conns conns
  agents : KeepsAgents w.coordinator x
  applied : x.applied = w.coordinator.applied
  states : w.coordinator.SameStates x
  clock : x.clock = w.coordinator.clock ∨ x.clock = w.coordinator.clock + 1

inductive Turn (w : World) : Step → World → Prop where
  | said {step : Step} {host : String} {l : Line} {made : List (GpuId × ℕ)} {nextReport : ℕ}
    (hhello : ∀ named, l = .hello named → named = host)
    (hline : (∀ s e n, l ≠ .quarantine s e n) ∧ made = w.made ∧ nextReport = w.nextReport ∨
      ∃ sbdf error, l = .quarantine sbdf error w.nextReport ∧ made = (⟨host, sbdf⟩, w.nextReport) :: w.made ∧
        nextReport = w.nextReport + 1) :
    Turn w step { w.say host l with nextReport := nextReport, made := made }
  | connected {host : String} {lines : List Line} (hperm : lines.isPerm (w.agents host).replay.lines) :
    Turn w (.connect host lines) { w with
      agents := Function.update w.agents host { w.agents host with conn := some w.nextConn }
      conns := Function.update w.conns w.nextConn (some ⟨host, lines, [], false, false, w.coordinator.actor.isSome⟩)
      nextConn := w.nextConn + 1 }
  | lost {host : String} :
    Turn w (.lose host) { w with agents := Function.update w.agents host { w.agents host with conn := none } }
  | framed {host : String} {c : ℕ} {k : Conn} {f : Frame} {down : List Frame} {acked : List (GpuId × ℕ)}
    (hc : (w.agents host).conn = some c) (hk : w.conns c = some k) (hdown : k.down = f :: down)
    (hacked : (∀ sbdf r, f = .quarantineStored sbdf (some r) → acked = (⟨host, sbdf⟩, r) :: w.acked) ∧
      ((∀ sbdf r, f ≠ .quarantineStored sbdf (some r)) → acked = w.acked)) :
    Turn w (.frame host) { w with
      agents := Function.update w.agents host { w.agents host with replay := (w.agents host).replay.coordinatorFrame f }
      conns := Function.update w.conns c (some { k with down := down })
      acked := acked }
  | passed {step : Step} {x : Coordinator} {conns : ℕ → Option Conn} (h : Passes w x conns) :
    Turn w step { w with coordinator := x, conns := conns }
  | reported {c now moved : ℕ} {a : Actor} {k : Conn} {sbdf : Sbdf} {error : String} {r : ℕ} {up : List Line}
    {host : String} (ha : w.coordinator.actor = some a) (hk : w.conns c = some k) (hserved : k.served = true)
    (hup : k.up = .quarantine sbdf error r :: up) (hlookup : a.agents.lookup c = some host) :
    Turn w (.take c now moved) { w with
      conns := Function.update w.conns c (some { k with up := up })
      coordinator := w.coordinator.quarantine a ⟨host, sbdf⟩ error r now moved }
  | greeted {c now moved : ℕ} {a : Actor} {k : Conn} {host : String} {up : List Line}
    (ha : w.coordinator.actor = some a) (hk : w.conns c = some k) (hgreeted : k.greeted = false)
    (hup : k.up = .hello host :: up) :
    Turn w (.take c now moved) { w with
      conns := Function.update w.conns c (some { k with up := up, greeted := true })
      coordinator := w.coordinator.agentHello a c host now moved }
  | released {g : GpuId} {now moved : ℕ} {a : Actor} (ha : w.coordinator.actor = some a) :
    Turn w (.release g now moved) { w with coordinator := w.coordinator.apply a (.releaseQuarantine g) now moved }
  | restarted {moved : ℕ} (hnone : w.coordinator.actor = none) :
    Turn w (.restart moved) { w with coordinator := w.coordinator.restart moved }

theorem KeepsAgents.of_actor {k : Coordinator} {a' : Actor} (ha : k.actor = some a) (ha' : x.actor = some a')
    (h : a'.agents = a.agents) : KeepsAgents k x := by
  intro a₂ ha₂
  cases ha'.symm.trans ha₂
  exact ⟨a, ha, by rw [h]; exact fun _ he => he⟩

theorem KeepsAgents.of_eq {k : Coordinator} (h : x.actor = k.actor) : KeepsAgents k x :=
  fun a ha => ⟨a, h ▸ ha, fun _ he => he⟩

theorem Moves.ofKeeps (hg : w.coordinator.Goes x)
    (hconns : Pointwise (Follows { w with coordinator := x, conns := conns }) w.conns conns)
    (hagents : KeepsAgents w.coordinator x) :
    Moves w { w with coordinator := x, conns := conns } := by
  apply Moves.ofCoordinator hg hconns
  intro a' ha' e he
  obtain ⟨a, ha, hsub⟩ := hagents a' ha'
  exact .inl ⟨a, ha, hsub he⟩

theorem say_replay (host' : String) (l : Line) : ((w.say host l).agents host').replay =
    if host' = host then (w.agents host).replay.note l else (w.agents host').replay :=
  replay_setReplay w.agents host host' _

theorem say_conn (host' : String) (l : Line) : ((w.say host l).agents host').conn = (w.agents host').conn := by
  by_cases heq : host' = host <;> simp [World.say, heq]

theorem Linked.say_conns (h : Linked w) {l : Line} {R : Conn → Conn → Prop} [Std.Refl R]
    (hR : ∀ k, k.host = host → R k (k.push l)) : Pointwise R w.conns (w.say host l).conns := by
  cases hconn : (w.agents host).conn with
  | none =>
    have hconns : (w.say host l).conns = w.conns := by simp [World.say, hconn]
    rw [hconns]
    exact .refl _
  | some c =>
    -- the line goes up the connection the agent is on
    obtain ⟨k, hk, hhost⟩ := h.onConn host c hconn
    have hconns : (w.say host l).conns = update w.conns c (some (k.push l)) := by simp [World.say, hconn, hk]
    rw [hconns]
    exact .update hk (hR k hhost)

theorem Moves.say (h : Linked w) {l : Line} {made : List (GpuId × ℕ)} {nextReport : ℕ}
    (hhello : ∀ named, l = .hello named → named = host)
    (hl : (∀ s e n, l ≠ .quarantine s e n) ∧ made = w.made ∧ nextReport = w.nextReport ∨
      ∃ sbdf error, l = .quarantine sbdf error w.nextReport ∧ made = (⟨host, sbdf⟩, w.nextReport) :: w.made ∧
        nextReport = w.nextReport + 1) :
    Moves w { w.say host l with nextReport := nextReport, made := made } where
  coordinator := .refl h.coordinator
  conns := by
    apply h.say_conns
    intro k hhost
    unfold Conn.push
    split
    · exact Std.Refl.refl k
    · refine { up := ?_ }
      intro named hmem
      rcases mem_append.mp hmem with hmem | hmem
      · exact .inl hmem
      · rw [hhost]
        exact .inr (hhello named (mem_singleton.mp hmem).symm)
  agents := by
    apply Agent.Moves.update
    refine { hello := ?_, held := ?_, replayed := ?_ }
    · intro named hmem
      rcases Replay.lines_note hmem with hmem | heq
      · exact .inl hmem
      · exact .inr (hhello named heq.symm)
    · intro sbdf' n hn
      rcases hl with ⟨hne, rfl, -⟩ | ⟨sbdf, error, rfl, rfl, -⟩
      · rw [Replay.held_note hne] at hn
        exact .inl hn
      · rw [Replay.held_note_quarantine] at hn
        split at hn
        · next hs =>
          subst hs
          cases hn
          exact .inr mem_cons_self
        · exact .inl hn
    · intro sbdf' n hn
      rcases hl with ⟨hne, -, -⟩ | ⟨sbdf, error, rfl, -, -⟩
      · rw [Replay.held_note hne]
        exact .inl ⟨n, le_refl _, hn⟩
      · rw [Replay.held_note_quarantine]
        split
        · exact .inl ⟨w.nextReport, (h.made _ (h.held _ _ n hn)).le, rfl⟩
        · exact .inl ⟨n, le_refl _, hn⟩
  made := by
    intro x hx
    rcases hl with ⟨-, rfl, -⟩ | ⟨sbdf, error, rfl, rfl, rfl⟩
    · exact .inl hx
    · rcases mem_cons.mp hx with rfl | hx
      · refine .inr ⟨Nat.lt_succ_self _, ?_⟩
        dsimp only
        rw [say_replay, if_pos rfl, Replay.held_note_quarantine, if_pos rfl]
      · exact .inl hx
  nextReport := by
    rcases hl with ⟨-, -, rfl⟩ | ⟨sbdf, error, -, -, rfl⟩
    · exact le_refl _
    · exact Nat.le_succ _
  madeKept := by
    rcases hl with ⟨-, rfl, -⟩ | ⟨sbdf, error, -, rfl, -⟩
    · exact fun _ hx => hx
    · exact subset_cons_self _ _

theorem Moves.frame (h : Linked w) {f : Frame} {down : List Frame}
    {acked : List (GpuId × ℕ)} (hc : (w.agents host).conn = some c) (hk : w.conns c = some k)
    (hdown : k.down = f :: down)
    (hacked : (∀ sbdf r, f = .quarantineStored sbdf (some r) → acked = (⟨host, sbdf⟩, r) :: w.acked) ∧
      ((∀ sbdf r, f ≠ .quarantineStored sbdf (some r)) → acked = w.acked)) :
    Moves w { w with
      agents := update w.agents host { w.agents host with replay := (w.agents host).replay.coordinatorFrame f }
      conns := update w.conns c (some { k with down := down })
      acked := acked } := by
  have hhost : k.host = host := by
    obtain ⟨k₂, hk₂, hhost⟩ := h.onConn host c hc
    cases hk.symm.trans hk₂
    exact hhost
  have hkept : w.acked ⊆ acked := by
    by_cases hf : ∃ sbdf r, f = .quarantineStored sbdf (some r)
    · obtain ⟨sbdf, r, hf⟩ := hf
      rw [hacked.1 sbdf r hf]
      exact subset_cons_self _ _
    · rw [hacked.2 (fun sbdf r heq => hf ⟨sbdf, r, heq⟩)]
      exact fun _ hx => hx
  refine { coordinator := .refl h.coordinator, conns := ?_, agents := .update ?_, ackedKept := hkept, acked := ?_ }
  · refine .update hk { down := ?_ }
    intro sbdf n hmem
    rw [hdown]
    exact .inl (mem_cons_of_mem _ hmem)
  · refine ⟨fun _ hc => hc, fun _ hmem => .inl (Replay.lines_coordinatorFrame hmem),
      fun _ _ hn => .inl (Replay.held_of_coordinatorFrame hn), ?_⟩
    intro sbdf n hn
    rcases Replay.held_coordinatorFrame f hn with hn | hf
    · exact .inl ⟨n, le_refl _, hn⟩
    · rw [hacked.1 sbdf n hf]
      exact .inr mem_cons_self
  · intro x hx
    by_cases hf : ∃ sbdf r, f = .quarantineStored sbdf (some r)
    · obtain ⟨sbdf, r, hf⟩ := hf
      dsimp only at hx
      rw [hacked.1 sbdf r hf] at hx
      rcases mem_cons.mp hx with rfl | hx
      · rw [← hhost]
        exact .inr (h.down c k sbdf r hk (by rw [hdown, hf]; exact mem_cons_self))
      · exact .inl hx
    · dsimp only at hx
      rw [hacked.2 (fun sbdf r heq => hf ⟨sbdf, r, heq⟩)] at hx
      exact .inl hx

theorem Moves.lose (h : Linked w) (host : String) :
    Moves w { w with agents := update w.agents host { w.agents host with conn := none } } where
  coordinator := .refl h.coordinator
  conns := .refl _
  agents := .update { conn := fun _ hc => by cases hc }

theorem connOf_host (h : Coordinator.connOf a host = some c) :
    ⟨c, host⟩ ∈ a.agents.entries := by
  obtain ⟨e, he, rfl⟩ := map_eq_some_iff.mp h
  have hhost := List.find?_some he
  simp only [decide_eq_true_eq] at hhost
  subst hhost
  exact mem_of_find?_eq_some he

theorem agentHello_agents {k : Coordinator} {a' : Actor}
    (ha' : (k.agentHello a c host now moved).actor = some a') :
    ∀ e ∈ a'.agents.entries, e = ⟨c, host⟩ ∨ e ∈ a.agents.entries := by
  intro e he
  cases ha'
  dsimp only at he
  rw [AList.entries_insert] at he
  rcases mem_cons.mp he with rfl | he
  · exact .inl rfl
  · exact .inr (mem_filter.mp ((kerase_sublist _ _).subset he)).1

theorem take_cases (h : w.next (.take c now moved) = some w') :
    ∃ a k l up, w.coordinator.actor = some a ∧ w.conns c = some k ∧ k.served = true ∧ k.up = l :: up ∧
      (k.greeted = true ∧ w' = { w with
          conns := update w.conns c (some { k with up := up })
          coordinator := w.coordinator.agentMsg a c l now moved } ∨
        k.greeted = false ∧ (∃ host, l = .hello host ∧ w' = { w with
          conns := update w.conns c (some { k with up := up, greeted := true })
          coordinator := w.coordinator.agentHello a c host now moved }) ∨
        k.greeted = false ∧ (∀ host, l ≠ .hello host) ∧ w' = { w with
          conns := update w.conns c (some { k with up := up, served := false }) }) := by
  simp only [World.next, bind_eq_bind, bind_eq_some_iff] at h
  obtain ⟨a, ha, k, hk, h⟩ := h
  split at h
  · next hserved =>
    split at h
    · cases h
    · next l up hup =>
      refine ⟨a, k, l, up, ha, hk, hserved, hup, ?_⟩
      split at h
      · next hgreeted =>
        cases h
        exact .inl ⟨hgreeted, rfl⟩
      · next hgreeted =>
        rw [Bool.not_eq_true] at hgreeted
        split at h
        · next host =>
          cases h
          exact .inr (.inl ⟨hgreeted, host, rfl, rfl⟩)
        · next hne =>
          cases h
          exact .inr (.inr ⟨hgreeted, hne, rfl⟩)
  · cases h

theorem agentMsg_cases (k : Coordinator) (a : Actor) (c : ℕ) (l : Line) (now moved : ℕ) :
    a.agents.lookup c = none ∧ k.agentMsg a c l now moved = k ∨
      ∃ host, a.agents.lookup c = some host ∧
        ((∃ sbdf error report, l = .quarantine sbdf error report ∧
            k.agentMsg a c l now moved = k.quarantine a ⟨host, sbdf⟩ error report now moved) ∨
          (∀ sbdf error report, l ≠ .quarantine sbdf error report) ∧
            k.agentMsg a c l now moved = k.apply a .other now moved) := by
  unfold Coordinator.agentMsg
  cases hlookup : a.agents.lookup c with
  | none => exact .inl ⟨rfl, rfl⟩
  | some host =>
    refine .inr ⟨host, rfl, ?_⟩
    cases l with
    | quarantine sbdf error report => exact .inl ⟨sbdf, error, report, rfl, rfl⟩
    | hello | slot | aggregate | draining | other => exact .inr ⟨nofun, rfl⟩

theorem store_keeps {k : Coordinator} (barrier serialized : Bool) :
    (k.store a barrier serialized).1.agents = a.agents ∧ (k.store a barrier serialized).2.applied = k.applied ∧
      (k.store a barrier serialized).2.clock = k.clock := by
  unfold Coordinator.store
  split
  · split <;> exact ⟨rfl, rfl, rfl⟩
  · split <;> exact ⟨rfl, rfl, rfl⟩

theorem storeTick_keeps (k : Coordinator) (a : Actor) (serialized : Bool) :
    ∃ a', (k.storeTick a serialized).actor = some a' ∧ a'.agents = a.agents ∧
      (k.storeTick a serialized).applied = k.applied ∧ (k.storeTick a serialized).clock = k.clock := by
  unfold Coordinator.storeTick
  split
  · exact ⟨_, rfl, store_keeps true serialized⟩
  · exact ⟨_, rfl, store_keeps false serialized⟩

theorem written_keeps {k k' : Coordinator} {told : List (GpuId × Option ℕ × ℕ)} (h : k.written a = some (k', told)) :
    ∃ a', k'.actor = some a' ∧ a'.agents = a.agents ∧ k'.applied = k.applied ∧ k'.clock = k.clock := by
  unfold Coordinator.written at h
  obtain ⟨⟨version, ack⟩, -, h⟩ := bind_eq_some_iff.mp h
  obtain ⟨stored, -, h⟩ := map_eq_some_iff.mp h
  split at h <;> cases h <;> exact ⟨_, rfl, rfl, rfl, rfl⟩

theorem writerFinish_keeps (k : Coordinator) (acks : List ℕ) (ok : Bool) :
    (k.writerFinish acks ok).actor = k.actor ∧ (k.writerFinish acks ok).applied = k.applied ∧
      (k.writerFinish acks ok).clock = k.clock := by
  unfold Coordinator.writerFinish
  split
  · exact ⟨rfl, rfl, rfl⟩
  · split <;> exact ⟨rfl, rfl, rfl⟩

theorem Linked.below (h : Linked w) (hk : w.conns c = some k) : c < w.nextConn :=
  h.conns c (by rw [hk]; exact some_ne_none k)

theorem Linked.opened_kept (h : Linked w) (hk : w.conns c = some k) (x : Option Conn) :
    update w.conns w.nextConn x c = some k :=
  update_kept hk fun hsame => lt_irrefl _ (h.below hsame)

/-- A connection is the new one, or was there. -/
theorem Linked.opened_cases (h : Linked w) (hk : update w.conns w.nextConn (some k') c = some k) :
    w.conns c = some k ∧ c < w.nextConn ∨ c = w.nextConn ∧ k = k' :=
  (update_some.mp hk).symm.imp (fun hk => ⟨hk.2, h.below hk.2⟩) fun heq => ⟨heq.1, heq.2.symm⟩

theorem Linked.connect (h : Linked w) {lines : List Line} (hperm : lines.isPerm (w.agents host).replay.lines) :
    Linked { w with
      agents := update w.agents host { w.agents host with conn := some w.nextConn }
      conns := update w.conns w.nextConn (some ⟨host, lines, [], false, false, w.coordinator.actor.isSome⟩)
      nextConn := w.nextConn + 1 } := by
  refine ⟨h.coordinator, h.made, ?_, ?_, h.acked, ?_, ?_, ?_, ?_, ?_, ?_⟩
  · intro host' sbdf n hn
    dsimp only at hn
    rw [replay_setConn] at hn
    exact h.held host' sbdf n hn
  · intro x hx
    dsimp only
    rw [replay_setConn]
    exact h.replayed x hx
  · intro c hc
    by_cases heq : c = w.nextConn
    · rw [heq]
      exact Nat.lt_succ_self _
    · dsimp only at hc
      rw [update_of_ne heq] at hc
      exact (h.conns c hc).trans (Nat.lt_succ_self _)
  · intro host' named hmem
    dsimp only at hmem
    rw [replay_setConn] at hmem
    exact h.hello host' named hmem
  · intro host' c hc
    by_cases heq : host' = host
    · subst heq
      simp only [update_self, Option.some.injEq] at hc
      subst hc
      exact ⟨_, update_self .., rfl⟩
    · simp only [update_of_ne heq] at hc
      obtain ⟨k, hk, hhost⟩ := h.onConn host' c hc
      exact ⟨k, h.opened_kept hk _, hhost⟩
  · intro a ha e he
    obtain ⟨k, hk, hhost⟩ := h.agents a ha e he
    exact ⟨k, h.opened_kept hk _, hhost⟩
  · intro c k named hk hmem
    rcases h.opened_cases hk with ⟨hk, -⟩ | ⟨-, rfl⟩
    · exact h.up c k named hk hmem
    · exact h.hello host named ((isPerm_iff.mp hperm).subset hmem)
  · intro c k sbdf n hk hmem
    rcases h.opened_cases hk with ⟨hk, -⟩ | ⟨-, rfl⟩
    · exact h.down c k sbdf n hk hmem
    · cases hmem

instance : Std.Refl (Kept x) where
  refl _ := {}

instance : IsTrans Conn (Kept x) where
  trans k k' k'' h h' := by
    refine ⟨⟨⟨h'.host.trans h.host, h'.greeted.trans h.greeted⟩, h'.up.trans h.up, h.served ∘ h'.served⟩, ?_⟩
    intro sbdf n hmem
    rcases h'.down sbdf n hmem with hmem | hsafe
    · exact h.down sbdf n hmem
    · rw [h.host] at hsafe
      exact .inr hsafe

theorem tell_kept {u : GpuId × Option ℕ × ℕ}
    (hconns : ∀ e ∈ a.agents.entries, ∃ k, conns e.1 = some k ∧ k.host = e.2)
    (hsafe : ∃ r, u.2.1 = some r ∧ x.Safe u.1 r) : Pointwise (Kept x) conns (tell a conns u) := by
  unfold tell
  rcases hc : Coordinator.connOf a u.1.host with _ | c'
  · exact .refl conns
  obtain ⟨k, hk, hhost⟩ := hconns _ (connOf_host hc)
  dsimp only at hk hhost ⊢
  rw [hk]
  refine .update hk { down := ?_ }
  intro sbdf n hmem
  rcases mem_append.mp hmem with hmem | hmem
  · exact .inl hmem
  · obtain ⟨r, hr, hsafe⟩ := hsafe
    cases hr ▸ mem_singleton.mp hmem
    rw [hhost]
    exact .inr hsafe

theorem foldl_tell_kept (told : List (GpuId × Option ℕ × ℕ))
    (hconns : ∀ e ∈ a.agents.entries, ∃ k, conns e.1 = some k ∧ k.host = e.2)
    (hsafe : ∀ u ∈ told, ∃ r, u.2.1 = some r ∧ x.Safe u.1 r) :
    Pointwise (Kept x) conns (told.foldl (tell a) conns) := by
  induction told generalizing conns with
  | nil => exact .refl conns
  | cons u told ih =>
    have hfirst := tell_kept hconns (hsafe u mem_cons_self)
    refine hfirst.trans (ih ?_ fun u hu => hsafe u (mem_cons_of_mem _ hu))
    intro e he
    obtain ⟨k, hk, hhost⟩ := hconns e he
    obtain ⟨k', hk', hkept⟩ := hfirst.after hk
    exact ⟨k', hk', hkept.host.trans hhost⟩

theorem Passes.still (hg : w.coordinator.Goes x) (hagents : KeepsAgents w.coordinator x)
    (happlied : x.applied = w.coordinator.applied) (hstates : w.coordinator.SameStates x)
    (hclock : x.clock = w.coordinator.clock ∨ x.clock = w.coordinator.clock + 1) : Passes w x w.conns :=
  ⟨hg, .refl w.conns, hagents, happlied, hstates, hclock⟩

/-- The network alone: what the coordinator is stays. -/
theorem Passes.network (h : Linked w) (hk : w.conns c = some k) (hkept : Kept w.coordinator k k') :
    Passes w w.coordinator (update w.conns c (some k')) :=
  ⟨.refl h.coordinator, .update hk hkept, .of_eq rfl, rfl, .refl _, .inl rfl⟩

theorem Passes.applies (h : Linked w) (ha : w.coordinator.actor = some a) (hk : w.conns c = some k)
    (agents : AList fun _ : ℕ => String) (hagents : agents.entries ⊆ a.agents.entries)
    (hkept : Kept (w.coordinator.apply { a with agents := agents } .other now moved) k k') :
    Passes w (w.coordinator.apply { a with agents := agents } .other now moved) (update w.conns c (some k')) := by
  refine ⟨h.coordinator.applyOther ha agents nofun, .update hk hkept, ?_, rfl, .applyOther ha agents now moved,
    .inr rfl⟩
  intro a' ha'
  cases ha'
  exact ⟨a, ha, hagents⟩

theorem Passes.moves (h : Passes w x conns') : Moves w { w with coordinator := x, conns := conns' } := by
  refine Moves.ofKeeps h.goes (h.conns.mono ?_) h.agents
  exact fun k k' hkept => ⟨hkept.host, fun _ hmem => .inl (hkept.up.subset hmem), hkept.down⟩

theorem turn_of_take (h : Linked w) (hnext : w.next (.take c now moved) = some w') : Turn w (.take c now moved) w' := by
  obtain ⟨a, k, l, up, ha, hk, hserved, hup, hcase⟩ := take_cases hnext
  have hkept (x : Coordinator) : Kept x k { k with up := up } := { up := hup ▸ sublist_cons_self _ _ }
  rcases hcase with ⟨-, rfl⟩ | ⟨hgreeted, host, rfl, rfl⟩ | ⟨-, -, rfl⟩
  · rcases agentMsg_cases w.coordinator a c l now moved with
      ⟨-, heq⟩ | ⟨host, hlookup, ⟨sbdf, error, r, rfl, heq⟩ | ⟨-, heq⟩⟩ <;> rw [heq]
    · exact .passed (.network h hk (hkept _))
    · exact .reported ha hk hserved hup hlookup
    · exact .passed (.applies h ha hk a.agents (fun _ he => he) (hkept _))
  · exact .greeted ha hk hgreeted hup
  · exact .passed (.network h hk { up := hup ▸ sublist_cons_self _ _, served := nofun })

theorem turn_of_next (h : Linked w) {step : Step} (hnext : w.next step = some w') : Turn w step w' := by
  cases step with
  | report host sbdf error =>
    cases hnext
    exact .said nofun (.inr ⟨sbdf, error, rfl, rfl, rfl⟩)
  | line host l =>
    simp only [World.next] at hnext
    split at hnext
    · split at hnext
      · next hnamed =>
        cases hnext
        refine .said ?_ (.inl ⟨nofun, rfl, rfl⟩)
        rintro _ ⟨⟩
        exact hnamed
      · cases hnext
    · cases hnext
    · next hhello hquarantine =>
      cases hnext
      exact .said (fun named heq => absurd heq (hhello named)) (.inl ⟨hquarantine, rfl, rfl⟩)
  | connect host lines =>
    simp only [World.next] at hnext
    split at hnext
    · next hcond =>
      cases hnext
      exact .connected hcond.2.1
    · cases hnext
  | lose host =>
    cases hnext
    exact .lost
  | frame host =>
    obtain ⟨c, hc, hnext⟩ := bind_eq_some_iff.mp hnext
    obtain ⟨k, hk, hnext⟩ := bind_eq_some_iff.mp hnext
    split at hnext
    · cases hnext
    · next f down hdown =>
      cases hnext
      refine .framed hc hk hdown ⟨?_, ?_⟩
      · rintro sbdf r rfl
        rfl
      · intro hne
        split
        · exact absurd rfl (hne _ _)
        · rfl
  | send c f =>
    simp only [World.next] at hnext
    split at hnext
    · cases hnext
    · next hf =>
      simp only [bind_eq_bind, bind_eq_some_iff] at hnext
      obtain ⟨a, -, k, hk, hnext⟩ := hnext
      split at hnext
      · cases hnext
        refine .passed (.network h hk { down := ?_ })
        intro sbdf n hmem
        rcases mem_append.mp hmem with hmem | hmem
        · exact .inl hmem
        · exact absurd (mem_singleton.mp hmem).symm (hf sbdf (some n))
      · cases hnext
  | cut c up down =>
    obtain ⟨k, hk, hnext⟩ := bind_eq_some_iff.mp hnext
    cases hnext
    exact .passed (.network h hk { up := take_sublist _ _, down := fun _ _ hmem => .inl (mem_of_mem_take hmem) })
  | take c now moved => exact turn_of_take h hnext
  | close c now moved =>
    obtain ⟨a, ha, hnext⟩ := bind_eq_some_iff.mp hnext
    obtain ⟨k, hk, hnext⟩ := bind_eq_some_iff.mp hnext
    split at hnext
    · cases hnext
      have hkept (x : Coordinator) : Kept x k { k with served := false } := { served := nofun }
      unfold Coordinator.agentClosed
      split
      · exact .passed (.applies h ha hk _ (kerase_sublist _ _).subset (hkept _))
      · exact .passed (.network h hk (hkept _))
    · cases hnext
  | release g now moved =>
    obtain ⟨a, ha, hnext⟩ := bind_eq_some_iff.mp hnext
    cases hnext
    exact .released ha
  | other now moved =>
    obtain ⟨a, ha, hnext⟩ := bind_eq_some_iff.mp hnext
    cases hnext
    exact .passed (.still (h.coordinator.applyOther ha a.agents nofun) (.of_actor ha rfl rfl) rfl
      (.applyOther ha a.agents now moved) (.inr rfl))
  | storeTick serialized =>
    obtain ⟨a, ha, hnext⟩ := bind_eq_some_iff.mp hnext
    cases hnext
    obtain ⟨a', ha', hagents, happlied, hclock⟩ := storeTick_keeps w.coordinator a serialized
    exact .passed (.still (h.coordinator.storeTick ha serialized) (.of_actor ha ha' hagents) happlied
      (.storeTick ha serialized) (.inl hclock))
  | written =>
    obtain ⟨a, ha, hnext⟩ := bind_eq_some_iff.mp hnext
    obtain ⟨⟨k, told⟩, hw, hnext⟩ := bind_eq_some_iff.mp hnext
    cases hnext
    obtain ⟨hgoes, htold⟩ := h.coordinator.written ha hw
    obtain ⟨a', ha', hagents, happlied, hclock⟩ := written_keeps hw
    refine .passed ⟨hgoes, ?_, .of_actor ha ha' hagents, happlied, .written ha hw, .inl hclock⟩
    apply foldl_tell_kept told (h.agents a ha)
    intro u hu
    obtain ⟨r, hr, hsafe⟩ := htold u hu
    exact ⟨r, hr, hgoes.safe _ _ hsafe⟩
  | shutdownStore serialized =>
    obtain ⟨a, ha, hnext⟩ := bind_eq_some_iff.mp hnext
    cases hnext
    obtain ⟨hagents, happlied, hclock⟩ := store_keeps (k := w.coordinator) (a := a) true serialized
    exact .passed (.still (h.coordinator.shutdownStore ha serialized) (.of_actor ha rfl hagents) happlied
      (.shutdownStore ha serialized) (.inl hclock))
  | writerTake n =>
    simp only [World.next] at hnext
    split at hnext
    · next hcond =>
      cases hnext
      exact .passed (.still (h.coordinator.writerTake (isSome_iff_ne_none.mp hcond.1) n) (.of_eq rfl) rfl
        (.writerTake n) (.inl rfl))
    · cases hnext
  | writerLand =>
    obtain ⟨acks, hbusy, hnext⟩ := bind_eq_some_iff.mp hnext
    obtain ⟨bytes, hbytes, hnext⟩ := bind_eq_some_iff.mp hnext
    cases hnext
    exact .passed (.still (h.coordinator.writerLand hbusy hbytes) (.of_eq rfl) rfl (.writerLand hbytes) (.inl rfl))
  | writerFinish ok =>
    obtain ⟨acks, hbusy, hnext⟩ := bind_eq_some_iff.mp hnext
    cases hnext
    obtain ⟨hactor, happlied, hclock⟩ := writerFinish_keeps w.coordinator acks ok
    exact .passed (.still (h.coordinator.writerFinish hbusy ok) (.of_eq hactor) happlied (.writerFinish acks ok)
      (.inl hclock))
  | kill =>
    cases hnext
    refine .passed ⟨h.coordinator.kill, ?_, nofun, rfl, .kill, .inl rfl⟩
    intro c
    dsimp only
    cases w.conns c with
    | none => exact .none
    | some k => exact .some { up := nil_sublist _, served := nofun }
  | restart moved =>
    simp only [World.next] at hnext
    split at hnext
    · next hnone =>
      cases hnext
      exact .restarted (isNone_iff_eq_none.mp hnone)
    · cases hnext

theorem Linked.turn (h : Linked w) {step : Step} (ht : Turn w step w') : Linked w' := by
  cases ht with
  | said hhello hline => exact h.moves (.say h hhello hline)
  | connected hperm => exact h.connect hperm
  | lost => exact h.moves (.lose h _)
  | framed hc hk hdown hacked => exact h.moves (.frame h hc hk hdown hacked)
  | passed hp => exact h.moves hp.moves
  | @reported _ _ _ a k sbdf error r up host ha hk hserved hup hlookup =>
    refine h.moves (.ofKeeps (h.coordinator.quarantine ha ⟨host, sbdf⟩ error r) (.update hk ?_) (.of_actor ha rfl rfl))
    exact { up := fun _ hmem => .inl (by rw [hup]; exact mem_cons_of_mem _ hmem) }
  | @greeted c now moved a k host up ha hk hgreeted hup =>
    refine h.moves (.ofCoordinator (h.coordinator.applyOther ha _ nofun) (.update hk ?_) ?_)
    · exact { up := fun _ hmem => .inl (by rw [hup]; exact mem_cons_of_mem _ hmem) }
    · intro a' ha' e he
      rcases agentHello_agents ha' e he with rfl | he
      · exact .inr ⟨k, hk, (h.up c k host hk (by rw [hup]; exact mem_cons_self)).symm⟩
      · exact .inl ⟨a, ha, he⟩
  | @released g now moved a ha =>
    exact h.moves (.ofKeeps (h.coordinator.applyOther ha a.agents nofun) (.refl _) (.of_actor ha rfl rfl))
  | restarted hnone =>
    refine h.moves (.ofCoordinator (h.coordinator.restart hnone _) (.refl _) ?_)
    rintro a' ⟨⟩ e he
    cases he

end Moves

theorem Linked.initial : Linked World.initial where
  coordinator := by
    refine ⟨nofun, ?_, ⟨nofun, nofun, fun _ hn => absurd rfl hn⟩,
      fun _ => rfl, nofun⟩
    intro p hp
    cases mem_singleton.mp hp
    exact ⟨nofun, nofun⟩
  made _ hx := by cases hx
  held _ _ _ hn := by cases hn
  replayed _ hx := by cases hx
  acked _ hx := by cases hx
  conns _ hc := absurd rfl hc
  hello _ _ hmem := by cases hmem
  onConn _ _ hc := by cases hc
  agents _ ha := by cases ha
  up _ _ _ hk := by cases hk
  down _ _ _ _ hk := by cases hk

theorem linked {w : World} (h : composition.Reachable w) : Linked w := by
  apply h.invariant
  · rintro w rfl
    exact Linked.initial
  · intro w step w' hw hnext
    exact hw.turn (turn_of_next hw hnext)

end World

end Fcvm.Fleet
