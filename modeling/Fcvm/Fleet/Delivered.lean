import Fcvm.Fleet.Linked

namespace Fcvm.Fleet

open Library List Function Option

variable {c now moved : ℕ} {a : Actor} {host : String} {up : List Line}

def Line.NotNewer (l l' : Line) : Prop :=
  ∀ s e n e' n', l = .quarantine s e n → l' = .quarantine s e' n' → n ≤ n'

namespace World

def Current (w : World) (c : ℕ) (k : Conn) : Prop :=
  ∀ c' k', c < c' → w.conns c' = some k' → k'.host = k.host → k'.greeted = false

structure Queued (w : World) : Prop where
  filed : ∀ host, (w.agents host).replay.Filed
  latest : ∀ host sbdf n, (w.agents host).replay.held sbdf = some n → ∀ m, (⟨host, sbdf⟩, m) ∈ w.made → m ≤ n
  newest : ∀ host c, (w.agents host).conn = some c → ∀ c' k', w.conns c' = some k' → k'.host = host → c' ≤ c
  up : ∀ c k sbdf e n, w.conns c = some k → .quarantine sbdf e n ∈ k.up → (⟨k.host, sbdf⟩, n) ∈ w.made
  sorted : ∀ c k, w.conns c = some k → k.up.Pairwise Line.NotNewer
  across : ∀ c c' k k', c < c' → w.conns c = some k → w.conns c' = some k' → k'.host = k.host →
    ∀ l ∈ k.up, ∀ l' ∈ k'.up, Line.NotNewer l l'
  applied : ∀ g n t, (g, n, t) ∈ w.coordinator.applied → (g, n) ∈ w.made

structure Ordered (w : World) : Prop extends Queued w where
  greeted : ∀ a, w.coordinator.actor = some a → ∀ e ∈ a.agents.entries, ∀ k, w.conns e.1 = some k →
    k.greeted = true ∧ w.Current e.1 k
  live : ∀ c k, w.conns c = some k → k.served = true → w.Current c k → ∀ sbdf e n, .quarantine sbdf e n ∈ k.up →
    ∀ m t, (⟨k.host, sbdf⟩, m, t) ∈ w.coordinator.applied → m ≤ n

instance : Std.Refl Meets where
  refl _ := {}

instance : Std.Refl Shortens where
  refl _ := {}

instance : Std.Refl Trims where
  refl _ := {}

structure Drains (R : Conn → Conn → Prop) (w w' : World) : Prop where
  conns : Pointwise R w.conns w'.conns
  onConn : ∀ host c, (w'.agents host).conn = some c → (w.agents host).conn = some c := by exact fun _ _ hc => hc
  replay : ∀ host, (w'.agents host).replay = (w.agents host).replay ∨
    ∃ f, (w'.agents host).replay = (w.agents host).replay.coordinatorFrame f := by exact fun _ => .inl rfl
  made : w'.made = w.made := by rfl
  applied : ∀ g n t, (g, n, t) ∈ w'.coordinator.applied → (g, n, t) ∈ w.coordinator.applied ∨
    (g, n) ∈ w.made ∧ ∀ c k, w'.conns c = some k → k.host = g.host → k.served = true → w'.Current c k →
      ∀ e m, .quarantine g.sbdf e m ∈ k.up → n ≤ m := by exact fun _ _ _ hmem => .inl hmem

structure Shrinks (w w' : World) : Prop extends Drains Trims w w' where
  agents : KeepsAgents w.coordinator w'.coordinator := by exact .of_eq rfl

section Trim

variable {w w' : World}

variable {k k' : Conn}

theorem current_iff (h : Pointwise Meets w.conns w'.conns) (ht : Meets k k') : w'.Current c k' ↔ w.Current c k := by
  constructor
  · intro hc c₂ k₂ hlt hk₂ hhost
    obtain ⟨k₂', hk₂', ht₂⟩ := h.after hk₂
    rw [← ht₂.greeted]
    exact hc c₂ k₂' hlt hk₂' (ht₂.host.trans (hhost.trans ht.host.symm))
  · intro hc c₂ k₂' hlt hk₂' hhost
    obtain ⟨k₂, hk₂, ht₂⟩ := h.before hk₂'
    rw [ht₂.greeted]
    exact hc c₂ k₂ hlt hk₂ (ht₂.host.symm.trans (hhost.trans ht.host))

theorem Queued.drains (h : Queued w) (hs : Drains Shortens w w') : Queued w' where
  filed host := by
    rcases hs.replay host with heq | ⟨f, heq⟩
    · rw [heq]
      exact h.filed host
    · rw [heq]
      exact (h.filed host).coordinatorFrame f
  latest := by
    intro host sbdf n hn m hm
    rw [hs.made] at hm
    apply h.latest host sbdf n _ m hm
    rcases hs.replay host with heq | ⟨f, heq⟩
    · rwa [heq] at hn
    · rw [heq] at hn
      exact Replay.held_of_coordinatorFrame hn
  newest := by
    intro host c hc c' k' hk' hhost
    obtain ⟨k, hk, ht⟩ := hs.conns.before hk'
    exact h.newest host c (hs.onConn host c hc) c' k hk (ht.host.symm.trans hhost)
  up := by
    intro c k' sbdf e n hk' hmem
    obtain ⟨k, hk, ht⟩ := hs.conns.before hk'
    rw [hs.made, ht.host]
    exact h.up c k sbdf e n hk (ht.up.subset hmem)
  sorted := by
    intro c k' hk'
    obtain ⟨k, hk, ht⟩ := hs.conns.before hk'
    exact (h.sorted c k hk).sublist ht.up
  across := by
    intro c₁ c₂ k₁' k₂' hlt hk₁' hk₂' hhost l hl l' hl'
    obtain ⟨k₁, hk₁, ht₁⟩ := hs.conns.before hk₁'
    obtain ⟨k₂, hk₂, ht₂⟩ := hs.conns.before hk₂'
    exact h.across c₁ c₂ k₁ k₂ hlt hk₁ hk₂ (ht₂.host.symm.trans (hhost.trans ht₁.host)) l (ht₁.up.subset hl) l'
      (ht₂.up.subset hl')
  applied := by
    intro g n t hmem
    rw [hs.made]
    rcases hs.applied g n t hmem with hmem | ⟨hmade, -⟩
    · exact h.applied g n t hmem
    · exact hmade

theorem Ordered.shrinks (h : Ordered w) (hs : Shrinks w w') : Ordered w' where
  toQueued := h.toQueued.drains { hs with conns := hs.conns.mono fun _ _ ht => ht.toShortens }
  greeted := by
    intro a' ha' e he k' hk'
    obtain ⟨a, ha, hsub⟩ := hs.agents a' ha'
    obtain ⟨k, hk, ht⟩ := hs.conns.before hk'
    obtain ⟨hgreeted, hcurrent⟩ := h.greeted a ha e (hsub he) k hk
    exact ⟨ht.greeted.trans hgreeted, (current_iff (hs.conns.mono fun _ _ ht => ht.toMeets) ht.toMeets).mpr hcurrent⟩
  live := by
    intro c k' hk' hserved hcurrent sbdf e n hmem m t happlied
    rcases hs.applied _ m t happlied with happlied | ⟨-, hnewest⟩
    · obtain ⟨k, hk, ht⟩ := hs.conns.before hk'
      rw [ht.host] at happlied
      have hwas := (current_iff (hs.conns.mono fun _ _ ht => ht.toMeets) ht.toMeets).mp hcurrent
      exact h.live c k hk (ht.served hserved) hwas sbdf e n (ht.up.subset hmem) m t happlied
    · exact hnewest c k' hk' rfl hserved hcurrent e n hmem

theorem Shrinks.ofCoordinator {x : Coordinator} {conns : ℕ → Option Conn}
    (hconns : Pointwise Trims w.conns conns) (hagents : KeepsAgents w.coordinator x)
    (happlied : x.applied = w.coordinator.applied) : Shrinks w { w with coordinator := x, conns := conns } where
  conns := hconns
  agents := hagents
  applied g n t hmem := by
    dsimp only at hmem
    rw [happlied] at hmem
    exact .inl hmem

end Trim

section Steps

variable {w w' : World}

variable {k : Conn}

theorem Linked.lookup_host (h : Linked w)
    (ha : w.coordinator.actor = some a) (hk : w.conns c = some k) (hlookup : a.agents.lookup c = some host) :
    ⟨c, host⟩ ∈ a.agents.entries ∧ k.host = host := by
  have hmem := AList.mem_lookup_iff.mp hlookup
  obtain ⟨k', hk', hhost⟩ := h.agents a ha _ hmem
  cases hk.symm.trans hk'
  exact ⟨hmem, hhost⟩

theorem Ordered.accepted (h : Ordered w) (hl : Linked w) {sbdf : Sbdf}
    {error : String} {r : ℕ} (ha : w.coordinator.actor = some a) (hk : w.conns c = some k)
    (hserved : k.served = true) (hup : k.up = .quarantine sbdf error r :: up)
    (hlookup : a.agents.lookup c = some host) :
    ∀ n t, (⟨host, sbdf⟩, n, t) ∈ w.coordinator.applied → n ≤ r := by
  obtain ⟨hmem, rfl⟩ := hl.lookup_host ha hk hlookup
  obtain ⟨-, hcurrent⟩ := h.greeted a ha _ hmem k hk
  exact h.live c k hk hserved hcurrent sbdf error r (by rw [hup]; exact mem_cons_self)

theorem Ordered.takeReport (h : Ordered w) (hl : Linked w) {sbdf : Sbdf} {error : String} {r : ℕ}
    (ha : w.coordinator.actor = some a) (hk : w.conns c = some k) (hup : k.up = .quarantine sbdf error r :: up)
    (hlookup : a.agents.lookup c = some host) :
    Ordered { w with
      conns := update w.conns c (some { k with up := up })
      coordinator := w.coordinator.quarantine a ⟨host, sbdf⟩ error r now moved } := by
  obtain ⟨hmem, rfl⟩ := hl.lookup_host ha hk hlookup
  obtain ⟨hgreeted, -⟩ := h.greeted a ha _ hmem k hk
  refine h.shrinks
    { conns := .update hk { up := hup ▸ sublist_cons_self _ _ }, agents := .of_actor ha rfl rfl, applied := ?_ }
  intro g n t happlied
  rcases mem_cons.mp happlied with heq | happlied
  · cases heq
    refine .inr ⟨h.up c k sbdf error r hk (by rw [hup]; exact mem_cons_self), ?_⟩
    intro c₂ k₂ hk₂ hhost hserved hcurrent e m hmem₂
    have hsorted : k.up.Pairwise Line.NotNewer := h.sorted c k hk
    rw [hup] at hsorted
    dsimp only at hk₂
    by_cases hc : c₂ = c
    · subst hc
      rw [update_self] at hk₂
      cases hk₂
      exact (pairwise_cons.mp hsorted).1 _ hmem₂ sbdf error r e m rfl rfl
    · have hk₂' : w.conns c₂ = some k₂ := by rwa [update_of_ne hc] at hk₂
      -- the connection the report came on has been greeted, so a current one is newer
      have hlt : c < c₂ := by
        by_contra hge
        have hfalse := hcurrent c { k with up := up } (by omega) (update_self ..) hhost.symm
        cases hgreeted.symm.trans hfalse
      exact h.across c c₂ k k₂ hlt hk hk₂' hhost _ (by rw [hup]; exact mem_cons_self) _ hmem₂ sbdf error r e m
        rfl rfl
  · exact .inl happlied

theorem Ordered.takeHello (h : Ordered w) (hl : Linked w)
    (ha : w.coordinator.actor = some a) (hk : w.conns c = some k) (hup : k.up = .hello host :: up)
    (hcurrent : w.Current c k) :
    Ordered { w with
      conns := update w.conns c (some { k with up := up, greeted := true })
      coordinator := w.coordinator.agentHello a c host now moved } := by
  have hhost : host = k.host := hl.up c k host hk (by rw [hup]; exact mem_cons_self)
  have hconns : Pointwise Shortens w.conns (update w.conns c (some { k with up := up, greeted := true })) :=
    .update hk { up := hup ▸ sublist_cons_self _ _ }
  have hwas : ∀ c₂ k₂ k₀, k₂.host = k₀.host → ({ w with
      conns := update w.conns c (some { k with up := up, greeted := true })
      coordinator := w.coordinator.agentHello a c host now moved } : World).Current c₂ k₂ → w.Current c₂ k₀ := by
    intro c₂ k₂ k₀ hsame hcur c₃ k₃ hlt hk₃ hhost₃
    by_cases hc : c₃ = c
    · subst hc
      have hfalse := hcur c₃ _ hlt (update_self ..) (by rw [hk] at hk₃; cases hk₃; exact hhost₃.trans hsame.symm)
      cases hfalse
    · exact hcur c₃ k₃ hlt (by dsimp only; rwa [update_of_ne hc]) (hhost₃.trans hsame.symm)
  refine ⟨h.toQueued.drains { conns := hconns }, ?_, ?_⟩
  · intro a' ha' e he k₂ hk₂
    cases ha'
    dsimp only at he
    rw [AList.entries_insert] at he
    rcases mem_cons.mp he with rfl | he
    · dsimp only at hk₂ ⊢
      rw [update_self] at hk₂
      cases hk₂
      refine ⟨rfl, ?_⟩
      intro c₃ k₃ hlt hk₃ hhost₃
      dsimp only at hk₃
      rw [update_of_ne (by omega)] at hk₃
      exact hcurrent c₃ k₃ hlt hk₃ hhost₃
    · -- the connection of another host
      obtain ⟨hmem, hother⟩ := mem_filter.mp ((kerase_sublist _ _).subset he)
      have hne : e.2 ≠ host := by simpa using hother
      obtain ⟨k₀, hk₀, hhost₀⟩ := hl.agents a ha e hmem
      have hec : e.1 ≠ c := by
        intro heq
        rw [heq, hk] at hk₀
        cases hk₀
        exact hne (hhost₀.symm.trans hhost.symm)
      dsimp only at hk₂
      rw [update_of_ne hec] at hk₂
      cases hk₀.symm.trans hk₂
      obtain ⟨hgreeted, hcur⟩ := h.greeted a ha e hmem k₂ hk₀
      refine ⟨hgreeted, ?_⟩
      intro c₃ k₃ hlt hk₃ hhost₃
      rcases update_some.mp hk₃ with ⟨-, rfl⟩ | ⟨-, hk₃⟩
      · exact absurd (hhost₀.symm.trans (hhost₃.symm.trans hhost.symm)) hne
      · exact hcur c₃ k₃ hlt hk₃ hhost₃
  · intro c₂ k₂ hk₂ hserved hcur sbdf e n hmem m t happlied
    obtain ⟨k₀, hk₀, hs⟩ := hconns.before hk₂
    rw [hs.host] at happlied
    exact h.live c₂ k₀ hk₀ (hs.served hserved) (hwas c₂ k₂ k₀ hs.host hcur) sbdf e n (hs.up.subset hmem) m t happlied

theorem Ordered.say (h : Ordered w) (hl : Linked w) {l : Line} {made : List (GpuId × ℕ)}
    {nextReport : ℕ}
    (hline : (∀ s e n, l ≠ .quarantine s e n) ∧ made = w.made ∨
      ∃ sbdf error, l = .quarantine sbdf error w.nextReport ∧ made = (⟨host, sbdf⟩, w.nextReport) :: w.made) :
    Ordered { w.say host l with nextReport := nextReport, made := made } := by
  have hsub : w.made ⊆ made := by
    rcases hline with ⟨-, rfl⟩ | ⟨-, -, -, rfl⟩
    · exact fun _ hx => hx
    · exact subset_cons_self _ _
  have hnew : ∀ s e n, l = .quarantine s e n → n = w.nextReport ∧ (⟨host, s⟩, n) ∈ made := by
    intro s e n heq
    rcases hline with ⟨hne, -⟩ | ⟨sbdf, error, hq, rfl⟩
    · exact absurd heq (hne s e n)
    · cases hq.symm.trans heq
      exact ⟨rfl, mem_cons_self⟩
  -- a connection is as it was, or is the agent's and has the line behind the others
  have hbefore : ∀ c k', (w.say host l).conns c = some k' → w.conns c = some k' ∨
      ∃ k, w.conns c = some k ∧ k' = { k with up := k.up ++ [l] } ∧ (w.agents host).conn = some c ∧ k.host = host := by
    intro c k' hk'
    cases hconn : (w.agents host).conn with
    | none =>
      apply Or.inl
      simpa [World.say, hconn] using hk'
    | some c₀ =>
      obtain ⟨k, hk, hhost⟩ := hl.onConn host c₀ hconn
      by_cases hc : c = c₀
      · subst hc
        simp only [World.say, hconn, hk, map_some, update_self, some.injEq] at hk'
        unfold Conn.push at hk'
        split at hk'
        · exact .inl (hk'.symm ▸ hk)
        · exact .inr ⟨k, hk, hk'.symm, rfl, hhost⟩
      · apply Or.inl
        simpa [World.say, hconn, update_of_ne hc] using hk'
  have hsame : Pointwise Meets w.conns (w.say host l).conns := by
    apply hl.say_conns
    intro k _
    unfold Conn.push
    split <;> exact {}
  refine ⟨⟨?_, ?_, ?_, ?_, ?_, ?_, ?_⟩, ?_, ?_⟩
  · intro host'
    dsimp only
    rw [say_replay]
    split
    · exact (h.filed host).note l
    · exact h.filed host'
  · intro host' sbdf n hn m hm
    dsimp only at hn hm
    rw [say_replay] at hn
    rcases hline with ⟨hne, rfl⟩ | ⟨s, error, rfl, rfl⟩
    · apply h.latest host' sbdf n _ m hm
      split at hn
      · next heq =>
        subst heq
        rwa [Replay.held_note hne] at hn
      · exact hn
    · by_cases hg : (⟨host', sbdf⟩ : GpuId) = ⟨host, s⟩
      · cases hg
        rw [if_pos rfl, Replay.held_note_quarantine, if_pos rfl] at hn
        cases hn
        rcases mem_cons.mp hm with heq | hm
        · cases heq
          exact le_refl _
        · exact (hl.made _ hm).le
      · rcases mem_cons.mp hm with heq | hm
        · cases heq
          exact absurd rfl hg
        · apply h.latest host' sbdf n _ m hm
          split at hn
          · next heq =>
            subst heq
            rw [Replay.held_note_quarantine] at hn
            rwa [if_neg (fun hs => hg (by rw [hs]))] at hn
          · exact hn
  · intro host' c hc c' k' hk' hhost'
    dsimp only at hc
    rw [say_conn] at hc
    obtain ⟨k, hk, hhosts, -⟩ := hsame.before hk'
    exact h.newest host' c hc c' k hk (hhosts.symm.trans hhost')
  · intro c k' sbdf e n hk' hmem
    rcases hbefore c k' hk' with hk | ⟨k, hk, rfl, -, hhost⟩
    · exact hsub (h.up c k' sbdf e n hk hmem)
    · rcases mem_append.mp hmem with hmem | hmem
      · exact hsub (h.up c k sbdf e n hk hmem)
      · dsimp only
        rw [hhost]
        exact (hnew sbdf e n (mem_singleton.mp hmem).symm).2
  · intro c k' hk'
    rcases hbefore c k' hk' with hk | ⟨k, hk, rfl, -, -⟩
    · exact h.sorted c k' hk
    · refine pairwise_append.mpr ⟨h.sorted c k hk, pairwise_singleton _ _, ?_⟩
      intro l₀ hl₀ l₁ hl₁ s e n e' n' heq heq'
      cases mem_singleton.mp hl₁
      subst heq
      rw [(hnew s e' n' heq').1]
      exact (hl.made _ (h.up c k s e n hk hl₀)).le
  · intro c₁ c₂ k₁' k₂' hlt hk₁' hk₂' hhost l₁ hl₁ l₂ hl₂
    obtain ⟨k₂, hk₂, hsame₂, -⟩ := hsame.before hk₂'
    rcases hbefore c₁ k₁' hk₁' with hk₁ | ⟨k₁, hk₁, rfl, hconn, hhost₁⟩
    · rcases hbefore c₂ k₂' hk₂' with hk₂ | ⟨k₂, hk₂, rfl, -, -⟩
      · exact h.across c₁ c₂ k₁' k₂' hlt hk₁ hk₂ hhost l₁ hl₁ l₂ hl₂
      · rcases mem_append.mp hl₂ with hl₂ | hl₂
        · exact h.across c₁ c₂ k₁' k₂ hlt hk₁ hk₂ hhost l₁ hl₁ l₂ hl₂
        · intro s e n e' n' heq heq'
          cases mem_singleton.mp hl₂
          subst heq
          rw [(hnew s e' n' heq').1]
          exact (hl.made _ (h.up c₁ k₁' s e n hk₁ hl₁)).le
    · -- the agent sends on its newest connection
      have hle := h.newest host c₁ hconn c₂ k₂ hk₂ (hsame₂.symm.trans (hhost.trans hhost₁))
      omega
  · exact fun g n t hmem => hsub (h.applied g n t hmem)
  · intro a ha e he k' hk'
    obtain ⟨k, hk, hm⟩ := hsame.before hk'
    obtain ⟨hgreeted, hcur⟩ := h.greeted a ha e he k hk
    exact ⟨hm.greeted.trans hgreeted, (current_iff hsame hm).mpr hcur⟩
  · intro c k' hk' hserved hcur sbdf e n hmem m t happlied
    rcases hbefore c k' hk' with hk | ⟨k, hk, rfl, -, -⟩
    · exact h.live c k' hk hserved ((current_iff hsame {}).mp hcur) sbdf e n hmem m t happlied
    · rcases mem_append.mp hmem with hmem | hmem
      · exact h.live c k hk hserved ((current_iff hsame {}).mp hcur) sbdf e n hmem m t happlied
      · rw [(hnew sbdf e n (mem_singleton.mp hmem).symm).1]
        exact (hl.made _ (h.applied _ m t happlied)).le

theorem Ordered.connect (h : Ordered w) (hl : Linked w) {lines : List Line}
    (hperm : lines.isPerm (w.agents host).replay.lines) :
    Ordered { w with
      agents := update w.agents host { w.agents host with conn := some w.nextConn }
      conns := update w.conns w.nextConn (some ⟨host, lines, [], false, false, w.coordinator.actor.isSome⟩)
      nextConn := w.nextConn + 1 } := by
  -- what the new connection is told is what the table holds
  have hheld : ∀ s e n, .quarantine s e n ∈ lines → (w.agents host).replay.held s = some n :=
    fun s e n hmem => (h.filed host).held ((isPerm_iff.mp hperm).subset hmem)
  refine ⟨⟨?_, ?_, ?_, ?_, ?_, ?_, h.applied⟩, ?_, ?_⟩
  · intro host'
    dsimp only
    rw [replay_setConn]
    exact h.filed host'
  · intro host' sbdf n hn m hm
    dsimp only at hn
    rw [replay_setConn] at hn
    exact h.latest host' sbdf n hn m hm
  · intro host' c hc c' k' hk' hhost'
    dsimp only at hc hk'
    rcases hl.opened_cases hk' with ⟨hk', hlt⟩ | ⟨rfl, rfl⟩
    · by_cases heq : host' = host
      · subst heq
        rw [update_self] at hc
        cases hc
        exact hlt.le
      · rw [update_of_ne heq] at hc
        exact h.newest host' c hc c' k' hk' hhost'
    · dsimp only at hhost'
      subst hhost'
      rw [update_self] at hc
      cases hc
      exact le_refl _
  · intro c k sbdf e n hk hmem
    rcases hl.opened_cases hk with ⟨hk, -⟩ | ⟨-, rfl⟩
    · exact h.up c k sbdf e n hk hmem
    · exact hl.held host sbdf n (hheld sbdf e n hmem)
  · intro c k hk
    rcases hl.opened_cases hk with ⟨hk, -⟩ | ⟨-, rfl⟩
    · exact h.sorted c k hk
    · apply pairwise_of_forall_mem_list
      intro l hmem l' hmem' s e n e' n' heq heq'
      subst heq heq'
      have hsame := (hheld s e n hmem).symm.trans (hheld s e' n' hmem')
      exact (some.inj hsame).le
  · intro c₁ c₂ k₁ k₂ hlt hk₁ hk₂ hhost l hmem l' hmem'
    rcases hl.opened_cases hk₁ with ⟨hk₁, -⟩ | ⟨rfl, -⟩
    · rcases hl.opened_cases hk₂ with ⟨hk₂, -⟩ | ⟨-, rfl⟩
      · exact h.across c₁ c₂ k₁ k₂ hlt hk₁ hk₂ hhost l hmem l' hmem'
      · intro s e n e' n' heq heq'
        subst heq heq'
        apply h.latest host s n' (hheld s e' n' hmem')
        have hmade := h.up c₁ k₁ s e n hk₁ hmem
        rwa [← hhost] at hmade
    · rcases hl.opened_cases hk₂ with ⟨-, hlt'⟩ | ⟨rfl, -⟩
      · omega
      · omega
  · intro a ha e he k hk
    obtain ⟨k₀, hk₀, -⟩ := hl.agents a ha e he
    have heq : k = k₀ := some.inj (hk.symm.trans (hl.opened_kept hk₀ _))
    subst heq
    obtain ⟨hgreeted, hcur⟩ := h.greeted a ha e he k hk₀
    refine ⟨hgreeted, ?_⟩
    intro c₂ k₂ hlt hk₂ hhost
    rcases hl.opened_cases hk₂ with ⟨hk₂, -⟩ | ⟨-, rfl⟩
    · exact hcur c₂ k₂ hlt hk₂ hhost
    · rfl
  · intro c k hk hserved hcur sbdf e n hmem m t happlied
    rcases hl.opened_cases hk with ⟨hk, -⟩ | ⟨-, rfl⟩
    · apply h.live c k hk hserved _ sbdf e n hmem m t happlied
      exact fun c₂ k₂ hlt hk₂ hhost => hcur c₂ k₂ hlt (hl.opened_kept hk₂ _) hhost
    · exact h.latest host sbdf n (hheld sbdf e n hmem) m (h.applied _ m t happlied)

theorem Ordered.turn (h : Ordered w) (hl : Linked w) {step : Step} (ht : Turn w step w')
    (hcurrent : ∀ c now moved k host up, step = .take c now moved → w.conns c = some k → k.greeted = false →
      k.up = .hello host :: up → w.Current c k) : Ordered w' := by
  cases ht with
  | said _ hline =>
    apply h.say hl
    rcases hline with ⟨hne, hmade, -⟩ | ⟨sbdf, error, hl, hmade, -⟩
    · exact .inl ⟨hne, hmade⟩
    · exact .inr ⟨sbdf, error, hl, hmade⟩
  | connected hperm => exact h.connect hl hperm
  | @lost host =>
    have hm := Moves.lose hl host
    exact h.shrinks
      { conns := .refl _, onConn := fun _ => (hm.agents _).conn, replay := fun _ => .inl (replay_setConn ..) }
  | @framed host c k f down acked hc hk hdown hacked =>
    have hm := Moves.frame hl hc hk hdown hacked
    refine h.shrinks { conns := .update hk {}, onConn := fun _ => (hm.agents _).conn, replay := fun host' => ?_ }
    by_cases heq : host' = host
    · subst heq
      exact .inr ⟨f, by simp⟩
    · exact .inl (by simp [heq])
  | passed hp =>
    exact h.shrinks (Shrinks.ofCoordinator (hp.conns.mono fun _ _ hkept => hkept.toTrims) hp.agents hp.applied)
  | reported ha hk _ hup hlookup => exact h.takeReport hl ha hk hup hlookup
  | greeted ha hk hgreeted hup => exact h.takeHello hl ha hk hup (hcurrent _ _ _ _ _ _ rfl hk hgreeted hup)
  | released ha => exact h.shrinks (Shrinks.ofCoordinator (.refl _) (KeepsAgents.of_actor ha rfl rfl) rfl)
  | restarted =>
    refine { h with greeted := ?_ }
    rintro a ⟨⟩ e he
    cases he

end Steps

theorem Ordered.initial : Ordered World.initial where
  filed _ := ⟨nofun, nofun⟩
  latest _ _ _ hn := by cases hn
  newest _ _ hc := by cases hc
  up _ _ _ _ _ hk := by cases hk
  sorted _ _ hk := by cases hk
  across _ _ _ _ _ hk := by cases hk
  applied _ _ _ hmem := by cases hmem
  greeted _ ha := by cases ha
  live _ _ hk := by cases hk

end World

end Fcvm.Fleet
