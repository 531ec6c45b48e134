import Fcvm.GpuHosts.Requests

namespace Fcvm.GpuHosts

open Library Prog List

variable {cfg : Config} {P : Prop} {want now : ℕ} {c c' : Cloud} {region : Region} {hosts : List Host} {found : List ℕ}
  {todo : List (Region × List Host)} {st : Pass} {l : Lost} {before after : List Lost} {ids : List ℕ}

/-- A pass within a region, begun at `now`: `found` are instances of it beside the list, `todo` the lists of the regions
to come. -/
structure InRegion (cfg : Config) (P : Prop) (want now : ℕ) (c : Cloud) (st : Pass) (region : Region)
    (hosts : List Host)
    (found : List ℕ) (todo : List (Region × List Host)) : Prop where
  ours : region ∈ cfg.regions
  wanted : c.want = want
  begun : now ≤ c.time
  books : Books cfg c st.recent st.tokens
  budget : P → load c st.tokens ≤ cfg.onDemandMax
  shown : Shown c region hosts
  covered : Covered c st.tokens region hosts found
  others : ∀ p ∈ todo, p.1 ≠ region ∧ Shown c p.1 p.2 ∧ Covered c st.tokens p.1 p.2 []
  counted : ∀ n, st.onDemand = some n → Counted c st.tokens ((region, hosts) :: todo) n

section

variable (h : InRegion cfg P want now c st region hosts found todo)
include h

theorem InRegion.later (hl : Later c c') :
    InRegion cfg P want now c' st region hosts found todo where
  ours := h.ours
  wanted := hl.want.trans h.wanted
  begun := h.begun.trans hl.time
  books := h.books.later hl
  budget hP := (load_later hl).trans (h.budget hP)
  shown := h.shown.later hl
  covered := h.covered.later hl
  others p hp := by
    obtain ⟨hne, hshown, hcovered⟩ := h.others p hp
    exact ⟨hne, hshown.later hl, hcovered.later hl⟩
  counted n hn := (h.counted n hn).later hl

theorem InRegion.ask {st' : Pass} (hwf : (ask c l ids).WF cfg.regions) (ha : Asks st.tokens before after l)
    (hmay : c.mayLaunch l.count l.token ids = true) (htokens : st'.tokens = before ++ l :: after)
    (hrecent : st'.recent = st.recent)
    (hfresh : ∀ e ∈ st.recent, ∀ x ∈ c.instances, x.id = e.id → x.token ≠ some l.token)
    (hbudget : P → load c (before ++ l :: after) ≤ cfg.onDemandMax)
    (hcount : ∀ n', st'.onDemand = some n' →
      ∃ n, st.onDemand = some n ∧ n + reserved (before ++ l :: after) ≤ n' + reserved st.tokens) :
    InRegion cfg P want now (GpuHosts.ask c l ids) st' region hosts found todo where
  ours := h.ours
  wanted := h.wanted
  begun := h.begun
  books := by
    rw [htokens, hrecent]
    exact h.books.ask hwf ha hfresh
  budget hP := by
    rw [htokens]
    exact (load_ask (fun m hm => (ha.others m hm).2) hmay).trans (hbudget hP)
  shown := h.shown.ask
  covered := by
    rw [htokens]
    exact h.covered.ask ha
  others p hp := by
    obtain ⟨hne, hshown, hcovered⟩ := h.others p hp
    rw [htokens]
    exact ⟨hne, hshown.ask, hcovered.ask ha⟩
  counted n' hn' := by
    obtain ⟨n, hn, hle⟩ := hcount n' hn'
    rw [htokens]
    exact (h.counted n hn).ask ha hwf hle

theorem InRegion.answered {st' : Pass} (hregion : l.region = region)
    (htokens : st.tokens = before ++ l :: after) (htokens' : st'.tokens = before ++ after)
    (hf : Follows hosts region l (c.launchedBy l.token) st.recent st'.recent)
    (hcount : ∀ n', st'.onDemand = some n' → ∃ n, st.onDemand = some n ∧
      if l.market = .onDemand then n - l.count + (unlisted hosts (c.launchedBy l.token)).length ≤ n' else n ≤ n') :
    InRegion cfg P want now c st' region hosts (found ++ unlisted hosts (c.launchedBy l.token)) todo := by
  have hbooks := h.books
  have hbudget := h.budget
  have hcovered := h.covered
  have hothers := h.others
  have hcounted := h.counted
  rw [htokens] at hbooks hbudget hcovered hothers hcounted
  constructor
  · exact h.ours
  · exact h.wanted
  · exact h.begun
  · rw [htokens']
    exact hbooks.answered hregion h.shown hf
  · intro hP
    rw [htokens']
    exact (load_answered c before after l).trans (hbudget hP)
  · exact h.shown
  · rw [htokens']
    exact hcovered.answered hbooks.wf h.shown
  · intro p hp
    obtain ⟨hne, hshown, hp'⟩ := hothers p hp
    rw [htokens']
    exact ⟨hne, hshown, hp'.answered_elsewhere hbooks (by rw [hregion]; exact hne.symm)⟩
  · intro n' hn'
    obtain ⟨n, hn, hle⟩ := hcount n' hn'
    rw [htokens']
    exact (hcounted n hn).answered hbooks.wf h.shown hle

theorem InRegion.uuid : InRegion cfg P want now { c with nextToken := c.nextToken + 1 } st region hosts found todo := by
  exact { h with
    books :=
      { wf := ⟨h.books.wf.ids, h.books.wf.regions, h.books.wf.tokens, h.books.wf.counts,
          fun t ht => h.books.wf.fresh t (Nat.le_of_succ_le ht)⟩
        lost := h.books.lost
        keys := h.books.keys
        named := h.books.named
        known := h.books.known } }

end

theorem InRegion.retain (h : InRegion cfg P want now c st region hosts [] todo) :
    InRegion cfg P want now c { st with recent := retainRecent region hosts now st.recent } region hosts [] todo := by
  exact { h with
    books :=
      { h.books with
        named := fun e he => h.books.named e (mem_of_mem_filter he)
        known := by
          intro x hx hlive t ht
          rcases h.books.known x hx hlive t ht with hl | ⟨e, he, hid⟩ | hgrace
          · exact .inl hl
          · by_cases hkeep : e ∈ retainRecent region hosts now st.recent
            · exact .inr (.inl ⟨e, hkeep, hid⟩)
            · obtain ⟨hregion, ⟨a, hask, hasked⟩, hnot⟩ := h.books.named_of_id he hx hid ht
              have hdropped : e.region = region ∧ ∀ host ∈ hosts, host.id = e.id →
                  host.state ≠ .pending ∧ (host.state = .running → LIST_GRACE ≤ now - e.asked) := by
                simp only [retainRecent, mem_filter, he, true_and, Bool.not_eq_true, not_not,
                  any_eq_false, Bool.and_eq_true, decide_eq_true_eq, not_and, not_or,
                  Bool.or_eq_true, Nat.not_lt] at hkeep
                exact ⟨hkeep.1, fun host hhost hid => hkeep.2 host hhost hid⟩
              rcases h.covered x hx (hregion.trans hdropped.1) hlive with ⟨host, hhost, hhid, hhlive⟩ | hfound |
                ⟨m, hm, hmt⟩
              · obtain ⟨hpending, hrunning⟩ := hdropped.2 host hhost (hhid.trans hid.symm)
                have hstate : host.state = .running := by
                  cases hs : host.state with
                  | pending => exact absurd hs hpending
                  | running => rfl
                  | stopping | stopped | shuttingDown | terminated =>
                    rw [hs] at hhlive
                    cases hhlive
                have hold := hrunning hstate
                have hnow := h.begun
                have hpos : 0 < LIST_GRACE := by decide
                refine .inr (.inr ⟨a, hask, ?_⟩)
                omega
              · cases hfound
              · exact absurd (Option.some.inj (hmt.symm.trans ht)) (hnot m hm)
          · exact .inr (.inr hgrace) } }

theorem mem_orInsertRecent {recent : List Recent} {r e : Recent} (h : e ∈ orInsertRecent recent r) :
    e ∈ recent ∨ e = r := by
  unfold orInsertRecent at h
  split at h
  · exact .inl h
  · rcases mem_append.mp h with h | h
    · exact .inl h
    · exact .inr (mem_singleton.mp h)

theorem subset_orInsertRecent {recent : List Recent} {r e : Recent} (h : e ∈ recent) : e ∈ orInsertRecent recent r := by
  unfold orInsertRecent
  split
  · exact h
  · exact mem_append_left _ h

theorem named_orInsertRecent (recent : List Recent) (r : Recent) : ∃ e ∈ orInsertRecent recent r, e.id = r.id := by
  unfold orInsertRecent
  split
  · next h =>
    obtain ⟨e, he, hid⟩ := any_eq_true.mp h
    exact ⟨e, he, by simpa using hid⟩
  · exact ⟨r, mem_append_right _ mem_cons_self, rfl⟩

theorem foldl_orInsertRecent (rs recent : List Recent) :
    (∀ e ∈ rs.foldl orInsertRecent recent, e ∈ recent ∨ e ∈ rs) ∧
    (∀ e ∈ recent, e ∈ rs.foldl orInsertRecent recent) ∧
    ∀ r ∈ rs, ∃ e ∈ rs.foldl orInsertRecent recent, e.id = r.id := by
  induction rs generalizing recent with
  | nil => exact ⟨fun e he => .inl he, fun e he => he, nofun⟩
  | cons r rs ih =>
    obtain ⟨hfrom, hkept, hnamed⟩ := ih (orInsertRecent recent r)
    rw [foldl_cons]
    refine ⟨?_, fun e he => hkept e (subset_orInsertRecent he), ?_⟩
    · intro e he
      rcases hfrom e he with he | he
      · rcases mem_orInsertRecent he with he | rfl
        · exact .inl he
        · exact .inr mem_cons_self
      · exact .inr (mem_cons_of_mem _ he)
    · intro r' hr'
      rcases mem_cons.mp hr' with rfl | hr'
      · obtain ⟨e, he, hid⟩ := named_orInsertRecent recent r'
        exact ⟨e, hkept e he, hid⟩
      · exact hnamed r' hr'

theorem foldl_insertRecent (rs recent : List Recent) :
    (∀ e ∈ rs.foldl insertRecent recent, e ∈ recent ∨ e ∈ rs) ∧
    (∀ e ∈ recent, ∃ e' ∈ rs.foldl insertRecent recent, e'.id = e.id) ∧
    ∀ r ∈ rs, ∃ e ∈ rs.foldl insertRecent recent, e.id = r.id := by
  induction rs generalizing recent with
  | nil => exact ⟨fun e he => .inl he, fun e he => ⟨e, he, rfl⟩, nofun⟩
  | cons r rs ih =>
    obtain ⟨hfrom, hkept, hnamed⟩ := ih (insertRecent recent r)
    have hself : r ∈ insertRecent recent r := mem_append_right _ mem_cons_self
    rw [foldl_cons]
    refine ⟨?_, ?_, ?_⟩
    · intro e he
      rcases hfrom e he with he | he
      · rcases mem_append.mp he with he | he
        · exact .inl (mem_of_mem_filter he)
        · cases mem_singleton.mp he
          exact .inr mem_cons_self
      · exact .inr (mem_cons_of_mem _ he)
    · intro e he
      by_cases hid : e.id = r.id
      · obtain ⟨e', he', hid'⟩ := hkept r hself
        exact ⟨e', he', hid'.trans hid.symm⟩
      · exact hkept e (mem_append_left _ (mem_filter.mpr ⟨he, by simpa using hid⟩))
    · intro r' hr'
      rcases mem_cons.mp hr' with rfl | hr'
      · exact hkept r' hself
      · exact hnamed r' hr'

theorem follows_recovered (hosts : List Host) (region : Region) (l : Lost) (ids : List ℕ) (recent : List Recent) :
    Follows hosts region l ids recent
      (((ids.filter fun id => !hosts.any fun h => h.id = id && !h.state.live).map
        fun id => (⟨id, region, l.market, l.last⟩ : Recent)).foldl orInsertRecent recent) := by
  obtain ⟨hfrom, hkept, hnamed⟩ := foldl_orInsertRecent
    ((ids.filter fun id => !hosts.any fun h => h.id = id && !h.state.live).map
      fun id => (⟨id, region, l.market, l.last⟩ : Recent)) recent
  refine ⟨?_, fun e he => ⟨e, hkept e he, rfl⟩, ?_⟩
  · intro e he
    rcases hfrom e he with he | he
    · exact .inl he
    · obtain ⟨id, hid, rfl⟩ := mem_map.mp he
      exact .inr ⟨mem_of_mem_filter hid, rfl, rfl⟩
  · intro id hid hlive
    refine hnamed ⟨id, region, l.market, l.last⟩ (mem_map.mpr ⟨id, mem_filter.mpr ⟨hid, ?_⟩, rfl⟩)
    simp only [Bool.not_eq_true', any_eq_false, Bool.and_eq_true, decide_eq_true_eq, Bool.not_eq_true', not_and,
      Bool.not_eq_false]
    exact fun h hh hid => hlive h hh hid

theorem follows_launched (hosts : List Host) (region : Region) (l : Lost) (ids : List ℕ) (recent : List Recent) :
    Follows hosts region l ids recent
      ((ids.map fun id => (⟨id, region, l.market, l.last⟩ : Recent)).foldl insertRecent recent) := by
  obtain ⟨hfrom, hkept, hnamed⟩ := foldl_insertRecent
    (ids.map fun id => (⟨id, region, l.market, l.last⟩ : Recent)) recent
  refine ⟨?_, hkept, ?_⟩
  · intro e he
    rcases hfrom e he with he | he
    · exact .inl he
    · obtain ⟨id, hid, rfl⟩ := mem_map.mp he
      exact .inr ⟨hid, rfl, rfl⟩
  · exact fun id hid _ => hnamed ⟨id, region, l.market, l.last⟩ (mem_map.mpr ⟨id, hid, rfl⟩)

end Fcvm.GpuHosts
