import Fcvm.GpuHosts.Regions

namespace Fcvm.GpuHosts

open Library Prog List

variable {cfg : Config} {P : Prop} {want now : ℕ} {c c' : Cloud} {region : Region} {hosts : List Host} {found : List ℕ}
  {todo : List (Region × List Host)} {st : Pass} {l : Lost}

theorem asked_lt (h : c.WF cfg.regions) {t : ℕ} {a : Ask} (ha : c.asks t = some a) : t < c.nextToken := by
  by_contra hle
  simp [h.fresh t (Nat.le_of_not_lt hle)] at ha

theorem InRegion.mayAskAgain (h : InRegion cfg P want now c st region hosts found todo) (hl : l ∈ st.tokens)
    (hregion : l.region = region) : MayAsk cfg P c region l.market l.count l.token := by
  obtain ⟨launched, hask⟩ := h.books.lost l hl
  constructor
  · exact h.ours
  · exact asked_lt h.books.wf hask
  · intro hnone
    cases hask.symm.trans hnone
  · intro a ha
    cases hask.symm.trans ha
    exact ⟨hregion, rfl, rfl⟩
  · intro hm hP hnone
    have hload := h.budget hP
    obtain ⟨before, after, htokens⟩ := append_of_mem hl
    rw [htokens] at hload
    have hself : unlaunched c l = l.count := by
      unfold unlaunched
      rw [if_pos hm, hnone]
      rfl
    simp only [load, map_append, map_cons, sum_append, sum_cons, hself] at hload
    omega

variable {asked : ℕ} {market : Market}

theorem InRegion.askAgain {ids : List ℕ} (h : InRegion cfg P want now c st region hosts found todo)
    (hl : l ∈ st.tokens) (hregion : l.region = region) (hmay : c.mayLaunch l.count l.token ids = true)
    (hwf : (c.launch region l.market l.count l.token asked ids).WF cfg.regions) :
    InRegion cfg P want now (c.launch region l.market l.count l.token asked ids)
      { st with tokens := touch st.tokens region l.market asked } region hosts found todo := by
  subst hregion
  obtain ⟨before, after, htokens, -, htouch⟩ := split_tokens h.books.keys hl
  have hkeys := h.books.keys
  rw [htokens] at hkeys
  have hasks : Asks st.tokens before after { l with last := asked } := by
    constructor
    · intro m hm
      have hmem : m ∈ st.tokens := by
        rw [htokens]
        exact mem_of_others hm
      exact ⟨hmem, fun heq => ne_of_others hkeys hm (launched_unique h.books hmem hl heq)⟩
    · intro m hm
      rw [htokens] at hm
      rcases mem_split hm with rfl | hm
      · exact .inr rfl
      · exact .inl hm
    · rw [map_append, map_cons] at hkeys ⊢
      exact hkeys
  refine h.ask (l := { l with last := asked }) hwf hasks hmay (htouch asked) rfl ?_ ?_ ?_
  · intro e he x hx hid ht
    exact (h.books.named_of_id he hx hid.symm ht).2.2 l hl rfl
  · intro hP
    have hload := h.budget hP
    rw [htokens] at hload
    simpa only [load, unlaunched, map_append, map_cons] using hload
  · intro n hn
    refine ⟨n, hn, ?_⟩
    rw [htokens, reserved_split, reserved_split]

theorem mem_touch {tokens : List Lost} {m : Lost} (h : m ∈ touch tokens region market asked) :
    ∃ m' ∈ tokens, m'.region = m.region ∧ m'.market = m.market := by
  obtain ⟨m', hm', rfl⟩ := mem_map.mp h
  refine ⟨m', hm', ?_⟩
  split <;> exact ⟨rfl, rfl⟩

theorem InRegion.recovered
    (h : InRegion cfg P want now c { st with tokens := touch st.tokens region l.market asked } region hosts found todo)
    (hl : l ∈ st.tokens) (hregion : l.region = region) :
    InRegion cfg P want now c
      (recovered region hosts l.market l asked (c.launchedBy l.token)
        { st with tokens := touch st.tokens region l.market asked })
      region hosts (found ++ unlisted hosts (c.launchedBy l.token)) todo := by
  subst hregion
  have hmem : { l with last := asked } ∈ touch st.tokens l.region l.market asked :=
    mem_map.mpr ⟨l, hl, if_pos (at_iff.mpr rfl)⟩
  obtain ⟨before, after, htokens, hremove, -⟩ := split_tokens h.books.keys hmem
  refine h.answered (l := { l with last := asked }) rfl htokens hremove (follows_recovered hosts l.region _ _ _) ?_
  intro n' hn'
  simp only [GpuHosts.recovered] at hn'
  split at hn'
  · next hm =>
    obtain ⟨n, hn, rfl⟩ := Option.map_eq_some_iff.mp hn'
    refine ⟨n, hn, ?_⟩
    rw [if_pos hm]
    exact Nat.le_refl _
  · next hm =>
    refine ⟨n', hn', ?_⟩
    rw [if_neg hm]

theorem reconcileFrom_spec (markets : List Market) {held : Bool}
    (h : InRegion cfg P want now c st region hosts found todo)
    (hleft : held = false → ∀ l ∈ st.tokens, l.region = region → l.market ∈ markets) :
    wp (contract cfg P) (reconcileFrom cfg region hosts markets found held st)
      (fun r c' => ∃ found', InRegion cfg P want now c' r.2 region hosts found' todo ∧
        ∀ f, r.1 = some f → f = found' ∧ ∀ l ∈ r.2.tokens, l.region ≠ region) c := by
  induction markets generalizing found held st c with
  | nil =>
    refine wp_ret ⟨found, h, ?_⟩
    intro f hf
    cases held with
    | true => cases hf
    | false =>
      cases hf
      refine ⟨rfl, ?_⟩
      intro l hl hregion
      cases hleft rfl l hl hregion
  | cons market markets ih =>
    rw [reconcileFrom]
    split
    · next hlookup =>
      apply ih h
      intro hheld l hl hregion
      rcases mem_cons.mp (hleft hheld l hl hregion) with hm | hm
      · exact absurd ⟨hregion, hm⟩ (lookup_none hlookup l hl)
      · exact hm
    · next l hlookup =>
      obtain ⟨hl, hregion, hmarket⟩ := lookup_mem hlookup
      subst hmarket
      apply wp_now
      intro c₁ hc₁ _
      have h₁ := h.later hc₁
      split
      · apply ih h₁
        intro hheld
        cases hheld
      · apply wp_launch (h₁.mayAskAgain hl hregion)
        intro c₂ ids hc₂ hmay hwf
        have h₂ := (h₁.later hc₂).askAgain hl hregion hmay hwf
        constructor
        · refine wp_ret ⟨found, h₂, ?_⟩
          intro f hf
          cases hf
        · intro refused failed
          apply ih (h₂.recovered hl hregion)
          intro hheld m hm hmregion
          obtain ⟨hm, hnot⟩ := mem_filter.mp hm
          obtain ⟨m', hm', hr, hmk⟩ := mem_touch hm
          rcases mem_cons.mp (hleft hheld m' hm' (hr.trans hmregion)) with heq | hin
          · have hat : m.at region l.market = true := at_iff.mpr (by rw [hmregion, ← hmk, heq])
            simp [hat] at hnot
          · rw [← hmk]
            exact hin

theorem reconcile_spec (h : InRegion cfg P want now c st region hosts [] todo) :
    wp (contract cfg P) (reconcile cfg region hosts st)
      (fun r c' => ∃ found', InRegion cfg P want now c' r.2 region hosts found' todo ∧
        ∀ f, r.1 = some f → f = found' ∧ ∀ l ∈ r.2.tokens, l.region ≠ region) c := by
  apply reconcileFrom_spec _ h
  intro _ l _ _
  cases l.market with
  | spot => exact mem_cons_self
  | onDemand => exact mem_cons_of_mem _ mem_cons_self

theorem askFor_ok {short ask : ℕ} {refused : List String} {onDemand : Option ℕ}
    (h : askFor cfg market short refused onDemand = .ok ask) :
    ask ≤ short ∧ (market = .onDemand → ∃ n, onDemand = some n ∧ n + ask ≤ cfg.onDemandMax) := by
  unfold askFor at h
  split at h
  · cases h
  · cases market with
    | spot =>
      cases h
      exact ⟨Nat.le_refl _, nofun⟩
    | onDemand =>
      simp only at h
      split at h
      · cases h
      · cases onDemand with
        | none => cases h
        | some n =>
          simp only at h
          split at h
          · cases h
          · cases h
            refine ⟨Nat.min_le_left _ _, fun _ => ⟨n, rfl, ?_⟩⟩
            omega

structure New (cfg : Config) (P : Prop) (want now : ℕ) (c : Cloud) (st : Pass) (region : Region) (hosts : List Host)
    (found : List ℕ) (todo : List (Region × List Host)) (l : Lost) : Prop where
  at_region : InRegion cfg P want now c st region hosts found todo
  named : l.region = region
  fresh : c.asks l.token = none
  used : l.token < c.nextToken
  none_lost : ∀ m ∈ st.tokens, m.region ≠ region
  room : (liveHosts hosts).length + found.length + l.count ≤ want
  onDemand : l.market = .onDemand → ∃ n, st.onDemand = some n ∧ n + l.count ≤ cfg.onDemandMax

section

variable (h : New cfg P want now c st region hosts found todo l)
include h

theorem New.later (hl : Later c c') :
    New cfg P want now c' st region hosts found todo l where
  at_region := h.at_region.later hl
  named := h.named
  fresh := by
    rw [hl.asks]
    exact h.fresh
  used := by
    rw [hl.nextToken]
    exact h.used
  none_lost := h.none_lost
  room := h.room
  onDemand := h.onDemand

theorem New.load_le (hm : l.market = .onDemand) : load c st.tokens + l.count ≤ cfg.onDemandMax := by
  obtain ⟨n, hn, hle⟩ := h.onDemand hm
  have hload := (h.at_region.counted n hn).load_le h.at_region.books
  omega

theorem New.mayAsk : MayAsk cfg P c region l.market l.count l.token := by
  constructor
  · exact h.at_region.ours
  · exact h.used
  · intro _
    have hlive := h.at_region.covered.liveIn_le h.at_region.books h.none_lost
    have hroom := h.room
    rw [h.at_region.wanted]
    omega
  · intro a ha
    cases h.fresh.symm.trans ha
  · intro hm _ _
    have hload := h.load_le hm
    unfold load at hload
    omega

theorem New.lookup_none : lookup st.tokens l.region l.market = none := by
  apply List.find?_eq_none.mpr
  intro m hm hat
  have heq := at_iff.mp hat
  rw [h.named, Prod.mk.injEq] at heq
  exact h.none_lost m hm heq.1

theorem New.token_ne {m : Lost} (hm : m ∈ st.tokens) : m.token ≠ l.token := by
  intro heq
  obtain ⟨launched, hask⟩ := h.at_region.books.lost m hm
  simp [heq, h.fresh] at hask

theorem New.asks : Asks st.tokens st.tokens [] l := by
  constructor
  · intro m hm
    rw [append_nil] at hm
    exact ⟨hm, h.token_ne hm⟩
  · intro m hm
    rw [append_nil]
    exact .inl hm
  · rw [map_append, map_cons, map_nil, nodup_append]
    refine ⟨h.at_region.books.keys, nodup_singleton _, ?_⟩
    intro k hk k' hk' heq
    obtain ⟨m, hm, rfl⟩ := mem_map.mp hk
    rw [mem_singleton.mp hk', Prod.mk.injEq] at heq
    exact h.none_lost m hm (heq.1.trans h.named)

def Pass.reserve (st : Pass) (l : Lost) : Pass :=
  { st with tokens := st.tokens ++ [l], onDemand := addOnDemand l.market l.count st.onDemand }

omit h in
theorem addOnDemand_eq_some {count n' : ℕ} {onDemand : Option ℕ} :
    addOnDemand market count onDemand = some n' ↔
      ∃ n, onDemand = some n ∧ n + (if market = .onDemand then count else 0) = n' := by
  unfold addOnDemand
  split
  · exact Option.map_eq_some_iff
  · simp

theorem New.ask {ids : List ℕ} (hmay : c.mayLaunch l.count l.token ids = true) (hwf : (ask c l ids).WF cfg.regions) :
    InRegion cfg P want now (GpuHosts.ask c l ids) (st.reserve l) region hosts found todo := by
  have hsplit := reserved_split st.tokens [] l
  rw [append_nil] at hsplit
  refine h.at_region.ask hwf h.asks hmay rfl rfl ?_ ?_ ?_
  · intro e he x hx hid ht
    obtain ⟨-, ⟨a, hask, -⟩, -⟩ := h.at_region.books.named_of_id he hx hid.symm ht
    cases h.fresh.symm.trans hask
  · intro hP
    have hload : load c (st.tokens ++ [l]) = load c st.tokens + unlaunched c l := by
      simp only [load, map_append, map_cons, map_nil, sum_append, sum_cons, sum_nil]
      omega
    rw [hload]
    unfold unlaunched
    split
    · next hm =>
      have hle := h.load_le hm
      split
      · omega
      · exact hle
    · exact h.at_region.budget hP
  · intro n' hn'
    obtain ⟨n, hn, rfl⟩ := addOnDemand_eq_some.mp hn'
    refine ⟨n, hn, ?_⟩
    rw [hsplit]
    omega

end

theorem InRegion.launched (h : InRegion cfg P want now c (st.reserve l) region hosts found todo)
    (hregion : l.region = region) :
    InRegion cfg P want now c
      { st with
        recent := ((c.launchedBy l.token).map fun id =>
          (⟨id, region, l.market, l.last⟩ : Recent)).foldl insertRecent st.recent
        onDemand := addOnDemand l.market (c.launchedBy l.token).length st.onDemand }
      region hosts (found ++ unlisted hosts (c.launchedBy l.token)) todo := by
  have htokens : (st.reserve l).tokens = st.tokens ++ l :: [] := rfl
  refine h.answered hregion htokens (append_nil _).symm (follows_launched hosts region l _ _) ?_
  intro n' hn'
  have hle : (unlisted hosts (c.launchedBy l.token)).length ≤ (c.launchedBy l.token).length := length_filter_le _ _
  obtain ⟨n, hn, rfl⟩ := addOnDemand_eq_some.mp hn'
  refine ⟨_, addOnDemand_eq_some.mpr ⟨n, hn, rfl⟩, ?_⟩
  split
  · omega
  · exact Nat.le_refl _

theorem Books.launchedBy_length {recent : List Recent} {tokens : List Lost} (h : Books cfg c recent tokens)
    (hl : l ∈ tokens) : (c.launchedBy l.token).length ≤ l.count := by
  obtain ⟨launched, hask⟩ := h.lost l hl
  have hle := h.wf.counts l.token _ hask
  simpa only [Cloud.launchedBy, length_map] using hle

theorem launchFrom_spec (short : ℕ) (markets : List Market) {launched : ℕ} {refused : List String} {failed : Bool}
    (h : InRegion cfg P want now c st region hosts found todo) (hnone : ∀ m ∈ st.tokens, m.region ≠ region)
    (hroom : (liveHosts hosts).length + found.length + (short - launched) ≤ want) :
    wp (contract cfg P) (launchFrom cfg region short markets launched refused failed st)
      (fun r c' => ∃ found', InRegion cfg P want now c' r.2 region hosts found' todo) c := by
  induction markets generalizing found launched refused failed st c with
  | nil => exact wp_ret ⟨found, h⟩
  | cons market markets ih =>
    rw [launchFrom]
    split
    · exact wp_ret ⟨found, h⟩
    · next ask hask =>
      obtain ⟨hshort, honDemand⟩ := askFor_ok hask
      refine wp_uuid ?_ h.books.wf
      intro c₁ hc₁ hfresh
      have h₁ := (h.later hc₁).uuid
      apply wp_now
      intro c₂ hc₂ _
      have hnew : New cfg P want now c₂ st region hosts found todo
          ⟨region, market, c₁.nextToken, ask, c₂.time, c₂.time⟩ := by
        refine New.later ⟨h₁, rfl, hfresh, Nat.lt_succ_self _, hnone, ?_, honDemand⟩ hc₂
        simp only
        omega
      apply wp_launch hnew.mayAsk
      intro c₃ ids hc₃ hmay hwf
      have hasked := (hnew.later hc₃).ask hmay hwf
      constructor
      · refine wp_ret ⟨found, ?_⟩
        rw [insertToken_eq hnew.lookup_none]
        exact hasked
      · intro refused' failed'
        generalize hids : (c₃.launch region market ask c₁.nextToken c₂.time ids).launchedBy c₁.nextToken = named
        have hlength : named.length ≤ ask := by
          rw [← hids]
          exact hasked.books.launchedBy_length (mem_append_right _ mem_cons_self)
        have hunlisted : (unlisted hosts named).length ≤ named.length := length_filter_le _ _
        have hlaunched := hasked.launched rfl
        dsimp only at hlaunched
        rw [hids] at hlaunched
        apply ih hlaunched hnone
        dsimp only
        rw [length_append]
        omega

theorem passRegion_spec {nextLaunch : Option ℕ} (h : InRegion cfg P want now c st region hosts [] todo) :
    wp (contract cfg P) (passRegion cfg want now region hosts nextLaunch st)
      (fun r c' => ∃ found', InRegion cfg P want now c' r.2 region hosts found' todo) c := by
  unfold passRegion
  have h₀ := h.retain
  refine wp_terminate ?_ h₀.books.wf
  intro c₁ hc₁ _
  have h₁ := h₀.later hc₁
  split
  · refine wp_seq (reconcile_spec h₁) ?_
    rintro ⟨lost, st'⟩ c₂ ⟨found, h₂, -⟩
    refine wp_terminate ?_ h₂.books.wf
    intro c₃ hc₃ _
    exact wp_ret ⟨found, h₂.later hc₃⟩
  · dsimp only
    split
    · refine wp_seq (reconcile_spec h₁) ?_
      rintro ⟨answer, st'⟩ c₂ ⟨found, h₂, hfound⟩
      obtain _ | f := answer
      · exact wp_ret ⟨found, h₂⟩
      obtain ⟨rfl, hnone⟩ := hfound f rfl
      dsimp only
      split
      · next hlt =>
        refine wp_seq (launchFrom_spec _ _ h₂ hnone ?_) ?_
        · omega
        · rintro ⟨⟨launched, retry⟩, st''⟩ c₃ ⟨found', h₃⟩
          exact wp_ret ⟨found', h₃⟩
      · exact wp_ret ⟨f, h₂⟩
    · exact wp_ret ⟨[], h₁⟩

structure Between (cfg : Config) (P : Prop) (want now : ℕ) (c : Cloud) (st : Pass) (todo : List (Region × List Host)) :
    Prop where
  wanted : c.want = want
  begun : now ≤ c.time
  books : Books cfg c st.recent st.tokens
  budget : P → load c st.tokens ≤ cfg.onDemandMax
  lists : ∀ p ∈ todo, p.1 ∈ cfg.regions ∧ Shown c p.1 p.2 ∧ Covered c st.tokens p.1 p.2 []
  counted : ∀ n, st.onDemand = some n → Counted c st.tokens todo n

theorem Between.enter (h : Between cfg P want now c st ((region, hosts) :: todo)) (hne : ∀ p ∈ todo, p.1 ≠ region) :
    InRegion cfg P want now c st region hosts [] todo := by
  obtain ⟨hours, hshown, hcovered⟩ := h.lists _ mem_cons_self
  refine ⟨hours, h.wanted, h.begun, h.books, h.budget, hshown, hcovered, ?_, h.counted⟩
  intro p hp
  exact ⟨hne p hp, (h.lists p (mem_cons_of_mem _ hp)).2⟩

theorem InRegion.leave (h : InRegion cfg P want now c st region hosts found todo)
    (hours : ∀ p ∈ todo, p.1 ∈ cfg.regions) :
    Between cfg P want now c st todo := by
  refine { h with lists := fun p hp => ⟨hours p hp, (h.others p hp).2⟩, counted := ?_ }
  intro n hn
  obtain ⟨counted, hle, hlive, hlists⟩ := h.counted n hn
  exact ⟨counted, hle, hlive, fun p hp => hlists p (mem_cons_of_mem _ hp)⟩

def listedOf (entries : List (Region × Option (List Host) × Option ℕ)) : List (Region × List Host) :=
  entries.filterMap fun e => e.2.1.map fun hosts => (e.1, hosts)

theorem mem_listedOf {entries : List (Region × Option (List Host) × Option ℕ)} {p : Region × List Host} :
    p ∈ listedOf entries ↔ ∃ nextLaunch, (p.1, some p.2, nextLaunch) ∈ entries := by
  obtain ⟨region, hosts⟩ := p
  simp only [listedOf, mem_filterMap, Option.map_eq_some_iff, Prod.mk.injEq, Prod.exists]
  constructor
  · rintro ⟨r, o, nextLaunch, hmem, hosts', rfl, rfl, rfl⟩
    exact ⟨nextLaunch, hmem⟩
  · rintro ⟨nextLaunch, hmem⟩
    exact ⟨region, some hosts, nextLaunch, hmem, hosts, rfl, rfl, rfl⟩

theorem passRegions_spec (entries : List (Region × Option (List Host) × Option ℕ))
    (hkeys : (entries.map (·.1)).Nodup) (h : Between cfg P want now c st (listedOf entries)) :
    wp (contract cfg P) (passRegions cfg want now entries st)
      (fun r c' => Between cfg P want now c' r.2 []) c := by
  induction entries generalizing st c with
  | nil => exact wp_ret h
  | cons entry entries ih =>
    obtain ⟨region, listed, nextLaunch⟩ := entry
    obtain ⟨hfirst, hrest⟩ := nodup_cons.mp hkeys
    cases listed with
    | none =>
      refine wp_seq (ih hrest h) ?_
      rintro ⟨watch, st'⟩ c₁ h₁
      exact wp_ret h₁
    | some hosts =>
      have henter : InRegion cfg P want now c st region hosts [] (listedOf entries) := by
        apply Between.enter h
        rintro p hp rfl
        obtain ⟨nextLaunch, hmem⟩ := mem_listedOf.mp hp
        exact hfirst (mem_map.mpr ⟨_, hmem, rfl⟩)
      refine wp_seq (passRegion_spec henter) ?_
      rintro ⟨nextLaunch', st'⟩ c₁ ⟨found, h₁⟩
      have hleave := h₁.leave fun p hp => (h.lists p (mem_cons_of_mem _ hp)).1
      refine wp_seq (ih hrest hleave) ?_
      rintro ⟨watch, st''⟩ c₂ h₂
      exact wp_ret h₂

end Fcvm.GpuHosts
