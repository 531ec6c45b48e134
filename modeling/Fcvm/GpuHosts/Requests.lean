import Fcvm.GpuHosts.Books

namespace Fcvm.GpuHosts

open Library List

variable {cfg : Config} {P : Prop} {want : ℕ} {c c' : Cloud} {recent : List Recent} {tokens : List Lost}
  {region : Region} {hosts : List Host} {found : List ℕ} {todo : List (Region × List Host)} {st : Pass}
  {l : Lost} {before after : List Lost}
  {ids : List ℕ}

abbrev ask (c : Cloud) (l : Lost) (ids : List ℕ) : Cloud := c.launch l.region l.market l.count l.token l.last ids

variable {x : Instance} {m : Lost}

theorem mem_ask : x ∈ (ask c l ids).instances ↔
    x ∈ c.instances ∨ ∃ id ∈ ids, x = ⟨id, l.region, l.market, some l.token, .pending⟩ := by
  simp only [ask, Cloud.launch, mem_append, mem_map, eq_comm]

theorem asks_ask (c : Cloud) (l : Lost) (ids : List ℕ) : ∃ launched,
    (ask c l ids).asks l.token = some ⟨l.region, l.market, l.count, l.last, launched⟩ :=
  ⟨_, Function.update_self ..⟩

theorem asks_ask_of_ne {t : ℕ} (h : t ≠ l.token) : (ask c l ids).asks t = c.asks t := Function.update_of_ne h _ _

structure Asks (tokens before after : List Lost) (l : Lost) : Prop where
  others : ∀ m ∈ before ++ after, m ∈ tokens ∧ m.token ≠ l.token
  old : ∀ m ∈ tokens, m ∈ before ++ after ∨ m.token = l.token
  keys : ((before ++ l :: after).map fun m => (m.region, m.market)).Nodup

theorem mem_of_others (h : m ∈ before ++ after) : m ∈ before ++ l :: after := by
  rcases mem_append.mp h with h | h
  · exact mem_append_left _ h
  · exact mem_append_right _ (mem_cons_of_mem _ h)

theorem self_mem : l ∈ before ++ l :: after := mem_append_right _ mem_cons_self

theorem mem_split (h : m ∈ before ++ l :: after) : m = l ∨ m ∈ before ++ after := by
  rcases mem_append.mp h with h | h
  · exact .inr (mem_append_left _ h)
  · rcases mem_cons.mp h with h | h
    · exact .inl h
    · exact .inr (mem_append_right _ h)

theorem ne_of_others (hkeys : ((before ++ l :: after).map fun m => (m.region, m.market)).Nodup)
    (hm : m ∈ before ++ after) : m ≠ l := by
  rintro rfl
  rw [map_append, map_cons, nodup_append] at hkeys
  rcases mem_append.mp hm with hm | hm
  · exact hkeys.2.2 _ (mem_map.mpr ⟨m, hm, rfl⟩) _ mem_cons_self rfl
  · exact (nodup_cons.mp hkeys.2.1).1 (mem_map.mpr ⟨m, hm, rfl⟩)

theorem Asks.mem (h : Asks tokens before after l) (hm : m ∈ tokens) :
    ∃ m' ∈ before ++ l :: after, m'.token = m.token := by
  rcases h.old m hm with hm | heq
  · exact ⟨m, mem_of_others hm, rfl⟩
  · exact ⟨l, self_mem, heq.symm⟩

theorem Books.ask (h : Books cfg c recent tokens) (hwf : (ask c l ids).WF cfg.regions) (ha : Asks tokens before after l)
    (hrecent : ∀ e ∈ recent, ∀ x ∈ c.instances, x.id = e.id → x.token ≠ some l.token) :
    Books cfg (ask c l ids) recent (before ++ l :: after) where
  wf := hwf
  lost := by
    intro m hm
    rcases mem_split hm with rfl | hm
    · exact asks_ask c m ids
    · obtain ⟨hmem, hne⟩ := ha.others m hm
      rw [asks_ask_of_ne hne]
      exact h.lost m hmem
  keys := ha.keys
  named := by
    intro e he
    obtain ⟨x, hx, t, a, hid, hr, ht, hask, hasked, hnot⟩ := h.named e he
    have hne : t ≠ l.token := by
      rintro rfl
      exact hrecent e he x hx hid ht
    refine ⟨x, mem_ask.mpr (.inl hx), t, a, hid, hr, ht, ?_, hasked, ?_⟩
    · rw [asks_ask_of_ne hne]
      exact hask
    · intro m hm
      rcases mem_split hm with rfl | hm
      · exact hne.symm
      · exact hnot m (ha.others m hm).1
  known := by
    intro x hx hlive t ht
    rcases mem_ask.mp hx with hx | ⟨id, -, rfl⟩
    · rcases h.known x hx hlive t ht with ⟨m, hm, htok⟩ | he | ⟨a, hask, hgrace⟩
      · obtain ⟨m', hm', heq⟩ := ha.mem hm
        exact .inl ⟨m', hm', heq.trans htok⟩
      · exact .inr (.inl he)
      · by_cases hne : t = l.token
        · exact .inl ⟨l, self_mem, hne.symm⟩
        · exact .inr (.inr ⟨a, by rw [asks_ask_of_ne hne]; exact hask, hgrace⟩)
    · cases ht
      exact .inl ⟨l, self_mem, rfl⟩

theorem Shown.ask (h : Shown c region hosts) : Shown (ask c l ids) region hosts := by
  intro host hhost
  obtain ⟨x, hx, hrest⟩ := h host hhost
  exact ⟨x, mem_ask.mpr (.inl hx), hrest⟩

theorem Covered.ask (h : Covered c tokens region hosts found) (ha : Asks tokens before after l) :
    Covered (ask c l ids) (before ++ l :: after) region hosts found := by
  intro x hx hr hlive
  rcases mem_ask.mp hx with hx | ⟨id, -, rfl⟩
  · rcases h x hx hr hlive with hh | hf | ⟨m, hm, ht⟩
    · exact .inl hh
    · exact .inr (.inl hf)
    · obtain ⟨m', hm', heq⟩ := ha.mem hm
      exact .inr (.inr ⟨m', hm', by rw [heq]; exact ht⟩)
  · exact .inr (.inr ⟨l, self_mem, rfl⟩)

theorem Counted.ask {n n' : ℕ} (h : Counted c tokens todo n) (ha : Asks tokens before after l)
    (hwf : (ask c l ids).WF cfg.regions) (hn : n + reserved (before ++ l :: after) ≤ n' + reserved tokens) :
    Counted (ask c l ids) (before ++ l :: after) todo n' := by
  obtain ⟨counted, hle, hlive, hlists⟩ := h
  refine ⟨counted, by omega, ?_, hlists⟩
  intro x hx hm hx'
  have hself : x.token = some l.token → x.id ∈ counted ∨
      ∃ m ∈ before ++ l :: after, m.market = .onDemand ∧ x.token = some m.token := by
    intro ht
    obtain ⟨a, hask, -, hmarket, -⟩ := hwf.tokens x hx l.token ht
    obtain ⟨launched, hask'⟩ := asks_ask c l ids
    cases hask'.symm.trans hask
    exact .inr ⟨l, self_mem, hmarket.trans hm, ht⟩
  rcases mem_ask.mp hx with hold | ⟨id, -, rfl⟩
  · rcases hlive x hold hm hx' with hc | ⟨m, hmem, hmm, ht⟩
    · exact .inl hc
    · rcases ha.old m hmem with hmem | heq
      · exact .inr ⟨m, mem_of_others hmem, hmm, ht⟩
      · exact hself (heq ▸ ht)
  · exact hself rfl

theorem load_ask (hothers : ∀ m ∈ before ++ after, m.token ≠ l.token) (hmay : c.mayLaunch l.count l.token ids = true) :
    load (ask c l ids) (before ++ l :: after) ≤ load c (before ++ l :: after) := by
  obtain ⟨hlength, -, -, honce⟩ := mayLaunch_iff.mp hmay
  have hsame : ∀ ms : List Lost, (∀ m ∈ ms, m.token ≠ l.token) →
      (ms.map (unlaunched (ask c l ids))).sum = (ms.map (unlaunched c)).sum := by
    intro ms hms
    congr 1
    apply map_congr_left
    intro m hm
    simp only [unlaunched, asks_ask_of_ne (hms m hm)]
  have hl : (if l.market = .onDemand then ids.length else 0) + unlaunched (ask c l ids) l ≤ unlaunched c l := by
    unfold unlaunched
    split
    · rcases honce with rfl | hnone
      · simp [ask, Cloud.launch]
      · rw [hnone]
        by_cases hids : ids = []
        · subst hids
          simp [ask, Cloud.launch, hnone]
        · simp [ask, Cloud.launch, hids, hlength]
    · exact Nat.le_refl _
  unfold load
  rw [liveOnDemand_launch, map_append, map_cons, sum_append, sum_cons, map_append, map_cons,
    sum_append, sum_cons, hsame before fun m hm => hothers m (mem_append_left _ hm),
    hsame after fun m hm => hothers m (mem_append_right _ hm)]
  omega

theorem launched_unique (h : Books cfg c recent tokens) {m' : Lost} (hm : m ∈ tokens) (hm' : m' ∈ tokens)
    (heq : m.token = m'.token) : m = m' := by
  obtain ⟨b, hb⟩ := h.lost m hm
  obtain ⟨b', hb'⟩ := h.lost m' hm'
  rw [heq, hb'] at hb
  simp only [Option.some.injEq, Ask.mk.injEq] at hb
  exact inj_on_of_nodup_map h.keys hm hm' (by rw [hb.1, hb.2.1])

theorem Shown.live (h : Shown c region hosts) (hwf : c.WF cfg.regions) {host : Host} (hx : x ∈ c.instances)
    (hlive : x.state.live = true) (hhost : host ∈ hosts) (hid : host.id = x.id) :
    host.state.live = true ∧ host.market = x.market := by
  obtain ⟨y, hy, hyid, -, hm, hrank⟩ := h host hhost
  cases hwf.unique hy hx (hyid.trans hid)
  exact ⟨HostState.live_of_rank_le hrank hlive, hm.symm⟩

structure Follows (hosts : List Host) (region : Region) (l : Lost) (ids : List ℕ) (recent recent' : List Recent) :
    Prop where
  from_ids : ∀ e ∈ recent', e ∈ recent ∨ e.id ∈ ids ∧ (e.region, e.market) = (region, l.market) ∧ e.asked = l.last
  kept : ∀ e ∈ recent, ∃ e' ∈ recent', e'.id = e.id
  named : ∀ id ∈ ids, (∀ h ∈ hosts, h.id = id → h.state.live = true) → ∃ e ∈ recent', e.id = id

theorem mem_launchedBy {token id : ℕ} :
    id ∈ c.launchedBy token ↔ ∃ x ∈ c.instances, x.token = some token ∧ x.id = id := by
  simp only [Cloud.launchedBy, mem_map, mem_filter, decide_eq_true_eq, and_assoc]

theorem Books.answered {recent' : List Recent} (h : Books cfg c recent (before ++ l :: after))
    (hregion : l.region = region)
    (hshown : Shown c region hosts) (hf : Follows hosts region l (c.launchedBy l.token) recent recent') :
    Books cfg c recent' (before ++ after) where
  wf := h.wf
  lost := fun m hm => h.lost m (mem_of_others hm)
  keys := by
    refine h.keys.sublist (List.Sublist.map _ ?_)
    exact (List.Sublist.refl _).append (sublist_cons_self _ _)
  named := by
    intro e he
    rcases hf.from_ids e he with he | ⟨hid, hr, hasked⟩
    · obtain ⟨x, hx, t, a, hid, hr, ht, hask, hasked, hnot⟩ := h.named e he
      exact ⟨x, hx, t, a, hid, hr, ht, hask, hasked, fun m hm => hnot m (mem_of_others hm)⟩
    · obtain ⟨x, hx, ht, hxid⟩ := mem_launchedBy.mp hid
      obtain ⟨launched, hask⟩ := h.lost l self_mem
      obtain ⟨hxr, hxm⟩ := h.launched_for self_mem hx ht
      refine ⟨x, hx, l.token, _, hxid, ?_, ht, hask, hasked.symm, ?_⟩
      · rw [← hxr, ← hxm, hr, ← hregion]
      · intro m hm heq
        exact ne_of_others h.keys hm (launched_unique h (mem_of_others hm) self_mem heq)
  known := by
    intro x hx hlive t ht
    rcases h.known x hx hlive t ht with ⟨m, hm, htok⟩ | ⟨e, he, hid⟩ | hgrace
    · rcases mem_split hm with rfl | hm
      · have hid : x.id ∈ c.launchedBy m.token := mem_launchedBy.mpr ⟨x, hx, htok ▸ ht, rfl⟩
        refine .inr (.inl (hf.named x.id hid ?_))
        intro host hhost hhid
        exact (hshown.live h.wf hx hlive hhost hhid).1
      · exact .inl ⟨m, hm, htok⟩
    · obtain ⟨e', he', hid'⟩ := hf.kept e he
      exact .inr (.inl ⟨e', he', hid'.trans hid⟩)
    · exact .inr (.inr hgrace)

def unlisted (hosts : List Host) (ids : List ℕ) : List ℕ := ids.filter fun id => hosts.all (·.id ≠ id)

theorem mem_unlisted {id : ℕ} : id ∈ unlisted hosts ids ↔ id ∈ ids ∧ ∀ h ∈ hosts, h.id ≠ id := by
  simp only [unlisted, mem_filter, all_eq_true, decide_eq_true_eq]

theorem listed_or_unlisted {token : ℕ} (hx : x ∈ c.instances) (ht : x.token = some token) :
    (∃ host ∈ hosts, host.id = x.id) ∨ x.id ∈ unlisted hosts (c.launchedBy token) := by
  by_cases hlisted : ∃ host ∈ hosts, host.id = x.id
  · exact .inl hlisted
  · refine .inr (mem_unlisted.mpr ⟨mem_launchedBy.mpr ⟨x, hx, ht, rfl⟩, ?_⟩)
    exact fun host hhost hid => hlisted ⟨host, hhost, hid⟩

theorem Covered.answered (h : Covered c (before ++ l :: after) region hosts found) (hwf : c.WF cfg.regions)
    (hshown : Shown c region hosts) :
    Covered c (before ++ after) region hosts (found ++ unlisted hosts (c.launchedBy l.token)) := by
  intro x hx hr hlive
  rcases h x hx hr hlive with hh | hf | ⟨m, hm, ht⟩
  · exact .inl hh
  · exact .inr (.inl (mem_append_left _ hf))
  · rcases mem_split hm with rfl | hm
    · rcases listed_or_unlisted hx ht with ⟨host, hhost, hid⟩ | hnew
      · exact .inl ⟨host, hhost, hid, (hshown.live hwf hx hlive hhost hid).1⟩
      · exact .inr (.inl (mem_append_right _ hnew))
    · exact .inr (.inr ⟨m, hm, ht⟩)

theorem Covered.answered_elsewhere {region' : Region} (h : Covered c (before ++ l :: after) region' hosts found)
    (hbooks : Books cfg c recent (before ++ l :: after)) (hne : l.region ≠ region') :
    Covered c (before ++ after) region' hosts found := by
  intro x hx hr hlive
  rcases h x hx hr hlive with hh | hf | ⟨m, hm, ht⟩
  · exact .inl hh
  · exact .inr (.inl hf)
  · rcases mem_split hm with rfl | hm
    · exact absurd ((hbooks.launched_for self_mem hx ht).1.trans hr) hne
    · exact .inr (.inr ⟨m, hm, ht⟩)

theorem reserved_split (before after : List Lost) (l : Lost) : reserved (before ++ l :: after) =
    reserved (before ++ after) + if l.market = .onDemand then l.count else 0 := by
  simp only [reserved_eq, map_append, map_cons, sum_append, sum_cons]
  omega

theorem Counted.answered {n n' : ℕ} (h : Counted c (before ++ l :: after) ((region, hosts) :: todo) n)
    (hwf : c.WF cfg.regions) (hshown : Shown c region hosts)
    (hn : if l.market = .onDemand then n - l.count + (unlisted hosts (c.launchedBy l.token)).length ≤ n' else n ≤ n') :
    Counted c (before ++ after) ((region, hosts) :: todo) n' := by
  obtain ⟨counted, hle, hlive, hlists⟩ := h
  rw [reserved_split] at hle
  by_cases hm : l.market = .onDemand
  · rw [if_pos hm] at hle hn
    refine ⟨counted ++ unlisted hosts (c.launchedBy l.token), ?_, ?_, ?_⟩
    · rw [length_append]
      omega
    · intro x hx hxm hx'
      rcases hlive x hx hxm hx' with hc | ⟨m, hmem, hmm, ht⟩
      · exact .inl (mem_append_left _ hc)
      · rcases mem_split hmem with rfl | hmem
        · rcases listed_or_unlisted hx ht with ⟨host, hhost, hid⟩ | hnew
          · obtain ⟨hhlive, hhm⟩ := hshown.live hwf hx hx' hhost hid
            have hin : x.id ∈ onDemandOf hosts := by
              refine mem_map.mpr ⟨host, mem_filter.mpr ⟨hhost, ?_⟩, hid⟩
              rw [hhm, hxm, HostState.present_of_live hhlive]
              rfl
            exact .inl (mem_append_left _ (hlists _ mem_cons_self _ hin))
          · exact .inl (mem_append_right _ hnew)
        · exact .inr ⟨m, hmem, hmm, ht⟩
    · exact fun p hp id hid => mem_append_left _ (hlists p hp id hid)
  · rw [if_neg hm] at hle hn
    refine ⟨counted, by omega, ?_, hlists⟩
    intro x hx hxm hx'
    rcases hlive x hx hxm hx' with hc | ⟨m, hmem, hmm, ht⟩
    · exact .inl hc
    · rcases mem_split hmem with rfl | hmem
      · exact absurd hmm hm
      · exact .inr ⟨m, hmem, hmm, ht⟩

theorem load_answered (c : Cloud) (before after : List Lost) (l : Lost) :
    load c (before ++ after) ≤ load c (before ++ l :: after) := by
  simp only [load, map_append, map_cons, sum_append, sum_cons]
  omega

end Fcvm.GpuHosts
