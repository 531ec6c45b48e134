import Mathlib.Algebra.Order.BigOperators.Group.List
import Mathlib.Algebra.Order.Ring.Nat
import Fcvm.GpuHosts.Passes

namespace Fcvm.GpuHosts

open Library Prog List

variable {cfg : Config} {P : Prop} {want now : ℕ} {c c' : Cloud} {region : Region} {hosts : List Host}
  {recent : List Recent} {tokens : List Lost}

variable {x : Instance} {listed : List (Option (List Host))}

theorem mem_withRecent {h : Host} : h ∈ (withRecent region hosts recent now).1 ↔
    h ∈ hosts ∨ ∃ e ∈ recent, (e.region = region ∧ ∀ g ∈ hosts, g.id ≠ e.id) ∧ now - e.asked < LIST_GRACE ∧
      h = ⟨e.id, .pending, e.market⟩ := by
  simp only [withRecent, mem_append, mem_map, mem_filter, Bool.and_eq_true, decide_eq_true_eq,
    all_eq_true, and_assoc, eq_comm (b := h)]

theorem mem_withRecent_of_mem {h : Host} (hh : h ∈ hosts) : h ∈ (withRecent region hosts recent now).1 :=
  mem_append_left _ hh

theorem mem_withRecent_recent {e : Recent} : e ∈ (withRecent region hosts recent now).2 ↔
    e ∈ recent ∧ ((e.region = region ∧ ∀ g ∈ hosts, g.id ≠ e.id) → now - e.asked < LIST_GRACE) := by
  simp only [withRecent, mem_filter, Bool.or_eq_true, Bool.not_eq_true', ← Bool.not_eq_true, Bool.and_eq_true,
    decide_eq_true_eq, all_eq_true, ← imp_iff_not_or]

theorem shown_withRecent (hlist : c.MayList region hosts) (hbooks : Books cfg c recent tokens) :
    Shown c region (withRecent region hosts recent now).1 := by
  intro h hh
  rcases mem_withRecent.mp hh with hh | ⟨e, he, ⟨hregion, -⟩, -, rfl⟩
  · exact hlist.1 h hh
  · obtain ⟨x, hx, t, a, hid, hpair, -⟩ := hbooks.named e he
    rw [Prod.mk.injEq] at hpair
    exact ⟨x, hx, hid, hpair.1.trans hregion, hpair.2, Nat.zero_le _⟩

theorem visible_of_none (ht : x.token = none) : c.visible x = true := by
  unfold Cloud.visible
  rw [ht]

theorem visible_of_asked {t : ℕ} (ht : x.token = some t)
    (h : ∃ a, c.asks t = some a ∧ a.last + LIST_GRACE ≤ c.time) : c.visible x = true := by
  obtain ⟨a, ha, hle⟩ := h
  unfold Cloud.visible
  -- the numeral must not be evaluated
  generalize LIST_GRACE = grace at hle ⊢
  rw [ht]
  dsimp only
  rw [ha, Option.all_some]
  exact decide_eq_true hle

theorem Books.named_visible (h : Books cfg c recent tokens) {e : Recent} {t : ℕ} (he : e ∈ recent)
    (hx : x ∈ c.instances) (hid : e.id = x.id) (ht : x.token = some t) (hnow : now ≤ c.time)
    (hold : ¬ now - e.asked < LIST_GRACE) : ∃ a, c.asks t = some a ∧ a.last + LIST_GRACE ≤ c.time := by
  obtain ⟨-, ⟨a, hask, hasked⟩, -⟩ := h.named_of_id he hx hid ht
  have hpos : 0 < LIST_GRACE := by decide
  exact ⟨a, hask, by omega⟩

theorem Books.withRecent (h : Books cfg c recent tokens) (hnow : now ≤ c.time) :
    Books cfg c (withRecent region hosts recent now).2 tokens where
  wf := h.wf
  lost := h.lost
  keys := h.keys
  named e he := h.named e (mem_withRecent_recent.mp he).1
  known := by
    intro x hx hlive t ht
    rcases h.known x hx hlive t ht with hl | ⟨e, he, hid⟩ | hgrace
    · exact .inl hl
    · by_cases hyoung : now - e.asked < LIST_GRACE
      · exact .inr (.inl ⟨e, mem_withRecent_recent.mpr ⟨he, fun _ => hyoung⟩, hid⟩)
      · exact .inr (.inr (h.named_visible he hx hid ht hnow hyoung))
    · exact .inr (.inr hgrace)

theorem covered_withRecent (hlist : c.MayList region hosts) (hbooks : Books cfg c recent tokens) (hnow : now ≤ c.time) :
    Covered c tokens region (withRecent region hosts recent now).1 [] := by
  intro x hx hregion hlive
  have hshown : Shown c region (withRecent region hosts recent now).1 := shown_withRecent hlist hbooks
  have hne : x.state ≠ .terminated := by
    intro hs
    rw [hs] at hlive
    cases hlive
  have hlisted : c.visible x = true →
      ∃ h ∈ (withRecent region hosts recent now).1, h.id = x.id ∧ h.state.live = true := by
    intro hvisible
    obtain ⟨h, hh, hid⟩ := hlist.2 x hx hregion hne hvisible
    have hmem : h ∈ (withRecent region hosts recent now).1 := mem_withRecent_of_mem hh
    exact ⟨h, hmem, hid, (hshown.live hbooks.wf hx hlive hmem hid).1⟩
  cases ht : x.token with
  | none =>
    exact .inl (hlisted (visible_of_none ht))
  | some t =>
    rcases hbooks.known x hx hlive t ht with ⟨l, hl, rfl⟩ | ⟨e, he, hid⟩ | hgrace
    · exact .inr (.inr ⟨l, hl, rfl⟩)
    · by_cases hyoung : now - e.asked < LIST_GRACE
      · by_cases hnamed : ∃ g ∈ hosts, g.id = e.id
        · obtain ⟨g, hg, hgid⟩ := hnamed
          have hmem : g ∈ (withRecent region hosts recent now).1 := mem_withRecent_of_mem hg
          exact .inl ⟨g, hmem, hgid.trans hid, (hshown.live hbooks.wf hx hlive hmem (hgid.trans hid)).1⟩
        · refine .inl ⟨⟨e.id, .pending, e.market⟩, mem_withRecent.mpr (.inr ⟨e, he, ⟨?_, ?_⟩, hyoung, rfl⟩), hid, rfl⟩
          · exact (hbooks.named_of_id he hx hid ht).1.symm.trans hregion
          · exact fun g hg hgid => hnamed ⟨g, hg, hgid⟩
      · exact .inl (hlisted (visible_of_asked ht (hbooks.named_visible he hx hid ht hnow hyoung)))
    · exact .inl (hlisted (visible_of_asked ht hgrace))

structure Listed (cfg : Config) (c : Cloud) (recent : List Recent) (tokens : List Lost) (regions : List Region)
    (listed : List (Option (List Host))) : Prop where
  books : Books cfg c recent tokens
  length : listed.length = regions.length
  lists : ∀ region hosts, (region, some hosts) ∈ regions.zip listed →
    Shown c region hosts ∧ Covered c tokens region hosts []

theorem listRegions_spec (regions : List Region) (hbooks : Books cfg c recent tokens) (hnow : now ≤ c.time) :
    wp (contract cfg P) (listRegions now regions recent)
      (fun r c' => Later c c' ∧ Listed cfg c' r.2 tokens regions r.1) c := by
  induction regions generalizing recent c with
  | nil => exact wp_ret ⟨Later.refl c, hbooks, rfl, nofun⟩
  | cons region regions ih =>
    rw [listRegions]
    apply wp_hosts
    · intro c₁ hc₁ _
      refine wp_seq (ih (hbooks.later hc₁) (hnow.trans hc₁.time)) ?_
      rintro ⟨listed, recent'⟩ c₂ ⟨hc₂, h₂⟩
      refine wp_ret ⟨hc₁.trans hc₂, h₂.books, by simp [h₂.length], ?_⟩
      intro r hs hmem
      rcases mem_cons.mp hmem with heq | hmem
      · cases heq
      · exact h₂.lists r hs hmem
    · intro c₁ hosts hc₁ _ hlist
      have hbooks₁ := hbooks.later hc₁
      have hnow₁ := hnow.trans hc₁.time
      refine wp_seq (ih (hbooks₁.withRecent hnow₁) hnow₁) ?_
      rintro ⟨listed, recent'⟩ c₂ ⟨hc₂, h₂⟩
      refine wp_ret ⟨hc₁.trans hc₂, h₂.books, by simp [h₂.length], ?_⟩
      intro r hs hmem
      rcases mem_cons.mp hmem with heq | hmem
      · cases heq
        exact ⟨(shown_withRecent hlist hbooks₁).later hc₂, (covered_withRecent hlist hbooks₁ hnow₁).later hc₂⟩
      · exact h₂.lists r hs hmem

theorem mem_zip_of_mem {regions : List Region} (hlength : listed.length = regions.length)
    (hall : listed.all Option.isSome = true) (hregion : region ∈ regions) :
    ∃ hosts, (region, some hosts) ∈ regions.zip listed := by
  induction regions generalizing listed with
  | nil => cases hregion
  | cons r regions ih =>
    cases listed with
    | nil => cases hlength
    | cons o listed =>
      rw [all_cons, Bool.and_eq_true] at hall
      rcases mem_cons.mp hregion with rfl | hregion
      · obtain ⟨hosts, rfl⟩ := Option.isSome_iff_exists.mp hall.1
        exact ⟨hosts, mem_cons_self⟩
      · obtain ⟨hosts, hmem⟩ := ih (Nat.succ.inj hlength) hall.2 hregion
        exact ⟨hosts, mem_cons_of_mem _ hmem⟩

theorem Listed.counted {todo : List (Region × List Host)} {n : ℕ}
    (h : Listed cfg c recent tokens cfg.regions listed) (hn : countOnDemand listed tokens = some n)
    (htodo : ∀ p ∈ todo, (p.1, some p.2) ∈ cfg.regions.zip listed) : Counted c tokens todo n := by
  unfold countOnDemand at hn
  split at hn
  · next hall =>
    cases hn
    have hmem : ∀ region hosts, (region, some hosts) ∈ cfg.regions.zip listed → ∀ id ∈ onDemandOf hosts,
        id ∈ listed.flatMap fun hosts => onDemandOf (hosts.getD []) := by
      intro region hosts hzip id hid
      exact mem_flatMap.mpr ⟨some hosts, (of_mem_zip hzip).2, hid⟩
    refine ⟨listed.flatMap fun hosts => onDemandOf (hosts.getD []), ?_, ?_, fun p hp => hmem p.1 p.2 (htodo p hp)⟩
    · rw [length_flatMap]
    · intro x hx hm hlive
      obtain ⟨hosts, hzip⟩ := mem_zip_of_mem h.length hall (h.books.wf.regions x hx)
      obtain ⟨hshown, hcovered⟩ := h.lists _ _ hzip
      rcases hcovered x hx rfl hlive with ⟨host, hhost, hid, hhlive⟩ | hfound | ⟨l, hl, ht⟩
      · refine .inl (hmem _ _ hzip _ (mem_map.mpr ⟨host, mem_filter.mpr ⟨hhost, ?_⟩, hid⟩))
        rw [(hshown.live h.books.wf hx hlive hhost hid).2, hm, HostState.present_of_live hhlive]
        rfl
      · cases hfound
      · exact .inr ⟨l, hl, (h.books.launched_for hl hx ht).2.trans hm, ht⟩
  · cases hn

theorem map_fst_zip_sublist {β : Type} (regions : List Region) (bs : List β) :
    ((regions.zip bs).map (·.1)).Sublist regions := by
  induction regions generalizing bs with
  | nil => exact List.Sublist.refl _
  | cons r regions ih =>
    cases bs with
    | nil => exact nil_sublist _
    | cons b bs => exact (ih bs).cons_cons r

structure Idle (cfg : Config) (P : Prop) (c : Cloud) (recent : List Recent) (tokens : List Lost) : Prop where
  books : Books cfg c recent tokens
  budget : P → load c tokens ≤ cfg.onDemandMax

theorem Idle.later (h : Idle cfg P c recent tokens) (hl : Later c c') : Idle cfg P c' recent tokens :=
  ⟨h.books.later hl, fun hP => (load_later hl).trans (h.budget hP)⟩

theorem Idle.power (h : Idle cfg P c recent tokens) (want : ℕ) : Idle cfg P { c with want := want } recent tokens :=
  ⟨⟨{ h.books.wf with }, h.books.lost,
    h.books.keys, h.books.named, h.books.known⟩, h.budget⟩

theorem Idle.drop (h : Idle cfg P c recent tokens) (httl : LIST_GRACE < cfg.lostLaunchTtl) (hnow : now ≤ c.time) :
    Idle cfg P c recent (tokens.filter fun l => tokenStep l.first l.last now cfg.lostLaunchTtl ≠ .drop) where
  books :=
    { wf := h.books.wf
      lost := fun l hl => h.books.lost l (mem_of_mem_filter hl)
      keys := h.books.keys.sublist (List.Sublist.map _ filter_sublist)
      named := by
        intro e he
        obtain ⟨x, hx, t, a, hid, hpair, ht, hask, hasked, hnot⟩ := h.books.named e he
        exact ⟨x, hx, t, a, hid, hpair, ht, hask, hasked, fun l hl => hnot l (mem_of_mem_filter hl)⟩
      known := by
        intro x hx hlive t ht
        rcases h.books.known x hx hlive t ht with ⟨l, hl, htok⟩ | he | hgrace
        · by_cases hdrop : tokenStep l.first l.last now cfg.lostLaunchTtl = .drop
          · obtain ⟨launched, hask⟩ := h.books.lost l hl
            rw [htok] at hask
            refine .inr (.inr ⟨_, hask, ?_⟩)
            unfold tokenStep at hdrop
            split at hdrop
            · cases hdrop
            · split at hdrop
              · cases hdrop
              · dsimp only
                omega
          · exact .inl ⟨l, mem_filter.mpr ⟨hl, by simpa using hdrop⟩, htok⟩
        · exact .inr (.inl he)
        · exact .inr (.inr hgrace) }
  budget hP := by
    have hle := h.budget hP
    have hsub : ((tokens.filter fun l => tokenStep l.first l.last now cfg.lostLaunchTtl ≠ .drop).map
      (unlaunched c)).Sublist
        (tokens.map (unlaunched c)) := filter_sublist.map _
    have hsum := hsub.sum_le_sum fun _ _ => Nat.zero_le _
    unfold load at hle ⊢
    omega

theorem mem_entries {regions : List Region} {watch : List (Option ℕ)}
    {p : Region × List Host} (h : p ∈ listedOf (regions.zip (listed.zip watch))) :
    (p.1, some p.2) ∈ regions.zip listed := by
  obtain ⟨nextLaunch, hmem⟩ := mem_listedOf.mp h
  clear h
  induction regions generalizing listed watch with
  | nil => cases hmem
  | cons r regions ih =>
    cases listed with
    | nil => cases hmem
    | cons o listed =>
      cases watch with
      | nil => cases hmem
      | cons w watch =>
        rcases mem_cons.mp hmem with heq | hmem
        · cases heq
          exact mem_cons_self
        · exact mem_cons_of_mem _ (ih hmem)

theorem pass_spec (hregions : cfg.regions.Nodup) (httl : LIST_GRACE < cfg.lostLaunchTtl) {v : Vars}
    (h : Idle cfg P c v.recent v.tokens) :
    wp (contract cfg P) (pass cfg v) (fun v' c' => Idle cfg P c' v'.recent v'.tokens) c := by
  unfold pass
  apply wp_power
  intro c₁ state hc₁ _
  have h₁ := (h.later hc₁).power (wantOf cfg state)
  apply wp_now
  intro c₂ hc₂ _
  have h₂ := (h₁.later hc₂).drop httl (Nat.le_refl c₂.time)
  refine wp_seq (listRegions_spec cfg.regions h₂.books (Nat.le_refl _)) ?_
  rintro ⟨listed, recent⟩ c₃ ⟨hc₃, h₃⟩
  have hbetween : ∀ watch : List (Option ℕ), Between cfg P (wantOf cfg state) c₂.time c₃
      { recent := recent
        tokens := v.tokens.filter fun l => tokenStep l.first l.last c₂.time cfg.lostLaunchTtl ≠ .drop
        onDemand := countOnDemand listed
          (v.tokens.filter fun l => tokenStep l.first l.last c₂.time cfg.lostLaunchTtl ≠ .drop) }
      (listedOf (cfg.regions.zip (listed.zip watch))) := by
    intro watch
    constructor
    · rw [hc₃.want, hc₂.want]
    · exact hc₃.time
    · exact h₃.books
    · exact (h₂.later hc₃).budget
    · intro p hp
      have hmem := mem_entries hp
      exact ⟨(of_mem_zip hmem).1, h₃.lists _ _ hmem⟩
    · intro n hn
      exact h₃.counted hn fun p hp => mem_entries hp
  refine wp_seq (passRegions_spec _ ?_ (hbetween _)) ?_
  · exact hregions.sublist (map_fst_zip_sublist _ _)
  · rintro ⟨watch, st⟩ c₄ h₄
    exact wp_ret ⟨h₄.books, h₄.budget⟩

theorem run_spec (hregions : cfg.regions.Nodup) (httl : LIST_GRACE < cfg.lostLaunchTtl) (n : ℕ) {v : Vars}
    (h : Idle cfg P c v.recent v.tokens) : wp (contract cfg P) (run cfg n v) (fun _ _ => True) c := by
  induction n generalizing v c with
  | zero => exact wp_ret trivial
  | succ n ih =>
    rw [run]
    refine wp_seq (pass_spec hregions httl h) ?_
    intro v' c' h'
    exact ih h'

structure Start (cfg : Config) (c : Cloud) : Prop where
  ids : (c.instances.map (·.id)).Nodup
  regions : ∀ x ∈ c.instances, x.region ∈ cfg.regions
  tokens : ∀ x ∈ c.instances, x.token = none
  asks : ∀ t, c.asks t = none
  requests : c.requests = []

theorem Start.wf (h : Start cfg c) : c.WF cfg.regions where
  ids := h.ids
  regions := h.regions
  tokens := by
    intro x hx t ht
    rw [h.tokens x hx] at ht
    cases ht
  counts := by
    intro t a ha
    rw [h.asks t] at ha
    cases ha
  fresh t _ := h.asks t

theorem Start.idle (h : Start cfg c) (hP : P → c.liveOnDemand ≤ cfg.onDemandMax) : Idle cfg P c [] [] where
  books :=
    { wf := h.wf
      lost := nofun
      keys := nodup_nil
      named := nofun
      known := by
        intro x hx _ t ht
        rw [h.tokens x hx] at ht
        cases ht }
  budget hp := by
    have hle := hP hp
    simpa only [load, map_nil, sum_nil, Nat.add_zero] using hle

def system (cfg : Config) (c : Cloud) (n : ℕ) : System (Cloud × Program Unit) (Input ⊕ Empty) :=
  (machine cfg).system fun t => t = (c, run cfg n (Vars.initial cfg))

/-- A launch that repeats no other asks for no more than the region has room for, and the on-demand hosts stay within
their bound. -/
theorem launches_within_capacity (cfg : Config) (hregions : cfg.regions.Nodup) (httl : LIST_GRACE < cfg.lostLaunchTtl)
    (start : Cloud) (hstart : Start cfg start) (n : ℕ) {t : Cloud × Program Unit}
    (h : (system cfg start n).Reachable t) :
    (∀ r ∈ t.1.requests, r.live + r.count ≤ r.want) ∧
      (start.liveOnDemand ≤ cfg.onDemandMax → t.1.liveOnDemand ≤ cfg.onDemandMax) := by
  have hreach := @Machine.reachable Cloud Cloud Input Empty Op Unit Res (machine cfg) _
    (Safe cfg (start.liveOnDemand ≤ cfg.onDemandMax)) (contract cfg (start.liveOnDemand ≤ cfg.onDemandMax))
    (fun _ _ => True) (fun _ _ => True) ?_ ?_ ?_ t (System.ReachableBy.of_reachable h)
  · exact ⟨hreach.1.requests, hreach.1.onDemand⟩
  · rintro s p heq
    cases heq
    refine ⟨⟨hstart.wf, ?_, id⟩, run_spec hregions httl n (hstart.idle id)⟩
    intro r hr
    simp [hstart.requests] at hr
  · nofun
  · intro s o k i s' r hsafe _ hpre hexec
    have hsafe' := hsafe.exec hpre hexec
    exact ⟨hsafe', hsafe'.wf, i, hexec⟩

def oneShort : Config where
  regions := ["us-west-2"]
  awakeCapacity := 2
  onDemandMax := 1
  capacityRetry := 0
  lostLaunchTtl := LIST_GRACE + 1

def oneHost : Cloud where
  time := 0
  instances := [⟨0, "us-west-2", .spot, none, .running⟩]
  asks _ := none
  nextToken := 0
  want := 0
  requests := []

theorem oneHost_start : Start oneShort oneHost := by
  constructor
  · decide
  · decide
  · decide
  · intro t
    rfl
  · rfl

def lostAnswer : List (Input ⊕ Empty) :=
  [.inl ⟨[], .power "awake"⟩, .inl ⟨[], .none⟩, .inl ⟨[], .hosts (some [⟨0, .running, .spot⟩])⟩, .inl ⟨[], .none⟩,
    .inl ⟨[], .none⟩, .inl ⟨[], .launch [] (some (["InsufficientInstanceCapacity"], []))⟩, .inl ⟨[], .none⟩,
    .inl ⟨[.tick 5], .none⟩, .inl ⟨[], .launch [7] none⟩]

theorem lost_launch_within_capacity : ∃ t, (system oneShort oneHost 1).Reachable t ∧
    t.1.requests = [⟨"us-west-2", 1, 1, 2⟩, ⟨"us-west-2", 1, 1, 2⟩] ∧ t.1.liveOnDemand = 1 ∧
    (∀ r ∈ t.1.requests, r.live + r.count ≤ r.want) ∧ t.1.liveOnDemand ≤ oneShort.onDemandMax := by
  have hrun : ((system oneShort oneHost 1).exec (oneHost, run oneShort 1 (Vars.initial oneShort)) lostAnswer).map
      (fun t => (t.1.requests, t.1.liveOnDemand)) =
      some ([⟨"us-west-2", 1, 1, 2⟩, ⟨"us-west-2", 1, 1, 2⟩], 1) := by
    decide +kernel
  obtain ⟨t, hexec, ht⟩ := Option.map_eq_some_iff.mp hrun
  rw [Prod.mk.injEq] at ht
  have hreach := (System.Reachable.initial (M := system oneShort oneHost 1) rfl).exec hexec
  obtain ⟨hroom, honDemand⟩ := launches_within_capacity oneShort (by decide)
    (Nat.lt_succ_self _) oneHost oneHost_start 1 hreach
  exact ⟨t, hreach, ht.1, ht.2, hroom, honDemand (by decide)⟩

end Fcvm.GpuHosts
