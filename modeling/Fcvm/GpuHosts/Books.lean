import Fcvm.GpuHosts.Contract

namespace Fcvm.GpuHosts

open Library List

variable {cfg : Config} {P : Prop} {c c' : Cloud} {recent : List Recent} {tokens : List Lost} {region : Region}
  {hosts : List Host}

structure Books (cfg : Config) (c : Cloud) (recent : List Recent) (tokens : List Lost) : Prop where
  wf : c.WF cfg.regions
  lost : ∀ l ∈ tokens, ∃ launched, c.asks l.token = some ⟨l.region, l.market, l.count, l.last, launched⟩
  keys : (tokens.map fun l => (l.region, l.market)).Nodup
  named : ∀ e ∈ recent, ∃ x ∈ c.instances, ∃ t a, x.id = e.id ∧ (x.region, x.market) = (e.region, e.market) ∧
    x.token = some t ∧ c.asks t = some a ∧ a.last = e.asked ∧ ∀ l ∈ tokens, l.token ≠ t
  known : ∀ x ∈ c.instances, x.state.live = true → ∀ t, x.token = some t →
    (∃ l ∈ tokens, l.token = t) ∨ (∃ e ∈ recent, e.id = x.id) ∨ ∃ a, c.asks t = some a ∧ a.last + LIST_GRACE ≤ c.time

def Shown (c : Cloud) (region : Region) (hosts : List Host) : Prop :=
  ∀ h ∈ hosts, ∃ x ∈ c.instances, x.id = h.id ∧ x.region = region ∧ x.market = h.market ∧ h.state.rank ≤ x.state.rank

def Covered (c : Cloud) (tokens : List Lost) (region : Region) (hosts : List Host) (found : List ℕ) : Prop :=
  ∀ x ∈ c.instances, x.region = region → x.state.live = true →
    (∃ h ∈ hosts, h.id = x.id ∧ h.state.live = true) ∨ x.id ∈ found ∨ ∃ l ∈ tokens, x.token = some l.token

def Counted (c : Cloud) (tokens : List Lost) (lists : List (Region × List Host)) (n : ℕ) : Prop :=
  ∃ counted : List ℕ, counted.length + reserved tokens ≤ n ∧
    (∀ x ∈ c.instances, x.market = .onDemand → x.state.live = true →
      x.id ∈ counted ∨ ∃ l ∈ tokens, l.market = .onDemand ∧ x.token = some l.token) ∧
    ∀ p ∈ lists, ∀ id ∈ onDemandOf p.2, id ∈ counted

def unlaunched (c : Cloud) (l : Lost) : ℕ :=
  if l.market = .onDemand then if (c.asks l.token).any (·.launched) then 0 else l.count else 0

def load (c : Cloud) (tokens : List Lost) : ℕ := c.liveOnDemand + (tokens.map (unlaunched c)).sum

variable {l : Lost} {market : Market} {lists : List (Region × List Host)}

theorem at_iff : l.at region market = true ↔ (l.region, l.market) = (region, market) := by
  simp [Lost.at]

theorem split_tokens (hkeys : (tokens.map fun l => (l.region, l.market)).Nodup) (hl : l ∈ tokens) :
    ∃ before after, tokens = before ++ l :: after ∧
      removeToken tokens l.region l.market = before ++ after ∧
      ∀ asked, touch tokens l.region l.market asked = before ++ { l with last := asked } :: after := by
  obtain ⟨before, after, rfl⟩ := append_of_mem hl
  rw [map_append, map_cons, nodup_append] at hkeys
  obtain ⟨-, hafter, hdisjoint⟩ := hkeys
  have hb : ∀ m ∈ before, m.at l.region l.market = false := by
    intro m hm
    apply Bool.eq_false_iff.mpr
    intro h
    exact hdisjoint _ (mem_map.mpr ⟨m, hm, rfl⟩) _ mem_cons_self (at_iff.mp h)
  have ha : ∀ m ∈ after, m.at l.region l.market = false := by
    intro m hm
    apply Bool.eq_false_iff.mpr
    intro h
    exact (nodup_cons.mp hafter).1 (mem_map.mpr ⟨m, hm, at_iff.mp h⟩)
  have hself : l.at l.region l.market = true := at_iff.mpr rfl
  refine ⟨before, after, rfl, ?_, fun asked => ?_⟩
  · rw [removeToken, filter_append, filter_cons_of_neg (by simp [hself])]
    rw [filter_eq_self.mpr fun m hm => by simp [hb m hm], filter_eq_self.mpr fun m hm => by simp [ha m hm]]
  · rw [touch, map_append, map_cons, if_pos hself]
    have hsame : ∀ ms : List Lost, (∀ m ∈ ms, m.at l.region l.market = false) →
        ms.map (fun m => if m.at l.region l.market then { m with last := asked } else m) = ms := by
      intro ms hms
      conv_rhs => rw [← map_id ms]
      apply map_congr_left
      intro m hm
      rw [hms m hm]
      rfl
    rw [hsame before hb, hsame after ha]

theorem lookup_mem (h : lookup tokens region market = some l) :
    l ∈ tokens ∧ l.region = region ∧ l.market = market := by
  have hat := List.find?_some h
  rw [at_iff, Prod.mk.injEq] at hat
  exact ⟨mem_of_find?_eq_some h, hat.1, hat.2⟩

theorem lookup_none (h : lookup tokens region market = none) :
    ∀ l ∈ tokens, ¬ (l.region = region ∧ l.market = market) := by
  rintro l hl ⟨hr, hm⟩
  exact List.find?_eq_none.mp h l hl (at_iff.mpr (by rw [hr, hm]))

theorem insertToken_eq (h : lookup tokens l.region l.market = none) : insertToken tokens l = tokens ++ [l] := by
  rw [insertToken, removeToken, filter_eq_self.mpr]
  intro m hm
  have hnot := List.find?_eq_none.mp h m hm
  simpa using hnot

theorem reserved_eq (tokens : List Lost) :
    reserved tokens = (tokens.map fun l => if l.market = .onDemand then l.count else 0).sum := by
  induction tokens with
  | nil => rfl
  | cons l tokens ih =>
    unfold reserved at ih ⊢
    rw [map_cons, sum_cons, ← ih, filter_cons]
    by_cases hm : l.market = .onDemand
    · simp [hm]
    · simp [hm]

section Launched

variable {x : Instance}

theorem Books.launched_for (h : Books cfg c recent tokens) {l : Lost} (hl : l ∈ tokens) (hx : x ∈ c.instances)
    (ht : x.token = some l.token) : l.region = x.region ∧ l.market = x.market := by
  obtain ⟨launched, hask⟩ := h.lost l hl
  obtain ⟨a, ha, hr, hm, -⟩ := h.wf.tokens x hx l.token ht
  cases hask.symm.trans ha
  exact ⟨hr, hm⟩

theorem Books.named_of_id (h : Books cfg c recent tokens) {e : Recent} {t : ℕ} (he : e ∈ recent) (hx : x ∈ c.instances)
    (hid : e.id = x.id) (ht : x.token = some t) : x.region = e.region ∧
      (∃ a, c.asks t = some a ∧ a.last = e.asked) ∧ ∀ l ∈ tokens, l.token ≠ t := by
  obtain ⟨y, hy, t', a, hyid, hpair, hyt, hask, hasked, hnot⟩ := h.named e he
  cases h.wf.unique hy hx (hyid.trans hid)
  cases hyt.symm.trans ht
  exact ⟨(Prod.mk.inj hpair).1, ⟨a, hask, hasked⟩, hnot⟩

end Launched

theorem Books.later (h : Books cfg c recent tokens) (hl : Later c c') : Books cfg c' recent tokens where
  wf := h.wf.later hl
  lost := by
    rw [hl.asks]
    exact h.lost
  keys := h.keys
  named := by
    intro e he
    obtain ⟨x, hx, t, a, hid, hr, ht, ha, hasked, hnot⟩ := h.named e he
    obtain ⟨y, hy, hold, -⟩ := exists_newer hl.instances hx
    simp only [Prod.mk.injEq] at hold
    rw [hl.asks]
    exact ⟨y, hy, t, a, hold.1.trans hid, by rw [hold.2.1, hold.2.2.1, hr], hold.2.2.2.trans ht, ha, hasked, hnot⟩
  known := by
    intro y hy hlive t ht
    obtain ⟨x, hx, hold⟩ := exists_older hl.instances hy
    have hsame := hold.1
    simp only [Prod.mk.injEq] at hsame
    rw [hsame.2.2.2] at ht
    rw [hl.asks, hsame.1]
    rcases h.known x hx (hold.live hlive) t ht with hl' | he | ⟨a, ha, hgrace⟩
    · exact .inl hl'
    · exact .inr (.inl he)
    · exact .inr (.inr ⟨a, ha, hgrace.trans hl.time⟩)

theorem Shown.later (h : Shown c region hosts) (hl : Later c c') : Shown c' region hosts := by
  intro host hhost
  obtain ⟨x, hx, hid, hr, hm, hrank⟩ := h host hhost
  obtain ⟨y, hy, hold, hrank'⟩ := exists_newer hl.instances hx
  simp only [Prod.mk.injEq] at hold
  exact ⟨y, hy, hold.1.trans hid, hold.2.1.trans hr, hold.2.2.1.trans hm, hrank.trans hrank'⟩

theorem Covered.later {found : List ℕ} (h : Covered c tokens region hosts found) (hl : Later c c') :
    Covered c' tokens region hosts found := by
  intro y hy hr hlive
  obtain ⟨x, hx, hold⟩ := exists_older hl.instances hy
  have hsame := hold.1
  simp only [Prod.mk.injEq] at hsame
  rw [hsame.1, hsame.2.2.2]
  exact h x hx (hsame.2.1 ▸ hr) (hold.live hlive)

theorem Counted.later {n : ℕ} (h : Counted c tokens lists n) (hl : Later c c') :
    Counted c' tokens lists n := by
  obtain ⟨counted, hle, hlive, hlists⟩ := h
  refine ⟨counted, hle, ?_, hlists⟩
  intro y hy hm hy'
  obtain ⟨x, hx, hold⟩ := exists_older hl.instances hy
  have hsame := hold.1
  simp only [Prod.mk.injEq] at hsame
  rw [hsame.1, hsame.2.2.2]
  exact hlive x hx (hsame.2.2.1 ▸ hm) (hold.live hy')

theorem load_later (hl : Later c c') : load c' tokens ≤ load c tokens := by
  have hsame : unlaunched c' = unlaunched c := by
    funext l
    simp only [unlaunched, hl.asks]
  unfold load
  rw [hsame]
  exact Nat.add_le_add_right hl.liveOnDemand_le _

theorem Counted.load_le {n : ℕ} (h : Counted c tokens lists n)
    (hbooks : Books cfg c recent tokens) : load c tokens ≤ n := by
  obtain ⟨counted, hle, hlive, -⟩ := h
  have hcount : c.liveOnDemand ≤ counted.length +
      (tokens.map fun l => if l.market = .onDemand then
        if (c.asks l.token).any (·.launched) then l.count else 0 else 0).sum := by
    refine length_filter_le_add_sum (f := (·.id)) (g := fun x l => x.market = .onDemand && x.token = some l.token)
      hbooks.wf.ids ?_ ?_
    · intro x hx hp
      simp only [Bool.and_eq_true, decide_eq_true_eq] at hp
      rcases hlive x hx hp.1 hp.2 with hmem | ⟨l, hl, -, ht⟩
      · exact .inl hmem
      · exact .inr ⟨l, hl, by simp [hp.1, ht]⟩
    · intro l hl
      obtain ⟨launched, hask⟩ := hbooks.lost l hl
      have hcounts := hbooks.wf.counts l.token _ hask
      split
      · split
        · refine Nat.le_trans ?_ hcounts
          apply List.Sublist.length_le
          apply monotone_filter_right
          intro x hx
          simp only [Bool.and_eq_true, decide_eq_true_eq] at hx
          simpa using hx.2
        · next hnone =>
          have hempty := hbooks.wf.none_launched (by simpa using hnone)
          apply Nat.le_of_eq
          rw [length_eq_zero_iff, filter_eq_nil_iff]
          intro x hx hx'
          simp only [Bool.and_eq_true, decide_eq_true_eq] at hx'
          exact filter_eq_nil_iff.mp hempty x hx (by simpa using hx'.2)
      · next hm =>
        apply Nat.le_of_eq
        rw [length_eq_zero_iff, filter_eq_nil_iff]
        intro x hx hx'
        simp only [Bool.and_eq_true, decide_eq_true_eq] at hx'
        exact hm ((hbooks.launched_for hl hx hx'.2).2.trans hx'.1)
  have hsum : (tokens.map fun l => if l.market = .onDemand then
      if (c.asks l.token).any (·.launched) then l.count else 0 else 0).sum +
      (tokens.map (unlaunched c)).sum = reserved tokens := by
    rw [reserved_eq]
    clear hle hlive hcount hbooks
    induction tokens with
    | nil => rfl
    | cons l tokens ih =>
      simp only [map_cons, sum_cons, unlaunched] at ih ⊢
      rw [← ih]
      split
      · split
        · omega
        · omega
      · omega
  unfold load
  omega

theorem Covered.liveIn_le {found : List ℕ} (h : Covered c tokens region hosts found)
    (hbooks : Books cfg c recent tokens)
    (hnone : ∀ l ∈ tokens, l.region ≠ region) : c.liveIn region ≤ (liveHosts hosts).length + found.length := by
  have hle : c.liveIn region ≤ ((liveHosts hosts).map (·.id) ++ found).length := by
    refine length_filter_le_of_mem (f := (·.id)) hbooks.wf.ids ?_
    intro x hx hp
    simp only [Bool.and_eq_true, decide_eq_true_eq] at hp
    rcases h x hx hp.1 hp.2 with ⟨host, hhost, hid, hlive⟩ | hfound | ⟨l, hl, ht⟩
    · exact mem_append_left _ (mem_map.mpr ⟨host, mem_filter.mpr ⟨hhost, hlive⟩, hid⟩)
    · exact mem_append_right _ hfound
    · exact absurd ((hbooks.launched_for hl hx ht).1.trans hp.1) (hnone l hl)
  simpa using hle

end Fcvm.GpuHosts
