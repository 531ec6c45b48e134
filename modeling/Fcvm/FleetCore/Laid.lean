import Fcvm.FleetCore.Plan

/-! A laid fleet: it is where its own plan puts it. Laying a plan gives one, and laying again changes nothing. -/

namespace Fcvm.FleetCore

open List

open Std (ExtTreeMap ExtTreeSet)
open Library Library.Rect

variable {p : Parts} {c : Config} {f : Fleet p}

section LaySlot

variable {half : Half} {generation : ℕ} {warm : ExtTreeSet ℕ} {placed : ExtTreeMap ℕ (ℕ × Rect)} {n : ℕ} {s : Slot p}

@[simp] theorem laySlot_position : (laySlot half generation warm placed n s).position = placed[n]?.map Prod.fst := rfl

@[simp] theorem laySlot_rect : (laySlot half generation warm placed n s).rect = placed[n]?.map Prod.snd := rfl

@[simp] theorem laySlot_host : (laySlot half generation warm placed n s).host = s.host := by
  simp only [laySlot]
  split <;> rfl

@[simp] theorem laySlot_gpu : (laySlot half generation warm placed n s).gpu = s.gpu := by
  simp only [laySlot]
  split <;> rfl

@[simp] theorem laySlot_generation : (laySlot half generation warm placed n s).generation = s.generation := by
  simp only [laySlot]
  split <;> rfl

@[simp] theorem laySlot_observed : (laySlot half generation warm placed n s).observed = s.observed := by
  simp only [laySlot]
  split <;> rfl

@[simp] theorem laySlot_claim : (laySlot half generation warm placed n s).claim = s.claim := by
  simp only [laySlot]
  split <;> rfl

theorem laySlot_self (hpos : s.position = placed[n]?.map Prod.fst) (hrect : s.rect = placed[n]?.map Prod.snd) :
    laySlot half generation warm placed n s = s := by
  simp only [laySlot, ← hrect, ↓reduceIte, ← hpos]

end LaySlot

structure Follows (pl : Plan) (f : Fleet p) : Prop where
  warming : f.warming = pl.warming
  n : f.n = pl.n
  ec2N : f.ec2N = pl.ec2N
  dark : f.fcvmDark = pl.fcvmDark
  fcvmSide : f.layout.fcvm = pl.fcvmSide
  ec2Side : f.layout.ec2 = pl.ec2Side
  region : ∀ (h : String) (host : Host), f.hosts[h]? = some host → host.region = pl.regions[h]?
  position : ∀ (n : ℕ) (s : Slot p), f.slots[n]? = some s → s.position = pl.fcvm[n]?.map Prod.fst
  rect : ∀ (n : ℕ) (s : Slot p), f.slots[n]? = some s → s.rect = pl.fcvm[n]?.map Prod.snd
  ec2Position : ∀ (n : ℕ) (s : Slot p), f.ec2[n]? = some s → s.position = pl.ec2[n]?.map Prod.fst
  ec2Rect : ∀ (n : ℕ) (s : Slot p), f.ec2[n]? = some s → s.rect = pl.ec2[n]?.map Prod.snd

structure HasEc2 (c : Config) (f : Fleet p) : Prop where
  bounded : ∀ n, n ∈ f.ec2 → n ≤ ec2Want c f
  there : ∀ i, i < ec2Want c f → i + 1 ∈ f.ec2

structure Laid (c : Config) (f : Fleet p) : Prop extends HasEc2 c f where
  follows : Follows (plan c f) f

section Lay

variable (pl : Plan) (now : ℕ) (f : Fleet p)

theorem lay_slots (n : ℕ) : (pl.lay now f).slots[n]? =
    f.slots[n]?.map (laySlot .fcvm (if pl.changes f then f.layout.generation + 1 else f.layout.generation) f.warming
      pl.fcvm n) := by
  simp [Plan.lay, ExtTreeMap.getElem?_map]

theorem lay_ec2 (n : ℕ) : (pl.lay now f).ec2[n]? =
    f.ec2[n]?.map (laySlot .ec2 (if pl.changes f then f.layout.generation + 1 else f.layout.generation) f.warming
      pl.ec2 n) := by
  simp [Plan.lay, ExtTreeMap.getElem?_map]

theorem lay_hosts (h : String) :
    (pl.lay now f).hosts[h]? = f.hosts[h]?.map fun host => { host with region := pl.regions[h]? } := by
  simp [Plan.lay, ExtTreeMap.getElem?_map]

theorem not_moves {placed : ExtTreeMap ℕ (ℕ × Rect)} {n : ℕ} {s : Slot p} :
    moves placed n s = false ↔ placed[n]? = s.position.bind fun k => s.rect.map fun r => (k, r) := by
  simp [moves]

theorem follows_lay : Follows pl (pl.lay now f) := by
  refine ⟨rfl, rfl, rfl, rfl, ?_, ?_, ?_, ?_, ?_, ?_, ?_⟩
  · simp only [Plan.lay]
    split
    · rfl
    · next h =>
      simp only [Plan.changes, Bool.or_eq_true, not_or, decide_eq_true_eq, not_not] at h
      exact h.1.2
  · simp only [Plan.lay]
    split
    · rfl
    · next h =>
      simp only [Plan.changes, Bool.or_eq_true, not_or, decide_eq_true_eq, not_not] at h
      exact h.2
  · intro h host hh
    rw [lay_hosts, Option.map_eq_some_iff] at hh
    obtain ⟨host, -, rfl⟩ := hh
    rfl
  all_goals
    intro n s hs
    first
    | rw [lay_slots, Option.map_eq_some_iff] at hs
    | rw [lay_ec2, Option.map_eq_some_iff] at hs
    obtain ⟨s, -, rfl⟩ := hs
    simp

variable {pl now f}

theorem Follows.not_changes (h : Follows pl f) : pl.changes f = false := by
  have hzip : ∀ o : Option (ℕ × Rect), o = (o.map Prod.fst).bind fun k => (o.map Prod.snd).map fun r => (k, r) := by
    intro o
    cases o <;> rfl
  simp only [Plan.changes, Bool.or_eq_false_iff, decide_eq_false_iff_not, not_not, any_eq_false, Bool.not_eq_true]
  refine ⟨⟨⟨⟨?_, ?_⟩, h.dark⟩, h.fcvmSide⟩, h.ec2Side⟩
  · rintro ⟨n, s⟩ hs
    rw [ExtTreeMap.mem_toList_iff_getElem?_eq_some] at hs
    rw [not_moves, h.position n s hs, h.rect n s hs]
    exact hzip _
  · rintro ⟨n, s⟩ hs
    rw [ExtTreeMap.mem_toList_iff_getElem?_eq_some] at hs
    rw [not_moves, h.ec2Position n s hs, h.ec2Rect n s hs]
    exact hzip _

theorem Follows.lay_eq (h : Follows pl f) : pl.lay now f = f := by
  have hsame := h.not_changes
  have hslots : f.slots.map (laySlot .fcvm f.layout.generation f.warming pl.fcvm) = f.slots := by
    apply ExtTreeMap.ext_getElem?
    intro n
    rw [ExtTreeMap.getElem?_map]
    cases hs : f.slots[n]? with
    | none => rfl
    | some s => simp [laySlot_self (h.position n s hs) (h.rect n s hs)]
  have hec2 : f.ec2.map (laySlot .ec2 f.layout.generation f.warming pl.ec2) = f.ec2 := by
    apply ExtTreeMap.ext_getElem?
    intro n
    rw [ExtTreeMap.getElem?_map]
    cases hs : f.ec2[n]? with
    | none => rfl
    | some s => simp [laySlot_self (h.ec2Position n s hs) (h.ec2Rect n s hs)]
  have hhosts : (f.hosts.map fun name host => { host with region := pl.regions[name]? }) = f.hosts := by
    apply ExtTreeMap.ext_getElem?
    intro name
    rw [ExtTreeMap.getElem?_map]
    cases hh : f.hosts[name]? with
    | none => rfl
    | some host => simp [← h.region name host hh]
  simp only [Plan.lay, hsame, Bool.false_eq_true, ↓reduceIte, hslots, hec2, hhosts, ← h.warming, ← h.n, ← h.ec2N,
    ← h.dark]

end Lay

section Same

variable (c : Config) (now : ℕ) (f : Fleet p) (pl : Plan)

theorem lay_mayPlace {half : Half} {generation : ℕ} {warm : ExtTreeSet ℕ} {placed : ExtTreeMap ℕ (ℕ × Rect)} {n : ℕ}
    {s : Slot p} : MayPlace (pl.lay now f) (laySlot half generation warm placed n s) ↔ MayPlace f s := by
  have hq : isQuarantined (pl.lay now f) (laySlot half generation warm placed n s) = isQuarantined f s := by
    simp only [isQuarantined, laySlot_host, laySlot_gpu]
    rfl
  have hhost : ∀ h : String, (∃ host, (pl.lay now f).hosts[h]? = some host ∧ Host.draining host = false) ↔
      ∃ host, f.hosts[h]? = some host ∧ Host.draining host = false := by
    intro h
    rw [lay_hosts]
    cases f.hosts[h]? <;> simp
  constructor
  · rintro ⟨h₁, h₂, h₃, h, host, hs, hh⟩
    obtain ⟨host, hh⟩ := (hhost h).1 ⟨host, hh⟩
    exact ⟨h₁, by simpa using h₂, hq ▸ h₃, h, host, by simpa using hs, hh⟩
  · rintro ⟨h₁, h₂, h₃, h, host, hs, hh⟩
    obtain ⟨host, hh⟩ := (hhost h).2 ⟨host, hh⟩
    exact ⟨h₁, by simpa using h₂, hq.trans h₃, h, host, by simpa using hs, hh⟩

theorem wallSlots_lay : wallSlots (pl.lay now f) = wallSlots f := by
  refine List.Perm.eq_of_pairwise (fun a b _ _ (hab : a < b) hba => absurd hab hba.not_gt) ?_ ?_ ?_
  · exact wallSlots_sorted _
  · exact wallSlots_sorted _
  · apply (perm_ext_iff_of_nodup ((wallSlots_sorted _).imp Nat.ne_of_lt) ((wallSlots_sorted _).imp Nat.ne_of_lt)).2
    intro n
    rw [mem_wallSlots, mem_wallSlots, lay_slots]
    constructor
    · rintro ⟨t, ht, hm⟩
      obtain ⟨s, hs, rfl⟩ := Option.map_eq_some_iff.1 ht
      exact ⟨s, hs, (lay_mayPlace now f pl).1 hm⟩
    · rintro ⟨s, hs, hm⟩
      exact ⟨_, by rw [hs]; rfl, (lay_mayPlace now f pl).2 hm⟩

theorem isPlaced_lay {n : ℕ} : isPlaced (pl.lay now f) n = true ↔ n ∈ f.slots ∧ n ∈ pl.fcvm := by
  simp only [isPlaced, lay_slots, ExtTreeMap.mem_iff_isSome_getElem?]
  cases f.slots[n]? <;> simp

theorem mem_plan_fcvm {n : ℕ} : n ∈ (plan c f).fcvm ↔ n ∈ activeSlots c f := by
  rw [← (wallTiles_perm c f).mem_iff, ← numbered_slots]
  exact ExtTreeMap.mem_ofList.trans (by simp)

theorem isPlaced_lay_plan {n : ℕ} : isPlaced ((plan c f).lay now f) n = true ↔ n ∈ activeSlots c f := by
  rw [isPlaced_lay, mem_plan_fcvm]
  constructor
  · exact And.right
  · intro h
    obtain ⟨s, hs, -⟩ := mayPlace_of_active h
    exact ⟨ExtTreeMap.mem_iff_isSome_getElem?.2 (by simp [hs]), h⟩

theorem isCurrent_lay {n : ℕ} :
    (((pl.lay now f).slots[n]?).any fun s => isCurrent s) = (f.slots[n]?).any fun s => isCurrent s := by
  rw [lay_slots]
  cases f.slots[n]? <;> simp [isCurrent]

theorem joins_iff {n : ℕ} : joins f n = true ↔
    (∀ k ∈ wallSlots f, isPlaced f k = false) ∨ isPlaced f n = true ∨
      (f.slots[n]?.any fun s => isCurrent s) = true := by
  simp only [joins, isPlaced, Bool.or_eq_true, Bool.not_eq_true', any_eq_false, Bool.not_eq_true]
  cases f.slots[n]? <;> simp

theorem filter_mem_of_sublist {t b : List ℕ} (h : t.Sublist b) (hb : b.Nodup) : b.filter (fun n => n ∈ t) = t := by
  symm
  apply List.Sublist.eq_of_length
  · have hs := h.filter fun n => decide (n ∈ t)
    rwa [filter_eq_self.2 (by simp)] at hs
  · apply List.Perm.length_eq
    apply (perm_ext_iff_of_nodup (h.nodup hb) (hb.filter _)).2
    intro n
    simp only [mem_filter, decide_eq_true_eq]
    exact ⟨fun hn => ⟨h.subset hn, hn⟩, And.right⟩

theorem mem_active_of_front {n : ℕ} (hn : n ∈ (wallSlots f).take c.maxTiles) :
    n ∈ activeSlots c f ↔ joins f n = true := by
  have hnodup : (wallSlots f).Nodup := (wallSlots_sorted f).imp Nat.ne_of_lt
  have hdisj : n ∉ (wallSlots f).drop c.maxTiles := disjoint_take_drop hnodup le_rfl hn
  rw [activeSlots_eq, mem_append, mem_filter]
  constructor
  · rintro (h | h)
    · exact h.2
    · exact absurd (mem_of_mem_filter (mem_of_mem_take h)) hdisj
  · exact fun h => .inl ⟨hn, h⟩

theorem active_of_not_joins {n : ℕ} (hn : n ∈ (wallSlots f).take c.maxTiles) (hj : joins f n = false) :
    ∃ k ∈ wallSlots f, k ∈ activeSlots c f := by
  have hany : ∃ k ∈ wallSlots f, isPlaced f k = true := by
    by_contra hno
    have : joins f n = true := (joins_iff f).2 (.inl fun k hk => by simpa using fun h => hno ⟨k, hk, h⟩)
    simp [hj] at this
  obtain ⟨k, hk, hplaced⟩ := hany
  by_cases hfront : k ∈ (wallSlots f).take c.maxTiles
  · exact ⟨k, hk, (mem_active_of_front c f hfront).2 ((joins_iff f).2 (.inr (.inl hplaced)))⟩
  · have hback : k ∈ (wallSlots f).drop c.maxTiles := by
      rw [← take_append_drop c.maxTiles (wallSlots f), mem_append] at hk
      exact hk.resolve_left hfront
    have hpos : 0 < c.maxTiles := by
      have := length_pos_of_mem hn
      simp only [length_take] at this
      omega
    -- either something joined, or a tile beyond the wall's places is kept
    have hne : activeSlots c f ≠ [] := by
      rw [activeSlots_eq]
      intro hnil
      obtain ⟨h₁, h₂⟩ := append_eq_nil_iff.1 hnil
      rw [h₁, length_nil, Nat.sub_zero, take_eq_nil_iff] at h₂
      rcases h₂ with h₂ | h₂
      · omega
      · have : k ∈ ((wallSlots f).drop c.maxTiles).filter (isPlaced f) := mem_filter.2 ⟨hback, hplaced⟩
        rw [h₂] at this
        cases this
    obtain ⟨a, ha⟩ := exists_mem_of_ne_nil _ hne
    exact ⟨a, (activeSlots_sublist c f).subset ha, ha⟩

theorem joins_lay {n : ℕ} (hn : n ∈ (wallSlots f).take c.maxTiles) :
    joins ((plan c f).lay now f) n = joins f n := by
  rw [Bool.eq_iff_iff, joins_iff, wallSlots_lay, isPlaced_lay_plan, isCurrent_lay, mem_active_of_front c f hn]
  constructor
  · rintro (h | h | h)
    · by_contra hj
      obtain ⟨k, hk, ha⟩ := active_of_not_joins c f hn (by simpa using hj)
      have := (isPlaced_lay_plan c now f).2 ha
      simp [h k hk] at this
    · exact h
    · exact (joins_iff f).2 (.inr (.inr h))
  · exact fun h => .inr (.inl h)

theorem activeSlots_lay : activeSlots c ((plan c f).lay now f) = activeSlots c f := by
  have hnodup : (wallSlots f).Nodup := (wallSlots_sorted f).imp Nat.ne_of_lt
  have hfront : ((wallSlots f).take c.maxTiles).filter (joins ((plan c f).lay now f)) =
      ((wallSlots f).take c.maxTiles).filter (joins f) :=
    filter_congr fun n hn => joins_lay c now f hn
  rw [activeSlots_eq c ((plan c f).lay now f), wallSlots_lay, hfront]
  -- beyond the wall's places, what is placed now is what was kept
  have hkept : ((wallSlots f).drop c.maxTiles).filter (isPlaced ((plan c f).lay now f)) =
      (((wallSlots f).drop c.maxTiles).filter (isPlaced f)).take
        (c.maxTiles - (((wallSlots f).take c.maxTiles).filter (joins f)).length) := by
    have hsub := (take_sublist (c.maxTiles - (((wallSlots f).take c.maxTiles).filter (joins f)).length)
      (((wallSlots f).drop c.maxTiles).filter (isPlaced f))).trans filter_sublist
    conv_rhs => rw [← filter_mem_of_sublist hsub (hnodup.sublist (drop_sublist _ _))]
    apply filter_congr
    intro n hn
    have hnot : n ∉ (wallSlots f).take c.maxTiles := fun h => disjoint_take_drop hnodup le_rfl h hn
    rw [Bool.eq_iff_iff, isPlaced_lay_plan, activeSlots_eq, mem_append, decide_eq_true_eq]
    constructor
    · rintro (h | h)
      · exact absurd (mem_of_mem_filter h) hnot
      · exact h
    · exact Or.inr
  rw [hkept, take_take, Nat.min_self, ← activeSlots_eq]

theorem warmingSlots_lay : warmingSlots c ((plan c f).lay now f) = warmingSlots c f := by
  unfold warmingSlots
  rw [wallSlots_lay]
  apply filter_congr
  intro n hn
  rw [joins_lay c now f hn]

theorem slotHost_lay (n : ℕ) : slotHost (pl.lay now f) n = slotHost f n := by
  simp only [slotHost, lay_slots]
  cases f.slots[n]? <;> simp

theorem groupSlots_lay (active : List ℕ) : groupSlots (pl.lay now f) active = groupSlots f active := by
  unfold groupSlots
  congr 1
  funext groups n
  have h := slotHost_lay now f pl n
  unfold slotHost at h
  rw [h]

theorem hostDraining_lay {s : Slot p} : hostDraining (pl.lay now f).hosts s = hostDraining f.hosts s := by
  simp only [hostDraining]
  cases s.host with
  | none => rfl
  | some h =>
    simp only [Option.bind_some, lay_hosts]
    cases f.hosts[h]? <;> simp

theorem mem_hosts_lay {h : String} : h ∈ (pl.lay now f).hosts ↔ h ∈ f.hosts := by
  simp [Plan.lay]

theorem quarantinedGpus_lay : quarantinedGpus (pl.lay now f) = quarantinedGpus f := by
  have hlist : (pl.lay now f).slots.toList = f.slots.toList.map fun e => (e.1, laySlot .fcvm
      (if pl.changes f then f.layout.generation + 1 else f.layout.generation) f.warming pl.fcvm e.1 e.2) := by
    simp only [Plan.lay, ExtTreeMap.toList_map]
  unfold quarantinedGpus
  rw [hlist, countP_map]
  apply countP_congr
  rintro ⟨n, s⟩ -
  simp only [Function.comp_def, hostDraining_lay, mem_hosts_lay, laySlot_host]
  simp only [isQuarantined, hostDraining, laySlot_host, laySlot_gpu]
  rfl

theorem allConnected_lay : allConnected (pl.lay now f) = allConnected f := by
  have hhosts : ∀ id : String, ((pl.lay now f).hosts[id]?.any fun h : Host => !h.draining) =
      f.hosts[id]?.any fun h : Host => !h.draining := by
    intro id
    rw [lay_hosts]
    cases f.hosts[id]? <;> simp
  simp only [allConnected, hhosts]
  rfl

theorem fcvmPlaces_lay : fcvmPlaces c ((plan c f).lay now f) = fcvmPlaces c f := by
  unfold fcvmPlaces
  rw [activeSlots_lay, wallSlots_lay, quarantinedGpus_lay, allConnected_lay]
  rfl

theorem ec2Places_lay : ec2Places c (pl.lay now f) = ec2Places c f := by
  simp [ec2Places, Plan.lay, ExtTreeMap.keys_map]

theorem plan_congr {f g : Fleet p} (hactive : activeSlots c f = activeSlots c g)
    (hwarming : warmingSlots c f = warmingSlots c g) (hplaces : fcvmPlaces c f = fcvmPlaces c g)
    (hec2 : ec2Places c f = ec2Places c g)
    (hgroups : groupSlots f (activeSlots c g) = groupSlots g (activeSlots c g)) : plan c f = plan c g := by
  have hcounts : bandCounts c f = bandCounts c g := by
    simp only [bandCounts, hplaces, hactive, hgroups]
  have hbands : hostBands c f = hostBands c g := by
    simp only [hostBands, hplaces, hec2, hcounts]
  have htiles : wallTiles c f = wallTiles c g := by
    simp only [wallTiles, hactive, hgroups, hbands]
  have hgrid : ec2Grid c f = ec2Grid c g := by
    simp only [ec2Grid, hplaces, hec2]
  simp only [plan, hactive, hplaces, hec2, hgroups, hwarming, hbands, htiles, hgrid]

theorem plan_lay : plan c ((plan c f).lay now f) = plan c f :=
  plan_congr c (activeSlots_lay c now f) (warmingSlots_lay c now f) (fcvmPlaces_lay c now f) (ec2Places_lay c now f _)
    (groupSlots_lay now f _ _)

end Same

end Fcvm.FleetCore
