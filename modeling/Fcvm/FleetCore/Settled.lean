import Fcvm.FleetCore.Apply
import Fcvm.FleetCore.Laid

/-! After every event the fleet is laid, its races wait for no slot that is gone, and settling it again does nothing. -/

namespace Fcvm.FleetCore

open List

open Std (ExtTreeMap ExtTreeSet)
open Library Library.Rect

variable {p : Parts} {c : Config} {f : Fleet p}

variable {now startedAt : ℕ} {h : HalfRace}

theorem mem_ec2Tiles {n : ℕ} :
    n ∈ ec2Tiles c now f ↔ n ∈ f.ec2 ∧ n ≤ ec2Want c f ∨ 1 ≤ n ∧ n ≤ ec2Want c f := by
  have hfold : ∀ (l : List ℕ) (m : ExtTreeMap ℕ (Slot p)),
      n ∈ l.foldl (fun m i => m.insertIfNew (i + 1) (newSlot .ec2 none none now)) m ↔ n ∈ m ∨ ∃ i ∈ l, i + 1 = n := by
    intro l
    induction l with
    | nil => simp
    | cons i l ih =>
      intro m
      rw [foldl_cons, ih, ExtTreeMap.mem_insertIfNew]
      simp only [Nat.compare_eq_eq, mem_cons, exists_eq_or_imp]
      tauto
  have hfilter : n ∈ f.ec2.filter (fun n _ => decide (n ≤ ec2Want c f)) ↔ n ∈ f.ec2 ∧ n ≤ ec2Want c f := by
    rw [ExtTreeMap.mem_iff_isSome_getElem?, ExtTreeMap.getElem?_filter', ExtTreeMap.mem_iff_isSome_getElem?]
    cases f.ec2[n]? <;> simp [Option.filter]
  rw [ec2Tiles, hfold, hfilter]
  simp only [mem_range]
  constructor
  · rintro (h | ⟨i, hi, rfl⟩)
    · exact .inl h
    · exact .inr ⟨by omega, by omega⟩
  · rintro (h | ⟨h₁, h₂⟩)
    · exact .inl h
    · exact .inr ⟨n - 1, by omega, by omega⟩

theorem HasEc2.ec2Tiles_eq (h : HasEc2 c f) (now : ℕ) : ec2Tiles c now f = f.ec2 := by
  have hfilter : f.ec2.filter (fun n _ => decide (n ≤ ec2Want c f)) = f.ec2 := by
    apply ExtTreeMap.ext_getElem?
    intro n
    rw [ExtTreeMap.getElem?_filter']
    cases hs : f.ec2[n]? with
    | none => rfl
    | some s =>
      have hn := h.bounded n (ExtTreeMap.mem_iff_isSome_getElem?.2 (by simp [hs]))
      simp [Option.filter, hn]
  have hfold : ∀ l : List ℕ, (∀ i ∈ l, i + 1 ∈ f.ec2) →
      l.foldl (fun m i => m.insertIfNew (i + 1) (newSlot .ec2 none none now)) f.ec2 = f.ec2 := by
    intro l
    induction l with
    | nil => simp
    | cons i l ih =>
      intro hl
      have hi : f.ec2.insertIfNew (i + 1) (newSlot .ec2 none none now) = f.ec2 := by
        apply ExtTreeMap.ext_getElem?
        intro n
        rw [ExtTreeMap.getElem?_insertIfNew, if_neg]
        exact fun hn => hn.2 (hl i mem_cons_self)
      rw [foldl_cons, hi]
      exact ih fun j hj => hl j (mem_cons_of_mem _ hj)
  rw [ec2Tiles, hfilter]
  apply hfold
  intro i hi
  exact h.there i (mem_range.1 hi)

def Cleared (leaves : ℕ → Bool) (h : HalfRace) : Prop :=
  h.doneAt = none → (∀ (n : ℕ) (t : RaceTile), h.tiles[n]? = some t → leaves n = true → t.firstFrameAt.isSome) ∧
    (h.tiles = ∅ ∨ ∃ (n : ℕ) (t : RaceTile), h.tiles[n]? = some t ∧ t.firstFrameAt = none)

theorem finishHalf_tiles (h : HalfRace) (startedAt : ℕ) (last : Option ℕ) (now : ℕ) :
    (finishHalf h startedAt last now).tiles = h.tiles := by
  simp only [finishHalf]
  split
  · rfl
  · split <;> rfl

theorem finishHalf_waits {last : Option ℕ}
    (hd : (finishHalf h startedAt last now).doneAt = none) :
    finishHalf h startedAt last now = h ∧ (h.tiles = ∅ ∨ ∃ (n : ℕ) (t : RaceTile), h.tiles[n]? = some t ∧
      t.firstFrameAt = none) := by
  simp only [finishHalf] at hd ⊢
  split at hd
  · next hcond =>
    rw [if_pos hcond]
    refine ⟨rfl, .inl ?_⟩
    simp only [Bool.or_eq_true, hd, Option.isSome_none, Bool.false_eq_true, false_or] at hcond
    simpa using hcond
  · next hcond =>
    split at hd
    · next hany =>
      rw [if_neg hcond, if_pos hany]
      refine ⟨rfl, .inr ?_⟩
      simp only [any_eq_true, Prod.exists, ExtTreeMap.mem_toList_iff_getElem?_eq_some] at hany
      obtain ⟨n, t, ht, hnone⟩ := hany
      exact ⟨n, t, ht, by simpa using hnone⟩
    · cases hd

theorem finishHalf_eq_self (hw : h.tiles = ∅ ∨ ∃ (n : ℕ) (t : RaceTile), h.tiles[n]? = some t ∧ t.firstFrameAt = none)
    (startedAt : ℕ) (last : Option ℕ) (now : ℕ) : finishHalf h startedAt last now = h := by
  simp only [finishHalf]
  split
  · rfl
  · next hcond =>
    rw [if_pos]
    rcases hw with hw | ⟨n, t, ht, hnone⟩
    · simp [hw] at hcond
    · simp only [any_eq_true, Prod.exists, ExtTreeMap.mem_toList_iff_getElem?_eq_some]
      exact ⟨n, t, ht, by simp [hnone]⟩

variable {leaves : ℕ → Bool}

theorem dropTiles_done (hd : h.doneAt.isSome) :
    dropTiles leaves startedAt now h = h := by
  simp [dropTiles, hd]

theorem dropTiles_get (hd : h.doneAt = none) (n : ℕ) :
    (dropTiles leaves startedAt now h).tiles[n]? =
      h.tiles[n]?.filter fun t => !leaves n || t.firstFrameAt.isSome := by
  simp only [dropTiles, hd, Option.isSome_none, Bool.false_eq_true, ↓reduceIte, finishHalf_tiles,
    ExtTreeMap.getElem?_filter']

theorem cleared_dropTiles (leaves : ℕ → Bool) (startedAt now : ℕ) (h : HalfRace) :
    Cleared leaves (dropTiles leaves startedAt now h) := by
  intro hd
  by_cases hdone : h.doneAt = none
  · constructor
    · intro n t ht hl
      rw [dropTiles_get hdone, Option.filter_eq_some_iff] at ht
      simpa [hl] using ht.2
    · have hwaits := hd
      simp only [dropTiles, hdone, Option.isSome_none, Bool.false_eq_true, ↓reduceIte] at hwaits
      have hfin := (finishHalf_waits hwaits).2
      simp only [dropTiles, hdone, Option.isSome_none, Bool.false_eq_true, ↓reduceIte, finishHalf_tiles]
      exact hfin
  · rw [dropTiles_done (by simpa [Option.isSome_iff_ne_none] using hdone)] at hd
    exact absurd hd hdone

theorem Cleared.dropTiles_eq (hc : Cleared leaves h) (startedAt now : ℕ) :
    dropTiles leaves startedAt now h = h := by
  cases hd : h.doneAt
  case some t => exact dropTiles_done (by simp [hd])
  obtain ⟨hgone, hwaits⟩ := hc hd
  have htiles : (h.tiles.filter fun n t => !leaves n || t.firstFrameAt.isSome) = h.tiles := by
    apply ExtTreeMap.ext_getElem?
    intro n
    rw [ExtTreeMap.getElem?_filter']
    cases ht : h.tiles[n]? with
    | none => rfl
    | some t =>
      cases hl : leaves n with
      | false => simp [Option.filter]
      | true => simp [Option.filter, hgone n t ht hl]
  simp only [dropTiles, hd, Option.isSome_none, Bool.false_eq_true, ↓reduceIte, htiles, Nat.sub_self, Nat.add_zero]
  rw [finishHalf_eq_self]
  · rw [← hd]
  · exact hwaits

def RacesCleared (f : Fleet p) : Prop :=
  ∀ r ∈ f.races, Cleared (fun n => n ∉ f.slots) r.fcvm ∧ Cleared (fun n => n ∉ f.ec2) r.ec2

theorem racesCleared_dropMissing (now : ℕ) (f : Fleet p) : RacesCleared (dropMissingFromRaces now f) := by
  intro r hr
  obtain ⟨r, -, rfl⟩ := mem_map.1 hr
  exact ⟨cleared_dropTiles _ _ _ _, cleared_dropTiles _ _ _ _⟩

theorem RacesCleared.dropMissing_eq (h : RacesCleared f) (now : ℕ) : dropMissingFromRaces now f = f := by
  have hraces : (f.races.map fun r =>
      { r with
        fcvm := dropTiles (fun n => decide (n ∉ f.slots)) r.startedAt now r.fcvm
        ec2 := dropTiles (fun n => decide (n ∉ f.ec2)) r.startedAt now r.ec2 }) = f.races := by
    conv_rhs => rw [← map_id f.races]
    apply map_congr_left
    intro r hr
    rw [(h r hr).1.dropTiles_eq, (h r hr).2.dropTiles_eq]
    rfl
  simp only [dropMissingFromRaces, hraces]

structure Settled (c : Config) (f : Fleet p) : Prop where
  laid : Laid c f
  cleared : RacesCleared f

theorem mem_lay_ec2 (pl : Plan) (now : ℕ) (f : Fleet p) {n : ℕ} : n ∈ (pl.lay now f).ec2 ↔ n ∈ f.ec2 := by
  simp [Plan.lay]

theorem settled_retile (c : Config) (now : ℕ) (f : Fleet p) : Settled c (retile c now f) := by
  refine ⟨⟨⟨?_, ?_⟩, ?_⟩, racesCleared_dropMissing _ _⟩
  · intro n hn
    have hmem := (mem_lay_ec2 _ now _).1 hn
    rcases mem_ec2Tiles.1 hmem with h | h
    · exact h.2
    · exact h.2
  · intro i hi
    apply (mem_lay_ec2 _ now _).2
    exact mem_ec2Tiles.2 (.inr ⟨by omega, hi⟩)
  · have hplan : plan c (retile c now f) = plan c (withEc2 c now f) := plan_lay c now (withEc2 c now f)
    rw [hplan]
    have hf := follows_lay (plan c (withEc2 c now f)) now (withEc2 c now f)
    exact { hf with }

theorem Settled.retile_eq (h : Settled c f) (now : ℕ) : retile c now f = f := by
  have hec2 : withEc2 c now f = f := by
    simp only [withEc2, h.laid.toHasEc2.ec2Tiles_eq]
  simp only [retile, hec2, h.laid.follows.lay_eq, h.cleared.dropMissing_eq]

theorem powerStep_eq (c : Config) (now : ℕ) (f : Fleet p) :
    powerStep c now f =
      { f with power := (powerStep c now f).power, nextRaceAt := (powerStep c now f).nextRaceAt } := by
  simp only [powerStep]
  split
  · rfl
  · split
    · split <;> rfl
    · split
      · rfl
      · simp only [finishWake, noteRendering]
        split <;> split <;> rfl

theorem Laid.power (h : Laid c f) {w : Power} (hw : w.state = f.power.state) (next : Option ℕ) :
    Laid c { f with power := w, nextRaceAt := next } := by
  have hwall : wallSlots { f with power := w, nextRaceAt := next } = wallSlots f := by
    simp only [wallSlots, hw]
    rfl
  have hjoins : ∀ n, joins { f with power := w, nextRaceAt := next } n = joins f n := by
    intro n
    simp only [joins, hwall]
    rfl
  have hactive : activeSlots c { f with power := w, nextRaceAt := next } = activeSlots c f := by
    simp only [activeSlots, hwall, funext hjoins]
    rfl
  have hwarming : warmingSlots c { f with power := w, nextRaceAt := next } = warmingSlots c f := by
    simp only [warmingSlots, hwall, hjoins]
  have hplaces : fcvmPlaces c { f with power := w, nextRaceAt := next } = fcvmPlaces c f := by
    simp only [fcvmPlaces, hw, hactive, hwall]
    rfl
  have hplan : plan c { f with power := w, nextRaceAt := next } = plan c f :=
    plan_congr c hactive hwarming hplaces rfl rfl
  have hwant : ec2Want c { f with power := w, nextRaceAt := next } = ec2Want c f := by
    simp only [ec2Want, hw]
  obtain ⟨⟨hb, ht⟩, hf⟩ := h
  refine ⟨⟨?_, ?_⟩, ?_⟩
  · rwa [hwant]
  · rwa [hwant]
  · rw [hplan]
    exact { hf with }

theorem settled_settle (c : Config) (now : ℕ) (f : Fleet p) : Settled c (settle c now f) := by
  simp only [settle]
  split
  · exact settled_retile _ _ _
  · next h =>
    rw [not_not] at h
    have hr := settled_retile c now f
    rw [powerStep_eq]
    exact ⟨hr.laid.power h _, hr.cleared⟩

theorem Settled.settle_eq (h : Settled c f) (hc : c.powerManaged = false) (now : ℕ) : settle c now f = f := by
  have hpower : powerStep c now f = f := by simp [powerStep, hc]
  simp [settle, h.retile_eq, hpower]

theorem apply_fleet (s : State p) (e : Event p) :
    (apply s e).fleet = settle (applyInner e s).1.config e.now (applyInner e s).1.fleet := by
  simp only [apply]
  split <;> rfl

theorem apply_config (s : State p) (e : Event p) : (apply s e).config = (applyInner e s).1.config := by
  simp only [apply]
  split <;> rfl

theorem settled_apply (s : State p) (e : Event p) : Settled (apply s e).config (apply s e).fleet := by
  rw [apply_fleet, apply_config]
  exact settled_settle _ _ _

theorem layout_after_event_is_final (s : State p) (e : Event p) (now : ℕ) :
    retile (apply s e).config now (apply s e).fleet = (apply s e).fleet := (settled_apply s e).retile_eq now

end Fcvm.FleetCore
