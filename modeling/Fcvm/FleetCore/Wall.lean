import Fcvm.FleetCore.Layout

/-! The wall of a laid fleet is cut up exactly: the image into the two sides, the fcvm side into the hosts' bands, and
each of them into its tiles. -/

namespace Fcvm.FleetCore

open Std (ExtTreeMap ExtTreeSet)
open Library Library.Rect

variable {p : Parts} {c : Config} {f : Fleet p}

theorem fcvmSide_solid {fcvm : ℕ} (ec2 : ℕ) (h : 0 < fcvm) : (sides fcvm ec2).1.Solid := by
  constructor
  · rw [(sides_width (by omega)).1]
    positivity
  · simp [sides]

theorem ec2Side_solid {fcvm ec2 : ℕ} (h : 0 < ec2) : (sides fcvm ec2).2.Solid := by
  constructor
  · rw [(sides_width (by omega)).2]
    positivity
  · simp [sides]

theorem hostBands_pos (h : 0 < fcvmPlaces c f) :
    hostBands c f = bands p (sides (fcvmPlaces c f) (ec2Places c f).length).1
      (bandCounts c f) c.imageAspect c.tileAspect :=
  if_neg h.ne'

theorem hostBands_partition (h : 0 < fcvmPlaces c f) :
    Partition (sides (fcvmPlaces c f) (ec2Places c f).length).1 ((hostBands c f).map Prod.fst) := by
  rw [hostBands_pos h]
  apply bands_partition (fcvmSide_solid _ h) fun k hk => bandCounts_pos hk
  rwa [bandCounts_sum]

theorem band_tiles {b : Rect × List Rect} (hb : b ∈ hostBands c f) : Partition b.1 b.2 := by
  have hpos : 0 < fcvmPlaces c f := by
    by_contra hz
    rw [hostBands, if_pos (by omega)] at hb
    cases hb
  have htiles := bands_tiles (p := p) (fcvmSide_solid (ec2Places c f).length hpos)
    (fun k hk => bandCounts_pos hk) (by rwa [bandCounts_sum (c := c) (f := f)]) c.imageAspect c.tileAspect
  rw [← hostBands_pos hpos, List.forall₂_map_left_iff, List.forall₂_map_right_iff, List.forall₂_same] at htiles
  exact htiles b hb

theorem fcvmTiles_partition (c : Config) (f : Fleet p) :
    Partition (sides (fcvmPlaces c f) (ec2Places c f).length).1 ((hostBands c f).flatMap Prod.snd) := by
  by_cases h : 0 < fcvmPlaces c f
  · rw [List.flatMap_def]
    apply (hostBands_partition h).flatten
    rw [List.forall₂_map_left_iff, List.forall₂_map_right_iff, List.forall₂_same]
    exact fun b hb => band_tiles hb
  · have hz : fcvmPlaces c f = 0 := by omega
    rw [hostBands, if_pos hz, List.flatMap_nil, hz]
    apply Partition.nil
    simp [sides, area]

theorem ec2Tiles_partition (c : Config) (f : Fleet p) :
    Partition (sides (fcvmPlaces c f) (ec2Places c f).length).2 ((ec2Grid c f).map Prod.snd) := by
  rw [ec2Grid_rects]
  by_cases h : 0 < (ec2Places c f).length
  · exact gridIn_partition (ec2Side_solid h) h _ _
  · have hz : (ec2Places c f).length = 0 := by omega
    have hnil : gridIn p (sides (fcvmPlaces c f) 0).2 0 c.imageAspect c.tileAspect = [] := by
      rw [← List.length_eq_zero_iff, gridIn_length]
    rw [hz, hnil]
    apply Partition.nil
    by_cases hf : fcvmPlaces c f = 0
    · simp [sides, area, hf]
    · have hne : ((fcvmPlaces c f : ℕ) : ℚ) ≠ 0 := by exact_mod_cast hf
      simp [sides, area, hf, hne]

theorem wallTiles_dark (c : Config) (f : Fleet p) :
    (wallTiles c f).map Prod.snd ++ (plan c f).fcvmDark = (hostBands c f).flatMap Prod.snd := by
  have hlen := congrArg List.length (hostBands_lengths c f)
  simp only [List.length_map, bandCounts, List.length_append] at hlen
  rw [wallTiles_rects]
  simp only [plan]
  split at hlen
  · next hd =>
    rw [if_pos hd]
    -- the dark band is the last one
    have hne : hostBands c f ≠ [] := by
      intro hnil
      simp [hnil] at hlen
    have htake : (hostBands c f).take (groupSlots f (activeSlots c f)).length = (hostBands c f).dropLast := by
      rw [List.dropLast_eq_take]
      congr 1
      simp only [List.length_singleton] at hlen
      omega
    rw [htake, List.getLast?_eq_some_getLast hne, Option.map_some, Option.getD_some]
    conv_rhs => rw [← List.dropLast_append_getLast hne, List.flatMap_append]
    simp
  · next hd =>
    rw [if_neg hd, List.append_nil, List.take_of_length_le]
    simp only [List.length_nil] at hlen
    omega

theorem length_dark (c : Config) (f : Fleet p) :
    (activeSlots c f).length + (plan c f).fcvmDark.length = fcvmPlaces c f := by
  have h := congrArg List.length (wallTiles_dark c f)
  rw [List.length_append, List.length_map, length_wallTiles, List.length_flatMap, hostBands_lengths,
    bandCounts_sum] at h
  exact h

def placedRects (m : ExtTreeMap ℕ (Slot p)) : List Rect := m.toList.filterMap fun e => e.2.rect

def hostRects (f : Fleet p) (name : String) : List Rect :=
  f.slots.toList.filterMap fun e => if e.2.host = some name then e.2.rect else none

namespace Laid

theorem places_eq (h : Laid c f) : f.n + f.fcvmDark.length = fcvmPlaces c f := by
  rw [h.n_eq, h.follows.dark, length_dark]

theorem fcvm_partition (h : Laid c f) :
    Partition (sides (fcvmPlaces c f) (ec2Places c f).length).1 (placedRects f.slots ++ f.fcvmDark) := by
  apply (fcvmTiles_partition c f).perm
  rw [← wallTiles_dark, h.follows.dark]
  exact h.wall.all_rects_perm.symm.append_right _

theorem ec2_partition (h : Laid c f) :
    Partition (sides (fcvmPlaces c f) (ec2Places c f).length).2 (placedRects f.ec2) :=
  (ec2Tiles_partition c f).perm h.ec2Wall.all_rects_perm.symm

theorem image_partition (h : Laid c f) (hany : 0 < f.n + f.fcvmDark.length + f.ec2N) :
    Partition ⟨0, 0, 1, 1⟩ (placedRects f.slots ++ f.fcvmDark ++ placedRects f.ec2) := by
  rw [h.places_eq, h.ec2N_eq] at hany
  obtain ⟨hin₁, hin₂, hapart, harea⟩ := sides_halves hany
  apply Partition.append hin₁ hin₂ hapart _ h.fcvm_partition h.ec2_partition
  rw [harea]
  simp [area]

theorem host_partition (h : Laid c f) {name : String} {host : Host} (hh : f.hosts[name]? = some host) :
    (∀ region, host.region = some region → Partition region (hostRects f name)) ∧
      (host.region = none → hostRects f name = []) := by
  rw [h.follows.region name host hh]
  constructor
  · intro region hr
    obtain ⟨e, he, rfl, rfl⟩ := getElem_regions.1 hr
    obtain ⟨before, after, hsplit, hmine, hothers⟩ := wallTiles_split he
    have hlens : e.1.2.length = e.2.2.length := by
      obtain ⟨i, hi, rfl⟩ := List.mem_iff_getElem.1 he
      have hi' : i < (groupSlots f (activeSlots c f)).length ∧ i < (hostBands c f).length := by
        rw [List.length_zip] at hi
        omega
      have hlen := congrArg (fun l => l[i]?) (hostBands_lengths c f)
      simp only [bandCounts, List.getElem?_map, List.getElem?_eq_getElem hi'.2, Option.map_some] at hlen
      rw [List.getElem?_append_left (by simpa using hi'.1), List.getElem?_map, List.getElem?_eq_getElem hi'.1,
        Option.map_some, Option.some.injEq] at hlen
      rw [List.getElem_zip]
      exact hlen.symm
    have hsub : (e.1.2.zip e.2.2).Sublist (wallTiles c f) := by
      rw [hsplit, List.append_assoc]
      exact (List.sublist_append_left _ _).trans (List.sublist_append_right _ _)
    have hperm := h.wall.rects_perm (fun s => s.host = some e.1.1) hsub (by
      intro n r s hr hs
      have hhost : slotHost f n = s.host := by simp [slotHost, hs]
      simp only [decide_eq_true_eq, ← hhost]
      constructor
      · intro hn
        rw [hsplit, List.mem_append, List.mem_append] at hr
        rcases hr with (hr | hr) | hr
        · exact absurd hn (hothers _ (.inl hr))
        · exact hr
        · exact absurd hn (hothers _ (.inr hr))
      · exact fun hr => hmine _ hr)
    rw [List.map_snd_zip hlens.ge] at hperm
    have htiles := (band_tiles (List.of_mem_zip he).2).perm hperm.symm
    simpa only [hostRects, decide_eq_true_eq] using htiles
  · intro hr
    rw [hostRects, List.filterMap_eq_nil_iff]
    rintro ⟨n, s⟩ hs
    rw [ExtTreeMap.mem_toList_iff_getElem?_eq_some] at hs
    simp only [ite_eq_right_iff]
    intro hhost
    by_contra hrect
    obtain ⟨r, hr'⟩ := Option.ne_none_iff_exists'.1 hrect
    have hn := (wallTiles_perm c f).mem_iff.1 (List.mem_map_of_mem (f := Prod.fst) ((h.wall.rect_iff hs).1 hr'))
    obtain ⟨e, he, hname⟩ := band_of_active hn (h := name) (by simp [slotHost, hs, hhost])
    have hsome := getElem_regions.2 ⟨e, he, hname, rfl⟩
    cases hr.symm.trans hsome

theorem host_interval (h : Laid c f) (name : String) : ∃ first count, ∀ k,
    (∃ (n : ℕ) (s : Slot p), f.slots[n]? = some s ∧ s.host = some name ∧ s.position = some k) ↔
      first ≤ k ∧ k < first + count := by
  have hhost : ∀ (n : ℕ) (s : Slot p), f.slots[n]? = some s → slotHost f n = s.host := by
    intro n s hs
    simp [slotHost, hs]
  by_cases hband : ∃ e ∈ (groupSlots f (activeSlots c f)).zip (hostBands c f), e.1.1 = name
  · obtain ⟨e, he, rfl⟩ := hband
    obtain ⟨before, after, hsplit, hmine, hothers⟩ := wallTiles_split he
    refine ⟨before.length, (e.1.2.zip e.2.2).length, ?_⟩
    intro k
    constructor
    · rintro ⟨n, s, hs, hname, hk⟩
      obtain ⟨r, hr⟩ := (h.wall.position_iff hs).1 hk
      rw [hsplit] at hr
      have hout : ∀ x, x ∈ before ∨ x ∈ after → x.1 ≠ n := by
        rintro x hx rfl
        exact hothers x hx ((hhost _ s hs).trans hname)
      by_contra hk'
      have hcase : k < before.length ∨ before.length + (e.1.2.zip e.2.2).length ≤ k := by omega
      rcases hcase with hlt | hge
      · rw [List.append_assoc, List.getElem?_append_left hlt] at hr
        exact hout _ (.inl (List.mem_of_getElem? hr)) rfl
      · rw [List.getElem?_append_right (by rw [List.length_append]; exact hge)] at hr
        exact hout _ (.inr (List.mem_of_getElem? hr)) rfl
    · rintro ⟨hge, hlt⟩
      have hget : ∃ x, (e.1.2.zip e.2.2)[k - before.length]? = some x :=
        ⟨_, List.getElem?_eq_getElem (by omega)⟩
      obtain ⟨x, hx⟩ := hget
      have hk : (wallTiles c f)[k]? = some x := by
        rw [hsplit, List.append_assoc, List.getElem?_append_right hge, List.getElem?_append_left (by omega), hx]
      obtain ⟨s, hs⟩ := h.wall.slot (List.mem_of_getElem? hk)
      exact ⟨x.1, s, hs, (hhost _ s hs).symm.trans (hmine x (List.mem_of_getElem? hx)),
        (h.wall.position_iff hs).2 ⟨x.2, hk⟩⟩
  · refine ⟨0, 0, ?_⟩
    intro k
    constructor
    · rintro ⟨n, s, hs, hname, hk⟩
      obtain ⟨r, hr⟩ := (h.wall.position_iff hs).1 hk
      have hn := (wallTiles_perm c f).mem_iff.1 (List.mem_map_of_mem (f := Prod.fst) (List.mem_of_getElem? hr))
      exact absurd (band_of_active hn ((hhost n s hs).trans hname)) hband
    · omega

end Laid

theorem new_or_settled {s : State p} (hs : (system p).Reachable s) :
    (∃ c now, s = State.new c now) ∨ Settled s.config s.fleet := by
  cases hs with
  | initial h => exact .inl h
  | next _ h =>
    obtain rfl := Option.some.inj h
    exact .inr (settled_apply _ _)

/-- In every state reached, the tiles of the wall cut the image up exactly: those of the placed slots, the dark places
and the EC2 tiles. Each host's tiles cut up the host's region, and each side is as wide as its share of the places. -/
theorem wall_is_partition {s : State p} (hs : (system p).Reachable s)
    (hany : 0 < s.fleet.n + s.fleet.fcvmDark.length + s.fleet.ec2N) :
    let f := s.fleet
    let tiles := placedRects f.slots ++ f.fcvmDark ++ placedRects f.ec2
    let places := f.n + f.fcvmDark.length
    (∀ r ∈ tiles, 0 < r.w ∧ 0 < r.h) ∧ (∀ r ∈ tiles, r.Inside ⟨0, 0, 1, 1⟩) ∧
      tiles.Pairwise (fun a b => Disjoint a.interior b.interior) ∧ (tiles.map Rect.area).sum = 1 ∧
      (∀ (name : String) (host : Host), f.hosts[name]? = some host →
        (∀ region, host.region = some region → Partition region (hostRects f name)) ∧
          (host.region = none → hostRects f name = [])) ∧
      f.layout.fcvm.map Rect.w = (if 0 < places then some (places / (places + f.ec2N : ℕ) : ℚ) else none) ∧
      f.layout.ec2.map Rect.w = (if 0 < f.ec2N then some (f.ec2N / (places + f.ec2N : ℕ) : ℚ) else none) := by
  rcases new_or_settled hs with ⟨c, now, rfl⟩ | hset
  · cases hany
  · have hl := hset.laid
    have himage := hl.image_partition hany
    have hwidth := sides_width hany
    refine ⟨himage.solid, himage.inside, himage.apart.imp Apart.disjoint_interior, ?_, ?_, ?_, ?_⟩
    · rw [himage.area]
      simp [area]
    · exact fun name host hh => hl.host_partition hh
    · rw [hl.follows.fcvmSide]
      simp only [plan, ← hl.places_eq, ← hl.ec2N_eq]
      split
      · rw [Option.map_some, hwidth.1]
      · rfl
    · rw [hl.follows.ec2Side]
      simp only [plan, ← hl.places_eq, ← hl.ec2N_eq]
      split
      · rw [Option.map_some, hwidth.2]
      · rfl

def twoHosts : List (Event Parts.plain) :=
  [⟨1, .agent "h" (.hello ⟨"h", "", [⟨"a", ""⟩, ⟨"b", ""⟩], 2, none, ∅, [], [], 0⟩)⟩,
    ⟨2, .agent "k" (.hello ⟨"k", "", [⟨"a", ""⟩], 1, none, ∅, [], [], 0⟩)⟩]

theorem wall_is_partition_twoHosts :
    (placedRects (runFrom Config.plain 0 twoHosts).fleet.slots).length = 2 ∧
      ((placedRects (runFrom Config.plain 0 twoHosts).fleet.slots ++ (runFrom Config.plain 0 twoHosts).fleet.fcvmDark ++
        placedRects (runFrom Config.plain 0 twoHosts).fleet.ec2).map Rect.area).sum = 1 := by
  constructor
  · decide +kernel
  · exact (wall_is_partition (reachable_runFrom _ _ _) (by decide +kernel)).2.2.2.1

end Fcvm.FleetCore
