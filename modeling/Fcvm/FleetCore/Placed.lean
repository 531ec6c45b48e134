import Fcvm.FleetCore.Kept

/-! The layout in every state a run reaches. -/

namespace Fcvm.FleetCore

open Std (ExtTreeMap ExtTreeSet)
open Library Library.Rect

variable {p : Parts}

theorem ec2_pos {s : State p} (hs : (system p).Reachable s) : 0 ∉ s.fleet.ec2 := by
  apply hs.invariant (P := fun s => 0 ∉ s.fleet.ec2)
  · rintro s ⟨c, now, rfl⟩
    exact ExtTreeMap.not_mem_empty
  · intro s e t h hnext
    obtain rfl := Option.some.inj hnext
    rw [apply_fleet]
    intro hmem
    rcases mem_settle_ec2 hmem with hold | hpos
    · exact h ((mem_applyInner_ec2 s e 0).1 hold)
    · omega

namespace Laid

variable {c : Config} {f : Fleet p}

theorem asleep (h : Laid c f) (hasleep : f.power.state = .asleep) :
    (∀ (n : ℕ) (s : Slot p), f.slots[n]? = some s → s.position = none) ∧ f.fcvmDark = [] ∧ ∀ n, n ∈ f.ec2 → n = 0 := by
  refine ⟨?_, ?_, ?_⟩
  · intro n s hs
    by_contra hp
    exact (h.mayPlace hs (Option.isSome_iff_ne_none.2 hp)).awake hasleep
  · rw [h.follows.dark]
    simp [plan, fcvmPlaces, hasleep]
  · intro n hn
    have hle := h.bounded n hn
    rw [ec2Want, if_pos hasleep] at hle
    omega

theorem inside_region (h : Laid c f) {n : ℕ} {s : Slot p} {name : String} {host : Host} {r : Rect}
    (hs : f.slots[n]? = some s) (hname : s.host = some name) (hhost : f.hosts[name]? = some host)
    (hr : s.rect = some r) :
    ∃ region, host.region = some region ∧ r.Inside region := by
  have hmem : r ∈ hostRects f name := by
    apply List.mem_filterMap.2
    exact ⟨(n, s), ExtTreeMap.mem_toList_iff_getElem?_eq_some.2 hs, by simp [hname, hr]⟩
  obtain ⟨hparts, hnone⟩ := h.host_partition hhost
  cases hregion : host.region with
  | none =>
    simp [hnone hregion] at hmem
  | some region => exact ⟨region, rfl, (hparts region hregion).inside r hmem⟩

end Laid

/-- The layout of every state reached: the places of each side are taken from the first on, each once; a slot on the
wall may be there; a host's slots are next to each other in its region; and asleep there is no wall. -/
theorem layout_invariant {s : State p} (hs : (system p).Reachable s) :
    let f := s.fleet
    (f.slots.toList.filterMap fun e => e.2.position).Perm (List.range f.n) ∧ f.n ≤ s.config.maxTiles ∧
      (f.ec2.toList.filterMap fun e => e.2.position).Perm (List.range f.ec2N) ∧
      (∀ (half : Half) (n : ℕ) (slot : Slot p), (f.side half)[n]? = some slot →
        (slot.position.isSome ↔ slot.rect.isSome)) ∧
      (∀ (n : ℕ) (slot : Slot p), f.slots[n]? = some slot → slot.position.isSome →
        isQuarantined f slot = false ∧ (∀ k, slot.claim = some k → k.borrowed.isSome) ∧
          ∃ name host r region, slot.host = some name ∧ f.hosts[name]? = some host ∧ host.draining = false ∧
            slot.rect = some r ∧ host.region = some region ∧ r.Inside region) ∧
      (∀ name, ∃ first count, ∀ k,
        (∃ (n : ℕ) (slot : Slot p), f.slots[n]? = some slot ∧ slot.host = some name ∧ slot.position = some k) ↔
          first ≤ k ∧ k < first + count) ∧
      (f.power.state = .asleep →
        (∀ (n : ℕ) (slot : Slot p), f.slots[n]? = some slot → slot.position = none) ∧ f.ec2 = ∅ ∧ f.fcvmDark = []) := by
  rcases new_or_settled hs with ⟨c, now, rfl⟩ | hset
  · refine ⟨?_, Nat.zero_le _, ?_, ?_, ?_, ?_, ?_⟩
    · simp [State.new, Fleet.new]
    · simp [State.new, Fleet.new]
    · intro half n slot hslot
      cases half <;> simp [State.new, Fleet.new, Fleet.side] at hslot
    · intro n slot hslot
      simp [State.new, Fleet.new] at hslot
    · intro name
      refine ⟨0, 0, fun k => ⟨?_, by omega⟩⟩
      rintro ⟨n, slot, hslot, -⟩
      simp [State.new, Fleet.new] at hslot
    · nofun
  · have hl := hset.laid
    refine ⟨?_, ?_, ?_, ?_, ?_, hl.host_interval, ?_⟩
    · have hperm := hl.wall.positions_perm
      rwa [length_wallTiles, ← hl.n_eq] at hperm
    · rw [hl.n_eq]
      exact length_activeSlots_le _ _
    · have hperm := hl.ec2Wall.positions_perm
      rwa [← List.length_map (f := Prod.fst), ec2Grid_slots, ← hl.ec2N_eq] at hperm
    · intro half n slot hslot
      cases half with
      | fcvm => exact hl.wall.isSome_iff hslot
      | ec2 => exact hl.ec2Wall.isSome_iff hslot
    · intro n slot hslot hp
      obtain ⟨-, hfree, hworking, name, host, hname, hhost, hstays⟩ := hl.mayPlace hslot hp
      obtain ⟨r, hr⟩ := Option.isSome_iff_exists.1 ((hl.wall.isSome_iff hslot).1 hp)
      obtain ⟨region, hregion, hinside⟩ := hl.inside_region hslot hname hhost hr
      exact ⟨hworking, hfree, name, host, r, region, hname, hhost, hstays, hr, hregion, hinside⟩
    · intro hasleep
      obtain ⟨hnone, hdark, hec2⟩ := hl.asleep hasleep
      refine ⟨hnone, ?_, hdark⟩
      rw [ExtTreeMap.eq_empty_iff_forall_not_mem]
      intro n hn
      obtain rfl := hec2 n hn
      exact ec2_pos hs hn

theorem layout_invariant_twoHosts :
    (runFrom Config.plain 0 twoHosts).fleet.n = 2 ∧
      ((runFrom Config.plain 0 twoHosts).fleet.slots.toList.filterMap fun e => e.2.position).Perm
        (List.range (runFrom Config.plain 0 twoHosts).fleet.n) := by
  constructor
  · decide +kernel
  · exact (layout_invariant (reachable_runFrom _ _ _)).1

end Fcvm.FleetCore
