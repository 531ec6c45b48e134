import Fcvm.FleetCore.Retile

/-! What the plan of the wall is made of: which slots are on it, in which groups, and the bands they get. -/

namespace Fcvm.FleetCore

open List

open Std (ExtTreeMap ExtTreeSet)
open Library Library.Rect

variable {p : Parts} {c : Config} {f : Fleet p}

structure MayPlace (f : Fleet p) (s : Slot p) : Prop where
  awake : f.power.state ≠ .asleep
  free : ∀ k, s.claim = some k → k.borrowed.isSome
  working : isQuarantined f s = false
  host : ∃ h host, s.host = some h ∧ f.hosts[h]? = some host ∧ host.draining = false

theorem hostStays_iff {hosts : ExtTreeMap String Host} {s : Slot p} :
    hostStays hosts s = true ↔ ∃ h host, s.host = some h ∧ hosts[h]? = some host ∧ Host.draining host = false := by
  simp only [hostStays, Option.any_eq_true, Option.bind_eq_some_iff, Bool.not_eq_true']
  constructor
  · rintro ⟨host, ⟨h, hs, hh⟩, hd⟩
    exact ⟨h, host, hs, hh, hd⟩
  · rintro ⟨h, host, hs, hh, hd⟩
    exact ⟨host, ⟨h, hs, hh⟩, hd⟩

theorem mem_wallSlots {n : ℕ} : n ∈ wallSlots f ↔ ∃ s, f.slots[n]? = some s ∧ MayPlace f s := by
  unfold wallSlots
  split
  · next h =>
    constructor
    · nofun
    · rintro ⟨s, -, hs⟩
      exact absurd h hs.awake
  · next h =>
    simp only [mem_map, mem_filter, Bool.and_eq_true, Bool.not_eq_true', Prod.exists,
      ExtTreeMap.mem_toList_iff_getElem?_eq_some, Option.all_eq_true, hostStays_iff]
    constructor
    · rintro ⟨n, s, ⟨hs, ⟨hc, hq⟩, hh⟩, rfl⟩
      exact ⟨s, hs, h, hc, hq, hh⟩
    · rintro ⟨s, hs, hm⟩
      exact ⟨n, s, ⟨hs, ⟨hm.free, hm.working⟩, hm.host⟩, rfl⟩

theorem wallSlots_sorted (f : Fleet p) : (wallSlots f).Pairwise (· < ·) := by
  unfold wallSlots
  split
  · exact .nil
  · have hkeys : (f.slots.toList.map Prod.fst).Pairwise (· < ·) := by
      rw [ExtTreeMap.map_fst_toList_eq_keys]
      exact ExtTreeMap.ordered_keys.imp fun h => Nat.compare_eq_lt.1 h
    exact hkeys.sublist ((filter_sublist).map _)

theorem keepPlaced_eq (f : Fleet p) (m : ℕ) (active beyond : List ℕ) :
    keepPlaced f m active beyond = active ++ (beyond.filter (isPlaced f)).take (m - active.length) := by
  induction beyond generalizing active with
  | nil => simp [keepPlaced]
  | cons n beyond ih =>
    have hstep : keepPlaced f m active (n :: beyond) =
        keepPlaced f m (if active.length ≥ m then active else if isPlaced f n then active ++ [n] else active) beyond :=
      rfl
    rw [hstep, ih]
    by_cases hfull : active.length ≥ m
    · have hzero : m - active.length = 0 := by omega
      simp [hfull, hzero]
    · by_cases hn : isPlaced f n
      · have hsucc : m - active.length = (m - (active.length + 1)) + 1 := by omega
        simp [hfull, hn, hsucc]
      · simp [hfull, hn]

theorem chosen_sublist (m k : ℕ) (wall : List ℕ) (join placed : ℕ → Bool) :
    ((wall.take m).filter join ++ ((wall.drop m).filter placed).take k).Sublist wall := by
  conv_rhs => rw [← take_append_drop m wall]
  exact List.Sublist.append filter_sublist ((take_sublist _ _).trans filter_sublist)

variable (c f)

theorem activeSlots_eq :
    activeSlots c f = ((wallSlots f).take c.maxTiles).filter (joins f) ++
      (((wallSlots f).drop c.maxTiles).filter (isPlaced f)).take
        (c.maxTiles - (((wallSlots f).take c.maxTiles).filter (joins f)).length) := by
  simp only [activeSlots, keepPlaced_eq]
  apply List.Pairwise.insertionSort_eq
  exact ((wallSlots_sorted f).sublist (chosen_sublist _ _ _ _ _)).imp Nat.le_of_lt

theorem activeSlots_sublist : (activeSlots c f).Sublist (wallSlots f) := by
  rw [activeSlots_eq]
  exact chosen_sublist _ _ _ _ _

theorem activeSlots_nodup : (activeSlots c f).Nodup :=
  ((wallSlots_sorted f).imp Nat.ne_of_lt).sublist (activeSlots_sublist c f)

variable {c f} in
theorem mayPlace_of_active {n : ℕ} (h : n ∈ activeSlots c f) : ∃ s, f.slots[n]? = some s ∧ MayPlace f s :=
  mem_wallSlots.1 ((activeSlots_sublist c f).subset h)

theorem length_activeSlots_le : (activeSlots c f).length ≤ c.maxTiles := by
  rw [activeSlots_eq, length_append, length_take]
  have h₁ : (((wallSlots f).take c.maxTiles).filter (joins f)).length ≤ c.maxTiles :=
    (length_filter_le _ _).trans (length_take_le _ _)
  omega

theorem activeSlots_asleep {f : Fleet p} (h : f.power.state = .asleep) : activeSlots c f = [] := by
  have hwall : wallSlots f = [] := by simp [wallSlots, h]
  have hsub := activeSlots_sublist c f
  rw [hwall] at hsub
  exact sublist_nil.1 hsub

theorem length_active_le_places : (activeSlots c f).length ≤ fcvmPlaces c f := by
  unfold fcvmPlaces
  split
  · next h => simp [activeSlots_asleep c h]
  · exact le_max_right _ _

def slotHost (n : ℕ) : Option String := f.slots[n]?.bind Slot.host

theorem groupSlots_groups : Groups (slotHost f) (activeSlots c f) (groupSlots f (activeSlots c f)) := by
  have hhost : ∀ n ∈ activeSlots c f, ∃ h, slotHost f n = some h := by
    intro n hn
    obtain ⟨s, hs, hm⟩ := mayPlace_of_active hn
    obtain ⟨h, -, hh, -⟩ := hm.host
    exact ⟨h, by simp [slotHost, hs, hh]⟩
  have hrun : ∀ add : List (String × List ℕ) → ℕ → List (String × List ℕ),
      (∀ groups n h, slotHost f n = some h → add groups n = addToGroup h n groups) →
      ∀ todo done groups, (∀ n ∈ todo, ∃ h, slotHost f n = some h) → Groups (slotHost f) done groups →
      Groups (slotHost f) (done ++ todo) (todo.foldl add groups) := by
    intro add hadds todo
    induction todo with
    | nil =>
      intro done groups _ hg
      simpa using hg
    | cons n todo ih =>
      intro done groups hall hg
      obtain ⟨h, hh⟩ := hall n mem_cons_self
      have hadd := ih (done ++ [n]) _ (fun m hm => hall m (mem_cons_of_mem _ hm)) (hg.add hh)
      simpa [hadds groups n h hh] using hadd
  apply hrun _ ?_ (activeSlots c f) [] [] hhost (Groups.nil _)
  intro groups n h hh
  unfold slotHost at hh
  simp only [hh]

theorem sum_group_lengths :
    ((groupSlots f (activeSlots c f)).map fun g => g.2.length).sum = (activeSlots c f).length := by
  have h := (groupSlots_groups c f).perm.length_eq
  rw [length_flatMap] at h
  exact h

variable {c f} in
theorem bandCounts_pos {k : ℕ} (hk : k ∈ bandCounts c f) : 0 < k := by
  simp only [bandCounts, mem_append, mem_map] at hk
  rcases hk with ⟨g, hg, rfl⟩ | hk
  · exact length_pos_iff.2 ((groupSlots_groups c f).filled g hg)
  · split at hk
    · next hd =>
      rw [mem_singleton.1 hk]
      exact hd
    · cases hk

theorem bandCounts_sum : (bandCounts c f).sum = fcvmPlaces c f := by
  have hle := length_active_le_places c f
  simp only [bandCounts, sum_append, sum_group_lengths]
  split
  · simp only [sum_cons, sum_nil]
    omega
  · simp only [sum_nil]
    omega

theorem hostBands_lengths : (hostBands c f).map (fun b => b.2.length) = bandCounts c f := by
  simp only [hostBands]
  split
  · next h =>
    have hsum := bandCounts_sum c f
    rw [h] at hsum
    have hnil : bandCounts c f = [] := by
      rw [eq_nil_iff_forall_not_mem]
      intro k hk
      have := bandCounts_pos hk
      have := sum_eq_zero_iff.1 hsum k hk
      omega
    simp [hnil]
  · exact bands_map_length _ _ _ _

theorem zip_tiles (groups : List (String × List ℕ)) (bs : List (Rect × List Rect)) (extra : List ℕ)
    (h : bs.map (fun b => b.2.length) = groups.map (fun g => g.2.length) ++ extra) :
    ((groups.zip bs).flatMap fun e => e.1.2.zip e.2.2).map Prod.fst = groups.flatMap Prod.snd ∧
      ((groups.zip bs).flatMap fun e => e.1.2.zip e.2.2).map Prod.snd = (bs.take groups.length).flatMap Prod.snd := by
  induction groups generalizing bs with
  | nil => simp
  | cons g groups ih =>
    cases bs with
    | nil => simp at h
    | cons b bs =>
      simp only [map_cons, cons_append, List.cons.injEq] at h
      obtain ⟨hlen, htail⟩ := h
      obtain ⟨h₁, h₂⟩ := ih bs htail
      constructor
      · simp only [zip_cons_cons, flatMap_cons, map_append, h₁]
        rw [map_fst_zip (by omega)]
      · simp only [zip_cons_cons, flatMap_cons, map_append, h₂, length_cons, take_succ_cons]
        rw [map_snd_zip (by omega)]

theorem wallTiles_slots : (wallTiles c f).map Prod.fst = (groupSlots f (activeSlots c f)).flatMap Prod.snd :=
  (zip_tiles _ _ _ (hostBands_lengths c f)).1

theorem wallTiles_rects :
    (wallTiles c f).map Prod.snd = ((hostBands c f).take (groupSlots f (activeSlots c f)).length).flatMap Prod.snd :=
  (zip_tiles _ _ _ (hostBands_lengths c f)).2

theorem wallTiles_perm : ((wallTiles c f).map Prod.fst).Perm (activeSlots c f) := by
  rw [wallTiles_slots]
  exact (groupSlots_groups c f).perm

theorem wallTiles_nodup : ((wallTiles c f).map Prod.fst).Nodup :=
  (wallTiles_perm c f).nodup_iff.2 (activeSlots_nodup c f)

theorem length_wallTiles : (wallTiles c f).length = (activeSlots c f).length := by
  have h := (wallTiles_perm c f).length_eq
  rwa [length_map] at h

theorem ec2Places_nodup : (ec2Places c f).Nodup :=
  ExtTreeMap.nodup_keys.sublist (take_sublist _ _)

theorem ec2Grid_slots : (ec2Grid c f).map Prod.fst = ec2Places c f := by
  simp only [ec2Grid]
  rw [map_fst_zip (by rw [gridIn_length])]

theorem ec2Grid_rects :
    (ec2Grid c f).map Prod.snd = gridIn p (sides (fcvmPlaces c f) (ec2Places c f).length).2 (ec2Places c f).length
      c.imageAspect c.tileAspect := by
  simp only [ec2Grid]
  rw [map_snd_zip (by rw [gridIn_length])]

section Numbered

variable {l : List (ℕ × Rect)}

theorem numbered_slots (l : List (ℕ × Rect)) : (numbered l).map Prod.fst = l.map Prod.fst := by
  simp only [numbered, map_map, Function.comp_def]
  rw [show (fun e : (ℕ × Rect) × ℕ => e.1.1) = Prod.fst ∘ Prod.fst from rfl, ← map_map, zipIdx_map_fst]

theorem mem_numbered {n k : ℕ} {r : Rect} : (n, k, r) ∈ numbered l ↔ l[k]? = some (n, r) := by
  simp only [numbered, mem_map, Prod.exists, Prod.mk.injEq]
  constructor
  · rintro ⟨n', r', k', hmem, rfl, rfl, rfl⟩
    exact mem_zipIdx_iff_getElem?.1 hmem
  · exact fun h => ⟨n, r, k, mem_zipIdx_iff_getElem?.2 h, rfl, rfl, rfl⟩

theorem numbered_positions (l : List (ℕ × Rect)) : (numbered l).map (fun e => e.2.1) = List.range l.length := by
  simp only [numbered, map_map, Function.comp_def]
  rw [show (fun e : (ℕ × Rect) × ℕ => e.2) = Prod.snd from rfl, zipIdx_map_snd, range_eq_range']

theorem getElem_ofList_numbered (hl : (l.map Prod.fst).Nodup) {n k : ℕ} {r : Rect} :
    (ExtTreeMap.ofList (numbered l))[n]? = some (k, r) ↔ l[k]? = some (n, r) := by
  have hpair : (numbered l).Pairwise fun a b => ¬ compare a.1 b.1 = .eq := by
    rw [← numbered_slots, nodup_iff_pairwise_ne, pairwise_map] at hl
    exact hl.imp fun h he => h (Nat.compare_eq_eq.1 he)
  rw [← mem_numbered]
  constructor
  · intro h
    by_cases hn : n ∈ (numbered l).map Prod.fst
    · obtain ⟨⟨n', k', r'⟩, hmem, rfl⟩ := mem_map.1 hn
      rw [ExtTreeMap.getElem?_ofList_of_mem (by simp) hpair hmem] at h
      cases h
      exact hmem
    · rw [ExtTreeMap.getElem?_ofList_of_contains_eq_false (by simpa using hn)] at h
      cases h
  · exact fun h => ExtTreeMap.getElem?_ofList_of_mem (by simp) hpair h

end Numbered

end Fcvm.FleetCore
