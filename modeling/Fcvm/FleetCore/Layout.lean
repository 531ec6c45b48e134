import Fcvm.FleetCore.Settled

/-! The wall of a laid fleet: who is on it, in which places and in which rectangles. -/

namespace Fcvm.FleetCore

open List

open Std (ExtTreeMap ExtTreeSet)
open Library Library.Rect

variable {p : Parts} {c : Config} {f : Fleet p}

variable {n : ℕ} {s : Slot p}

theorem toList_filterMap {V β : Type} (m : ExtTreeMap ℕ V) (g : V → Option β) :
    (m.toList.filterMap fun e => g e.2) = m.keys.filterMap fun n => m[n]?.bind g := by
  rw [← ExtTreeMap.map_fst_toList_eq_keys, filterMap_map]
  apply filterMap_congr
  rintro ⟨n, s⟩ hs
  rw [ExtTreeMap.mem_toList_iff_getElem?_eq_some] at hs
  simp [hs]

structure Stands (m : ExtTreeMap ℕ (Slot p)) (l : List (ℕ × Rect)) : Prop where
  nodup : (l.map Prod.fst).Nodup
  there : ∀ e ∈ l, e.1 ∈ m
  position : ∀ (n : ℕ) (s : Slot p), m[n]? = some s → s.position = (ExtTreeMap.ofList (numbered l))[n]?.map Prod.fst
  rect : ∀ (n : ℕ) (s : Slot p), m[n]? = some s → s.rect = (ExtTreeMap.ofList (numbered l))[n]?.map Prod.snd

namespace Stands

variable {m : ExtTreeMap ℕ (Slot p)} {l : List (ℕ × Rect)}

section

variable (h : Stands m l)
include h

theorem position_iff {k : ℕ} (hs : m[n]? = some s) : s.position = some k ↔ ∃ r, l[k]? = some (n, r) := by
  rw [h.position n s hs, Option.map_eq_some_iff]
  constructor
  · rintro ⟨⟨k, r⟩, hk, rfl⟩
    exact ⟨r, (getElem_ofList_numbered h.nodup).1 hk⟩
  · rintro ⟨r, hr⟩
    exact ⟨(k, r), (getElem_ofList_numbered h.nodup).2 hr, rfl⟩

theorem rect_iff {r : Rect} (hs : m[n]? = some s) : s.rect = some r ↔ (n, r) ∈ l := by
  rw [h.rect n s hs, Option.map_eq_some_iff, mem_iff_getElem?]
  constructor
  · rintro ⟨⟨k, r⟩, hk, rfl⟩
    exact ⟨k, (getElem_ofList_numbered h.nodup).1 hk⟩
  · rintro ⟨k, hk⟩
    exact ⟨(k, r), (getElem_ofList_numbered h.nodup).2 hk, rfl⟩

theorem isSome_iff (hs : m[n]? = some s) : s.position.isSome ↔ s.rect.isSome := by
  rw [h.position n s hs, h.rect n s hs, Option.isSome_map, Option.isSome_map]

theorem slot {e : ℕ × Rect} (he : e ∈ l) : ∃ s, m[e.1]? = some s :=
  Option.isSome_iff_exists.1 (ExtTreeMap.mem_iff_isSome_getElem?.1 (h.there e he))

theorem positions_perm : (m.toList.filterMap fun e => e.2.position).Perm (List.range l.length) := by
  rw [toList_filterMap m Slot.position, ← numbered_positions l]
  have htable : ((numbered l).map fun e => (e.1, e.2.1)).map Prod.fst = l.map Prod.fst := by
    rw [map_map, ← numbered_slots]
    rfl
  have hperm := filterMap_perm_of_table ExtTreeMap.nodup_keys (fun n => m[n]?.bind Slot.position)
    (htable ▸ h.nodup) (by
      rintro ⟨n, k⟩ he
      obtain ⟨⟨n, k, r⟩, hmem, ⟨⟩⟩ := mem_map.1 he
      exact ExtTreeMap.mem_keys.2 (h.there (n, r) (mem_of_getElem? (mem_numbered.1 hmem)))) (by
      intro n k
      simp only [Option.bind_eq_some_iff, mem_map, Prod.mk.injEq, Prod.exists, mem_numbered]
      constructor
      · rintro ⟨s, hs, hk⟩
        obtain ⟨r, hr⟩ := (h.position_iff hs).1 hk
        exact ⟨n, k, r, hr, rfl, rfl⟩
      · rintro ⟨n, k, r, hr, rfl, rfl⟩
        obtain ⟨s, hs⟩ := h.slot (mem_of_getElem? hr)
        exact ⟨s, hs, (h.position_iff hs).2 ⟨r, hr⟩⟩)
  rwa [map_map] at hperm

theorem rects_perm (test : Slot p → Bool) {l' : List (ℕ × Rect)} (hl : l'.Sublist l)
    (htest : ∀ n r s, (n, r) ∈ l → m[n]? = some s → (test s = true ↔ (n, r) ∈ l')) :
    (m.toList.filterMap fun e => if test e.2 then e.2.rect else none).Perm (l'.map Prod.snd) := by
  rw [toList_filterMap m fun s => if test s then s.rect else none]
  apply filterMap_perm_of_table ExtTreeMap.nodup_keys _ (h.nodup.sublist (hl.map _))
  · exact fun e he => ExtTreeMap.mem_keys.2 (h.there e (hl.subset he))
  · intro n r
    simp only [Option.bind_eq_some_iff, Option.ite_none_right_eq_some]
    constructor
    · rintro ⟨s, hs, ht, hr⟩
      exact (htest n r s ((h.rect_iff hs).1 hr) hs).1 ht
    · intro hr
      obtain ⟨s, hs⟩ := h.slot (hl.subset hr)
      exact ⟨s, hs, (htest n r s (hl.subset hr) hs).2 hr, (h.rect_iff hs).2 (hl.subset hr)⟩

theorem all_rects_perm : (m.toList.filterMap fun e => e.2.rect).Perm (l.map Prod.snd) := by
  have hperm := h.rects_perm (fun _ => true) (List.Sublist.refl l) (by
    intro n r s hr _
    simp [hr])
  simpa using hperm

end

end Stands

namespace Laid

theorem wall (h : Laid c f) : Stands f.slots (wallTiles c f) where
  nodup := wallTiles_nodup c f
  there e he := by
    have hn := (wallTiles_perm c f).mem_iff.1 (mem_map_of_mem (f := Prod.fst) he)
    obtain ⟨s, hs, -⟩ := mayPlace_of_active hn
    exact ExtTreeMap.mem_iff_isSome_getElem?.2 (by simp [hs])
  position := h.follows.position
  rect := h.follows.rect

theorem ec2Wall (h : Laid c f) : Stands f.ec2 (ec2Grid c f) where
  nodup := by
    rw [ec2Grid_slots]
    exact ec2Places_nodup c f
  there e he := by
    have hn := mem_map_of_mem (f := Prod.fst) he
    rw [ec2Grid_slots] at hn
    exact ExtTreeMap.mem_keys.1 (mem_of_mem_take hn)
  position := h.follows.ec2Position
  rect := h.follows.ec2Rect

theorem n_eq (h : Laid c f) : f.n = (activeSlots c f).length := h.follows.n

theorem ec2N_eq (h : Laid c f) : f.ec2N = (ec2Places c f).length := h.follows.ec2N

theorem mayPlace (h : Laid c f) (hs : f.slots[n]? = some s) (hp : s.position.isSome) :
    MayPlace f s := by
  obtain ⟨k, hk⟩ := Option.isSome_iff_exists.1 hp
  obtain ⟨r, hr⟩ := (h.wall.position_iff hs).1 hk
  have hn := (wallTiles_perm c f).mem_iff.1 (mem_map_of_mem (f := Prod.fst) (mem_of_getElem? hr))
  obtain ⟨s', hs', hm⟩ := mayPlace_of_active hn
  cases hs.symm.trans hs'
  exact hm

end Laid

theorem groups_length_le (c : Config) (f : Fleet p) :
    (groupSlots f (activeSlots c f)).length ≤ (hostBands c f).length := by
  have hb := congrArg List.length (hostBands_lengths c f)
  simp only [length_map, bandCounts, length_append] at hb
  omega

theorem bandKeys_nodup (c : Config) (f : Fleet p) :
    (((groupSlots f (activeSlots c f)).zip (hostBands c f)).map fun e => e.1.1).Nodup := by
  have hnodup := (groupSlots_groups c f).keys
  rw [← map_fst_zip (groups_length_le c f), map_map] at hnodup
  exact hnodup

theorem wallTiles_split {e : (String × List ℕ) × Rect × List Rect}
    (he : e ∈ (groupSlots f (activeSlots c f)).zip (hostBands c f)) :
    ∃ before after, wallTiles c f = before ++ e.1.2.zip e.2.2 ++ after ∧
      (∀ x ∈ e.1.2.zip e.2.2, slotHost f x.1 = some e.1.1) ∧
      ∀ x, x ∈ before ∨ x ∈ after → slotHost f x.1 ≠ some e.1.1 := by
  have hg := groupSlots_groups c f
  have hother : ∀ pre post, (groupSlots f (activeSlots c f)).zip (hostBands c f) = pre ++ e :: post →
      ∀ e', e' ∈ pre ∨ e' ∈ post → e'.1.1 ≠ e.1.1 := by
    intro pre post hsplit
    have hkeys := bandKeys_nodup c f
    rw [hsplit, map_append, map_cons, nodup_middle, nodup_cons, mem_append, mem_map,
      mem_map] at hkeys
    rintro e' (he' | he') heq
    · exact hkeys.1 (.inl ⟨e', he', heq⟩)
    · exact hkeys.1 (.inr ⟨e', he', heq⟩)
  have hbelong : ∀ e' ∈ (groupSlots f (activeSlots c f)).zip (hostBands c f), ∀ x ∈ e'.1.2.zip e'.2.2,
      slotHost f x.1 = some e'.1.1 := by
    intro e' he' x hx
    exact hg.belong e'.1 (of_mem_zip he').1 x.1 (of_mem_zip hx).1
  obtain ⟨pre, post, hsplit⟩ := append_of_mem he
  refine ⟨pre.flatMap fun e => e.1.2.zip e.2.2, post.flatMap fun e => e.1.2.zip e.2.2, ?_, hbelong e he, ?_⟩
  · simp only [wallTiles, hsplit, flatMap_append, flatMap_cons, append_assoc]
  · rintro x hx
    have hx' : ∃ e', (e' ∈ pre ∨ e' ∈ post) ∧ x ∈ e'.1.2.zip e'.2.2 := by
      rcases hx with hx | hx
      · obtain ⟨e', he', hx⟩ := mem_flatMap.1 hx
        exact ⟨e', .inl he', hx⟩
      · obtain ⟨e', he', hx⟩ := mem_flatMap.1 hx
        exact ⟨e', .inr he', hx⟩
    obtain ⟨e', he', hx⟩ := hx'
    have hmem : e' ∈ (groupSlots f (activeSlots c f)).zip (hostBands c f) := by
      rw [hsplit, mem_append, mem_cons]
      rcases he' with he' | he'
      · exact .inl he'
      · exact .inr (.inr he')
    rw [hbelong e' hmem x hx]
    exact fun heq => hother pre post hsplit e' he' (Option.some.inj heq)

theorem band_of_active {h : String} (hn : n ∈ activeSlots c f) (hh : slotHost f n = some h) :
    ∃ e ∈ (groupSlots f (activeSlots c f)).zip (hostBands c f), e.1.1 = h := by
  have hg := groupSlots_groups c f
  obtain ⟨g, hmem, hng⟩ := mem_flatMap.1 (hg.perm.mem_iff.2 hn)
  have hkey := hg.belong g hmem n hng
  rw [hh, Option.some.injEq] at hkey
  have hlen := groups_length_le c f
  obtain ⟨i, hi, rfl⟩ := mem_iff_getElem.1 hmem
  refine ⟨(_, (hostBands c f)[i]), mem_iff_getElem.2 ⟨i, ?_, getElem_zip⟩, hkey.symm⟩
  rw [length_zip]
  omega

theorem getElem_regions {h : String} {r : Rect} :
    (plan c f).regions[h]? = some r ↔
      ∃ e ∈ (groupSlots f (activeSlots c f)).zip (hostBands c f), e.1.1 = h ∧ e.2.1 = r := by
  have hkeys : (((groupSlots f (activeSlots c f)).zip (hostBands c f)).map fun e => (e.1.1, e.2.1)).Pairwise
      fun a b => ¬ compare a.1 b.1 = .eq := by
    have hnodup := bandKeys_nodup c f
    rw [nodup_iff_pairwise_ne, pairwise_map] at hnodup
    rw [pairwise_map]
    exact hnodup.imp fun hne he => hne (Std.LawfulEqCmp.eq_of_compare he)
  simp only [plan]
  constructor
  · intro hr
    by_cases hmem : h ∈ (((groupSlots f (activeSlots c f)).zip (hostBands c f)).map fun e =>
      (e.1.1, e.2.1)).map Prod.fst
    · obtain ⟨⟨h, r'⟩, he, rfl⟩ := mem_map.1 hmem
      rw [ExtTreeMap.getElem?_ofList_of_mem (by simp) hkeys he] at hr
      obtain ⟨e, hzip, heq⟩ := mem_map.1 he
      cases hr
      exact ⟨e, hzip, congrArg Prod.fst heq, congrArg Prod.snd heq⟩
    · rw [ExtTreeMap.getElem?_ofList_of_contains_eq_false (by simpa using hmem)] at hr
      cases hr
  · rintro ⟨e, he, rfl, rfl⟩
    exact ExtTreeMap.getElem?_ofList_of_mem (by simp) hkeys (mem_map_of_mem he)

end Fcvm.FleetCore
