import Mathlib.Data.List.Nodup
import Mathlib.Data.List.Perm.Basic

/-! Lists put into groups under a key, in the order the keys first appear, and tables read back in another order. -/

namespace Fcvm.Library

open List

variable {κ α β : Type*} [DecidableEq κ]

def addToGroup (k : κ) (a : α) : List (κ × List α) → List (κ × List α)
  | [] => [(k, [a])]
  | (h, as) :: groups => if h = k then (h, as ++ [a]) :: groups else (h, as) :: addToGroup k a groups

structure Groups (key : α → Option κ) (l : List α) (groups : List (κ × List α)) : Prop where
  keys : (groups.map Prod.fst).Nodup
  filled : ∀ g ∈ groups, g.2 ≠ []
  belong : ∀ g ∈ groups, ∀ a ∈ g.2, key a = some g.1
  perm : (groups.flatMap Prod.snd).Perm l

theorem map_fst_addToGroup (k : κ) (a : α) (groups : List (κ × List α)) :
    (addToGroup k a groups).map Prod.fst =
      if k ∈ groups.map Prod.fst then groups.map Prod.fst else groups.map Prod.fst ++ [k] := by
  induction groups with
  | nil => simp [addToGroup]
  | cons g groups ih =>
    by_cases hg : g.1 = k
    · simp [addToGroup, hg]
    · have hk : ¬ k = g.1 := fun h => hg h.symm
      simp only [addToGroup, hg, ↓reduceIte, map_cons, ih, mem_cons, hk, false_or]
      split <;> rfl

theorem mem_addToGroup {k : κ} {a : α} {groups : List (κ × List α)} {g : κ × List α} (hg : g ∈ addToGroup k a groups) :
    g ∈ groups ∨ g.1 = k ∧ ∃ as, g.2 = as ++ [a] ∧ (as = [] ∨ (k, as) ∈ groups) := by
  induction groups with
  | nil =>
    simp only [addToGroup, mem_singleton] at hg
    exact .inr ⟨by rw [hg], [], by rw [hg]; rfl, .inl rfl⟩
  | cons h groups ih =>
    by_cases hh : h.1 = k
    · simp only [addToGroup, hh, ↓reduceIte, mem_cons] at hg
      rcases hg with rfl | hg
      · refine .inr ⟨rfl, h.2, rfl, .inr ?_⟩
        rw [← hh]
        exact mem_cons_self
      · exact .inl (mem_cons_of_mem _ hg)
    · simp only [addToGroup, hh, ↓reduceIte, mem_cons] at hg
      rcases hg with rfl | hg
      · exact .inl mem_cons_self
      · rcases ih hg with hg | ⟨hk, as, has, hmem⟩
        · exact .inl (mem_cons_of_mem _ hg)
        · exact .inr ⟨hk, as, has, hmem.imp_right (mem_cons_of_mem _)⟩

theorem flatMap_snd_addToGroup (k : κ) (a : α) (groups : List (κ × List α)) :
    ((addToGroup k a groups).flatMap Prod.snd).Perm (groups.flatMap Prod.snd ++ [a]) := by
  induction groups with
  | nil => simp [addToGroup]
  | cons g groups ih =>
    by_cases hg : g.1 = k
    · simp only [addToGroup, hg, ↓reduceIte, flatMap_cons, append_assoc]
      exact List.Perm.append_left _ perm_append_comm
    · simp only [addToGroup, hg, ↓reduceIte, flatMap_cons, append_assoc]
      exact ih.append_left _

omit [DecidableEq κ] in
theorem Groups.nil (key : α → Option κ) : Groups key [] [] := ⟨nodup_nil, by simp, by simp, by simp⟩

theorem Groups.add {key : α → Option κ} {l : List α} {groups : List (κ × List α)} (h : Groups key l groups) {k : κ}
    {a : α}
    (hk : key a = some k) : Groups key (l ++ [a]) (addToGroup k a groups) where
  keys := by
    rw [map_fst_addToGroup]
    split
    · exact h.keys
    · next hmem =>
      apply nodup_append.2
      refine ⟨h.keys, nodup_singleton _, ?_⟩
      intro b hb c hc
      rw [mem_singleton.1 hc]
      exact fun hbk => hmem (hbk ▸ hb)
  filled := by
    intro g hg
    rcases mem_addToGroup hg with hg | ⟨-, as, has, -⟩
    · exact h.filled g hg
    · simp [has]
  belong := by
    intro g hg b hb
    rcases mem_addToGroup hg with hg | ⟨hgk, as, has, hmem⟩
    · exact h.belong g hg b hb
    · rw [has, mem_append, mem_singleton] at hb
      rcases hb with hb | rfl
      · rcases hmem with rfl | hmem
        · cases hb
        · rw [hgk]
          exact h.belong _ hmem b hb
      · rw [hgk, hk]
  perm := (flatMap_snd_addToGroup k a groups).trans (h.perm.append_right _)

theorem filterMap_perm_of_table {keys : List α} (hkeys : keys.Nodup) (look : α → Option β) {table : List (α × β)}
    (htable : (table.map Prod.fst).Nodup) (hsub : ∀ e ∈ table, e.1 ∈ keys)
    (hlook : ∀ a b, look a = some b ↔ (a, b) ∈ table) : (keys.filterMap look).Perm (table.map Prod.snd) := by
  have hpairs : (keys.filterMap fun a => (look a).map (Prod.mk a)).Perm table := by
    apply (perm_ext_iff_of_nodup ?_ (htable.of_map _)).2
    · rintro ⟨a, b⟩
      simp only [mem_filterMap, Option.map_eq_some_iff, Prod.mk.injEq]
      constructor
      · rintro ⟨a', ha', b', hb', rfl, rfl⟩
        exact (hlook _ _).1 hb'
      · exact fun h => ⟨a, hsub _ h, b, (hlook _ _).2 h, rfl, rfl⟩
    · apply hkeys.filterMap
      intro a a' b hb hb'
      simp only [Option.mem_def, Option.map_eq_some_iff] at hb hb'
      obtain ⟨_, -, rfl⟩ := hb
      obtain ⟨_, -, h⟩ := hb'
      exact (Prod.mk.inj h).1.symm
  have hmap := hpairs.map Prod.snd
  rw [map_filterMap] at hmap
  simpa [Option.map_map, Function.comp_def] using hmap

end Fcvm.Library
