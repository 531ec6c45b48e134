import Mathlib.Data.List.Basic
import Mathlib.Data.List.Infix
import Mathlib.Data.List.Induction
import Mathlib.Data.Set.Basic
import Mathlib.Logic.Function.Basic

namespace Fcvm.Library

open List

universe u

variable {ν ω κ ι : Type u} [DecidableEq ν]

/-- A tree of named objects: a directory has one path, another object may have several, and no two objects in the
tree have one number. -/
structure NameTree (ν : Type u) {ω κ : Type u} (dir : ω → Prop) (num : ω → κ) where
  node : List ν → Option ω
  root : ∃ o, node [] = some o ∧ dir o
  parent : ∀ p n o, node (p ++ [n]) = some o → ∃ d, node p = some d ∧ dir d
  alone : ∀ p q o, node p = some o → node q = some o → dir o → p = q
  numbered : ∀ p q o o', node p = some o → node q = some o' → num o = num o' → o = o'

variable (node : List ν → Option ω)

def moveNode (a b : List ν) : List ν → Option ω := fun r =>
  if b <+: r then node (a ++ r.drop b.length) else if a <+: r then none else node r

def swapNode (a b : List ν) : List ν → Option ω := fun r =>
  if a <+: r then node (b ++ r.drop a.length) else if b <+: r then node (a ++ r.drop b.length) else node r

variable (a b r : List ν)

def relocate : List ν := if a <+: r then b ++ r.drop a.length else r

def exchange : List ν := if r = a then b else if r = b then a else r

theorem relocate_append : relocate a b (a ++ r) = b ++ r := by
  rw [relocate, if_pos (prefix_append a r), drop_left]

theorem moveNode_below : moveNode node a b (b ++ r) = node (a ++ r) := by
  rw [moveNode, if_pos (prefix_append b r), drop_left]

theorem swapNode_left : swapNode node a b (a ++ r) = node (b ++ r) := by
  rw [swapNode, if_pos (prefix_append a r), drop_left]

theorem swapNode_right {a b : List ν} (hab : ¬a <+: b) (hba : ¬b <+: a) (r : List ν) :
    swapNode node a b (b ++ r) = node (a ++ r) := by
  have hnot : ¬a <+: b ++ r := by
    intro h
    rcases prefix_or_prefix_of_prefix h (prefix_append b r) with h | h
    · exact hab h
    · exact hba h
  rw [swapNode, if_neg hnot, if_pos (prefix_append b r), drop_left]

section Move

variable {node : List ν → Option ω} {a b r : List ν} {o : ω}

theorem moveNode_some (h : moveNode node a b r = some o) :
    (∃ x, r = b ++ x ∧ node (a ++ x) = some o) ∨ ¬b <+: r ∧ ¬a <+: r ∧ node r = some o := by
  unfold moveNode at h
  split at h
  · next hb =>
    obtain ⟨x, rfl⟩ := hb
    rw [drop_left] at h
    exact .inl ⟨x, rfl, h⟩
  · next hb =>
    split at h
    · cases h
    · next ha => exact .inr ⟨hb, ha, h⟩

theorem swapNode_some (h : swapNode node a b r = some o) :
    (∃ x, r = a ++ x ∧ node (b ++ x) = some o) ∨ (∃ x, r = b ++ x ∧ node (a ++ x) = some o) ∨
      ¬a <+: r ∧ ¬b <+: r ∧ node r = some o := by
  unfold swapNode at h
  split at h
  · next ha =>
    obtain ⟨x, rfl⟩ := ha
    rw [drop_left] at h
    exact .inl ⟨x, rfl, h⟩
  · next ha =>
    split at h
    · next hb =>
      obtain ⟨x, rfl⟩ := hb
      rw [drop_left] at h
      exact .inr (.inl ⟨x, rfl, h⟩)
    · next hb => exact .inr (.inr ⟨ha, hb, h⟩)

theorem moveNode_live (h : moveNode node a b r = some o) : ∃ q, node q = some o := by
  rcases moveNode_some h with ⟨x, _, h⟩ | ⟨_, _, h⟩
  · exact ⟨_, h⟩
  · exact ⟨_, h⟩

theorem swapNode_live (h : swapNode node a b r = some o) : ∃ q, node q = some o := by
  rcases swapNode_some h with ⟨x, _, h⟩ | ⟨x, _, h⟩ | ⟨_, _, h⟩
  · exact ⟨_, h⟩
  · exact ⟨_, h⟩
  · exact ⟨_, h⟩

end Move

omit [DecidableEq ν] in
theorem not_prefix_concat {a q : List ν} {m : ν} (h : ¬a <+: q ++ [m]) : ¬a <+: q :=
  fun ha => h (ha.trans (prefix_append q [m]))

variable {dir : ω → Prop} {num : ω → κ}

omit [DecidableEq ν] in
theorem NameTree.none_below (t : NameTree ν dir num) {p : List ν} (h : t.node p = none) (r : List ν) :
    t.node (p ++ r) = none := by
  induction r using List.reverseRecOn with
  | nil => rwa [append_nil]
  | append_singleton r n ih =>
    cases hn : t.node (p ++ (r ++ [n])) with
    | none => rfl
    | some o =>
      rw [← append_assoc] at hn
      obtain ⟨d, hd, _⟩ := t.parent _ _ _ hn
      cases ih.symm.trans hd

omit [DecidableEq ν] in
theorem NameTree.none_below_file (t : NameTree ν dir num) {p : List ν} {o : ω} (h : t.node p = some o) (ho : ¬dir o)
    (n : ν) : t.node (p ++ [n]) = none := by
  cases hn : t.node (p ++ [n]) with
  | none => rfl
  | some o' =>
    obtain ⟨d, hd, hdir⟩ := t.parent _ _ _ hn
    cases h.symm.trans hd
    exact absurd hdir ho

end Fcvm.Library
