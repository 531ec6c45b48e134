import Mathlib.Data.List.Basic
import Mathlib.Data.List.Infix

namespace Fcvm.Library

open List

universe u

variable {α : Type u} [DecidableEq α] {sep : α}

def segments (sep : α) (s : List α) : List (List α) := if s = [] then [] else s.splitOn sep

theorem segments_nil (sep : α) : segments sep [] = [] := rfl

theorem segments_of_ne {s : List α} (h : s ≠ []) : segments sep s = s.splitOn sep := if_neg h

theorem intercalate_segments (sep : α) (s : List α) : [sep].intercalate (segments sep s) = s := by
  unfold segments
  split
  · next h => rw [h]; rfl
  · exact intercalate_splitOn sep

theorem segments_injective (sep : α) : Function.Injective (segments sep) := by
  intro s s' h
  rw [← intercalate_segments sep s, h, intercalate_segments]

theorem segments_eq_nil {s : List α} : segments sep s = [] ↔ s = [] := by
  constructor
  · intro h
    rw [← intercalate_segments sep s, h]
    rfl
  · rintro rfl
    rfl

theorem segments_append {s : List α} (h : s ≠ []) (s' : List α) :
    segments sep (s ++ sep :: s') = segments sep s ++ s'.splitOn sep := by
  rw [segments_of_ne (by simp), segments_of_ne h, splitOn_append_cons_self]

omit [DecidableEq α] in
theorem intercalate_append {xs ys : List (List α)} (hx : xs ≠ []) (hy : ys ≠ []) :
    [sep].intercalate (xs ++ ys) = [sep].intercalate xs ++ sep :: [sep].intercalate ys := by
  obtain ⟨y, ys, rfl⟩ := exists_cons_of_ne_nil hy
  induction xs with
  | nil => exact absurd rfl hx
  | cons x xs ih =>
    cases xs with
    | nil => simp [intercalate, intersperse]
    | cons x' xs =>
      have ih := ih (by simp)
      simp only [intercalate, cons_append, intersperse, flatten_cons, append_assoc,
        nil_append] at ih ⊢
      rw [ih]

theorem isPrefix_iff_segments {a s : List α} (ha : a ≠ []) :
    a ++ [sep] <+: s ↔ ∃ r, r ≠ [] ∧ segments sep s = segments sep a ++ r := by
  constructor
  · rintro ⟨rest, rfl⟩
    refine ⟨rest.splitOn sep, splitOn_ne_nil sep rest, ?_⟩
    rw [append_assoc]
    exact segments_append ha rest
  · rintro ⟨r, hr, h⟩
    have ha' : segments sep a ≠ [] := fun h => ha (segments_eq_nil.mp h)
    refine ⟨[sep].intercalate r, ?_⟩
    rw [← intercalate_segments sep s, h, intercalate_append ha' hr, intercalate_segments, append_assoc]
    rfl

theorem segments_replace {a b s : List α} (ha : a ≠ []) (hb : b ≠ []) (h : a ++ [sep] <+: s) :
    segments sep (b ++ [sep] ++ s.drop (a ++ [sep]).length) =
      segments sep b ++ (segments sep s).drop (segments sep a).length := by
  obtain ⟨rest, rfl⟩ := h
  rw [drop_left, append_assoc, append_assoc]
  change segments sep (b ++ sep :: rest) = _ ++ (segments sep (a ++ sep :: rest)).drop _
  rw [segments_append hb, segments_append ha, drop_left]

end Fcvm.Library
