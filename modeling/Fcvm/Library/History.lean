import Mathlib.Data.List.Count

namespace Fcvm.Library

open List

variable {ε : Type*}

def Always (P : ε → List ε → Prop) : List ε → Prop
  | [] => True
  | e :: older => P e older ∧ Always P older

theorem Always.at_split {P : ε → List ε → Prop} {newer older : List ε} {e : ε}
    (h : Always P (newer ++ e :: older)) : P e older := by
  induction newer with
  | nil => exact h.1
  | cons a newer ih => exact ih h.2

theorem Always.older {P : ε → List ε → Prop} {newer older : List ε}
    (h : Always P (newer ++ older)) : Always P older := by
  induction newer with
  | nil => exact h
  | cons a newer ih => exact ih h.2

theorem Always.append {P : ε → List ε → Prop} {newer older : List ε}
    (hnew : ∀ e ∈ newer, ∀ l, P e l) (h : Always P older) : Always P (newer ++ older) := by
  induction newer with
  | nil => exact h
  | cons a newer ih =>
    exact ⟨hnew a (by simp) _, ih fun e he => hnew e (mem_cons_of_mem _ he)⟩

theorem older_of_notMem {newer older newer' older' : List ε} {e e' : ε}
    (h : newer ++ e :: older = newer' ++ e' :: older') (hne : e ≠ e') (hmem : e ∉ newer') :
    ∃ between, older' = between ++ e :: older ∧ newer = newer' ++ e' :: between := by
  rcases append_eq_append_iff.mp h with ⟨l, h1, h2⟩ | ⟨l, h1, h2⟩
  · cases l with
    | nil =>
      simp only [nil_append, cons.injEq] at h2
      exact absurd h2.1 hne
    | cons a l =>
      simp only [cons_append, cons.injEq] at h2
      exact absurd (by rw [h1, h2.1]; simp) hmem
  · cases l with
    | nil =>
      simp only [nil_append, cons.injEq] at h2
      exact absurd h2.1.symm hne
    | cons a l =>
      simp only [cons_append, cons.injEq] at h2
      exact ⟨l, h2.2, by rw [h1, h2.1]⟩

end Fcvm.Library
