import Mathlib.Algebra.BigOperators.Group.List.Basic
import Mathlib.Algebra.GroupWithZero.Nat
import Mathlib.Data.List.Perm.Subperm

namespace Fcvm.Library

open List

variable {α β γ : Type} {xs : List α} {f : α → β} {p : α → Bool} {ys : List β}

theorem length_filter_le_of_mem (hnodup : (xs.map f).Nodup) (h : ∀ x ∈ xs, p x = true → f x ∈ ys) :
    (xs.filter p).length ≤ ys.length := by
  have hsub : (xs.filter p).map f ⊆ ys := by
    intro y hy
    obtain ⟨x, hx, rfl⟩ := mem_map.mp hy
    exact h x (mem_of_mem_filter hx) (of_mem_filter hx)
  have hfilter : ((xs.filter p).map f).Nodup := hnodup.sublist (filter_sublist.map f)
  have hle := (hfilter.subperm hsub).length_le
  rwa [length_map] at hle

theorem length_filter_le_add_sum {ls : List γ} {w : γ → ℕ} {g : α → γ → Bool} (hnodup : (xs.map f).Nodup)
    (h : ∀ x ∈ xs, p x = true → f x ∈ ys ∨ ∃ l ∈ ls, g x l = true)
    (hw : ∀ l ∈ ls, (xs.filter (g · l)).length ≤ w l) : (xs.filter p).length ≤ ys.length + (ls.map w).sum := by
  induction ls generalizing p with
  | nil =>
    rw [map_nil, sum_nil, Nat.add_zero]
    apply length_filter_le_of_mem hnodup
    intro x hx hp
    exact (h x hx hp).resolve_right (by simp)
  | cons l ls ih =>
    have hsplit : (xs.filter p).length ≤ (xs.filter fun x => p x && !g x l).length + (xs.filter (g · l)).length := by
      clear h hnodup ih hw
      induction xs with
      | nil => exact Nat.le_refl _
      | cons x xs ih =>
        simp only [filter_cons]
        cases p x <;> cases g x l <;> simp <;> omega
    have hrest : (xs.filter fun x => p x && !g x l).length ≤ ys.length + (ls.map w).sum := by
      apply ih
      · intro x hx hp
        simp only [Bool.and_eq_true, Bool.not_eq_true'] at hp
        rcases h x hx hp.1 with hy | ⟨l', hl', hg⟩
        · exact .inl hy
        · rcases mem_cons.mp hl' with rfl | hl'
          · cases hp.2.symm.trans hg
          · exact .inr ⟨l', hl', hg⟩
      · exact fun l' hl' => hw l' (mem_cons_of_mem _ hl')
    have hfirst := hw l mem_cons_self
    rw [map_cons, sum_cons]
    omega

end Fcvm.Library
