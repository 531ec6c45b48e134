import Mathlib.Logic.Function.Basic

/-! Maps to `Option` that are changed at one key, or that are related key by key. -/

namespace Fcvm.Library

open Function

variable {α β : Type*} [DecidableEq α] {m : α → Option β} {a b : α} {x y : β} {v : Option β}

theorem update_some : update m a (some x) b = some y ↔ b = a ∧ x = y ∨ b ≠ a ∧ m b = some y := by
  by_cases h : b = a
  · subst h
    simp
  · simp [h]

theorem update_none : update m a none b = some y ↔ b ≠ a ∧ m b = some y := by
  by_cases h : b = a
  · subst h
    simp
  · simp [h]

theorem update_kept (hb : m b = some y) (ha : m a ≠ some y) : update m a v b = some y := by
  rw [update_of_ne, hb]
  rintro rfl
  exact ha hb

def Pointwise (R : β → β → Prop) (m m' : α → Option β) : Prop := ∀ a, Option.Rel R (m a) (m' a)

namespace Pointwise

variable {R S : β → β → Prop} {m' m'' : α → Option β}

omit [DecidableEq α] in
theorem refl [Std.Refl R] (m : α → Option β) : Pointwise R m m := by
  intro a
  cases m a with
  | none => exact .none
  | some x => exact .some (Std.Refl.refl x)

theorem update [Std.Refl R] (ha : m a = some x) (h : R x y) : Pointwise R m (update m a (some y)) := by
  intro b
  by_cases hb : b = a
  · subst hb
    rw [ha, update_self]
    exact .some h
  · rw [update_of_ne hb]
    exact refl m b

variable (h : Pointwise R m m')
include h

omit [DecidableEq α]

theorem cases (a : α) : m a = none ∧ m' a = none ∨ ∃ x y, m a = some x ∧ m' a = some y ∧ R x y := by
  have hrel := h a
  generalize m a = o at hrel
  generalize m' a = o' at hrel
  cases hrel with
  | none => exact .inl ⟨rfl, rfl⟩
  | some hxy => exact .inr ⟨_, _, rfl, rfl, hxy⟩

theorem before (ha : m' a = some y) : ∃ x, m a = some x ∧ R x y := by
  rcases h.cases a with ⟨-, hnone⟩ | ⟨x, y', hx, hy, hxy⟩
  · cases hnone.symm.trans ha
  · cases ha.symm.trans hy
    exact ⟨x, hx, hxy⟩

theorem after (ha : m a = some x) : ∃ y, m' a = some y ∧ R x y := by
  rcases h.cases a with ⟨hnone, -⟩ | ⟨x', y, hx, hy, hxy⟩
  · cases hnone.symm.trans ha
  · cases ha.symm.trans hx
    exact ⟨y, hy, hxy⟩

theorem none (ha : m a = none) : m' a = none := by
  rcases h.cases a with ⟨-, hnone⟩ | ⟨x, -, hx, -⟩
  · exact hnone
  · cases ha.symm.trans hx

theorem mono (hS : ∀ x y, R x y → S x y) : Pointwise S m m' := by
  intro a
  rcases h.cases a with ⟨hnone, hnone'⟩ | ⟨x, y, hx, hy, hxy⟩
  · rw [hnone, hnone']
    exact .none
  · rw [hx, hy]
    exact .some (hS x y hxy)

theorem trans [IsTrans β R] (h' : Pointwise R m' m'') : Pointwise R m m'' := by
  intro a
  rcases h.cases a with ⟨hnone, hnone'⟩ | ⟨x, y, hx, hy, hxy⟩
  · rw [hnone, h'.none hnone']
    exact .none
  · obtain ⟨z, hz, hyz⟩ := h'.after hy
    rw [hx, hz]
    exact .some (IsTrans.trans x y z hxy hyz)

end Pointwise

end Fcvm.Library
