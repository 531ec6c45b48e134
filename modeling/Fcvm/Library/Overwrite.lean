import Mathlib.Data.List.Basic
import Mathlib.Data.Nat.Notation

namespace Fcvm.Library

open List

variable {α : Type*}

def overwrite (pad : α) (l : List α) (at_ : ℕ) (new : List α) : List α :=
  (l ++ List.replicate (at_ - l.length) pad).take at_ ++ new ++ l.drop (at_ + new.length)

variable {pad : α} {l new : List α} {at_ : ℕ}

theorem length_overwrite (h : at_ + new.length ≤ l.length) : (overwrite pad l at_ new).length = l.length := by
  simp only [overwrite, length_append, length_take, length_replicate, length_drop]
  omega

theorem getElem?_overwrite (h : at_ + new.length ≤ l.length) (x : ℕ) :
    (overwrite pad l at_ new)[x]? = if at_ ≤ x ∧ x < at_ + new.length then new[x - at_]? else l[x]? := by
  have hpad : at_ - l.length = 0 := by omega
  have htake : (l.take at_).length = at_ := by
    rw [length_take]
    omega
  simp only [overwrite, hpad, replicate_zero, append_nil]
  rcases Nat.lt_or_ge x at_ with hx | hx
  · rw [append_assoc, getElem?_append_left (by omega), getElem?_take_of_lt hx,
      if_neg (by omega)]
  · rcases Nat.lt_or_ge x (at_ + new.length) with hy | hy
    · rw [append_assoc, getElem?_append_right (by omega), htake, getElem?_append_left (by omega),
        if_pos ⟨hx, hy⟩]
    · rw [getElem?_append_right (by simp only [length_append]; omega), length_append, htake,
        getElem?_drop, if_neg (by omega)]
      congr 1
      omega

end Fcvm.Library
