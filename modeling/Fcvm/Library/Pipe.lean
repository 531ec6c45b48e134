import Mathlib.Data.List.Basic

namespace Fcvm.Library

open List

universe u

variable {α : Type u}

/-- One direction of a connection: what was read of it, and what was written and not read. -/
structure Pipe (α : Type u) where
  consumed : List α
  pending : List α
  deriving DecidableEq

namespace Pipe

def written (p : Pipe α) : List α := p.consumed ++ p.pending

def write (p : Pipe α) (items : List α) : Pipe α := { p with pending := p.pending ++ items }

def read (p : Pipe α) : Option (α × Pipe α) :=
  match p.pending with
  | [] => none
  | a :: rest => some (a, ⟨p.consumed ++ [a], rest⟩)

@[simp] theorem written_write (p : Pipe α) (items : List α) : (p.write items).written = p.written ++ items := by
  simp [write, written]

theorem consumed_prefix (p : Pipe α) : p.consumed <+: p.written := ⟨p.pending, rfl⟩

theorem read_eq {p q : Pipe α} {a : α} (h : p.read = some (a, q)) :
    q.written = p.written ∧ q.consumed = p.consumed ++ [a] := by
  unfold read at h
  split at h
  · cases h
  · next rest hrest =>
    cases h
    simp [written, hrest]

end Pipe

theorem line_eq_of_prefix {stop : α} {line first rest : List α} (hline : stop ∉ line) (hfirst : stop ∉ first)
    (h : line ++ [stop] <+: first ++ stop :: rest) : line = first := by
  induction line generalizing first with
  | nil =>
    cases first with
    | nil => rfl
    | cons a first =>
      rw [nil_append, cons_append, cons_prefix_cons] at h
      exact absurd (h.1 ▸ mem_cons_self) hfirst
  | cons b line ih =>
    cases first with
    | nil =>
      rw [cons_append, nil_append, cons_prefix_cons] at h
      exact absurd (h.1 ▸ mem_cons_self) hline
    | cons a first =>
      rw [cons_append, cons_append, cons_prefix_cons] at h
      rw [h.1, ih (not_mem_of_not_mem_cons hline) (not_mem_of_not_mem_cons hfirst) h.2]

end Fcvm.Library
