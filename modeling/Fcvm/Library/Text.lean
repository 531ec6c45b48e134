import Mathlib.Algebra.Group.Nat.Defs
import Mathlib.Data.List.Basic

namespace Fcvm.Library

open List

def isWhiteSpace (c : Char) : Bool :=
  let n := c.toNat
  9 ≤ n ∧ n ≤ 13 ∨ n = 0x20 ∨ n = 0x85 ∨ n = 0xA0 ∨ n = 0x1680 ∨ 0x2000 ≤ n ∧ n ≤ 0x200A ∨ n = 0x2028 ∨ n = 0x2029 ∨
    n = 0x202F ∨ n = 0x205F ∨ n = 0x3000

def splitWhitespace (text : List Char) : List (List Char) :=
  (text.splitOnP isWhiteSpace).filter (· ≠ [])

def parseDecimal (bits : ℕ) (text : List Char) : Option ℕ :=
  let digits := match text with
    | '+' :: digits => digits
    | digits => digits
  if digits ≠ [] ∧ digits.all Char.isDigit then
    let n := digits.foldl (fun n c => 10 * n + (c.toNat - '0'.toNat)) 0
    if n < 2 ^ bits then some n else none
  else none

def trimEnd (text : List Char) : List Char := (text.reverse.dropWhile isWhiteSpace).reverse

theorem trimEnd_append_white (s : List Char) {c : Char} (hc : isWhiteSpace c = true) :
    trimEnd (s ++ [c]) = trimEnd s := by
  simp [trimEnd, hc]

theorem trimEnd_append_cons (s t : List Char) {c : Char} (hc : isWhiteSpace c = false) :
    trimEnd (s ++ c :: t) = s ++ c :: trimEnd t := by
  have hstop : ∀ r : List Char, (r ++ c :: s.reverse).dropWhile isWhiteSpace = r.dropWhile isWhiteSpace ++
      c :: s.reverse := by
    intro r
    induction r with
    | nil => rw [nil_append, dropWhile_cons_of_neg (by simp [hc]), dropWhile_nil, nil_append]
    | cons d r ih =>
      rw [cons_append, dropWhile_cons, dropWhile_cons]
      split
      · exact ih
      · rfl
  have hreverse : (s ++ c :: t).reverse = t.reverse ++ c :: s.reverse := by simp
  rw [trimEnd, hreverse, hstop, trimEnd]
  simp

def splitOnce (sep : Char) : List Char → Option (List Char × List Char)
  | [] => none
  | c :: text => if c = sep then some ([], text) else (splitOnce sep text).map fun p => (c :: p.1, p.2)

theorem splitOnce_append {sep : Char} {s : List Char} (h : sep ∉ s) (t : List Char) :
    splitOnce sep (s ++ sep :: t) = some (s, t) := by
  induction s with
  | nil => simp [splitOnce]
  | cons c s ih =>
    have hc : c ≠ sep := fun heq => h (heq ▸ mem_cons_self)
    have hs : sep ∉ s := fun hmem => h (mem_cons_of_mem _ hmem)
    rw [cons_append, splitOnce, if_neg hc, ih hs]
    rfl

theorem splitOnce_eq_none {sep : Char} {s : List Char} (h : sep ∉ s) : splitOnce sep s = none := by
  induction s with
  | nil => rfl
  | cons c s ih =>
    have hc : c ≠ sep := fun heq => h (heq ▸ mem_cons_self)
    have hs : sep ∉ s := fun hmem => h (mem_cons_of_mem _ hmem)
    rw [splitOnce, if_neg hc, ih hs]
    rfl

end Fcvm.Library
