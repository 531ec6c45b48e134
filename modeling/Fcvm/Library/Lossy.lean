import Mathlib.Data.Nat.Notation

namespace Fcvm.Library

/-! Lossy decoding of a byte string: each longest part that cannot start a UTF-8 character is replaced by the
three bytes of U+FFFD. -/

def isCont (b : UInt8) : Bool := 0x80 ≤ b && b ≤ 0xBF

def isSecond (a b : UInt8) : Bool :=
  if a == 0xE0 then 0xA0 ≤ b && b ≤ 0xBF
  else if a == 0xED then 0x80 ≤ b && b ≤ 0x9F
  else if a == 0xF0 then 0x90 ≤ b && b ≤ 0xBF
  else if a == 0xF4 then 0x80 ≤ b && b ≤ 0x8F
  else isCont b

def part (a : UInt8) (rest : List UInt8) : ℕ × Bool :=
  if a < 0x80 then (0, true)
  else if 0xC2 ≤ a && a ≤ 0xDF then
    match rest with
    | b :: _ => if isCont b then (1, true) else (0, false)
    | [] => (0, false)
  else if 0xE0 ≤ a && a ≤ 0xEF then
    match rest with
    | b :: c :: _ => if !isSecond a b then (0, false) else if isCont c then (2, true) else (1, false)
    | [b] => if isSecond a b then (1, false) else (0, false)
    | [] => (0, false)
  else if 0xF0 ≤ a && a ≤ 0xF4 then
    match rest with
    | b :: c :: d :: _ =>
      if !isSecond a b then (0, false)
      else if !isCont c then (1, false)
      else if isCont d then (3, true) else (2, false)
    | [b, c] => if !isSecond a b then (0, false) else if isCont c then (2, false) else (1, false)
    | [b] => if isSecond a b then (1, false) else (0, false)
    | [] => (0, false)
  else (0, false)

def lossyLoop : ℕ → List UInt8 → List UInt8
  | 0, _ => []
  | _ + 1, [] => []
  | fuel + 1, a :: rest =>
    let (n, char) := part a rest
    (if char then a :: rest.take n else [0xEF, 0xBF, 0xBD]) ++ lossyLoop fuel (rest.drop n)

def fromUtf8Lossy (bytes : List UInt8) : List UInt8 := lossyLoop bytes.length bytes

def utf8Loop : ℕ → List UInt8 → Bool
  | 0, _ => true
  | _ + 1, [] => true
  | fuel + 1, a :: rest => (part a rest).2 && utf8Loop fuel (rest.drop (part a rest).1)

def isUtf8 (bytes : List UInt8) : Bool := utf8Loop bytes.length bytes

theorem lossyLoop_eq {fuel : ℕ} {bytes : List UInt8} (hfuel : bytes.length ≤ fuel) (h : utf8Loop fuel bytes = true) :
    lossyLoop fuel bytes = bytes := by
  induction fuel generalizing bytes with
  | zero =>
    have hnil : bytes = [] := List.length_eq_zero_iff.mp (Nat.le_zero.mp hfuel)
    rw [hnil]
    rfl
  | succ fuel ih =>
    cases bytes with
    | nil => rfl
    | cons a rest =>
      simp only [utf8Loop, Bool.and_eq_true] at h
      have hrest : (rest.drop (part a rest).1).length ≤ fuel := by
        simp only [List.length_drop, List.length_cons] at hfuel ⊢
        omega
      simp only [lossyLoop, h.1, if_true, ih hrest h.2, List.cons_append, List.take_append_drop]

theorem fromUtf8Lossy_eq {bytes : List UInt8} (h : isUtf8 bytes = true) : fromUtf8Lossy bytes = bytes :=
  lossyLoop_eq (Nat.le_refl _) h

example : fromUtf8Lossy [0x61, 0xC3, 0xA9] = [0x61, 0xC3, 0xA9] ∧
    fromUtf8Lossy [0x61, 0xE9, 0x62] = [0x61, 0xEF, 0xBF, 0xBD, 0x62] := by decide

end Fcvm.Library
