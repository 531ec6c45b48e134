import Mathlib.Data.List.Basic
import Mathlib.Data.Nat.ModEq

namespace Fcvm.Library

open List

def littleEndian : ℕ → ℕ → List UInt8
  | 0, _ => []
  | k + 1, n => UInt8.ofNat n :: littleEndian k (n / 256)

@[simp]
theorem length_littleEndian (k n : ℕ) : (littleEndian k n).length = k := by
  induction k generalizing n with
  | zero => rfl
  | succ k ih => simp [littleEndian, ih]

theorem ofNat_inj_mod {n m : ℕ} (h : UInt8.ofNat n = UInt8.ofNat m) : n % 256 = m % 256 := by
  have hnat := congrArg UInt8.toNat h
  simpa using hnat

def fromLittleEndian : List UInt8 → ℕ
  | [] => 0
  | b :: bytes => b.toNat + 256 * fromLittleEndian bytes

theorem fromLittleEndian_littleEndian {k n : ℕ} (h : n < 256 ^ k) : fromLittleEndian (littleEndian k n) = n := by
  induction k generalizing n with
  | zero =>
    rw [Nat.pow_zero] at h
    exact (Nat.lt_one_iff.mp h).symm
  | succ k ih =>
    rw [Nat.pow_succ] at h
    rw [littleEndian, fromLittleEndian, ih (Nat.div_lt_of_lt_mul (by omega)), UInt8.toNat_ofNat']
    omega

theorem littleEndian_inj {k n m : ℕ} (hn : n < 256 ^ k) (hm : m < 256 ^ k) (h : littleEndian k n = littleEndian k m) :
    n = m := by
  rw [← fromLittleEndian_littleEndian hn, h, fromLittleEndian_littleEndian hm]

theorem littleEndian_succ (k n : ℕ) :
    littleEndian (k + 1) n = littleEndian k n ++ [UInt8.ofNat (n / 256 ^ k)] := by
  induction k generalizing n with
  | zero => simp [littleEndian]
  | succ k ih =>
    rw [littleEndian, ih (n / 256), Nat.div_div_eq_div_mul, ← Nat.pow_succ']
    rfl

theorem littleEndian_mod (k n : ℕ) : littleEndian k n = littleEndian k (n % 256 ^ k) := by
  induction k generalizing n with
  | zero => rfl
  | succ k ih =>
    have hlow : UInt8.ofNat (n % 256 ^ (k + 1)) = UInt8.ofNat n := by
      apply UInt8.toNat_inj.mp
      simp [Nat.pow_succ']
    have hhigh : n % 256 ^ (k + 1) / 256 = n / 256 % 256 ^ k := by
      rw [Nat.pow_succ', Nat.mod_mul_right_div_self]
    rw [littleEndian, littleEndian, hlow, hhigh, ih (n / 256)]

theorem append_cons_inj {α : Type} {c : α} {a a' b b' : List α} (hb : c ∉ b) (hb' : c ∉ b')
    (h : a ++ c :: b = a' ++ c :: b') : a = a' ∧ b = b' := by
  rcases append_eq_append_iff.mp h with ⟨d, hd, hrest⟩ | ⟨d, hd, hrest⟩
  · cases d with
    | nil => simp_all
    | cons x d =>
      simp only [cons_append, List.cons.injEq] at hrest
      exact absurd (hrest.2 ▸ mem_append_right d mem_cons_self) hb
  · cases d with
    | nil => simp_all
    | cons x d =>
      simp only [cons_append, List.cons.injEq] at hrest
      exact absurd (hrest.2 ▸ mem_append_right d mem_cons_self) hb'

section Delimits

variable {α β γ : Type}

def Delimits (P : α → Prop) (code : α → List β) : Prop :=
  ∀ a b s t, P a → P b → code a ++ s = code b ++ t → a = b ∧ s = t

theorem Delimits.fixed {P : α → Prop} {code : α → List β} {k : ℕ} (hlength : ∀ a, (code a).length = k)
    (hinj : ∀ a b, P a → P b → code a = code b → a = b) : Delimits P code := by
  intro a b s t ha hb h
  obtain ⟨hcode, hrest⟩ := append_inj h ((hlength a).trans (hlength b).symm)
  exact ⟨hinj a b ha hb hcode, hrest⟩

theorem delimits_littleEndian (k : ℕ) : Delimits (fun n => n < 256 ^ k) (littleEndian k) :=
  Delimits.fixed (length_littleEndian k) (fun _ _ hn hm h => littleEndian_inj hn hm h)

theorem Delimits.seq {P : α → Prop} {Q : γ → Prop} {f : α → List β} {g : γ → List β} (hf : Delimits P f)
    (hg : Delimits Q g) : Delimits (fun x : α × γ => P x.1 ∧ Q x.2) fun x => f x.1 ++ g x.2 := by
  rintro ⟨a, c⟩ ⟨b, d⟩ s t ⟨ha, hc⟩ ⟨hb, hd⟩ h
  simp only [append_assoc] at h
  obtain ⟨hfirst, hrest⟩ := hf a b _ _ ha hb h
  obtain ⟨hsecond, hlast⟩ := hg c d s t hc hd hrest
  exact ⟨Prod.ext hfirst hsecond, hlast⟩

theorem Delimits.flatMap {P : α → Prop} {f : α → List β} (hf : Delimits P f) {xs ys : List α} {s t : List β}
    (hlength : xs.length = ys.length) (hxs : ∀ x ∈ xs, P x) (hys : ∀ y ∈ ys, P y)
    (h : xs.flatMap f ++ s = ys.flatMap f ++ t) : xs = ys ∧ s = t := by
  induction xs generalizing ys with
  | nil =>
    cases ys with
    | nil => exact ⟨rfl, h⟩
    | cons y ys => simp at hlength
  | cons x xs ih =>
    cases ys with
    | nil => simp at hlength
    | cons y ys =>
      simp only [flatMap_cons, append_assoc] at h
      obtain ⟨hhead, hrest⟩ := hf x y _ _ (hxs x mem_cons_self) (hys y mem_cons_self) h
      obtain ⟨htail, hlast⟩ := ih (by simpa using hlength) (fun x hx => hxs x (mem_cons_of_mem _ hx))
        (fun y hy => hys y (mem_cons_of_mem _ hy)) hrest
      exact ⟨by rw [hhead, htail], hlast⟩

def lengthPrefixed (bytes : List UInt8) : List UInt8 := littleEndian 8 bytes.length ++ bytes

theorem delimits_lengthPrefixed : Delimits (fun bytes => bytes.length < 2 ^ 64) lengthPrefixed := by
  intro a b s t ha hb h
  simp only [lengthPrefixed, append_assoc] at h
  obtain ⟨hlength, h⟩ := delimits_littleEndian 8 _ _ _ _ (by simpa using ha) (by simpa using hb) h
  exact append_inj h hlength

end Delimits

end Fcvm.Library
