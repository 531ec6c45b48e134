import Mathlib.Algebra.BigOperators.Group.List.Basic
import Mathlib.Algebra.Order.Field.Basic
import Mathlib.Data.Set.Lattice
import Mathlib.Data.Set.Prod
import Mathlib.Order.CompletePartialOrder
import Mathlib.Tactic.FieldSimp
import Mathlib.Tactic.Linarith
import Mathlib.Tactic.Positivity
import Mathlib.Tactic.Ring

/-!
Axis-parallel rectangles over an ordered field, and how a rectangle is cut into smaller ones without gaps: into a
stack of bands, into a row of columns, and each part cut again.
-/

namespace Fcvm.Library

open List

structure Rect (K : Type*) where
  x : K
  y : K
  w : K
  h : K
  deriving DecidableEq

namespace Rect

variable {K : Type*} [Field K]

variable (r : Rect K)

def area : K := r.w * r.h

def swap : Rect K := ⟨r.y, r.x, r.h, r.w⟩

theorem area_swap : r.swap.area = r.area := mul_comm _ _

def band (total lower upper : ℕ) : Rect K :=
  ⟨r.x, r.y + r.h * (lower / total : K), r.w, r.h * ((upper / total : K) - (lower / total : K))⟩

def column (total lower upper : ℕ) : Rect K :=
  ⟨r.x + r.w * (lower / total : K), r.y, r.w * ((upper / total : K) - (lower / total : K)), r.h⟩

theorem column_eq_swap (total lower upper : ℕ) :
    r.column total lower upper = (r.swap.band total lower upper).swap := rfl

def stack (r : Rect K) (total : ℕ) : ℕ → List ℕ → List (Rect K)
  | _, [] => []
  | before, c :: cs => r.band total before (before + c) :: stack r total (before + c) cs

def row (r : Rect K) (total : ℕ) : ℕ → List ℕ → List (Rect K)
  | _, [] => []
  | before, c :: cs => r.column total before (before + c) :: row r total (before + c) cs

@[simp] theorem length_stack (total before : ℕ) (cs : List ℕ) : (r.stack total before cs).length = cs.length := by
  induction cs generalizing before with
  | nil => rfl
  | cons c cs ih => simp [stack, ih]

theorem row_eq_map_swap (total before : ℕ) (cs : List ℕ) :
    r.row total before cs = (r.swap.stack total before cs).map Rect.swap := by
  induction cs generalizing before with
  | nil => rfl
  | cons c cs ih => simp [row, stack, ih, column_eq_swap]

theorem row_ones (total before n : ℕ) :
    r.row total before (replicate n 1) = (range' before n).map fun j => r.column total j (j + 1) := by
  induction n generalizing before with
  | zero => rfl
  | succ n ih => simp [replicate_succ, range'_succ, row, ih]

theorem stack_ones (total before n : ℕ) :
    r.stack total before (replicate n 1) = (range' before n).map fun j => r.band total j (j + 1) := by
  induction n generalizing before with
  | zero => rfl
  | succ n ih => simp [replicate_succ, range'_succ, stack, ih]

section Order

variable [LinearOrder K]

def interior : Set (K × K) := Set.Ioo r.x (r.x + r.w) ×ˢ Set.Ioo r.y (r.y + r.h)

def Solid : Prop := 0 < r.w ∧ 0 < r.h

structure Inside (a r : Rect K) : Prop where
  left : r.x ≤ a.x
  right : a.x + a.w ≤ r.x + r.w
  top : r.y ≤ a.y
  bottom : a.y + a.h ≤ r.y + r.h

def Apart (a b : Rect K) : Prop :=
  a.x + a.w ≤ b.x ∨ b.x + b.w ≤ a.x ∨ a.y + a.h ≤ b.y ∨ b.y + b.h ≤ a.y

theorem Inside.refl : r.Inside r := ⟨le_rfl, le_rfl, le_rfl, le_rfl⟩

variable {a b r : Rect K} {l : List (Rect K)} {cuts : List (List (Rect K))} {total : ℕ}

theorem Inside.trans {c : Rect K} (hab : a.Inside b) (hbc : b.Inside c) : a.Inside c where
  left := hbc.left.trans hab.left
  right := hab.right.trans hbc.right
  top := hbc.top.trans hab.top
  bottom := hab.bottom.trans hbc.bottom

theorem Apart.symm (h : Apart a b) : Apart b a := by
  rcases h with h | h | h | h
  · exact .inr (.inl h)
  · exact .inl h
  · exact .inr (.inr (.inr h))
  · exact .inr (.inr (.inl h))

theorem Apart.mono {a' b' : Rect K} (h : Apart a b) (ha : a'.Inside a) (hb : b'.Inside b) : Apart a' b' := by
  rcases h with h | h | h | h
  · exact .inl (ha.right.trans (h.trans hb.left))
  · exact .inr (.inl (hb.right.trans (h.trans ha.left)))
  · exact .inr (.inr (.inl (ha.bottom.trans (h.trans hb.top))))
  · exact .inr (.inr (.inr (hb.bottom.trans (h.trans ha.top))))

theorem Apart.disjoint_interior (h : Apart a b) : Disjoint a.interior b.interior := by
  rw [Set.disjoint_left]
  rintro ⟨u, v⟩ ⟨⟨hu₁, hu₂⟩, hv₁, hv₂⟩ ⟨⟨hu₃, hu₄⟩, hv₃, hv₄⟩
  rcases h with h | h | h | h
  · exact absurd (hu₂.trans_le h) hu₃.not_gt
  · exact absurd (hu₄.trans_le h) hu₁.not_gt
  · exact absurd (hv₂.trans_le h) hv₃.not_gt
  · exact absurd (hv₄.trans_le h) hv₁.not_gt

structure Partition (r : Rect K) (parts : List (Rect K)) : Prop where
  solid : ∀ a ∈ parts, a.Solid
  inside : ∀ a ∈ parts, a.Inside r
  apart : parts.Pairwise Apart
  area : (parts.map Rect.area).sum = r.area

theorem Partition.single (h : r.Solid) : Partition r [r] where
  solid := by simpa using h
  inside := by simpa using Inside.refl r
  apart := pairwise_singleton _ _
  area := by simp

theorem Partition.nil (h : r.area = 0) : Partition r [] where
  solid := by simp
  inside := by simp
  apart := List.Pairwise.nil
  area := by simp [h]

theorem Partition.perm {m : List (Rect K)} (h : Partition r l) (hp : l.Perm m) : Partition r m where
  solid a ha := h.solid a (hp.mem_iff.2 ha)
  inside a ha := h.inside a (hp.mem_iff.2 ha)
  apart := (hp.pairwise_iff Apart.symm).1 h.apart
  area := by rw [← h.area, (hp.map Rect.area).sum_eq]

theorem Partition.append {m : List (Rect K)} (ha : a.Inside r) (hb : b.Inside r)
    (hab : Apart a b) (harea : a.area + b.area = r.area) (hl : Partition a l) (hm : Partition b m) :
    Partition r (l ++ m) where
  solid := by
    intro c hc
    rcases mem_append.1 hc with hc | hc
    · exact hl.solid c hc
    · exact hm.solid c hc
  inside := by
    intro c hc
    rcases mem_append.1 hc with hc | hc
    · exact (hl.inside c hc).trans ha
    · exact (hm.inside c hc).trans hb
  apart := by
    apply pairwise_append.2
    refine ⟨hl.apart, hm.apart, ?_⟩
    intro c hc d hd
    exact hab.mono (hl.inside c hc) (hm.inside d hd)
  area := by rw [map_append, sum_append, hl.area, hm.area, harea]

theorem Partition.mem_flatten {parts : List (Rect K)}
    (hc : List.Forall₂ Partition parts cuts) (hb : b ∈ cuts.flatten) :
    ∃ a ∈ parts, ∃ l, Partition a l ∧ b ∈ l := by
  induction hc with
  | nil => simp at hb
  | cons h _ ih =>
    rw [flatten_cons] at hb
    rcases mem_append.1 hb with hb | hb
    · exact ⟨_, mem_cons_self, _, h, hb⟩
    · obtain ⟨a, ha, l, hl, hbl⟩ := ih hb
      exact ⟨a, mem_cons_of_mem _ ha, l, hl, hbl⟩

theorem Partition.flatten {parts : List (Rect K)}
    (hp : Partition r parts) (hc : List.Forall₂ Partition parts cuts) : Partition r cuts.flatten := by
  constructor
  · intro b hb
    obtain ⟨a, -, l, hl, hbl⟩ := Partition.mem_flatten hc hb
    exact hl.solid b hbl
  · intro b hb
    obtain ⟨a, ha, l, hl, hbl⟩ := Partition.mem_flatten hc hb
    exact (hl.inside b hbl).trans (hp.inside a ha)
  · have hapart := hp.apart
    clear hp
    induction hc with
    | nil => exact List.Pairwise.nil
    | cons h htail ih =>
      rw [pairwise_cons] at hapart
      rw [flatten_cons, pairwise_append]
      refine ⟨h.apart, ih hapart.2, ?_⟩
      intro c hcl d hd
      obtain ⟨a, ha, l, hl, hdl⟩ := Partition.mem_flatten htail hd
      exact (hapart.1 a ha).mono (h.inside c hcl) (hl.inside d hdl)
  · rw [← hp.area]
    clear hp
    induction hc with
    | nil => rfl
    | cons h _ ih => rw [flatten_cons, map_append, sum_append, h.area, ih, map_cons, sum_cons]

theorem Inside.swap (h : a.Inside r) : a.swap.Inside r.swap := ⟨h.top, h.bottom, h.left, h.right⟩

theorem Apart.swap (h : Apart a b) : Apart a.swap b.swap := by
  rcases h with h | h | h | h
  · exact .inr (.inr (.inl h))
  · exact .inr (.inr (.inr h))
  · exact .inl h
  · exact .inr (.inl h)

theorem Partition.swap (h : Partition r l) : Partition r.swap (l.map Rect.swap) where
  solid := by
    intro a ha
    obtain ⟨b, hb, rfl⟩ := mem_map.1 ha
    exact (h.solid b hb).symm
  inside := by
    intro a ha
    obtain ⟨b, hb, rfl⟩ := mem_map.1 ha
    exact (h.inside b hb).swap
  apart := pairwise_map.2 (h.apart.imp Apart.swap)
  area := by
    rw [area_swap, ← h.area, map_map]
    congr 1
    apply map_congr_left
    intro a _
    exact area_swap a

variable [IsStrictOrderedRing K]

theorem band_solid (h : r.Solid) {lower upper : ℕ} (ht : 0 < total) (hlt : lower < upper) :
    (r.band total lower upper).Solid := by
  have ht' : (0 : K) < total := by exact_mod_cast ht
  have hlt' : (lower : K) < upper := by exact_mod_cast hlt
  refine ⟨h.1, mul_pos h.2 ?_⟩
  rw [sub_pos]
  exact div_lt_div_of_pos_right hlt' ht'

theorem band_whole (r : Rect K) (ht : 0 < total) : r.band total 0 total = r := by
  have ht' : (total : K) ≠ 0 := by exact_mod_cast ht.ne'
  simp [band, div_self ht']

theorem stack_partition (h : r.Solid) (ht : 0 < total) (before : ℕ) (cs : List ℕ)
    (hpos : ∀ c ∈ cs, 0 < c) (hsum : before + cs.sum = total) :
    Partition (r.band total before total) (r.stack total before cs) := by
  have ht' : (0 : K) < total := by exact_mod_cast ht
  induction cs generalizing before with
  | nil =>
    have : before = total := by simpa using hsum
    subst this
    exact Partition.nil (by simp [Rect.area, band])
  | cons c cs ih =>
    rw [sum_cons] at hsum
    have hc : 0 < c := hpos c mem_cons_self
    have hrest := ih (before + c) (fun d hd => hpos d (mem_cons_of_mem _ hd)) (by omega)
    have hle₁ : (before / total : K) ≤ ((before + c : ℕ) / total : K) := by
      apply div_le_div_of_nonneg_right _ ht'.le
      exact_mod_cast Nat.le_add_right before c
    have hle₂ : ((before + c : ℕ) / total : K) ≤ (total / total : K) := by
      apply div_le_div_of_nonneg_right _ ht'.le
      exact_mod_cast (by omega : before + c ≤ total)
    have hm₁ := mul_le_mul_of_nonneg_left hle₁ h.2.le
    have hm₂ := mul_le_mul_of_nonneg_left hle₂ h.2.le
    refine Partition.append (l := [r.band total before (before + c)]) ?_ ?_ ?_ ?_
      (Partition.single (band_solid h ht (by omega))) hrest
    · constructor <;> simp only [band, mul_sub] <;> linarith
    · constructor <;> simp only [band, mul_sub] <;> linarith
    · refine .inr (.inr (.inl ?_))
      simp only [band, mul_sub]
      linarith
    · simp only [Rect.area, band]
      ring

theorem stack_partition_whole (h : r.Solid) (cs : List ℕ) (hpos : ∀ c ∈ cs, 0 < c) (hsum : 0 < cs.sum) :
    Partition r (r.stack cs.sum 0 cs) := by
  have hp := stack_partition h hsum 0 cs hpos (by simp)
  rwa [band_whole r hsum] at hp

theorem row_partition_whole (h : r.Solid) (cs : List ℕ) (hpos : ∀ c ∈ cs, 0 < c) (hsum : 0 < cs.sum) :
    Partition r (r.row cs.sum 0 cs) := by
  rw [row_eq_map_swap]
  exact (stack_partition_whole (r := r.swap) h.symm cs hpos hsum).swap

end Order

end Rect

end Fcvm.Library
