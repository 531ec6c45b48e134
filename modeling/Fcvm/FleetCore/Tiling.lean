import Fcvm.FleetCore.State

/-! Cutting the image into one rectangle per tile (`fleet/core/src/tiling.rs`). -/

namespace Fcvm.FleetCore

open Library.Rect List

variable (p : Parts)

def rowCounts (n rows : ℕ) : List ℕ :=
  let base := n / rows
  let extra := n % rows
  (List.range rows).map fun i => if i < rows - extra then base else base + 1

def sides (fcvm ec2 : ℕ) : Rect × Rect :=
  let total := fcvm + ec2
  let w : ℚ := if total = 0 then 0 else fcvm / total
  (⟨0, 0, w, 1⟩, ⟨w, 0, if total = 0 then 0 else 1 - w, 1⟩)

def gridIn (area : Rect) (n : ℕ) (imageAspect tileAspect : ℚ) : List Rect :=
  let rows := p.rowsFor n (area.w * imageAspect / area.h) tileAspect
  (rowCounts n rows).zipIdx.flatMap fun (cols, i) =>
    let y0 : ℚ := i / rows
    let y1 : ℚ := (i + 1 : ℕ) / rows
    (List.range cols).map fun (j : ℕ) =>
      let x0 : ℚ := j / cols
      let x1 : ℚ := (j + 1 : ℕ) / cols
      ⟨area.x + area.w * x0, area.y + area.h * y0, area.w * (x1 - x0), area.h * (y1 - y0)⟩

/-- A side cut into full-width bands stacked top to bottom, band `i` holding `counts[i]` tiles and as tall as its
share of all of them, each band cut into its own grid: the loop from the count `before` on. -/
def bandsFrom (side : Rect) (total : ℕ) (imageAspect tileAspect : ℚ) : ℕ → List ℕ → List (Rect × List Rect)
  | _, [] => []
  | before, c :: counts =>
    let y0 : ℚ := before / total
    let y1 : ℚ := (before + c : ℕ) / total
    let band : Rect := ⟨side.x, side.y + side.h * y0, side.w, side.h * (y1 - y0)⟩
    (band, gridIn p band c imageAspect tileAspect) ::
      bandsFrom side total imageAspect tileAspect (before + c) counts

def bands (side : Rect) (counts : List ℕ) (imageAspect tileAspect : ℚ) : List (Rect × List Rect) :=
  bandsFrom p side counts.sum imageAspect tileAspect 0 counts

theorem rowCounts_length (n rows : ℕ) : (rowCounts n rows).length = rows := by simp [rowCounts]

theorem rowCounts_pos {n rows : ℕ} (hr : rows ≤ n) (h : 1 ≤ rows) {c : ℕ} (hc : c ∈ rowCounts n rows) : 0 < c := by
  have hbase : 0 < n / rows := Nat.div_pos hr h
  simp only [rowCounts, mem_map, mem_range] at hc
  obtain ⟨i, -, rfl⟩ := hc
  split <;> omega

theorem rowCounts_sum {n rows : ℕ} (h : 1 ≤ rows) : (rowCounts n rows).sum = n := by
  have hextra : n % rows < rows := Nat.mod_lt _ h
  have hsplit : (range rows).map (fun i => if i < rows - n % rows then n / rows else n / rows + 1) =
      replicate (rows - n % rows) (n / rows) ++ replicate (n % rows) (n / rows + 1) := by
    apply ext_getElem
    · simp only [length_map, length_range, length_append, length_replicate]
      omega
    · intro i h₁ h₂
      simp only [getElem_map, getElem_range, getElem_append, length_replicate,
        getElem_replicate]
      split <;> rfl
  simp only [rowCounts, hsplit, sum_append, sum_replicate, nsmul_eq_mul, Nat.cast_id]
  have hdiv := Nat.div_add_mod n rows
  have hle := Nat.mul_le_mul_right (n / rows) hextra.le
  rw [Nat.sub_mul, Nat.mul_add, Nat.mul_one]
  omega

variable {p}

theorem gridIn_eq (area : Rect) {n : ℕ} (ia ta : ℚ) :
    gridIn p area n ia ta =
      ((area.stack (p.rowsFor n (area.w * ia / area.h) ta) 0
          (replicate (p.rowsFor n (area.w * ia / area.h) ta) 1)).zipWith
        (fun r cols => r.row cols 0 (replicate cols 1))
        (rowCounts n (p.rowsFor n (area.w * ia / area.h) ta))).flatten := by
  generalize hrows : p.rowsFor n (area.w * ia / area.h) ta = rows
  simp only [gridIn, hrows, stack_ones, row_ones, flatMap_def]
  congr 1
  apply ext_getElem
  · simp [rowCounts_length]
  · intro i h₁ h₂
    simp only [getElem_map, getElem_zipIdx, getElem_zipWith, getElem_range']
    rw [range_eq_range']
    apply map_congr_left
    intro j _
    simp [column, band]

theorem gridIn_length (area : Rect) {n : ℕ} (ia ta : ℚ) : (gridIn p area n ia ta).length = n := by
  simp only [gridIn, length_flatMap, length_map, length_range]
  rcases Nat.eq_zero_or_pos n with rfl | hn
  · have h0 := p.rowsFor_le 0 (area.w * ia / area.h) ta
    simp [rowCounts, Nat.le_zero.1 h0]
  · have hsum := rowCounts_sum (n := n) (p.rowsFor_pos n (area.w * ia / area.h) ta hn)
    have hfst : ((rowCounts n (p.rowsFor n (area.w * ia / area.h) ta)).zipIdx.map fun e => e.1) =
        rowCounts n (p.rowsFor n (area.w * ia / area.h) ta) := zipIdx_map_fst 0 _
    rw [← hfst] at hsum
    exact hsum

theorem gridIn_partition {area : Rect} (h : area.Solid) {n : ℕ} (hn : 1 ≤ n) (ia ta : ℚ) :
    Partition area (gridIn p area n ia ta) := by
  have hpos := p.rowsFor_pos n (area.w * ia / area.h) ta hn
  have hle := p.rowsFor_le n (area.w * ia / area.h) ta
  rw [gridIn_eq]
  generalize p.rowsFor n (area.w * ia / area.h) ta = rows at hpos hle ⊢
  have hrows : Partition area (area.stack rows 0 (replicate rows 1)) := by
    have hp := stack_partition_whole h (replicate rows 1) (by simp) (by simp; omega)
    simpa using hp
  apply hrows.flatten
  rw [forall₂_iff_get]
  refine ⟨by simp [rowCounts_length], ?_⟩
  intro i h₁ h₂
  have hi : i < (rowCounts n rows).length := by simp at h₂; omega
  have hcols : 0 < (rowCounts n rows)[i] := rowCounts_pos hle hpos (getElem_mem hi)
  have hsolid : (area.stack rows 0 (replicate rows 1))[i].Solid := hrows.solid _ (getElem_mem h₁)
  have hp := row_partition_whole hsolid (replicate (rowCounts n rows)[i] 1) (by simp) (by simpa using hcols)
  simpa using hp

theorem bandsFrom_map_fst (side : Rect) (total : ℕ) (ia ta : ℚ) (before : ℕ) (counts : List ℕ) :
    (bandsFrom p side total ia ta before counts).map Prod.fst = side.stack total before counts := by
  induction counts generalizing before with
  | nil => rfl
  | cons c counts ih => simp [bandsFrom, stack, band, ih]

theorem bands_length (side : Rect) (counts : List ℕ) (ia ta : ℚ) :
    (bands p side counts ia ta).length = counts.length := by
  have h := congrArg length (bandsFrom_map_fst (p := p) side counts.sum ia ta 0 counts)
  simpa [bands] using h

theorem bandsFrom_grid (side : Rect) (total : ℕ) (ia ta : ℚ) (before : ℕ) (counts : List ℕ) :
    List.Forall₂ (fun b c => b.2 = gridIn p b.1 c ia ta) (bandsFrom p side total ia ta before counts) counts := by
  induction counts generalizing before with
  | nil => exact .nil
  | cons c counts ih => exact .cons rfl (ih _)

theorem bands_map_length (side : Rect) (counts : List ℕ) (ia ta : ℚ) :
    (bands p side counts ia ta).map (fun b => b.2.length) = counts := by
  have h := bandsFrom_grid (p := p) side counts.sum ia ta 0 counts
  rw [← forall₂_eq_eq_eq, forall₂_map_left_iff]
  apply h.imp
  intro b c hb
  rw [hb, gridIn_length]

theorem bands_partition {side : Rect} (h : side.Solid) {counts : List ℕ} (hpos : ∀ c ∈ counts, 0 < c)
    (hsum : 0 < counts.sum) (ia ta : ℚ) : Partition side ((bands p side counts ia ta).map Prod.fst) := by
  rw [bands, bandsFrom_map_fst]
  exact stack_partition_whole h counts hpos hsum

theorem bands_tiles {side : Rect} (h : side.Solid) {counts : List ℕ} (hpos : ∀ c ∈ counts, 0 < c)
    (hsum : 0 < counts.sum) (ia ta : ℚ) :
    List.Forall₂ (fun b t => Partition b t) ((bands p side counts ia ta).map Prod.fst)
      ((bands p side counts ia ta).map Prod.snd) := by
  have hparts := bands_partition (p := p) h hpos hsum ia ta
  rw [forall₂_map_left_iff, forall₂_map_right_iff, forall₂_same]
  intro b hb
  obtain ⟨i, hi, rfl⟩ := mem_iff_getElem.1 hb
  have hi' : i < counts.length := bands_length (p := p) side counts ia ta ▸ hi
  have hgrid := (bandsFrom_grid (p := p) side counts.sum ia ta 0 counts).get hi hi'
  simp only [get_eq_getElem] at hgrid
  have hsolid := hparts.solid _ (mem_map_of_mem (f := Prod.fst) hb)
  simp only [bands]
  rw [hgrid]
  exact gridIn_partition hsolid (hpos _ (getElem_mem hi')) ia ta

theorem sides_halves {fcvm ec2 : ℕ} (h : 0 < fcvm + ec2) :
    (sides fcvm ec2).1.Inside ⟨0, 0, 1, 1⟩ ∧ (sides fcvm ec2).2.Inside ⟨0, 0, 1, 1⟩ ∧
      Apart (sides fcvm ec2).1 (sides fcvm ec2).2 ∧ (sides fcvm ec2).1.area + (sides fcvm ec2).2.area = 1 := by
  have hpos : (0 : ℚ) < (fcvm + ec2 : ℕ) := by exact_mod_cast h
  have hw₀ : (0 : ℚ) ≤ fcvm / (fcvm + ec2 : ℕ) := by positivity
  have hw₁ : (fcvm : ℚ) / (fcvm + ec2 : ℕ) ≤ 1 := by
    rw [div_le_one hpos]
    exact_mod_cast Nat.le_add_right fcvm ec2
  simp only [sides, h.ne', ↓reduceIte]
  generalize (fcvm : ℚ) / (fcvm + ec2 : ℕ) = w at hw₀ hw₁ ⊢
  refine ⟨⟨le_rfl, ?_, le_rfl, le_rfl⟩, ⟨hw₀, ?_, le_rfl, le_rfl⟩, .inl ?_, ?_⟩
  · simpa using hw₁
  · simp
  · simp
  · simp [area]

theorem sides_width {fcvm ec2 : ℕ} (h : 0 < fcvm + ec2) :
    (sides fcvm ec2).1.w = fcvm / (fcvm + ec2 : ℕ) ∧ (sides fcvm ec2).2.w = ec2 / (fcvm + ec2 : ℕ) := by
  have hne : ((fcvm + ec2 : ℕ) : ℚ) ≠ 0 := by exact_mod_cast h.ne'
  simp only [sides, h.ne', ↓reduceIte, true_and]
  rw [eq_div_iff hne, sub_mul, div_mul_cancel₀ _ hne]
  push_cast
  ring

end Fcvm.FleetCore
