import Fcvm.WorkingSet.PageSet

/-! The runs of a page set (`PageSet::next_set`, `next_clear` and `RunIter`). -/

namespace Fcvm.WorkingSet

open List

def trailingZeros (w : BitVec 64) : ℕ := (range 64).findIdx w.getLsbD

theorem trailingZeros_spec {w : BitVec 64} (h : w ≠ 0) :
    w.getLsbD (trailingZeros w) = true ∧ ∀ i < trailingZeros w, w.getLsbD i = false := by
  have hsome : ∃ i ∈ range 64, w.getLsbD i = true := by
    by_contra hnone
    apply h
    apply BitVec.eq_of_getLsbD_eq
    intro i hi
    simpa using fun hbit => hnone ⟨i, mem_range.2 hi, hbit⟩
  have hlt : (range 64).findIdx w.getLsbD < (range 64).length := findIdx_lt_length.2 hsome
  constructor
  · have hfound := findIdx_getElem (w := hlt)
    rwa [getElem_range hlt] at hfound
  · intro i hi
    simpa using not_of_lt_findIdx hi

structure Run where
  offset : ℕ
  len : ℕ
deriving DecidableEq

namespace PageSet

variable {s : PageSet}

/-- The scan that `next_set` and `next_clear` make, over the words as they are and inverted. -/
def scan (s : PageSet) (f : BitVec 64 → BitVec 64) (granule : ℕ) : Option ℕ :=
  if granule < s.granules then
    let word := f (s.words.getD (granule / 64) 0) >>> (granule % 64)
    if word ≠ 0 then some (granule + trailingZeros word) else scan s f ((granule / 64 + 1) * 64)
  else none
termination_by s.granules - granule
decreasing_by omega

def nextSet (s : PageSet) (granule : ℕ) : Option ℕ := (s.scan id granule).filter fun hit => hit < s.granules

def nextClear (s : PageSet) (granule : ℕ) : ℕ :=
  match s.scan (~~~ ·) granule with
  | some hit => min hit s.granules
  | none => s.granules

def asRun (a b : ℕ) : Run := ⟨a * GRANULE, (b - a) * GRANULE⟩

/-- `RunIter::next`: a run, and the cursor after it. -/
def nextRun (s : PageSet) (cursor : ℕ) : Option (Run × ℕ) :=
  match s.nextSet cursor with
  | none => none
  | some start => some (asRun start (s.nextClear start), s.nextClear start)

def runsFrom (s : PageSet) : ℕ → ℕ → List Run
  | 0, _ => []
  | fuel + 1, cursor =>
    match s.nextRun cursor with
    | none => []
    | some (run, cursor) => run :: runsFrom s fuel cursor

def runs (s : PageSet) : List Run := runsFrom s s.granules 0

/-- The runs the iterator yields from `cursor` on before it ends. -/
inductive Yields (s : PageSet) : ℕ → List Run → Prop
  | done (cursor : ℕ) (h : s.nextRun cursor = none) : Yields s cursor []
  | next {cursor after : ℕ} {run : Run} {runs : List Run} (h : s.nextRun cursor = some (run, after))
    (hrest : Yields s after runs) : Yields s cursor (run :: runs)

theorem scan_spec (s : PageSet) (f : BitVec 64 → BitVec 64) (granule : ℕ) :
    match s.scan f granule with
    | some hit => granule ≤ hit ∧ (f (s.words.getD (hit / 64) 0)).getLsbD (hit % 64) = true ∧
        ∀ g, granule ≤ g → g < hit → (f (s.words.getD (g / 64) 0)).getLsbD (g % 64) = false
    | none => ∀ g, granule ≤ g → g < s.granules → (f (s.words.getD (g / 64) 0)).getLsbD (g % 64) = false := by
  induction granule using scan.induct s f with
  | case1 granule hlt word hword =>
    obtain ⟨hhit, hbefore⟩ := trailingZeros_spec hword
    rw [scan, if_pos hlt, if_pos hword]
    simp only [word, BitVec.getLsbD_ushiftRight] at hhit hbefore ⊢
    generalize trailingZeros _ = zeros at *
    have hin := BitVec.lt_of_getLsbD hhit
    have hplace (i : ℕ) (hi : i ≤ zeros) :
        (granule + i) / 64 = granule / 64 ∧ (granule + i) % 64 = granule % 64 + i := by omega
    refine ⟨by omega, ?_, ?_⟩
    · rw [(hplace zeros (Nat.le_refl _)).1, (hplace zeros (Nat.le_refl _)).2]
      exact hhit
    · intro g hg hg'
      obtain ⟨i, rfl⟩ := Nat.exists_eq_add_of_le hg
      rw [(hplace i (by omega)).1, (hplace i (by omega)).2]
      exact hbefore i (by omega)
  | case2 granule hlt word hword ih =>
    rw [scan, if_pos hlt, if_neg hword]
    have hzero : ∀ g, granule ≤ g → g < (granule / 64 + 1) * 64 →
        (f (s.words.getD (g / 64) 0)).getLsbD (g % 64) = false := by
      intro g hg hg'
      have hbit : word.getLsbD (g - granule) = false := by
        rw [not_not.1 hword]
        exact BitVec.getLsbD_zero
      rw [BitVec.getLsbD_ushiftRight] at hbit
      rw [show g / 64 = granule / 64 by omega, show g % 64 = granule % 64 + (g - granule) by omega]
      exact hbit
    cases hscan : s.scan f ((granule / 64 + 1) * 64) with
    | some hit =>
      simp only [hscan] at ih ⊢
      refine ⟨by omega, ih.2.1, fun g hg hg' => ?_⟩
      rcases Nat.lt_or_ge g ((granule / 64 + 1) * 64) with h | h
      · exact hzero g hg h
      · exact ih.2.2 g h hg'
    | none =>
      simp only [hscan] at ih ⊢
      intro g hg hg'
      rcases Nat.lt_or_ge g ((granule / 64 + 1) * 64) with h | h
      · exact hzero g hg h
      · exact ih g h hg'
  | case3 granule hge =>
    rw [scan, if_neg hge]
    intro g hg hg'
    omega

theorem nextSet_spec (s : PageSet) (granule : ℕ) :
    match s.nextSet granule with
    | some hit => granule ≤ hit ∧ s.contains hit = true ∧ ∀ g, granule ≤ g → g < hit → s.contains g = false
    | none => ∀ g, granule ≤ g → s.contains g = false := by
  have hscan := scan_spec s id granule
  simp only [nextSet]
  cases h : s.scan id granule with
  | none =>
    rw [h] at hscan
    intro g hg
    simpa [contains, bit] using hscan g hg
  | some hit =>
    rw [h] at hscan
    obtain ⟨hle, hbit, hbefore⟩ := hscan
    by_cases hin : hit < s.granules
    · simp only [Option.filter_some, hin, decide_true, if_true]
      refine ⟨hle, by simpa [contains, bit, hin] using hbit, fun g hg hg' => ?_⟩
      simpa [contains, bit] using fun _ => hbefore g hg hg'
    · simp only [Option.filter_some, hin, decide_false, Bool.false_eq_true, if_false]
      intro g hg
      simpa [contains, bit] using fun hlt => hbefore g hg (by omega)

theorem nextClear_spec {granule : ℕ} (h : granule < s.granules) :
    granule ≤ s.nextClear granule ∧ s.nextClear granule ≤ s.granules ∧ s.contains (s.nextClear granule) = false ∧
      ∀ g, granule ≤ g → g < s.nextClear granule → s.contains g = true := by
  have hscan := scan_spec s (~~~ ·) granule
  have hnot (g : ℕ) : (~~~ s.words.getD (g / 64) 0).getLsbD (g % 64) = !bit s.words g := by
    simp [bit, Nat.mod_lt]
  simp only [hnot, Bool.not_eq_eq_eq_not, Bool.not_true, Bool.not_false] at hscan
  simp only [nextClear]
  cases hs : s.scan (~~~ ·) granule with
  | none =>
    rw [hs] at hscan
    refine ⟨Nat.le_of_lt h, Nat.le_refl _, by simp [contains], fun g hg hg' => ?_⟩
    simpa [contains, hg'] using hscan g hg hg'
  | some hit =>
    rw [hs] at hscan
    obtain ⟨hle, hbit, hbefore⟩ := hscan
    refine ⟨by simp only; omega, Nat.min_le_right _ _, ?_, fun g hg hg' => ?_⟩
    · rcases Nat.le_total hit s.granules with hin | hin
      · simp only [Nat.min_eq_left hin, contains, hbit, Bool.and_false]
      · simp [Nat.min_eq_right hin, contains]
    · have hlt : g < hit ∧ g < s.granules := by simp only at hg'; omega
      simpa [contains, hlt.2] using hbefore g hg hlt.1

/-- A maximal run of granules in the set, from `a` to `b`. -/
structure IsRun (s : PageSet) (a b : ℕ) : Prop where
  lt : a < b
  within : b ≤ s.granules
  all : ∀ g, a ≤ g → g < b → s.contains g = true
  last : s.contains b = false
  first : ∀ g, g + 1 = a → s.contains g = false

theorem IsRun.eq {a b a' b' : ℕ} (h : IsRun s a b) (h' : IsRun s a' b') (hfirst : a' ≤ a) (hlast : a < b') :
    a = a' ∧ b = b' := by
  have hstart : a = a' := by
    by_contra hne
    have hset := h'.all (a - 1) (by omega) (by omega)
    rw [h.first (a - 1) (by omega)] at hset
    cases hset
  refine ⟨hstart, ?_⟩
  have hlt := h.lt
  rcases Nat.lt_trichotomy b b' with hb | hb | hb
  · have hset := h'.all b (by omega) hb
    rw [h.last] at hset
    cases hset
  · exact hb
  · have hset := h.all b' (by omega) hb
    rw [h'.last] at hset
    cases hset

theorem nextRun_spec {cursor : ℕ} (hcursor : cursor = 0 ∨ s.contains cursor = false) :
    match s.nextRun cursor with
    | none => ∀ g, cursor ≤ g → s.contains g = false
    | some (run, after) => ∃ start, run = asRun start after ∧ cursor ≤ start ∧ IsRun s start after ∧
        ∀ g, cursor ≤ g → g < start → s.contains g = false := by
  have hset := nextSet_spec s cursor
  rw [nextRun]
  cases hstart : s.nextSet cursor with
  | none =>
    rw [hstart] at hset
    exact hset
  | some start =>
    rw [hstart] at hset
    obtain ⟨hle, hin, hbefore⟩ := hset
    have hlt : start < s.granules := by
      simp only [contains, Bool.and_eq_true, decide_eq_true_eq] at hin
      exact hin.1
    obtain ⟨hge, hwithin, hclear, hrun⟩ := nextClear_spec hlt
    have hpos : start ≠ s.nextClear start := by
      intro heq
      rw [← heq, hin] at hclear
      cases hclear
    refine ⟨start, rfl, hle, ⟨by omega, hwithin, hrun, hclear, fun g hg => ?_⟩, hbefore⟩
    rcases Nat.lt_or_ge g cursor with hlow | hlow
    · -- the run begins at the cursor, which is clear unless it is the beginning
      obtain rfl : start = cursor := by omega
      rcases hcursor with rfl | hcursor
      · omega
      · rw [hcursor] at hin
        cases hin
    · exact hbefore g hlow (by omega)

theorem yields_runsFrom {fuel cursor : ℕ} (hfuel : s.granules - cursor ≤ fuel)
    (hcursor : cursor = 0 ∨ s.contains cursor = false) : Yields s cursor (runsFrom s fuel cursor) := by
  induction fuel generalizing cursor with
  | zero =>
    apply Yields.done
    have hnext := nextRun_spec hcursor
    cases h : s.nextRun cursor with
    | none => rfl
    | some next =>
      rw [h] at hnext
      obtain ⟨start, -, hle, hrun, -⟩ := hnext
      have := hrun.lt
      have := hrun.within
      omega
  | succ fuel ih =>
    have hnext := nextRun_spec hcursor
    rw [runsFrom]
    cases h : s.nextRun cursor with
    | none => exact .done cursor h
    | some next =>
      rw [h] at hnext
      obtain ⟨start, -, hle, hrun, -⟩ := hnext
      have hlt := hrun.lt
      exact .next h (ih (by omega) (.inr hrun.last))

theorem Yields.spans {cursor : ℕ} {runs : List Run} (h : Yields s cursor runs)
    (hcursor : cursor = 0 ∨ s.contains cursor = false) :
    ∃ spans : List (ℕ × ℕ), runs = spans.map (fun x => asRun x.1 x.2) ∧ spans.Pairwise (fun x y => x.2 < y.1) ∧
      (∀ x ∈ spans, cursor ≤ x.1 ∧ IsRun s x.1 x.2) ∧
      ∀ g, cursor ≤ g → s.contains g = true → ∃ x ∈ spans, x.1 ≤ g ∧ g < x.2 := by
  induction h with
  | done cursor h =>
    have hnone := nextRun_spec hcursor
    rw [h] at hnone
    refine ⟨[], rfl, .nil, by simp, fun g hg hin => ?_⟩
    rw [hnone g hg] at hin
    cases hin
  | @next cursor after run runs h hrest ih =>
    have hnext := nextRun_spec hcursor
    rw [h] at hnext
    obtain ⟨start, rfl, hle, hrun, hbefore⟩ := hnext
    obtain ⟨spans, rfl, hsorted, hruns, hall⟩ := ih (.inr hrun.last)
    have hlt := hrun.lt
    refine ⟨(start, after) :: spans, rfl, .cons (fun x hx => ?_) hsorted, fun x hx => ?_, fun g hg hin => ?_⟩
    · obtain ⟨hx, hisrun⟩ := hruns x hx
      have hne : x.1 ≠ after := by
        intro heq
        have hin := hisrun.all x.1 (Nat.le_refl _) hisrun.lt
        rw [heq, hrun.last] at hin
        cases hin
      simp only
      omega
    · rcases mem_cons.1 hx with rfl | hx
      · exact ⟨hle, hrun⟩
      · exact ⟨by have := (hruns x hx).1; omega, (hruns x hx).2⟩
    · rcases Nat.lt_or_ge g start with hlow | hlow
      · rw [hbefore g hg hlow] at hin
        cases hin
      · rcases Nat.lt_or_ge g after with hhigh | hhigh
        · exact ⟨(start, after), mem_cons_self, hlow, hhigh⟩
        · obtain ⟨x, hx, hmem⟩ := hall g hhigh hin
          exact ⟨x, mem_cons_of_mem _ hx, hmem⟩

theorem runs_spec (s : PageSet) :
    ∃ spans : List (ℕ × ℕ), s.runs = spans.map (fun x => asRun x.1 x.2) ∧ Yields s 0 s.runs ∧
      spans.Pairwise (fun x y => x.2 < y.1) ∧ (∀ a b, (a, b) ∈ spans ↔ IsRun s a b) ∧
      ∀ g, s.contains g = true → ∃ x ∈ spans, x.1 ≤ g ∧ g < x.2 := by
  have hyields : Yields s 0 s.runs := yields_runsFrom (by omega) (.inl rfl)
  obtain ⟨spans, heq, hsorted, hruns, hall⟩ := hyields.spans (.inl rfl)
  refine ⟨spans, heq, hyields, hsorted, ?_, fun g => hall g (Nat.zero_le _)⟩
  intro a b
  constructor
  · exact fun h => (hruns _ h).2
  · intro h
    obtain ⟨⟨a', b'⟩, hx, hfirst, hlast⟩ := hall a (Nat.zero_le _) (h.all a (Nat.le_refl _) h.lt)
    obtain ⟨rfl, rfl⟩ := h.eq (hruns _ hx).2 hfirst hlast
    exact hx

end PageSet

end Fcvm.WorkingSet
