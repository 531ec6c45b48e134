import Mathlib.Algebra.Order.Floor.Div
import Mathlib.Data.Nat.Notation
import Mathlib.Tactic.Ring

namespace Fcvm.Uffd

def CHUNK_BYTES : ℕ := 2 * 1024 * 1024

def ADDRESSES : ℕ := 2 ^ 64

/-- The granules of a clone's memory that its balloon has given back, one bit each. -/
structure RemovedPages where
  bits : List (BitVec 64)
  marked : ℕ
  deriving DecidableEq

namespace RemovedPages

def empty : RemovedPages := ⟨[], 0⟩

def mask (start upto : ℕ) : BitVec 64 := (BitVec.allOnes 64 >>> (64 - (upto - start))) <<< start

def countOnes (word : BitVec 64) : ℕ := (List.range 64).countP fun i => word.getLsbD i

def markFrom (pastLast : ℕ) : ℕ → ℕ → RemovedPages → RemovedPages
  | 0, _, removed => removed
  | fuel + 1, granule, removed =>
    if granule < pastLast then
      match removed.bits[granule / 64]? with
      | none => removed
      | some word =>
        let start := granule % 64
        let upto := min (pastLast - granule + start) 64
        markFrom pastLast fuel (granule + (upto - start))
          ⟨removed.bits.set (granule / 64) (word ||| mask start upto),
            removed.marked + countOnes (mask start upto &&& ~~~word)⟩
    else removed

def insertRange (removed : RemovedPages) (fileOffset len pageSize memSize : ℕ) : RemovedPages :=
  if ADDRESSES ≤ fileOffset + len then removed
  else
    let first := fileOffset ⌈/⌉ pageSize
    let pastLast := min (fileOffset + len) memSize / pageSize
    if pastLast ≤ first then removed
    else
      let bits := if removed.bits = [] then List.replicate (memSize ⌈/⌉ pageSize ⌈/⌉ 64) 0 else removed.bits
      markFrom pastLast (pastLast - first) first ⟨bits, removed.marked⟩

def has (removed : RemovedPages) (granule : ℕ) : Bool :=
  removed.bits[granule / 64]?.any fun word => word.getLsbD (granule % 64)

def contains (removed : RemovedPages) (fileOffset pageSize : ℕ) : Bool := removed.has (fileOffset / pageSize)

def sameFrom (removed : RemovedPages) (inside : Bool) : ℕ → ℕ → ℕ
  | _, 0 => 0
  | granule, limit + 1 =>
    if removed.has granule = inside then removed.sameFrom inside (granule + 1) limit + 1 else 0

def runAt (removed : RemovedPages) (fileOffset maxLen pageSize : ℕ) : Bool × ℕ :=
  if removed.marked = 0 then (false, maxLen)
  else
    let maxLen := min maxLen CHUNK_BYTES
    let first := fileOffset / pageSize
    let inside := removed.has first
    let run := 1 + removed.sameFrom inside (first + 1) (maxLen ⌈/⌉ pageSize - 1)
    (inside, min (run * pageSize) maxLen)

theorem getLsbD_mask {start upto : ℕ} (h : start ≤ upto) (hupto : upto ≤ 64) (i : ℕ) :
    (mask start upto).getLsbD i = true ↔ start ≤ i ∧ i < upto := by
  simp only [mask, BitVec.getLsbD_shiftLeft, BitVec.getLsbD_ushiftRight, BitVec.getLsbD_allOnes, Bool.and_eq_true,
    Bool.not_eq_true', decide_eq_true_eq, decide_eq_false_iff_not]
  omega

theorem countOnes_pos {word : BitVec 64} {i : ℕ} (hi : i < 64) (h : word.getLsbD i = true) : 0 < countOnes word :=
  List.countP_pos_iff.mpr ⟨i, List.mem_range.mpr hi, h⟩

theorem has_set {bits : List (BitVec 64)} {word word' : BitVec 64} {k marked marked' : ℕ} (hk : bits[k]? = some word)
    (granule : ℕ) : has ⟨bits.set k word', marked'⟩ granule =
      if granule / 64 = k then word'.getLsbD (granule % 64) else has ⟨bits, marked⟩ granule := by
  have hlt := (List.getElem?_eq_some_iff.mp hk).1
  unfold has
  dsimp only
  split
  · next heq =>
    rw [heq, List.getElem?_set_self hlt]
    rfl
  · next hne => rw [List.getElem?_set_ne (Ne.symm hne)]

theorem markFrom_spec {pastLast fuel granule : ℕ} {removed : RemovedPages} (hfuel : pastLast - granule ≤ fuel)
    (hfits : pastLast ≤ 64 * removed.bits.length) :
    (markFrom pastLast fuel granule removed).bits.length = removed.bits.length ∧
      (∀ g, (markFrom pastLast fuel granule removed).has g = true ↔ removed.has g = true ∨ granule ≤ g ∧ g < pastLast) ∧
      removed.marked ≤ (markFrom pastLast fuel granule removed).marked ∧
      ((markFrom pastLast fuel granule removed).marked = 0 → ∀ g, granule ≤ g → g < pastLast →
        removed.has g = true) := by
  induction fuel generalizing granule removed with
  | zero =>
    refine ⟨rfl, fun g => ?_, le_rfl, fun _ g hg hlt => ?_⟩
    · simp only [markFrom]
      constructor
      · exact .inl
      · rintro (h | h)
        · exact h
        · omega
    · omega
  | succ fuel ih =>
    unfold markFrom
    split
    · next hlt =>
      have hk : granule / 64 < removed.bits.length := by omega
      obtain ⟨word, hword⟩ : ∃ word, removed.bits[granule / 64]? = some word := ⟨_, List.getElem?_eq_getElem hk⟩
      rw [hword]
      dsimp only
      generalize hupto : min (pastLast - granule + granule % 64) 64 = upto
      have hstart : granule % 64 < upto := by omega
      have hupto64 : upto ≤ 64 := by omega
      have hstep := @ih (granule + (upto - granule % 64))
        ⟨removed.bits.set (granule / 64) (word ||| mask (granule % 64) upto),
          removed.marked + countOnes (mask (granule % 64) upto &&& ~~~word)⟩ (by omega)
        (by rw [List.length_set]; exact hfits)
      obtain ⟨hlen, hhas, hmarked, hzero⟩ := hstep
      have hnew : ∀ g, has ⟨removed.bits.set (granule / 64) (word ||| mask (granule % 64) upto),
          removed.marked + countOnes (mask (granule % 64) upto &&& ~~~word)⟩ g = true ↔
            removed.has g = true ∨ granule ≤ g ∧ g < granule + (upto - granule % 64) := by
        intro g
        rw [@has_set _ _ _ _ removed.marked _ hword]
        split
        · next heq =>
          have hold : removed.has g = word.getLsbD (g % 64) := by
            rw [has, heq, hword]
            rfl
          rw [BitVec.getLsbD_or, Bool.or_eq_true, getLsbD_mask hstart.le hupto64, hold]
          apply or_congr_right
          omega
        · next hne =>
          change removed.has g = true ↔ _
          constructor
          · exact .inl
          · rintro (h | h)
            · exact h
            · omega
      refine ⟨by rw [hlen, List.length_set], fun g => ?_, (Nat.le_add_right _ _).trans hmarked, fun hz g hg hglt => ?_⟩
      · rw [hhas, hnew, or_assoc]
        apply or_congr_right
        omega
      · have hsum : removed.marked + countOnes (mask (granule % 64) upto &&& ~~~word) = 0 :=
          Nat.le_zero.mp (hz ▸ hmarked)
        by_cases hin : g < granule + (upto - granule % 64)
        · -- a bit that was not set would have been counted
          have hgk : g / 64 = granule / 64 := by omega
          rw [has, hgk, hword]
          cases hbit : word.getLsbD (g % 64)
          case true => exact hbit
          have hpos : 0 < countOnes (mask (granule % 64) upto &&& ~~~word) := by
            refine countOnes_pos (Nat.mod_lt g (by omega)) ?_
            rw [BitVec.getLsbD_and, Bool.and_eq_true, getLsbD_mask hstart.le hupto64, BitVec.getLsbD_not, hbit]
            refine ⟨by omega, ?_⟩
            simp only [Bool.not_false, Bool.and_true, decide_eq_true_eq]
            omega
          omega
        · have := hzero hz g (by omega) hglt
          rw [hnew] at this
          rcases this with h | h
          · exact h
          · omega
    · next hge =>
      refine ⟨rfl, fun g => ?_, le_rfl, fun _ g hg hlt => by omega⟩
      constructor
      · exact .inl
      · rintro (h | h)
        · exact h
        · omega

/-- The set is as the insertions leave it: as many bits as the image has granules, and none of them where the count
is 0. -/
structure Sound (removed : RemovedPages) (pageSize memSize : ℕ) : Prop where
  sized : removed.bits = [] ∨ memSize ⌈/⌉ pageSize ≤ 64 * removed.bits.length
  counted : removed.marked = 0 → ∀ g, removed.has g = false

theorem sound_empty (pageSize memSize : ℕ) : empty.Sound pageSize memSize := ⟨.inl rfl, fun _ _ => rfl⟩

theorem has_replicate_zero (n marked g : ℕ) : has ⟨List.replicate n 0, marked⟩ g = false := by
  unfold has
  dsimp only
  rw [List.getElem?_replicate]
  split
  · simp
  · rfl

theorem insertRange_spec {removed : RemovedPages} {pageSize memSize fileOffset len : ℕ} (hpage : 0 < pageSize)
    (h : removed.Sound pageSize memSize) (hfits : fileOffset + len < ADDRESSES) :
    (removed.insertRange fileOffset len pageSize memSize).Sound pageSize memSize ∧
      ∀ g, (removed.insertRange fileOffset len pageSize memSize).has g = true ↔
        removed.has g = true ∨ fileOffset ⌈/⌉ pageSize ≤ g ∧ g < min (fileOffset + len) memSize / pageSize := by
  unfold insertRange
  rw [if_neg (Nat.not_le.mpr hfits)]
  dsimp only
  split
  · next hle =>
    refine ⟨h, fun g => ⟨.inl, ?_⟩⟩
    rintro (hg | hg)
    · exact hg
    · omega
  · next hlt =>
    generalize hbits : (if removed.bits = [] then List.replicate (memSize ⌈/⌉ pageSize ⌈/⌉ 64) 0 else removed.bits) =
      bits
    have hsame : ∀ g, has ⟨bits, removed.marked⟩ g = removed.has g := by
      intro g
      rw [← hbits]
      split
      · next hnil =>
        rw [has_replicate_zero, has, hnil]
        rfl
      · rfl
    have hsized : memSize ⌈/⌉ pageSize ≤ 64 * bits.length := by
      rw [← hbits]
      split
      · rw [List.length_replicate, Nat.ceilDiv_eq_add_pred_div (memSize ⌈/⌉ pageSize)]
        omega
      · next hne => exact h.sized.resolve_left hne
    have hlast : min (fileOffset + len) memSize / pageSize ≤ 64 * bits.length := by
      refine le_trans ?_ hsized
      rw [Nat.ceilDiv_eq_add_pred_div]
      apply Nat.div_le_div_right
      omega
    obtain ⟨hlen, hhas, hmarked, hzero⟩ := @markFrom_spec (min (fileOffset + len) memSize / pageSize)
      (min (fileOffset + len) memSize / pageSize - fileOffset ⌈/⌉ pageSize) (fileOffset ⌈/⌉ pageSize)
      ⟨bits, removed.marked⟩ le_rfl hlast
    refine ⟨⟨.inr ?_, fun hz g => ?_⟩, fun g => ?_⟩
    · rw [hlen]
      exact hsized
    · have hold : removed.marked = 0 := by
        have : removed.marked ≤ _ := hmarked
        omega
      rw [Bool.eq_false_iff, ne_eq, hhas, hsame]
      rintro (hg | hg)
      · simp [h.counted hold g] at hg
      · have hg' := hzero hz g hg.1 hg.2
        simp [hsame, h.counted hold g] at hg'
    · rw [hhas, hsame]

theorem has_of_lt_sameFrom {removed : RemovedPages} {inside : Bool} {granule limit k : ℕ}
    (h : k < removed.sameFrom inside granule limit) : removed.has (granule + k) = inside := by
  induction limit generalizing granule k with
  | zero => cases h
  | succ limit ih =>
    unfold sameFrom at h
    split at h
    · next hsame =>
      cases k with
      | zero => exact hsame
      | succ k =>
        have := ih (Nat.lt_of_succ_lt_succ h)
        rwa [Nat.add_right_comm] at this
    · cases h

def Clear (removed : RemovedPages) (pageSize fileOffset len : ℕ) : Prop :=
  ∀ g, fileOffset ≤ g * pageSize → g * pageSize < fileOffset + len → removed.has g = false

theorem Clear.mono {removed : RemovedPages} {pageSize offset len offset' len' : ℕ}
    (h : removed.Clear pageSize offset len) (hstart : offset ≤ offset') (hend : offset' + len' ≤ offset + len) :
    removed.Clear pageSize offset' len' :=
  fun g hg hlt => h g (hstart.trans hg) (hlt.trans_le hend)

/-- A set that counts no granule has none. -/
def Counted (removed : RemovedPages) : Prop := removed.marked = 0 → ∀ g, removed.has g = false

theorem dvd_runLen {pageSize maxLen : ℕ} (run : ℕ) (hdvd : pageSize ∣ maxLen) (hchunk : pageSize ∣ CHUNK_BYTES) :
    pageSize ∣ min (run * pageSize) (min maxLen CHUNK_BYTES) := by
  have hmin {a b : ℕ} (ha : pageSize ∣ a) (hb : pageSize ∣ b) : pageSize ∣ min a b := by
    rcases min_choice a b with hm | hm
    · rwa [hm]
    · rwa [hm]
  exact hmin (Nat.dvd_mul_left _ _) (hmin hdvd hchunk)

theorem runAt_spec {removed : RemovedPages} {pageSize fileOffset maxLen : ℕ} (hpage : 0 < pageSize)
    (h : removed.Counted) (haligned : pageSize ∣ fileOffset) :
    (removed.runAt fileOffset maxLen pageSize).2 ≤ maxLen ∧
      (pageSize ∣ maxLen → pageSize ∣ CHUNK_BYTES → pageSize ∣ (removed.runAt fileOffset maxLen pageSize).2) ∧
      ∀ g, fileOffset ≤ g * pageSize → g * pageSize < fileOffset + (removed.runAt fileOffset maxLen pageSize).2 →
        removed.has g = (removed.runAt fileOffset maxLen pageSize).1 := by
  unfold runAt
  split
  · next hz => exact ⟨le_rfl, fun hdvd _ => hdvd, fun g _ _ => h hz g⟩
  · dsimp only
    refine ⟨(min_le_right _ _).trans (min_le_left _ _), dvd_runLen _, fun g hg hlt => ?_⟩
    obtain ⟨first, rfl⟩ := haligned
    rw [Nat.mul_div_cancel_left _ hpage] at hlt ⊢
    rw [Nat.mul_comm] at hg
    have hfirst : first ≤ g := Nat.le_of_mul_le_mul_right hg hpage
    obtain ⟨k, rfl⟩ := Nat.exists_eq_add_of_le hfirst
    have hk : k < 1 + removed.sameFrom (removed.has first) (first + 1) (min maxLen CHUNK_BYTES ⌈/⌉ pageSize - 1) := by
      have hbound := lt_of_lt_of_le hlt (Nat.add_le_add_left (min_le_left _ _) _)
      rw [Nat.mul_comm pageSize first, ← Nat.add_mul] at hbound
      have := Nat.lt_of_mul_lt_mul_right hbound
      omega
    cases k with
    | zero => rfl
    | succ k =>
      rw [Nat.add_comm 1] at hk
      have := has_of_lt_sameFrom (Nat.lt_of_succ_lt_succ hk)
      rwa [Nat.add_right_comm] at this

theorem runAt_pos {removed : RemovedPages} {pageSize fileOffset maxLen : ℕ} (hpage : 0 < pageSize) (hlen : 0 < maxLen) :
    0 < (removed.runAt fileOffset maxLen pageSize).2 := by
  unfold runAt
  split
  · exact hlen
  · have hchunk : 0 < CHUNK_BYTES := by decide
    exact lt_min (Nat.mul_pos (by omega) hpage) (lt_min hlen hchunk)

/-- A page is given back exactly when one of the ranges that were, and whose end is an address, holds all of it. -/
theorem removed_pages_are_the_whole_ones {pageSize : ℕ} (hpage : 0 < pageSize) (memSize : ℕ) (ranges : List (ℕ × ℕ)) :
    let removed : RemovedPages := ranges.foldl (fun removed r => removed.insertRange r.1 r.2 pageSize memSize) empty
    (∀ g, removed.has g = true ↔ ∃ r ∈ ranges, r.1 + r.2 < ADDRESSES ∧ r.1 ≤ pageSize * g ∧
      (g + 1) * pageSize ≤ min (r.1 + r.2) memSize) ∧
    ∀ fileOffset maxLen, pageSize ∣ fileOffset → 0 < maxLen →
      let run := removed.runAt fileOffset maxLen pageSize
      0 < run.2 ∧ run.2 ≤ maxLen ∧
        ∀ g, fileOffset ≤ g * pageSize → g * pageSize < fileOffset + run.2 → removed.has g = run.1 := by
  have hrun : ∀ removed : RemovedPages, removed.Sound pageSize memSize →
      let after := ranges.foldl (fun removed r => removed.insertRange r.1 r.2 pageSize memSize) removed
      after.Sound pageSize memSize ∧ ∀ g, after.has g = true ↔ removed.has g = true ∨ ∃ r ∈ ranges,
        r.1 + r.2 < ADDRESSES ∧ r.1 ≤ pageSize * g ∧ (g + 1) * pageSize ≤ min (r.1 + r.2) memSize := by
    induction ranges with
    | nil => exact fun removed h => ⟨h, by simp⟩
    | cons r ranges ih =>
      intro removed h
      by_cases hfits : r.1 + r.2 < ADDRESSES
      · obtain ⟨hsound, hhas⟩ := insertRange_spec hpage h hfits
        obtain ⟨hlast, hafter⟩ := ih _ hsound
        refine ⟨hlast, fun g => ?_⟩
        rw [List.foldl_cons, hafter, hhas, ceilDiv_le_iff_le_mul hpage, Nat.lt_iff_add_one_le,
          Nat.le_div_iff_mul_le hpage]
        simp [hfits, or_assoc]
      · have hsame : removed.insertRange r.1 r.2 pageSize memSize = removed := if_pos (Nat.le_of_not_lt hfits)
        rw [List.foldl_cons, hsame]
        simpa [hfits] using ih removed h
  obtain ⟨hsound, hhas⟩ := hrun empty (sound_empty _ _)
  refine ⟨fun g => ?_, fun fileOffset maxLen haligned hlen => ?_⟩
  · rw [hhas]
    simp [has, empty]
  · obtain ⟨hle, -, hsame⟩ := runAt_spec hpage hsound.counted haligned
    exact ⟨runAt_pos hpage hlen, hle, hsame⟩

theorem removed_pages_are_the_whole_ones_secondPage :
    ([(100, 12188)].foldl (fun removed r => removed.insertRange r.1 r.2 4096 16384) empty).has 1 = true :=
  ((removed_pages_are_the_whole_ones (by decide) 16384 _).1 1).mpr ⟨_, List.mem_singleton_self _, by decide⟩

end RemovedPages

end Fcvm.Uffd
