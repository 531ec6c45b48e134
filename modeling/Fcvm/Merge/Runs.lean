import Mathlib.Data.List.Chain
import Mathlib.Data.Nat.Notation

namespace Fcvm.Merge

open List

variable {a b at_ : ℕ} {runs : List (Range × Bool)}

def granule : ℕ := 4096

structure Range where
  start : ℕ
  stop : ℕ
deriving DecidableEq, Repr

def Range.len (r : Range) : ℕ := r.stop - r.start

def slice (data : List UInt8) (r : Range) : List UInt8 := (data.drop r.start).take r.len

/-- The granule that begins at `at_`: where it ends in `data`, and whether it is a whole granule of zeros. -/
def granuleAt (start : ℕ) (data : List UInt8) (at_ : ℕ) : ℕ × Bool :=
  let stop := min data.length (at_ + granule - (start + at_) % granule)
  (stop, stop - at_ == granule && slice data ⟨at_, stop⟩ == List.replicate granule 0)

def extendRun (start : ℕ) (data : List UInt8) (zero : Bool) : ℕ → ℕ → ℕ × Option (ℕ × Bool)
  | 0, stop => (stop, none)
  | fuel + 1, stop =>
    if stop < data.length then
      let next := granuleAt start data stop
      if next.2 != zero then (stop, some next) else extendRun start data zero fuel next.1
    else (stop, none)

def granuleRunsFrom (start : ℕ) (data : List UInt8) : ℕ → ℕ → Option (ℕ × Bool) → List (Range × Bool)
  | 0, _, _ => []
  | fuel + 1, at_, measured =>
    if at_ ≥ data.length then []
    else
      let first := measured.getD (granuleAt start data at_)
      let run := extendRun start data first.2 data.length first.1
      (⟨at_, run.1⟩, first.2) :: granuleRunsFrom start data fuel run.1 run.2

def granuleRuns (start : ℕ) (data : List UInt8) : List (Range × Bool) :=
  granuleRunsFrom start data data.length 0 none

def joinRuns : Option Range → List (Range × Bool) → List (Range × Bool)
  | none, [] => []
  | some run, [] => [(run, false)]
  | none, (next, true) :: runs => (next, true) :: joinRuns none runs
  | none, (next, false) :: runs => joinRuns (some next) runs
  | some run, (next, true) :: runs => (run, false) :: (next, true) :: joinRuns none runs
  | some run, (next, false) :: runs => joinRuns (some ⟨run.start, next.stop⟩) runs

def pieceRuns (start : ℕ) (data : List UInt8) (minPunch : ℕ) : List (Range × Bool) :=
  joinRuns none ((granuleRuns start data).map fun run => (run.1, run.2 && decide (run.1.len ≥ minPunch)))

def Tiles : ℕ → ℕ → List (Range × Bool) → Prop
  | a, b, [] => a = b
  | a, b, run :: runs => run.1.start = a ∧ a < run.1.stop ∧ Tiles run.1.stop b runs

def ZeroOn (data : List UInt8) (r : Range) : Prop := ∀ x, r.start ≤ x → x < r.stop → data[x]? = some 0

theorem ZeroOn.join {data : List UInt8} {c : ℕ} (h : ZeroOn data ⟨a, b⟩) (h' : ZeroOn data ⟨b, c⟩) :
    ZeroOn data ⟨a, c⟩ := by
  intro x ha hc
  rcases Nat.lt_or_ge x b with hb | hb
  · exact h x ha hb
  · exact h' x hb hc

variable {start : ℕ} {data : List UInt8}

theorem granuleAt_gt (start : ℕ) (h : at_ < data.length) : at_ < (granuleAt start data at_).1 := by
  have hmod : (start + at_) % granule < granule := Nat.mod_lt _ (by decide)
  simp only [granuleAt]
  omega

theorem granuleAt_le (at_ : ℕ) : (granuleAt start data at_).1 ≤ data.length := by
  simp only [granuleAt]
  omega

theorem granuleAt_zero (h : (granuleAt start data at_).2 = true) :
    ZeroOn data ⟨at_, (granuleAt start data at_).1⟩ := by
  simp only [granuleAt, Bool.and_eq_true, beq_iff_eq] at h ⊢
  obtain ⟨hlen, hslice⟩ := h
  have hpos : 0 < granule := by decide
  intro x hx hstop
  have hget : (slice data ⟨at_, at_ + granule⟩)[x - at_]? = (replicate granule (0 : UInt8))[x - at_]? := by
    rw [← hslice]
    congr 3
    omega
  have hlt : x - at_ < granule := by simp only at hx hstop; omega
  rw [slice, Range.len, getElem?_take_of_lt (by simp only; omega), getElem?_drop,
    getElem?_replicate, if_pos hlt] at hget
  rw [← hget]
  congr 1
  simp only at hx ⊢
  omega

theorem granuleAt_aligned (h : (granuleAt start data at_).2 = true) :
    granule ∣ start + at_ ∧ granule ∣ start + (granuleAt start data at_).1 := by
  simp only [granuleAt, granule, Bool.and_eq_true, beq_iff_eq] at h ⊢
  omega

/-- A run of whole granules of zeros, where the data begins at offset `start` of the file. -/
structure Zeros (start : ℕ) (data : List UInt8) (r : Range) : Prop where
  lt : r.start < r.stop
  first : granule ∣ start + r.start
  last : granule ∣ start + r.stop
  within : r.stop ≤ data.length
  zero : ZeroOn data r

theorem Zeros.granuleAt {r : Range} {x : ℕ} (h : Zeros start data r) (hx : granule ∣ start + x) (hfirst : r.start ≤ x)
    (hlast : x < r.stop) : (granuleAt start data x).2 = true := by
  have hwhole : x + granule ≤ r.stop := by
    have hstop := h.last
    simp only [granule] at *
    omega
  have hstop : min data.length (x + granule - (start + x) % granule) = x + granule := by
    have hwithin := h.within
    simp only [granule] at *
    omega
  simp only [Merge.granuleAt, hstop, Bool.and_eq_true, beq_iff_eq]
  refine ⟨by omega, ?_⟩
  apply ext_getElem?
  intro i
  simp only [slice, Range.len, Nat.add_sub_cancel_left, getElem?_take, getElem?_drop, getElem?_replicate]
  split
  case isTrue hi => exact h.zero (x + i) (by omega) (by omega)
  case isFalse => rfl

/-- From `a` to `b` the data is granules of one kind. -/
structure Alike (start : ℕ) (data : List UInt8) (a b : ℕ) (zero : Bool) : Prop where
  le : a ≤ b
  within : b ≤ data.length
  kind : ∀ x, a ≤ x → x < b → granule ∣ start + x → (granuleAt start data x).2 = zero
  zeros : zero = true → ZeroOn data ⟨a, b⟩ ∧ (granule ∣ start + a → granule ∣ start + b)

theorem Alike.refl (zero : Bool) (h : a ≤ data.length) : Alike start data a a zero where
  le := Nat.le_refl a
  within := h
  kind x ha hb := absurd hb (by omega)
  zeros _ := ⟨fun x ha hb => absurd hb (by simp only at ha ⊢; omega), id⟩

theorem Alike.granule (h : at_ < data.length) :
    Alike start data at_ (granuleAt start data at_).1 (granuleAt start data at_).2 where
  le := Nat.le_of_lt (granuleAt_gt start h)
  within := granuleAt_le at_
  kind x ha hb hx := by
    -- the next boundary after `at_` is where its granule ends
    obtain rfl : x = at_ := by
      simp only [granuleAt, Merge.granule] at *
      omega
    rfl
  zeros hz := ⟨granuleAt_zero hz, fun _ => (granuleAt_aligned hz).2⟩

theorem Alike.trans {c : ℕ} {zero : Bool} (h : Alike start data a b zero) (h' : Alike start data b c zero) :
    Alike start data a c zero where
  le := Nat.le_trans h.le h'.le
  within := h'.within
  kind x ha hc hx := by
    rcases Nat.lt_or_ge x b with hb | hb
    · exact h.kind x ha hb hx
    · exact h'.kind x hb hc hx
  zeros hz := ⟨(h.zeros hz).1.join (h'.zeros hz).1, fun ha => (h'.zeros hz).2 ((h.zeros hz).2 ha)⟩

theorem extendRun_spec (start : ℕ) (zero : Bool) {fuel stop : ℕ} (hfuel : data.length - stop ≤ fuel)
    (hstop : stop ≤ data.length) :
    Alike start data stop (extendRun start data zero fuel stop).1 zero ∧
      (∀ next, (extendRun start data zero fuel stop).2 = some next →
        next = granuleAt start data (extendRun start data zero fuel stop).1) ∧
      ((extendRun start data zero fuel stop).1 < data.length →
        (granuleAt start data (extendRun start data zero fuel stop).1).2 ≠ zero) := by
  induction fuel generalizing stop with
  | zero =>
    simp only [extendRun]
    exact ⟨.refl zero hstop, by simp, fun h => absurd h (by omega)⟩
  | succ fuel ih =>
    simp only [extendRun]
    split
    case isTrue hlt =>
      split
      case isTrue hne =>
        refine ⟨.refl zero hstop, ?_, fun _ => by simpa using hne⟩
        intro next hnext
        exact (Option.some.inj hnext).symm
      case isFalse heq =>
        have hzero : (granuleAt start data stop).2 = zero := by simpa using heq
        have hgt := granuleAt_gt start hlt
        have hleft : data.length - (granuleAt start data stop).1 ≤ fuel := by omega
        obtain ⟨hrun, hnext⟩ := ih hleft (granuleAt_le stop)
        exact ⟨(hzero ▸ Alike.granule hlt).trans hrun, hnext⟩
    case isFalse hge => exact ⟨.refl zero hstop, by simp, fun h => absurd h hge⟩

theorem granuleRunsFrom_spec {fuel : ℕ} {measured : Option (ℕ × Bool)} (hfuel : data.length - at_ ≤ fuel)
    (hat : at_ ≤ data.length) (hm : ∀ next, measured = some next → next = granuleAt start data at_) :
    Tiles at_ data.length (granuleRunsFrom start data fuel at_ measured) ∧
      (∀ run ∈ granuleRunsFrom start data fuel at_ measured, run.2 = true → Zeros start data run.1) ∧
      ∀ r, Zeros start data r → at_ ≤ r.start →
        ∃ run ∈ granuleRunsFrom start data fuel at_ measured, run.2 = true ∧ run.1.start ≤ r.start ∧
          r.stop ≤ run.1.stop := by
  induction fuel generalizing at_ measured with
  | zero =>
    refine ⟨by simp only [granuleRunsFrom, Tiles]; omega, by simp [granuleRunsFrom], ?_⟩
    intro r hr hle
    exact absurd hr.within (by have := hr.lt; omega)
  | succ fuel ih =>
    simp only [granuleRunsFrom]
    split
    case isTrue hge =>
      refine ⟨by simp only [Tiles]; omega, by simp, ?_⟩
      intro r hr hle
      exact absurd hr.within (by have := hr.lt; omega)
    case isFalse hlt =>
      have hfirst : measured.getD (granuleAt start data at_) = granuleAt start data at_ := by
        cases measured with
        | none => rfl
        | some next => exact hm next rfl
      simp only [hfirst]
      have hin : at_ < data.length := Nat.lt_of_not_le hlt
      have hgt := granuleAt_gt start hin
      have hlen : data.length - (granuleAt start data at_).1 ≤ data.length := by omega
      obtain ⟨hrest, hnext, hend⟩ := extendRun_spec start (granuleAt start data at_).2 hlen (granuleAt_le at_)
      generalize extendRun start data (granuleAt start data at_).2 data.length (granuleAt start data at_).1 = run at *
      have hrun := (Alike.granule hin).trans hrest
      have hle := hrest.le
      have hleft : data.length - run.1 ≤ fuel := by omega
      obtain ⟨htiles, hzeros, hcover⟩ := ih hleft hrun.within hnext
      refine ⟨⟨rfl, by simp only; omega, htiles⟩, ?_, ?_⟩
      · intro other hother hz
        rcases mem_cons.mp hother with rfl | hother
        · have haligned := granuleAt_aligned hz
          exact ⟨by simp only; omega, haligned.1, (hrun.zeros hz).2 haligned.1, hrun.within, (hrun.zeros hz).1⟩
        · exact hzeros other hother hz
      · intro r hr hat
        rcases Nat.lt_or_ge r.start run.1 with hlt | hge
        · have hz : (granuleAt start data at_).2 = true :=
            (hrun.kind r.start hat hlt hr.first).symm.trans (hr.granuleAt hr.first (Nat.le_refl _) hr.lt)
          refine ⟨_, mem_cons_self, hz, hat, ?_⟩
          by_contra hover
          -- the granule after the run is in `r`, so the run would not have ended before it
          have hafter := hr.granuleAt ((hrun.zeros hz).2 (granuleAt_aligned hz).1) (by omega) (by simpa using hover)
          apply hend _ (hafter.trans hz.symm)
          have hwithin := hr.within
          simp only at hover
          omega
        · obtain ⟨other, hother, h⟩ := hcover r hr hge
          exact ⟨other, mem_cons_of_mem _ hother, h⟩

theorem granuleRuns_spec (start : ℕ) (data : List UInt8) :
    Tiles 0 data.length (granuleRuns start data) ∧
      (∀ run ∈ granuleRuns start data, run.2 = true → Zeros start data run.1) ∧
      ∀ r, Zeros start data r → 0 ≤ r.start →
        ∃ run ∈ granuleRuns start data, run.2 = true ∧ run.1.start ≤ r.start ∧ r.stop ≤ run.1.stop :=
  granuleRunsFrom_spec (by omega) (by omega) (by simp)

theorem Tiles.start_le (h : Tiles a b runs) {run : Range × Bool} (hrun : run ∈ runs) :
    a ≤ run.1.start ∧ run.1.start < run.1.stop := by
  induction runs generalizing a with
  | nil => cases hrun
  | cons first runs ih =>
    obtain ⟨rfl, hlt, hrest⟩ := h
    rcases mem_cons.mp hrun with rfl | hrun
    · exact ⟨Nat.le_refl _, hlt⟩
    · have := ih hrest hrun
      omega

theorem Tiles.eq_of_start (h : Tiles a b runs) {run other : Range × Bool} (hrun : run ∈ runs) (hother : other ∈ runs)
    (hfirst : other.1.start ≤ run.1.start) (hlast : run.1.start < other.1.stop) : run = other := by
  induction runs generalizing a with
  | nil => cases hrun
  | cons first runs ih =>
    obtain ⟨rfl, hlt, hrest⟩ := h
    rcases mem_cons.mp hrun with rfl | hin
    · rcases mem_cons.mp hother with rfl | hin
      · rfl
      · have := (hrest.start_le hin).1
        omega
    · rcases mem_cons.mp hother with rfl | hin'
      · have := (hrest.start_le hin).1
        omega
      · exact ih hrest hin hin'

/-- A run of zeros that no other contains. -/
def MaximalZeros (start : ℕ) (data : List UInt8) (r : Range) : Prop :=
  Zeros start data r ∧ ∀ r', Zeros start data r' → r'.start ≤ r.start → r.stop ≤ r'.stop → r' = r

theorem granuleRuns_zero_iff {r : Range} : (r, true) ∈ granuleRuns start data ↔ MaximalZeros start data r := by
  obtain ⟨htiles, hzeros, hcover⟩ := granuleRuns_spec start data
  constructor
  · intro hr
    refine ⟨hzeros _ hr rfl, ?_⟩
    intro r' hr' hfirst hlast
    obtain ⟨run, hrun, -, hrunFirst, hrunLast⟩ := hcover r' hr' (Nat.zero_le _)
    have hlt : r.start < r.stop := (hzeros _ hr rfl).lt
    obtain rfl := htiles.eq_of_start hr hrun (Nat.le_trans hrunFirst hfirst) (by simp only; omega)
    obtain ⟨first, last⟩ := r
    obtain ⟨first', last'⟩ := r'
    simp only [Range.mk.injEq] at *
    omega
  · rintro ⟨hr, hmax⟩
    obtain ⟨⟨run, z⟩, hrun, rfl, hfirst, hlast⟩ := hcover r hr (Nat.zero_le _)
    rwa [← hmax run (hzeros _ hrun rfl) hfirst hlast]

def Joining (a : ℕ) : Option Range → ℕ → Prop
  | none, b => a = b
  | some run, b => run.start = a ∧ a < run.stop ∧ run.stop = b

theorem joinRuns_tiles {run : Option Range} {c : ℕ} (hj : Joining a run b)
    (h : Tiles b c runs) : Tiles a c (joinRuns run runs) := by
  induction runs generalizing run a b with
  | nil =>
    cases run with
    | none => exact hj.trans h
    | some run =>
      obtain ⟨h1, h2, h3⟩ := hj
      exact ⟨h1, h2, h3.trans h⟩
  | cons next runs ih =>
    obtain ⟨next, hole⟩ := next
    obtain ⟨h1, h2, h3⟩ : next.start = b ∧ b < next.stop ∧ Tiles next.stop c runs := h
    cases run with
    | none =>
      obtain rfl : a = b := hj
      cases hole with
      | true => exact ⟨h1, h2, ih rfl h3⟩
      | false => exact ih ⟨h1, h2, rfl⟩ h3
    | some run =>
      obtain ⟨g1, g2, g3⟩ := hj
      cases hole with
      | true => exact ⟨g1, g2, by simp only; omega, by simp only; omega, ih rfl h3⟩
      | false => exact ih ⟨g1, by simp only; omega, rfl⟩ h3

theorem joinRuns_hole {run : Option Range} {r : Range} : (r, true) ∈ joinRuns run runs ↔ (r, true) ∈ runs := by
  induction runs generalizing run with
  | nil => cases run <;> simp [joinRuns]
  | cons next runs ih =>
    obtain ⟨next, hole⟩ := next
    cases run <;> cases hole <;> simp [joinRuns, ih]

theorem joinRuns_chain (run : Option Range) (runs : List (Range × Bool)) :
    (joinRuns run runs).IsChain fun x y => x.2 = true ∨ y.2 = true := by
  induction runs generalizing run with
  | nil => cases run <;> simp [joinRuns]
  | cons next runs ih =>
    obtain ⟨next, hole⟩ := next
    have hhole : ((next, true) :: joinRuns none runs).IsChain fun x y => x.2 = true ∨ y.2 = true :=
      (ih none).cons fun _ _ => .inl rfl
    cases run with
    | none =>
      cases hole with
      | true => exact hhole
      | false => exact ih _
    | some run =>
      cases hole with
      | true => exact isChain_cons_cons.2 ⟨.inr rfl, hhole⟩
      | false => exact ih _

theorem map_tiles {f : Range × Bool → Bool} (h : Tiles a b runs) :
    Tiles a b (runs.map fun run => (run.1, f run)) := by
  induction runs generalizing a with
  | nil => exact h
  | cons run runs ih => exact ⟨h.1, h.2.1, ih h.2.2⟩

theorem pieceRuns_tiles (start : ℕ) (data : List UInt8) (minPunch : ℕ) :
    Tiles 0 data.length (pieceRuns start data minPunch) :=
  joinRuns_tiles rfl (map_tiles (granuleRuns_spec start data).1)

theorem pieceRuns_hole_iff {minPunch : ℕ} {r : Range} :
    (r, true) ∈ pieceRuns start data minPunch ↔ MaximalZeros start data r ∧ minPunch ≤ r.len := by
  rw [pieceRuns, joinRuns_hole, ← granuleRuns_zero_iff]
  simp

theorem pieceRuns_hole {minPunch : ℕ} {r : Range} (h : (r, true) ∈ pieceRuns start data minPunch) :
    ZeroOn data r := (pieceRuns_hole_iff.1 h).1.1.zero

end Fcvm.Merge
