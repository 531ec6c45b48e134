import Fcvm.Merge.Runs

namespace Fcvm.Merge

open List

variable {x offset start : ℕ} {writes : List MergeWrite}

structure Diff where
  bytes : List UInt8
  data : ℕ → Bool

structure MergeStats where
  diffBytes : ℕ
  runs : ℕ
  writes : ℕ
  punches : ℕ
  zeroBytes : ℕ
  unpunchedZeroBytes : ℕ
  workers : ℕ
deriving DecidableEq, Repr

def MergeStats.default : MergeStats := ⟨0, 0, 0, 0, 0, 0, 0⟩

def MergeStats.add (stats other : MergeStats) : MergeStats where
  diffBytes := stats.diffBytes + other.diffBytes
  runs := stats.runs + other.runs
  writes := stats.writes + other.writes
  punches := stats.punches + other.punches
  zeroBytes := stats.zeroBytes + other.zeroBytes
  unpunchedZeroBytes := stats.unpunchedZeroBytes + other.unpunchedZeroBytes
  workers := stats.workers

structure MergeWrite where
  start : ℕ
  stop : ℕ
deriving DecidableEq, Repr

def MergeWrite.bytes (w : MergeWrite) : ℕ := w.stop - w.start

namespace Diff

variable (d : Diff)

def size : ℕ := d.bytes.length

def readAt (w : MergeWrite) : List UInt8 := (d.bytes.drop w.start).take w.bytes

def seekData (offset : ℕ) : Option ℕ := (List.range' offset (d.size - offset)).find? d.data

def seekHole (offset : ℕ) : Option ℕ :=
  if offset < d.size then
    some (((List.range' offset (d.size - offset)).find? fun x => !d.data x).getD d.size)
  else none

def hasDataAt (offset : ℕ) : Bool := d.seekData offset == some offset

def windowLoop (start stop : ℕ) : ℕ → ℕ → Bool → MergeStats → List MergeWrite →
    Option (List MergeWrite × MergeStats)
  | 0, _, _, stats, writes => some (writes, stats)
  | fuel + 1, offset, begunBefore, stats, writes =>
    if offset < stop then
      match d.seekData offset with
      | none => some (writes, stats)
      | some dataStart =>
        if dataStart ≥ stop then some (writes, stats)
        else
          match d.seekHole dataStart with
          | none => none
          | some runEnd =>
            if runEnd > dataStart ∧ runEnd ≤ d.size then
              let dataEnd := min runEnd stop
              let stats := { stats with
                runs := if begunBefore && dataStart == start then stats.runs else stats.runs + 1
                diffBytes := stats.diffBytes + (dataEnd - dataStart)
                writes := stats.writes + 1 }
              windowLoop start stop fuel dataEnd false stats (writes ++ [⟨dataStart, dataEnd⟩])
            else none
    else some (writes, stats)

def windowWrites (index window : ℕ) (stats : MergeStats) : Option (List MergeWrite × MergeStats) :=
  let start := index * window
  let stop := min d.size (start + window)
  let begunBefore := decide (start > 0) && d.hasDataAt (start - 1)
  d.windowLoop start stop (stop - start) start begunBefore stats []

variable {d}

theorem readAt_getElem? {w : MergeWrite} (h : x < w.bytes) : (d.readAt w)[x]? = d.bytes[w.start + x]? := by
  rw [readAt, getElem?_take_of_lt h, getElem?_drop]

theorem find?_range'_spec {p : ℕ → Bool} {a n : ℕ} (h : (range' a n).find? p = some x) :
    a ≤ x ∧ x < a + n ∧ p x = true ∧ ∀ y, a ≤ y → y < x → p y = false := by
  induction n generalizing a with
  | zero => simp at h
  | succ n ih =>
    rw [range'_succ, find?_cons] at h
    split at h
    case h_1 hp =>
      cases h
      exact ⟨Nat.le_refl _, by omega, hp, fun y hy hlt => absurd hy (by omega)⟩
    case h_2 hp =>
      obtain ⟨h1, h2, h3, h4⟩ := ih h
      refine ⟨by omega, by omega, h3, fun y hy hlt => ?_⟩
      rcases Nat.eq_or_lt_of_le hy with rfl | hy
      · exact hp
      · exact h4 y hy hlt

theorem find?_range'_none {p : ℕ → Bool} {a n : ℕ} (h : (range' a n).find? p = none) :
    ∀ y, a ≤ y → y < a + n → p y = false := by
  intro y hy hlt
  have hnone := find?_eq_none.mp h y (by rw [mem_range'_1]; omega)
  simpa using hnone

theorem seekData_spec (h : d.seekData offset = some x) :
    offset ≤ x ∧ x < d.size ∧ d.data x = true ∧ ∀ y, offset ≤ y → y < x → d.data y = false := by
  obtain ⟨h1, h2, h3, h4⟩ := find?_range'_spec h
  exact ⟨h1, by omega, h3, h4⟩

theorem seekData_none (h : d.seekData offset = none) :
    ∀ y, offset ≤ y → y < d.size → d.data y = false :=
  fun y hy hlt => find?_range'_none h y hy (by omega)

theorem seekHole_spec (h : d.seekHole offset = some x) :
    x ≤ d.size ∧ ∀ y, offset ≤ y → y < x → d.data y = true := by
  simp only [seekHole] at h
  split at h
  case isFalse => cases h
  case isTrue hlt =>
    simp only [Option.some.injEq] at h
    subst h
    cases hf : (range' offset (d.size - offset)).find? fun x => !d.data x with
    | none =>
      refine ⟨by simp, fun y hy hy' => ?_⟩
      simpa using find?_range'_none hf y hy (by simp only [Option.getD_none] at hy'; omega)
    | some x =>
      obtain ⟨-, h2, -, h4⟩ := find?_range'_spec hf
      exact ⟨by simp only [Option.getD_some]; omega, fun y hy hy' => by simpa using h4 y hy hy'⟩

def IsPiece (d : Diff) (start stop : ℕ) (w : MergeWrite) : Prop :=
  start ≤ w.start ∧ w.start < w.stop ∧ w.stop ≤ stop ∧ ∀ x, w.start ≤ x → x < w.stop → d.data x = true

def Found (d : Diff) (start offset : ℕ) (writes : List MergeWrite) : Prop :=
  ∀ x, start ≤ x → x < offset → d.data x = true → ∃ w ∈ writes, w.start ≤ x ∧ x < w.stop

theorem Found.hole {offset' : ℕ} (h : Found d start offset writes)
    (hole : ∀ y, offset ≤ y → y < offset' → d.data y = false) : Found d start offset' writes := by
  intro x hx hlt hdata
  rcases Nat.lt_or_ge x offset with ho | ho
  · exact h x hx ho hdata
  · simp [hole x ho hlt] at hdata

theorem Found.piece {w : MergeWrite}
    (h : Found d start offset writes) (hw : w.start ≤ offset) : Found d start w.stop (writes ++ [w]) := by
  intro x hx hlt hdata
  rcases Nat.lt_or_ge x offset with ho | ho
  · obtain ⟨v, hv, hin⟩ := h x hx ho hdata
    exact ⟨v, mem_append_left _ hv, hin⟩
  · exact ⟨w, by simp, by omega, hlt⟩

theorem windowLoop_spec {stop fuel : ℕ} {begunBefore : Bool} {stats stats' : MergeStats}
    {writes' : List MergeWrite} (hstop : stop ≤ d.size) (hfuel : stop - offset ≤ fuel) (hstart : start ≤ offset)
    (hp : ∀ w ∈ writes, IsPiece d start stop w) (hf : Found d start offset writes)
    (h : d.windowLoop start stop fuel offset begunBefore stats writes = some (writes', stats')) :
    (∀ w ∈ writes', IsPiece d start stop w) ∧ Found d start stop writes' := by
  induction fuel generalizing offset begunBefore stats writes with
  | zero =>
    cases h
    exact ⟨hp, fun x hx hlt => hf x hx (by omega)⟩
  | succ fuel ih =>
    simp only [windowLoop] at h
    split at h
    case isFalse hge =>
      cases h
      exact ⟨hp, fun x hx hlt => hf x hx (by omega)⟩
    case isTrue hlt =>
      split at h
      case h_1 hnone =>
        cases h
        exact ⟨hp, hf.hole fun y hy hy' => seekData_none hnone y hy (by omega)⟩
      case h_2 dataStart hsome =>
        obtain ⟨h1, -, -, hgap⟩ := seekData_spec hsome
        split at h
        case isTrue hge =>
          cases h
          exact ⟨hp, hf.hole fun y hy hy' => hgap y hy (by omega)⟩
        case isFalse hin =>
          split at h
          case h_1 => cases h
          case h_2 runEnd hrun =>
            obtain ⟨-, hdata⟩ := seekHole_spec hrun
            split at h
            case isFalse => cases h
            case isTrue hok =>
              refine ih (by omega) (by omega) ?_ ?_ h
              · intro w hw
                rcases mem_append.mp hw with hw | hw
                · exact hp w hw
                · simp only [mem_singleton] at hw
                  subst hw
                  refine ⟨by simp only; omega, by simp only; omega, by simp only; omega, ?_⟩
                  intro x hx hx'
                  exact hdata x hx (by simp only at hx'; omega)
              · have hfound : Found d start dataStart writes := hf.hole hgap
                exact hfound.piece (w := ⟨dataStart, min runEnd stop⟩) (Nat.le_refl _)

theorem windowWrites_spec {index window : ℕ} {stats stats' : MergeStats}
    (h : d.windowWrites index window stats = some (writes, stats')) :
    (∀ w ∈ writes, IsPiece d (index * window) (min d.size (index * window + window)) w) ∧
      Found d (index * window) (min d.size (index * window + window)) writes := by
  refine windowLoop_spec (by omega) (Nat.le_refl _) (Nat.le_refl _) (by simp) ?_ h
  intro x hx hlt
  omega

end Diff

end Fcvm.Merge
