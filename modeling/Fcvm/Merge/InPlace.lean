import Mathlib.Algebra.GroupWithZero.Nat
import Fcvm.Library.Command
import Fcvm.Merge.Model

/-! The zero runs of an in-place diff given back as holes (`punch_in_place_diff_with`). -/

namespace Fcvm.Merge

open List Library
open Library.Command (refuseIf)

def MERGE_WINDOW : ℕ := 8 * 1024 * 1024

inductive PunchAnswer
  | ok
  | notSupported
  | failed (errno : String)
deriving DecidableEq

/-- Punches, each an offset and a length, with their answers. -/
abbrev Calls := List ((ℕ × ℕ) × PunchAnswer)

structure InPlaceStats where
  writtenBytes : ℕ
  ranges : ℕ
  readBytes : ℕ
  punches : ℕ
  zeroBytes : ℕ
  unpunchedZeroBytes : ℕ

structure InPlace where
  file : List UInt8
  stats : InPlaceStats
  cannotPunch : Bool
  calls : Calls

def InPlace.new (file : List UInt8) : InPlace := ⟨file, ⟨0, 0, 0, 0, 0, 0⟩, false, []⟩

/-- What the filesystem answers: to the punch of each number, to a read at each offset, and to the flush. -/
structure Answers where
  punch : ℕ → PunchAnswer
  read : ℕ → Bool
  flush : Bool

def InPlace.count (g : InPlaceStats → InPlaceStats) (s : InPlace) : InPlace := { s with stats := g s.stats }

def InPlace.leave (len : ℕ) : InPlace → InPlace :=
  InPlace.count fun stats => { stats with unpunchedZeroBytes := stats.unpunchedZeroBytes + len }

def punchRun (a : Answers) (start : ℕ) (run : Range × Bool) : Command InPlace String Unit := fun s =>
  let (offset, len) := (start + run.1.start, run.1.len)
  if !run.2 then (.ok (), s)
  else if s.cannotPunch then (.ok (), s.leave len)
  else
    let answer := a.punch s.calls.length
    let s := { s with calls := s.calls ++ [((offset, len), answer)] }
    match answer with
    | .ok =>
      (.ok (), { s with
        file := punchHole s.file offset len
        stats := { s.stats with punches := s.stats.punches + 1, zeroBytes := s.stats.zeroBytes + len } })
    | .notSupported => (.ok (), { s.leave len with cannotPunch := true })
    | .failed errno =>
      (.error ("punching a hole of " ++ toString len ++ " bytes at offset " ++ toString offset ++
        " of the in-place diff: " ++ errno), s)

/-- The pieces a range is read in from `start` on, cut at multiples of the window. -/
def piecesFrom (range : Range) (start : ℕ) : List Range :=
  if start < range.stop then
    let stop := min range.stop ((start / MERGE_WINDOW + 1) * MERGE_WINDOW)
    ⟨start, stop⟩ :: piecesFrom range stop
  else []
termination_by range.stop - start
decreasing_by
  simp only [MERGE_WINDOW]
  omega

def punchPiece (a : Answers) (minPunch : ℕ) (piece : Range) : Command InPlace String Unit := do
  let s ← Command.get
  refuseIf (!(a.read piece.start && decide (piece.stop ≤ s.file.length)))
    ("reading the in-place diff at offset " ++ toString piece.start)
  (pieceRuns piece.start (slice s.file piece) minPunch).forM (punchRun a piece.start)

def punchRange (a : Answers) (minPunch : ℕ) (range : Range) : Command InPlace String Unit := do
  let s ← Command.get
  if s.cannotPunch || decide (range.len < minPunch) then return ()
  else do
    Command.modify (InPlace.count fun stats => { stats with readBytes := stats.readBytes + range.len })
    (piecesFrom range range.start).forM (punchPiece a minPunch)

def punchInPlaceDiffWith (a : Answers) (minPunch : ℕ) (ranges : List Range) : Command InPlace String InPlaceStats := do
  Command.modify (InPlace.count fun stats =>
    { stats with ranges := ranges.length, writtenBytes := (ranges.map Range.len).sum })
  ranges.forM (punchRange a minPunch)
  refuseIf (!a.flush) "flushing the in-place diff"
  let s ← Command.get
  return s.stats

def pieceHoles (file : List UInt8) (minPunch : ℕ) (piece : Range) : List (ℕ × ℕ) :=
  (pieceRuns piece.start (slice file piece) minPunch).flatMap fun run =>
    if run.2 then [(piece.start + run.1.start, run.1.len)] else []

def rangeHoles (file : List UInt8) (minPunch : ℕ) (range : Range) : List (ℕ × ℕ) :=
  if range.len < minPunch then [] else (piecesFrom range range.start).flatMap (pieceHoles file minPunch)

theorem punchHole_zeros {file : List UInt8} {offset len : ℕ} (h : offset + len ≤ file.length)
    (hzero : ZeroOn file ⟨offset, offset + len⟩) : punchHole file offset len = file := by
  have hlen : min len (file.length - offset) = len := by omega
  apply ext_getElem?
  intro x
  rw [punchHole, hlen, getElem?_overwrite (by simpa using h), length_replicate]
  split
  case isTrue hx => rw [hzero x hx.1 hx.2, getElem?_replicate, if_pos (by omega)]
  case isFalse => rfl

/-- The punches in order: whether one was refused, and those made, after which no more are. -/
def punches (a : Answers) : List (ℕ × ℕ) → Bool × Calls → Option (Bool × Calls)
  | [], made => some made
  | _ :: todo, (true, calls) => punches a todo (true, calls)
  | hole :: todo, (false, calls) => match a.punch calls.length with
    | .ok => punches a todo (false, calls ++ [(hole, .ok)])
    | .notSupported => punches a todo (true, calls ++ [(hole, .notSupported)])
    | .failed _ => none

variable {a : Answers} {ranges : List Range} {todo : List (ℕ × ℕ)} {s : InPlace} {minPunch : ℕ}

theorem punches_refused (calls : Calls) : punches a todo (true, calls) = some (true, calls) := by
  induction todo with
  | nil => rfl
  | cons hole todo ih => exact ih

theorem punches_append (todo todo' : List (ℕ × ℕ)) (made : Bool × Calls) :
    punches a (todo ++ todo') made = (punches a todo made).bind (punches a todo') := by
  induction todo generalizing made with
  | nil => rfl
  | cons hole todo ih =>
    obtain ⟨_ | _, calls⟩ := made
    · simp only [cons_append, punches]
      split <;> simp [ih]
    · exact ih _

theorem punches_calls {calls : Calls} {made : Bool × Calls}
    (h : punches a todo (false, calls) = some made) : made.2 = calls ++ todo.map (·, .ok) ∨ ∃ done hole rest,
      todo = done ++ hole :: rest ∧ made.2 = calls ++ done.map (·, .ok) ++ [(hole, .notSupported)] := by
  induction todo generalizing calls with
  | nil =>
    cases h
    exact .inl (append_nil _).symm
  | cons hole todo ih =>
    simp only [punches] at h
    split at h
    · rcases ih h with hall | ⟨done, refused, rest, htodo, hmade⟩
      · exact .inl (by simpa using hall)
      · exact .inr ⟨hole :: done, refused, rest, by simp [htodo], by simpa using hmade⟩
    · rw [punches_refused] at h
      cases h
      exact .inr ⟨[], hole, todo, rfl, by simp⟩
    · cases h

/-- Why a call fails: it could not flush, a punch failed otherwise, or a piece could not be read. -/
def Fault (a : Answers) (ranges : List Range) (t : InPlace) : Prop :=
  a.flush = false ∨ (∃ call ∈ t.calls, ∃ errno, call.2 = .failed errno) ∨
    ∃ range ∈ ranges, ∃ x, range.start ≤ x ∧ x < range.stop ∧ (a.read x = false ∨ t.file.length < range.stop)

/-- A part of the call that has the holes `todo` to punch. -/
def Follows (a : Answers) (ranges : List Range) (todo : List (ℕ × ℕ)) (s : InPlace)
    (result : Except String Unit × InPlace) : Prop :=
  result.2.file = s.file ∧ match result.1 with
    | .ok _ => punches a todo (s.cannotPunch, s.calls) = some (result.2.cannotPunch, result.2.calls)
    | .error _ => Fault a ranges result.2

theorem Follows.bind {todo' : List (ℕ × ℕ)} {c : Command InPlace String Unit} {k : Unit → Command InPlace String Unit}
    (hc : Follows a ranges todo s (c s)) (hk : ∀ t : InPlace, t.file = s.file → Follows a ranges todo' t (k () t)) :
    Follows a ranges (todo ++ todo') s ((c >>= k) s) := by
  simp only [Bind.bind]
  generalize c s = first at *
  obtain ⟨_ | _, t⟩ := first
  · exact hc
  · obtain ⟨hfile, hpunches⟩ := hc
    obtain ⟨hfile', hrest⟩ := hk t hfile
    refine ⟨hfile'.trans hfile, ?_⟩
    simp only at hpunches ⊢
    generalize k () t = second at *
    obtain ⟨_ | _, u⟩ := second
    · exact hrest
    · simpa only [punches_append, hpunches, Option.bind_some] using hrest

theorem Follows.forM {α : Type} {l : List α} {f : α → Command InPlace String Unit} {todo : α → List (ℕ × ℕ)}
    (hf : ∀ x ∈ l, ∀ t : InPlace, t.file = s.file → Follows a ranges (todo x) t (f x t)) :
    Follows a ranges (l.flatMap todo) s (l.forM f s) := by
  induction l generalizing s with
  | nil => exact ⟨rfl, rfl⟩
  | cons x l ih =>
    rw [flatMap_cons]
    apply Follows.bind (hf x mem_cons_self s rfl)
    intro t ht
    apply ih
    intro y hy u hu
    exact hf y (mem_cons_of_mem _ hy) u (hu.trans ht)

theorem punchRun_follows {start : ℕ} {run : Range × Bool}
    (hrun : run.2 = true → punchHole s.file (start + run.1.start) run.1.len = s.file) :
    Follows a ranges (if run.2 then [(start + run.1.start, run.1.len)] else []) s (punchRun a start run s) := by
  cases hhole : run.2
  case false => simp [punchRun, hhole, Follows, punches]
  simp only [punchRun, hhole, Bool.not_true, Bool.false_eq_true, if_false, if_true]
  cases hs : s.cannotPunch with
  | true => exact ⟨rfl, by simp [hs, punches, InPlace.leave, InPlace.count]⟩
  | false =>
    cases hanswer : a.punch s.calls.length with
    | ok => exact ⟨hrun hhole, by simp [hs, hanswer, punches]⟩
    | notSupported => exact ⟨rfl, by simp [hs, hanswer, punches, InPlace.leave, InPlace.count]⟩
    | failed errno => exact ⟨rfl, .inr (.inl ⟨_, mem_append_right _ mem_cons_self, errno, rfl⟩)⟩

/-- The pieces are the parts of the range in the windows it meets, in order. -/
structure CutAtWindows (range : Range) (pieces : List Range) : Prop where
  ordered : pieces.Pairwise fun p q => p.stop ≤ q.start
  piece : ∀ p ∈ pieces, p.start < p.stop ∧ ∀ x, p.start ≤ x ∧ x < p.stop ↔
    range.start ≤ x ∧ x < range.stop ∧ x / MERGE_WINDOW = p.start / MERGE_WINDOW
  covered : ∀ x, range.start ≤ x → x < range.stop → ∃ p ∈ pieces, p.start ≤ x ∧ x < p.stop

theorem CutAtWindows.within {range piece : Range} {pieces : List Range} (h : CutAtWindows range pieces)
    (hpiece : piece ∈ pieces) : range.start ≤ piece.start ∧ piece.start < piece.stop ∧ piece.stop ≤ range.stop := by
  obtain ⟨hlt, hin⟩ := h.piece piece hpiece
  have hfirst := (hin piece.start).1 ⟨Nat.le_refl _, hlt⟩
  have hlast := (hin (piece.stop - 1)).1 (by omega)
  omega

theorem piecesFrom_cut (range : Range) (start : ℕ) : CutAtWindows ⟨start, range.stop⟩ (piecesFrom range start) := by
  have hwindow : MERGE_WINDOW = 8388608 := rfl
  induction start using piecesFrom.induct range with
  | case1 start hlt stop ih =>
    rw [piecesFrom, if_pos hlt]
    have hstop : stop = min range.stop ((start / MERGE_WINDOW + 1) * MERGE_WINDOW) := rfl
    rw [← hstop]
    clear_value stop
    simp only [hwindow] at hstop
    refine ⟨pairwise_cons.2 ⟨fun q hq => (ih.within hq).1, ih.ordered⟩, ?_, ?_⟩
    · intro p hp
      rcases mem_cons.1 hp with rfl | hp
      · refine ⟨by dsimp only; omega, fun x => ?_⟩
        simp only [hwindow]
        omega
      · -- a later piece starts past the cut, so its window is a later one
        have hwithin := ih.within hp
        refine ⟨hwithin.2.1, fun x => ((ih.piece p hp).2 x).trans ?_⟩
        simp only [hwindow] at hwithin ⊢
        omega
    · intro x hfirst hlast
      rcases Nat.lt_or_ge x stop with hx | hx
      · exact ⟨_, mem_cons_self, hfirst, hx⟩
      · obtain ⟨p, hp, hin⟩ := ih.covered x hx hlast
        exact ⟨p, mem_cons_of_mem _ hp, hin⟩
  | case2 start hge =>
    rw [piecesFrom, if_neg hge]
    refine ⟨.nil, by simp, fun x hfirst hlast => ?_⟩
    exact absurd (Nat.lt_of_le_of_lt hfirst hlast) hge

theorem punchPiece_follows {piece range : Range} (hrange : range ∈ ranges) (hfirst : range.start ≤ piece.start)
    (hlt : piece.start < piece.stop) (hlast : piece.stop ≤ range.stop) :
    Follows a ranges (pieceHoles s.file minPunch piece) s (punchPiece a minPunch piece s) := by
  change Follows a ranges _ s ((refuseIf _ _ >>= fun _ => (pieceRuns piece.start (slice s.file piece) minPunch).forM
    (punchRun a piece.start)) s)
  cases hread : a.read piece.start && decide (piece.stop ≤ s.file.length) with
  | false =>
    rw [Bool.and_eq_false_iff, decide_eq_false_iff_not] at hread
    have hfault : a.read piece.start = false ∨ s.file.length < range.stop := hread.imp_right (by omega)
    exact ⟨rfl, .inr (.inr ⟨range, hrange, piece.start, hfirst, by omega, hfault⟩)⟩
  | true =>
    rw [Bool.and_eq_true, decide_eq_true_eq] at hread
    apply Follows.forM
    intro run hrun t ht
    apply punchRun_follows
    intro hhole
    have hlen : (slice s.file piece).length = piece.len := by
      simp only [slice, Range.len, length_take, length_drop]
      omega
    obtain ⟨⟨hzeros, -⟩, -⟩ := pieceRuns_hole_iff.1 (show (run.1, true) ∈ _ by rwa [← hhole])
    have hwithin := hzeros.within
    have hpos := hzeros.lt
    rw [hlen, Range.len] at hwithin
    rw [ht]
    apply punchHole_zeros
    · simp only [Range.len]
      omega
    · intro x hx hx'
      simp only [Range.len] at hx hx'
      have hzero := hzeros.zero (x - piece.start) (by omega) (by omega)
      rw [slice, getElem?_take_of_lt (by simp only [Range.len]; omega), getElem?_drop] at hzero
      rwa [show piece.start + (x - piece.start) = x by omega] at hzero

theorem punchRange_follows {range : Range} (hrange : range ∈ ranges) :
    Follows a ranges (rangeHoles s.file minPunch range) s (punchRange a minPunch range s) := by
  simp only [punchRange, Bind.bind, Command.get]
  cases hskip : s.cannotPunch || decide (range.len < minPunch) with
  | true =>
    refine ⟨rfl, ?_⟩
    cases hs : s.cannotPunch with
    | true => simp [hs, punches_refused]
    | false =>
      rw [hs, Bool.false_or, decide_eq_true_eq] at hskip
      simp [rangeHoles, hskip, punches, hs]
  | false =>
    rw [Bool.or_eq_false_iff, decide_eq_false_iff_not] at hskip
    rw [rangeHoles, if_neg hskip.2]
    apply Follows.forM (s := s.count _)
    intro piece hpiece t ht
    obtain ⟨hfirst, hlt, hlast⟩ := (piecesFrom_cut range range.start).within hpiece
    rw [← show t.file = s.file from ht]
    exact punchPiece_follows hrange hfirst hlt hlast

/-- The runs of a piece are exact, a range is cut into pieces at the windows, and of an in-place diff the long zero runs
of every piece are punched in order up to the first that is refused, with every byte as it was. -/
theorem zero_runs_are_punched :
    (∀ (start : ℕ) (data : List UInt8) (minPunch : ℕ),
      Tiles 0 data.length (pieceRuns start data minPunch) ∧
      (∀ r, (r, true) ∈ pieceRuns start data minPunch ↔ MaximalZeros start data r ∧ minPunch ≤ r.len) ∧
      (pieceRuns start data minPunch).IsChain fun x y => x.2 = true ∨ y.2 = true) ∧
    (∀ range : Range, CutAtWindows range (piecesFrom range range.start)) ∧
    ∀ (a : Answers) (minPunch : ℕ) (file : List UInt8) (ranges : List Range),
      let holes := ranges.flatMap (rangeHoles file minPunch)
      let result := punchInPlaceDiffWith a minPunch ranges (.new file)
      result.2.file = file ∧ match result.1 with
        | .ok _ => result.2.calls = holes.map (·, .ok) ∨ ∃ done hole rest,
          holes = done ++ hole :: rest ∧ result.2.calls = done.map (·, .ok) ++ [(hole, .notSupported)]
        | .error _ => Fault a ranges result.2 := by
  refine ⟨?_, fun range => piecesFrom_cut range range.start, ?_⟩
  · intro start data minPunch
    exact ⟨pieceRuns_tiles start data minPunch, fun r => pieceRuns_hole_iff, joinRuns_chain none _⟩
  · intro a minPunch file ranges
    have hall : Follows a ranges (ranges.flatMap (rangeHoles file minPunch)) (.new file)
        (ranges.forM (punchRange a minPunch) ((InPlace.new file).count fun stats =>
          { stats with ranges := ranges.length, writtenBytes := (ranges.map Range.len).sum })) := by
      apply Follows.forM (s := (InPlace.new file).count _)
      intro range hrange t ht
      rw [← show t.file = file from ht]
      exact punchRange_follows hrange
    simp only [punchInPlaceDiffWith, Bind.bind, Command.modify]
    generalize ranges.forM (punchRange a minPunch) _ = walked at *
    obtain ⟨_ | _, t⟩ := walked
    · exact hall
    · refine ⟨by cases a.flush <;> exact hall.1, ?_⟩
      cases hflush : a.flush with
      | false => exact .inl hflush
      | true => exact punches_calls hall.2

end Fcvm.Merge
