import Fcvm.Merge.Model

namespace Fcvm.Merge

open Library List

variable {c : Config}

def Config.Data (c : Config) (w : MergeWrite) : Prop :=
  w.start < w.stop ∧ w.stop ≤ c.diff.size ∧ ∀ x, w.start ≤ x → x < w.stop → c.diff.data x = true

def Range.Within (r : Range) (n : ℕ) : Prop := r.start < r.stop ∧ r.stop ≤ n

structure Piece.Valid (c : Config) (p : Piece) : Prop where
  rest : ∀ w ∈ p.rest, c.Data w
  write : c.Data p.write
  buffer : p.buffer = c.diff.readAt p.write
  runs : ∀ run ∈ p.runs, run.1.Within p.buffer.length ∧ (run.2 = true → ZeroOn p.buffer run.1)

def Worker.Valid (c : Config) : Worker → Prop
  | .pieces rest _ => ∀ w ∈ rest, c.Data w
  | .reading write rest _ => c.Data write ∧ ∀ w ∈ rest, c.Data w
  | .runs p => p.Valid c
  | .run p r => p.Valid c ∧ r.1.Within p.buffer.length ∧ (r.2 = true → ZeroOn p.buffer r.1)
  | .punching p r => p.Valid c ∧ r.Within p.buffer.length ∧ ZeroOn p.buffer r
  | .refused p r => p.Valid c ∧ r.Within p.buffer.length ∧ ZeroOn p.buffer r
  | .writing p offset bytes => p.Valid c ∧ p.write.start ≤ offset ∧ offset + bytes.length ≤ p.write.stop ∧
      ∀ x, x < bytes.length → bytes[x]? = c.diff.bytes[offset + x]?
  | _ => True

def inRun (p : Piece) (run : Range) (x : ℕ) : Prop := p.offset run ≤ x ∧ x < p.write.start + run.stop

def inWrites (writes : List MergeWrite) (x : ℕ) : Prop := ∃ w ∈ writes, w.start ≤ x ∧ x < w.stop

def Piece.Owes (p : Piece) (x : ℕ) : Prop := inWrites p.rest x ∨ ∃ run ∈ p.runs, inRun p run.1 x

def Worker.Owes (c : Config) (x : ℕ) : Worker → Prop
  | .walking index _ => index * c.tuning.window ≤ x ∧ x < index * c.tuning.window + c.tuning.window
  | .pieces rest _ => inWrites rest x
  | .reading write rest _ => (write.start ≤ x ∧ x < write.stop) ∨ inWrites rest x
  | .runs p => p.Owes x
  | .run p r => p.Owes x ∨ inRun p r.1 x
  | .punching p r => p.Owes x ∨ inRun p r x
  | .refused p r => p.Owes x ∨ inRun p r x
  | .writing p offset bytes => p.Owes x ∨ (offset ≤ x ∧ x < offset + bytes.length)
  | _ => False

def Worker.Failed : Worker → Prop
  | .failing => True
  | .ended none => True
  | _ => False

def Worker.Counting : Worker → Prop
  | .loop _ => True
  | .taking _ => True
  | .walking _ _ => True
  | .failing => True
  | .ended _ => True
  | _ => False

structure StepOk (c : Config) (sh : Shared) (w : Worker) (sh' : Shared) (w' : Worker) : Prop where
  length : sh'.base.length = sh.base.length
  bytes : ∀ x, sh'.base[x]? = sh.base[x]? ∨ (c.diff.data x = true ∧ sh'.base[x]? = c.diff.bytes[x]?)
  owed : ∀ x < c.diff.size, c.diff.data x = true → w.Owes c x ∨ sh.next * c.tuning.window ≤ x →
    w'.Owes c x ∨ sh'.next * c.tuning.window ≤ x ∨ sh'.base[x]? = c.diff.bytes[x]? ∨ w'.Failed ∨ sh.stop = true
  valid : w'.Valid c
  failed : w.Failed → w'.Failed
  next_le : sh.next ≤ sh'.next
  stop_le : sh.stop = true → sh'.stop = true
  stopped : sh'.stop = true → sh.stop = true ∨ w' = .ended none
  last : ∀ stats, w' = .ended (some stats) → c.windows ≤ sh'.next ∨ sh.stop = true

namespace Config.Data

variable {w : MergeWrite}

theorem length_readAt (h : c.Data w) : (c.diff.readAt w).length = w.bytes := by
  have h1 := h.1
  have h2 := h.2.1
  simp only [Diff.readAt, length_take, length_drop, MergeWrite.bytes, Diff.size] at h2 ⊢
  omega

end Config.Data

theorem Tiles.mem {a b x : ℕ} {runs : List (Range × Bool)} (h : Tiles a b runs) (ha : a ≤ x) (hb : x < b) :
    ∃ run ∈ runs, run.1.start ≤ x ∧ x < run.1.stop := by
  induction runs generalizing a with
  | nil =>
    obtain rfl : a = b := h
    omega
  | cons run runs ih =>
    obtain ⟨h1, h2, h3⟩ := h
    rcases Nat.lt_or_ge x run.1.stop with hx | hx
    · exact ⟨run, by simp, by omega, hx⟩
    · obtain ⟨r, hr, hin⟩ := ih h3 hx
      exact ⟨r, mem_cons_of_mem _ hr, hin⟩

theorem Tiles.within {a b : ℕ} {runs : List (Range × Bool)} (h : Tiles a b runs) :
    a ≤ b ∧ ∀ run ∈ runs, run.1.Within b := by
  induction runs generalizing a with
  | nil => exact ⟨Nat.le_of_eq h, by simp⟩
  | cons run runs ih =>
    obtain ⟨h1, h2, h3⟩ := h
    obtain ⟨hle, hmem⟩ := ih h3
    refine ⟨by omega, fun r hr => ?_⟩
    rcases mem_cons.mp hr with rfl | hr
    · exact ⟨by omega, hle⟩
    · exact hmem r hr

namespace Piece.Valid

variable {p : Piece}

theorem length_buffer (h : p.Valid c) : p.buffer.length = p.write.stop - p.write.start := by
  rw [h.buffer, h.write.length_readAt, MergeWrite.bytes]

theorem getElem?_buffer (h : p.Valid c) {x : ℕ} (hx : x < p.buffer.length) :
    p.buffer[x]? = c.diff.bytes[p.write.start + x]? := by
  have hlt : x < p.write.bytes := by rw [h.length_buffer] at hx; exact hx
  rw [h.buffer, Diff.readAt_getElem? hlt]

end Piece.Valid

section Bytes

variable {base bytes : List UInt8} {offset : ℕ}

theorem length_writeAllAt (h : offset + bytes.length ≤ base.length) :
    (writeAllAt base offset bytes).length = base.length :=
  length_overwrite h

theorem getElem?_writeAllAt (h : offset + bytes.length ≤ base.length)
    (hb : ∀ x, x < bytes.length → bytes[x]? = c.diff.bytes[offset + x]?) (x : ℕ) :
    (writeAllAt base offset bytes)[x]? =
      if offset ≤ x ∧ x < offset + bytes.length then c.diff.bytes[x]? else base[x]? := by
  rw [writeAllAt, getElem?_overwrite h]
  split
  · rw [hb (x - offset) (by omega)]
    congr 1
    omega
  · rfl

theorem punchHole_eq {len : ℕ} (h : offset + len ≤ base.length) :
    punchHole base offset len = writeAllAt base offset (replicate len 0) := by
  have hmin : min len (base.length - offset) = len := by omega
  rw [punchHole, hmin, writeAllAt]

end Bytes

namespace StepOk

variable {sh sh' : Shared} {w w' : Worker}

theorem same (hb : sh'.base = sh.base) (hn : sh'.next = sh.next) (hs : sh'.stop = sh.stop)
    (howed : ∀ x < c.diff.size, c.diff.data x = true → w.Owes c x → w'.Owes c x ∨ w'.Failed ∨ sh.stop = true)
    (hvalid : w'.Valid c) (hfail : w.Failed → w'.Failed)
    (hlast : ∀ stats, w' = .ended (some stats) → c.windows ≤ sh.next ∨ sh.stop = true) :
    StepOk c sh w sh' w' where
  length := by rw [hb]
  bytes _ := .inl (by rw [hb])
  owed x hx hd ho := by
    rcases ho with ho | ho
    · rcases howed x hx hd ho with h | h | h
      · exact .inl h
      · exact .inr (.inr (.inr (.inl h)))
      · exact .inr (.inr (.inr (.inr h)))
    · exact .inr (.inl (by rw [hn]; exact ho))
  valid := hvalid
  failed := hfail
  next_le := Nat.le_of_eq hn.symm
  stop_le := by rw [hs]; exact id
  stopped h := .inl (by rw [← hs]; exact h)
  last := by rw [hn]; exact hlast

theorem wrote {offset : ℕ} {bytes : List UInt8} (hbase : sh.base.length = c.diff.size)
    (hin : offset + bytes.length ≤ c.diff.size)
    (hdata : ∀ x, offset ≤ x → x < offset + bytes.length → c.diff.data x = true)
    (hb : ∀ x, x < bytes.length → bytes[x]? = c.diff.bytes[offset + x]?)
    (howed : ∀ x, w.Owes c x → w'.Owes c x ∨ (offset ≤ x ∧ x < offset + bytes.length))
    (hvalid : w'.Valid c) (hfail : ¬ w.Failed) (hlast : ∀ stats, w' ≠ .ended (some stats)) :
    StepOk c sh w { sh with base := writeAllAt sh.base offset bytes } w' where
  length := length_writeAllAt (by omega)
  bytes x := by
    have hle : offset + bytes.length ≤ sh.base.length := by omega
    have hx := getElem?_writeAllAt hle hb x
    by_cases hrange : offset ≤ x ∧ x < offset + bytes.length
    · rw [if_pos hrange] at hx
      exact .inr ⟨hdata x hrange.1 hrange.2, hx⟩
    · rw [if_neg hrange] at hx
      exact .inl hx
  owed x hx hd ho := by
    rcases ho with ho | ho
    · rcases howed x ho with h | h
      · exact .inl h
      · refine .inr (.inr (.inl ?_))
        rw [getElem?_writeAllAt (by omega) hb x, if_pos h]
    · exact .inr (.inl ho)
  valid := hvalid
  failed h := absurd h hfail
  next_le := Nat.le_refl _
  stop_le := id
  stopped h := .inl h
  last stats h := absurd h (hlast stats)

end StepOk

theorem length_slice {data : List UInt8} {r : Range} (h : r.Within data.length) : (slice data r).length = r.len := by
  have hle := h.2
  simp only [slice, Range.len, length_take, length_drop]
  omega

theorem startWrite_valid {p : Piece} {r : Range × Bool} (hp : p.Valid c) (hr : r.1.Within p.buffer.length) :
    (p.startWrite r).Valid c := by
  have hlen := length_slice hr
  have hbuf := hp.length_buffer
  obtain ⟨h1, h2⟩ := hr
  simp only [Range.len] at hlen
  refine ⟨{ hp with }, ?_, ?_, ?_⟩
  · simp only [Piece.offset]
    omega
  · simp only [Piece.offset]
    omega
  · intro x hx
    rw [slice, getElem?_take_of_lt (by rw [Range.len]; omega), getElem?_drop,
      hp.getElem?_buffer (by omega), Piece.offset, Nat.add_assoc]

theorem startWrite_owes {p : Piece} {r : Range × Bool} (hr : r.1.Within p.buffer.length) {x : ℕ}
    (h : p.Owes x ∨ inRun p r.1 x) : (p.startWrite r).Owes c x := by
  rcases h with h | ⟨h1, h2⟩
  · exact .inl h
  · refine .inr ⟨h1, ?_⟩
    rw [length_slice hr]
    simp only [Piece.offset, Range.len] at h1 ⊢
    omega

theorem startWrite_ne_ended (p : Piece) (r : Range × Bool) (result : Option MergeStats) :
    p.startWrite r ≠ .ended result := by
  simp [Piece.startWrite]

theorem size_le_windows (hw : 0 < c.tuning.window) : c.diff.size ≤ c.windows * c.tuning.window := by
  have hdiv := Nat.div_add_mod (c.diff.size + c.tuning.window - 1) c.tuning.window
  have hmod := Nat.mod_lt (c.diff.size + c.tuning.window - 1) hw
  rw [Config.windows, divCeil, Nat.mul_comm]
  omega

section Step

variable {sh sh' : Shared} {w w' : Worker}

theorem taking_ok (hw : 0 < c.tuning.window) (stats : MergeStats) :
    StepOk c sh (.taking stats) { sh with next := sh.next + 1 }
      (if sh.next ≥ c.windows then .ended (some stats) else .walking sh.next stats) where
  length := rfl
  bytes _ := .inl rfl
  owed x hx hd ho := by
    have ho : sh.next * c.tuning.window ≤ x := ho.resolve_left id
    have hsize := size_le_windows hw
    split
    case isTrue hge =>
      have hmul := Nat.mul_le_mul_right c.tuning.window hge
      omega
    case isFalse hlt =>
      rcases Nat.lt_or_ge x (sh.next * c.tuning.window + c.tuning.window) with h | h
      · exact .inl ⟨ho, h⟩
      · exact .inr (.inl (by rw [Nat.add_one_mul]; exact h))
  valid := by split <;> exact trivial
  failed := False.elim
  next_le := Nat.le_succ _
  stop_le := id
  stopped h := .inl h
  last stats' h := by
    split at h
    case isTrue hge => exact .inl (Nat.le_succ_of_le hge)
    case isFalse => cases h

theorem walking_ok {index : ℕ} {stats stats' : MergeStats} {writes : List MergeWrite}
    (h : c.diff.windowWrites index c.tuning.window stats = some (writes, stats')) :
    StepOk c sh (.walking index stats) sh (.pieces writes stats') := by
  obtain ⟨hp, hf⟩ := Diff.windowWrites_spec h
  refine .same rfl rfl rfl ?_ ?_ False.elim (by simp)
  · exact fun x hx hd ho => .inl (hf x ho.1 (by have := ho.2; omega) hd)
  · intro w hw
    obtain ⟨-, h2, h3, h4⟩ := hp w hw
    exact ⟨h2, by omega, h4⟩

theorem reading_ok {write : MergeWrite} {rest : List MergeWrite} {stats : MergeStats} (hw : c.Data write)
    (hr : ∀ w ∈ rest, c.Data w) :
    StepOk c sh (.reading write rest stats) sh (.runs ⟨stats, rest, write, c.diff.readAt write,
      pieceRuns write.start (c.diff.readAt write) c.tuning.minPunch, .default⟩) := by
  have htiles := pieceRuns_tiles write.start (c.diff.readAt write) c.tuning.minPunch
  refine .same rfl rfl rfl ?_ ⟨hr, hw, rfl, ?_⟩ False.elim (by simp)
  · intro x hx hd ho
    rcases ho with ⟨h1, h2⟩ | ho
    · have hlt : x - write.start < (c.diff.readAt write).length := by
        rw [hw.length_readAt, MergeWrite.bytes]
        omega
      obtain ⟨run, hrun, hin⟩ := htiles.mem (Nat.zero_le _) hlt
      refine .inl (.inr ⟨run, hrun, ?_⟩)
      simp only [inRun, Piece.offset]
      omega
    · exact .inl (.inl ho)
  · rintro ⟨run, hole⟩ hrun
    refine ⟨htiles.within.2 _ hrun, ?_⟩
    rintro rfl
    exact pieceRuns_hole hrun

theorem runs_ok {p : Piece} (hp : p.Valid c) (h : step c true sh (.runs p) = some (sh', w')) :
    StepOk c sh (.runs p) sh' w' := by
  simp only [step] at h
  split at h
  case h_1 hruns =>
    cases h
    refine .same rfl rfl rfl ?_ hp.rest False.elim (by simp)
    intro x hx hd ho
    rcases ho with ho | ⟨run, hrun, -⟩
    · exact .inl ho
    · simp [hruns] at hrun
  case h_2 run runs hruns =>
    cases h
    have hmem : run ∈ p.runs := by simp [hruns]
    split
    case isTrue hstop => exact .same rfl rfl rfl (fun _ _ _ _ => .inr (.inr hstop)) hp.rest False.elim (by simp)
    case isFalse =>
      refine .same rfl rfl rfl ?_ ⟨⟨hp.rest, hp.write, hp.buffer, ?_⟩, hp.runs run hmem⟩ False.elim (by simp)
      · intro x hx hd ho
        rcases ho with ho | ⟨r, hr, hin⟩
        · exact .inl (.inl (.inl ho))
        · rw [hruns] at hr
          rcases mem_cons.mp hr with rfl | hr
          · exact .inl (.inr hin)
          · exact .inl (.inl (.inr ⟨r, hr, hin⟩))
      · exact fun r hr => hp.runs r (by rw [hruns]; exact mem_cons_of_mem _ hr)

theorem run_ok {p : Piece} {r : Range × Bool} (hp : p.Valid c) (hr : r.1.Within p.buffer.length)
    (hz : r.2 = true → ZeroOn p.buffer r.1) :
    StepOk c sh (.run p r) sh (if r.2 && !sh.cannotPunch then .punching p r.1 else p.startWrite r) := by
  split
  case isTrue hpunch =>
    simp only [Bool.and_eq_true] at hpunch
    exact .same rfl rfl rfl (fun _ _ _ ho => .inl ho) ⟨hp, hr, hz hpunch.1⟩ False.elim (by simp)
  case isFalse =>
    exact .same rfl rfl rfl (fun _ _ _ ho => .inl (startWrite_owes hr ho)) (startWrite_valid hp hr) False.elim
      fun stats h => absurd h (startWrite_ne_ended p r _)

theorem step_ok (hw : 0 < c.tuning.window) (hv : w.Valid c) (h : step c true sh w = some (sh', w')) :
    StepOk c sh w sh' w' := by
  cases w with
  | loop stats =>
    cases h
    refine .same rfl rfl rfl (fun _ _ _ => False.elim) (by split <;> exact trivial) False.elim ?_
    intro stats' heq
    split at heq
    case isTrue hstop => exact .inr hstop
    case isFalse => cases heq
  | taking stats =>
    cases h
    exact taking_ok hw stats
  | walking index stats =>
    simp only [step] at h
    split at h
    case h_1 writes stats' hwrites =>
      cases h
      exact walking_ok hwrites
    case h_2 =>
      cases h
      exact .same rfl rfl rfl (fun _ _ _ _ => .inr (.inl trivial)) trivial False.elim (by simp)
  | pieces rest stats =>
    cases rest with
    | nil =>
      cases h
      refine .same rfl rfl rfl ?_ trivial False.elim (by simp)
      rintro x hx hd ⟨w, hw, -⟩
      simp at hw
    | cons write rest =>
      cases h
      split
      case isTrue hstop =>
        exact .same rfl rfl rfl (fun _ _ _ _ => .inr (.inr hstop)) trivial False.elim (fun _ _ => .inr hstop)
      case isFalse =>
        refine .same rfl rfl rfl ?_ ⟨hv write (by simp), fun w hw => hv w (by simp [hw])⟩ False.elim (by simp)
        rintro x hx hd ⟨w, hw, hin⟩
        rcases mem_cons.mp hw with rfl | hw
        · exact .inl (.inl hin)
        · exact .inl (.inr ⟨w, hw, hin⟩)
  | reading write rest stats =>
    cases h
    exact reading_ok hv.1 hv.2
  | runs p => exact runs_ok hv h
  | run p r =>
    cases h
    exact run_ok hv.1 hv.2.1 hv.2.2
  | punching p r => cases h
  | refused p r =>
    cases h
    exact .same rfl rfl rfl (fun _ _ _ ho => .inl (startWrite_owes (r := (r, true)) hv.2.1 ho))
      (startWrite_valid (r := (r, true)) hv.1 hv.2.1) False.elim fun stats h => absurd h (startWrite_ne_ended p _ _)
  | writing p offset bytes =>
    cases bytes with
    | nil =>
      cases h
      refine .same rfl rfl rfl ?_ hv.1 False.elim (by simp)
      rintro x hx hd (ho | ⟨h1, h2⟩)
      · exact .inl ho
      · simp only [length_nil] at h2
        omega
    | cons b bytes => cases h
  | failing =>
    cases h
    exact ⟨rfl, fun _ => .inl rfl, fun _ _ _ _ => .inr (.inr (.inr (.inl trivial))), trivial, id, Nat.le_refl _,
      fun _ => rfl, fun _ => .inr rfl, by simp⟩
  | ended result => cases h

theorem punch_ok {p : Piece} {r : Range} (hbase : sh.base.length = c.diff.size) (hp : p.Valid c)
    (hr : r.Within p.buffer.length) (hz : ZeroOn p.buffer r) :
    StepOk c sh (.punching p r) { sh with base := punchHole sh.base (p.offset r) r.len } (p.punched r) := by
  have hlen := hp.length_buffer
  have hstop := hp.write.2.1
  obtain ⟨h1, h2⟩ := hr
  have hin : p.offset r + r.len ≤ c.diff.size := by
    simp only [Piece.offset, Range.len]
    omega
  rw [punchHole_eq (by omega)]
  apply StepOk.wrote hbase
  · rw [length_replicate]
    exact hin
  · intro x hx hx'
    rw [length_replicate] at hx'
    simp only [Piece.offset, Range.len] at hx hx'
    exact hp.write.2.2 x (by omega) (by omega)
  · intro x hx
    rw [length_replicate, Range.len] at hx
    have hzero := hz (r.start + x) (by omega) (by omega)
    rw [hp.getElem?_buffer (by omega), ← Nat.add_assoc] at hzero
    rw [getElem?_replicate, if_pos (by rw [Range.len]; exact hx), Piece.offset, hzero]
  · intro x ho
    rcases ho with ho | ⟨ho, ho'⟩
    · exact .inl ho
    · refine .inr ⟨ho, ?_⟩
      simp only [length_replicate, Piece.offset, Range.len]
      omega
  · exact { hp with }
  · exact id
  · simp [Piece.punched]

theorem write_ok {p : Piece} {offset n : ℕ} {bytes : List UInt8} (hbase : sh.base.length = c.diff.size)
    (hp : p.Valid c) (hstart : p.write.start ≤ offset) (hend : offset + bytes.length ≤ p.write.stop)
    (hb : ∀ x, x < bytes.length → bytes[x]? = c.diff.bytes[offset + x]?) (hn : n ≤ bytes.length) :
    StepOk c sh (.writing p offset bytes) { sh with base := writeAllAt sh.base offset (bytes.take n) }
      (.writing p (offset + n) (bytes.drop n)) := by
  have hstop := hp.write.2.1
  have htake : (bytes.take n).length = n := by
    rw [length_take]
    omega
  apply StepOk.wrote hbase
  · omega
  · exact fun x hx hx' => hp.write.2.2 x (by omega) (by omega)
  · intro x hx
    rw [getElem?_take_of_lt (by omega)]
    exact hb x (by omega)
  · intro x ho
    rcases ho with ho | ⟨ho, ho'⟩
    · exact .inl (.inl ho)
    · rcases Nat.lt_or_ge x (offset + n) with h | h
      · exact .inr ⟨ho, by omega⟩
      · exact .inl (.inr ⟨h, by rw [length_drop]; omega⟩)
  · refine ⟨hp, by omega, ?_, ?_⟩
    · rw [length_drop]
      omega
    · intro x hx
      rw [length_drop] at hx
      rw [getElem?_drop, hb (n + x) (by omega), Nat.add_assoc]
  · exact id
  · simp

theorem move_ok {m : Move} (hw : 0 < c.tuning.window) (hbase : sh.base.length = c.diff.size) (hv : w.Valid c)
    (h : move c true sh w m = some (sh', w')) : StepOk c sh w sh' w' := by
  cases m with
  | step => exact step_ok hw hv h
  | punch =>
    simp only [move] at h
    split at h
    case h_2 => cases h
    case h_1 p r =>
      cases h
      exact punch_ok hbase hv.1 hv.2.1 hv.2.2
  | refuse =>
    simp only [move] at h
    split at h
    case h_2 => cases h
    case h_1 p r =>
      cases h
      exact .same rfl rfl rfl (fun _ _ _ ho => .inl ho) hv False.elim (by simp)
  | write n =>
    simp only [move] at h
    split at h
    case h_2 => cases h
    case h_1 p offset bytes =>
      split at h
      case isTrue hn =>
        cases h
        exact write_ok hbase hv.1 hv.2.1 hv.2.2.1 hv.2.2.2 hn.2
      case isFalse => cases h
  | fail =>
    simp only [move] at h
    split at h
    case h_1 => cases h
    case h_2 => cases h
    case h_3 =>
      cases h
      exact .same rfl rfl rfl (fun _ _ _ _ => .inr (.inl trivial)) trivial (fun _ => trivial) (by simp)

theorem counting_ok {m : Move} (hc : w.Counting) (h : move c false sh w m = some (sh', w')) :
    w'.Counting ∧ sh'.base = sh.base ∧ (sh'.stop = true → sh.stop = true ∨ w' = .ended none) := by
  cases w with
  | loop | taking =>
    cases m with
    | step =>
      cases h
      exact ⟨by split <;> exact trivial, rfl, .inl⟩
    | fail => cases h; exact ⟨trivial, rfl, .inl⟩
    | _ => cases h
  | walking index stats =>
    cases m with
    | step =>
      simp only [move, step] at h
      split at h
      · cases h; exact ⟨trivial, rfl, .inl⟩
      · cases h; exact ⟨trivial, rfl, .inl⟩
    | fail => cases h; exact ⟨trivial, rfl, .inl⟩
    | _ => cases h
  | failing =>
    cases m with
    | step => cases h; exact ⟨trivial, rfl, fun _ => .inr rfl⟩
    | _ => cases h
  | ended result => cases m <;> cases h
  | _ => exact hc.elim

end Step

end Fcvm.Merge
