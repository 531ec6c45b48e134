import Fcvm.Merge.Steps

namespace Fcvm.Merge

open Library Option Function

variable {c : Config} {s t : State} {sh sh' : Shared} {p p' : Pass}

variable {stats : MergeStats} {io : Bool} {m : Move} {threads : ℕ}

structure Partly (c : Config) (base : List UInt8) : Prop where
  equal : c.base.length = c.diff.size
  length : base.length = c.diff.size
  bytes : ∀ x, base[x]? = c.base[x]? ∨ (c.diff.data x = true ∧ base[x]? = c.diff.bytes[x]?)

structure Merged (c : Config) (base : List UInt8) : Prop where
  length : base.length = c.base.length
  bytes : ∀ x, x < c.base.length → base[x]? = if c.diff.data x then c.diff.bytes[x]? else c.base[x]?

def Pass.Stops (sh : Shared) (p : Pass) : Prop := sh.stop = true → ∃ w < p.started, p.worker w = .ended none

structure PlanInv (sh : Shared) (p : Pass) : Prop where
  counting : ∀ w, (p.worker w).Counting
  stopped : p.Stops sh

structure WriteInv (c : Config) (sh : Shared) (p : Pass) : Prop where
  started : 0 < p.started
  valid : ∀ w, (p.worker w).Valid c
  stopped : p.Stops sh
  covered : ∀ x < c.diff.size, c.diff.data x = true →
    sh.base[x]? = c.diff.bytes[x]? ∨ sh.next * c.tuning.window ≤ x ∨ (∃ w < p.started, (p.worker w).Owes c x) ∨
      ∃ w < p.started, (p.worker w).Failed
  last : ∀ w < p.started, ∀ stats, p.worker w = .ended (some stats) → c.windows ≤ sh.next ∨ sh.stop = true

def Inv (c : Config) (s : State) : Prop :=
  match s.stage with
  | .called => s.shared = (initial c).shared
  | .planning p => 0 < c.tuning.window ∧ c.base.length = c.diff.size ∧ s.shared.base = c.base ∧ PlanInv s.shared p
  | .writing p => 0 < c.tuning.window ∧ Partly c s.shared.base ∧ WriteInv c s.shared p
  | .flushing _ => Merged c s.shared.base
  | .returned (some _) => Merged c s.shared.base
  | .returned none => True

theorem mapM_mem {α β : Type} {f : α → Option β} {l : List α} {rs : List β} (h : l.mapM f = some rs) :
    ∀ a ∈ l, ∃ b ∈ rs, f a = some b := by
  induction l generalizing rs with
  | nil => simp
  | cons a l ih =>
    simp only [List.mapM_cons, bind_eq_bind, bind_eq_some_iff, pure_def,
      Option.some.injEq] at h
    obtain ⟨b, hb, bs, hbs, rfl⟩ := h
    intro a' ha
    rcases List.mem_cons.mp ha with rfl | ha
    · exact ⟨b, by simp, hb⟩
    · obtain ⟨b', hb', hf⟩ := ih hbs a' ha
      exact ⟨b', List.mem_cons_of_mem _ hb', hf⟩

variable {results : List (Option MergeStats)} {w : ℕ}

theorem foldlM_add_isSome {total : MergeStats}
    (h : results.foldlM (fun stats result => result.map stats.add) stats = some total) :
    ∀ r ∈ results, r.isSome = true := by
  induction results generalizing stats with
  | nil => simp
  | cons r results ih =>
    simp only [List.foldlM_cons, bind_eq_bind, bind_eq_some_iff, map_eq_some_iff] at h
    obtain ⟨sum, ⟨other, rfl, -⟩, h⟩ := h
    intro r' hr
    rcases List.mem_cons.mp hr with rfl | hr
    · rfl
    · exact ih h r' hr

theorem Pass.all_ended (hr : p.results = some results)
    (hs : p.stats results = some stats) : ∀ w < p.started, ∃ own, p.worker w = .ended (some own) := by
  intro w hw
  obtain ⟨r, hmem, hres⟩ := mapM_mem hr w (List.mem_range.mpr hw)
  have hsome := foldlM_add_isSome hs r hmem
  obtain ⟨own, rfl⟩ := isSome_iff_exists.mp hsome
  refine ⟨own, ?_⟩
  cases hp : p.worker w <;> simp_all [Worker.result]

theorem Pass.Stops.not_stop (h : p.Stops sh) (hall : ∀ w < p.started, ∃ own, p.worker w = .ended (some own)) :
    sh.stop = false := by
  by_contra hstop
  obtain ⟨w, hw, hnone⟩ := h (by simpa using hstop)
  obtain ⟨own, hsome⟩ := hall w hw
  simp [hnone] at hsome

theorem work_eq {c : Config} (h : p.work c io sh w m = some (sh', p')) :
    w < p.started ∧ p'.started = p.started ∧ ∃ w', move c io sh (p.worker w) m = some (sh', w') ∧
      p'.worker = update p.worker w w' := by
  simp only [Pass.work] at h
  split at h
  case isFalse => cases h
  case isTrue hw =>
    simp only [map_eq_some_iff, Prod.mk.injEq] at h
    obtain ⟨⟨sh1, w'⟩, hmove, rfl, rfl⟩ := h
    exact ⟨hw, rfl, w', hmove, rfl⟩

theorem move_ended {r : Option MergeStats} : move c io sh (.ended r) m = none := by
  cases m <;> rfl

theorem Pass.Stops.work (h : p.Stops sh)
    (hstop : ∀ w', move c io sh (p.worker w) m = some (sh', w') → sh'.stop = true → sh.stop = true ∨ w' = .ended none)
    (hwork : p.work c io sh w m = some (sh', p')) : p'.Stops sh' := by
  obtain ⟨hw, hstarted, w', hmove, hworker⟩ := work_eq hwork
  intro hs
  rw [hstarted, hworker]
  rcases hstop w' hmove hs with hold | rfl
  · obtain ⟨v, hv, hended⟩ := h hold
    have hne : v ≠ w := by
      rintro rfl
      rw [hended, move_ended] at hmove
      cases hmove
    exact ⟨v, hv, by rw [update_of_ne hne]; exact hended⟩
  · exact ⟨w, hw, by simp⟩

theorem PlanInv.work (h : PlanInv sh p) (hwork : p.work c false sh w m = some (sh', p')) :
    sh'.base = sh.base ∧ PlanInv sh' p' := by
  obtain ⟨-, -, w', hmove, hworker⟩ := work_eq hwork
  obtain ⟨hcount, hbase, -⟩ := counting_ok (h.counting w) hmove
  refine ⟨hbase, ?_, ?_⟩
  · intro v
    rw [hworker]
    by_cases hv : v = w
    · subst hv
      simpa using hcount
    · simpa [hv] using h.counting v
  · exact h.stopped.work (fun _ hm => (counting_ok (h.counting w) hm).2.2) hwork

theorem Partly.of_step {w w' : Worker} (h : Partly c sh.base) (hs : StepOk c sh w sh' w') : Partly c sh'.base where
  equal := h.equal
  length := hs.length.trans h.length
  bytes x := by
    rcases hs.bytes x with heq | hdata
    · rw [heq]
      exact h.bytes x
    · exact .inr hdata

namespace WriteInv

theorem failed_of_stop (h : WriteInv c sh p) (hstop : sh.stop = true) : ∃ w < p.started, (p.worker w).Failed := by
  obtain ⟨w, hw, hended⟩ := h.stopped hstop
  exact ⟨w, hw, by rw [hended]; exact trivial⟩

theorem covered_work {w : ℕ} {w' : Worker} (h : WriteInv c sh p) (hw : w < p.started)
    (hs : StepOk c sh (p.worker w) sh' w') (x : ℕ) (hx : x < c.diff.size) (hd : c.diff.data x = true) :
    sh'.base[x]? = c.diff.bytes[x]? ∨ sh'.next * c.tuning.window ≤ x ∨
      (∃ v < p.started, (update p.worker w w' v).Owes c x) ∨
      ∃ v < p.started, (update p.worker w w' v).Failed := by
  have hfailed : (∃ v < p.started, (p.worker v).Failed) →
      ∃ v < p.started, (update p.worker w w' v).Failed := by
    rintro ⟨v, hv, hf⟩
    by_cases heq : v = w
    · subst heq
      exact ⟨v, hv, by simpa using hs.failed hf⟩
    · exact ⟨v, hv, by simpa [heq] using hf⟩
  have hstep : (p.worker w).Owes c x ∨ sh.next * c.tuning.window ≤ x →
      sh'.base[x]? = c.diff.bytes[x]? ∨ sh'.next * c.tuning.window ≤ x ∨
      (∃ v < p.started, (update p.worker w w' v).Owes c x) ∨
      ∃ v < p.started, (update p.worker w w' v).Failed := by
    intro ho
    rcases hs.owed x hx hd ho with ho | hn | hb | hf | hstop
    · exact .inr (.inr (.inl ⟨w, hw, by simpa using ho⟩))
    · exact .inr (.inl hn)
    · exact .inl hb
    · exact .inr (.inr (.inr ⟨w, hw, by simpa using hf⟩))
    · exact .inr (.inr (.inr (hfailed (h.failed_of_stop hstop))))
  rcases h.covered x hx hd with hb | hn | ⟨v, hv, ho⟩ | hf
  · rcases hs.bytes x with heq | ⟨-, hdiff⟩
    · exact .inl (heq.trans hb)
    · exact .inl hdiff
  · exact hstep (.inr hn)
  · by_cases heq : v = w
    · subst heq
      exact hstep (.inl ho)
    · exact .inr (.inr (.inl ⟨v, hv, by simpa [heq] using ho⟩))
  · exact .inr (.inr (.inr (hfailed hf)))

theorem work {w : ℕ} (h : WriteInv c sh p) (hpos : 0 < c.tuning.window) (hpart : Partly c sh.base)
    (hwork : p.work c true sh w m = some (sh', p')) : Partly c sh'.base ∧ WriteInv c sh' p' := by
  obtain ⟨hw, hstarted, w', hmove, hworker⟩ := work_eq hwork
  have hs : StepOk c sh (p.worker w) sh' w' := move_ok hpos hpart.length (h.valid w) hmove
  refine ⟨hpart.of_step hs, ?_, ?_, ?_, ?_, ?_⟩
  · rw [hstarted]
    exact h.started
  · intro v
    rw [hworker]
    by_cases hv : v = w
    · subst hv
      simpa using hs.valid
    · simpa [hv] using h.valid v
  · exact h.stopped.work (fun _ hm => (move_ok hpos hpart.length (h.valid w) hm).stopped) hwork
  · rw [hstarted, hworker]
    exact h.covered_work hw hs
  · rw [hstarted, hworker]
    intro v hv stats hended
    have hle := hs.next_le
    by_cases heq : v = w
    · subst heq
      rw [update_self] at hended
      exact (hs.last stats hended).imp id hs.stop_le
    · rw [update_of_ne heq] at hended
      exact (h.last v hv stats hended).imp (fun hlast => Nat.le_trans hlast hle) hs.stop_le

theorem new (ht : 0 < threads) (hstop : sh.stop = false) :
    WriteInv c { sh with next := 0 } (.new threads) where
  started := ht
  valid _ := trivial
  stopped h := by simp [hstop] at h
  covered x _ _ := .inr (.inl (by simp))
  last _ _ stats h := by simp [Pass.new] at h

theorem merged (h : WriteInv c sh p) (hpos : 0 < c.tuning.window) (hpart : Partly c sh.base)
    (hall : ∀ w < p.started, ∃ own, p.worker w = .ended (some own)) : Merged c sh.base where
  length := hpart.length.trans hpart.equal.symm
  bytes x hx := by
    rw [hpart.equal] at hx
    have hstop := h.stopped.not_stop hall
    cases hd : c.diff.data x with
    | false =>
      rcases hpart.bytes x with heq | ⟨hdata, -⟩
      · simpa [hd] using heq
      · simp [hd] at hdata
    | true =>
      rw [if_pos rfl]
      rcases h.covered x hx hd with hb | hn | ⟨w, hw, ho⟩ | ⟨w, hw, hf⟩
      · exact hb
      · obtain ⟨own, hzero⟩ := hall 0 h.started
        rcases h.last 0 h.started own hzero with hlast | hst
        · have hsize := size_le_windows (c := c) hpos
          have hmul := Nat.mul_le_mul_right c.tuning.window hlast
          omega
        · simp [hstop] at hst
      · obtain ⟨own, hended⟩ := hall w hw
        rw [hended] at ho
        exact ho.elim
      · obtain ⟨own, hended⟩ := hall w hw
        rw [hended] at hf
        exact hf.elim

end WriteInv

theorem inv_check (h : Inv c s) (ht : next c s (.check threads) = some t) : Inv c t := by
  simp only [next] at ht
  split at ht
  case h_2 => cases ht
  case h_1 hstage =>
    simp only [Inv, hstage] at h
    split at ht
    case isFalse => cases ht; exact trivial
    case isTrue hok =>
      split at ht
      case isFalse => cases ht
      case isTrue hthreads =>
        cases ht
        simp only [MergeTuning.accepted, Bool.and_eq_true, decide_eq_true_eq, beq_iff_eq, h, initial] at hok
        refine ⟨hok.1.1.1.1.1, hok.2, ?_, ?_, ?_⟩
        · simp [h, initial]
        · exact fun _ => trivial
        · intro hstop
          simp [h, initial] at hstop

theorem inv_work (h : Inv c s) (ht : next c s (.work w m) = some t) : Inv c t := by
  simp only [next] at ht
  split at ht
  case h_1 p hstage =>
    simp only [Inv, hstage] at h
    simp only [map_eq_some_iff] at ht
    obtain ⟨⟨sh', p'⟩, hwork, rfl⟩ := ht
    obtain ⟨hpos, hequal, hbase, hplan⟩ := h
    obtain ⟨hbase', hplan'⟩ := hplan.work hwork
    exact ⟨hpos, hequal, hbase'.trans hbase, hplan'⟩
  case h_2 p hstage =>
    simp only [Inv, hstage] at h
    simp only [map_eq_some_iff] at ht
    obtain ⟨⟨sh', p'⟩, hwork, rfl⟩ := ht
    exact ⟨h.1, h.2.2.work h.1 h.2.1 hwork⟩
  case h_3 => cases ht

theorem inv_join (h : Inv c s) (ht : next c s (.join threads) = some t) : Inv c t := by
  simp only [next] at ht
  split at ht
  case h_1 p hstage =>
    simp only [Inv, hstage] at h
    obtain ⟨hpos, hequal, hbase, hplan⟩ := h
    simp only [bind_eq_some_iff] at ht
    obtain ⟨results, hres, ht⟩ := ht
    split at ht
    case h_1 => cases ht; exact trivial
    case h_2 plan hstats =>
      split at ht
      case isFalse => cases ht
      case isTrue hthreads =>
        cases ht
        have hstop := hplan.stopped.not_stop (Pass.all_ended hres hstats)
        refine ⟨hpos, ⟨hequal, ?_, ?_⟩, .new hthreads.1 hstop⟩
        · simp only [hbase, hequal]
        · intro x
          exact .inl (by simp only [hbase])
  case h_2 p hstage =>
    simp only [Inv, hstage] at h
    obtain ⟨hpos, hpart, hwrite⟩ := h
    simp only [map_eq_some_iff] at ht
    obtain ⟨results, hres, ht⟩ := ht
    split at ht
    case h_1 => cases ht; exact trivial
    case h_2 stats hstats =>
      cases ht
      exact hwrite.merged hpos hpart (Pass.all_ended hres hstats)
  case h_3 => cases ht

theorem inv_next (a : Action) (h : Inv c s) (ht : next c s a = some t) : Inv c t := by
  cases a with
  | check threads => exact inv_check h ht
  | work w m => exact inv_work h ht
  | join threads => exact inv_join h ht
  | flush ok =>
    simp only [next] at ht
    split at ht
    case h_2 => cases ht
    case h_1 stats hstage =>
      cases ht
      simp only [Inv, hstage] at h ⊢
      cases ok with
      | true => exact h
      | false => exact trivial

theorem inv_reachable (h : (system c).Reachable s) : Inv c s := by
  refine h.invariant (P := Inv c) ?_ fun _ a _ hs ht => inv_next a hs ht
  rintro s rfl
  exact rfl

theorem merge_with_correct {stats : MergeStats} (h : (system c).Reachable s) (hr : s.stage = .returned (some stats)) :
    s.shared.base.length = c.base.length ∧
      ∀ x, x < c.base.length → s.shared.base[x]? = if c.diff.data x then c.diff.bytes[x]? else c.base[x]? := by
  have hinv := inv_reachable h
  simp only [Inv, hr] at hinv
  exact ⟨hinv.length, hinv.bytes⟩

def threeBytes : Config where
  base := [1, 2, 3]
  diff := ⟨[9, 0, 7], fun x => x != 1⟩
  tuning := ⟨4096, 2, 1, 1, 0⟩
  blocks := 8

def pieceMoves : List Action :=
  [.work 1 .step, .work 1 .step, .work 1 .step, .work 1 .step, .work 1 (.write 1), .work 1 .step, .work 1 .step]

def threeBytesRun : List Action :=
  [.check 1, .work 0 .step, .work 0 .step, .work 0 .step, .work 0 .step, .work 0 .step, .join 2,
    .work 1 .step, .work 1 .step, .work 1 .step] ++ pieceMoves ++ pieceMoves ++
  [.work 1 .step, .work 1 .step, .work 1 .step, .work 0 .step, .work 0 .step, .join 0, .flush true]

theorem merge_with_correct_three :
    ∃ s stats, (system threeBytes).Reachable s ∧ s.stage = .returned (some stats) ∧
      s.shared.base.length = 3 ∧ ∀ x, x < 3 → s.shared.base[x]? = [9, 2, 7][x]? := by
  have hrun : ∃ s stats, (system threeBytes).exec (initial threeBytes) threeBytesRun = some s ∧
      s.stage = .returned (some stats) := ⟨_, _, rfl, rfl⟩
  obtain ⟨s, stats, hexec, hstage⟩ := hrun
  have hreach : (system threeBytes).Reachable s := (System.Reachable.initial (M := system threeBytes) rfl).exec hexec
  obtain ⟨hlen, hbytes⟩ := merge_with_correct hreach hstage
  refine ⟨s, stats, hreach, hstage, hlen, ?_⟩
  intro x hx
  rw [hbytes x hx]
  match x with
  | 0 => rfl
  | 1 => rfl
  | 2 => rfl

end Fcvm.Merge
