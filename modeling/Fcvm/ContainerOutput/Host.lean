import Fcvm.ContainerOutput.Guest

namespace Fcvm.ContainerOutput

open Library List

variable {cfg : Config} {utf8Lossy : Utf8Lossy} {w w' : World}

variable {n : ℕ} {l : Listener} {room : Bool}

def parse (utf8Lossy : Utf8Lossy) (raw : Bytes) : Option Line := splitLine (utf8Lossy.decode (raw ++ [newline]))

def printing (utf8Lossy : Utf8Lossy) (raw : Bytes) : Option (Bool × String) :=
  (parse utf8Lossy raw).map fun p => (p.1 == "stdout", p.2)

def wholeLines (w : World) (n : ℕ) : List Bytes := (splitLines newline (w.written n)).1

def seen (w : World) : List Bytes :=
  match w.listener.conn with
  | none => []
  | some n =>
    (List.range n).flatMap (wholeLines w) ++ (splitLines newline ((w.written n).take w.listener.taken)).1

structure Reads (utf8Lossy : Utf8Lossy) (w : World) : Prop where
  order : (w.listener.conn.toList ++ w.queue).Pairwise (· < ·)
  bound : ∀ n ∈ w.listener.conn.toList ++ w.queue, n < w.arrived
  arrived : w.arrived ≤ w.writer.attempts
  taken : ∀ n, w.listener.conn = some n → w.listener.taken ≤ (w.written n).length
  part : ∀ n, w.listener.conn = some n → w.listener.ended = false →
    (splitLines newline ((w.written n).take w.listener.taken)).2 = w.listener.lineBytes
  logged : Picks (parse utf8Lossy) (seen w) w.listener.logged
  printed : Picks (printing utf8Lossy) (seen w) w.listener.printed

theorem seen_sublist_of_grows (hlistener : w'.listener = w.listener) (hgrows : ∀ n, w.written n <+: w'.written n)
    (htaken : ∀ n, w.listener.conn = some n → w.listener.taken ≤ (w.written n).length) :
    List.Sublist (seen w) (seen w') := by
  unfold seen
  rw [hlistener]
  rcases hconn : w.listener.conn with _ | n
  · exact List.Sublist.refl _
  dsimp only
  obtain ⟨more, hmore⟩ := hgrows n
  rw [← hmore, take_append_of_le_length (htaken n hconn)]
  refine List.Sublist.append (flatMap_sublist_flatMap ?_) (List.Sublist.refl _)
  intro m _
  exact (splitLines_isPrefix (hgrows m)).sublist

theorem Reads.grows (h : Reads utf8Lossy w) (hlistener : w'.listener = w.listener) (hqueue : w'.queue = w.queue)
    (harrived : w'.arrived = w.arrived) (hattempts : w.writer.attempts ≤ w'.writer.attempts)
    (hgrows : ∀ n, w.written n <+: w'.written n) : Reads utf8Lossy w' := by
  have hseen := seen_sublist_of_grows hlistener hgrows h.taken
  constructor
  · rw [hlistener, hqueue]
    exact h.order
  · rw [hlistener, hqueue, harrived]
    exact h.bound
  · rw [harrived]
    exact h.arrived.trans hattempts
  · intro n hn
    rw [hlistener] at hn ⊢
    exact (h.taken n hn).trans (hgrows n).length_le
  · intro n hn hended
    rw [hlistener] at hn hended ⊢
    obtain ⟨more, hmore⟩ := hgrows n
    rw [← hmore, take_append_of_le_length (h.taken n hn)]
    exact h.part n hn hended
  · rw [hlistener]
    exact h.logged.mono hseen
  · rw [hlistener]
    exact h.printed.mono hseen

theorem Reads.arrive (h : Reads utf8Lossy w) (hle : w.arrived ≤ n) (hlt : n < w.writer.attempts) :
    Reads utf8Lossy { w with arrived := n + 1, queue := w.queue ++ [n] } := by
  refine ⟨?_, ?_, hlt, h.taken, h.part, h.logged, h.printed⟩
  · rw [← append_assoc]
    refine pairwise_append.mpr ⟨h.order, pairwise_singleton _ _, ?_⟩
    intro m hm m' hm'
    cases mem_singleton.mp hm'
    exact Nat.lt_of_lt_of_le (h.bound m hm) hle
  · intro m hm
    rw [← append_assoc, mem_append] at hm
    rcases hm with hm | hm
    · exact Nat.lt_succ_of_lt (Nat.lt_of_lt_of_le (h.bound m hm) hle)
    · cases mem_singleton.mp hm
      exact Nat.lt_succ_self n

theorem Reads.quiet (h : Reads utf8Lossy w)
    (hsame : (l.conn, l.taken, l.logged, l.printed) =
      (w.listener.conn, w.listener.taken, w.listener.logged, w.listener.printed))
    (hpart : l.ended = false → w.listener.ended = false ∧ l.lineBytes = w.listener.lineBytes) :
    Reads utf8Lossy { w with listener := l } := by
  simp only [Prod.mk.injEq] at hsame
  obtain ⟨hconn, htaken, hlogged, hprinted⟩ := hsame
  have hseen : seen { w with listener := l } = seen w := by
    simp only [seen, hconn, htaken]
    rfl
  constructor
  · simp only [hconn]
    exact h.order
  · simp only [hconn]
    exact h.bound
  · exact h.arrived
  · simp only [hconn, htaken]
    exact h.taken
  · intro n hn hended
    simp only [hconn] at hn
    simp only at hended
    simp only [htaken, (hpart hended).2]
    exact h.part n hn (hpart hended).1
  · rw [hseen]
    simp only [hlogged]
    exact h.logged
  · rw [hseen]
    simp only [hprinted]
    exact h.printed

theorem Reads.switch {queue : List ℕ} (h : Reads utf8Lossy w) (hqueue : w.queue = n :: queue) :
    Reads utf8Lossy { w with listener := w.listener.switch n, queue := queue } := by
  have horder := h.order
  have hbound := h.bound
  rw [hqueue] at horder hbound
  have hseen : List.Sublist (seen w) (seen { w with listener := w.listener.switch n, queue := queue }) := by
    unfold seen
    rcases hconn : w.listener.conn with _ | m
    · exact nil_sublist _
    have hlt : m < n := by
      rw [hconn] at horder
      exact (pairwise_append.mp horder).2.2 m (by simp) n mem_cons_self
    have hread : List.Sublist (splitLines newline ((w.written m).take w.listener.taken)).1 (wholeLines w m) :=
      (splitLines_isPrefix (List.take_prefix _ _)).sublist
    refine List.Sublist.trans ?_ (sublist_append_left _ _)
    refine List.Sublist.trans ?_ (flatMap_range_sublist (wholeLines w) hlt)
    rw [range_succ, flatMap_append, flatMap_singleton]
    exact (List.Sublist.refl _).append hread
  constructor
  · exact (pairwise_append.mp horder).2.1
  · exact fun m hm => hbound m (mem_append_right _ hm)
  · exact h.arrived
  · exact fun m _ => Nat.zero_le _
  · intro m _ _
    rfl
  · exact h.logged.mono hseen
  · exact h.printed.mono hseen

theorem line_of_none (h : splitLine (utf8Lossy.decode l.lineBytes) = none) :
    l.line cfg utf8Lossy room = { l with lineBytes := [], count := 0 } := by
  simp only [Listener.line, h]

theorem line_of_some {p : Line} (h : splitLine (utf8Lossy.decode l.lineBytes) = some p) :
    l.line cfg utf8Lossy room =
      { l with
        lineBytes := [], count := 0
        printed :=
          if p.1 ≠ "heartbeat" ∧ cfg.emitOutput ∧ (¬ cfg.nonBlockingOutput ∨ room) then
            l.printed ++ [(p.1 == "stdout", p.2)]
          else l.printed
        logged := if cfg.logs then l.logged ++ [p] else l.logged } := by
  simp only [Listener.line, h]

theorem line_logged {raw : Bytes} {xs : List Bytes} (hraw : l.lineBytes = raw ++ [newline])
    (h : Picks (parse utf8Lossy) xs l.logged) :
    Picks (parse utf8Lossy) (xs ++ [raw]) (l.line cfg utf8Lossy room).logged := by
  have hskip := h.mono (sublist_append_left xs [raw])
  cases hsplit : splitLine (utf8Lossy.decode l.lineBytes) with
  | none =>
    rw [line_of_none hsplit]
    exact hskip
  | some p =>
    rw [line_of_some hsplit]
    dsimp only
    split
    · rw [hraw] at hsplit
      exact h.append hsplit
    · exact hskip

theorem line_printed {raw : Bytes} {xs : List Bytes} (hraw : l.lineBytes = raw ++ [newline])
    (h : Picks (printing utf8Lossy) xs l.printed) :
    Picks (printing utf8Lossy) (xs ++ [raw]) (l.line cfg utf8Lossy room).printed := by
  have hskip := h.mono (sublist_append_left xs [raw])
  cases hsplit : splitLine (utf8Lossy.decode l.lineBytes) with
  | none =>
    rw [line_of_none hsplit]
    exact hskip
  | some p =>
    rw [line_of_some hsplit]
    dsimp only
    split
    · rw [hraw] at hsplit
      apply h.append
      rw [printing, parse, hsplit]
      rfl
    · exact hskip

theorem line_same (l : Listener) (room : Bool) :
    ((l.line cfg utf8Lossy room).conn, (l.line cfg utf8Lossy room).taken, (l.line cfg utf8Lossy room).ended,
      (l.line cfg utf8Lossy room).lineBytes) = (l.conn, l.taken, l.ended, []) := by
  cases hsplit : splitLine (utf8Lossy.decode l.lineBytes) with
  | none => rw [line_of_none hsplit]
  | some p => rw [line_of_some hsplit]

theorem mem_of_mem_trimEnd {c : Char} {text : List Char} (h : c ∈ trimEnd text) : c ∈ text := by
  rw [trimEnd, mem_reverse] at h
  exact mem_reverse.mp ((dropWhile_sublist _).mem h)

theorem line_of_no_colon (h : UInt8.ofNat ':'.toNat ∉ l.lineBytes) :
    l.line cfg utf8Lossy room = { l with lineBytes := [], count := 0 } := by
  apply line_of_none
  rw [splitLine, splitOnce_eq_none]
  · rfl
  · exact fun hmem => h (utf8Lossy.ascii _ _ (by decide) (mem_of_mem_trimEnd hmem))

theorem Reads.read (h : Reads utf8Lossy w) (hconn : w.listener.conn = some n)
    (hl : (l.conn, l.taken) = (some n, w.listener.taken + 1)) (hlt : w.listener.taken < (w.written n).length)
    (hpart : (splitLines newline ((w.written n).take (w.listener.taken + 1))).2 = l.lineBytes)
    (hlogged : Picks (parse utf8Lossy) (seen { w with listener := l }) l.logged)
    (hprinted : Picks (printing utf8Lossy) (seen { w with listener := l }) l.printed) :
    Reads utf8Lossy { w with listener := l } := by
  obtain ⟨hlconn, htaken⟩ := Prod.mk.inj hl
  refine ⟨?_, ?_, h.arrived, ?_, ?_, hlogged, hprinted⟩
  · simp only [hlconn, ← hconn]
    exact h.order
  · simp only [hlconn, ← hconn]
    exact h.bound
  · intro m hm
    simp only [hlconn] at hm
    cases hm
    simp only [htaken]
    exact hlt
  · intro m hm _
    simp only [hlconn] at hm
    cases hm
    simp only [htaken]
    exact hpart

theorem seen_read (hl : (l.conn, l.taken) = (some n, w.listener.taken + 1)) :
    seen { w with listener := l } =
      (List.range n).flatMap (wholeLines w) ++ (splitLines newline ((w.written n).take (w.listener.taken + 1))).1 := by
  obtain ⟨hlconn, htaken⟩ := Prod.mk.inj hl
  simp only [seen, hlconn, htaken]
  rfl

theorem Reads.byte {b : UInt8} (h : Reads utf8Lossy w)
    (hconn : w.listener.conn = some n) (hended : w.listener.ended = false)
    (hb : (w.written n)[w.listener.taken]? = some b)
    (hl : l = { w.listener with
      taken := w.listener.taken + 1, lineBytes := w.listener.lineBytes ++ [b], count := w.listener.count + 1 }) :
    Reads utf8Lossy { w with listener := if b = 0x0A then l.line cfg utf8Lossy room else l } := by
  have hlt : w.listener.taken < (w.written n).length := (List.getElem?_eq_some_iff.mp hb).1
  have hfeed : splitLines newline ((w.written n).take (w.listener.taken + 1)) =
      feed newline (splitLines newline ((w.written n).take w.listener.taken)) b := by
    rw [take_add_one, hb, Option.toList_some, splitLines_append_singleton]
  have hseen : seen w = (List.range n).flatMap (wholeLines w) ++
      (splitLines newline ((w.written n).take w.listener.taken)).1 := by
    simp only [seen, hconn]
  have hpart := h.part n hconn hended
  have hlogged : l.logged = w.listener.logged := by rw [hl]
  have hprinted : l.printed = w.listener.printed := by rw [hl]
  have hread : (l.conn, l.taken) = (some n, w.listener.taken + 1) := by rw [hl, ← hconn]
  split
  · next hnl =>
    have hline : ((l.line cfg utf8Lossy room).conn, (l.line cfg utf8Lossy room).taken,
      (l.line cfg utf8Lossy room).ended,
        (l.line cfg utf8Lossy room).lineBytes) = (l.conn, l.taken, l.ended, []) := line_same l room
    simp only [Prod.mk.injEq] at hline
    obtain ⟨hc, ht, -, hp⟩ := hline
    have hnext : ((l.line cfg utf8Lossy room).conn, (l.line cfg utf8Lossy room).taken) =
        (some n, w.listener.taken + 1) := by
      rw [hc, ht, hread]
    have hraw : l.lineBytes = w.listener.lineBytes ++ [newline] := by rw [hl, hnl]; rfl
    rw [feed, if_pos (show b = newline from hnl), hpart] at hfeed
    have hseen' : seen { w with listener := l.line cfg utf8Lossy room } = seen w ++ [w.listener.lineBytes] := by
      rw [seen_read hnext, hfeed, hseen, append_assoc]
    apply h.read hconn hnext hlt
    · rw [hfeed, hp]
    · rw [hseen']
      exact line_logged hraw (hlogged ▸ h.logged)
    · rw [hseen']
      exact line_printed hraw (hprinted ▸ h.printed)
  · next hnl =>
    rw [feed, if_neg (show ¬ b = newline from hnl), hpart] at hfeed
    have hseen' : seen { w with listener := l } = seen w := by
      rw [seen_read hread, hfeed, hseen]
    apply h.read hconn hread hlt
    · rw [hfeed, hl]
    · rw [hseen', hlogged]
      exact h.logged
    · rw [hseen', hprinted]
      exact h.printed

def WholeAtEnd (l : Listener) : HostChoice → Prop
  | .eof _ => l.count = 0 ∨ UInt8.ofNat ':'.toNat ∉ l.lineBytes
  | _ => True

instance (l : Listener) (c : HostChoice) : Decidable (WholeAtEnd l c) := by
  unfold WholeAtEnd
  split <;> infer_instance

theorem Reads.host {c : HostChoice} {r : Listener × List ℕ} (h : Reads utf8Lossy w) (hcond : WholeAtEnd w.listener c)
    (hstep : listenerStep cfg utf8Lossy w.written w.queue w.listener c = some r) :
    Reads utf8Lossy { w with listener := r.1, queue := r.2 } := by
  cases c with
  | byte room =>
    simp only [listenerStep] at hstep
    split at hstep
    · next n _ hconn =>
      split at hstep
      · cases hstep
      · next hended =>
        obtain ⟨b, hb, rfl⟩ := Option.map_eq_some_iff.mp hstep
        exact h.byte hconn (by simpa using hended) hb rfl
    · cases hstep
  | eof room =>
    simp only [listenerStep] at hstep
    split at hstep
    · split at hstep
      · cases hstep
        exact h.quiet rfl nofun
      · next hcount =>
        cases hstep
        rw [line_of_no_colon (hcond.resolve_left hcount)]
        exact h.quiet rfl nofun
    · cases hstep
  | readError | acceptError | notified | drained | nothingQueued =>
    simp only [listenerStep] at hstep
    split at hstep
    · cases hstep
      exact h.quiet rfl (fun hended => ⟨hended, rfl⟩)
    · cases hstep
  | accept =>
    simp only [listenerStep] at hstep
    split at hstep
    · split at hstep
      · next n queue hqueue =>
        cases hstep
        exact h.switch hqueue
      · cases hstep
    · cases hstep

end Fcvm.ContainerOutput
