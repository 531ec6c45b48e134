import Fcvm.ContainerOutput.Host

namespace Fcvm.ContainerOutput

open Library List Option

variable {cfg : Config} {utf8Lossy : Utf8Lossy} {w w' : World}

instance (p : Line) : Decidable (Plain p) :=
  decidable_of_iff (':' ∉ p.1.toList ∧ '\n' ∉ p.1.toList ∧ '\n' ∉ p.2.toList)
    ⟨fun h => ⟨h.1, h.2.1, h.2.2⟩, fun h => ⟨h.colon, h.stream, h.content⟩⟩

def orderly (w : World) : Action → Bool
  | .guest (.send (.line stream content)) => decide (Plain (stream, content))
  | .host choice => decide (WholeAtEnd w.listener choice)
  | _ => true

def trimmed (p : Line) : Line := (p.1, String.ofList (trimEnd p.2.toList))

theorem splitLine_data {p : Line} (h : ':' ∉ p.1.toList) : splitLine (data p) = some (trimmed p) := by
  have hcolon : ":".toList = [':'] := by decide +kernel
  have hnewline : "\n".toList = ['\n'] := by decide +kernel
  have hlist : (data p).toList = p.1.toList ++ ':' :: (p.2.toList ++ ['\n']) := by
    simp only [data, String.toList_append, hcolon, hnewline, append_assoc, cons_append, nil_append]
  rw [splitLine, hlist, trimEnd_append_cons _ _ (by decide), trimEnd_append_white _ (by decide), splitOnce_append h,
    map_some, String.ofList_toList]
  rfl

theorem parse_body {p : Line} (h : Plain p) : parse utf8Lossy (body p) = some (trimmed p) := by
  rw [parse, ← utf8_data, utf8Lossy.decode_utf8]
  exact splitLine_data h.colon

theorem picks_sent {β : Type} {f : Bytes → Option β} {g : Line → β} {sent : List Line} {out : List β}
    (hpicks : Picks f (sent.map body) out) (hf : ∀ p ∈ sent, f (body p) = some (g p)) :
    ∃ sub, List.Sublist sub sent ∧ out = sub.map g := by
  obtain ⟨raw, hraw, rfl⟩ := hpicks
  obtain ⟨sub, hsub, rfl⟩ := sublist_map_iff.mp hraw
  refine ⟨sub, hsub, ?_⟩
  rw [filterMap_map]
  have hsame : ∀ p ∈ sub, (f ∘ body) p = (some ∘ g) p := fun p hp => hf p (hsub.mem hp)
  rw [filterMap_congr hsame, filterMap_eq_map]

theorem write_same (w : World) (bytes : Bytes) :
    ((w.write bytes).writer, (w.write bytes).progress, (w.write bytes).sent, (w.write bytes).arrived,
      (w.write bytes).queue,
      (w.write bytes).listener) = (w.writer, w.progress, w.sent, w.arrived, w.queue, w.listener) := by
  unfold World.write
  split <;> rfl

theorem written_isPrefix_write (w : World) (bytes : Bytes) (n : ℕ) : w.written n <+: (w.write bytes).written n := by
  unfold World.write
  split
  · next m _ =>
    by_cases hn : n = m
    · subst hn
      simp only [Function.update_self]
      exact prefix_append _ _
    · simp only [Function.update_of_ne hn]
      exact prefix_rfl
  · exact prefix_rfl

theorem Turn.attempts_le {s s' : OutputWriter.State} {c : OutputWriter.Choice} (h : Turn s s' c) :
    s.attempts ≤ s'.attempts := by
  cases h with
  | leave _ _ _ attempts => omega
  | begin _ _ _ attempts => omega
  | connect _ _ _ attempts => omega
  | take _ _ _ _ _ attempts => omega
  | complete _ _ _ _ _ attempts => omega

structure Inv (utf8Lossy : Utf8Lossy) (w : World) : Prop where
  guest : ∃ lines out, Carries w lines out
  host : Reads utf8Lossy w

theorem Inv.initial : Inv utf8Lossy .initial where
  guest := by
    refine ⟨fun _ => [], [], ?_⟩
    constructor
    · exact Steady.off rfl rfl nofun
    · rfl
    · rfl
    · nofun
    · intro n
      rfl
    · intro n _
      rfl
    · nofun
    · intro d hd
      cases hd
  host := by
    constructor
    · exact List.Pairwise.nil
    · nofun
    · exact Nat.le_refl _
    · nofun
    · nofun
    · exact ⟨[], List.Sublist.refl _, rfl⟩
    · exact ⟨[], List.Sublist.refl _, rfl⟩

section

variable (h : Inv utf8Lossy w)
include h

theorem Inv.handle {s' : OutputWriter.State} {more : List Line}
    (hsame : (s'.phase, s'.stream, s'.attempts, s'.pending) =
      (w.writer.phase, w.writer.stream, w.writer.attempts, w.writer.pending))
    (hrx : queued s'.rx = queued w.writer.rx ++ more) (hmore : ∀ p ∈ more, Plain p) :
    Inv utf8Lossy { w with writer := s', sent := w.sent ++ more } := by
  obtain ⟨⟨lines, out, hguest⟩, hhost⟩ := h
  refine ⟨⟨lines, out, hguest.handle hsame hrx hmore⟩, hhost.grows rfl rfl rfl ?_ (fun _ => prefix_rfl)⟩
  simp only [Prod.mk.injEq] at hsame
  exact Nat.le_of_eq hsame.2.2.1.symm

theorem Inv.guestStep {a : OutputWriter.Action} {s' : OutputWriter.State}
    (hcond : orderly w (.guest a) = true) (hstep : OutputWriter.step w.writer a = some s') :
    Inv utf8Lossy { w.write (w.completed a) with
      writer := s', progress := progressAfter w a, sent := w.sent ++ sentBy a } := by
  cases a with
  | writer c =>
    obtain ⟨⟨lines, out, hguest⟩, hhost⟩ := h
    have hsame := write_same w (w.completed (.writer c))
    simp only [Prod.mk.injEq] at hsame
    obtain ⟨-, -, hsent, harrived, hqueue, hlistener⟩ := hsame
    have hturn := (writerStep_turn hguest.steady hstep).2
    have hnext : { w.write (w.completed (.writer c)) with writer := s', progress := 0, sent := w.sent ++ [] } =
        { w.write (w.completed (.writer c)) with writer := s', progress := 0 } := by
      rw [append_nil, ← hsent]
    simp only [progressAfter, sentBy, hnext]
    exact ⟨hguest.writer hstep, hhost.grows hlistener hqueue harrived hturn.attempts_le (written_isPrefix_write w _)⟩
  | call | close =>
    cases hstep
    simp only [World.completed, write_nil]
    exact h.handle rfl (by simp [sentBy]) (by rintro _ ⟨⟩)
  | notify =>
    simp only [OutputWriter.step] at hstep
    split at hstep
    · cases hstep
      simp only [World.completed, write_nil]
      exact h.handle rfl (by simp [sentBy]) (by rintro _ ⟨⟩)
    · cases hstep
  | send message =>
    simp only [OutputWriter.step] at hstep
    split at hstep
    · cases hstep
    · cases hstep
      simp only [World.completed, write_nil]
      refine h.handle rfl ?_ ?_
      · cases message <;> simp [queued, lineOf, sentBy]
      · intro p hp
        cases message with
        | line stream content =>
          cases mem_singleton.mp hp
          exact of_decide_eq_true hcond
        | shutdown => cases hp

theorem Inv.progressed {count : ℕ} {d : String} (hd : writing w.writer = some d)
    (hlt : w.progress + count < (utf8 d).length) :
    Inv utf8Lossy { w.write (((utf8 d).drop w.progress).take count) with progress := w.progress + count } := by
  obtain ⟨⟨lines, out, hguest⟩, hhost⟩ := h
  obtain ⟨n, hn⟩ := isSome_iff_exists.mp (hguest.steady.connected (connected_of_writing hd))
  have hsame := write_same w (((utf8 d).drop w.progress).take count)
  simp only [Prod.mk.injEq] at hsame
  obtain ⟨hwriter, -, hsent, harrived, hqueue, hlistener⟩ := hsame
  refine ⟨⟨lines, out, hguest.progressed hd hlt hn hwriter ?_ hsent rfl⟩, ?_⟩
  · simp only [World.write, hn]
  · refine hhost.grows hlistener hqueue harrived ?_ (written_isPrefix_write w _)
    exact Nat.le_of_eq (congrArg OutputWriter.State.attempts hwriter).symm

theorem Inv.step {a : Action} (hcond : orderly w a = true)
    (hstep : step cfg utf8Lossy w a = some w') : Inv utf8Lossy w' := by
  cases a with
  | guest action =>
    obtain ⟨s', hs', rfl⟩ := map_eq_some_iff.mp hstep
    exact h.guestStep hcond hs'
  | progress count =>
    obtain ⟨d, hd, hstep⟩ := bind_eq_some_iff.mp hstep
    split at hstep
    · next hlt =>
      cases hstep
      exact h.progressed hd hlt
    · cases hstep
  | arrive attempt =>
    obtain ⟨⟨lines, out, hguest⟩, hhost⟩ := h
    simp only [ContainerOutput.step] at hstep
    split at hstep
    · next hattempt =>
      cases hstep
      refine ⟨⟨lines, out, ?_⟩, hhost.arrive hattempt.1 hattempt.2⟩
      exact { hguest with }
    · cases hstep
  | host choice =>
    obtain ⟨⟨lines, out, hguest⟩, hhost⟩ := h
    obtain ⟨r, hr, rfl⟩ := map_eq_some_iff.mp hstep
    refine ⟨⟨lines, out, ?_⟩, hhost.host (of_decide_eq_true hcond) hr⟩
    exact { hguest with }
  | drain | signal =>
    obtain ⟨⟨lines, out, hguest⟩, hhost⟩ := h
    cases hstep
    refine ⟨⟨lines, out, ?_⟩, hhost.quiet rfl (fun hended => ⟨hended, rfl⟩)⟩
    exact { hguest with }

theorem Inv.seen_sublist : List.Sublist (seen w) (w.sent.map body) := by
  obtain ⟨⟨lines, out, hguest⟩, hhost⟩ := h
  have hwhole : (range w.writer.attempts).flatMap (wholeLines w) =
      ((range w.writer.attempts).flatMap lines).map body := by
    rw [map_flatMap]
    apply flatMap_congr
    intro n _
    exact hguest.whole n
  have hsent : List.Sublist (((range w.writer.attempts).flatMap lines).map body) (w.sent.map body) := by
    rw [hguest.sent, append_assoc]
    exact (sublist_append_left _ _).map body
  refine List.Sublist.trans ?_ hsent
  rw [← hwhole]
  unfold seen
  cases hconn : w.listener.conn with
  | none => exact nil_sublist _
  | some n =>
    have hlt : n < w.writer.attempts :=
      Nat.lt_of_lt_of_le (hhost.bound n (by simp [hconn])) hhost.arrived
    refine List.Sublist.trans ?_ (flatMap_range_sublist (wholeLines w) hlt)
    rw [range_succ, flatMap_append, flatMap_singleton]
    exact (List.Sublist.refl _).append (splitLines_isPrefix ( take_prefix _ _)).sublist

end

/-- The lines that the listener hands on are some of those sent, in their order, without their trailing white space. -/
theorem lines_whole_in_order (cfg : Config) (utf8Lossy : Utf8Lossy) (w : World)
    (h : (containerOutput cfg utf8Lossy).ReachableBy (fun w a => orderly w a = true) w) :
    (∃ sub, List.Sublist sub w.sent ∧ w.listener.logged = sub.map trimmed) ∧
      ∃ sub, List.Sublist sub w.sent ∧
        w.listener.printed = sub.map fun p => ((trimmed p).1 == "stdout", (trimmed p).2) := by
  have hinv : Inv utf8Lossy w := by
    refine h.invariant ?_ fun w a t hw hcond hstep => hw.step hcond hstep
    rintro w rfl
    exact .initial
  have hseen := hinv.seen_sublist
  obtain ⟨⟨lines, out, hguest⟩, hhost⟩ := hinv
  constructor
  · exact picks_sent (hhost.logged.mono hseen) fun p hp => parse_body (hguest.plain p hp)
  · apply picks_sent (hhost.printed.mono hseen)
    intro p hp
    rw [printing, parse_body (hguest.plain p hp)]
    rfl

def allOn : Config := ⟨true, true, true⟩

def takes (stream content : String) : List Action :=
  [.guest (.send (.line stream content)), .guest (.writer .ok), .guest (.writer .ok), .arrive 0, .host .accept,
    .guest (.writer .ok), .guest (.writer .ok)]

def reads (count : ℕ) : List Action := List.replicate count (.host (.byte true))

/-- A line is written and read. -/
theorem line_handed_on : ∃ w : World, w.sent = [("stdout", "ab ")] ∧ w.listener.logged = [("stdout", "ab")] ∧
    w.listener.printed = [(true, "ab")] ∧ ∃ sub, List.Sublist sub w.sent ∧ w.listener.logged = sub.map trimmed := by
  have hrun : (((containerOutput allOn .whole).restrict orderly).exec .initial
      (takes "stdout" "ab " ++ [.guest (.writer .ok)] ++ reads 11)).map
        (fun w => (w.sent, w.listener.logged, w.listener.printed)) =
      some ([("stdout", "ab ")], [("stdout", "ab")], [(true, "ab")]) := by
    decide +kernel
  obtain ⟨w, hw, hend⟩ := Option.map_eq_some_iff.mp hrun
  simp only [Prod.mk.injEq] at hend
  have hstart : ((containerOutput allOn .whole).restrict orderly).Reachable .initial := .initial rfl
  have hreach := System.ReachableBy.of_restrict (hstart.exec hw)
  exact ⟨w, hend.1, hend.2.1, hend.2.2, (lines_whole_in_order allOn .whole w hreach).1⟩

/-- A write fails within a line: its part is handed on at the end of the connection, and the line again, whole. And a
stream with a colon is split there. -/
theorem cut_line_handed_on :
    (∃ w, (containerOutput allOn .whole).Reachable w ∧ w.sent = [("stdout", "ab")] ∧
      w.listener.logged = [("stdout", "a"), ("stdout", "ab")] ∧
      ¬ ∃ sub, List.Sublist sub w.sent ∧ w.listener.logged = sub.map trimmed) ∧
    ∃ w, (containerOutput allOn .whole).Reachable w ∧ w.sent = [("a:b", "c")] ∧ w.listener.logged = [("a", "b:c")] ∧
      ¬ ∃ sub, List.Sublist sub w.sent ∧ w.listener.logged = sub.map trimmed := by
  have hstart : (containerOutput allOn .whole).Reachable .initial := .initial rfl
  constructor
  · have hrun : ((containerOutput allOn .whole).exec .initial
        (takes "stdout" "ab" ++ [.progress 8] ++ reads 8 ++
          [.guest (.writer .fail), .host (.eof true), .guest .call, .guest (.writer .ok), .guest (.writer .ok),
            .guest (.writer .ok), .arrive 1, .host .accept, .guest (.writer .ok), .guest (.writer .ok)] ++
              reads 10)).map
          (fun w => (w.sent, w.listener.logged)) = some ([("stdout", "ab")], [("stdout", "a"), ("stdout", "ab")]) := by
      decide +kernel
    obtain ⟨w, hw, hend⟩ := Option.map_eq_some_iff.mp hrun
    obtain ⟨hsent, hlogged⟩ := Prod.mk.inj hend
    refine ⟨w, hstart.exec hw, hsent, hlogged, ?_⟩
    rintro ⟨sub, hsub, heq⟩
    have hle := hsub.length_le
    have hlength := congrArg List.length heq
    simp only [hsent, hlogged, length_map, length_cons, length_nil] at hle hlength
    omega
  · have hrun : ((containerOutput allOn .whole).exec .initial
        (takes "a:b" "c" ++ [.guest (.writer .ok)] ++ reads 6)).map (fun w => (w.sent, w.listener.logged)) =
        some ([("a:b", "c")], [("a", "b:c")]) := by
      decide +kernel
    obtain ⟨w, hw, hend⟩ := Option.map_eq_some_iff.mp hrun
    obtain ⟨hsent, hlogged⟩ := Prod.mk.inj hend
    refine ⟨w, hstart.exec hw, hsent, hlogged, ?_⟩
    rintro ⟨sub, hsub, heq⟩
    rw [hsent] at hsub
    rw [hlogged] at heq
    obtain ⟨p, rfl, hp⟩ := map_eq_singleton_iff.mp heq.symm
    cases mem_singleton.mp (hsub.mem mem_cons_self)
    exact absurd hp (by decide +kernel)

end Fcvm.ContainerOutput
