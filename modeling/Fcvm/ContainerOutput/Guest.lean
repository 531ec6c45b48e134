import Fcvm.OutputWriter.Reconnect
import Fcvm.ContainerOutput.Model

namespace Fcvm.ContainerOutput

open Library List Function Option

variable {p : Line} {n : ℕ} {d : String}

def newline : UInt8 := 0x0A

def body (p : Line) : Bytes := utf8 (p.1 ++ ":" ++ p.2)

def data (p : Line) : String := p.1 ++ ":" ++ p.2 ++ "\n"

structure Plain (p : Line) : Prop where
  colon : ':' ∉ p.1.toList
  stream : '\n' ∉ p.1.toList
  content : '\n' ∉ p.2.toList

theorem utf8_data (p : Line) : utf8 (data p) = body p ++ [newline] := by
  rw [data, utf8_append, body]
  congr 1

theorem newline_notMem_body (h : Plain p) : newline ∉ body p := by
  intro hmem
  have hchar : '\n' ∈ (p.1 ++ ":" ++ p.2).toList := mem_of_mem_utf8 (by decide) hmem
  have hcolon : ":".toList = [':'] := by decide +kernel
  rw [String.toList_append, String.toList_append, hcolon, mem_append, mem_append] at hchar
  rcases hchar with (hchar | hchar) | hchar
  · exact h.stream hchar
  · exact absurd hchar (by decide)
  · exact h.content hchar

section Writer

open OutputWriter (State Choice OutputMessage writerStep)

variable {s s' : State}

def inFlight (s : State) : Option String :=
  match s.phase with
  | .writing data => some data
  | _ => s.pending

def lineOf : OutputMessage → Option Line
  | .line stream content => some (stream, content)
  | .shutdown => none

def queued (rx : List OutputMessage) : List Line := rx.filterMap lineOf

def taking : OutputWriter.Phase → Bool
  | .idle | .writing _ => true
  | _ => false

variable {phase : OutputWriter.Phase} {c : Choice}

theorem connected_of_taking (h : taking phase = true) : phase.connected = true := by
  cases phase <;> first | rfl | cases h

structure Steady (s : State) : Prop where
  stream : s.stream.isSome = true → s.phase.mayHold = true
  connected : s.phase.connected = true → s.stream.isSome = true
  latest : ∀ n, s.stream = some n → n + 1 = s.attempts
  attempting : s.phase.attempting = true → 0 < s.attempts
  idle : taking s.phase = true → s.pending = none
  pending : ∀ data, s.phase = .writingPending data → s.pending = some data

inductive Turn (s s' : State) : Choice → Prop
  | leave {c : Choice} (quiet : c = .ok → writing s = none) (rx : queued s'.rx = queued s.rx)
      (flight : inFlight s' = inFlight s) (attempts : s'.attempts = s.attempts) (phase : s'.phase.attempting = false)
      (stream : s'.stream = none ∨ s'.stream = s.stream ∧ writing s = none) : Turn s s' c
  | begin {c : Choice} (quiet : writing s = none) (rx : queued s'.rx = queued s.rx) (flight : inFlight s' = inFlight s)
      (attempts : s'.attempts = s.attempts + 1) (stream : s'.stream = none) : Turn s s' c
  | connect {c : Choice} (quiet : writing s = none) (rx : queued s'.rx = queued s.rx)
    (flight : inFlight s' = inFlight s)
      (attempts : s'.attempts = s.attempts) (phase : s.phase.attempting = true) (phase' : s'.phase.attempting = false)
      (stream : s'.stream = some (s.attempts - 1)) : Turn s s' c
  | take {c : Choice} (p : Line) (quiet : writing s = none) (rx : queued s.rx = p :: queued s'.rx)
      (flight : inFlight s = none) (flight' : inFlight s' = some (data p)) (attempts : s'.attempts = s.attempts)
      (phase : s'.phase.attempting = false) (stream : s'.stream = s.stream) : Turn s s' c
  | complete (d : String) (writing : writing s = some d) (rx : queued s'.rx = queued s.rx)
    (flight : inFlight s = some d)
      (flight' : inFlight s' = none) (attempts : s'.attempts = s.attempts) (phase : s'.phase.attempting = false)
      (stream : s'.stream = s.stream) : Turn s s' .ok

theorem Steady.stream_none (h : Steady s) (hphase : s.phase.mayHold = false) : s.stream = none := by
  cases hstream : s.stream with
  | none => rfl
  | some n =>
    have hhold := h.stream (by rw [hstream]; rfl)
    cases hphase.symm.trans hhold

theorem Steady.off (hstream : s'.stream = none) (hconnected : s'.phase.connected = false)
    (hattempts : s'.phase.attempting = true → 0 < s'.attempts) : Steady s' := by
  have hphase : ∀ {phase}, s'.phase = phase → phase.connected = true → False := by
    rintro phase rfl h
    cases hconnected.symm.trans h
  constructor
  · intro h
    simp [hstream] at h
  · intro h
    exact (hphase rfl h).elim
  · intro n h
    cases hstream.symm.trans h
  · exact hattempts
  · exact fun h => (hphase rfl (connected_of_taking h)).elim
  · exact fun data h => (hphase h rfl).elim

theorem Steady.on (h : Steady s) (hsame : (s'.stream, s'.attempts) = (s.stream, s.attempts))
    (hphase : s'.phase.mayHold = true ∧ s'.phase.attempting = false)
    (hconnected : s'.phase.connected = true → s.stream.isSome = true)
    (hidle : taking s'.phase = true → s'.pending = none)
    (hpending : ∀ data, s'.phase = .writingPending data → s'.pending = some data) : Steady s' := by
  obtain ⟨hstream, hattempts⟩ := Prod.mk.inj hsame
  constructor
  · exact fun _ => hphase.1
  · rw [hstream]
    exact hconnected
  · rw [hstream, hattempts]
    exact h.latest
  · intro hattempting
    cases hphase.2.symm.trans hattempting
  · exact hidle
  · exact hpending

theorem writing_eq_none (h : s.phase.connected = false) : writing s = none := by
  unfold writing
  split
  · next heq =>
    rw [heq] at h
    cases h
  · next heq =>
    rw [heq] at h
    cases h
  · rfl

theorem inFlight_eq_pending (h : ∀ data, s.phase ≠ .writing data) : inFlight s = s.pending := by
  unfold inFlight
  split
  · next heq => exact absurd heq (h _)
  · rfl

theorem Turn.off (hquiet : c = .ok → writing s = none) (hrx : s'.rx = s.rx)
    (hattempts : s'.attempts = s.attempts) (hpending : s'.pending = inFlight s)
    (hphase : s'.phase.connected = false ∧ s'.phase.attempting = false) (hstream : s'.stream = none) :
    Steady s' ∧ Turn s s' c := by
  have hflight : inFlight s' = inFlight s := by
    rw [inFlight_eq_pending, hpending]
    intro data h
    rw [h] at hphase
    exact Bool.noConfusion hphase.1
  refine ⟨Steady.off hstream hphase.1 ?_, .leave hquiet (by rw [hrx]) hflight hattempts hphase.2 (.inl hstream)⟩
  intro h
  simp [hphase.2] at h

theorem Turn.begun (h : Steady s) (hnone : s.phase.mayHold = false)
    (hphase : phase.connected = false) (hquiet : s.phase.connected = false) :
    Steady (s.begin phase) ∧ Turn s (s.begin phase) c := by
  have hstream := h.stream_none hnone
  have hflight : inFlight (s.begin phase) = inFlight s := by
    rw [inFlight_eq_pending, inFlight_eq_pending]
    · rfl
    · intro data heq
      rw [heq] at hquiet
      cases hquiet
    · intro data heq
      have hbegin : (s.begin phase).phase = phase := rfl
      rw [hbegin] at heq
      rw [heq] at hphase
      cases hphase
  exact ⟨Steady.off hstream hphase (fun _ => Nat.succ_pos _), .begin (writing_eq_none hquiet) rfl hflight rfl hstream⟩

theorem Turn.connected (h : Steady s) (hphase : s.phase.attempting = true) :
    Steady s.connect ∧ Turn s s.connect c := by
  have hquiet : s.phase.connected = false := by
    revert hphase
    cases s.phase <;> simp [OutputWriter.Phase.attempting, OutputWriter.Phase.connected]
  have hpos := h.attempting hphase
  have hflight : inFlight s.connect = inFlight s := by
    rw [inFlight_eq_pending (s := s)]
    · rfl
    · intro data heq
      rw [heq] at hquiet
      cases hquiet
  refine ⟨?_, .connect (writing_eq_none hquiet) rfl hflight rfl hphase rfl rfl⟩
  constructor
  · exact fun _ => rfl
  · exact nofun
  · intro n hn
    cases hn
    exact Nat.sub_add_cancel hpos
  · exact nofun
  · exact nofun
  · exact nofun

theorem Turn.signalled (hc : c ≠ .ok) {pending : Option String} (hpending : pending = inFlight s)
    (h : (if s.permit then some (s.signalled pending) else none) = some s') : Steady s' ∧ Turn s s' c := by
  split at h
  · cases h
    exact Turn.off (fun h => absurd h hc) rfl rfl hpending ⟨rfl, rfl⟩ rfl
  · cases h

theorem writerStep_turn (hs : Steady s) (h : writerStep s c = some s') : Steady s' ∧ Turn s s' c := by
  cases hphase : s.phase with
  | start | trying =>
    cases c <;> simp only [writerStep, hphase, reduceCtorEq, some.injEq] at h
    subst h
    exact Turn.begun hs (by rw [hphase]; rfl) rfl (by rw [hphase]; rfl)
  | starting =>
    have hnone := hs.stream_none (by rw [hphase]; rfl)
    cases c <;> simp only [writerStep, hphase, reduceCtorEq, some.injEq] at h
    · subst h
      exact Turn.connected hs (by rw [hphase]; rfl)
    · subst h
      exact Turn.off (by rintro ⟨⟩) rfl rfl (by simp [inFlight, hphase]) ⟨rfl, rfl⟩ hnone
  | connecting attempt explicit =>
    have hnone := hs.stream_none (by rw [hphase]; rfl)
    cases c <;> simp only [writerStep, hphase, reduceCtorEq, some.injEq] at h
    · subst h
      exact Turn.connected hs (by rw [hphase]; rfl)
    · subst h
      refine Turn.off (by rintro ⟨⟩) rfl rfl (by simp [inFlight, hphase]) ?_ hnone
      dsimp only
      split
      · exact ⟨rfl, rfl⟩
      · split <;> exact ⟨rfl, rfl⟩
  | top =>
    have hquiet : writing s = none := by simp [writing, hphase]
    have hflight : inFlight s = s.pending := by simp [inFlight, hphase]
    cases c <;> simp only [writerStep, hphase, reduceCtorEq] at h
    split at h
    · cases h
      exact Turn.off (fun _ => hquiet) rfl rfl hflight.symm ⟨rfl, rfl⟩ rfl
    · split at h
      · next hstream hpending =>
        cases h
        refine ⟨hs.on rfl ⟨rfl, rfl⟩ (fun _ => by rw [hstream]; rfl) (by rintro ⟨⟩) ?_,
          .leave (fun _ => hquiet) rfl hflight.symm rfl rfl (.inr ⟨rfl, hquiet⟩)⟩
        intro data heq
        cases heq
        exact hpending
      · next hstream hpending =>
        cases h
        exact ⟨hs.on rfl ⟨rfl, rfl⟩ (fun _ => by rw [hstream]; rfl) (fun _ => hpending) (by rintro _ ⟨⟩),
          .leave (fun _ => hquiet) rfl hflight.symm rfl rfl (.inr ⟨rfl, hquiet⟩)⟩
      · next hstream =>
        cases h
        refine Turn.off (fun _ => hquiet) rfl rfl hflight.symm ?_ hstream
        dsimp only
        split <;> exact ⟨rfl, rfl⟩
  | rearm | clearing =>
    have hnone := hs.stream_none (by rw [hphase]; rfl)
    cases c <;> simp only [writerStep, hphase, reduceCtorEq, some.injEq] at h
    subst h
    exact Turn.off (fun _ => by simp [writing, hphase]) rfl rfl (by simp [inFlight, hphase]) ⟨rfl, rfl⟩ hnone
  | writingPending d =>
    have hflight : inFlight s = s.pending := by simp [inFlight, hphase]
    cases c <;> simp only [writerStep, hphase, reduceCtorEq, some.injEq] at h
    · subst h
      refine ⟨hs.on rfl ⟨rfl, rfl⟩ (fun _ => hs.connected (by rw [hphase]; rfl)) (fun _ => rfl) (by rintro _ ⟨⟩), ?_⟩
      exact .complete d (by simp [writing, hphase]) rfl (hflight.trans (hs.pending d hphase)) rfl rfl rfl rfl
    · subst h
      exact Turn.off (by rintro ⟨⟩) rfl rfl hflight.symm ⟨rfl, rfl⟩ rfl
    · exact Turn.signalled (by rintro ⟨⟩) hflight.symm h
  | idle =>
    have hquiet : writing s = none := by simp [writing, hphase]
    have hflight : inFlight s = s.pending := by simp [inFlight, hphase]
    have hstream := hs.connected (by rw [hphase]; rfl)
    cases c <;> simp only [writerStep, hphase, reduceCtorEq, some.injEq] at h
    · split at h
      · next stream content rx hrx =>
        cases h
        refine ⟨hs.on rfl ⟨rfl, rfl⟩ (fun _ => hstream) (fun _ => hs.idle (by rw [hphase]; rfl)) (by rintro _ ⟨⟩), ?_⟩
        refine .take (stream, content) hquiet ?_ (hflight.trans (hs.idle (by rw [hphase]; rfl))) rfl rfl rfl rfl
        rw [hrx]
        rfl
      · next rx hrx =>
        cases h
        refine ⟨hs.on rfl ⟨rfl, rfl⟩ (fun _ => hstream) (by rintro ⟨⟩) (by rintro _ ⟨⟩), ?_⟩
        refine .leave (fun _ => hquiet) ?_ hflight.symm rfl rfl (.inr ⟨rfl, hquiet⟩)
        rw [hrx]
        rfl
      · split at h
        · cases h
          exact ⟨hs.on rfl ⟨rfl, rfl⟩ (fun _ => hstream) (by rintro ⟨⟩) (by rintro _ ⟨⟩),
            .leave (fun _ => hquiet) rfl hflight.symm rfl rfl (.inr ⟨rfl, hquiet⟩)⟩
        · cases h
    · exact Turn.signalled (by rintro ⟨⟩) hflight.symm h
    · subst h
      exact Turn.off (by rintro ⟨⟩) rfl rfl hflight.symm ⟨rfl, rfl⟩ rfl
  | writing d =>
    have hflight : inFlight s = some d := by simp [inFlight, hphase]
    cases c <;> simp only [writerStep, hphase, reduceCtorEq, some.injEq] at h
    · subst h
      have hpending := hs.idle (by rw [hphase]; rfl)
      refine ⟨hs.on rfl ⟨rfl, rfl⟩ (by rintro ⟨⟩) (by rintro ⟨⟩) (by rintro _ ⟨⟩), ?_⟩
      exact .complete d (by simp [writing, hphase]) rfl hflight hpending rfl rfl rfl
    · subst h
      exact Turn.off (by rintro ⟨⟩) rfl rfl hflight.symm ⟨rfl, rfl⟩ rfl
    · exact Turn.signalled (by rintro ⟨⟩) hflight.symm h
  | waiting | waitingAtFirst =>
    have hnone := hs.stream_none (by rw [hphase]; rfl)
    cases c <;> simp only [writerStep, hphase, reduceCtorEq, some.injEq] at h
    · split at h
      · cases h
        exact Turn.off (by rintro ⟨⟩) rfl rfl (by simp [inFlight, hphase]) ⟨rfl, rfl⟩ hnone
      · cases h
    · subst h
      exact Turn.off (by rintro ⟨⟩) rfl rfl (by simp [inFlight, hphase]) ⟨rfl, rfl⟩ hnone
  | ended => cases c <;> simp only [writerStep, hphase, reduceCtorEq] at h

end Writer

section Carries

structure Carries (w : World) (lines : ℕ → List Line) (out : List Line) : Prop where
  steady : Steady w.writer
  sent : w.sent = (List.range w.writer.attempts).flatMap lines ++ out ++ queued w.writer.rx
  flight : out.map data = (inFlight w.writer).toList
  plain : ∀ p ∈ w.sent, Plain p
  whole : ∀ n, (splitLines newline (w.written n)).1 = (lines n).map body
  fresh : ∀ n, w.writer.attempts ≤ n ∨ w.writer.phase.attempting = true ∧ n + 1 = w.writer.attempts → w.written n = []
  rest : ∀ n, w.writer.stream = some n →
    (splitLines newline (w.written n)).2 = (writing w.writer).elim [] fun d => (utf8 d).take w.progress
  progress : ∀ d, writing w.writer = some d → w.progress < (utf8 d).length

variable {w w' : World} {lines : ℕ → List Line} {out : List Line}

theorem lines_of_fresh (h : Carries w lines out) (hn : w.written n = []) : lines n = [] := by
  have hwhole := h.whole n
  rw [hn] at hwhole
  exact map_eq_nil_iff.mp hwhole.symm

theorem Carries.keep {out' : List Line} (h : Carries w lines out) (hsteady : Steady w'.writer)
    (hwritten : w'.written = w.written) (hsent : w'.sent = w.sent) (hattempts : w'.writer.attempts = w.writer.attempts)
    (hqueued : out' ++ queued w'.writer.rx = out ++ queued w.writer.rx)
    (hflight : out'.map data = (inFlight w'.writer).toList)
    (hphase : w'.writer.phase.attempting = false) (hprogress : w'.progress = 0)
    (hrest : ∀ n, w'.writer.stream = some n → (splitLines newline (w.written n)).2 = [])
    (hdata : ∀ d, writing w'.writer = some d → 0 < (utf8 d).length) : Carries w' lines out' where
  steady := hsteady
  sent := by
    rw [hsent, h.sent, hattempts, append_assoc, append_assoc, hqueued]
  flight := hflight
  plain := by
    rw [hsent]
    exact h.plain
  whole := by
    rw [hwritten]
    exact h.whole
  fresh := by
    rw [hwritten, hattempts, hphase]
    rintro n (hn | ⟨hn, -⟩)
    · exact h.fresh n (.inl hn)
    · cases hn
  rest := by
    intro n hn
    rw [hwritten, hrest n hn, hprogress]
    cases writing w'.writer with
    | none => rfl
    | some d => rfl
  progress := by
    rw [hprogress]
    exact hdata

theorem writing_pos {s : OutputWriter.State} (hs : Steady s) (hd : writing s = some d)
    {out : List Line} (hflight : out.map data = (inFlight s).toList) : ∃ p, out = [p] ∧ d = data p := by
  have hsome : inFlight s = some d := by
    unfold writing at hd
    unfold inFlight
    split at hd
    · next heq =>
      rw [heq]
      exact hd
    · next heq =>
      rw [heq]
      cases hd
      exact hs.pending _ heq
    · cases hd
  rw [hsome, toList_some] at hflight
  obtain ⟨p, rfl, hp⟩ := map_eq_singleton_iff.mp hflight
  exact ⟨p, rfl, hp.symm⟩

theorem utf8_data_pos (p : Line) : 0 < (utf8 (data p)).length := by
  rw [utf8_data, length_append]
  exact Nat.succ_pos _

theorem Carries.leave (h : Carries w lines out) (hsteady : Steady w'.writer) (hwritten : w'.written = w.written)
    (hsent : w'.sent = w.sent) (hprogress : w'.progress = 0) (hrx : queued w'.writer.rx = queued w.writer.rx)
    (hflight : inFlight w'.writer = inFlight w.writer) (hattempts : w'.writer.attempts = w.writer.attempts)
    (hphase : w'.writer.phase.attempting = false)
    (hrest : ∀ n, w'.writer.stream = some n → (splitLines newline (w.written n)).2 = []) : Carries w' lines out := by
  have hflight' : out.map data = (inFlight w'.writer).toList := by
    rw [hflight]
    exact h.flight
  refine h.keep hsteady hwritten hsent hattempts (by rw [hrx]) hflight' hphase hprogress hrest ?_
  intro d hd
  obtain ⟨p, -, rfl⟩ := writing_pos hsteady hd hflight'
  exact utf8_data_pos p

theorem splitLines_complete {xs : Bytes} {k : ℕ} (hp : Plain p) (hk : k < (utf8 (data p)).length)
    (hrest : (splitLines newline xs).2 = (utf8 (data p)).take k) :
    splitLines newline (xs ++ (utf8 (data p)).drop k) = ((splitLines newline xs).1 ++ [body p], []) := by
  rw [utf8_data] at hk hrest ⊢
  have hle : k ≤ (body p).length := by
    rw [length_append] at hk
    exact Nat.le_of_lt_succ hk
  rw [take_append_of_le_length hle] at hrest
  rw [drop_append_of_le_length hle, splitLines_append_line, hrest, take_append_drop]
  exact fun hmem => newline_notMem_body hp (mem_of_mem_drop hmem)

theorem splitLines_progress {xs : Bytes} {k count : ℕ} (hp : Plain p)
    (hk : k + count < (utf8 (data p)).length) (hrest : (splitLines newline xs).2 = (utf8 (data p)).take k) :
    splitLines newline (xs ++ ((utf8 (data p)).drop k).take count) =
      ((splitLines newline xs).1, (utf8 (data p)).take (k + count)) := by
  rw [splitLines_append_of_notMem, hrest, ← take_add]
  intro hmem
  have htake : newline ∈ (utf8 (data p)).take (k + count) := by
    rw [take_add]
    exact mem_append_right _ hmem
  rw [utf8_data] at hk htake
  rw [length_append] at hk
  rw [take_append_of_le_length (Nat.le_of_lt_succ hk)] at htake
  exact newline_notMem_body hp (mem_of_mem_take htake)

theorem write_nil (w : World) : w.write [] = w := by
  unfold World.write
  cases w.writer.stream with
  | none => rfl
  | some n =>
    simp only [append_nil, update_eq_self]

theorem connected_of_writing {s : OutputWriter.State} (h : writing s = some d) : s.phase.connected = true := by
  unfold writing at h
  split at h
  · next heq =>
    rw [heq]
    rfl
  · next heq =>
    rw [heq]
    rfl
  · cases h

theorem Carries.rest_nil (h : Carries w lines out) (hquiet : writing w.writer = none)
    (hn : w.writer.stream = some n) : (splitLines newline (w.written n)).2 = [] := by
  rw [h.rest n hn, hquiet]
  rfl

theorem Carries.begin (h : Carries w lines out) (hsteady : Steady w'.writer) (hwritten : w'.written = w.written)
    (hsent : w'.sent = w.sent) (hrx : queued w'.writer.rx = queued w.writer.rx)
    (hflight : inFlight w'.writer = inFlight w.writer) (hattempts : w'.writer.attempts = w.writer.attempts + 1)
    (hstream : w'.writer.stream = none) : Carries w' lines out where
  steady := hsteady
  sent := by
    have hnew := lines_of_fresh h (h.fresh w.writer.attempts (.inl (Nat.le_refl _)))
    rw [hsent, h.sent, hattempts, hrx, range_succ, flatMap_append, flatMap_singleton, hnew, append_nil]
  flight := by
    rw [hflight]
    exact h.flight
  plain := by
    rw [hsent]
    exact h.plain
  whole := by
    rw [hwritten]
    exact h.whole
  fresh := by
    rw [hwritten, hattempts]
    intro n hn
    apply h.fresh n
    omega
  rest := by
    intro n hn
    rw [hstream] at hn
    cases hn
  progress := by
    intro d hd
    have hsome := hsteady.connected (connected_of_writing hd)
    simp [hstream] at hsome

theorem Carries.complete (h : Carries w lines [p]) (hsteady : Steady w'.writer)
    (hwriting : writing w.writer = some (data p)) (hn : w.writer.stream = some n)
    (hwritten : w'.written = update w.written n (w.written n ++ (utf8 (data p)).drop w.progress))
    (hsent : w'.sent = w.sent) (hrx : queued w'.writer.rx = queued w.writer.rx)
    (hflight : inFlight w'.writer = none) (hattempts : w'.writer.attempts = w.writer.attempts)
    (hphase : w'.writer.phase.attempting = false) (hstream : w'.writer.stream = w.writer.stream) :
    Carries w' (update lines n (lines n ++ [p])) [] := by
  have hlast := h.steady.latest n hn
  have hplain : Plain p := by
    apply h.plain
    rw [h.sent]
    simp
  have hrest : (splitLines newline (w.written n)).2 = (utf8 (data p)).take w.progress := by
    rw [h.rest n hn, hwriting]
    rfl
  have hsplit := splitLines_complete hplain (h.progress _ hwriting) hrest
  have hnone : ∀ d, writing w'.writer = some d → False := by
    intro d hd
    have hempty : ([] : List Line).map data = (inFlight w'.writer).toList := by
      rw [hflight]
      rfl
    obtain ⟨q, hq, -⟩ := writing_pos hsteady hd hempty
    cases hq
  constructor
  · exact hsteady
  · have hrange : (List.range n).flatMap (update lines n (lines n ++ [p])) = (List.range n).flatMap lines := by
      apply flatMap_congr
      intro m hm
      exact update_of_ne (Nat.ne_of_lt (mem_range.mp hm)) _ _
    rw [hsent, h.sent, hattempts, hrx, ← hlast, range_succ, flatMap_append, flatMap_append,
      flatMap_singleton, flatMap_singleton, hrange, update_self]
    simp
  · rw [hflight]
    rfl
  · rw [hsent]
    exact h.plain
  · intro m
    by_cases hm : m = n
    · subst hm
      rw [hwritten, update_self, update_self, hsplit, h.whole m, map_append]
      rfl
    · rw [hwritten, update_of_ne hm, update_of_ne hm]
      exact h.whole m
  · intro m hm
    rw [hattempts, hphase] at hm
    rcases hm with hm | ⟨hm, -⟩
    · rw [hwritten, update_of_ne (by omega)]
      exact h.fresh m (.inl hm)
    · cases hm
  · intro m hm
    rw [hstream, hn] at hm
    cases hm
    rw [hwritten, update_self, hsplit]
    cases hd : writing w'.writer with
    | none => rfl
    | some d => exact (hnone d hd).elim
  · exact fun d hd => (hnone d hd).elim

theorem Carries.writer {c : OutputWriter.Choice} {s' : OutputWriter.State} (h : Carries w lines out)
    (hstep : OutputWriter.writerStep w.writer c = some s') :
    ∃ lines' out', Carries { w.write (w.completed (.writer c)) with writer := s', progress := 0 } lines' out' := by
  obtain ⟨hsteady, hturn⟩ := writerStep_turn h.steady hstep
  have hquiet : (c = .ok → writing w.writer = none) → w.write (w.completed (.writer c)) = w := by
    intro hc
    have hnone : w.completed (.writer c) = [] := by
      cases c with
      | ok =>
        rw [World.completed, hc rfl]
        rfl
      | fail | signal | reset | timeout => rfl
    rw [hnone, write_nil]
  cases hturn with
  | leave quiet rx flight attempts phase stream =>
    rw [hquiet quiet]
    refine ⟨lines, out, h.leave hsteady rfl rfl rfl rx flight attempts phase ?_⟩
    intro n hn
    rcases stream with stream | ⟨stream, hnone⟩
    · cases stream.symm.trans hn
    · exact h.rest_nil hnone (stream ▸ hn)
  | begin quiet rx flight attempts stream =>
    rw [hquiet fun _ => quiet]
    exact ⟨lines, out, h.begin hsteady rfl rfl rx flight attempts stream⟩
  | connect quiet rx flight attempts phase phase' stream =>
    rw [hquiet fun _ => quiet]
    refine ⟨lines, out, h.leave hsteady rfl rfl rfl rx flight attempts phase' ?_⟩
    intro n hn
    cases stream.symm.trans hn
    have hpos := h.steady.attempting phase
    rw [h.fresh _ (.inr ⟨phase, by omega⟩)]
    rfl
  | take p quiet rx flight flight' attempts phase stream =>
    have hout : out = [] := by
      have hflight := h.flight
      rw [flight] at hflight
      exact map_eq_nil_iff.mp hflight
    subst hout
    rw [hquiet fun _ => quiet]
    have hnext : [p].map data = (inFlight s').toList := by
      rw [flight']
      rfl
    refine ⟨lines, [p], h.keep hsteady rfl rfl attempts rx.symm hnext phase rfl ?_ ?_⟩
    · exact fun n hn => h.rest_nil quiet (stream ▸ hn)
    · intro d hd
      obtain ⟨q, -, rfl⟩ := writing_pos hsteady hd hnext
      exact utf8_data_pos q
  | complete d hwriting rx flight flight' attempts phase stream =>
    obtain ⟨p, rfl, rfl⟩ := writing_pos h.steady hwriting h.flight
    obtain ⟨n, hn⟩ := isSome_iff_exists.mp (h.steady.connected (connected_of_writing hwriting))
    refine ⟨_, [], h.complete hsteady hwriting hn ?_ ?_ rx flight' attempts phase stream⟩
    · simp only [World.write, World.completed, hwriting, hn, elim_some]
    · simp only [World.write, hn]

theorem Carries.progressed {count : ℕ} (h : Carries w lines out) (hd : writing w.writer = some d)
    (hlt : w.progress + count < (utf8 d).length) (hn : w.writer.stream = some n) (hwriter : w'.writer = w.writer)
    (hwritten : w'.written = update w.written n (w.written n ++ ((utf8 d).drop w.progress).take count))
    (hsent : w'.sent = w.sent) (hprogress : w'.progress = w.progress + count) : Carries w' lines out := by
  obtain ⟨p, rfl, rfl⟩ := writing_pos h.steady hd h.flight
  have hlast := h.steady.latest n hn
  have hplain : Plain p := by
    apply h.plain
    rw [h.sent]
    simp
  have hrest : (splitLines newline (w.written n)).2 = (utf8 (data p)).take w.progress := by
    rw [h.rest n hn, hd]
    rfl
  have hsplit := splitLines_progress hplain hlt hrest
  have hattempting : w.writer.phase.attempting = false := by
    have hconnected := connected_of_writing hd
    revert hconnected
    cases w.writer.phase <;> simp [OutputWriter.Phase.attempting, OutputWriter.Phase.connected]
  constructor
  · rw [hwriter]
    exact h.steady
  · rw [hsent, hwriter]
    exact h.sent
  · rw [hwriter]
    exact h.flight
  · rw [hsent]
    exact h.plain
  · intro m
    by_cases hm : m = n
    · subst hm
      rw [hwritten, update_self, hsplit]
      exact h.whole m
    · rw [hwritten, update_of_ne hm]
      exact h.whole m
  · intro m hm
    rw [hwriter, hattempting] at hm
    rcases hm with hm | ⟨hm, -⟩
    · rw [hwritten, update_of_ne (by omega)]
      exact h.fresh m (.inl hm)
    · cases hm
  · intro m hm
    rw [hwriter] at hm ⊢
    cases hn.symm.trans hm
    rw [hwritten, update_self, hsplit, hd, hprogress]
    rfl
  · intro d' hd'
    rw [hwriter] at hd'
    cases hd.symm.trans hd'
    rw [hprogress]
    exact hlt

theorem steady_of_eq {s s' : OutputWriter.State} (h : Steady s)
    (hsame : (s'.phase, s'.stream, s'.attempts, s'.pending) = (s.phase, s.stream, s.attempts, s.pending)) :
    Steady s' := by
  simp only [Prod.mk.injEq] at hsame
  obtain ⟨hphase, hstream, hattempts, hpending⟩ := hsame
  constructor
  · rw [hstream, hphase]
    exact h.stream
  · rw [hstream, hphase]
    exact h.connected
  · rw [hstream, hattempts]
    exact h.latest
  · rw [hphase, hattempts]
    exact h.attempting
  · rw [hphase, hpending]
    exact h.idle
  · rw [hphase, hpending]
    exact h.pending

theorem Carries.handle {s' : OutputWriter.State} {more : List Line} (h : Carries w lines out)
    (hsame : (s'.phase, s'.stream, s'.attempts, s'.pending) =
      (w.writer.phase, w.writer.stream, w.writer.attempts, w.writer.pending))
    (hrx : queued s'.rx = queued w.writer.rx ++ more) (hmore : ∀ p ∈ more, Plain p) :
    Carries { w with writer := s', sent := w.sent ++ more } lines out := by
  have hsteady := steady_of_eq h.steady hsame
  simp only [Prod.mk.injEq] at hsame
  obtain ⟨hphase, hstream, hattempts, hpending⟩ := hsame
  have hwriting : writing s' = writing w.writer := by
    unfold writing
    rw [hphase]
  have hflight : inFlight s' = inFlight w.writer := by
    unfold inFlight
    rw [hphase, hpending]
  refine ⟨hsteady, ?_, ?_, ?_, h.whole, ?_, ?_, ?_⟩
  · simp only [h.sent, hattempts, hrx, append_assoc]
  · rw [hflight]
    exact h.flight
  · intro p hp
    rcases mem_append.mp hp with hp | hp
    · exact h.plain p hp
    · exact hmore p hp
  · rw [hattempts, hphase]
    exact h.fresh
  · rw [hstream, hwriting]
    exact h.rest
  · rw [hwriting]
    exact h.progress

end Carries

end Fcvm.ContainerOutput
