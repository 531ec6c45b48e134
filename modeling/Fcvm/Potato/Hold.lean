import Mathlib.Data.List.Induction
import Mathlib.Order.Iterate
import Mathlib.Tactic.Positivity
import Mathlib.Tactic.Ring
import Fcvm.FleetCore.Intents

namespace Fcvm.Potato

def TRAIL_MAX : ℕ := 16

structure Ball where
  round : ℕ
  seq : ℕ
  ring : List String
  holdMs : ℕ
  shrinkPermille : ℕ
  minHoldMs : ℕ
  flightMs : ℕ
  trail : List ℕ

def shrink (hold permille least : ℕ) : ℕ :=
  let cut := hold * min permille 1000 / 1000
  max (hold - cut) least

def Ball.lap (b : Ball) : ℕ := b.seq / max b.ring.length 1

def Ball.thrown (b : Ball) (colour : ℕ) : Ball :=
  let trail := b.trail ++ [colour]
  let next := { b with seq := b.seq + 1, trail := trail.drop (trail.length - TRAIL_MAX) }
  if next.lap ≠ b.lap then { next with holdMs := shrink b.holdMs b.shrinkPermille b.minHoldMs } else next

end Fcvm.Potato

namespace Fcvm.FleetCore.Round

open Function
open Fcvm.Potato (Ball shrink)

variable {ρ : Type} {r : Round ρ} {b : Ball}

/-- The round's ball after `n` throws, its hold shrunk once a lap. -/
structure Carries (r : Round ρ) (n : ℕ) (b : Ball) : Prop where
  seq : b.seq = n
  ring : b.ring.length = r.ring.length
  permille : b.shrinkPermille = r.shrinkPermille
  least : b.minHoldMs = r.minHoldMs
  hold : b.holdMs = r.shrunk^[r.lap n] r.startHoldMs

theorem holdAt_eq (h : r.paceMs = none) (seq : ℕ) :
    r.holdAt seq = r.shrunk^[min (r.lap seq) 10000] r.startHoldMs := by
  rw [holdAt, h]

theorem shrunk_le {h : ℕ} (hh : r.minHoldMs ≤ h) : r.minHoldMs ≤ r.shrunk h ∧ r.shrunk h ≤ h :=
  ⟨le_max_right _ _, max_le (Nat.sub_le _ _) hh⟩

theorem min_le_iterate (h : r.minHoldMs ≤ r.startHoldMs) (n : ℕ) : r.minHoldMs ≤ r.shrunk^[n] r.startHoldMs := by
  induction n with
  | zero => exact h
  | succ n ih =>
    rw [iterate_succ_apply']
    exact (shrunk_le ih).1

theorem antitone_iterate (h : r.minHoldMs ≤ r.startHoldMs) : Antitone fun n => r.shrunk^[n] r.startHoldMs := by
  apply antitone_nat_of_succ_le
  intro n
  rw [iterate_succ_apply']
  exact (shrunk_le (min_le_iterate h n)).2

theorem Carries.thrown {n : ℕ} (h : r.Carries n b) (colour : ℕ) : r.Carries (n + 1) (b.thrown colour) := by
  have hlap : b.lap = r.lap n := by
    rw [Ball.lap, lap, h.seq, h.ring]
  have hnext (b' : Ball) (hb' : (b'.seq, b'.ring) = (b.seq + 1, b.ring)) : b'.lap = r.lap (n + 1) := by
    obtain ⟨hseq, hring⟩ := Prod.mk.inj hb'
    rw [Ball.lap, lap, hseq, hring, h.seq, h.ring]
  have hsucc : r.lap (n + 1) = r.lap n ∨ r.lap (n + 1) = r.lap n + 1 := by
    simp only [lap, Nat.succ_div]
    split
    · exact .inr rfl
    · exact .inl rfl
  have hseq : b.seq + 1 = n + 1 := by rw [h.seq]
  unfold Ball.thrown
  dsimp only
  rw [hnext _ rfl, hlap]
  split
  · next hne =>
    refine ⟨hseq, h.ring, h.permille, h.least, ?_⟩
    rw [hsucc.resolve_left hne, iterate_succ_apply', ← h.hold, h.permille, h.least]
    rfl
  · next heq =>
    refine ⟨hseq, h.ring, h.permille, h.least, ?_⟩
    rw [not_not.mp heq]
    exact h.hold

theorem Carries.run (h : r.Carries 0 b) (colours : List ℕ) :
    r.Carries colours.length (colours.foldl Ball.thrown b) := by
  induction colours using List.reverseRecOn with
  | nil => exact h
  | append_singleton colours colour ih =>
    rw [List.foldl_append, List.length_append]
    exact ih.thrown colour

theorem Carries.start (hb : (b.seq, b.ring.length, b.holdMs, b.shrinkPermille, b.minHoldMs) =
    (0, r.ring.length, r.startHoldMs, r.shrinkPermille, r.minHoldMs)) : r.Carries 0 b := by
  simp only [Prod.mk.injEq] at hb
  obtain ⟨hseq, hring, hhold, hpermille, hleast⟩ := hb
  refine ⟨hseq, hring, hpermille, hleast, ?_⟩
  rw [hhold, lap, Nat.zero_div]
  rfl

/-- The coordinator's hold is the ball's as long as the round has not gone more laps than it shrinks by, or shrinking
has come to its end by then. -/
theorem hold_is_the_balls (hpace : r.paceMs = none) (hleast : r.minHoldMs ≤ r.startHoldMs)
    (hb : (b.seq, b.ring.length, b.holdMs, b.shrinkPermille, b.minHoldMs) =
      (0, r.ring.length, r.startHoldMs, r.shrinkPermille, r.minHoldMs)) (colours : List ℕ) :
    (r.holdAt colours.length = (colours.foldl Ball.thrown b).holdMs ↔
      colours.length / max r.ring.length 1 ≤ 10000 ∨
      (fun h => shrink h r.shrinkPermille r.minHoldMs)^[10001] r.startHoldMs =
        (fun h => shrink h r.shrinkPermille r.minHoldMs)^[10000] r.startHoldMs) ∧
    (∀ seq seq', seq ≤ seq' → r.holdAt seq' ≤ r.holdAt seq) ∧ ∀ seq, r.minHoldMs ≤ r.holdAt seq := by
  have hhold := holdAt_eq hpace
  have hanti := antitone_iterate hleast
  refine ⟨?_, ?_, ?_⟩
  · rw [((Carries.start hb).run colours).hold, hhold]
    change _ ↔ r.lap colours.length ≤ 10000 ∨ r.shrunk^[10001] r.startHoldMs = r.shrunk^[10000] r.startHoldMs
    generalize r.lap colours.length = laps
    rcases le_or_gt laps 10000 with hle | hgt
    · rw [min_eq_left hle]
      exact ⟨fun _ => .inl hle, fun _ => rfl⟩
    · rw [min_eq_right hgt.le, or_iff_right (Nat.not_le.mpr hgt)]
      constructor
      · intro heq
        exact le_antisymm (hanti (Nat.le_succ 10000)) (heq.le.trans (hanti hgt))
      · intro hfix
        rw [Function.iterate_succ_apply'] at hfix
        obtain ⟨more, rfl⟩ := Nat.exists_eq_add_of_le' hgt.le
        rw [Function.iterate_add_apply, Function.iterate_fixed hfix]
  · intro seq seq' hle
    rw [hhold, hhold]
    exact hanti (min_le_min_right _ (Nat.div_le_div_right hle))
  · intro seq
    rw [hhold]
    exact min_le_iterate hleast _

def ringOfTwo : Round Unit := ⟨[0, 1], 0, 2000, 100, 2, none, none, ()⟩

theorem hold_is_the_balls_ringOfTwo :
    ringOfTwo.holdAt 4 = ([7, 8, 9, 10].foldl Ball.thrown ⟨1, 0, ["a", "b"], 2000, 100, 2, 100, []⟩).holdMs ∧
      ringOfTwo.holdAt 4 = 1620 := by
  constructor
  · exact (hold_is_the_balls rfl (by decide) rfl [7, 8, 9, 10]).1.mpr (.inl (by decide))
  · decide

def slowRound : Round Unit := ⟨[0], 0, 10 ^ 8, 1, 2, none, none, ()⟩

theorem slowRound_shrunk (h : ℕ) : slowRound.shrunk h = max (h - h / 1000) 2 := by
  simp [shrunk, slowRound]

theorem slowRound_iterate (n : ℕ) : 10 ^ 8 * 999 ^ n ≤ slowRound.shrunk^[n] (10 ^ 8) * 1000 ^ n := by
  induction n with
  | zero => simp
  | succ n ih =>
    rw [iterate_succ_apply', pow_succ, pow_succ]
    have hstep (h : ℕ) : h * 999 ≤ slowRound.shrunk h * 1000 := by
      rw [slowRound_shrunk]
      omega
    calc 10 ^ 8 * (999 ^ n * 999) = 10 ^ 8 * 999 ^ n * 999 := by ring
      _ ≤ slowRound.shrunk^[n] (10 ^ 8) * 1000 ^ n * 999 := Nat.mul_le_mul_right _ ih
      _ = slowRound.shrunk^[n] (10 ^ 8) * 999 * 1000 ^ n := by ring
      _ ≤ slowRound.shrunk (slowRound.shrunk^[n] (10 ^ 8)) * 1000 * 1000 ^ n := Nat.mul_le_mul_right _ (hstep _)
      _ = slowRound.shrunk (slowRound.shrunk^[n] (10 ^ 8)) * (1000 ^ n * 1000) := by ring

theorem slow_ball_outlives_the_laps :
    slowRound.holdAt 10001 ≠
      ((List.replicate 10001 0).foldl Ball.thrown ⟨1, 0, ["a"], 10 ^ 8, 1, 2, 100, []⟩).holdMs := by
  have hstart : slowRound.Carries 0 ⟨1, 0, ["a"], 10 ^ 8, 1, 2, 100, []⟩ := .start rfl
  have hlap : slowRound.lap 10001 = 10000 + 1 := by decide
  have hlarge : 1000 ≤ slowRound.shrunk^[10000] (10 ^ 8) := by
    have hbound := slowRound_iterate 10000
    have hpow : 1000 * 1000 ^ 10000 ≤ 10 ^ 8 * 999 ^ 10000 := by decide +kernel
    exact Nat.le_of_mul_le_mul_right (hpow.trans hbound) (by positivity)
  rw [(hstart.run _).hold, List.length_replicate, holdAt_eq rfl, hlap, min_eq_right (Nat.le_succ _),
    Function.iterate_succ_apply' _ 10000, slowRound_shrunk]
  change 1000 ≤ slowRound.shrunk^[10000] slowRound.startHoldMs at hlarge
  omega

end Fcvm.FleetCore.Round
