import Fcvm.FleetCore.Kept

/-! An intent sent twice: `apply` settles the fleet again, which finds nothing to do. -/

namespace Fcvm.FleetCore

open Std (ExtTreeMap ExtTreeSet)
open Library

variable {p : Parts}

theorem runFrom_append (c : Config) (now : ℕ) (before after : List (Event p)) :
    runFrom c now (before ++ after) = after.foldl apply (runFrom c now before) := by
  simp [runFrom, List.foldl_append]

theorem runFrom_config (c : Config) (now : ℕ) (events : List (Event p)) : (runFrom c now events).config = c := by
  induction events using List.reverseRecOn with
  | nil => rfl
  | append_singleton events e ih =>
    rw [runFrom_append, List.foldl_cons, List.foldl_nil, apply_config_eq, ih]

theorem apply_duplicate {s : State p} {e : Event p} {m : IntentMsg p} (hs : Settled s.config s.fleet)
    (hc : s.config.powerManaged = false) (he : e.kind = .intent m) (hm : m.id ∈ s.receipts) : apply s e = s := by
  have hinner : applyInner e s = (s, none) := by
    simp only [applyInner, he, applyIntent, if_pos hm]
  have hbooks : sameBookkeeping s.fleet s.fleet = s.fleet := rfl
  simp only [apply, hinner, hs.settle_eq hc, hbooks]
  simp

/-- Without power management an intent whose id has a receipt is a no-op on the whole state, wherever it is put into a
run. -/
theorem duplicate_intent_changes_nothing {c : Config} (hc : c.powerManaged = false) (now : ℕ)
    (before after : List (Event p)) {dup : Event p} {m : IntentMsg p} (hdup : dup.kind = .intent m)
    (hkept : m.id ∈ (runFrom c now before).receipts) :
    runFrom c now (before ++ dup :: after) = runFrom c now (before ++ after) := by
  have hsame : apply (runFrom c now before) dup = runFrom c now before := by
    have hconfig := runFrom_config c now before
    have hset : Settled (runFrom c now before).config (runFrom c now before).fleet := by
      rcases new_or_settled (reachable_runFrom c now before) with ⟨c', now', hnew⟩ | hset
      · rw [hnew] at hkept
        exact absurd hkept ExtTreeMap.not_mem_empty
      · exact hset
    apply apply_duplicate hset _ hdup hkept
    rw [hconfig, hc]
  rw [runFrom_append, List.foldl_cons, hsame, runFrom_append]

def raceOfTwo : List (Event Parts.plain) :=
  [⟨1, .agent "h" (.hello ⟨"h", "", [⟨"a", ""⟩, ⟨"b", ""⟩], 2, none, ∅, [], [], 0⟩)⟩,
    ⟨2, .intent ⟨"v", none, "i1", "restart_now", (), none, none⟩⟩]

theorem duplicate_intent_changes_nothing_raceOfTwo :
    (runFrom Config.plain 0 raceOfTwo).fleet.raceCount = 1 ∧
      runFrom Config.plain 0 (raceOfTwo ++ ⟨3, .intent ⟨"w", none, "i1", "claim_gpu", (), none, none⟩⟩ :: twoHosts) =
        runFrom Config.plain 0 (raceOfTwo ++ twoHosts) := by
  constructor
  · decide +kernel
  · exact duplicate_intent_changes_nothing rfl 0 raceOfTwo twoHosts rfl (by decide +kernel)

end Fcvm.FleetCore
