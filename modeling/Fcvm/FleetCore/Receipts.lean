import Fcvm.FleetCore.Duplicates

namespace Fcvm.FleetCore

open Std (ExtTreeMap)
open List

variable {p : Parts} {s t : State p}

theorem getElem?_foldl_erase {β : Type} (ids : List String) (m : ExtTreeMap String β) (id : String) :
    (ids.foldl (fun m id => m.erase id) m)[id]? = if id ∈ ids then none else m[id]? := by
  induction ids generalizing m with
  | nil => simp
  | cons first ids ih =>
    rw [foldl_cons, ih, ExtTreeMap.getElem?_erase]
    by_cases hid : id = first
    · simp [hid]
    · have hne : ¬ first = id := fun h => hid h.symm
      simp [hid, hne]

/-- What replay and deduplication rely on: both structures hold the same ids, filed at ever later versions. -/
structure Filed (s : State p) : Prop where
  nodup : s.receiptOrder.Nodup
  keys : ∀ id, id ∈ s.receiptOrder ↔ id ∈ s.receipts
  length : s.receiptOrder.length ≤ MAX_RECEIPTS
  later : s.receiptOrder.Pairwise fun a b => ∀ (ra rb : Receipt), s.receipts[a]? = some ra →
    s.receipts[b]? = some rb → ra.version < rb.version
  version : ∀ (id : String) (r : Receipt), s.receipts[id]? = some r → r.version ≤ s.version

theorem Filed.file (h : Filed s) {r : Receipt} {g : Fleet p} (hr : r.id ∉ s.receipts)
    (hversion : r.version = s.version + 1) (ht : t = fileReceipt r { s with fleet := g, version := s.version + 1 }) :
    Filed t ∧ t.receiptOrder.getLast? = some r.id ∧ t.receipts[r.id]? = some r := by
  have hnew : r.id ∉ s.receiptOrder := fun hmem => hr ((h.keys r.id).mp hmem)
  have hnodup : (s.receiptOrder ++ [r.id]).Nodup := by
    rw [nodup_append]
    refine ⟨h.nodup, nodup_singleton _, ?_⟩
    rintro a ha b hb rfl
    exact hnew (mem_singleton.mp hb ▸ ha)
  have hone : 1 ≤ MAX_RECEIPTS := by decide
  have hlen : (s.receiptOrder ++ [r.id]).length = s.receiptOrder.length + 1 := length_append
  -- what is evicted is a beginning of the order, and the rest of it stays
  generalize hn : (s.receiptOrder ++ [r.id]).length - MAX_RECEIPTS = n
  have hget (id : String) : t.receipts[id]? =
      if id ∈ (s.receiptOrder ++ [r.id]).take n then none else if r.id = id then some r else s.receipts[id]? := by
    simp only [ht, fileReceipt, hn, getElem?_foldl_erase, ExtTreeMap.getElem?_insert, compare_eq_iff_eq]
  have horder : t.receiptOrder = (s.receiptOrder ++ [r.id]).drop n := by
    simp only [ht, fileReceipt, newest, hn]
  have hold {id : String} {q : Receipt} (hid : id ∈ s.receiptOrder) (hq : t.receipts[id]? = some q) :
      s.receipts[id]? = some q := by
    have hne : ¬ r.id = id := by
      rintro rfl
      exact hnew hid
    rw [hget, if_neg hne] at hq
    split at hq
    · cases hq
    · exact hq
  have hkept {id : String} (hid : id ∈ (s.receiptOrder ++ [r.id]).drop n) : id ∉ (s.receiptOrder ++ [r.id]).take n := by
    rw [← take_append_drop n (s.receiptOrder ++ [r.id])] at hnodup
    exact fun htake => (nodup_append.mp hnodup).2.2 id htake id hid rfl
  have hlast : t.receiptOrder.getLast? = some r.id := by
    rw [horder, drop_append_of_le_length (by omega)]
    simp
  have hown : t.receipts[r.id]? = some r := by
    rw [hget, if_neg (hkept (horder ▸ mem_of_getLast? hlast)), if_pos rfl]
  refine ⟨⟨?_, ?_, ?_, ?_, ?_⟩, hlast, hown⟩
  · rw [horder]
    exact hnodup.sublist (drop_sublist _ _)
  · intro id
    have hmem : id ∈ (s.receiptOrder ++ [r.id]).take n ∨ id ∈ (s.receiptOrder ++ [r.id]).drop n ↔
        id ∈ s.receiptOrder ∨ id = r.id := by
      rw [← mem_append, take_append_drop, mem_append, mem_singleton]
    rw [horder, ExtTreeMap.mem_iff_isSome_getElem?, hget]
    by_cases htake : id ∈ (s.receiptOrder ++ [r.id]).take n
    · simp only [if_pos htake, Option.isSome_none, Bool.false_eq_true, iff_false]
      exact fun hdrop => hkept hdrop htake
    · rw [or_iff_right htake, h.keys] at hmem
      rw [if_neg htake, hmem]
      by_cases hid : r.id = id
      · simp [hid]
      · rw [if_neg hid, ← ExtTreeMap.mem_iff_isSome_getElem?]
        exact or_iff_left fun heq => hid heq.symm
  · rw [horder, length_drop]
    omega
  · rw [horder]
    apply Pairwise.drop
    refine pairwise_append.mpr ⟨?_, pairwise_singleton _ _, ?_⟩
    · exact h.later.imp_of_mem fun ha hb hlater ra rb hra hrb => hlater ra rb (hold ha hra) (hold hb hrb)
    · intro a ha b hb ra rb hra hrb
      cases mem_singleton.mp hb
      cases hown.symm.trans hrb
      have hle := h.version a ra (hold ha hra)
      omega
  · intro id q hq
    have hnext : t.version = s.version + 1 := by rw [ht]; rfl
    rw [hget] at hq
    split at hq
    · cases hq
    · split at hq
      · cases hq
        omega
      · have hle := h.version id q hq
        omega

theorem apply_books (s : State p) (e : Event p) :
    (∃ g, ∃ v ∈ [s.version, s.version + 1], apply s e = { s with fleet := g, version := v } ∧
      ∀ m, e.kind = .intent m → m.id ∈ s.receipts) ∨
    ∃ m g r, e.kind = .intent m ∧ m.id ∉ s.receipts ∧ r.id = m.id ∧ r.version = s.version + 1 ∧
      apply s e = fileReceipt r { s with fleet := g, version := s.version + 1 } := by
  obtain ⟨hconfig, hversion, hreceipts, horder⟩ := (applyInner_spec s e).1
  have hquiet (hnone : (applyInner e s).2 = none) :
      ∃ g, ∃ v ∈ [s.version, s.version + 1], apply s e = { s with fleet := g, version := v } := by
    refine ⟨(apply s e).fleet, (apply s e).version, ?_, ?_⟩
    · simp only [apply, hnone, hversion]
      split <;> simp
    · simp only [apply, hnone, hconfig, hreceipts, horder]
  by_cases he : ∃ m, e.kind = .intent m ∧ m.id ∉ s.receipts
  · obtain ⟨m, he, hm⟩ := he
    apply Or.inr
    have hsome : (applyInner e s).2 = some (intentReceipt m (runIntent m e.now s).1) := by
      simp only [applyInner, he, applyIntent, if_neg hm]
    refine ⟨m, settle s.config e.now (applyInner e s).1.fleet,
      { intentReceipt m (runIntent m e.now s).1 with version := s.version + 1 },
      he, hm, ?_, rfl, ?_⟩
    · unfold intentReceipt
      split <;> rfl
    · simp only [apply, hsome, hconfig, hversion, hreceipts, horder, Option.isSome_some, Bool.true_or, if_true]
  · have hold : ∀ m, e.kind = .intent m → m.id ∈ s.receipts := fun m hm => by_contra fun hnot => he ⟨m, hm, hnot⟩
    have hnone : (applyInner e s).2 = none := by
      unfold applyInner
      split
      · next m hm => simp only [applyIntent, if_pos (hold m hm)]
      · rfl
    obtain ⟨g, v, hv, heq⟩ := hquiet hnone
    exact .inl ⟨g, v, hv, heq, hold⟩

theorem Filed.apply (h : Filed s) (e : Event p) : Filed (apply s e) := by
  rcases apply_books s e with ⟨g, v, hv, heq, -⟩ | ⟨m, g, r, he, hm, hid, hr, heq⟩
  · have hle : s.version ≤ v := by
      simp only [mem_cons, not_mem_nil, or_false] at hv
      omega
    rw [heq]
    exact { h with version := fun id r hr => (h.version id r hr).trans hle }
  · exact (h.file (hid ▸ hm) hr heq).1

theorem filed_runFrom (c : Config) (now : ℕ) (events : List (Event p)) : Filed (runFrom c now events) := by
  induction events using List.reverseRecOn with
  | nil => exact ⟨nodup_nil, by simp [runFrom, State.new], Nat.zero_le _, Pairwise.nil, by simp [runFrom, State.new]⟩
  | append_singleton events e ih =>
    rw [runFrom_append]
    exact ih.apply e

theorem receipts_stay_consistent (c : Config) (now : ℕ) (events : List (Event p)) :
    Filed (runFrom c now events) ∧
    (∀ e, (runFrom c now events).version ≤ (runFrom c now (events ++ [e])).version ∧
      (runFrom c now (events ++ [e])).version ≤ (runFrom c now events).version + 1) ∧
    ∀ e m, e.kind = .intent m → m.id ∉ (runFrom c now events).receipts →
      (runFrom c now (events ++ [e])).receiptOrder.getLast? = some m.id ∧
      ∃ r, (runFrom c now (events ++ [e])).receipts[m.id]? = some r ∧ r.id = m.id ∧
        r.version = (runFrom c now (events ++ [e])).version := by
  simp only [runFrom_append, foldl_cons, foldl_nil]
  have h := filed_runFrom c now events
  generalize runFrom c now events = s at h
  refine ⟨h, ?_, ?_⟩
  · intro e
    rcases apply_books s e with ⟨g, v, hv, heq, -⟩ | ⟨m, g, r, -, -, -, -, heq⟩
    · simp only [mem_cons, not_mem_nil, or_false] at hv
      rw [heq]
      dsimp only
      omega
    · rw [heq]
      exact ⟨Nat.le_succ _, le_rfl⟩
  · intro e m he hm
    rcases apply_books s e with ⟨-, -, -, -, hold⟩ | ⟨m', g, r, he', hm', hid, hr, heq⟩
    · exact absurd (hold m he) hm
    · cases he.symm.trans he'
      obtain ⟨-, hlast, hown⟩ := h.file (hid ▸ hm) hr heq
      rw [← hid]
      exact ⟨hlast, r, hown, rfl, by rw [hr, heq]; rfl⟩

end Fcvm.FleetCore
