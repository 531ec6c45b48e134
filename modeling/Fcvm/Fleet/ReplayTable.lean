import Fcvm.Fleet.Quarantine

namespace Fcvm.Fleet

open List

namespace Replay

variable {r : Replay} {sbdf : Sbdf}

theorem held_note_quarantine (error : String) (n : ℕ) (s : Sbdf) :
    (r.note (.quarantine sbdf error n)).held s = if s = sbdf then some n else r.held s := by
  unfold held note
  by_cases h : s = sbdf
  · subst h
    simp [report]
  · have hne : Key.quarantine s ≠ Key.quarantine sbdf := fun heq => h (Key.quarantine.inj heq)
    simp only [AList.lookup_insert_ne hne, h, if_false]

variable {l : Line} {n : ℕ}

theorem held_note (h : ∀ s e n, l ≠ .quarantine s e n) : (r.note l).held sbdf = r.held sbdf := by
  unfold held note
  cases l with
  | quarantine s e n => exact absurd rfl (h s e n)
  | slot | aggregate | draining =>
    rw [AList.lookup_insert_ne]
    exact nofun
  | hello | other => rfl

theorem held_assign (slots : List String) : (r.coordinatorFrame (.assign slots)).held sbdf = r.held sbdf := by
  unfold held coordinatorFrame
  congr 1
  apply Option.ext
  intro line
  rw [← Option.mem_def, ← Option.mem_def, AList.mem_lookup_iff, AList.mem_lookup_iff]
  simp [mem_filter, keep]

theorem held_coordinatorFrame (f : Frame) (h : r.held sbdf = some n) :
    (r.coordinatorFrame f).held sbdf = some n ∨ f = .quarantineStored sbdf (some n) := by
  cases f with
  | assign slots =>
    rw [held_assign]
    exact .inl h
  | quarantineStored s named =>
    simp only [coordinatorFrame]
    split
    · exact .inl h
    · next line hline =>
      split
      · next hnamed =>
        by_cases hs : sbdf = s
        · subst hs
          simp only [held, hline, Option.bind_some] at h
          rw [h] at hnamed
          exact .inr (by rw [hnamed])
        · have hne : Key.quarantine sbdf ≠ Key.quarantine s := fun heq => hs (Key.quarantine.inj heq)
          apply Or.inl
          unfold held at h ⊢
          simpa only [AList.lookup_erase_ne hne] using h
      · exact .inl h
  | other => exact .inl h

theorem held_of_coordinatorFrame {f : Frame} (h : (r.coordinatorFrame f).held sbdf = some n) :
    r.held sbdf = some n := by
  cases f with
  | assign slots =>
    rw [held_assign] at h
    exact h
  | quarantineStored s named =>
    simp only [coordinatorFrame] at h
    split at h
    · exact h
    · split at h
      · unfold held at h ⊢
        by_cases hs : sbdf = s
        · subst hs
          simp at h
        · have hne : Key.quarantine sbdf ≠ Key.quarantine s := fun heq => hs (Key.quarantine.inj heq)
          simpa only [AList.lookup_erase_ne hne] using h
      · exact h
  | other => exact h

theorem mem_lines : l ∈ r.lines ↔
    r.hello = some l ∨ ∃ key, (⟨key, l⟩ : Sigma fun _ : Key => Line) ∈ r.keyed.entries := by
  simp only [lines, mem_append, Option.mem_toList, mem_map]
  constructor
  · rintro (h | ⟨e, he, rfl⟩)
    · exact .inl h
    · exact .inr ⟨e.1, he⟩
  · rintro (h | ⟨key, h⟩)
    · exact .inl h
    · exact .inr ⟨_, h, rfl⟩

theorem mem_insert_entries {key key' : Key} {l' : Line} {t : AList fun _ : Key => Line}
    (h : (⟨key', l'⟩ : Sigma fun _ : Key => Line) ∈ (t.insert key l).entries) :
    (⟨key', l'⟩ : Sigma fun _ : Key => Line) ∈ t.entries ∨ l' = l := by
  rw [AList.entries_insert] at h
  rcases mem_cons.mp h with h | h
  · cases h
    exact .inr rfl
  · exact .inl ((kerase_sublist _ _).subset h)

theorem lines_note {l' : Line} (h : l' ∈ (r.note l).lines) : l' ∈ r.lines ∨ l' = l := by
  have hkeyed : ∀ key, l' ∈ ({ r with keyed := r.keyed.insert key l } : Replay).lines → l' ∈ r.lines ∨ l' = l := by
    intro key h
    rcases mem_lines.mp h with h | ⟨key', h⟩
    · exact .inl (mem_lines.mpr (.inl h))
    · exact (mem_insert_entries h).imp (fun h => mem_lines.mpr (.inr ⟨key', h⟩)) id
  cases l with
  | hello host =>
    rcases mem_lines.mp h with h | h
    · exact .inr (Option.some.inj h).symm
    · exact .inl (mem_lines.mpr (.inr h))
  | other => exact .inl h
  | slot | aggregate | draining | quarantine => exact hkeyed _ h

theorem lines_coordinatorFrame {f : Frame} (h : l ∈ (r.coordinatorFrame f).lines) : l ∈ r.lines := by
  cases f with
  | assign slots =>
    rcases mem_lines.mp h with h | ⟨key, h⟩
    · exact mem_lines.mpr (.inl h)
    · exact mem_lines.mpr (.inr ⟨key, (mem_filter.mp h).1⟩)
  | quarantineStored s named =>
    simp only [coordinatorFrame] at h
    split at h
    · exact h
    · split at h
      · rcases mem_lines.mp h with h | ⟨key, h⟩
        · exact mem_lines.mpr (.inl h)
        · exact mem_lines.mpr (.inr ⟨key, (kerase_sublist _ _).subset h⟩)
      · exact h
  | other => exact h

structure Filed (r : Replay) : Prop where
  hello : ∀ s e n, r.hello ≠ some (.quarantine s e n)
  keyed : ∀ key s e n, (⟨key, .quarantine s e n⟩ : Sigma fun _ : Key => Line) ∈ r.keyed.entries → key = .quarantine s

theorem Filed.held (h : r.Filed) {e : String} (hmem : .quarantine sbdf e n ∈ r.lines) : r.held sbdf = some n := by
  rcases mem_lines.mp hmem with hhello | ⟨key, hkeyed⟩
  · exact absurd hhello (h.hello sbdf e n)
  · have hkey := h.keyed key sbdf e n hkeyed
    subst hkey
    unfold Replay.held
    rw [AList.mem_lookup_iff.mpr hkeyed]
    rfl

theorem Filed.note (h : r.Filed) (l : Line) : (r.note l).Filed := by
  have hinsert : ∀ key l', (∀ s e n, l' = .quarantine s e n → key = .quarantine s) →
      ({ r with keyed := r.keyed.insert key l' } : Replay).Filed := by
    intro key l' hl
    refine ⟨h.hello, ?_⟩
    intro key' s e n hmem
    dsimp only at hmem
    rw [AList.entries_insert] at hmem
    rcases mem_cons.mp hmem with heq | hmem
    · cases heq
      exact hl s e n rfl
    · exact h.keyed key' s e n ((kerase_sublist _ _).subset hmem)
  cases l with
  | hello host => exact ⟨nofun, h.keyed⟩
  | quarantine s e n =>
    apply hinsert
    intro s' e' n' heq
    cases heq
    rfl
  | slot | aggregate | draining => exact hinsert _ _ nofun
  | other => exact h

theorem Filed.coordinatorFrame (h : r.Filed) (f : Frame) : (r.coordinatorFrame f).Filed := by
  cases f with
  | assign slots => exact ⟨h.hello, fun key s e n hmem => h.keyed key s e n (mem_filter.mp hmem).1⟩
  | quarantineStored s named =>
    simp only [Replay.coordinatorFrame]
    split
    · exact h
    · split
      · exact ⟨h.hello, fun key s e n hmem => h.keyed key s e n ((kerase_sublist _ _).subset hmem)⟩
      · exact h
  | other => exact h

end Replay

end Fcvm.Fleet
