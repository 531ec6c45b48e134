import Fcvm.Remap.Tracks

namespace Fcvm.Remap

open Library List Option

namespace RemapFs

variable {T : Type}

theorem handleRenamePaths_maps (scan : PathScan) (fs : RemapFs T) (parent : ℕ) (name : Bytes) (newparent : ℕ)
    (newname : Bytes) (flags : ℕ) :
    (fs.handleRenamePaths scan parent name newparent newname flags).innerToStable = fs.innerToStable ∧
      (fs.handleRenamePaths scan parent name newparent newname flags).stableToInner = fs.stableToInner := by
  unfold handleRenamePaths
  dsimp only
  split
  · exact ⟨rfl, rfl⟩
  · split <;> exact ⟨rfl, rfl⟩

end RemapFs

/-- The places of a rename: the directories it names are recorded where they stand, and the paths it computes are
those of the two entries. -/
structure RenamePlaces {T : Type} (t : HostTree) (fs : RemapFs T) (given : Set (ℕ × Object)) (parent : ℕ) (name : Bytes)
    (newparent : ℕ) (newname : Bytes) (p q : List Bytes) : Prop where
  source : fs.recorded parent = some p ∧ ∃ d, (parent, d) ∈ given ∧ d.IsDir
  target : fs.recorded newparent = some q ∧ ∃ d, (newparent, d) ∈ given ∧ d.IsDir
  old : segments slash (fs.entryPath parent name) = p ++ [name]
  new : segments slash (fs.entryPath newparent newname) = q ++ [newname]

section

variable {T : Type} {t t' : HostTree} {fs : RemapFs T} {given : Set (ℕ × Object)} {parent newparent flags : ℕ}
  {name newname : Bytes} {p q : List Bytes}

theorem RenamePlaces.old_ne (h : RenamePlaces t fs given parent name newparent newname p q) :
    fs.entryPath parent name ≠ [] := by
  intro hnil
  have hold := h.old
  rw [hnil] at hold
  simp [segments_nil] at hold

theorem RenamePlaces.new_ne (h : RenamePlaces t fs given parent name newparent newname p q) :
    fs.entryPath newparent newname ≠ [] := by
  intro hnil
  have hnew := h.new
  rw [hnil] at hnew
  simp [segments_nil] at hnew

namespace Tracks

theorem lookup_of_recorded (h : fs.recorded parent = some p) {b : Bytes} (hb : segments slash b = p) :
    fs.paths.lookup parent = some b := by
  obtain ⟨b', hb', hseg⟩ := RemapFs.recorded_eq_some.mp h
  rw [hb', segments_injective slash (hseg.trans hb.symm)]

theorem recorded_of_lookup {b : Bytes} (h : fs.paths.lookup parent = some b) :
    fs.recorded parent = some (segments slash b) := RemapFs.recorded_eq_some.mpr ⟨b, h, rfl⟩

variable (h : Tracks t fs given)
include h

theorem paths_unique {n m : ℕ} {b : Bytes} (hn : fs.paths.lookup n = some b)
    (hm : fs.paths.lookup m = some b) : n = m :=
  h.ledger.distinct n m _ (recorded_of_lookup hn) (recorded_of_lookup hm)

theorem recorded_plain (scan : PathScan) (hflags : RemapFs.isExchange flags = false)
    (hr : RenamePlaces t fs given parent name newparent newname p q) (hbelow : ¬p ++ [name] <+: q ++ [newname]) :
    (fs.handleRenamePaths scan parent name newparent newname flags).recorded =
      fun n => (fs.recorded n).map (relocate (p ++ [name]) (q ++ [newname])) := by
  funext n
  unfold RemapFs.handleRenamePaths
  dsimp only
  rw [hflags, if_neg Bool.false_ne_true]
  cases hsrc : scan.find fs.paths (fs.entryPath parent name) with
  | none =>
    -- the old path is not recorded, so nothing below it is
    have hnone : ∀ m, fs.recorded m ≠ some (p ++ [name]) := by
      intro m hm
      exact scan.complete _ _ _ (lookup_of_recorded hm hr.old) hsrc
    dsimp only
    cases hn : fs.recorded n with
    | none => rfl
    | some s =>
      rw [map_some, relocate, if_neg]
      rintro ⟨x, rfl⟩
      exact h.ledger.none_below hnone n x hn
  | some src =>
    have hsrc := scan.sound _ _ _ hsrc
    rw [← hr.old, ← hr.new] at hbelow ⊢
    exact RemapFs.recorded_rename hr.old_ne hr.new_ne hsrc (fun m hm => h.paths_unique hm hsrc) hbelow n

theorem recorded_swap (scan : PathScan) (hflags : RemapFs.isExchange flags = true)
    (hr : RenamePlaces t fs given parent name newparent newname p q) :
    (fs.handleRenamePaths scan parent name newparent newname flags).recorded =
      fun n => (fs.recorded n).map (exchange (p ++ [name]) (q ++ [newname])) := by
  funext n
  unfold RemapFs.handleRenamePaths
  dsimp only
  rw [hflags, if_pos rfl, ← hr.old, ← hr.new]
  exact RemapFs.recorded_exchange scan (fun n m b => h.paths_unique) n

theorem rename_move (scan : PathScan) (hflags : RemapFs.isExchange flags = false)
    (hr : RenamePlaces t fs given parent name newparent newname p q) (hbelow : ¬p ++ [name] <+: q ++ [newname])
    (hfree : ∀ n, fs.recorded n ≠ some (q ++ [newname]))
    (ht : t'.node = moveNode t.node (p ++ [name]) (q ++ [newname])) :
    Tracks t' (fs.handleRenamePaths scan parent name newparent newname flags) given := by
  obtain ⟨hs, hi⟩ := RemapFs.handleRenamePaths_maps scan fs parent name newparent newname flags
  have hrec := h.recorded_plain scan hflags hr hbelow
  obtain ⟨hq, d, hd, hdir⟩ := hr.target
  refine h.of_ledger hs hi (fun n => ?_) ?_
  · rw [hrec]
    exact map_eq_none_iff
  · rw [hrec]
    exact h.ledger.move ht (by simp) hbelow hfree hq hd hdir

theorem rename_swap (scan : PathScan) (hflags : RemapFs.isExchange flags = true)
    (hr : RenamePlaces t fs given parent name newparent newname p q) (hbelow : ¬p ++ [name] <+: q ++ [newname])
    (habove : ¬q ++ [newname] <+: p ++ [name])
    (hempty : ∀ n x, x ≠ [] → fs.recorded n ≠ some (p ++ [name] ++ x) ∧ fs.recorded n ≠ some (q ++ [newname] ++ x))
    (ht : t'.node = swapNode t.node (p ++ [name]) (q ++ [newname])) :
    Tracks t' (fs.handleRenamePaths scan parent name newparent newname flags) given := by
  obtain ⟨hs, hi⟩ := RemapFs.handleRenamePaths_maps scan fs parent name newparent newname flags
  have hrec := h.recorded_swap scan hflags hr
  obtain ⟨hp, d, hd, hdir⟩ := hr.source
  obtain ⟨hq, d', hd', hdir'⟩ := hr.target
  refine h.of_ledger hs hi (fun n => ?_) ?_
  · rw [hrec]
    exact map_eq_none_iff
  · rw [hrec]
    refine h.ledger.swap ht hbelow habove (fun n s x hn hx => ?_) hp hd hdir hq hd' hdir'
    obtain ⟨h₁, h₂⟩ := hempty n x hx
    exact ⟨fun heq => h₁ (heq ▸ hn), fun heq => h₂ (heq ▸ hn)⟩

theorem rename_names {fs' : RemapFs T} {o : Object} {f : List Bytes → List Bytes}
    (hr : RenamePlaces t fs given parent name newparent newname p q) (hs : fs'.innerToStable = fs.innerToStable)
    (hi : fs'.stableToInner = fs.stableToInner) (hrec : ∀ n, fs'.recorded n = (fs.recorded n).map f)
    (ho : t.node (p ++ [name]) = some o) (ho' : t.node (q ++ [newname]) = some o) (ht : t'.node = t.node)
    (hA : f (p ++ [name]) = p ++ [name] ∨ f (p ++ [name]) = q ++ [newname])
    (hB : f (q ++ [newname]) = p ++ [name] ∨ f (q ++ [newname]) = q ++ [newname])
    (hf : ∀ n s, fs.recorded n = some s → s ≠ p ++ [name] → s ≠ q ++ [newname] → f s = s) : Tracks t' fs' given := by
  have hdom : ∀ n, fs'.recorded n = none ↔ fs.recorded n = none := by
    intro n
    rw [hrec]
    exact map_eq_none_iff
  refine h.of_ledger hs hi hdom ?_
  have hgiven : ∀ {n s}, fs.recorded n = some s → s = p ++ [name] ∨ s = q ++ [newname] → (n, o) ∈ given := by
    rintro n s hn (rfl | rfl)
    · exact h.ledger.only n _ o hn ho
    · exact h.ledger.only n _ o hn ho'
  by_cases hex : ∃ n s, fs.recorded n = some s ∧ (s = p ++ [name] ∨ s = q ++ [newname])
  · obtain ⟨n, s, hn, hs⟩ := hex
    have hupdate : fs'.recorded = Function.update fs.recorded n (some (f s)) := by
      funext m
      by_cases hmn : m = n
      · subst hmn
        rw [hrec, Function.update_self, hn, map_some]
      · rw [hrec, Function.update_of_ne hmn]
        cases hm : fs.recorded m with
        | none => rfl
        | some r =>
          have hne : ¬(r = p ++ [name] ∨ r = q ++ [newname]) := fun hr' =>
            hmn (h.ledger.numbers m n o o (hgiven hm hr') (hgiven hn hs) rfl)
          rw [map_some, hf m r hm (fun heq => hne (.inl heq)) fun heq => hne (.inr heq)]
    have hplace : f s = p ++ [name] ∨ f s = q ++ [newname] := by
      rcases hs with rfl | rfl
      · exact hA
      · exact hB
    rw [hupdate]
    obtain ⟨hp, d, hd, hdir⟩ := hr.source
    obtain ⟨hq, d', hd', hdir'⟩ := hr.target
    rcases hplace with heq | heq
    · rw [heq]
      exact (h.ledger.repath (hgiven hn hs) ho hp hd hdir).congr ht
    · rw [heq]
      exact (h.ledger.repath (hgiven hn hs) ho' hq hd' hdir').congr ht
  · have hsame : fs'.recorded = fs.recorded := by
      funext m
      rw [hrec]
      cases hm : fs.recorded m with
      | none => rfl
      | some r =>
        rw [map_some, hf m r hm (fun heq => hex ⟨m, r, hm, .inl heq⟩) fun heq => hex ⟨m, r, hm, .inr heq⟩]
    rw [hsame]
    exact h.ledger.congr ht

theorem rename_same (scan : PathScan) {o : Object}
    (hr : RenamePlaces t fs given parent name newparent newname p q) (ho : t.node (p ++ [name]) = some o)
    (ho' : t.node (q ++ [newname]) = some o) (ht : t'.node = t.node) :
    Tracks t' (fs.handleRenamePaths scan parent name newparent newname flags) given := by
  obtain ⟨hs, hi⟩ := RemapFs.handleRenamePaths_maps scan fs parent name newparent newname flags
  cases hflags : RemapFs.isExchange flags with
  | true =>
    refine h.rename_names hr hs hi (congrFun (h.recorded_swap scan hflags hr)) ho ho' ht ?_ ?_ ?_
    · right
      rw [exchange, if_pos rfl]
    · left
      unfold exchange
      split
      · next heq => exact heq
      · rw [if_pos rfl]
    · intro n s _ hA hB
      rw [exchange, if_neg hA, if_neg hB]
  | false =>
    by_cases hAB : p ++ [name] = q ++ [newname]
    · refine h.of_eq hs hi ?_ ht
      exact RemapFs.recorded_rename_self scan hflags (segments_injective slash (hr.old.trans (hAB.trans hr.new.symm)))
    · have hfile : ¬o.IsDir := fun hdir => hAB (t.alone _ _ o ho ho' hdir)
      have hbelow : ¬p ++ [name] <+: q ++ [newname] := by
        rintro ⟨x, hx⟩
        cases x with
        | nil => exact hAB (by rw [← hx, append_nil])
        | cons c x =>
          have := t.none_below (t.none_below_file ho hfile c) x
          rw [append_assoc, singleton_append, hx, ho'] at this
          cases this
      have hnotbelow : ∀ n s, fs.recorded n = some s → s ≠ p ++ [name] → ¬p ++ [name] <+: s := by
        rintro n _ hn hne ⟨x, rfl⟩
        have hx : x ≠ [] := fun hx => hne (by rw [hx, append_nil])
        obtain ⟨m, d, hm, hd, hdir⟩ := h.ledger.dir_above hn hx
        cases h.ledger.same m _ _ hd (h.ledger.only m _ o hm ho)
        exact hfile hdir
      refine h.rename_names hr hs hi (congrFun (h.recorded_plain scan hflags hr hbelow)) ho ho' ht ?_ ?_ ?_
      · right
        have := relocate_append (p ++ [name]) (q ++ [newname]) []
        rwa [append_nil, append_nil] at this
      · right
        rw [relocate, if_neg hbelow]
      · intro n s hn hA _
        rw [relocate, if_neg (hnotbelow n s hn hA)]

end Tracks

end

end Fcvm.Remap
