import Fcvm.Readdir.Model

namespace Fcvm.Readdir

open List

namespace Host

variable {h : Host}

structure Valid (h : Host) : Prop where
  names : (h.entries.map HostEntry.name).Nodup
  offsets : (h.entries.map HostEntry.offset).Nodup
  nonzero : ∀ e ∈ h.entries, e.offset ≠ 0
  split : ∀ cookie, 0 < h.split cookie

def Left (h : Host) (cookie : ℕ) : Prop := ∃ e ∈ h.after cookie, e.isDots = false

def Rises (h : Host) : Prop :=
  ∀ cookie, ∀ e ∈ (h.chunk cookie).getLast?, h.Left e.offset → cookie < e.offset

def Named (h : Host) : Prop :=
  ∀ cookie, ∀ e ∈ (h.chunk cookie).getLast?, h.Left e.offset → ∃ x ∈ h.chunk cookie, x.isDots = false

def cookies (h : Host) : List ℕ := 0 :: h.entries.map HostEntry.offset

variable {cookie : ℕ} {before rest : List HostEntry}

theorem mem_cookies {e : HostEntry} (he : (h.chunk cookie).getLast? = some e) : cookie ∈ h.cookies := by
  have hafter := mem_of_mem_take (mem_of_getLast? he)
  unfold after at hafter
  split at hafter
  · next hzero =>
    rw [hzero]
    exact mem_cons_self
  · apply mem_cons_of_mem
    by_contra hnone
    have hall : ∀ x ∈ h.entries, decide (x.offset ≠ cookie) = true := by
      intro x hx
      apply decide_eq_true
      rintro rfl
      exact hnone (mem_map_of_mem hx)
    rw [dropWhile_eq_nil_iff.mpr hall] at hafter
    cases hafter

instance (cookie : ℕ) : Decidable (h.Left cookie) :=
  inferInstanceAs (Decidable (∃ e ∈ h.after cookie, e.isDots = false))

instance : Decidable h.Rises :=
  decidable_of_iff (∀ cookie ∈ h.cookies, ∀ e ∈ (h.chunk cookie).getLast?, h.Left e.offset → cookie < e.offset)
    ⟨fun hall cookie e he => hall cookie (mem_cookies he) e he, fun hall cookie _ => hall cookie⟩

instance : Decidable h.Named :=
  decidable_of_iff (∀ cookie ∈ h.cookies, ∀ e ∈ (h.chunk cookie).getLast?, h.Left e.offset →
      ∃ x ∈ h.chunk cookie, x.isDots = false)
    ⟨fun hall cookie e he => hall cookie (mem_cookies he) e he, fun hall cookie _ => hall cookie⟩

def names (h : Host) : List Name := (h.entries.filter (!·.isDots)).map HostEntry.name

def listing (h : Host) : List Name := DOT :: DOTDOT :: h.names

theorem after_zero : h.after 0 = h.entries := by
  unfold after
  rw [if_pos rfl]

theorem after_offset (hh : h.Valid) {e : HostEntry}
    (hentries : h.entries = before ++ e :: rest) : h.after e.offset = rest := by
  have hmem : e ∈ h.entries := by
    rw [hentries]
    exact mem_append_right _ mem_cons_self
  have hnodup := hh.offsets
  rw [hentries, map_append, map_cons, nodup_append] at hnodup
  have hbefore : ∀ x ∈ before, decide (x.offset ≠ e.offset) = true := by
    intro x hx
    have hne := hnodup.2.2 x.offset (mem_map_of_mem hx) e.offset mem_cons_self
    exact decide_eq_true hne
  unfold after
  rw [if_neg (hh.nonzero e hmem), hentries, dropWhile_append_of_pos hbefore, dropWhile_cons_of_neg (by simp),
    tail_cons]

theorem chunk_cases (hh : h.Valid) (hentries : h.entries = before ++ rest)
    (hafter : h.after cookie = rest) :
    (h.chunk cookie = [] ∧ rest = []) ∨
      ∃ last left, (h.chunk cookie).getLast? = some last ∧ rest = h.chunk cookie ++ left ∧ h.after last.offset = left ∧
        left.length < rest.length := by
  rcases eq_nil_or_concat (h.chunk cookie) with hnil | ⟨firsts, last, hchunk⟩
  · left
    have htake := hnil
    unfold chunk at htake
    rw [hafter, take_eq_nil_iff] at htake
    have hsplit := hh.split cookie
    exact ⟨hnil, htake.resolve_left (by omega)⟩
  · right
    rw [concat_eq_append] at hchunk
    have hrest : rest = h.chunk cookie ++ rest.drop (h.split cookie) := by
      unfold chunk
      rw [hafter, take_append_drop]
    generalize rest.drop (h.split cookie) = left at hrest
    have hwhole : h.entries = (before ++ firsts) ++ last :: left := by
      rw [hentries, hrest, hchunk]
      simp only [append_assoc, singleton_append]
    refine ⟨last, left, ?_, hrest, after_offset hh hwhole, ?_⟩
    · rw [hchunk, List.getLast?_concat]
    · rw [hrest, hchunk]
      simp only [length_append, length_singleton]
      omega

theorem collect_eq (hh : h.Valid) (hrises : h.Rises) (hnamed : h.Named) {fuel : ℕ} (before rest : List HostEntry)
    {entries collected : List DirEntry} (hentries : h.entries = before ++ rest) (hafter : h.after cookie = rest)
    (hfuel : rest.length < fuel) (hcollect : h.collect fuel cookie entries = .ok collected) :
    collected = entries ++ (rest.filter (!·.isDots)).map HostEntry.toDirEntry := by
  induction fuel generalizing cookie before rest entries with
  | zero => omega
  | succ fuel ih =>
    unfold collect at hcollect
    split at hcollect
    · cases hcollect
    · dsimp only at hcollect
      rcases chunk_cases hh hentries hafter with ⟨hnil, hrest⟩ | ⟨last, left, hlast, hrest, hleft, hshorter⟩
      · rw [hnil] at hcollect
        rw [hrest]
        simpa using hcollect.symm
      · have hdone (hnone : ¬ h.Left last.offset) : (left.filter (!·.isDots)) = [] := by
          rw [filter_eq_nil_iff]
          intro x hx hdots
          apply hnone
          refine ⟨x, ?_, by simpa using hdots⟩
          rw [hleft]
          exact hx
        rw [hlast, Option.map_some, Option.getD_some] at hcollect
        rw [hrest, filter_append, map_append, ← append_assoc]
        split at hcollect
        · -- no name in the chunk
          next hlength =>
          rw [hdone]
          · cases hcollect
            simp
          · intro hmore
            obtain ⟨x, hx, hdots⟩ := hnamed cookie last hlast hmore
            have hin : x ∈ (h.chunk cookie).filter (!·.isDots) := mem_filter.mpr ⟨hx, by rw [hdots]; rfl⟩
            have hpos := length_pos_of_mem hin
            rw [length_append, length_map] at hlength
            omega
        · split at hcollect
          · -- the cookie does not rise
            next hle =>
            rw [hdone]
            · cases hcollect
              simp
            · intro hmore
              have hlt := hrises cookie last hlast hmore
              omega
          · apply ih (before ++ h.chunk cookie) left _ hleft (by omega) hcollect
            rw [hentries, hrest, append_assoc]

theorem readdir_names (hh : h.Valid) (hrises : h.Rises) (hnamed : h.Named) {ino offset : ℕ} {entries : List DirEntry}
    (hread : h.readdir ino offset = .dirEntries entries) : entries.map DirEntry.name = h.listing.drop offset := by
  unfold readdir at hread
  split at hread
  · cases hread
  · split at hread
    · cases hread
    · next collected hcollect =>
      have hall := collect_eq hh hrises hnamed [] h.entries rfl after_zero (Nat.lt_succ_self _) hcollect
      have hfull : (h.fullEntries ino collected).map DirEntry.name = h.listing := by
        rw [hall]
        simp [fullEntries, DirEntry.dot, DirEntry.dotdot, listing, names, HostEntry.toDirEntry]
      cases hread
      split
      · next hle =>
        rw [map_nil, drop_eq_nil_of_le]
        rw [← hfull, length_map]
        exact hle
      · rw [map_drop, hfull]

end Host

end Fcvm.Readdir
