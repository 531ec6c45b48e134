import Fcvm.Remap.PathTable

namespace Fcvm.Remap

open Library Function

def objectsGiven (t : HostTree) (gives : List (ℕ × ℕ)) : Set (ℕ × Object) :=
  { p | ∃ i, (i, p.1) ∈ gives ∧ t.Linked p.2 ∧ p.2.ino = i }

theorem objectsGiven_nil (t : HostTree) : objectsGiven t [] = ∅ := by
  ext p
  simp [objectsGiven]

/-- The server's maps are faithful to the tree: they are inverse, each mapped inode has a recorded path and is the
number of the object it was given for, and the recorded paths lead back to those objects. -/
structure Tracks {T : Type} (t : HostTree) (fs : RemapFs T) (given : Set (ℕ × Object)) : Prop where
  bijective : fs.Bijective
  domain : ∀ n, fs.toInner n = none ↔ fs.recorded n = none
  numbers : ∀ n o, (n, o) ∈ given → fs.toInner n = some o.ino
  ledger : Ledger t.toNameTree 1 fs.recorded given

namespace Tracks

variable {T : Type} {t t' : HostTree} {fs : RemapFs T} {given : Set (ℕ × Object)}

variable (h : Tracks t fs given)
include h

theorem of_eq {fs' : RemapFs T} (hs : fs'.innerToStable = fs.innerToStable)
    (hi : fs'.stableToInner = fs.stableToInner) (hp : fs'.recorded = fs.recorded) (ht : t'.node = t.node) :
    Tracks t' fs' given := by
  refine ⟨?_, ?_, ?_, ?_⟩
  · exact (RemapFs.Grows.of_eq hs hi).bijective h.bijective
  · intro n
    rw [RemapFs.toInner, hi, hp]
    exact h.domain n
  · intro n o hn
    rw [RemapFs.toInner, hi]
    exact h.numbers n o hn
  · rw [hp]
    exact h.ledger.congr ht

theorem object {n : ℕ} {q : List Bytes} {o : Object} (hn : fs.toInner n = some o.ino)
    (ho : t.node q = some o) : (n, o) ∈ given := by
  cases hr : fs.recorded n with
  | none =>
    simp [(h.domain n).mpr hr] at hn
  | some p =>
    obtain ⟨o', ho'⟩ := h.ledger.held n p hr
    have hino : o.ino = o'.ino := Option.some.inj (hn.symm.trans (h.numbers n o' ho'))
    have heq : o = o' := h.ledger.current n o' q o ho' ho hino
    exact heq ▸ ho'

theorem dirAt {n i : ℕ} {q : List Bytes} (hn : fs.toInner n = some i) (hq : t.DirAt q i) :
    fs.recorded n = some q ∧ ∃ d, (n, d) ∈ given ∧ d.IsDir := by
  obtain ⟨d, hd, hdir, rfl⟩ := hq
  have hgiven := h.object hn hd
  obtain ⟨p, hp⟩ := h.ledger.named n d hgiven
  have hlive := h.ledger.live n d p q hgiven hd hp
  cases t.alone p q d hlive hd hdir
  exact ⟨hp, d, hgiven, hdir⟩

theorem register {parent : ℕ} {p : List Bytes} {name : Bytes} {o d : Object} {n : ℕ}
    (hp : fs.recorded parent = some p) (hd : (parent, d) ∈ given) (hdir : d.IsDir)
    (ho : t.node (p ++ [name]) = some o) (hutf8 : isUtf8 name = true)
    (hn : (fs.registerEntry parent name o.ino).1 = some n) :
    Tracks t (fs.registerEntry parent name o.ino).2 (insert (n, o) given) := by
  have hreg := RemapFs.registered fs parent name o.ino
  generalize fs.registerEntry parent name o.ino = out at hreg hn
  cases hreg with
  | known hknown =>
    cases hn
    rw [Set.insert_eq_of_mem (h.object ((h.bijective _ _).mp hknown) ho)]
    exact h
  | full => cases hn
  | added hnew hfree =>
    cases hn
    have hnone := (RemapFs.freeStable_free hfree).1
    have hpath : segments slash (fs.entryPath parent name) = p ++ [name] :=
      RemapFs.segments_entryPath hp hutf8 (t.goodName p name o ho)
    have hnum : ∀ k o', (k, o') ∈ given → o'.ino ≠ o.ino := by
      intro k o' hk heq
      have hk := (h.bijective _ _).mpr (h.numbers k o' hk)
      rw [heq, hnew] at hk
      cases hk
    have hrec : ({ fs with
        innerToStable := fs.innerToStable.insert o.ino n
        stableToInner := fs.stableToInner.insert n o.ino
        paths := fs.paths.insert n (fs.entryPath parent name) } : RemapFs T).recorded =
          update fs.recorded n (some (p ++ [name])) := by
      rw [← hpath]
      exact RemapFs.recorded_insert fs n _
    refine ⟨h.bijective.insert hnew hnone rfl rfl, fun k => ?_, fun k o' hk => ?_, ?_⟩
    · rw [hrec]
      by_cases hkn : k = n
      · subst hkn
        rw [update_self]
        exact ⟨fun hk => (by cases (AList.lookup_insert _).symm.trans hk), nofun⟩
      · rw [update_of_ne hkn]
        have hk : (fs.stableToInner.insert n o.ino).lookup k = fs.toInner k := AList.lookup_insert_ne hkn
        change (fs.stableToInner.insert n o.ino).lookup k = none ↔ _
        rw [hk]
        exact h.domain k
    · rcases hk with heq | hk
      · cases heq
        exact AList.lookup_insert _
      · have hkn : k ≠ n := by
          rintro rfl
          rw [h.numbers k o' hk] at hnone
          cases hnone
        exact (AList.lookup_insert_ne hkn).trans (h.numbers k o' hk)
    · rw [hrec]
      exact h.ledger.add ((h.domain n).mp hnone) hnum ho hp hd hdir

theorem fixPath {parent n : ℕ} {b name : Bytes} {o d : Object}
    (hp : fs.recorded parent = some (segments slash b)) (hd : (parent, d) ∈ given) (hdir : d.IsDir)
    (ho : t.node (segments slash b ++ [name]) = some o) (hutf8 : isUtf8 name = true) (hn : (n, o) ∈ given) :
    Tracks t (fs.fixPath n (formatPath b (fromUtf8Lossy name))) given := by
  have hname := t.goodName _ name o ho
  have hpath : segments slash (formatPath b (fromUtf8Lossy name)) = segments slash b ++ [name] := by
    rw [fromUtf8Lossy_eq hutf8, segments_formatPath hname.1 hname.2.1]
  obtain ⟨q, hq⟩ := h.ledger.named n o hn
  have hrec := RemapFs.recorded_fixPath hq (formatPath b (fromUtf8Lossy name))
  have hmaps : (fs.fixPath n (formatPath b (fromUtf8Lossy name))).innerToStable = fs.innerToStable ∧
      (fs.fixPath n (formatPath b (fromUtf8Lossy name))).stableToInner = fs.stableToInner := by
    unfold RemapFs.fixPath
    split
    · split <;> exact ⟨rfl, rfl⟩
    · exact ⟨rfl, rfl⟩
  rw [hpath] at hrec
  refine ⟨(RemapFs.Grows.of_eq hmaps.1 hmaps.2).bijective h.bijective, fun k => ?_, fun k o' hk => ?_, ?_⟩
  · rw [RemapFs.toInner, hmaps.2, hrec]
    by_cases hkn : k = n
    · subst hkn
      rw [update_self]
      have := h.numbers k o hn
      exact ⟨fun hk => (by cases hk.symm.trans this), (by rintro ⟨⟩)⟩
    · rw [update_of_ne hkn]
      exact h.domain k
  · rw [RemapFs.toInner, hmaps.2]
    exact h.numbers k o' hk
  · rw [hrec]
    exact h.ledger.repath hn ho hp hd hdir

theorem of_ledger {fs' : RemapFs T} (hs : fs'.innerToStable = fs.innerToStable)
    (hi : fs'.stableToInner = fs.stableToInner) (hdom : ∀ n, fs'.recorded n = none ↔ fs.recorded n = none)
    (hledger : Ledger t'.toNameTree 1 fs'.recorded given) : Tracks t' fs' given := by
  refine ⟨(RemapFs.Grows.of_eq hs hi).bijective h.bijective, fun n => ?_, fun n o hn => ?_, hledger⟩
  · rw [RemapFs.toInner, hi, hdom]
    exact h.domain n
  · rw [RemapFs.toInner, hi]
    exact h.numbers n o hn

end Tracks

end Fcvm.Remap
