import Mathlib.Data.List.GetD
import Fcvm.WorkingSet.PageSet

namespace Fcvm.WorkingSet

structure MergeOutcome where
  total : ℕ
  added : ℕ
  persisted : Bool
  superseded : Bool
  deriving DecidableEq

inductive Outcome where
  | ok
  | wouldBlock
  | failed
  deriving DecidableEq

/-- The union that a serve process keeps, and the set that `read_set` finds in the sidecar. -/
structure Store where
  known : PageSet
  disk : Option PageSet
  deriving DecidableEq

inductive Merged where
  | error
  | contended
  | done (outcome : MergeOutcome)
  deriving DecidableEq

inductive Merge where
  | start
  | copied (merged : PageSet)
  | leased (merged : PageSet)
  | locked (merged : PageSet)
  | read (merged : PageSet) (diskLen added : ℕ)
  | decided (merged : PageSet) (outcome : MergeOutcome)
  | written (merged : PageSet) (outcome : MergeOutcome) (ok : Bool)
  | unlocked (merged : PageSet) (outcome : MergeOutcome) (ok : Bool)
  | released (merged : PageSet) (outcome : MergeOutcome) (ok : Bool)
  | finished (result : Merged)
  deriving DecidableEq

inductive Input where
  | call (outcome : Outcome)
  | sidecar (readable : Bool)
  | identity (ours : Bool)
  deriving DecidableEq

def mergeStep (observed : PageSet) (nonblockingSidecar : Bool) : Merge → Store → Input → Option (Merge × Store)
  | .start, s, .call .ok => some (.copied s.known, s)
  | .copied merged, s, .call .ok => some (.leased merged, s)
  | .copied _, s, .call .failed => some (.finished .error, s)
  | .leased merged, s, .call .ok => some (.locked merged, s)
  | .leased _, s, .call .wouldBlock => if nonblockingSidecar then some (.finished .contended, s) else none
  | .leased _, s, .call .failed => some (.finished .error, s)
  | .locked merged, s, .sidecar readable =>
    let onDisk := if readable then s.disk else none
    let diskLen := onDisk.elim 0 PageSet.len
    let merged := onDisk.elim merged fun disk => (merged.unionFrom disk).1
    let (merged, added) := merged.unionFrom observed
    some (.read merged diskLen added, s)
  | .read merged diskLen added, s, .identity ours =>
    let superseded := !ours
    let total := merged.len
    some (.decided merged ⟨total, added, diskLen < total && !superseded, superseded⟩, s)
  | .decided merged outcome, s, .call .ok =>
    if outcome.persisted then some (.written merged outcome true, { s with disk := some merged })
    else some (.written merged outcome true, s)
  | .decided merged outcome, s, .call .failed =>
    if outcome.persisted then some (.written merged outcome false, s) else none
  | .written merged outcome ok, s, .call .ok => some (.unlocked merged outcome ok, s)
  | .unlocked merged outcome ok, s, .call .ok => some (.released merged outcome ok, s)
  | .released merged outcome ok, s, .call .ok =>
    some (.finished (if ok then .done outcome else .error), { s with known := (s.known.unionFrom merged).1 })
  | _, _, _ => none

section Undisturbed

/-- No other process holds the sidecar lock, the generation is the same, and the system calls succeed. The sidecar may
be found unreadable. -/
def Input.Undisturbed : Input → Prop
  | .call outcome => outcome = .ok
  | .sidecar _ => True
  | .identity ours => ours = true

instance (i : Input) : Decidable i.Undisturbed :=
  match i with
  | .call outcome => inferInstanceAs (Decidable (outcome = .ok))
  | .sidecar _ => inferInstanceAs (Decidable True)
  | .identity ours => inferInstanceAs (Decidable (ours = true))

def Store.onDisk (memLen : ℕ) (s : Store) : PageSet := s.disk.getD (PageSet.empty memLen)

structure Store.Fits (memLen : ℕ) (s : Store) : Prop where
  known : s.known.Fits memLen
  disk : ∀ d, s.disk = some d → d.Fits memLen

def Merge.merged : Merge → Option PageSet
  | .copied merged | .leased merged | .locked merged | .read merged _ _ | .decided merged _ | .written merged _ _
  | .unlocked merged _ _ | .released merged _ _ => some merged
  | .start | .finished _ => none

def Merge.Sound (memLen : ℕ) (s : Store) : Merge → Prop
  | .start | .finished _ => True
  | .copied merged | .leased merged | .locked merged => merged.Fits memLen
  | .read merged diskLen _ => merged.Fits memLen ∧ (merged.len ≤ diskLen → (s.onDisk memLen).Covers merged)
  | .decided merged outcome => merged.Fits memLen ∧ (outcome.persisted = false → (s.onDisk memLen).Covers merged)
  | .written merged _ _ | .unlocked merged _ _ | .released merged _ _ =>
    merged.Fits memLen ∧ (s.onDisk memLen).Covers merged

def Merge.Brings (memLen : ℕ) (s : Store) (o : PageSet) : Merge → Prop
  | .start => True
  | .finished _ => (s.onDisk memLen).Covers o
  | m => ∀ merged, m.merged = some merged → merged.Covers o

variable {memLen : ℕ} {s s' : Store} {m m' : Merge} {i : Input} {o : PageSet}

theorem Store.Fits.onDisk (h : s.Fits memLen) : (s.onDisk memLen).Fits memLen := by
  unfold Store.onDisk
  cases hd : s.disk with
  | none => exact PageSet.fits_empty memLen
  | some d => exact h.disk d hd

theorem bit_empty (memLen i : ℕ) : bit (PageSet.empty memLen).words i = false := by
  simp only [bit, PageSet.empty]
  by_cases hlt : i / 64 < (PageSet.granulesOf memLen + 63) / 64
  · rw [List.getD_eq_getElem _ _ (by simpa using hlt), List.getElem_replicate]
    simp
  · rw [List.getD_eq_default _ _ (by simpa using hlt)]
    simp

theorem covers_empty (u : PageSet) : u.Covers (PageSet.empty memLen) := by
  intro i hi
  simp [bit_empty] at hi

theorem covers_of_len_zero (ho : o.Fits memLen) (hlen : o.len ≤ 0) (u : PageSet) : u.Covers o := by
  have hempty : (PageSet.empty memLen).Covers o :=
    (covers_empty o).of_len_le ho (PageSet.fits_empty memLen) (hlen.trans (Nat.zero_le _))
  exact (covers_empty u).trans hempty

structure Advance (memLen : ℕ) (m : Merge) (s : Store) (m' : Merge) (s' : Store) : Prop where
  fits : s'.Fits memLen
  sound : m'.Sound memLen s'
  known : s'.known.Covers s.known
  disk : s'.disk = s.disk ∨ ∃ merged, m.merged = some merged ∧ s'.disk = some merged
  grows : ∀ merged', m'.merged = some merged' →
    merged'.Covers (m.merged.getD s.known)
  brings : ∀ o, s.known.Covers o → m.Brings memLen s o → m'.Brings memLen s' o

theorem mergeStep_advance (hs : s.Fits memLen) (hm : m.Sound memLen s) (hi : i.Undisturbed)
    (h : mergeStep (PageSet.empty memLen) true m s i = some (m', s')) : Advance memLen m s m' s' := by
  cases m with
  | start =>
    cases i with
    | call outcome =>
      cases hi
      cases h
      refine ⟨hs, hs.known, .refl _, .inl rfl, ?_, ?_⟩
      · intro merged' hmerged
        cases hmerged
        exact .refl _
      · intro o hknown _ merged hmerged
        cases hmerged
        exact hknown
    | sidecar | identity => cases h
  | copied | leased =>
    cases i with
    | call outcome =>
      cases hi
      cases h
      exact ⟨hs, hm, .refl _, .inl rfl, fun _ h => by cases h; exact .refl _, fun _ _ h => h⟩
    | sidecar | identity => cases h
  | locked merged =>
    cases i with
    | sidecar readable =>
      have hempty := PageSet.fits_empty memLen
      -- the set as it was, or with what the sidecar holds
      have hread : ∀ (onDisk : Option PageSet), (onDisk = s.disk ∨ onDisk = none) →
          let u := onDisk.elim merged fun disk => (merged.unionFrom disk).1
          u.Fits memLen ∧ u.Covers merged ∧
            ((u.unionFrom (PageSet.empty memLen)).1.len ≤ onDisk.elim 0 PageSet.len →
              (s.onDisk memLen).Covers (u.unionFrom (PageSet.empty memLen)).1) := by
        intro onDisk honDisk
        cases onDisk with
        | none =>
          refine ⟨hm, .refl _, ?_⟩
          intro hlen
          exact covers_of_len_zero (hm.unionFrom _) hlen _
        | some d =>
          have hdisk : s.disk = some d := (honDisk.resolve_right (by simp)).symm
          have hd := hs.disk d hdisk
          have hu : (merged.unionFrom d).1.Fits memLen := PageSet.Fits.unionFrom hm d
          refine ⟨hu, PageSet.covers_unionFrom_left hm hd, ?_⟩
          intro hlen
          have hon : s.onDisk memLen = d := by
            unfold Store.onDisk
            rw [hdisk]
            rfl
          rw [hon]
          apply PageSet.Covers.of_len_le (hu.unionFrom _) hd
          · exact (PageSet.covers_unionFrom_left hu hempty).trans (PageSet.covers_unionFrom_right hm hd)
          · exact hlen
      have honDisk : (if readable then s.disk else none) = s.disk ∨ (if readable then s.disk else none) = none := by
        cases readable with
        | true => exact .inl rfl
        | false => exact .inr rfl
      obtain ⟨hu, hcovers, hlen⟩ := hread _ honDisk
      cases h
      have hgrows := (PageSet.covers_unionFrom_left hu hempty).trans hcovers
      refine ⟨hs, ⟨hu.unionFrom _, hlen⟩, .refl _, .inl rfl, ?_, ?_⟩
      · intro merged' hmerged
        cases hmerged
        exact hgrows
      · intro o _ hbrings merged' hmerged
        cases hmerged
        exact hgrows.trans (hbrings merged rfl)
    | call | identity => cases h
  | read merged diskLen added =>
    cases i with
    | identity ours =>
      cases hi
      cases h
      refine ⟨hs, ⟨hm.1, ?_⟩, .refl _, .inl rfl, fun _ h => by cases h; exact .refl _, fun _ _ h => h⟩
      intro hpersisted
      apply hm.2
      simpa using hpersisted
    | call | sidecar => cases h
  | decided merged outcome =>
    cases i with
    | call result =>
      cases hi
      simp only [mergeStep] at h
      split at h
      · cases h
        have hon : (Store.onDisk memLen { s with disk := some merged }).Covers merged := .refl _
        refine ⟨⟨hs.known, ?_⟩, ⟨hm.1, hon⟩, .refl _, .inr ⟨merged, rfl, rfl⟩, fun _ h => by cases h; exact .refl _,
          fun _ _ h => h⟩
        intro d hd
        cases hd
        exact hm.1
      · next hpersisted =>
        cases h
        exact ⟨hs, ⟨hm.1, hm.2 (by simpa using hpersisted)⟩, .refl _, .inl rfl, fun _ h => by cases h; exact .refl _,
          fun _ _ h => h⟩
    | sidecar | identity => cases h
  | written | unlocked =>
    cases i with
    | call result =>
      cases hi
      cases h
      exact ⟨hs, hm, .refl _, .inl rfl, fun _ h => by cases h; exact .refl _, fun _ _ h => h⟩
    | sidecar | identity => cases h
  | released merged outcome ok =>
    cases i with
    | call result =>
      cases hi
      cases h
      refine ⟨⟨hs.known.unionFrom _, hs.disk⟩, trivial, PageSet.covers_unionFrom_left hs.known hm.1, .inl rfl, ?_, ?_⟩
      · nofun
      · exact fun o _ hbrings => PageSet.Covers.trans hm.2 (hbrings merged rfl)
    | sidecar | identity => cases h
  | finished result => cases i <;> cases h

end Undisturbed

end Fcvm.WorkingSet
