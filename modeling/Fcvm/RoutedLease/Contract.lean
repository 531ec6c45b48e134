import Fcvm.RoutedLease.Model

namespace Fcvm.RoutedLease

open Library

variable {Addr : Type} [DecidableEq Addr]

def Dir.nameOf (s : Dir Addr) (i : ℕ) : Option (FileName Addr) := (s.home i).filter fun name => s.names name == some i

structure Own (Addr : Type) where
  call : Option (ℕ × Call Addr)
  table : Bool
  file : Option ℕ
  home : Option (FileName Addr)
  locked : Bool
  named : Option (FileName Addr)
  dropping : Option (ℕ × Option (AddressLease Addr))
  met : Option (Owner Addr)

def own (t : ℕ) (s : Dir Addr) : Own Addr where
  call := s.calls t
  table := s.table == some t
  file := s.files t
  home := (s.files t).bind s.home
  locked := (s.files t).any fun i => s.lock i == some (.call t)
  named := (s.files t).bind fun i => if s.lock i = some (.call t) then s.nameOf i else none
  dropping := (s.dropping t).map fun i => (i, s.leases i)
  met := s.met t

def Own.closed (ω : Own Addr) : Own Addr := { ω with file := none, home := none, locked := false, named := none }

def pre : Op Addr → Own Addr → Prop
  | .closeTable, ω => ω.file = none
  | .openFile _ _, ω => ω.file = none
  | .tryLock, ω => ω.table = true ∧ ω.locked = false
  | .unlink name, ω => ω.named = some name
  | .hold address, ω => ω.named = some (.lease address)
  | .answer attempt, ω => ∀ holder, attempt = some (.held holder) → ∀ process address vmId,
      ω.call = some (process, .leaseAddress address vmId) → ∃ p, ω.met = some (.lease p address)
  | .closeLease, ω => ∃ i, ω.dropping = some (i, none)
  | _, _ => True

def post : (o : Op Addr) → Own Addr → Res o → Own Addr → Prop
  | .lockTable, ω, true, ω' => ω' = { ω with table := true }
  | .closeTable, ω, _, ω' => ω' = { ω with table := false }
  | .openFile name _, ω, .opened, ω' =>
    ∃ i, ω' = { ω with file := some i, home := some name, locked := false, named := none }
  | .tryLock, ω, .locked, ω' => ∃ named, ω' = { ω with locked := true, named := named }
  | .tryLock, ω, .wouldBlock, ω' => ∃ p address, ω.home = some (.lease address) ∧
    ω' = { ω with met := some (.lease p address) }
  | .fstat, ω, r, ω' => ω' = ω ∧ ∀ i, r = some i → ω.file = some i
  | .stat name, ω, r, ω' => ω' = ω ∧ ∀ i, r = .inode i → ω.file = some i → ω.locked = true → ω.named = some name
  | .unlink _, ω, true, ω' => ω' = { ω with named := none }
  | .closeFile, ω, _, ω' => ω' = ω.closed
  | .hold _, ω, _, ω' => ω' = ω.closed
  | .removeLease, ω, _, ω' => ∃ i, ω' = { ω with dropping := some (i, none) }
  | .closeLease, ω, _, ω' => ω' = { ω with dropping := none }
  | _, ω, _, ω' => ω' = ω

def contract : Prog.Contract (Op Addr) Res (Own Addr) where
  pre := pre
  post := post

structure Inv (s : Dir Addr) : Prop where
  names : ∀ name i, s.names name = some i → i < s.nextInode ∧ s.home i = some name
  files : ∀ t i, s.files t = some i → i < s.nextInode
  locks : ∀ i, s.lock i ≠ none → i < s.nextInode
  callLocks : ∀ i t, s.lock i = some (.call t) → s.files t = some i ∧ s.table = some t
  leaseLocks : ∀ i p address, s.lock i = some (.lease p address) → s.home i = some (.lease address)
  leases : ∀ i l, s.leases i = some l →
    s.lock i = some (.lease l.process l.address) ∧ s.names (.lease l.address) = some i
  dropping : ∀ t i, s.dropping t = some i → ∃ p address call, s.lock i = some (.lease p address) ∧
    s.calls t = some (p, call) ∧ ∀ l, s.leases i = some l → l.dropping = true
  droppedOnce : ∀ t u i, s.dropping t = some i → s.dropping u = some i → t = u
  idle : ∀ t, s.calls t = none → s.files t = none ∧ s.table ≠ some t ∧ s.dropping t = none
  answers : ∀ x ∈ s.answers, ∀ holder, x.attempt = some (.held holder) → ∃ p, x.met = some (.lease p x.address)

section Own

variable {s s' : Dir Addr} {t : ℕ}

/-- The same to call `u`. A step names the parts that it changes. -/
structure SameTo (u : ℕ) (s s' : Dir Addr) : Prop where
  calls : s'.calls u = s.calls u
  table : s'.table = some u ↔ s.table = some u
  files : s'.files u = s.files u
  met : s'.met u = s.met u
  dropping : s'.dropping u = s.dropping u
  leases : ∀ i, s.dropping u = some i → s'.leases i = s.leases i
  home : ∀ i, s.files u = some i → s'.home i = s.home i
  lock : ∀ i, s.files u = some i → (s'.lock i = some (.call u) ↔ s.lock i = some (.call u))
  name : ∀ i, s.files u = some i → s.lock i = some (.call u) → s'.nameOf i = s.nameOf i

omit [DecidableEq Addr] in
theorem SameTo.refl (u : ℕ) (s : Dir Addr) : SameTo u s s :=
  ⟨rfl, .rfl, rfl, rfl, rfl, fun _ _ => rfl, fun _ _ => rfl, fun _ _ => .rfl, fun _ _ _ => rfl⟩

theorem SameTo.own_eq {u : ℕ} (h : SameTo u s s') : own u s' = own u s := by
  have hdrop : (s'.dropping u).map (fun i => (i, s'.leases i)) = (s.dropping u).map fun i => (i, s.leases i) := by
    rw [h.dropping]
    cases hd : s.dropping u with
    | none => rfl
    | some i => simp [h.leases i hd]
  have htable' : (s'.table == some u) = (s.table == some u) := by
    rw [Bool.eq_iff_iff]
    simpa only [beq_iff_eq] using h.table
  simp only [own, Own.mk.injEq, h.calls, htable', h.files, h.met, hdrop, true_and, and_true]
  rcases hf : s.files u with _ | i
  · exact ⟨rfl, rfl, rfl⟩
  refine ⟨h.home i hf, by rw [Bool.eq_iff_iff]; simpa using h.lock i hf, ?_⟩
  dsimp only [Option.bind_some]
  by_cases hl : s.lock i = some (.call u)
  · rw [if_pos hl, if_pos ((h.lock i hf).mpr hl)]
    exact h.name i hf hl
  · rw [if_neg hl, if_neg (fun hl' => hl ((h.lock i hf).mp hl'))]

omit [DecidableEq Addr] in
theorem nameOf_eq {i : ℕ} {name : FileName Addr} :
    s.nameOf i = some name ↔ s.home i = some name ∧ s.names name = some i := by
  simp [Dir.nameOf, Option.filter_eq_some_iff]

theorem own_file {i : ℕ} (h : s.files t = some i) : own t s =
    ⟨s.calls t, s.table == some t, some i, s.home i, s.lock i == some (.call t),
      if s.lock i = some (.call t) then s.nameOf i else none,
      (s.dropping t).map fun j => (j, s.leases j), s.met t⟩ := by
  simp [own, h]

theorem own_named {name : FileName Addr} (h : (own t s).named = some name) :
    ∃ i, s.files t = some i ∧ s.lock i = some (.call t) ∧ s.home i = some name ∧ s.names name = some i := by
  simp only [own, Option.bind_eq_some_iff] at h
  obtain ⟨i, hi, h⟩ := h
  split at h
  · next hlock => exact ⟨i, hi, hlock, nameOf_eq.mp h⟩
  · cases h

end Own

end Fcvm.RoutedLease
