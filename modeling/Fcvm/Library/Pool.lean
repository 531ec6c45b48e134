import Mathlib.Logic.Function.Basic
import Fcvm.Library.Thread

namespace Fcvm.Library

/-- Threads that share a state. A call starts a thread; `own` is the part of the state that belongs to one, and an
environment step may end some of them. -/
structure Pool (σ ω ι κ ε Op : Type) (Res : Op → Type) where
  own : ℕ → σ → ω
  exec : ℕ → (o : Op) → σ → ι → Option (σ × Res o)
  call : ℕ → κ → σ → Option (σ × Prog Op Res Unit)
  environment : σ → ε → Option (σ × (ℕ → Bool))

namespace Pool

variable {σ ω ι κ ε Op : Type} {Res : Op → Type}

structure State (σ Op : Type) (Res : Op → Type) where
  shared : σ
  threads : ℕ → Option (Prog Op Res Unit)

inductive Event (ι κ ε : Type)
  | step (t : ℕ) (i : ι)
  | call (t : ℕ) (c : κ)
  | environment (e : ε)

def next (M : Pool σ ω ι κ ε Op Res) (w : State σ Op Res) : Event ι κ ε → Option (State σ Op Res)
  | .step t i =>
    match w.threads t with
    | some (.op o k) => (M.exec t o w.shared i).map fun (s, r) => ⟨s, Function.update w.threads t (some (k r))⟩
    | _ => none
  | .call t c =>
    match w.threads t with
    | none => (M.call t c w.shared).map fun (s, p) => ⟨s, Function.update w.threads t (some p)⟩
    | some _ => none
  | .environment e =>
    (M.environment w.shared e).map fun (s, ended) => ⟨s, fun t => if ended t then none else w.threads t⟩

def system (M : Pool σ ω ι κ ε Op Res) (initial : σ → Prop) : System (State σ Op Res) (Event ι κ ε) where
  initial w := initial w.shared ∧ ∀ t, w.threads t = none
  next := M.next

def Threads (M : Pool σ ω ι κ ε Op Res) (K : Prog.Contract Op Res ω) (w : State σ Op Res) : Prop :=
  ∀ t p, w.threads t = some p → Prog.wp K p (fun _ _ => True) (M.own t w.shared)

variable {M : Pool σ ω ι κ ε Op Res} {K : Prog.Contract Op Res ω}

theorem Threads.update {w : State σ Op Res} (h : M.Threads K w) {s : σ} {t : ℕ} {p : Prog Op Res Unit}
    (hp : Prog.wp K p (fun _ _ => True) (M.own t s)) (hown : ∀ u, u ≠ t → M.own u s = M.own u w.shared) :
    M.Threads K ⟨s, Function.update w.threads t (some p)⟩ := by
  intro u q hu
  dsimp only at hu ⊢
  by_cases hut : u = t
  · subst hut
    rw [Function.update_self] at hu
    cases hu
    exact hp
  · rw [Function.update_of_ne hut] at hu
    rw [hown u hut]
    exact h u q hu

theorem reachable {initial : σ → Prop} {I : σ → Prop} {C : State σ Op Res → Event ι κ ε → Prop}
    (hinit : ∀ s, initial s → I s)
    (hexec : ∀ w t o k i s r, I w.shared → C w (.step t i) → w.threads t = some (.op o k) →
      K.pre o (M.own t w.shared) → M.exec t o w.shared i = some (s, r) →
      I s ∧ K.post o (M.own t w.shared) r (M.own t s) ∧ ∀ u, u ≠ t → M.own u s = M.own u w.shared)
    (hcall : ∀ w t c s p, I w.shared → C w (.call t c) → M.call t c w.shared = some (s, p) →
      I s ∧ Prog.wp K p (fun _ _ => True) (M.own t s) ∧ ∀ u, u ≠ t → M.own u s = M.own u w.shared)
    (henv : ∀ s e s' ended, I s → M.environment s e = some (s', ended) →
      I s' ∧ ∀ u, ended u = false → M.own u s' = M.own u s)
    {w : State σ Op Res} (h : (M.system initial).ReachableBy C w) : I w.shared ∧ M.Threads K w := by
  refine h.invariant (P := fun w => I w.shared ∧ M.Threads K w) ?_ ?_
  · rintro w ⟨hw, hnone⟩
    refine ⟨hinit _ hw, ?_⟩
    intro t p hp
    simp [hnone] at hp
  · rintro w e w' ⟨hI, hthreads⟩ hC hnext
    cases e with
    | step t i =>
      simp only [system, next] at hnext
      split at hnext
      · next o k hop =>
        obtain ⟨⟨s, r⟩, hs, rfl⟩ := Option.map_eq_some_iff.mp hnext
        have hwp := hthreads t _ hop
        obtain ⟨hI', hpost, hown⟩ := hexec w t o k i s r hI hC hop hwp.1 hs
        exact ⟨hI', hthreads.update (hwp.2 r _ hpost) hown⟩
      · cases hnext
    | call t c =>
      simp only [system, next] at hnext
      split at hnext
      · obtain ⟨⟨s, p⟩, hs, rfl⟩ := Option.map_eq_some_iff.mp hnext
        obtain ⟨hI', hwp, hown⟩ := hcall w t c s p hI hC hs
        exact ⟨hI', hthreads.update hwp hown⟩
      · cases hnext
    | environment e =>
      simp only [system, next] at hnext
      obtain ⟨⟨s, ended⟩, hs, rfl⟩ := Option.map_eq_some_iff.mp hnext
      obtain ⟨hI', hown⟩ := henv _ e s ended hI hs
      refine ⟨hI', ?_⟩
      intro t p hp
      dsimp only at hp ⊢
      split at hp
      · cases hp
      · next hended =>
        rw [hown t (by simpa using hended)]
        exact hthreads t p hp

end Pool

end Fcvm.Library
