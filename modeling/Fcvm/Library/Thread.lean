import Fcvm.Library.System

namespace Fcvm.Library

/-- A sequential program: the atomic operations it still has to perform, each with what follows on its result. -/
inductive Prog (Op : Type) (Res : Op → Type) (α : Type) : Type
  | ret (a : α)
  | fail
  | op (o : Op) (k : Res o → Prog Op Res α)

namespace Prog

variable {Op : Type} {Res : Op → Type} {α β : Type}

def bind (p : Prog Op Res α) (f : α → Prog Op Res β) : Prog Op Res β :=
  match p with
  | ret a => f a
  | fail => fail
  | op o k => op o fun r => (k r).bind f

instance : Monad (Prog Op Res) where
  pure := ret
  bind := bind

def perform (o : Op) : Prog Op Res (Res o) := op o ret

def orElse (p q : Prog Op Res α) : Prog Op Res α :=
  match p with
  | ret a => ret a
  | fail => q
  | op o k => op o fun r => (k r).orElse q

/-- What an operation needs of the state that belongs to its thread, and what it makes of it. -/
structure Contract (Op : Type) (Res : Op → Type) (ω : Type) where
  pre : Op → ω → Prop
  post : (o : Op) → ω → Res o → ω → Prop

variable {ω : Type} {K : Contract Op Res ω}

def wp (K : Contract Op Res ω) (p : Prog Op Res α) (Q : α → ω → Prop) (s : ω) : Prop :=
  match p with
  | ret a => Q a s
  | fail => True
  | op o k => K.pre o s ∧ ∀ r s', K.post o s r s' → wp K (k r) Q s'

theorem wp_mono {p : Prog Op Res α} {Q Q' : α → ω → Prop} {s : ω} (h : wp K p Q s)
    (hQ : ∀ a s, Q a s → Q' a s) : wp K p Q' s := by
  induction p generalizing s with
  | ret a => exact hQ a s h
  | fail => trivial
  | op o k ih => exact ⟨h.1, fun r s' hs' => ih r (h.2 r s' hs')⟩

theorem wp_bind {p : Prog Op Res α} {f : α → Prog Op Res β} {Q : β → ω → Prop} {s : ω}
    (h : wp K p (fun a s => wp K (f a) Q s) s) : wp K (p >>= f) Q s := by
  induction p generalizing s with
  | ret a => exact h
  | fail => trivial
  | op o k ih => exact ⟨h.1, fun r s' hs' => ih r (h.2 r s' hs')⟩

theorem wp_seq {p : Prog Op Res α} {f : α → Prog Op Res β} {R : α → ω → Prop} {Q : β → ω → Prop} {s : ω}
    (h : wp K p R s) (hf : ∀ a s', R a s' → wp K (f a) Q s') : wp K (p >>= f) Q s :=
  wp_bind (wp_mono h hf)

theorem wp_ret {a : α} {Q : α → ω → Prop} {s : ω} (h : Q a s) : wp K (pure a : Prog Op Res α) Q s := h

theorem wp_fail {Q : α → ω → Prop} {s : ω} : wp K (fail : Prog Op Res α) Q s := trivial

theorem wp_perform {o : Op} {f : Res o → Prog Op Res β} {Q : β → ω → Prop} {s : ω} (hpre : K.pre o s)
    (hf : ∀ r s', K.post o s r s' → wp K (f r) Q s') : wp K (perform o >>= f) Q s := ⟨hpre, hf⟩

theorem wp_orElse {p q : Prog Op Res α} {Q : α → ω → Prop} {s : ω} (h : wp K p Q s) (hq : ∀ s, wp K q Q s) :
    wp K (p.orElse q) Q s := by
  induction p generalizing s with
  | ret a => exact h
  | fail => exact hq s
  | op o k ih => exact ⟨h.1, fun r s' hs' => ih r (h.2 r s' hs')⟩

end Prog

/-- A thread whose operations interleave with the steps of its environment. `own` is the part of the state that
belongs to the thread. -/
structure Machine (σ ω ι ε Op : Type) (Res : Op → Type) where
  own : σ → ω
  exec : (o : Op) → σ → ι → Option (σ × Res o)
  environment : σ → ε → Option σ

namespace Machine

variable {σ ω ι ε Op α : Type} {Res : Op → Type}

def system (M : Machine σ ω ι ε Op Res) (initial : σ × Prog Op Res α → Prop) :
    System (σ × Prog Op Res α) (ι ⊕ ε) where
  initial := initial
  next t
    | .inl i =>
      match t.2 with
      | .op o k => (M.exec o t.1 i).map fun (s, r) => (s, k r)
      | _ => none
    | .inr e => (M.environment t.1 e).map fun s => (s, t.2)

variable {M : Machine σ ω ι ε Op Res} {initial : σ × Prog Op Res α → Prop}

/-- An invariant of the whole state that the environment keeps, leaving alone what belongs to the thread, and that the
thread's operations keep where they find what they need, holds in every run of a program that provides that. -/
theorem reachable {I : σ → Prop} {K : Prog.Contract Op Res ω} {Q : α → ω → Prop}
    {C : σ × Prog Op Res α → ι ⊕ ε → Prop}
    (hinit : ∀ s p, initial (s, p) → I s ∧ Prog.wp K p Q (M.own s))
    (henv : ∀ s e s', I s → M.environment s e = some s' → I s' ∧ M.own s' = M.own s)
    (hexec : ∀ s o k i s' r, I s → C (s, .op o k) (.inl i) → K.pre o (M.own s) → M.exec o s i = some (s', r) →
      I s' ∧ K.post o (M.own s) r (M.own s'))
    {t : σ × Prog Op Res α} (h : (M.system initial).ReachableBy C t) : I t.1 ∧ Prog.wp K t.2 Q (M.own t.1) := by
  refine h.invariant (fun t ht => hinit t.1 t.2 ht) ?_
  rintro ⟨s, p⟩ a t' ⟨hI, hwp⟩ hC hnext
  cases a with
  | inl i =>
    cases p with
    | ret | fail => cases hnext
    | op o k =>
      obtain ⟨⟨s', r⟩, hs', rfl⟩ := Option.map_eq_some_iff.mp hnext
      obtain ⟨hI', hpost⟩ := hexec s o k i s' r hI hC hwp.1 hs'
      exact ⟨hI', hwp.2 r _ hpost⟩
  | inr e =>
    obtain ⟨s', hs', rfl⟩ := Option.map_eq_some_iff.mp hnext
    obtain ⟨hI', hown⟩ := henv s e s' hI hs'
    refine ⟨hI', ?_⟩
    dsimp only
    rw [hown]
    exact hwp

end Machine

end Fcvm.Library
