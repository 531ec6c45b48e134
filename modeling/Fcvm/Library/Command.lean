import Mathlib.Tactic.Common

/-!
Commands over a state that may fail half way: what a command changed before it failed stays changed. The rules say
when a failed command leaves no trace.
-/

namespace Fcvm.Library

variable {σ ε α β : Type}

def Command (σ ε α : Type) := σ → Except ε α × σ

namespace Command

instance : Monad (Command σ ε) where
  pure a := fun s => (.ok a, s)
  bind c k := fun s => match c s with
    | (.ok a, s') => k a s'
    | (.error e, s') => (.error e, s')

def get : Command σ ε σ := fun s => (.ok s, s)

def modify (f : σ → σ) : Command σ ε Unit := fun s => (.ok (), f s)

def refuseIf (b : Bool) (e : ε) : Command σ ε Unit := fun s => (if b then .error e else .ok (), s)

def lift (r : Except ε α) : Command σ ε α := fun s => (r, s)

def update (f : σ → Except ε α × σ) : Command σ ε α := f

@[simp] theorem pure_apply (a : α) (s : σ) : (pure a : Command σ ε α) s = (.ok a, s) := rfl

variable {c : Command σ ε α} {k : α → Command σ ε β}

theorem bind_error {s s' : σ} {e : ε}
    (h : (c >>= k) s = (.error e, s')) :
    c s = (.error e, s') ∨ ∃ a s₁, c s = (.ok a, s₁) ∧ k a s₁ = (.error e, s') := by
  simp only [bind] at h
  rcases hc : c s with ⟨_ | a, s₁⟩
  · rw [hc] at h
    cases h
    exact .inl rfl
  · rw [hc] at h
    exact .inr ⟨a, s₁, rfl, h⟩

/-- A command that moves the state by `R` and does not fail. -/
structure Sure (R : σ → σ → Prop) (c : Command σ ε α) : Prop where
  moves : ∀ s, R s (c s).2
  succeeds : ∀ s, ∃ a, (c s).1 = .ok a

/-- A command that moves the state by `R`, and by nothing when it fails. -/
structure Sound (R : σ → σ → Prop) (c : Command σ ε α) : Prop where
  moves : ∀ s, R s (c s).2
  atomic : ∀ s e s', c s = (.error e, s') → s' = s

variable {R : σ → σ → Prop}

theorem Sure.sound (h : Sure R c) : Sound R c where
  moves := h.moves
  atomic s e s' hs := by
    obtain ⟨a, ha⟩ := h.succeeds s
    simp [hs] at ha

theorem Sure.modify {f : σ → σ} (hf : ∀ s, R s (f s)) : Sure R (modify f : Command σ ε Unit) where
  moves := hf
  succeeds _ := ⟨(), rfl⟩

theorem Sound.update {f : σ → Except ε α × σ} (hf : ∀ s, R s (f s).2) (he : ∀ s e s', f s = (.error e, s') → s' = s) :
    Sound R (update f) := ⟨hf, he⟩

theorem Sound.get_bind {k : σ → Command σ ε β} (h : ∀ s, Sound R (k s)) : Sound R (get >>= k) where
  moves s := (h s).moves s
  atomic s := (h s).atomic s

section Refl

variable [Std.Refl R]

theorem Sure.pure (a : α) : Sure R (pure a : Command σ ε α) where
  moves s := Std.Refl.refl s
  succeeds _ := ⟨a, rfl⟩

theorem Sound.lift_bind {r : Except ε α} (h : ∀ a, Sound R (k a)) : Sound R (lift r >>= k) := by
  cases r with
  | error e => exact ⟨fun s => Std.Refl.refl s, fun _ _ _ hs => (Prod.mk.inj hs).2.symm⟩
  | ok a => exact h a

theorem Sound.refuseIf_bind {b : Bool} {e : ε} {k : Unit → Command σ ε β} (h : Sound R (k ())) :
    Sound R (refuseIf b e >>= k) := by
  cases b with
  | true => exact ⟨fun s => Std.Refl.refl s, fun _ _ _ hs => (Prod.mk.inj hs).2.symm⟩
  | false => exact h

end Refl

section Trans

variable [IsTrans σ R]

theorem bind_moves (hc : ∀ s, R s (c s).2) (hk : ∀ a s, R s (k a s).2) (s : σ) : R s ((c >>= k) s).2 := by
  have hs := hc s
  simp only [Bind.bind]
  rcases hcs : c s with ⟨_ | a, t⟩
  · rw [hcs] at hs
    exact hs
  · rw [hcs] at hs
    exact IsTrans.trans _ _ _ hs (hk a t)

theorem Sure.bind (hc : Sure R c) (hk : ∀ a, Sure R (k a)) : Sure R (c >>= k) where
  moves := bind_moves hc.moves fun a => (hk a).moves
  succeeds s := by
    obtain ⟨a, ha⟩ := hc.succeeds s
    obtain ⟨b, hb⟩ := (hk a).succeeds (c s).2
    refine ⟨b, ?_⟩
    simp only [Bind.bind]
    rcases hcs : c s with ⟨r, s₁⟩
    simp only [hcs] at ha hb
    subst ha
    exact hb

theorem Sound.bind (hc : Sound R c) (hk : ∀ a, Sure R (k a)) : Sound R (c >>= k) where
  moves := bind_moves hc.moves fun a => (hk a).moves
  atomic s e s' hs := by
    rcases bind_error hs with h | ⟨a, s₁, -, h₂⟩
    · exact hc.atomic s e s' h
    · obtain ⟨b, hb⟩ := (hk a).succeeds s₁
      simp [h₂] at hb

theorem Sound.modify_bind {f : σ → σ} {k : Unit → Command σ ε β} (hf : ∀ s, R s (f s)) (hk : Sure R (k ())) :
    Sound R (modify f >>= k) := (Sure.modify hf).sound.bind fun _ => hk

theorem Sure.modify_bind {f : σ → σ} {k : Unit → Command σ ε β} (hf : ∀ s, R s (f s)) (hk : Sure R (k ())) :
    Sure R (Command.modify f >>= k) := (Sure.modify hf).bind fun _ => hk

end Trans

end Command

end Fcvm.Library
