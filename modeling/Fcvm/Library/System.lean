import Mathlib.Data.List.Basic
import Mathlib.Logic.Basic

namespace Fcvm.Library

universe u v

variable {σ : Type u} {α : Type v}

structure System (σ : Type u) (α : Type v) where
  initial : σ → Prop
  next : σ → α → Option σ

namespace System

def restrict (M : System σ α) (C : σ → α → Bool) : System σ α where
  initial := M.initial
  next s a := if C s a then M.next s a else none

theorem restrict_next {M : System σ α} {C : σ → α → Bool} {s t : σ} {a : α}
    (h : (M.restrict C).next s a = some t) : C s a = true ∧ M.next s a = some t := by
  simp only [restrict] at h
  split at h
  · exact ⟨by assumption, h⟩
  · cases h

def exec (M : System σ α) (s : σ) : List α → Option σ
  | [] => some s
  | a :: as => (M.next s a).bind fun t => M.exec t as

inductive Reachable (M : System σ α) : σ → Prop
  | initial {s : σ} (h : M.initial s) : Reachable M s
  | next {s t : σ} {a : α} (hs : Reachable M s) (h : M.next s a = some t) : Reachable M t

/-- The states of the runs each of whose steps meets `C` in the state it starts from. -/
inductive ReachableBy (M : System σ α) (C : σ → α → Prop) : σ → Prop
  | initial {s : σ} (h : M.initial s) : ReachableBy M C s
  | next {s t : σ} {a : α} (hs : ReachableBy M C s) (hC : C s a) (h : M.next s a = some t) : ReachableBy M C t

variable {M : System σ α}

theorem ReachableBy.invariant {C : σ → α → Prop} {P : σ → Prop} (hinit : ∀ s, M.initial s → P s)
    (hstep : ∀ s a t, P s → C s a → M.next s a = some t → P t) {s : σ} (h : M.ReachableBy C s) : P s := by
  induction h with
  | initial h => exact hinit _ h
  | next _ hC h ih => exact hstep _ _ _ ih hC h

theorem ReachableBy.reachable {C : σ → α → Prop} {s : σ} (h : M.ReachableBy C s) : M.Reachable s := by
  induction h with
  | initial h => exact .initial h
  | next _ _ h ih => exact ih.next h

theorem ReachableBy.of_restrict {C : σ → α → Bool} {s : σ} (h : (M.restrict C).Reachable s) :
    M.ReachableBy (fun s a => C s a = true) s := by
  induction h with
  | initial h => exact .initial h
  | next _ h ih =>
    obtain ⟨hC, hnext⟩ := restrict_next h
    exact ih.next hC hnext

theorem ReachableBy.of_reachable {s : σ} (h : M.Reachable s) : M.ReachableBy (fun _ _ => True) s := by
  induction h with
  | initial h => exact .initial h
  | next _ h ih => exact ih.next trivial h

theorem ReachableBy.exec {C : σ → α → Prop} {s t : σ} {as : List α} (hs : M.ReachableBy C s)
    (hC : ∀ s, ∀ a ∈ as, C s a) (h : M.exec s as = some t) : M.ReachableBy C t := by
  induction as generalizing s with
  | nil => cases h; exact hs
  | cons a as ih =>
    simp only [System.exec, Option.bind_eq_some_iff] at h
    obtain ⟨u, hu, ht⟩ := h
    exact ih (hs.next (hC s a List.mem_cons_self) hu) (fun s a ha => hC s a (List.mem_cons_of_mem _ ha)) ht

theorem ReachableBy.exec_restrict {C : σ → α → Prop} {check : σ → α → Bool} {s t : σ} {as : List α}
    (hcheck : ∀ s a, M.ReachableBy C s → check s a = true → C s a) (hs : M.ReachableBy C s)
    (h : (M.restrict check).exec s as = some t) : M.ReachableBy C t := by
  induction as generalizing s with
  | nil => cases h; exact hs
  | cons a as ih =>
    simp only [System.exec, Option.bind_eq_some_iff] at h
    obtain ⟨u, hu, ht⟩ := h
    obtain ⟨hok, hnext⟩ := restrict_next hu
    exact ih (hs.next (hcheck s a hs hok) hnext) ht

theorem ReachableBy.mono {C D : σ → α → Prop} (hCD : ∀ s a, C s a → D s a) {s : σ} (h : M.ReachableBy C s) :
    M.ReachableBy D s := by
  induction h with
  | initial h => exact .initial h
  | next _ hC h ih => exact ih.next (hCD _ _ hC) h

theorem Reachable.exec {s t : σ} {as : List α} (hs : M.Reachable s) (h : M.exec s as = some t) :
    M.Reachable t := by
  induction as generalizing s with
  | nil => cases h; exact hs
  | cons a as ih =>
    simp only [System.exec, Option.bind_eq_some_iff] at h
    obtain ⟨u, hu, ht⟩ := h
    exact ih (hs.next hu) ht

theorem Reachable.invariant {P : σ → Prop} (hinit : ∀ s, M.initial s → P s)
    (hstep : ∀ s a t, P s → M.next s a = some t → P t) {s : σ} (h : M.Reachable s) : P s := by
  induction h with
  | initial h => exact hinit _ h
  | next _ h ih => exact hstep _ _ _ ih h

theorem Reachable.of_restrict {C : σ → α → Bool} {s : σ} (h : (M.restrict C).Reachable s) :
    M.Reachable s := by
  induction h with
  | initial h => exact .initial h
  | next _ h ih => exact ih.next (restrict_next h).2

end System

end Fcvm.Library
