import Fcvm.Library.PartialMap
import Fcvm.Library.NameTree

namespace Fcvm.Library

open List Function Option

universe u

variable {ν ω κ ι : Type u} [DecidableEq ν] [DecidableEq ι] {dir : ω → Prop} {num : ω → κ}

/-- A ledger of paths beside a tree: `given` says which object each key stands for, and `path` holds a path for each
key at which its object can be found again. -/
structure Ledger (t : NameTree ν dir num) (root : ι) (path : ι → Option (List ν)) (given : Set (ι × ω)) : Prop where
  rooted : path root = some [] ∧ ∃ o, t.node [] = some o ∧ (root, o) ∈ given
  named : ∀ n o, (n, o) ∈ given → ∃ p, path n = some p
  held : ∀ n p, path n = some p → ∃ o, (n, o) ∈ given
  same : ∀ n o o', (n, o) ∈ given → (n, o') ∈ given → o = o'
  numbers : ∀ n m o o', (n, o) ∈ given → (m, o') ∈ given → num o = num o' → n = m
  current : ∀ n o p o', (n, o) ∈ given → t.node p = some o' → num o' = num o → o' = o
  live : ∀ n o p q, (n, o) ∈ given → t.node q = some o → path n = some p → t.node p = some o
  only : ∀ n p o, path n = some p → t.node p = some o → (n, o) ∈ given
  distinct : ∀ n m p, path n = some p → path m = some p → n = m
  parents : ∀ n p c, path n = some (p ++ [c]) → ∃ m d, path m = some p ∧ (m, d) ∈ given ∧ dir d

namespace Ledger

variable {t t' : NameTree ν dir num} {root : ι} {path : ι → Option (List ν)} {given : Set (ι × ω)}

omit [DecidableEq ν] in
theorem initial (t : NameTree ν dir num) (root : ι) :
    Ledger t root (fun n => if n = root then some [] else none) { e | e.1 = root ∧ t.node [] = some e.2 } := by
  obtain ⟨r, hr, _⟩ := t.root
  have hpath : ∀ {n p}, (if n = root then some [] else none : Option (List ν)) = some p → n = root ∧ p = [] := by
    intro n p h
    split at h
    · next hn =>
      cases h
      exact ⟨hn, rfl⟩
    · cases h
  refine ⟨⟨if_pos rfl, r, hr, rfl, hr⟩, ?_, ?_, ?_, ?_, ?_, ?_, ?_, ?_, ?_⟩
  · rintro n o ⟨rfl, _⟩
    exact ⟨[], if_pos rfl⟩
  · exact fun n p h => ⟨r, (hpath h).1, hr⟩
  · rintro n o o' ⟨_, ho⟩ ⟨_, ho'⟩
    exact some.inj (ho.symm.trans ho')
  · rintro n m o o' ⟨rfl, _⟩ ⟨rfl, _⟩ _
    rfl
  · rintro n o p o' ⟨_, ho⟩ ho' hnum
    exact t.numbered _ _ _ _ ho' ho hnum
  · rintro n o p q ⟨_, ho⟩ _ h
    rw [(hpath h).2]
    exact ho
  · intro n p o h ho
    obtain ⟨rfl, rfl⟩ := hpath h
    exact ⟨rfl, ho⟩
  · intro n m p h h'
    rw [(hpath h).1, (hpath h').1]
  · intro n p c h
    have := (hpath h).2
    simp at this

variable {a q : List ν} {n m : ι} {c : ν} {o d : ω}

variable (h : Ledger t root path given)
include h

omit [DecidableEq ν] [DecidableEq ι] in
theorem none_below (ha : ∀ n, path n ≠ some a) (n : ι) (r : List ν) : path n ≠ some (a ++ r) := by
  induction r using List.reverseRecOn generalizing n with
  | nil =>
    rw [append_nil]
    exact ha n
  | append_singleton r c ih =>
    intro hn
    rw [← append_assoc] at hn
    obtain ⟨m, _, hm, _⟩ := h.parents n _ c hn
    exact ih m hm

omit [DecidableEq ν] [DecidableEq ι] in
theorem dir_above {x : List ν} (hn : path n = some (a ++ x)) (hx : x ≠ []) :
    ∃ m d, path m = some a ∧ (m, d) ∈ given ∧ dir d := by
  induction x using List.reverseRecOn generalizing n with
  | nil => exact absurd rfl hx
  | append_singleton x c ih =>
    rw [← append_assoc] at hn
    obtain ⟨m, d, hm, hd, hdir⟩ := h.parents n (a ++ x) c hn
    by_cases hnil : x = []
    · subst hnil
      rw [append_nil] at hm
      exact ⟨m, d, hm, hd, hdir⟩
    · exact ih hm hnil

omit [DecidableEq ν] [DecidableEq ι] in
theorem congr (ht : t'.node = t.node) : Ledger t' root path given := by
  refine { h with rooted := ?_, current := ?_, live := ?_, only := ?_ }
  · rw [ht]
    exact h.rooted
  · intro n o p o' hn hp
    rw [ht] at hp
    exact h.current n o p o' hn hp
  · intro n o p q hn hq hp
    rw [ht] at hq ⊢
    exact h.live n o p q hn hq hp
  · intro n p o hn hp
    rw [ht] at hp
    exact h.only n p o hn hp

omit [DecidableEq ν] in
theorem add (hn : path n = none)
    (hnum : ∀ k o', (k, o') ∈ given → num o' ≠ num o) (ho : t.node (q ++ [c]) = some o) (hm : path m = some q)
    (hd : (m, d) ∈ given) (hdir : dir d) :
    Ledger t root (update path n (some (q ++ [c]))) (insert (n, o) given) := by
  have hne : ∀ {k p}, path k = some p → k ≠ n := by
    rintro k p hk rfl
    cases hn.symm.trans hk
  have hgiven : ∀ {k o'}, (k, o') ∈ given → k ≠ n := fun hk => hne (h.named _ _ hk).choose_spec
  have hpath : ∀ {k p}, update path n (some (q ++ [c])) k = some p →
      k = n ∧ p = q ++ [c] ∨ k ≠ n ∧ path k = some p := by
    exact fun hk => (update_some.mp hk).imp (fun heq => ⟨heq.1, heq.2.symm⟩) id
  have hkeep : ∀ {k p}, path k = some p → update path n (some (q ++ [c])) k = some p :=
    fun hk => (update_of_ne (hne hk) _ _).trans hk
  have hnot : ∀ k, path k ≠ some (q ++ [c]) := fun k hk => hnum k o (h.only k _ o hk ho) rfl
  constructor
  · obtain ⟨hroot, o', ho', hgiven⟩ := h.rooted
    exact ⟨hkeep hroot, o', ho', .inr hgiven⟩
  · rintro k o' (heq | hk)
    · cases heq
      exact ⟨_, update_self _ _ _⟩
    · obtain ⟨p, hp⟩ := h.named k o' hk
      exact ⟨p, hkeep hp⟩
  · intro k p hk
    rcases hpath hk with ⟨rfl, _⟩ | ⟨_, hk⟩
    · exact ⟨o, .inl rfl⟩
    · obtain ⟨o', ho'⟩ := h.held k p hk
      exact ⟨o', .inr ho'⟩
  · rintro k o₁ o₂ (h₁ | h₁) (h₂ | h₂)
    · cases h₁
      cases h₂
      rfl
    · cases h₁
      exact absurd rfl (hgiven h₂)
    · cases h₂
      exact absurd rfl (hgiven h₁)
    · exact h.same k o₁ o₂ h₁ h₂
  · rintro k k' o₁ o₂ (h₁ | h₁) (h₂ | h₂) heq
    · cases h₁
      cases h₂
      rfl
    · cases h₁
      exact absurd heq.symm (hnum k' o₂ h₂)
    · cases h₂
      exact absurd heq (hnum k o₁ h₁)
    · exact h.numbers k k' o₁ o₂ h₁ h₂ heq
  · rintro k o₁ p o₂ (h₁ | h₁) hp heq
    · cases h₁
      exact t.numbered _ _ _ _ hp ho heq
    · exact h.current k o₁ p o₂ h₁ hp heq
  · rintro k o₁ p r (h₁ | h₁) hr hk
    · cases h₁
      rcases hpath hk with ⟨_, rfl⟩ | ⟨hkn, _⟩
      · exact ho
      · exact absurd rfl hkn
    · rcases hpath hk with ⟨rfl, _⟩ | ⟨_, hk⟩
      · exact absurd rfl (hgiven h₁)
      · exact h.live k o₁ p r h₁ hr hk
  · intro k p o' hk hp
    rcases hpath hk with ⟨rfl, rfl⟩ | ⟨_, hk⟩
    · cases ho.symm.trans hp
      exact .inl rfl
    · exact .inr (h.only k p o' hk hp)
  · intro k k' p hk hk'
    rcases hpath hk with ⟨rfl, rfl⟩ | ⟨_, h₁⟩ <;> rcases hpath hk' with ⟨rfl, hp⟩ | ⟨_, h₂⟩
    · rfl
    · exact absurd h₂ (hnot k')
    · exact absurd (hp ▸ h₁) (hnot k)
    · exact h.distinct k k' p h₁ h₂
  · intro k p c' hk
    rcases hpath hk with ⟨rfl, heq⟩ | ⟨_, hk⟩
    · obtain ⟨rfl, _⟩ := append_inj' heq rfl
      exact ⟨m, d, hkeep hm, .inr hd, hdir⟩
    · obtain ⟨k', d', hk', hd', hdir'⟩ := h.parents k p c' hk
      exact ⟨k', d', hkeep hk', .inr hd', hdir'⟩

omit [DecidableEq ν] in
theorem repath (hn : (n, o) ∈ given)
    (ho : t.node (q ++ [c]) = some o) (hm : path m = some q) (hd : (m, d) ∈ given) (hdir : dir d) :
    Ledger t root (update path n (some (q ++ [c]))) given := by
  obtain ⟨old, hold⟩ := h.named n o hn
  have hlive : t.node old = some o := h.live n o old _ hn ho hold
  have hpath : ∀ {k p}, update path n (some (q ++ [c])) k = some p →
      k = n ∧ p = q ++ [c] ∨ k ≠ n ∧ path k = some p := by
    exact fun hk => (update_some.mp hk).imp (fun heq => ⟨heq.1, heq.2.symm⟩) id
  -- a directory keeps its path, and nothing is recorded below another object
  have hkeep : ∀ {k p e}, path k = some p → (k, e) ∈ given → dir e →
      update path n (some (q ++ [c])) k = some p := by
    intro k p e hk he hedir
    by_cases hkn : k = n
    · subst hkn
      cases h.same k o e hn he
      rw [update_self]
      cases hold.symm.trans hk
      rw [t.alone _ _ _ hlive ho hedir]
    · rw [update_of_ne hkn]
      exact hk
  have hother : ∀ k, path k = some (q ++ [c]) → k = n := fun k hk =>
    h.numbers k n o o (h.only k _ o hk ho) hn rfl
  obtain ⟨hroot, r, hr, hrgiven⟩ := h.rooted
  have hrdir : dir r := by
    obtain ⟨r', hr', hdir'⟩ := t.root
    cases hr.symm.trans hr'
    exact hdir'
  constructor
  · exact ⟨hkeep hroot hrgiven hrdir, r, hr, hrgiven⟩
  · intro k o' hk
    by_cases hkn : k = n
    · subst hkn
      exact ⟨_, update_self _ _ _⟩
    · obtain ⟨p, hp⟩ := h.named k o' hk
      exact ⟨p, (update_of_ne hkn _ _).trans hp⟩
  · intro k p hk
    rcases hpath hk with ⟨rfl, _⟩ | ⟨_, hk⟩
    · exact ⟨o, hn⟩
    · exact h.held k p hk
  · exact h.same
  · exact h.numbers
  · exact h.current
  · intro k o' p s hk hs hp
    rcases hpath hp with ⟨rfl, rfl⟩ | ⟨_, hp⟩
    · rw [h.same k o' o hk hn]
      exact ho
    · exact h.live k o' p s hk hs hp
  · intro k p o' hk hp
    rcases hpath hk with ⟨rfl, rfl⟩ | ⟨_, hk⟩
    · cases ho.symm.trans hp
      exact hn
    · exact h.only k p o' hk hp
  · intro k k' p hk hk'
    rcases hpath hk with ⟨rfl, rfl⟩ | ⟨_, h₁⟩ <;> rcases hpath hk' with ⟨rfl, hp⟩ | ⟨_, h₂⟩
    · rfl
    · exact (hother k' h₂).symm
    · exact hother k (hp ▸ h₁)
    · exact h.distinct k k' p h₁ h₂
  · intro k p c' hk
    rcases hpath hk with ⟨rfl, heq⟩ | ⟨_, hk⟩
    · obtain ⟨rfl, _⟩ := append_inj' heq rfl
      exact ⟨m, d, hkeep hm hd hdir, hd, hdir⟩
    · obtain ⟨k', d', hk', hd', hdir'⟩ := h.parents k p c' hk
      exact ⟨k', d', hkeep hk' hd' hdir', hd', hdir'⟩

omit [DecidableEq ι] in
theorem put {p : List ν} (ht : t'.node = update t.node (p ++ [c]) (some o)) (hfree : t.node (p ++ [c]) = none)
    (hrec : ∀ n, path n ≠ some (p ++ [c]))
    (ho : (∃ q, t.node q = some o) ∨ ∀ n o', (n, o') ∈ given → num o' ≠ num o) : Ledger t' root path given := by
  have hnode : ∀ {r o'}, t'.node r = some o' → r = p ++ [c] ∧ o' = o ∨ t.node r = some o' := by
    intro r o' hr
    rw [ht] at hr
    by_cases hrp : r = p ++ [c]
    · subst hrp
      rw [update_self] at hr
      cases hr
      exact .inl ⟨rfl, rfl⟩
    · rw [update_of_ne hrp] at hr
      exact .inr hr
  have hkeep : ∀ {r o'}, t.node r = some o' → t'.node r = some o' := by
    intro r o' hr
    rw [ht, update_of_ne]
    · exact hr
    · rintro rfl
      cases hfree.symm.trans hr
  refine { h with rooted := ?_, current := ?_, live := ?_, only := ?_ }
  · obtain ⟨hroot, r, hr, hgiven⟩ := h.rooted
    exact ⟨hroot, r, hkeep hr, hgiven⟩
  · intro n o₁ r o₂ hn hr heq
    rcases hnode hr with ⟨rfl, rfl⟩ | hr
    · rcases ho with ⟨q, hq⟩ | hnew
      · exact h.current n o₁ q o₂ hn hq heq
      · exact absurd heq.symm (hnew n o₁ hn)
    · exact h.current n o₁ r o₂ hn hr heq
  · intro n o₁ r s hn hs hr
    rcases hnode hs with ⟨rfl, rfl⟩ | hs
    · rcases ho with ⟨q, hq⟩ | hnew
      · exact hkeep (h.live n o₁ r q hn hq hr)
      · exact absurd rfl (hnew n o₁ hn)
    · exact hkeep (h.live n o₁ r s hn hs hr)
  · intro n r o' hn hr
    rcases hnode hr with ⟨rfl, _⟩ | hr
    · exact absurd hn (hrec n)
    · exact h.only n r o' hn hr

omit [DecidableEq ι] in
theorem remove (ha : a ≠ []) (ht : t'.node = update t.node a none) (ho : t.node a = some o)
    (hlast : ∀ n, path n = some a → ∀ q, t.node q = some o → q = a) : Ledger t' root path given := by
  have hnode : ∀ {r o'}, t'.node r = some o' → r ≠ a ∧ t.node r = some o' := by
    intro r o' hr
    rw [ht] at hr
    have hne : r ≠ a := by
      rintro rfl
      rw [update_self] at hr
      cases hr
    rw [update_of_ne hne] at hr
    exact ⟨hne, hr⟩
  refine { h with rooted := ?_, current := ?_, live := ?_, only := ?_ }
  · obtain ⟨hroot, r, hr, hgiven⟩ := h.rooted
    refine ⟨hroot, r, ?_, hgiven⟩
    rw [ht, update_of_ne ha.symm]
    exact hr
  · exact fun n o₁ r o₂ hn hr => h.current n o₁ r o₂ hn (hnode hr).2
  · intro n o₁ r s hn hs hr
    obtain ⟨hne, hs⟩ := hnode hs
    have hr' := h.live n o₁ r s hn hs hr
    rw [ht, update_of_ne]
    · exact hr'
    · rintro rfl
      cases ho.symm.trans hr'
      exact hne (hlast n hr s hs)
  · exact fun n r o' hn hr => h.only n r o' hn (hnode hr).2

omit [DecidableEq ν] [DecidableEq ι] in
theorem transport (f : List ν → List ν) (hroot : f [] = []) (hnode : ∀ n s, path n = some s → t'.node (f s) = t.node s)
    (hlive : ∀ r o, t'.node r = some o → ∃ q, t.node q = some o)
    (hinj : ∀ n n' s s', path n = some s → path n' = some s' → f s = f s' → s = s')
    (hparents : ∀ n s p c, path n = some s → f s = p ++ [c] →
      ∃ m d, (path m).map f = some p ∧ (m, d) ∈ given ∧ dir d) :
    Ledger t' root (fun n => (path n).map f) given := by
  refine ⟨?_, ?_, ?_, h.same, h.numbers, ?_, ?_, ?_, ?_, ?_⟩
  · obtain ⟨hr, r, hnr, hgiven⟩ := h.rooted
    refine ⟨by rw [hr, map_some, hroot], r, ?_, hgiven⟩
    have := hnode root [] hr
    rw [hroot] at this
    exact this.trans hnr
  · intro n o hn
    obtain ⟨s, hs⟩ := h.named n o hn
    exact ⟨_, by rw [hs]; rfl⟩
  · intro n p hp
    obtain ⟨s, hs, _⟩ := map_eq_some_iff.mp hp
    exact h.held n s hs
  · intro n o p o' hn hp
    obtain ⟨r, hr⟩ := hlive p o' hp
    exact h.current n o r o' hn hr
  · intro n o p r hn hr hp
    obtain ⟨s, hs, rfl⟩ := map_eq_some_iff.mp hp
    obtain ⟨r', hr'⟩ := hlive r o hr
    rw [hnode n s hs]
    exact h.live n o s r' hn hr' hs
  · intro n p o hp ho
    obtain ⟨s, hs, rfl⟩ := map_eq_some_iff.mp hp
    rw [hnode n s hs] at ho
    exact h.only n s o hs ho
  · intro n n' p hp hp'
    obtain ⟨s, hs, rfl⟩ := map_eq_some_iff.mp hp
    obtain ⟨s', hs', heq⟩ := map_eq_some_iff.mp hp'
    cases hinj n n' s s' hs hs' heq.symm
    exact h.distinct n n' s hs hs'
  · intro n p c hp
    obtain ⟨s, hs, heq⟩ := map_eq_some_iff.mp hp
    exact hparents n s p c hs heq

omit [DecidableEq ι] in
theorem move (ht : t'.node = moveNode t.node a (q ++ [c])) (ha : a ≠ []) (hab : ¬a <+: q ++ [c])
    (hrec : ∀ n, path n ≠ some (q ++ [c])) (hm : path m = some q) (hd : (m, d) ∈ given) (hdir : dir d) :
    Ledger t' root (fun n => (path n).map (relocate a (q ++ [c]))) given := by
  have hbelow : ∀ {n s}, path n = some s → ¬q ++ [c] <+: s := by
    rintro n _ hs ⟨x, rfl⟩
    exact h.none_below hrec n x hs
  refine h.transport _ ?_ ?_ ?_ ?_ ?_
  · rw [relocate, if_neg (fun h => ha (prefix_nil.mp h))]
  · intro n s hs
    rw [ht]
    by_cases has : a <+: s
    · obtain ⟨x, rfl⟩ := has
      rw [relocate_append, moveNode_below]
    · rw [relocate, if_neg has, moveNode, if_neg (hbelow hs), if_neg has]
  · intro r o hr
    rw [ht] at hr
    exact moveNode_live hr
  · intro n n' s s' hs hs' heq
    by_cases has : a <+: s <;> by_cases has' : a <+: s'
    · obtain ⟨x, rfl⟩ := has
      obtain ⟨x', rfl⟩ := has'
      rw [relocate_append, relocate_append] at heq
      rw [append_cancel_left heq]
    · obtain ⟨x, rfl⟩ := has
      rw [relocate_append, relocate, if_neg has'] at heq
      exact absurd ⟨x, heq⟩ (hbelow hs')
    · obtain ⟨x', rfl⟩ := has'
      rw [relocate_append, relocate, if_neg has] at heq
      exact absurd ⟨x', heq.symm⟩ (hbelow hs)
    · rwa [relocate, if_neg has, relocate, if_neg has'] at heq
  · intro n s p c' hs heq
    by_cases has : a <+: s
    · obtain ⟨x, rfl⟩ := has
      rw [relocate_append] at heq
      rcases eq_nil_or_concat x with rfl | ⟨x, e, rfl⟩
      · -- what was at `a` is now at `b`, below the directory it was moved to
        rw [append_nil] at heq
        obtain ⟨rfl, _⟩ := append_inj' heq rfl
        refine ⟨m, d, ?_, hd, hdir⟩
        rw [hm, map_some, relocate, if_neg (not_prefix_concat hab)]
      · rw [concat_eq_append, ← append_assoc] at hs heq
        obtain ⟨rfl, _⟩ := append_inj' heq rfl
        obtain ⟨k, e', hk, he', hedir⟩ := h.parents n _ e hs
        exact ⟨k, e', by rw [hk, map_some, relocate_append], he', hedir⟩
    · rw [relocate, if_neg has] at heq
      cases heq
      obtain ⟨k, e', hk, he', hedir⟩ := h.parents n p c' hs
      refine ⟨k, e', ?_, he', hedir⟩
      rw [hk, map_some, relocate, if_neg (not_prefix_concat has)]

omit [DecidableEq ι] in
theorem swap {p : List ν} {e : ν} {k : ι} {d' : ω}
    (ht : t'.node = swapNode t.node (p ++ [c]) (q ++ [e])) (hab : ¬p ++ [c] <+: q ++ [e]) (hba : ¬q ++ [e] <+: p ++ [c])
    (hbelow : ∀ n s x, path n = some s → x ≠ [] → s ≠ p ++ [c] ++ x ∧ s ≠ q ++ [e] ++ x) (hk : path k = some p)
    (hd : (k, d) ∈ given) (hdir : dir d) (hm : path m = some q) (hd' : (m, d') ∈ given) (hdir' : dir d') :
    Ledger t' root (fun n => (path n).map (exchange (p ++ [c]) (q ++ [e]))) given := by
  have hne : p ++ [c] ≠ q ++ [e] := fun heq => hab (heq ▸ prefix_rfl)
  have hout : ∀ {n s}, path n = some s → s ≠ p ++ [c] → s ≠ q ++ [e] → ¬p ++ [c] <+: s ∧ ¬q ++ [e] <+: s := by
    intro n s hs ha hb
    constructor
    · rintro ⟨x, rfl⟩
      refine (hbelow n _ x hs ?_).1 rfl
      rintro rfl
      exact ha (append_nil _)
    · rintro ⟨x, rfl⟩
      refine (hbelow n _ x hs ?_).2 rfl
      rintro rfl
      exact hb (append_nil _)
  have hinv : ∀ s, exchange (p ++ [c]) (q ++ [e]) (exchange (p ++ [c]) (q ++ [e]) s) = s := by
    intro s
    unfold exchange
    split_ifs <;> simp_all
  have hkeep : ∀ {n s}, path n = some s → s ≠ p ++ [c] → s ≠ q ++ [e] →
      (path n).map (exchange (p ++ [c]) (q ++ [e])) = some s := by
    intro n s hs ha hb
    rw [hs, map_some, exchange, if_neg ha, if_neg hb]
  refine h.transport _ ?_ ?_ ?_ ?_ ?_
  · rw [exchange, if_neg (by simp), if_neg (by simp)]
  · intro n s hs
    have hleft := swapNode_left t.node (p ++ [c]) (q ++ [e]) []
    have hright := swapNode_right t.node hab hba []
    rw [append_nil, append_nil] at hleft hright
    rw [ht, exchange]
    split
    · next hsa => rw [hsa, hright]
    · next hsa =>
      split
      · next hsb => rw [hsb, hleft]
      · next hsb =>
        obtain ⟨hpa, hpb⟩ := hout hs hsa hsb
        rw [swapNode, if_neg hpa, if_neg hpb]
  · intro r o hr
    rw [ht] at hr
    exact swapNode_live hr
  · intro n n' s s' _ _ heq
    rw [← hinv s, heq, hinv]
  · intro n r s c' hr heq
    unfold exchange at heq
    split at heq
    · obtain ⟨rfl, _⟩ := append_inj' heq rfl
      refine ⟨m, d', hkeep hm ?_ ?_, hd', hdir'⟩
      · rintro rfl
        exact hab (prefix_append _ _)
      · simp
    · split at heq
      · obtain ⟨rfl, _⟩ := append_inj' heq rfl
        refine ⟨k, d, hkeep hk ?_ ?_, hd, hdir⟩
        · simp
        · rintro rfl
          exact hba (prefix_append _ _)
      · cases heq
        obtain ⟨k', f, hk', hf, hfdir⟩ := h.parents n s c' hr
        refine ⟨k', f, hkeep hk' ?_ ?_, hf, hfdir⟩
        · rintro rfl
          exact (hbelow n _ [c'] hr (by simp)).1 rfl
        · rintro rfl
          exact (hbelow n _ [c'] hr (by simp)).2 rfl

end Ledger

end Fcvm.Library
