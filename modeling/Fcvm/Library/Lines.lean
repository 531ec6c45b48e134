import Mathlib.Data.List.Basic
import Mathlib.Data.List.Infix
import Fcvm.Library.Text

namespace Fcvm.Library

open List

section Lines

variable {α : Type} [DecidableEq α] {sep : α}

/-- One more symbol of a text whose lines end with `sep`: the lines that are whole, and what follows the last of them.
-/
def feed (sep : α) (s : List (List α) × List α) (a : α) : List (List α) × List α :=
  if a = sep then (s.1 ++ [s.2], []) else (s.1, s.2 ++ [a])

def splitLines (sep : α) (xs : List α) : List (List α) × List α := xs.foldl (feed sep) ([], [])

theorem splitLines_append_singleton (xs : List α) (a : α) :
    splitLines sep (xs ++ [a]) = feed sep (splitLines sep xs) a := by
  simp [splitLines]

theorem foldl_feed_of_notMem {xs : List α} (s : List (List α) × List α) (h : sep ∉ xs) :
    xs.foldl (feed sep) s = (s.1, s.2 ++ xs) := by
  induction xs generalizing s with
  | nil => simp
  | cons x xs ih =>
    have hx : x ≠ sep := fun heq => h (heq ▸ mem_cons_self)
    have hxs : sep ∉ xs := fun hmem => h (mem_cons_of_mem _ hmem)
    rw [foldl_cons, ih _ hxs, feed, if_neg hx, append_assoc]
    rfl

theorem splitLines_append_of_notMem (xs : List α) {ys : List α} (h : sep ∉ ys) :
    splitLines sep (xs ++ ys) = ((splitLines sep xs).1, (splitLines sep xs).2 ++ ys) := by
  rw [splitLines, foldl_append, foldl_feed_of_notMem _ h]
  rfl

theorem splitLines_append_line (xs : List α) {ys : List α} (h : sep ∉ ys) :
    splitLines sep (xs ++ (ys ++ [sep])) = ((splitLines sep xs).1 ++ [(splitLines sep xs).2 ++ ys], []) := by
  rw [← append_assoc, splitLines_append_singleton, splitLines_append_of_notMem _ h, feed, if_pos rfl]

theorem foldl_feed_isPrefix (s : List (List α) × List α) (xs : List α) : s.1 <+: (xs.foldl (feed sep) s).1 := by
  induction xs generalizing s with
  | nil => exact prefix_rfl
  | cons x xs ih =>
    refine List.IsPrefix.trans ?_ (ih (feed sep s x))
    unfold feed
    split
    · exact prefix_append _ _
    · exact prefix_rfl

theorem splitLines_isPrefix {xs ys : List α} (h : xs <+: ys) : (splitLines sep xs).1 <+: (splitLines sep ys).1 := by
  obtain ⟨zs, rfl⟩ := h
  rw [splitLines, splitLines, foldl_append]
  exact foldl_feed_isPrefix _ _

end Lines

theorem flatMap_sublist_flatMap {α β : Type} {f g : α → List β} {xs : List α} (h : ∀ a ∈ xs, (f a).Sublist (g a)) :
    (xs.flatMap f).Sublist (xs.flatMap g) := by
  induction xs with
  | nil => exact List.Sublist.refl _
  | cons x xs ih =>
    rw [flatMap_cons, flatMap_cons]
    exact (h x mem_cons_self).append (ih fun a ha => h a (mem_cons_of_mem _ ha))

theorem flatMap_range_sublist {β : Type} (f : ℕ → List β) {m n : ℕ} (h : m ≤ n) :
    ((List.range m).flatMap f).Sublist ((List.range n).flatMap f) := by
  induction n, h using Nat.le_induction with
  | base => exact List.Sublist.refl _
  | succ n _ ih =>
    rw [range_succ, flatMap_append]
    exact ih.trans (sublist_append_left _ _)

section Picks

variable {α β : Type} {f : α → Option β} {xs ys : List α} {out : List β}

def Picks (f : α → Option β) (xs : List α) (out : List β) : Prop := ∃ sub, List.Sublist sub xs ∧ out = sub.filterMap f

theorem Picks.mono (h : Picks f xs out) (hsub : List.Sublist xs ys) : Picks f ys out := by
  obtain ⟨sub, hxs, rfl⟩ := h
  exact ⟨sub, hxs.trans hsub, rfl⟩

theorem Picks.append {a : α} {b : β} (h : Picks f xs out) (hab : f a = some b) : Picks f (xs ++ [a]) (out ++ [b]) := by
  obtain ⟨sub, hxs, rfl⟩ := h
  refine ⟨sub ++ [a], hxs.append (List.Sublist.refl _), ?_⟩
  rw [filterMap_append, filterMap_cons_some hab, filterMap_nil]

end Picks

def utf8 (s : String) : List UInt8 := s.toByteArray.data.toList

theorem utf8_append (s t : String) : utf8 (s ++ t) = utf8 s ++ utf8 t := by
  simp [utf8, String.toByteArray_append]

theorem utf8_eq_flatMap (s : String) : utf8 s = s.toList.flatMap String.utf8EncodeChar := by
  rw [utf8, ← String.utf8Encode_toList]
  simp [List.utf8Encode]

theorem lowByte_of_mem_utf8EncodeChar {c : Char} {b : UInt8} (hb : b < 128) (h : b ∈ String.utf8EncodeChar c) :
    c.toNat = b.toNat := by
  have hlow : b.toNat < 128 := UInt8.lt_iff_toNat_lt.mp hb
  have hhigh : ∀ n m, b = UInt8.ofNat (n + m) → 128 ≤ m → n + m < 256 → False := by
    rintro n m rfl hm hn
    rw [UInt8.toNat_ofNat', Nat.mod_eq_of_lt hn] at hlow
    omega
  have hval : c.val.toNat = c.toNat := rfl
  unfold String.utf8EncodeChar at h
  simp only [hval] at h
  split at h
  · next hle =>
    cases mem_singleton.mp h
    rw [UInt8.toNat_ofNat', Nat.mod_eq_of_lt (by omega)]
  · split at h
    · simp only [mem_cons, not_mem_nil, or_false] at h
      rcases h with h | h
      · exact (hhigh _ _ h (by omega) (by omega)).elim
      · exact (hhigh _ _ h (by omega) (by omega)).elim
    · split at h
      · simp only [mem_cons, not_mem_nil, or_false] at h
        rcases h with h | h | h
        · exact (hhigh _ _ h (by omega) (by omega)).elim
        · exact (hhigh _ _ h (by omega) (by omega)).elim
        · exact (hhigh _ _ h (by omega) (by omega)).elim
      · simp only [mem_cons, not_mem_nil, or_false] at h
        rcases h with h | h | h | h
        · exact (hhigh _ _ h (by omega) (by omega)).elim
        · exact (hhigh _ _ h (by omega) (by omega)).elim
        · exact (hhigh _ _ h (by omega) (by omega)).elim
        · exact (hhigh _ _ h (by omega) (by omega)).elim

theorem mem_of_mem_utf8 {s : String} {c : Char} (hc : c.toNat < 128) (h : UInt8.ofNat c.toNat ∈ utf8 s) :
    c ∈ s.toList := by
  rw [utf8_eq_flatMap] at h
  obtain ⟨d, hd, hmem⟩ := mem_flatMap.mp h
  have hnat : (UInt8.ofNat c.toNat).toNat = c.toNat := by
    rw [UInt8.toNat_ofNat', Nat.mod_eq_of_lt (by omega)]
  have heq := lowByte_of_mem_utf8EncodeChar (UInt8.lt_iff_toNat_lt.mpr (by rw [hnat]; exact hc)) hmem
  rw [hnat] at heq
  have hchar : d = c := Char.ext (UInt32.toNat_inj.mp heq)
  exact hchar ▸ hd

theorem mem_utf8_of_mem {s : String} {c : Char} (hc : c.toNat < 128) (h : c ∈ s.toList) :
    UInt8.ofNat c.toNat ∈ utf8 s := by
  rw [utf8_eq_flatMap]
  refine mem_flatMap.mpr ⟨c, h, ?_⟩
  have hval : c.val.toNat = c.toNat := rfl
  simp only [String.utf8EncodeChar, hval]
  rw [if_pos (by omega)]
  exact mem_singleton.mpr rfl

/-- A decoder that replaces what is no UTF-8: it keeps a text, and makes no ASCII character. -/
structure Utf8Lossy where
  decode : List UInt8 → String
  decode_utf8 : ∀ s, decode (utf8 s) = s
  ascii : ∀ bytes (c : Char), c.toNat < 128 → c ∈ (decode bytes).toList → UInt8.ofNat c.toNat ∈ bytes

def Utf8Lossy.whole : Utf8Lossy where
  decode bytes := if h : (ByteArray.mk bytes.toArray).IsValidUTF8 then String.fromUTF8 _ h else "�"
  decode_utf8 := by
    intro s
    have heq : ByteArray.mk (utf8 s).toArray = s.toByteArray := by simp [utf8]
    rw [dif_pos (heq ▸ s.isValidUTF8)]
    simp [String.fromUTF8, utf8]
  ascii := by
    intro bytes c hc hmem
    split at hmem
    · next h =>
      have hbytes := mem_utf8_of_mem hc hmem
      simpa [utf8, String.fromUTF8] using hbytes
    · have hlist : "�".toList = ['�'] := by decide +kernel
      rw [hlist] at hmem
      cases mem_singleton.mp hmem
      exact absurd hc (by decide)

end Fcvm.Library
