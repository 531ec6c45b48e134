import Mathlib.Algebra.BigOperators.Group.List.Basic
import Mathlib.Algebra.GroupWithZero.Nat
import Mathlib.Data.List.Range

namespace Fcvm.WorkingSet

open List

def GRANULE : ℕ := 4096

structure PageSet where
  granules : ℕ
  words : List (BitVec 64)
  deriving DecidableEq

def countOnes (w : BitVec 64) : ℕ := (List.range 64).countP w.getLsbD

section Words

def bit (words : List (BitVec 64)) (i : ℕ) : Bool := (words.getD (i / 64) 0).getLsbD (i % 64)

def lenWords (words : List (BitVec 64)) : ℕ := (words.map countOnes).sum

def unionWords : List (BitVec 64) → List (BitVec 64) → List (BitVec 64) × ℕ
  | before :: ws, other :: os =>
    let after := before ||| other
    let (rest, added) := unionWords ws os
    (after :: rest, countOnes (after &&& ~~~before) + added)
  | ws, _ => (ws, 0)

variable {ws os us : List (BitVec 64)}

theorem length_unionWords (ws os : List (BitVec 64)) : (unionWords ws os).1.length = ws.length := by
  induction ws generalizing os with
  | nil => rfl
  | cons w ws ih =>
    cases os with
    | nil => rfl
    | cons o os => exact congrArg Nat.succ (ih os)

theorem getD_unionWords (h : ws.length = os.length) (n : ℕ) :
    (unionWords ws os).1.getD n 0 = ws.getD n 0 ||| os.getD n 0 := by
  induction ws generalizing os n with
  | nil =>
    cases os with
    | nil => simp [unionWords]
    | cons o os => cases h
  | cons w ws ih =>
    cases os with
    | nil => cases h
    | cons o os =>
      cases n with
      | zero => rfl
      | succ n => exact ih (Nat.succ.inj h) n

theorem bit_unionWords (h : ws.length = os.length) (i : ℕ) :
    bit (unionWords ws os).1 i = (bit ws i || bit os i) := by
  unfold bit
  rw [getD_unionWords h, BitVec.getLsbD_or]

end Words

section Counting

variable {a b : BitVec 64}

theorem countOnes_le (h : ∀ i, a.getLsbD i = true → b.getLsbD i = true) : countOnes a ≤ countOnes b :=
  countP_mono_left fun i _ => h i

theorem eq_of_countOnes_le (h : ∀ i, a.getLsbD i = true → b.getLsbD i = true) (hle : countOnes b ≤ countOnes a) :
    a = b := by
  apply BitVec.eq_of_getLsbD_eq
  intro i hi
  by_contra hne
  have ha : a.getLsbD i = false := by
    cases ha : a.getLsbD i with
    | false => rfl
    | true => exact absurd (ha.trans (h i ha).symm) hne
  have hb : b.getLsbD i = true := by
    cases hb : b.getLsbD i with
    | false => exact absurd (ha.trans hb.symm) hne
    | true => rfl
  have hsplit : range 64 = range i ++ i :: (range 64).drop (i + 1) := by
    have htake : (range 64).take i = range i := by
      rw [take_range]
      congr 1
      omega
    have hdrop : (range 64).drop i = i :: (range 64).drop (i + 1) := by
      rw [drop_eq_getElem_cons (by simpa using hi), getElem_range]
    calc range 64 = (range 64).take i ++ (range 64).drop i := (take_append_drop _ _).symm
      _ = _ := by rw [htake, hdrop]
  have hleft : (range i).countP a.getLsbD ≤ (range i).countP b.getLsbD := countP_mono_left fun j _ => h j
  have hright : ((range 64).drop (i + 1)).countP a.getLsbD ≤ ((range 64).drop (i + 1)).countP b.getLsbD :=
    countP_mono_left fun j _ => h j
  unfold countOnes at hle
  rw [hsplit, countP_append, countP_append, countP_cons, countP_cons, ha, hb] at hle
  simp only [Bool.false_eq_true, if_false, if_true] at hle
  omega

theorem bits_cons {u w : BitVec 64} {us ws : List (BitVec 64)}
    (h : ∀ i, bit (u :: us) i = true → bit (w :: ws) i = true) :
    (∀ i, u.getLsbD i = true → w.getLsbD i = true) ∧ ∀ i, bit us i = true → bit ws i = true := by
  constructor
  · intro i hi
    have hlt : i < 64 := BitVec.lt_of_getLsbD hi
    have hbit := h i
    simp only [bit, Nat.div_eq_of_lt hlt, Nat.mod_eq_of_lt hlt, getD_cons_zero] at hbit
    exact hbit hi
  · intro i hi
    have hbit := h (i + 64)
    simp only [bit, Nat.add_div_right i (by decide : 0 < 64), Nat.add_mod_right, getD_cons_succ] at hbit
    exact hbit hi

theorem lenWords_le {us ws : List (BitVec 64)} (hlength : us.length = ws.length)
    (h : ∀ i, bit us i = true → bit ws i = true) : lenWords us ≤ lenWords ws := by
  induction us generalizing ws with
  | nil => exact Nat.zero_le _
  | cons u us ih =>
    cases ws with
    | nil => cases hlength
    | cons w ws =>
      obtain ⟨hhead, htail⟩ := bits_cons h
      have hle := ih (Nat.succ.inj hlength) htail
      have hone := countOnes_le hhead
      simp only [lenWords, map_cons, sum_cons] at hle ⊢
      omega

theorem eq_of_lenWords_le {us ws : List (BitVec 64)} (hlength : us.length = ws.length)
    (h : ∀ i, bit us i = true → bit ws i = true) (hle : lenWords ws ≤ lenWords us) : us = ws := by
  induction us generalizing ws with
  | nil => exact (length_eq_zero_iff.mp hlength.symm).symm
  | cons u us ih =>
    cases ws with
    | nil => cases hlength
    | cons w ws =>
      obtain ⟨hhead, htail⟩ := bits_cons h
      have hrest := lenWords_le (Nat.succ.inj hlength) htail
      have hone := countOnes_le hhead
      simp only [lenWords, map_cons, sum_cons] at hle hrest
      have hw : u = w := eq_of_countOnes_le hhead (by omega)
      have hws : us = ws := by
        apply ih (Nat.succ.inj hlength) htail
        simp only [lenWords]
        omega
      rw [hw, hws]

theorem countOnes_added (w o : BitVec 64) : countOnes ((w ||| o) &&& ~~~w) + countOnes w = countOnes (w ||| o) := by
  have hall : ∀ l : List ℕ, (∀ i ∈ l, i < 64) →
      l.countP ((w ||| o) &&& ~~~w).getLsbD + l.countP w.getLsbD = l.countP (w ||| o).getLsbD := by
    intro l
    induction l with
    | nil => exact fun _ => rfl
    | cons i l ih =>
      intro hl
      have hrest := ih fun j hj => hl j (mem_cons_of_mem _ hj)
      simp only [countP_cons, BitVec.getLsbD_and, BitVec.getLsbD_not, hl i mem_cons_self, decide_true, Bool.true_and,
        BitVec.getLsbD_or]
      cases w.getLsbD i <;> cases o.getLsbD i <;> simp <;> omega
  exact hall _ fun i hi => mem_range.mp hi

end Counting

namespace PageSet

def granulesOf (memLen : ℕ) : ℕ := (memLen + (GRANULE - 1)) / GRANULE

def empty (memLen : ℕ) : PageSet where
  granules := granulesOf memLen
  words := List.replicate ((granulesOf memLen + 63) / 64) 0

def len (s : PageSet) : ℕ := lenWords s.words

def unionFrom (s other : PageSet) : PageSet × ℕ :=
  let (words, added) := unionWords s.words other.words
  ({ s with words := words }, added)

def contains (s : PageSet) (granule : ℕ) : Bool := granule < s.granules && bit s.words granule

structure Fits (memLen : ℕ) (s : PageSet) : Prop where
  granules : s.granules = granulesOf memLen
  words : s.words.length = (granulesOf memLen + 63) / 64

def Covers (s o : PageSet) : Prop := ∀ i, bit o.words i = true → bit s.words i = true

variable {memLen : ℕ} {s o u : PageSet}

theorem fits_empty (memLen : ℕ) : Fits memLen (empty memLen) := ⟨rfl, length_replicate⟩

theorem Fits.unionFrom (hs : s.Fits memLen) (o : PageSet) : (s.unionFrom o).1.Fits memLen :=
  ⟨hs.granules, (length_unionWords _ _).trans hs.words⟩

theorem Fits.length_eq (hs : s.Fits memLen) (ho : o.Fits memLen) : s.words.length = o.words.length :=
  hs.words.trans ho.words.symm

theorem Covers.refl (s : PageSet) : Covers s s := fun _ h => h

theorem Covers.trans (h : Covers s o) (h' : Covers o u) : Covers s u := fun i hi => h i (h' i hi)

theorem covers_unionFrom_left (hs : s.Fits memLen) (ho : o.Fits memLen) : Covers (s.unionFrom o).1 s := by
  intro i hi
  rw [show (s.unionFrom o).1.words = (unionWords s.words o.words).1 from rfl, bit_unionWords (hs.length_eq ho), hi]
  rfl

theorem covers_unionFrom_right (hs : s.Fits memLen) (ho : o.Fits memLen) : Covers (s.unionFrom o).1 o := by
  intro i hi
  rw [show (s.unionFrom o).1.words = (unionWords s.words o.words).1 from rfl, bit_unionWords (hs.length_eq ho), hi,
    Bool.or_true]

theorem Covers.of_len_le (hs : s.Fits memLen) (ho : o.Fits memLen) (h : Covers s o) (hle : s.len ≤ o.len) :
    Covers o s := by
  have heq := eq_of_lenWords_le (ho.length_eq hs) h hle
  intro i hi
  rw [heq]
  exact hi

theorem Covers.contains (hs : s.Fits memLen) (ho : o.Fits memLen) (h : Covers s o) {granule : ℕ}
    (hg : o.contains granule = true) : s.contains granule = true := by
  simp only [PageSet.contains, Bool.and_eq_true, decide_eq_true_eq] at hg ⊢
  exact ⟨by rw [hs.granules, ← ho.granules]; exact hg.1, h granule hg.2⟩

theorem union_counts_what_it_adds (hs : s.Fits memLen) (ho : o.Fits memLen) :
    (∀ g, (s.unionFrom o).1.contains g = (s.contains g || o.contains g)) ∧
      (s.unionFrom o).2 + s.len = (s.unionFrom o).1.len := by
  constructor
  · intro g
    simp only [contains, unionFrom, bit_unionWords (hs.length_eq ho), hs.granules, ho.granules,
      Bool.and_or_distrib_left]
  · obtain ⟨granules, words⟩ := s
    simp only [unionFrom, len]
    generalize o.words = os
    clear hs ho
    induction words generalizing os with
    | nil => rfl
    | cons w ws ih =>
      cases os with
      | nil => exact Nat.zero_add _
      | cons o os =>
        have hrest := ih os
        have hword := countOnes_added w o
        simp only [unionWords, lenWords, map_cons, sum_cons] at hrest ⊢
        omega

theorem union_counts_what_it_adds_secondPage :
    ((⟨2, [1]⟩ : PageSet).unionFrom ⟨2, [3]⟩).2 + len ⟨2, [1]⟩ = ((⟨2, [1]⟩ : PageSet).unionFrom ⟨2, [3]⟩).1.len :=
  (@union_counts_what_it_adds 8192 ⟨2, [1]⟩ ⟨2, [3]⟩ ⟨rfl, rfl⟩ ⟨rfl, rfl⟩).2

end PageSet

end Fcvm.WorkingSet
