import Fcvm.DiskDir.Walk

namespace Fcvm.DiskDir

open Library DiskDir.Tree List

def KindOf : UInt8 → Body → Prop
  | kind, .link _ => kind = 0x66
  | kind, .content _ => kind = 0x66
  | kind, .target _ => kind = 0x6C
  | kind, .device _ => kind = 0x62 ∨ kind = 0x63
  | kind, .children _ => kind = 0x64
  | kind, .nothing => kind = 0x70 ∨ kind = 0x73 ∨ kind = 0x3F

def Body.Fits : Body → Prop
  | .link first => first.length < 2 ^ 64
  | .content bytes => bytes.length < 2 ^ 64
  | .target bytes => bytes.length < 2 ^ 64
  | .device _ => True
  | .children count => count < 2 ^ 64
  | .nothing => True

structure Entry.Valid (keepOwners : Bool) (e : Entry) : Prop where
  relative : e.relative.length < 2 ^ 64
  owners : e.owners.isSome = keepOwners
  count : e.xattrs.length < 2 ^ 64
  xattrs : ∀ x ∈ e.xattrs, x.1.length < 2 ^ 64 ∧ x.2.length < 2 ^ 64
  kind : KindOf e.kind e.body
  body : e.body.Fits

/-- Contents whose length and first bytes read as the mark of a link and the path it names: the low byte of the length
is the mark, its other bytes and the first of the contents are the length of the path. -/
def Confusable (first content : Bytes) : Prop :=
  content.length = 104 + 256 * (first.length % 2 ^ 56) ∧
    ∃ s t, UInt8.ofNat (first.length / 2 ^ 56) :: first ++ s = content ++ t

def Entry.Confuses (e e' : Entry) : Prop :=
  ∃ first content, e.body = .link first ∧ e' = { e with body := .content content } ∧ Confusable first content

variable {s t : Bytes}

theorem link_content {first content : Bytes} (hcontent : content.length < 2 ^ 64)
    (h : 0x68 :: lengthPrefixed first ++ s = lengthPrefixed content ++ t) : Confusable first content := by
  have hlow : ∀ n, littleEndian 8 n = UInt8.ofNat n :: littleEndian 7 (n / 256) := fun _ => rfl
  rw [lengthPrefixed, littleEndian_succ 7, lengthPrefixed, hlow] at h
  simp only [cons_append, append_assoc, cons.injEq, nil_append] at h
  obtain ⟨hmark, h⟩ := h
  obtain ⟨hhigh, hrest⟩ := append_inj h (by simp)
  have hmod : content.length % 256 = 104 := by
    have := ofNat_inj_mod (n := 104) hmark
    omega
  have hdiv : first.length % 256 ^ 7 = content.length / 256 := by
    rw [littleEndian_mod 7 first.length] at hhigh
    refine littleEndian_inj (Nat.mod_lt _ (by decide)) ?_ hhigh
    have : (256 : ℕ) ^ 7 * 256 = 2 ^ 64 := by decide
    omega
  have hpow : (256 : ℕ) ^ 7 = 2 ^ 56 := by decide
  rw [hpow] at hdiv hrest
  exact ⟨by omega, s, t, hrest⟩

theorem delimits_body {kind : UInt8} {b b' : Body} (hb : b.Fits) (hb' : b'.Fits) (hkind : KindOf kind b)
    (hkind' : KindOf kind b') (hne : ∀ first content, b = .link first → b' = .content content →
      ¬ Confusable first content)
    (hne' : ∀ first content, b' = .link first → b = .content content → ¬ Confusable first content)
    (h : b.encode ++ s = b'.encode ++ t) : b = b' ∧ s = t := by
  cases b with
  | link first =>
    cases b' with
    | link first' =>
      simp only [Body.encode, cons_append, cons.injEq, true_and] at h
      obtain ⟨rfl, hrest⟩ := delimits_lengthPrefixed first first' s t hb hb' h
      exact ⟨rfl, hrest⟩
    | content content => exact absurd (link_content hb' h) (hne first content rfl rfl)
    | target | device | children | nothing => simp_all [KindOf]
  | content content =>
    cases b' with
    | link first => exact absurd (link_content hb h.symm) (hne' first content rfl rfl)
    | content content' =>
      obtain ⟨rfl, hrest⟩ := delimits_lengthPrefixed content content' s t hb hb' h
      exact ⟨rfl, hrest⟩
    | target | device | children | nothing => simp_all [KindOf]
  | target bytes =>
    cases b' with
    | target bytes' =>
      obtain ⟨rfl, hrest⟩ := delimits_lengthPrefixed bytes bytes' s t hb hb' h
      exact ⟨rfl, hrest⟩
    | link | content | device | children | nothing => simp_all [KindOf]
  | device rdev =>
    cases b' with
    | device rdev' =>
      obtain ⟨heq, hrest⟩ := delimits_littleEndian 8 _ _ _ _ (by simpa using rdev.toNat_lt)
        (by simpa using rdev'.toNat_lt) h
      exact ⟨by rw [UInt64.toNat_inj.mp heq], hrest⟩
    | nothing => rcases hkind with rfl | rfl <;> simp [KindOf] at hkind'
    | link | content | target | children => simp_all [KindOf]
  | children count =>
    cases b' with
    | children count' =>
      obtain ⟨rfl, hrest⟩ := delimits_littleEndian 8 count count' s t (by simpa [Body.Fits] using hb)
        (by simpa [Body.Fits] using hb') h
      exact ⟨rfl, hrest⟩
    | link | content | target | device | nothing => simp_all [KindOf]
  | nothing =>
    cases b' with
    | nothing => exact ⟨rfl, h⟩
    | device => rcases hkind' with rfl | rfl <;> simp [KindOf] at hkind
    | link | content | target | children => simp_all [KindOf]

theorem delimits_uint32 : Delimits (fun _ : UInt32 => True) fun n => littleEndian 4 n.toNat := by
  intro a b s t _ _ h
  obtain ⟨heq, hrest⟩ := delimits_littleEndian 4 _ _ _ _ (by simpa using a.toNat_lt) (by simpa using b.toNat_lt) h
  exact ⟨UInt32.toNat_inj.mp heq, hrest⟩

theorem delimits_owners {o o' : Option (UInt32 × UInt32)} (hsome : o.isSome = o'.isSome)
    (h : encodeOwners o ++ s = encodeOwners o' ++ t) : o = o' ∧ s = t := by
  cases o with
  | none =>
    cases o' with
    | none => exact ⟨rfl, h⟩
    | some p => cases hsome
  | some p =>
    cases o' with
    | none => cases hsome
    | some p' =>
      obtain ⟨rfl, hrest⟩ := delimits_uint32.seq delimits_uint32 p p' s t ⟨trivial, trivial⟩ ⟨trivial, trivial⟩ h
      exact ⟨rfl, hrest⟩

theorem delimits_xattrs {xs ys : List (Bytes × Bytes)} (hxs : xs.length < 2 ^ 64) (hys : ys.length < 2 ^ 64)
    (hx : ∀ x ∈ xs, x.1.length < 2 ^ 64 ∧ x.2.length < 2 ^ 64)
    (hy : ∀ y ∈ ys, y.1.length < 2 ^ 64 ∧ y.2.length < 2 ^ 64)
    (h : littleEndian 8 xs.length ++ ((xs.flatMap fun x => lengthPrefixed x.1 ++ lengthPrefixed x.2) ++ s) =
      littleEndian 8 ys.length ++ ((ys.flatMap fun x => lengthPrefixed x.1 ++ lengthPrefixed x.2) ++ t)) :
    xs = ys ∧ s = t := by
  obtain ⟨hlength, hrest⟩ := delimits_littleEndian 8 _ _ _ _ (by simpa using hxs) (by simpa using hys) h
  exact (delimits_lengthPrefixed.seq delimits_lengthPrefixed).flatMap hlength hx hy hrest

theorem Entry.encode_inj {keepOwners : Bool} {e e' : Entry} (he : e.Valid keepOwners)
    (he' : e'.Valid keepOwners) (hne : ¬ e.Confuses e') (hne' : ¬ e'.Confuses e)
    (h : e.encode ++ s = e'.encode ++ t) : e = e' ∧ s = t := by
  simp only [Entry.encode, append_assoc] at h
  obtain ⟨hrelative, h₁⟩ := delimits_lengthPrefixed _ _ _ _ he.relative he'.relative h
  simp only [cons_append, nil_append, cons.injEq] at h₁
  obtain ⟨hkind, h₂⟩ := h₁
  obtain ⟨hmode, h₃⟩ := delimits_uint32 _ _ _ _ trivial trivial h₂
  obtain ⟨howners, h₄⟩ := delimits_owners (he.owners.trans he'.owners.symm) h₃
  obtain ⟨hxattrs, h₅⟩ := delimits_xattrs he.count he'.count he.xattrs he'.xattrs h₄
  obtain ⟨relative, kind, mode, owners, xattrs, body⟩ := e
  obtain ⟨relative', kind', mode', owners', xattrs', body'⟩ := e'
  simp only at hrelative hkind hmode howners hxattrs h₅
  subst hrelative hkind hmode howners hxattrs
  obtain ⟨rfl, hrest⟩ := delimits_body he.body he'.body he.kind he'.kind
    (fun first content hf hc hconf => hne ⟨first, content, hf, by rw [← hc], hconf⟩)
    (fun first content hf hc hconf => hne' ⟨first, content, hf, by rw [← hc], hconf⟩) h₅
  exact ⟨rfl, hrest⟩

theorem Entry.encode_ne_nil (e : Entry) : e.encode ≠ [] := by
  intro h
  have hlength := congrArg length h
  simp [Entry.encode, lengthPrefixed] at hlength

theorem entries_inj {keepOwners : Bool} {xs ys : List Entry} (hx : ∀ e ∈ xs, e.Valid keepOwners)
    (hy : ∀ e ∈ ys, e.Valid keepOwners) (hne : ∀ e ∈ xs, ∀ e' ∈ ys, ¬ e.Confuses e' ∧ ¬ e'.Confuses e)
    (h : xs.flatMap Entry.encode = ys.flatMap Entry.encode) : xs = ys := by
  induction xs generalizing ys with
  | nil =>
    cases ys with
    | nil => rfl
    | cons y ys =>
      simp only [flatMap_nil, flatMap_cons] at h
      exact absurd (append_eq_nil_iff.mp h.symm).1 y.encode_ne_nil
  | cons x xs ih =>
    cases ys with
    | nil =>
      simp only [flatMap_nil, flatMap_cons] at h
      exact absurd (append_eq_nil_iff.mp h).1 x.encode_ne_nil
    | cons y ys =>
      simp only [flatMap_cons] at h
      obtain ⟨hxy, hyx⟩ := hne x mem_cons_self y mem_cons_self
      obtain ⟨heq, hrest⟩ := Entry.encode_inj (hx x mem_cons_self) (hy y mem_cons_self) hxy hyx h
      rw [heq, ih (fun e he => hx e (mem_cons_of_mem _ he)) (fun e he => hy e (mem_cons_of_mem _ he))
        (fun e he e' he' => hne e (mem_cons_of_mem _ he) e' (mem_cons_of_mem _ he')) hrest]

end Fcvm.DiskDir
