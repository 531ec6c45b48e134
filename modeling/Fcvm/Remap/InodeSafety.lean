import Fcvm.Remap.Translation

namespace Fcvm.Remap

open Library List

variable {req : VolumeRequest} {scan : PathScan}

namespace RemapFs

variable {T : Type}

structure Grows (fs fs' : RemapFs T) : Prop where
  toStable : ∀ i n, fs.toStable i = some n → fs'.toStable i = some n
  toInner : ∀ n i, fs.toInner n = some i → fs'.toInner n = some i
  bijective : fs.Bijective → fs'.Bijective

theorem Grows.of_eq {fs fs' : RemapFs T} (hs : fs'.innerToStable = fs.innerToStable)
    (hi : fs'.stableToInner = fs.stableToInner) : Grows fs fs' := by
  refine ⟨fun i n h => ?_, fun n i h => ?_, fun hb i n => ?_⟩
  · rw [RemapFs.toStable, hs]
    exact h
  · rw [RemapFs.toInner, hi]
    exact h
  · simp only [RemapFs.toStable, RemapFs.toInner, hs, hi]
    exact hb i n

theorem Grows.trans {fs₁ fs₂ fs₃ : RemapFs T} (h : Grows fs₁ fs₂) (h' : Grows fs₂ fs₃) : Grows fs₁ fs₃ :=
  ⟨fun i n hn => h'.toStable i n (h.toStable i n hn), fun n i hi => h'.toInner n i (h.toInner n i hi),
    fun hb => h'.bijective (h.bijective hb)⟩

theorem MapStep.grows {fs fs' : RemapFs T} (h : MapStep fs fs') : Grows fs fs' :=
  ⟨h.toStable, h.toInner, h.bijective⟩

variable [FilesystemHandler T]

theorem delegate_grows (scan : PathScan) (fs : RemapFs T) (req r : VolumeRequest) (groups : List ℕ) :
    Grows fs (fs.delegate scan req r groups).2 := by
  unfold delegate
  dsimp only
  obtain ⟨highest, hframe⟩ := guestHandleResponse_frame
    ({ fs with inner := (FilesystemHandler.handleRequestWithGroups fs.inner r groups).2 } : RemapFs T)
    (FilesystemHandler.handleRequestWithGroups fs.inner r groups).1
  have hsame : Grows fs (guestHandleResponse
      ({ fs with inner := (FilesystemHandler.handleRequestWithGroups fs.inner r groups).2 } : RemapFs T)
      (FilesystemHandler.handleRequestWithGroups fs.inner r groups).1).2 := by
    rw [hframe]
    exact .of_eq rfl rfl
  exact hsame.trans (MapStep.remapResponse scan _ _ _).grows

theorem releaseStale_grows (fs : RemapFs T) (r : VolumeRequest) (g : ℕ) (groups : List ℕ) :
    Grows fs (fs.releaseStale r g groups).2 := by
  unfold releaseStale
  split
  · exact .of_eq rfl rfl
  · exact .of_eq rfl rfl

variable {fs : RemapFs (Recorded T)} {out : VolumeResponse × RemapFs (Recorded T)}

omit [FilesystemHandler T] in
theorem HandleStep.grows {fs' : RemapFs (Recorded T)} (h : HandleStep req fs fs') :
    Grows fs fs' := .of_eq h.toStable h.toInner

theorem Served.handles {fs₁ fs₂ : RemapFs (Recorded T)} {r r₁ r₂ : VolumeRequest}
    (h : fs.remapFh req r = (some r₁, fs₁)) (h' : fs₁.remapFhOut req r₁ = (some r₂, fs₂)) :
    HandleStep req fs fs₂ ∧ r₂.kind = r.kind ∧ r₂.ino = r.ino := by
  have hstep := (remapFh_step fs req r).1
  have hstep' := (remapFhOut_step fs₁ req r₁).1
  rw [h] at hstep
  rw [h'] at hstep'
  obtain ⟨hk, hi⟩ := remapFh_kind h
  obtain ⟨hk', hi'⟩ := remapFhOut_kind h'
  exact ⟨hstep.trans hstep', hk'.trans hk, hi'.trans hi⟩

theorem Served.grows {groups : List ℕ} (h : Served scan fs req groups out) : Grows fs out.2 := by
  cases h with
  | unknown => exact .of_eq rfl rfl
  | released => exact releaseStale_grows fs _ _ _
  | @badFh r fs₁ hr hs h =>
    have hstep := (remapFh_step fs req r).1
    rw [h] at hstep
    exact hstep.grows
  | @badFhOut r r₁ fs₁ fs₂ hr hs h h' =>
    have hstep := (remapFh_step fs req r).1
    have hstep' := (remapFhOut_step fs₁ req r₁).1
    rw [h] at hstep
    rw [h'] at hstep'
    exact hstep.grows.trans hstep'.grows
  | delegated hr hs h h' => exact (Served.handles h h').1.grows.trans (delegate_grows scan _ _ _ _)

def lastShown (fs : RemapFs (Recorded T)) (reply : VolumeResponse) : List (ℕ × ℕ) :=
  match fs.inner.calls with
  | [] => []
  | (_, resp) :: _ => fs.shownBy resp reply

omit [FilesystemHandler T] in
theorem notMem_lastShown_error (fs : RemapFs (Recorded T)) (e : ℕ) (p : ℕ × ℕ) : p ∉ fs.lastShown (.error e) := by
  unfold lastShown
  split
  · exact not_mem_nil
  · rw [shownBy_error]
    exact not_mem_nil

omit [FilesystemHandler T] in
theorem notMem_lastShown_ok (fs : RemapFs (Recorded T)) (p : ℕ × ℕ) : p ∉ fs.lastShown .ok := by
  unfold lastShown
  split
  · exact not_mem_nil
  · rw [shownBy_ok]
    exact not_mem_nil

theorem Served.shown [AnswersInKind T]
    {groups : List ℕ} (h : Served scan fs req groups out)
    (hb : fs.Bijective) {i n : ℕ} (hin : (i, n) ∈ out.2.lastShown out.1) : out.2.toStable i = some n := by
  cases h with
  | unknown | badFh | badFhOut =>
    exact absurd hin (notMem_lastShown_error _ _ _)
  | @released r g hr hs =>
    have hok : (fs.releaseStale r g groups).1 = .ok := by
      unfold releaseStale
      split <;> rfl
    rw [hok] at hin
    exact absurd hin (notMem_lastShown_ok _ _)
  | @delegated r r₁ r₂ fs₁ fs₂ hr hs h h' =>
    obtain ⟨hstep, hkind, hino⟩ := Served.handles h h'
    rw [lastShown, delegate_calls] at hin
    exact delegate_shown scan (hstep.grows.bijective hb) hstep.toInner ⟨r, hr, hkind, hino⟩
      (AnswersInKind.fits fs₂.inner.handler r₂ groups) hin

/-! The mappings a restore makes. -/

def bindings (inner : T) : List (ℕ × Bytes) → List (ℕ × ℕ)
  | [] => []
  | entry :: table =>
    if entry.2 = [] then bindings inner table
    else
      match walk inner 1 (entry.2.splitOn slash) with
      | (some current, inner) => (entry.1, current) :: bindings inner table
      | (none, inner) => bindings inner table

def Separate (inner : T) (table : List (ℕ × Bytes)) : Prop :=
  1 ∉ (bindings inner table).map Prod.fst ∧ (1 :: (bindings inner table).map Prod.snd).Nodup

theorem bindings_sublist (inner : T) (table : List (ℕ × Bytes)) :
    ((bindings inner table).map Prod.fst).Sublist (table.map Prod.fst) := by
  induction table generalizing inner with
  | nil => exact .slnil
  | cons entry table ih =>
    unfold bindings
    split
    · exact (ih inner).cons _
    · split
      · exact (ih _).cons_cons _
      · exact (ih _).cons _

theorem restoreEntry_bijective {fs : RemapFs T} {table : List (ℕ × Bytes)} (hb : fs.Bijective)
    (hnew : ∀ b ∈ bindings fs.inner table, fs.toInner b.1 = none ∧ fs.toStable b.2 = none)
    (hfst : ((bindings fs.inner table).map Prod.fst).Nodup) (hsnd : ((bindings fs.inner table).map Prod.snd).Nodup) :
    (table.foldl restoreEntry fs).Bijective := by
  induction table generalizing fs with
  | nil => exact hb
  | cons entry table ih =>
    unfold bindings at hnew hfst hsnd
    rw [foldl_cons]
    unfold restoreEntry
    split at hnew
    · next hempty =>
      rw [if_pos hempty] at hfst hsnd ⊢
      exact ih hb hnew hfst hsnd
    · next hempty =>
      rw [if_neg hempty] at hfst hsnd ⊢
      generalize walk fs.inner 1 (entry.2.splitOn slash) = walked at hnew hfst hsnd ⊢
      obtain ⟨found, inner⟩ := walked
      obtain _ | current := found
      · exact @ih { fs with inner := inner } hb hnew hfst hsnd
      obtain ⟨hi, hs⟩ := hnew (entry.1, current) mem_cons_self
      simp only [map_cons, nodup_cons] at hfst hsnd
      refine ih (hb.insert hs hi rfl rfl) (fun b hmem => ?_) hfst.2 hsnd.2
      obtain ⟨hbi, hbs⟩ := hnew b (mem_cons_of_mem _ hmem)
      have hne : b.1 ≠ entry.1 := fun h => hfst.1 (h ▸ mem_map_of_mem hmem)
      have hne' : b.2 ≠ current := fun h => hsnd.1 (h ▸ mem_map_of_mem hmem)
      exact ⟨(AList.lookup_insert_ne hne).trans hbi, (AList.lookup_insert_ne hne').trans hbs⟩

omit [FilesystemHandler T] in
theorem new_bijective (inner : T) : (new inner).Bijective := by
  have hempty : (⟨inner, ∅, ∅, ∅, ∅, 0, 0⟩ : RemapFs T).Bijective := by
    intro i n
    simp [toStable, toInner]
  exact hempty.insert rfl rfl rfl rfl

theorem parseTable_ordered {J : Json} (hJ : J.Lawful) (json : J.Text) :
    (parseTable J json).2.Pairwise (·.1 < ·.1) := by
  have hread : ∀ value, ((J.fromValue value).getD []).Pairwise (·.1 < ·.1) := by
    intro value
    cases htable : J.fromValue value with
    | none => exact .nil
    | some table => exact hJ.ordered _ _ htable
  unfold parseTable
  cases J.fromStr json with
  | none => exact .nil
  | some value =>
    dsimp only
    generalize tableParts J value = parts
    have hparts := hread parts.2
    split
    · exact .nil
    · split
      · next htable =>
        rw [htable] at hparts
        exact hparts
      · exact .nil

theorem restoreFromTable_bijective {J : Json} (hJ : J.Lawful) {inner : T} {json : J.Text}
    (hsep : Separate inner (parseTable J json).2) : (restoreFromTable J inner json).Bijective := by
  have hnew : ∀ b ∈ bindings (new inner).inner (parseTable J json).2,
      (new inner).toInner b.1 = none ∧ (new inner).toStable b.2 = none := by
    intro b hb
    have hone : b.1 ≠ 1 := fun h => hsep.1 (h ▸ mem_map_of_mem hb)
    have hone' : b.2 ≠ 1 := fun h => (nodup_cons.mp hsep.2).1 (h ▸ mem_map_of_mem hb)
    exact ⟨AList.lookup_insert_ne hone, AList.lookup_insert_ne hone'⟩
  have hfst : ((bindings inner (parseTable J json).2).map Prod.fst).Nodup := by
    apply List.Nodup.sublist (bindings_sublist inner _)
    rw [List.Nodup, pairwise_map]
    exact (parseTable_ordered hJ json).imp fun h => Nat.ne_of_lt h
  exact restoreEntry_bijective (new_bijective inner) hnew hfst (nodup_cons.mp hsep.2).2

end RemapFs

structure Translation (T : Type) where
  fs : RemapFs (Recorded T)
  shown : List (ℕ × ℕ)

variable {T : Type} [FilesystemHandler T]

def translation (T : Type) [FilesystemHandler T] (scan : PathScan) :
    System (Translation T) (VolumeRequest × List ℕ) where
  initial s := s.shown = [] ∧ ∃ t : T, s.fs = .new ⟨t, []⟩ ∨ ∃ (J : Json) (json : J.Text), J.Lawful ∧
    RemapFs.Separate (⟨t, []⟩ : Recorded T) (RemapFs.parseTable J json).2 ∧ s.fs = .restoreFromTable J ⟨t, []⟩ json
  next s a :=
    let (reply, fs) := s.fs.handleRequestWithGroups scan a.1 a.2
    some ⟨fs, fs.lastShown reply ++ s.shown⟩

structure Translation.Inv (s : Translation T) : Prop where
  bijective : s.fs.Bijective
  shown : ∀ i n, (i, n) ∈ s.shown → s.fs.toStable i = some n

theorem Translation.inv_reachable [AnswersInKind T] {s : Translation T}
    (h : (translation T scan).Reachable s) : s.Inv := by
  refine h.invariant ?_ ?_
  · rintro ⟨fs, shown⟩ ⟨hnil, t, hfs⟩
    cases hnil
    refine ⟨?_, nofun⟩
    rcases hfs with rfl | ⟨J, json, hJ, hsep, rfl⟩
    · exact RemapFs.new_bijective _
    · exact RemapFs.restoreFromTable_bijective hJ hsep
  · rintro s ⟨req, groups⟩ s' hs hnext
    cases hnext
    have hserved := RemapFs.served scan s.fs req groups
    refine ⟨hserved.grows.bijective hs.bijective, fun i n hin => ?_⟩
    rcases mem_append.mp hin with hin | hin
    · exact hserved.shown hs.bijective hin
    · exact hserved.grows.toStable i n (hs.shown i n hin)

theorem inode_translation_sound [AnswersInKind T] (scan : PathScan) {s : Translation T}
    (h : (translation T scan).Reachable s) :
    (∀ i n, s.fs.toStable i = some n ↔ s.fs.toInner n = some i) ∧
      (∀ req groups, ∃ made, (s.fs.handleRequestWithGroups scan req groups).2.inner.calls = made ++ s.fs.inner.calls ∧
        ∀ c ∈ made, s.fs.Translates req c.1) ∧
      ∀ i j n, (i, n) ∈ s.shown → (j, n) ∈ s.shown → i = j := by
  have hinv := Translation.inv_reachable h
  refine ⟨hinv.bijective, fun req groups => RemapFs.calls_translate scan s.fs req groups, fun i j n hi hj => ?_⟩
  have hi := (hinv.bijective i n).mp (hinv.shown i n hi)
  have hj := (hinv.bijective j n).mp (hinv.shown j n hj)
  rw [hi] at hj
  exact Option.some.inj hj

def firstScan : PathScan where
  find paths path := (paths.entries.find? fun e => e.2 = path).map fun e => e.1
  sound paths path n h := by
    obtain ⟨e, he, rfl⟩ := Option.map_eq_some_iff.mp h
    have hpath : e.2 = path := by simpa using List.find?_some he
    rw [← hpath]
    exact AList.mem_lookup_iff.mpr (mem_of_find?_eq_some he)
  complete paths path n h := by
    have hmem := AList.mem_lookup_iff.mp (show path ∈ paths.lookup n from h)
    intro hnone
    have := List.find?_eq_none.mp (Option.map_eq_none_iff.mp hnone) _ hmem
    simp at this

inductive PlainValue where
  | table (base : ℕ) (paths : List (ℕ × Bytes))
  | number (n : ℕ)
  | paths (table : List (ℕ × Bytes))

def plainJson : Json where
  Text := PlainValue
  Value := PlainValue
  tableText := .table
  fromStr := some
  get
    | .table base _, "handle_base" => some (.number base)
    | .table _ table, "paths" => some (.paths table)
    | _, _ => none
  asU64
    | .number n => some n
    | _ => none
  fromValue
    | .paths table => if table.Pairwise (·.1 < ·.1) then some table else none
    | _ => none

theorem plainJson_lawful : plainJson.Lawful where
  ordered v table h := by
    cases v with
    | paths t =>
      simp only [plainJson] at h
      split at h
      · cases h
        assumption
      · cases h
    | _ => cases h
  written base table _ h := ⟨.table base table, .number base, .paths table, rfl, rfl, rfl, rfl, if_pos h⟩

/-- A volume with a file for every name of one byte, whose inode is 2 more than the byte, and whose handles count up
from the number of files opened so far. -/
structure LetterFs where
  opened : ℕ

def LetterFs.answer (t : LetterFs) : VolumeRequest → VolumeResponse × LetterFs
  | .lookup 1 [letter] => (.entry ⟨letter.toNat + 2⟩, t)
  | .lookup .. => (.error 2, t)
  | .getattr ino => (.attr ⟨ino⟩, t)
  | .open .. => (.opened (t.opened + 1), ⟨t.opened + 1⟩)
  | .opendir .. => (.openeddir (t.opened + 1), ⟨t.opened + 1⟩)
  | _ => (.ok, t)

instance : FilesystemHandler LetterFs where
  handleRequest := LetterFs.answer
  handleRequestWithGroups t req _ := t.answer req

instance : AnswersInKind LetterFs where
  fits t req _ := by
    change (t.answer req).1.Fits req
    unfold LetterFs.answer
    split
    · rfl
    · trivial
    · exact ⟨rfl, rfl⟩
    · trivial
    · trivial
    · trivial

def letterServer : RemapFs (Recorded LetterFs) := .new ⟨⟨0⟩, []⟩

theorem inode_translation_sound_letters :
    ∃ s : Translation LetterFs, (translation LetterFs firstScan).exec ⟨letterServer, []⟩
        [(.lookup 1 [97], []), (.getattr (pathHash [97]), [])] = some s ∧
      s.shown = [(99, pathHash [97]), (99, pathHash [97])] ∧
      ∀ i n, s.fs.toStable i = some n ↔ s.fs.toInner n = some i := by
  obtain ⟨s, hexec, hshown⟩ : ∃ s : Translation LetterFs, (translation LetterFs firstScan).exec ⟨letterServer, []⟩
        [(.lookup 1 [97], []), (.getattr (pathHash [97]), [])] = some s ∧
      s.shown = [(99, pathHash [97]), (99, pathHash [97])] := ⟨_, rfl, by decide +kernel⟩
  have hreach := (System.Reachable.initial (M := translation LetterFs firstScan) ⟨rfl, ⟨0⟩, .inl rfl⟩).exec hexec
  exact ⟨s, hexec, hshown, (inode_translation_sound firstScan hreach).1⟩

def twiceBound : RemapFs (Recorded LetterFs) :=
  .restoreFromTable plainJson ⟨⟨0⟩, []⟩ (.table 0 [(1, []), (5, [97]), (6, [97])])

/-- A FORGET of a number without a mapping reaches the inner server as it is, and a table with one path under two
numbers binds both of them to one inner inode. -/
theorem unmapped_forget_reaches_inner :
    letterServer.toInner 7 = none ∧
      (letterServer.handleRequestWithGroups firstScan (.forget 7 1) []).2.inner.calls = [(.forget 7 1, .ok)] ∧
      twiceBound.toInner 5 = some 99 ∧ twiceBound.toInner 6 = some 99 ∧ twiceBound.toStable 99 = some 6 := by
  decide +kernel

end Fcvm.Remap
