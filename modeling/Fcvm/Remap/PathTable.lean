import Fcvm.Library.PathLedger
import Fcvm.Remap.HostTree

namespace Fcvm.Remap

open Library List Option Function

theorem lookup_foldl_insert {updates : List (ℕ × Bytes)} (hkeys : (updates.map Prod.fst).Nodup)
    (paths : DashMap ℕ Bytes)
    (n : ℕ) :
    ((∀ b, (n, b) ∉ updates) → (updates.foldl (fun paths e => paths.insert e.1 e.2) paths).lookup n = paths.lookup n) ∧
      ∀ b, (n, b) ∈ updates → (updates.foldl (fun paths e => paths.insert e.1 e.2) paths).lookup n = some b := by
  induction updates generalizing paths with
  | nil => exact ⟨fun _ => rfl, nofun⟩
  | cons e updates ih =>
    rw [map_cons, nodup_cons] at hkeys
    obtain ⟨ihnone, ihsome⟩ := ih hkeys.2 (paths.insert e.1 e.2)
    rw [foldl_cons]
    constructor
    · intro hnot
      rw [ihnone fun b hb => hnot b (mem_cons_of_mem _ hb), AList.lookup_insert_ne]
      rintro rfl
      exact hnot e.2 mem_cons_self
    · intro b hb
      rcases mem_cons.mp hb with heq | hb
      · rw [ihnone]
        · rw [← heq, AList.lookup_insert]
        · intro b' hb'
          refine hkeys.1 ?_
          rw [← heq]
          exact mem_map.mpr ⟨_, hb', rfl⟩
      · exact ihsome b hb

theorem segments_formatPath {name : Bytes} (hne : name ≠ []) (hslash : slash ∉ name) (b : Bytes) :
    segments slash (formatPath b name) = segments slash b ++ [name] := by
  unfold formatPath
  split
  · next hb => rw [hb, segments_of_ne hne, splitOn_eq_singleton hslash, segments_nil, nil_append]
  · next hb => rw [segments_append hb, splitOn_eq_singleton hslash]

namespace RemapFs

variable {T : Type}

def recorded (fs : RemapFs T) (n : ℕ) : Option (List Bytes) := (fs.paths.lookup n).map (segments slash)

variable {fs : RemapFs T} {p : List Bytes}

theorem recorded_eq_some {n : ℕ} :
    fs.recorded n = some p ↔ ∃ b, fs.paths.lookup n = some b ∧ segments slash b = p :=
  map_eq_some_iff

theorem segments_entryPath {parent : ℕ} {name : Bytes}
    (hparent : fs.recorded parent = some p) (hutf8 : isUtf8 name = true) (hname : GoodName name) :
    segments slash (fs.entryPath parent name) = p ++ [name] := by
  obtain ⟨b, hb, rfl⟩ := recorded_eq_some.mp hparent
  unfold entryPath pathOf
  rw [hb, fromUtf8Lossy_eq hutf8, getD_some, segments_formatPath hname.1 hname.2.1]

theorem recorded_insert (fs : RemapFs T) (n : ℕ) (b : Bytes) :
    ({ fs with paths := fs.paths.insert n b } : RemapFs T).recorded =
      update fs.recorded n (some (segments slash b)) := by
  funext m
  by_cases hm : m = n
  · subst hm
    rw [update_self]
    unfold recorded
    rw [AList.lookup_insert, map_some]
  · rw [update_of_ne hm]
    unfold recorded
    rw [AList.lookup_insert_ne hm]

theorem recorded_fixPath {n : ℕ} (hn : fs.recorded n = some p) (b : Bytes) :
    (fs.fixPath n b).recorded = update fs.recorded n (some (segments slash b)) := by
  obtain ⟨stored, hstored, _⟩ := recorded_eq_some.mp hn
  unfold fixPath
  rw [hstored]
  dsimp only
  split
  · next heq =>
    rw [update_eq_self_iff.mpr]
    exact (recorded_eq_some.mpr ⟨stored, hstored, by rw [heq]⟩).symm
  · exact recorded_insert fs n b

theorem lookup_moveBelow (paths : DashMap ℕ Bytes) (oldPath newPath : Bytes) (n : ℕ) :
    (moveBelow paths oldPath newPath).lookup n = (paths.lookup n).map fun b =>
      if (oldPath ++ [slash]).isPrefixOf b then newPath ++ [slash] ++ b.drop (oldPath ++ [slash]).length else b := by
  unfold moveBelow
  generalize hup : (List.map _ (List.filter _ paths.entries)) = updates
  have hkeys : (updates.map Prod.fst).Nodup := by
    rw [← hup, List.map_map]
    exact paths.nodupKeys.sublist filter_sublist
  obtain ⟨hnone, hsome⟩ := lookup_foldl_insert hkeys paths n
  have hmem : ∀ b', (n, b') ∈ updates ↔ ∃ b, paths.lookup n = some b ∧ (oldPath ++ [slash]).isPrefixOf b = true ∧
      b' = newPath ++ [slash] ++ b.drop (oldPath ++ [slash]).length := by
    intro b'
    rw [← hup, List.mem_map]
    constructor
    · rintro ⟨⟨m, b⟩, hb, heq⟩
      cases heq
      obtain ⟨hb, hpre⟩ := mem_filter.mp hb
      exact ⟨b, AList.mem_lookup_iff.mpr hb, hpre, rfl⟩
    · rintro ⟨b, hb, hpre, rfl⟩
      exact ⟨⟨n, b⟩, mem_filter.mpr ⟨AList.mem_lookup_iff.mp hb, hpre⟩, rfl⟩
  cases hb : paths.lookup n with
  | none =>
    refine (hnone fun b' hb' => ?_).trans hb
    obtain ⟨b, hb', _⟩ := (hmem b').mp hb'
    cases hb.symm.trans hb'
  | some b =>
    rw [map_some]
    split
    · next hpre => exact hsome _ ((hmem _).mpr ⟨b, hb, hpre, rfl⟩)
    · next hpre =>
      refine (hnone fun b' hb' => ?_).trans hb
      obtain ⟨b'', hb'', hpre', _⟩ := (hmem b').mp hb'
      cases hb.symm.trans hb''
      exact hpre hpre'

theorem recorded_rename {src : ℕ} {oldPath newPath : Bytes} (hold : oldPath ≠ []) (hnew : newPath ≠ [])
    (hsrc : fs.paths.lookup src = some oldPath) (honly : ∀ n, fs.paths.lookup n = some oldPath → n = src)
    (hbelow : ¬segments slash oldPath <+: segments slash newPath) (n : ℕ) :
    ({ fs with paths := moveBelow (fs.paths.insert src newPath) oldPath newPath } : RemapFs T).recorded n =
      (fs.recorded n).map (relocate (segments slash oldPath) (segments slash newPath)) := by
  have hpre : ∀ b, (oldPath ++ [slash]).isPrefixOf b = true ↔ oldPath ++ [slash] <+: b := fun b => isPrefixOf_iff_prefix
  unfold recorded
  dsimp only
  rw [lookup_moveBelow, Option.map_map]
  by_cases hn : n = src
  · subst hn
    rw [AList.lookup_insert, hsrc, map_some, map_some, map_some]
    have hnot : ¬(oldPath ++ [slash]).isPrefixOf newPath = true := by
      rw [hpre, isPrefix_iff_segments hold]
      rintro ⟨r, _, hr⟩
      exact hbelow (hr ▸ prefix_append _ _)
    have hself := relocate_append (segments slash oldPath) (segments slash newPath) []
    rw [append_nil, append_nil] at hself
    rw [hself, comp_apply, if_neg hnot]
  · rw [AList.lookup_insert_ne hn]
    rcases hb : fs.paths.lookup n with _ | b
    · rfl
    rw [map_some, map_some, map_some, comp_apply]
    congr 1
    split
    · next h =>
      rw [hpre] at h
      obtain ⟨r, _, hr⟩ := (isPrefix_iff_segments hold).mp h
      rw [segments_replace hold hnew h, hr, drop_left, relocate_append]
    · next h =>
      rw [relocate, if_neg]
      rintro ⟨r, hr⟩
      rcases eq_nil_or_concat r with rfl | ⟨r, c, rfl⟩
      · rw [append_nil] at hr
        exact hn (honly n (segments_injective slash hr ▸ hb))
      · exact h ((hpre b).mpr ((isPrefix_iff_segments hold).mpr ⟨_, by simp, hr.symm⟩))

theorem recorded_rename_self (scan : PathScan) {parent newparent flags : ℕ} {name newname : Bytes}
    (hflags : isExchange flags = false) (hself : fs.entryPath parent name = fs.entryPath newparent newname) :
    (fs.handleRenamePaths scan parent name newparent newname flags).recorded = fs.recorded := by
  funext n
  unfold handleRenamePaths
  dsimp only
  rw [hflags, if_neg Bool.false_ne_true, ← hself]
  rcases hsrc : scan.find fs.paths (fs.entryPath parent name) with _ | src
  · rfl
  have hsrc := scan.sound _ _ _ hsrc
  have hinsert : (fs.paths.insert src (fs.entryPath parent name)).lookup n = fs.paths.lookup n := by
    by_cases hn : n = src
    · rw [hn, AList.lookup_insert, hsrc]
    · exact AList.lookup_insert_ne hn
  unfold recorded
  dsimp only
  rw [lookup_moveBelow, hinsert, Option.map_map]
  congr 1
  funext b
  dsimp only [comp]
  split
  · next hpre =>
    obtain ⟨x, rfl⟩ := isPrefixOf_iff_prefix.mp hpre
    rw [drop_left]
  · rfl

theorem recorded_exchange (scan : PathScan) {oldPath newPath : Bytes}
    (honly : ∀ n m b, fs.paths.lookup n = some b → fs.paths.lookup m = some b → n = m) (n : ℕ) :
    ({ fs with
        paths := insertIfFound (insertIfFound fs.paths (scan.find fs.paths oldPath) newPath)
          (scan.find fs.paths newPath) oldPath } : RemapFs T).recorded n =
      (fs.recorded n).map (exchange (segments slash oldPath) (segments slash newPath)) := by
  have hfound : ∀ (paths : DashMap ℕ Bytes) path path', (insertIfFound paths (scan.find fs.paths path) path').lookup n =
      if fs.paths.lookup n = some path then some path' else paths.lookup n := by
    intro paths path path'
    unfold insertIfFound
    cases hm : scan.find fs.paths path with
    | none =>
      rw [if_neg]
      intro h
      exact scan.complete _ _ _ h hm
    | some m =>
      have hm := scan.sound _ _ _ hm
      dsimp only
      split
      · next h => rw [honly n m path h hm, AList.lookup_insert]
      · next h =>
        rw [AList.lookup_insert_ne]
        rintro rfl
        exact h hm
  unfold recorded
  dsimp only
  rw [hfound, hfound]
  rcases hb : fs.paths.lookup n with _ | b
  · simp
  have hseg : ∀ path, segments slash b = segments slash path ↔ b = path :=
    fun path => ⟨fun h => segments_injective slash h, fun h => h ▸ rfl⟩
  rw [map_some, map_some, exchange]
  simp only [hseg, Option.some.injEq]
  split_ifs with h₁ h₂ h₂
  · rw [← h₁, ← h₂]
    rfl
  · rfl
  · rfl
  · rfl

end RemapFs

end Fcvm.Remap
