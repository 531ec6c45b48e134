import Fcvm.Remap.Requests

namespace Fcvm.Remap

open Library Option List

variable {T : Type} {t t' : HostTree} {fs : RemapFs T} {given : Set (ℕ × Object)} {req r : VolumeRequest}
  {resp : VolumeResponse}

theorem Answers.of_error (h : Answers t t' r resp) (herr : resp.isError = true) : t'.node = t.node := by
  cases h with
  | error ht | other _ _ ht => exact ht
  | _ => cases herr

theorem Answers.untouched (h : Answers t t' r resp) (hr : r.touchesTree = false) : t'.node = t.node := by
  cases h with
  | error ht | other _ _ ht => exact ht
  | made hreq => rcases hreq with rfl | rfl | rfl <;> cases hr
  | _ => cases hr

theorem RemapFs.remapRequestInodes_touchesTree (h : fs.remapRequestInodes req = some r) :
    r.touchesTree = req.touchesTree := by
  cases req with
  | forget | batchForget =>
    cases h
    rfl
  | _ =>
    simp only [remapRequestInodes, bind, bind_eq_some_iff, pure, Option.some.injEq] at h
    obtain ⟨_, _, h⟩ := h
    first
    | subst h; rfl
    | obtain ⟨_, _, rfl⟩ := h; rfl

theorem RemapFs.remapResponse_untouched (scan : PathScan) (fs : RemapFs T) (resp : VolumeResponse)
    (h : req.touchesTree = false) : (fs.remapResponse scan req resp).2 = fs := by
  unfold remapResponse
  split
  · rfl
  · cases req with
    | lookup | mkdir | mknod | symlink | create | link | rename | unlink | rmdir | readdir | readdirplus => cases h
    | _ => rfl

theorem RemapFs.NoneBelow.recorded {path : Bytes} (h : fs.NoneBelow path) (hne : path ≠ []) (n : ℕ) {x : List Bytes}
    (hx : x ≠ []) :
    fs.recorded n ≠ some (segments slash path ++ x) := by
  intro hn
  obtain ⟨b, hb, hseg⟩ := recorded_eq_some.mp hn
  apply h n b hb
  exact (isPrefix_iff_segments hne).mpr ⟨x, hx, hseg⟩

theorem RemapFs.remapEntries_unchanged {E : Type} {f : RemapFs T → E → E × RemapFs T} {entries : List E}
    (h : ∀ e ∈ entries, (f fs e).2 = fs) : (remapEntries f fs entries).2 = fs := by
  induction entries with
  | nil => rfl
  | cons e entries ih =>
    rw [forall_mem_cons] at h
    simp only [remapEntries]
    rw [h.1]
    exact ih h.2

theorem RemapFs.remapDirEntry_dots {dir : ℕ} {path : Bytes} {e : DirEntry} (h : e.name = dot ∨ e.name = dotdot) :
    (remapDirEntry dir path fs e).2 = fs := by
  unfold remapDirEntry
  split
  · rfl
  · next hdot => rw [if_pos (h.resolve_left hdot)]

theorem RemapFs.remapDirEntryPlus_dots {dir : ℕ} {path : Bytes} {e : DirEntryPlus}
    (h : e.name = dot ∨ e.name = dotdot) :
    (remapDirEntryPlus dir path fs e).2 = fs := by
  unfold remapDirEntryPlus
  split
  · rfl
  · next hdot =>
    rw [if_pos (h.resolve_left hdot)]
    split <;> rfl

namespace Tracks

theorem renamed (h : Tracks t fs given) (scan : PathScan) {parent newparent i j flags : ℕ} {name newname : Bytes}
    (hi : fs.toInner parent = some i) (hj : fs.toInner newparent = some j)
    (hans : Answers t t' (.rename i name j newname flags) resp) (herr : resp.isError = false)
    (hk : fs.Keeps t t' (.rename parent name newparent newname flags) resp) :
    Tracks t' (fs.handleRenamePaths scan parent name newparent newname flags) given := by
  have hplaces : ∀ {p q o o'}, t.DirAt p i → t.DirAt q j → t.node (p ++ [name]) = some o →
      t'.node (q ++ [newname]) = some o' → isUtf8 name = true → isUtf8 newname = true →
      RenamePlaces t fs given parent name newparent newname p q := by
    intro p q o o' hp hq ho ho' hname hnewname
    have hsource := h.dirAt hi hp
    have htarget := h.dirAt hj hq
    refine ⟨hsource, htarget, ?_, ?_⟩
    · exact RemapFs.segments_entryPath hsource.1 hname (t.goodName p name o ho)
    · exact RemapFs.segments_entryPath htarget.1 hnewname (t'.goodName q newname o' ho')
  cases hans with
  | error => cases herr
  | other hreq => cases hreq
  | made hreq => rcases hreq with h | h | h <;> cases h
  | @rename _ _ _ _ _ p q o hflags hp hq ho hbelow hempty _ ht =>
    obtain ⟨hname, hnewname, hkeeps⟩ := hk
    have ho' : t'.node (q ++ [newname]) = some o := by
      have hmoved := moveNode_below t.node (p ++ [name]) (q ++ [newname]) []
      rw [append_nil, append_nil] at hmoved
      rw [ht, hmoved, ho]
    have hr := hplaces hp hq ho ho' hname hnewname
    rw [hflags, if_neg Bool.false_ne_true] at hkeeps
    refine h.rename_move scan hflags hr hbelow ?_ ht
    rcases hkeeps with hsame | hfree
    · -- the entry left its old place, so the tree is not as it was
      have hleft : t'.node (p ++ [name]) = none := by
        have hnot : ¬q ++ [newname] <+: p ++ [name] := by
          rintro ⟨x, hx⟩
          cases x with
          | nil => exact hbelow (by rw [← hx, append_nil])
          | cons c x =>
            have := t.none_below (hempty c) x
            rw [append_assoc, singleton_append, hx, ho] at this
            cases this
        rw [ht, moveNode, if_neg hnot, if_pos prefix_rfl]
      simp [hsame, ho] at hleft
    · exact fun n hn => hfree n (lookup_of_recorded hn hr.new)
  | @renameSame _ _ _ _ _ p q o hp hq ho ho' ht =>
    obtain ⟨hname, hnewname, _⟩ := hk
    exact h.rename_same scan (hplaces hp hq ho (ht ▸ ho') hname hnewname) ho ho' ht
  | @exchange _ _ _ _ _ p q o o' hflags hp hq ho ho' hbelow habove ht =>
    obtain ⟨hname, hnewname, hkeeps⟩ := hk
    have hswapped : t'.node (q ++ [newname]) = some o := by
      have hright := swapNode_right t.node hbelow habove []
      rw [append_nil, append_nil] at hright
      rw [ht, hright, ho]
    have hr := hplaces hp hq ho hswapped hname hnewname
    rw [hflags, if_pos rfl] at hkeeps
    rcases hkeeps with hsame | ⟨hold, hnew⟩
    · rw [hsame, ho'] at hswapped
      cases hswapped
      exact h.rename_same scan hr ho ho' hsame
    · refine h.rename_swap scan hflags hr hbelow habove (fun n x hx => ?_) ht
      rw [← hr.old, ← hr.new]
      exact ⟨hold.recorded hr.old_ne n hx, hnew.recorded hr.new_ne n hx⟩

theorem answeredTree (h : Tracks t fs given) (scan : PathScan) (hreq : fs.remapRequestInodes req = some r)
    (hans : Answers t t' r resp) (hk : fs.Keeps t t' req resp) (herr : resp.isError = false)
    (htouches : req.touchesTree = true) : Extends t' given resp (fs.remapResponse scan req resp) := by
  unfold RemapFs.remapResponse
  rw [herr, if_neg Bool.false_ne_true]
  cases req with
  | lookup parent name =>
    obtain ⟨i, hi, hr⟩ := bind_eq_some_iff.mp hreq
    cases hr
    cases hans with
    | error => cases herr
    | other hother => cases hother
    | made hmakes => rcases hmakes with h | h | h <;> cases h
    | lookup hp ho ht => exact (h.entryResponse hi hp ho hk (.inl rfl)).congr ht
  | mkdir parent name | mknod parent name | symlink parent name =>
    obtain ⟨i, hi, hr⟩ := bind_eq_some_iff.mp hreq
    cases hr
    cases hans with
    | error => cases herr
    | other hother => cases hother
    | made hmakes hp hfree ht =>
      rcases hmakes with heq | heq | heq <;> cases heq
      exact h.putResponse hi hp hk.1 hfree ht hk.2.1 (.inr hk.2.2) (.inl rfl)
  | create parent name =>
    obtain ⟨i, hi, hr⟩ := bind_eq_some_iff.mp hreq
    cases hr
    cases hans with
    | error => cases herr
    | other hother => cases hother
    | made hmakes => rcases hmakes with h | h | h <;> cases h
    | @created _ fh _ p _ hp hfree ht =>
      rcases hk.2 with hsame | ⟨hun, hnew⟩
      · rw [hsame] at ht
        have hnode := congrFun ht (p ++ [name])
        simp [Function.update_self, hfree] at hnode
      · exact h.putResponse hi hp hk.1 hfree ht hun (.inr hnew) (.inr ⟨fh, rfl⟩)
    | @opened _ fh _ _ _ hp ho ht => exact (h.entryResponse hi hp ho hk.1 (.inr ⟨fh, rfl⟩)).congr ht
  | link ino newparent newname =>
    obtain ⟨i, hi, hreq⟩ := bind_eq_some_iff.mp hreq
    obtain ⟨j, hj, hr⟩ := bind_eq_some_iff.mp hreq
    cases hr
    cases hans with
    | error => cases herr
    | other hother => cases hother
    | made hmakes => rcases hmakes with h | h | h <;> cases h
    | link hq hfile hp hfree ht => exact h.putResponse hj hp hk.1 hfree ht hk.2 (.inl ⟨_, hq⟩) (.inl rfl)
  | rename parent name newparent newname flags =>
    obtain ⟨i, hi, hreq⟩ := bind_eq_some_iff.mp hreq
    obtain ⟨j, hj, hr⟩ := bind_eq_some_iff.mp hreq
    cases hr
    exact .same (h.renamed scan hi hj hans herr hk)
  | unlink parent name =>
    obtain ⟨i, hi, hr⟩ := bind_eq_some_iff.mp hreq
    cases hr
    cases hans with
    | error => cases herr
    | other hother => cases hother
    | made hmakes => rcases hmakes with h | h | h <;> cases h
    | unlink hp ho _ ht =>
      refine .same (h.removed ho ht fun n hn q hq => ?_)
      exact hk _ n _ q (h.dirAt hi hp).1 hn ho hq
  | rmdir parent name =>
    obtain ⟨i, hi, hr⟩ := bind_eq_some_iff.mp hreq
    cases hr
    cases hans with
    | error => cases herr
    | other hother => cases hother
    | made hmakes => rcases hmakes with h | h | h <;> cases h
    | rmdir hp ho hdir _ ht =>
      refine .same (h.removed ho ht fun n _ q hq => ?_)
      exact t.alone q _ _ hq ho hdir
  | readdir dir =>
    obtain ⟨i, hi, hr⟩ := bind_eq_some_iff.mp hreq
    cases hr
    cases hans with
    | error => cases herr
    | other hother => cases hother
    | made hmakes => rcases hmakes with h | h | h <;> cases h
    | readdir hp hentries ht =>
      obtain ⟨b, hb, rfl⟩ := RemapFs.recorded_eq_some.mp (h.dirAt hi hp).1
      refine (Extends.same ?_).congr ht
      simp only [RemapFs.remapReaddirResponse, RemapFs.pathOf, hb, getD_some]
      exact h.dirEntries hi hp hentries hk
    | goneReaddir hentries ht =>
      refine (Extends.same ?_).congr ht
      simp only [RemapFs.remapReaddirResponse]
      rw [RemapFs.remapEntries_unchanged fun e he => RemapFs.remapDirEntry_dots (hentries e he)]
      exact h
  | readdirplus dir fh =>
    obtain ⟨i, hi, hr⟩ := bind_eq_some_iff.mp hreq
    cases hr
    cases hans with
    | error => cases herr
    | other hother => cases hother
    | made hmakes => rcases hmakes with h | h | h <;> cases h
    | readdirplus hp hentries ht =>
      obtain ⟨b, hb, rfl⟩ := RemapFs.recorded_eq_some.mp (h.dirAt hi hp).1
      refine Extends.congr ?_ ht
      simp only [RemapFs.remapReaddirplusResponse, RemapFs.pathOf, hb, getD_some]
      obtain ⟨given', htracks, hsub, hnew⟩ := h.dirEntriesPlus hi hp hentries hk
      refine ⟨given', htracks, hsub, fun n o hn => ?_⟩
      rcases hnew n o hn with hn | ⟨hlinked, e, he, hino, hnum⟩
      · exact .inl hn
      · refine .inr ⟨mem_map.mpr ⟨e, he, ?_⟩, hlinked⟩
        rw [hino, hnum]
    | goneReaddirplus hentries ht =>
      refine (Extends.same ?_).congr ht
      simp only [RemapFs.remapReaddirplusResponse]
      rw [RemapFs.remapEntries_unchanged fun e he => RemapFs.remapDirEntryPlus_dots (hentries e he)]
      exact h
  | _ => cases htouches

theorem answered (h : Tracks t fs given) (scan : PathScan) (hreq : fs.remapRequestInodes req = some r)
    (hans : Answers t t' r resp) (hk : fs.Keeps t t' req resp) :
    Extends t' given resp (fs.remapResponse scan req resp) := by
  cases herr : resp.isError with
  | true =>
    refine .same ?_
    unfold RemapFs.remapResponse
    rw [herr, if_pos rfl]
    exact h.of_eq rfl rfl rfl (hans.of_error herr)
  | false =>
    cases htouches : req.touchesTree with
    | false =>
      refine .same ?_
      rw [RemapFs.remapResponse_untouched scan fs resp htouches]
      exact h.of_eq rfl rfl rfl (hans.untouched ((RemapFs.remapRequestInodes_touchesTree hreq).trans htouches))
    | true => exact h.answeredTree scan hreq hans hk herr htouches

end Tracks

end Fcvm.Remap
