import Fcvm.Remap.Renames

namespace Fcvm.Remap

open Library List Function

variable {out : VolumeResponse × RemapFs T}

def numbersShown : VolumeResponse → VolumeResponse → List (ℕ × ℕ)
  | .entry a, .entry a' => [(a.ino, a'.ino)]
  | .created a _, .created a' _ => [(a.ino, a'.ino)]
  | .attr a, .attr a' => [(a.ino, a'.ino)]
  | .dirEntries entries, .dirEntries entries' => (entries.zip entries').map fun (e, e') => (e.ino, e'.ino)
  | .dirEntriesPlus entries, .dirEntriesPlus entries' =>
    (entries.zip entries').map fun (e, e') => (e.attr.ino, e'.attr.ino)
  | _, _ => []

namespace RemapFs

variable {T : Type}

def stableShown (fs : RemapFs T) (resp reply : VolumeResponse) : List (ℕ × ℕ) :=
  (numbersShown resp reply).filter fun (i, n) => fs.toInner n == some i

def Unrecorded (fs : RemapFs T) (path : Bytes) : Prop := ∀ n, fs.paths.lookup n ≠ some path

def NoneBelow (fs : RemapFs T) (path : Bytes) : Prop := ∀ n b, fs.paths.lookup n = some b → ¬path ++ [slash] <+: b

/-- The requests after which the recorded paths still lead where they should: names are UTF-8, a new entry or the
target of a rename takes no recorded path and no number that is still mapped, directories with something recorded
below them are not exchanged, and a recorded name that is removed was the last one of its file. -/
def Keeps (t t' : HostTree) (fs : RemapFs T) : VolumeRequest → VolumeResponse → Prop
  | .lookup _ name, .entry _ => isUtf8 name = true
  | .mkdir parent name, .entry a | .mknod parent name, .entry a | .symlink parent name, .entry a =>
    isUtf8 name = true ∧ fs.Unrecorded (fs.entryPath parent name) ∧ fs.toStable a.ino = none
  | .create parent name, .created a _ =>
    isUtf8 name = true ∧ (t'.node = t.node ∨ fs.Unrecorded (fs.entryPath parent name) ∧ fs.toStable a.ino = none)
  | .link _ newparent newname, .entry _ => isUtf8 newname = true ∧ fs.Unrecorded (fs.entryPath newparent newname)
  | .rename parent name newparent newname flags, .ok =>
    isUtf8 name = true ∧ isUtf8 newname = true ∧ (t'.node = t.node ∨
      if isExchange flags then fs.NoneBelow (fs.entryPath parent name) ∧ fs.NoneBelow (fs.entryPath newparent newname)
      else fs.Unrecorded (fs.entryPath newparent newname))
  | .unlink parent name, .ok => ∀ p n o q, fs.recorded parent = some p → fs.recorded n = some (p ++ [name]) →
    t.node (p ++ [name]) = some o → t.node q = some o → q = p ++ [name]
  | .readdir _, .dirEntries entries => ∀ e ∈ entries, isUtf8 e.name = true
  | .readdirplus _ _, .dirEntriesPlus entries => ∀ e ∈ entries, isUtf8 e.name = true
  | _, _ => True

end RemapFs

namespace Tracks

variable {T : Type} {t t' : HostTree} {fs : RemapFs T} {given : Set (ℕ × Object)}

def Extends (t' : HostTree) (given : Set (ℕ × Object)) (resp : VolumeResponse) (out : VolumeResponse × RemapFs T) :
    Prop :=
  ∃ given', Tracks t' out.2 given' ∧ given ⊆ given' ∧
    ∀ n o, (n, o) ∈ given' → (n, o) ∈ given ∨ (o.ino, n) ∈ numbersShown resp out.1 ∧ t'.Linked o

theorem Extends.same {resp : VolumeResponse} (h : Tracks t' out.2 given) :
    Extends t' given resp out := ⟨given, h, subset_rfl, fun _ _ hn => .inl hn⟩

theorem Extends.congr {resp : VolumeResponse} (h : Extends t given resp out)
    (ht : t'.node = t.node) : Extends t' given resp out := by
  obtain ⟨given', htracks, hsub, hnew⟩ := h
  refine ⟨given', htracks.of_eq rfl rfl rfl ht, hsub, fun n o hn => ?_⟩
  unfold HostTree.Linked
  rw [ht]
  exact hnew n o hn

theorem Extends.tracks {resp : VolumeResponse} (h : Extends t' given resp out) :
    Tracks t' out.2 (objectsGiven t' (out.2.stableShown resp out.1) ∪ given) := by
  obtain ⟨given', htracks, hsub, hnew⟩ := h
  have heq : objectsGiven t' (out.2.stableShown resp out.1) ∪ given = given' := by
    ext ⟨n, o⟩
    simp only [objectsGiven, RemapFs.stableShown, Set.mem_union, Set.mem_ofPred_eq, mem_filter, beq_iff_eq]
    constructor
    · rintro (⟨i, ⟨_, hi⟩, ⟨q, hq⟩, hino⟩ | hn)
      · rw [← hino] at hi
        exact htracks.object hi hq
      · exact hsub hn
    · intro hn
      rcases hnew n o hn with hn' | ⟨hshown, hlinked⟩
      · exact .inr hn'
      · exact .inl ⟨o.ino, ⟨hshown, htracks.numbers n o hn⟩, hlinked, rfl⟩
  rw [heq]
  exact htracks

/-! The answers with one entry. -/

variable {parent i : ℕ} {name : Bytes} {p : List Bytes} {o : Object} {resp : VolumeResponse}

variable (h : Tracks t fs given)
include h

theorem entryResponse (hi : fs.toInner parent = some i) (hp : t.DirAt p i)
    (ho : t.node (p ++ [name]) = some o) (hutf8 : isUtf8 name = true)
    (hresp : resp = .entry ⟨o.ino⟩ ∨ ∃ fh, resp = .created ⟨o.ino⟩ fh) :
    Extends t given resp (fs.remapEntryResponse parent name resp) := by
  obtain ⟨hrec, d, hd, hdir⟩ := h.dirAt hi hp
  have hreg := @register _ _ _ _ h parent p name o d
  have hout := (RemapFs.registered fs parent name o.ino)
  rcases hresp with rfl | ⟨fh, rfl⟩
  all_goals
    simp only [RemapFs.remapEntryResponse]
    generalize fs.registerEntry parent name o.ino = out at hreg hout
    obtain ⟨_ | n, fs'⟩ := out
    · cases hout
      exact .same h
    · refine ⟨_, hreg hrec hd hdir ho hutf8 rfl, Set.subset_insert _ _, fun m o' hm => ?_⟩
      rcases hm with heq | hm
      · cases heq
        exact .inr ⟨mem_singleton.mpr rfl, p ++ [name], ho⟩
      · exact .inl hm

omit h in
theorem not_recorded (h : fs.Unrecorded (fs.entryPath parent name)) (hp : fs.recorded parent = some p)
    (hutf8 : isUtf8 name = true) (hname : GoodName name) (n : ℕ) : fs.recorded n ≠ some (p ++ [name]) := by
  intro hn
  apply h n
  exact lookup_of_recorded hn (RemapFs.segments_entryPath hp hutf8 hname)

theorem put (hp : fs.recorded parent = some p) (hutf8 : isUtf8 name = true)
    (hfree : t.node (p ++ [name]) = none) (ht : t'.node = update t.node (p ++ [name]) (some o))
    (hun : fs.Unrecorded (fs.entryPath parent name)) (ho : t.Linked o ∨ fs.toStable o.ino = none) :
    Tracks t' fs given := by
  have hname : GoodName name := t'.goodName p name o (by rw [ht, update_self])
  refine h.of_ledger rfl rfl (fun n => Iff.rfl) (h.ledger.put ht hfree (not_recorded hun hp hutf8 hname) ?_)
  rcases ho with ho | ho
  · exact .inl ho
  · right
    intro n o' hn heq
    have hstable := (h.bijective o'.ino n).mpr (h.numbers n o' hn)
    simp [heq, ho] at hstable

theorem putResponse (hi : fs.toInner parent = some i) (hp : t.DirAt p i)
    (hutf8 : isUtf8 name = true) (hfree : t.node (p ++ [name]) = none)
    (ht : t'.node = update t.node (p ++ [name]) (some o)) (hun : fs.Unrecorded (fs.entryPath parent name))
    (ho : t.Linked o ∨ fs.toStable o.ino = none) (hresp : resp = .entry ⟨o.ino⟩ ∨ ∃ fh, resp = .created ⟨o.ino⟩ fh) :
    Extends t' given resp (fs.remapEntryResponse parent name resp) := by
  have hput := h.put (h.dirAt hi hp).1 hutf8 hfree ht hun ho
  have hdir : t'.DirAt p i := by
    obtain ⟨d, hd, hdir⟩ := hp
    refine ⟨d, ?_, hdir⟩
    rw [ht, update_of_ne (by simp), hd]
  refine hput.entryResponse hi hdir ?_ hutf8 hresp
  rw [ht, update_self]

theorem removed (ho : t.node (p ++ [name]) = some o) (ht : t'.node = update t.node (p ++ [name]) none)
    (hlast : ∀ n, fs.recorded n = some (p ++ [name]) → ∀ q, t.node q = some o → q = p ++ [name]) :
    Tracks t' fs given :=
  h.of_ledger rfl rfl (fun _ => Iff.rfl) (h.ledger.remove (by simp) ht ho hlast)

/-! Listings. Each entry may add an object and correct a recorded path; the directory itself stays where it is. -/

variable {dir : ℕ} {b : Bytes}

variable (hi : fs.toInner dir = some i)
include hi

variable (hat : t.DirAt (segments slash b) i)
include hat

theorem dirEntry {e : DirEntry} (he : listed t (segments slash b) e.name e.ino) (hutf8 : isUtf8 e.name = true) :
    Tracks t (RemapFs.remapDirEntry dir b fs e).2 given := by
  unfold RemapFs.remapDirEntry
  split
  · exact h
  · split
    · exact h
    · next hdot hdotdot =>
      obtain ⟨o, ho, hino⟩ := (he.resolve_left hdot).resolve_left hdotdot
      dsimp only
      split
      · next n hn =>
        obtain ⟨hrec, d, hd, hdir⟩ := h.dirAt hi hat
        rw [← hino] at hn
        exact h.fixPath hrec hd hdir ho hutf8 (h.object ((h.bijective _ _).mp hn) ho)
      · exact h

theorem dirEntries {entries : List DirEntry} (hentries : ∀ e ∈ entries, listed t (segments slash b) e.name e.ino)
    (hutf8 : ∀ e ∈ entries, isUtf8 e.name = true) :
    Tracks t (RemapFs.remapEntries (RemapFs.remapDirEntry dir b) fs entries).2 given := by
  induction entries generalizing fs with
  | nil => exact h
  | cons e entries ih =>
    rw [forall_mem_cons] at hentries hutf8
    have hstep := h.dirEntry hi hat hentries.1 hutf8.1
    exact ih hstep ((RemapFs.MapStep.remapDirEntry dir b fs e).toInner dir i hi) hentries.2 hutf8.2

theorem dirEntryPlus
    {e : DirEntryPlus} (he : listed t (segments slash b) e.name e.attr.ino) (hutf8 : isUtf8 e.name = true) :
    ∃ given', Tracks t (RemapFs.remapDirEntryPlus dir b fs e).2 given' ∧ given ⊆ given' ∧
      ∀ n o, (n, o) ∈ given' → (n, o) ∈ given ∨
        o.ino = e.attr.ino ∧ n = (RemapFs.remapDirEntryPlus dir b fs e).1.attr.ino ∧ t.Linked o := by
  unfold RemapFs.remapDirEntryPlus
  split
  · exact ⟨given, h, subset_rfl, fun _ _ hn => .inl hn⟩
  · next hdot =>
    split
    · split
      · exact ⟨given, h, subset_rfl, fun _ _ hn => .inl hn⟩
      · exact ⟨given, h, subset_rfl, fun _ _ hn => .inl hn⟩
    · next hdotdot =>
      obtain ⟨o, ho, hino⟩ := (he.resolve_left hdot).resolve_left hdotdot
      obtain ⟨hrec, d, hd, hdir⟩ := h.dirAt hi hat
      rw [← hino]
      have hreg := @register _ _ _ _ h dir (segments slash b) e.name o d
      have hout := RemapFs.registered fs dir e.name o.ino
      generalize fs.registerEntry dir e.name o.ino = out at hreg hout
      obtain ⟨_ | n, fs'⟩ := out
      · cases hout
        exact ⟨given, h, subset_rfl, fun _ _ hn => .inl hn⟩
      · have hadded := hreg hrec hd hdir ho hutf8 rfl
        obtain ⟨hrec', d', hd', hdir'⟩ := hadded.dirAt (hout.step.1.toInner dir i hi) hat
        refine ⟨_, hadded.fixPath hrec' hd' hdir' ho hutf8 (Set.mem_insert _ _), Set.subset_insert _ _,
          fun m o' hm => ?_⟩
        rcases hm with heq | hm
        · cases heq
          exact .inr ⟨rfl, rfl, _, ho⟩
        · exact .inl hm

theorem dirEntriesPlus
    {entries : List DirEntryPlus} (hentries : ∀ e ∈ entries, listed t (segments slash b) e.name e.attr.ino)
    (hutf8 : ∀ e ∈ entries, isUtf8 e.name = true) :
    ∃ given', Tracks t (RemapFs.remapEntries (RemapFs.remapDirEntryPlus dir b) fs entries).2 given' ∧ given ⊆ given' ∧
      ∀ n o, (n, o) ∈ given' → (n, o) ∈ given ∨ t.Linked o ∧
        ∃ e ∈ entries.zip (RemapFs.remapEntries (RemapFs.remapDirEntryPlus dir b) fs entries).1,
          o.ino = e.1.attr.ino ∧ n = e.2.attr.ino := by
  induction entries generalizing fs given with
  | nil => exact ⟨given, h, subset_rfl, fun _ _ hn => .inl hn⟩
  | cons e entries ih =>
    rw [forall_mem_cons] at hentries hutf8
    obtain ⟨given₁, h₁, hsub₁, hnew₁⟩ := h.dirEntryPlus hi hat hentries.1 hutf8.1
    obtain ⟨given₂, h₂, hsub₂, hnew₂⟩ :=
      ih h₁ ((RemapFs.MapStep.remapDirEntryPlus dir b fs e).toInner dir i hi) hentries.2 hutf8.2
    refine ⟨given₂, h₂, hsub₁.trans hsub₂, fun n o hn => ?_⟩
    rcases hnew₂ n o hn with hn | ⟨hlinked, e', he', hshown⟩
    · rcases hnew₁ n o hn with hn | ⟨hino, hnum, hlinked⟩
      · exact .inl hn
      · exact .inr ⟨hlinked, _, mem_cons_self, hino, hnum⟩
    · exact .inr ⟨hlinked, e', mem_cons_of_mem _ he', hshown⟩

end Tracks

end Fcvm.Remap
