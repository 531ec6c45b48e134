import Fcvm.Remap.Model

namespace Fcvm.Remap

open List

namespace RemapFs

variable {T : Type}

variable (fs : RemapFs T)

def Bijective : Prop := ∀ i n, fs.toStable i = some n ↔ fs.toInner n = some i

theorem Bijective.insert {fs fs' : RemapFs T} {i n : ℕ} (hb : fs.Bijective) (hi : fs.toStable i = none)
    (hn : fs.toInner n = none) (hs : fs'.innerToStable = fs.innerToStable.insert i n)
    (ht : fs'.stableToInner = fs.stableToInner.insert n i) : fs'.Bijective := by
  intro j m
  simp only [toStable, toInner, hs, ht]
  by_cases hj : j = i <;> by_cases hm : m = n
  · subst hj hm
    simp only [AList.lookup_insert]
  · subst hj
    rw [AList.lookup_insert, AList.lookup_insert_ne hm]
    constructor
    · rintro ⟨⟩
      exact absurd rfl hm
    · intro he
      have := (hb j m).mpr he
      cases hi.symm.trans this
  · subst hm
    rw [AList.lookup_insert, AList.lookup_insert_ne hj]
    constructor
    · intro he
      have := (hb j m).mp he
      cases hn.symm.trans this
    · rintro ⟨⟩
      exact absurd rfl hj
  · rw [AList.lookup_insert_ne hj, AList.lookup_insert_ne hm]
    exact hb j m

structure MapStep (fs fs' : RemapFs T) : Prop where
  inner : fs'.inner = fs.inner
  remap : fs'.handleRemap = fs.handleRemap
  base : fs'.handleBase = fs.handleBase
  highest : fs'.maxGuestHandle = fs.maxGuestHandle
  toStable : ∀ i n, fs.toStable i = some n → fs'.toStable i = some n
  toInner : ∀ n i, fs.toInner n = some i → fs'.toInner n = some i
  bijective : fs.Bijective → fs'.Bijective

theorem MapStep.refl : MapStep fs fs :=
  ⟨rfl, rfl, rfl, rfl, fun _ _ h => h, fun _ _ h => h, id⟩

theorem MapStep.trans {fs₁ fs₂ fs₃ : RemapFs T} (h : MapStep fs₁ fs₂) (h' : MapStep fs₂ fs₃) : MapStep fs₁ fs₃ :=
  ⟨h'.inner.trans h.inner, h'.remap.trans h.remap, h'.base.trans h.base, h'.highest.trans h.highest,
    fun i n hn => h'.toStable i n (h.toStable i n hn), fun n i hi => h'.toInner n i (h.toInner n i hi),
    fun hb => h'.bijective (h.bijective hb)⟩

theorem MapStep.paths (paths : DashMap ℕ Bytes) : MapStep fs { fs with paths := paths } :=
  ⟨rfl, rfl, rfl, rfl, fun _ _ h => h, fun _ _ h => h, id⟩

theorem freeStable_free {fs : RemapFs T} {path : Bytes} {n : ℕ} (h : fs.freeStable path = some n) :
    fs.toInner n = none ∧ n ≠ 1 := by
  simp only [freeStable] at h
  split at h
  · next hfree =>
    cases h
    refine ⟨hfree, ?_⟩
    simp only [pathHash]
    split <;> omega
  · obtain ⟨i, hi, rfl⟩ := Option.map_eq_some_iff.mp h
    have hfound := find?_some hi
    simp only [decide_eq_true_eq] at hfound
    exact ⟨hfound.2, by omega⟩

/-- What registering an entry does: nothing when the inode is known or no number is free, and otherwise one new
mapping under a number that was free. -/
inductive Registered (fs : RemapFs T) (parent : ℕ) (name : Bytes) (i : ℕ) : Option ℕ × RemapFs T → Prop
  | known {n : ℕ} (h : fs.toStable i = some n) : Registered fs parent name i (some n, fs)
  | full (h : fs.toStable i = none) (hfree : fs.freeStable (fs.entryPath parent name) = none) :
    Registered fs parent name i (none, fs)
  | added {n : ℕ} (h : fs.toStable i = none) (hfree : fs.freeStable (fs.entryPath parent name) = some n) :
    Registered fs parent name i (some n, { fs with
      innerToStable := fs.innerToStable.insert i n
      stableToInner := fs.stableToInner.insert n i
      paths := fs.paths.insert n (fs.entryPath parent name) })

theorem registered (parent : ℕ) (name : Bytes) (i : ℕ) :
    Registered fs parent name i (fs.registerEntry parent name i) := by
  simp only [registerEntry]
  split
  · exact .known ‹_›
  · next hnone =>
    split
    · exact .full hnone ‹_›
    · exact .added hnone ‹_›

theorem Registered.step {fs : RemapFs T} {parent : ℕ} {name : Bytes} {i : ℕ} {out : Option ℕ × RemapFs T}
    (h : Registered fs parent name i out) :
    MapStep fs out.2 ∧ ∀ n, out.1 = some n → out.2.toStable i = some n := by
  cases h with
  | known h =>
    refine ⟨.refl fs, fun n hn => ?_⟩
    cases hn
    exact h
  | full => exact ⟨.refl fs, nofun⟩
  | @added n hnew hfree =>
    have hfree := (freeStable_free hfree).1
    refine ⟨⟨rfl, rfl, rfl, rfl, ?_, ?_, ?_⟩, ?_⟩
    · intro j m hj
      have hne : j ≠ i := by
        rintro rfl
        cases hnew.symm.trans hj
      exact (AList.lookup_insert_ne hne).trans hj
    · intro m j hm
      have hne : m ≠ n := by
        rintro rfl
        cases hfree.symm.trans hm
      exact (AList.lookup_insert_ne hne).trans hm
    · exact fun hb => hb.insert hnew hfree rfl rfl
    · intro m hm
      cases hm
      exact AList.lookup_insert _

theorem MapStep.fixPath (n : ℕ) (path : Bytes) : MapStep fs (fs.fixPath n path) := by
  unfold RemapFs.fixPath
  split
  · split
    · exact .refl fs
    · exact .paths fs _
  · exact .refl fs

theorem MapStep.handleRenamePaths (scan : PathScan) (fs : RemapFs T) (parent : ℕ) (name : Bytes) (newparent : ℕ)
    (newname : Bytes) (flags : ℕ) : MapStep fs (fs.handleRenamePaths scan parent name newparent newname flags) := by
  unfold RemapFs.handleRenamePaths
  dsimp only
  split
  · exact .paths fs _
  · split
    · exact .paths fs _
    · exact .refl fs

theorem MapStep.remapEntries {E : Type} {f : RemapFs T → E → E × RemapFs T} (hf : ∀ fs e, MapStep fs (f fs e).2)
    (fs : RemapFs T) (entries : List E) : MapStep fs (RemapFs.remapEntries f fs entries).2 := by
  induction entries generalizing fs with
  | nil => exact .refl fs
  | cons e entries ih => exact (hf fs e).trans (ih _)

theorem MapStep.remapDirEntry (dir : ℕ) (path : Bytes) (fs : RemapFs T) (e : DirEntry) :
    MapStep fs (RemapFs.remapDirEntry dir path fs e).2 := by
  unfold RemapFs.remapDirEntry
  split
  · exact .refl fs
  · split
    · exact .refl fs
    · dsimp only
      split
      · exact .fixPath fs _ _
      · exact .refl fs

theorem MapStep.remapDirEntryPlus (dir : ℕ) (path : Bytes) (fs : RemapFs T) (e : DirEntryPlus) :
    MapStep fs (RemapFs.remapDirEntryPlus dir path fs e).2 := by
  unfold RemapFs.remapDirEntryPlus
  split
  · exact .refl fs
  · split
    · split
      · exact .refl fs
      · exact .refl fs
    · have hr := (registered fs dir e.name e.attr.ino).step.1
      split
      · next heq =>
        rw [heq] at hr
        exact hr.trans (.fixPath _ _ _)
      · next heq =>
        rw [heq] at hr
        exact hr

theorem MapStep.remapEntryResponse (parent : ℕ) (name : Bytes) (resp : VolumeResponse) :
    MapStep fs (fs.remapEntryResponse parent name resp).2 := by
  have hr : ∀ i, MapStep fs (fs.registerEntry parent name i).2 := fun i => (registered fs parent name i).step.1
  cases resp with
  | entry attr | created attr _ =>
    have hr := hr attr.ino
    simp only [RemapFs.remapEntryResponse]
    split
    · next heq => rwa [heq] at hr
    · next heq => rwa [heq] at hr
  | _ => exact .refl fs

theorem MapStep.remapResponse (scan : PathScan) (fs : RemapFs T) (req : VolumeRequest) (resp : VolumeResponse) :
    MapStep fs (fs.remapResponse scan req resp).2 := by
  unfold RemapFs.remapResponse
  split
  · exact .refl fs
  · split
    case h_9 =>
      unfold remapReaddirResponse
      split
      · exact .remapEntries (MapStep.remapDirEntry _ _) _ _
      · exact .refl fs
    case h_10 =>
      unfold remapReaddirplusResponse
      split
      · exact .remapEntries (MapStep.remapDirEntryPlus _ _) _ _
      · exact .refl fs
    case h_11 => exact .handleRenamePaths scan fs _ _ _ _ _
    all_goals first | exact .remapEntryResponse fs _ _ _ | exact .refl fs

variable [FilesystemHandler T]

omit [FilesystemHandler T] in
theorem guestHandleResponse_frame (resp : VolumeResponse) :
    ∃ highest, (fs.guestHandleResponse resp).2 = { fs with maxGuestHandle := highest } := by
  unfold guestHandleResponse
  split
  · exact ⟨_, rfl⟩
  · split
    · exact ⟨_, rfl⟩
    · split
      · exact ⟨_, rfl⟩
      · exact ⟨_, rfl⟩

def Opens (i : ℕ) : VolumeRequest → Prop
  | .open ino _ | .opendir ino => ino = i
  | _ => False

theorem openFirst_made (i : ℕ) (t : Recorded T) (flags : List ℕ) :
    ∃ made, (openFirst i t flags).2.calls = made ++ t.calls ∧ (∀ c ∈ made, Opens i c.1) ∧
      ∃ c ∈ made, c.2 = (openFirst i t flags).1 := by
  induction flags generalizing t with
  | nil =>
    refine ⟨[(.open i O_RDONLY, (handleRequest t (.open i O_RDONLY)).1)], rfl, ?_, ?_⟩
    · intro c hc
      rw [mem_singleton.mp hc]
      rfl
    · exact ⟨_, mem_singleton_self _, rfl⟩
  | cons f flags ih =>
    simp only [openFirst]
    split
    · obtain ⟨made, hcalls, hopens, c, hc, hresp⟩ := ih (handleRequest t (.open i f)).2
      refine ⟨made ++ [(.open i f, (handleRequest t (.open i f)).1)], ?_, ?_, c, mem_append_left _ hc, hresp⟩
      · rw [hcalls, append_assoc]
        rfl
      · intro c hc
        rcases mem_append.mp hc with hc | hc
        · exact hopens c hc
        · rw [mem_singleton.mp hc]
          rfl
    · refine ⟨[(.open i f, (handleRequest t (.open i f)).1)], rfl, ?_, _, mem_singleton_self _, rfl⟩
      intro c hc
      rw [mem_singleton.mp hc]
      rfl

/-- What turning guest handle `g`, named with stable inode `n`, into an inner handle does. -/
inductive InnerHandle (fs : RemapFs (Recorded T)) (g : ℕ) (n : Option ℕ) :
    Option ℕ × RemapFs (Recorded T) → Prop
  | zero (h : g = 0) : InnerHandle fs g n (some 0, fs)
  | current (h : g ≠ 0) (hs : fs.isStaleHandle g = false) : InnerHandle fs g n (some (g - fs.handleBase), fs)
  | remembered {x : ℕ} (hs : fs.isStaleHandle g = true) (h : fs.handleRemap.lookup g = some x) :
    InnerHandle fs g n (some x, fs)
  | refused {inner : Recorded T} {made : List (VolumeRequest × VolumeResponse)} (hs : fs.isStaleHandle g = true)
    (hcalls : inner.calls = made ++ fs.inner.calls)
    (hopens : ∀ c ∈ made, ∃ m i, n = some m ∧ fs.toInner m = some i ∧ Opens i c.1) :
    InnerHandle fs g n (none, { fs with inner := inner })
  | reopened {inner : Recorded T} {made : List (VolumeRequest × VolumeResponse)} {m i x : ℕ}
    (hs : fs.isStaleHandle g = true) (hn : n = some m) (hi : fs.toInner m = some i)
    (hcalls : inner.calls = made ++ fs.inner.calls) (hopens : ∀ c ∈ made, Opens i c.1)
    (hx : ∃ c ∈ made, reopenedAs c.2 = some x) :
    InnerHandle fs g n (some x, { fs with inner := inner, handleRemap := fs.handleRemap.insert g x })

theorem innerHandle_spec (fs : RemapFs (Recorded T)) (g : ℕ) (n : Option ℕ) (isDir : Bool) :
    InnerHandle fs g n (fs.innerHandle g n isDir) := by
  unfold innerHandle
  split
  · exact .zero ‹_›
  next h0 =>
  cases hs : fs.isStaleHandle g
  case false => exact .current h0 hs
  rw [Bool.not_true, if_neg Bool.false_ne_true]
  cases hg : fs.handleRemap.lookup g
  case some x => exact .remembered hs hg
  obtain _ | m := n
  · exact @InnerHandle.refused _ fs g none fs.inner [] hs rfl nofun
  dsimp only
  unfold tryReopenHandle
  rw [hg]
  dsimp only
  rcases hm : fs.toInner m with _ | i
  · exact @InnerHandle.refused _ fs g (some m) fs.inner [] hs rfl nofun
  dsimp only
  have hmade : ∃ made, (if isDir then handleRequest fs.inner (.opendir i)
      else openFirst i fs.inner [O_RDWR, O_RDONLY, O_WRONLY]).2.calls = made ++ fs.inner.calls ∧
      (∀ c ∈ made, Opens i c.1) ∧ ∃ c ∈ made, c.2 = (if isDir then handleRequest fs.inner (.opendir i)
      else openFirst i fs.inner [O_RDWR, O_RDONLY, O_WRONLY]).1 := by
    cases isDir with
    | true =>
      refine ⟨[(.opendir i, (handleRequest fs.inner (.opendir i)).1)], rfl, ?_, _, mem_singleton_self _, rfl⟩
      intro c hc
      rw [mem_singleton.mp hc]
      rfl
    | false => exact openFirst_made i fs.inner _
  generalize (if isDir then handleRequest fs.inner (.opendir i)
      else openFirst i fs.inner [O_RDWR, O_RDONLY, O_WRONLY]) = opened at hmade
  obtain ⟨made, hcalls, hopens, c, hc, hresp⟩ := hmade
  cases hr : reopenedAs opened.1 with
  | none => exact .refused hs hcalls fun c hc => ⟨m, i, rfl, hm, hopens c hc⟩
  | some x => exact .reopened hs rfl hm hcalls hopens ⟨c, hc, hresp ▸ hr⟩

inductive Served (scan : PathScan) (fs : RemapFs (Recorded T)) (req : VolumeRequest) (groups : List ℕ) :
    VolumeResponse × RemapFs (Recorded T) → Prop
  | unknown (h : fs.remapRequestInodes req = none) : Served scan fs req groups (.ioError, fs)
  | released {r : VolumeRequest} {g : ℕ} (hr : fs.remapRequestInodes req = some r)
    (hs : fs.staleRelease req = some g) : Served scan fs req groups (fs.releaseStale r g groups)
  | badFh {r : VolumeRequest} {fs₁ : RemapFs (Recorded T)} (hr : fs.remapRequestInodes req = some r)
    (hs : fs.staleRelease req = none) (h : fs.remapFh req r = (none, fs₁)) :
    Served scan fs req groups (.error EBADF, fs₁)
  | badFhOut {r r₁ : VolumeRequest} {fs₁ fs₂ : RemapFs (Recorded T)} (hr : fs.remapRequestInodes req = some r)
    (hs : fs.staleRelease req = none) (h : fs.remapFh req r = (some r₁, fs₁))
    (h' : fs₁.remapFhOut req r₁ = (none, fs₂)) : Served scan fs req groups (.error EBADF, fs₂)
  | delegated {r r₁ r₂ : VolumeRequest} {fs₁ fs₂ : RemapFs (Recorded T)} (hr : fs.remapRequestInodes req = some r)
    (hs : fs.staleRelease req = none) (h : fs.remapFh req r = (some r₁, fs₁))
    (h' : fs₁.remapFhOut req r₁ = (some r₂, fs₂)) :
    Served scan fs req groups (fs₂.delegate scan req r₂ groups)

theorem served (scan : PathScan) (fs : RemapFs (Recorded T)) (req : VolumeRequest) (groups : List ℕ) :
    Served scan fs req groups (fs.handleRequestWithGroups scan req groups) := by
  unfold handleRequestWithGroups
  split
  · exact .unknown ‹_›
  next r hr =>
  split
  · exact .released hr ‹_›
  next hs =>
  split
  · exact .badFh hr hs ‹_›
  next h =>
  split
  · exact .badFhOut hr hs h ‹_›
  next h' => exact .delegated hr hs h h'

end RemapFs

end Fcvm.Remap
