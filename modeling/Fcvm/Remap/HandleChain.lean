import Fcvm.Remap.Handles

namespace Fcvm.Remap

open Library List

namespace RemapFs

variable {T : Type}

structure HandleFacts (fs : RemapFs (Recorded T)) (req : VolumeRequest)
    (made : List (VolumeRequest × VolumeResponse)) (out : VolumeResponse × RemapFs (Recorded T)) : Prop where
  calls : out.2.inner.calls = made ++ fs.inner.calls
  passes : ∀ c ∈ made, ∀ g x, req.Passes c.1 g x → Resolved fs req made g x
  remap : ∀ g x, out.2.handleRemap.lookup g = some x → fs.isStaleHandle g = true ∧ fs.Opened req made g x ∨
    fs.handleRemap.lookup g = some x ∧ (fs.isStaleHandle g = true → ¬(req.releases g = true ∧ out.1 = .ok))
  base : out.2.handleBase = fs.handleBase
  highest : fs.maxGuestHandle ≤ out.2.maxGuestHandle
  gives : ∀ g, out.1.handle = some g → g ≠ 0 → ∃ f c rest, out.2.inner.calls = c :: rest ∧ c.2.handle = some f ∧
    f ≠ 0 ∧ g = f + fs.handleBase ∧ g ≤ out.2.maxGuestHandle

variable {req : VolumeRequest} {made : List (VolumeRequest × VolumeResponse)} {fs fs' : RemapFs (Recorded T)} {g : ℕ}

theorem Prepares.not_passes (h : Prepares req made fs fs') {c : VolumeRequest × VolumeResponse} (hc : c ∈ made)
    (g x : ℕ) : ¬req.Passes c.1 g x := by
  obtain ⟨i, hopen⟩ := h.opens c hc
  rintro (⟨_, hx⟩ | ⟨_, _, _, hx⟩)
  · cases hopen.fh.1.symm.trans hx
  · cases hopen.fh.2.symm.trans hx

theorem Prepares.refused (h : Prepares req made fs fs') (e : ℕ) :
    HandleFacts fs req made (.error e, fs') := by
  refine ⟨h.calls, fun c hc g x hpass => absurd hpass (h.not_passes hc g x), fun g x hx => ?_, h.base, h.highest.ge,
    nofun⟩
  · rcases h.remap g x hx with hx | hx
    · exact .inr ⟨hx, fun _ hok => by cases hok.2⟩
    · exact .inl hx

theorem staleRelease_fh {fs : RemapFs T} (h : fs.staleRelease req = some g) :
    req.fh = some g ∧ req.fhOut = none ∧ fs.isStaleHandle g = true ∧ ∀ g', req.releases g' = true → g' = g := by
  unfold staleRelease at h
  split at h
  case h_3 => cases h
  all_goals
    split at h
    · next hs =>
      cases h
      exact ⟨rfl, rfl, hs, fun g' hg' => (beq_iff_eq.mp hg').symm⟩
    · cases h

theorem staleRelease_none {fs : RemapFs T} (h : fs.staleRelease req = none)
    (hs : fs.isStaleHandle g = true) : req.releases g = false := by
  unfold VolumeRequest.releases
  split
  case h_3 => rfl
  all_goals
    next fh =>
      by_cases hfh : fh = g
      · subst hfh
        simp only [staleRelease, hs, if_true] at h
        cases h
      · exact beq_false_of_ne hfh

variable [FilesystemHandler T]

theorem Served.handleFacts {scan : PathScan} {groups : List ℕ}
    {out : VolumeResponse × RemapFs (Recorded T)} (h : Served scan fs req groups out) :
    ∃ made, HandleFacts fs req made out := by
  cases h with
  | unknown => exact ⟨[], (Prepares.refl req fs).refused EIO⟩
  | @released r g hr hs =>
    obtain ⟨hfh, hout, hstale, hrel⟩ := staleRelease_fh hs
    unfold releaseStale
    cases hx : fs.handleRemap.lookup g with
    | none =>
      refine ⟨[], rfl, nofun, fun g' x hg' => .inr ⟨hg', fun _ hok => ?_⟩, rfl, Nat.le_refl _,
        nofun⟩
      rw [hrel g' hok.1, hx] at hg'
      cases hg'
    | some x =>
      refine ⟨[_], rfl, fun c hc g' y hpass => ?_, fun g' y hg' => .inr ?_, rfl, Nat.le_refl _,
        nofun⟩
      · rw [mem_singleton.mp hc] at hpass
        rcases hpass with ⟨hg', hy⟩ | ⟨_, _, hg', _⟩
        · cases hfh.symm.trans hg'
          rcases r.fh_withFh x with h | h
          · cases h.symm.trans hy
          · cases h.symm.trans hy
            exact .remembered hstale hx
        · cases hout.symm.trans hg'
      · have hne : g' ≠ g := by
          rintro rfl
          cases (AList.lookup_erase _ _).symm.trans hg'
        exact ⟨(AList.lookup_erase_ne hne).symm.trans hg', fun _ hok => hne (hrel g' hok.1)⟩
  | @badFh r fs₁ hr hs h =>
    obtain ⟨made, hp, _⟩ := remapFh_prepares fs req r
    rw [h] at hp
    exact ⟨made, hp.refused EBADF⟩
  | @badFhOut r r₁ fs₁ fs₂ hr hs h h' =>
    obtain ⟨made, hp, _⟩ := remapFh_prepares fs req r
    obtain ⟨made', hp', _⟩ := remapFhOut_prepares fs₁ req r₁
    rw [h] at hp
    rw [h'] at hp'
    exact ⟨made' ++ made, (hp.trans hp').refused EBADF⟩
  | @delegated r r₁ r₂ fs₁ fs₂ hr hs h h' =>
    obtain ⟨made, hp, hres⟩ := remapFh_prepares fs req r
    obtain ⟨made', hp', hres'⟩ := remapFhOut_prepares fs₁ req r₁
    rw [h] at hp hres
    rw [h'] at hp' hres'
    have hprep := hp.trans hp'
    obtain ⟨hremap, hbase, hhighest⟩ := delegate_frame scan fs₂ req r₂ groups
    have hcalls := delegate_calls scan fs₂ req r₂ groups
    obtain ⟨hfh, hg⟩ := hres r₁ rfl
    obtain ⟨hfh', hg'⟩ := hres' r₂ rfl
    refine ⟨(r₂, (FilesystemHandler.handleRequestWithGroups fs₂.inner r₂ groups).1) :: (made' ++ made), ?_, ?_, ?_,
      hbase.trans hprep.base, hprep.highest.symm.le.trans hhighest, ?_⟩
    · rw [hcalls, hprep.calls]
      rfl
    · intro c hc g x hpass
      rcases mem_cons.mp hc with rfl | hc
      · rcases hpass with ⟨hreq, hx⟩ | ⟨n, i, hreq, hx⟩
        · refine (hg g x hreq (hfh'.symm.trans hx)).mono fun c hc => ?_
          exact mem_cons_of_mem _ (mem_append_right _ hc)
        · exact ((hg' n g i x hreq hx).back hp).mono fun c hc => mem_cons_of_mem _ hc
      · exact absurd hpass (hprep.not_passes hc g x)
    · intro g x hx
      rw [hremap] at hx
      rcases hprep.remap g x hx with hx | hx
      · refine .inr ⟨hx, fun hstale hrel => ?_⟩
        rw [staleRelease_none hs hstale] at hrel
        cases hrel.1
      · exact .inl ⟨hx.1, hx.2.mono (fun _ _ h => h) fun c hc => mem_cons_of_mem _ hc⟩
    · intro g hgive hne
      obtain ⟨f, hf, hf0, hval, hle⟩ := delegate_handle hgive hne
      rw [hprep.base] at hval
      exact ⟨f, _, _, hcalls, hf, hf0, hval, hle⟩

theorem innerHandle_fresh {fs : RemapFs T} (h : fs.isStaleHandle g = false) (n : Option ℕ) (isDir : Bool) :
    fs.innerHandle g n isDir = (some (g - fs.handleBase), fs) := by
  unfold innerHandle
  split
  · next hzero =>
    rw [hzero, Nat.zero_sub]
  · rw [h]
    rfl

theorem passed_on (scan : PathScan) (groups : List ℕ) {r : VolumeRequest}
    (hr : fs.remapRequestInodes req = some r) (hfh : ∀ g, req.fh = some g → fs.isStaleHandle g = false)
    (hout : ∀ n g, req.fhOut = some (n, g) → fs.isStaleHandle g = false) :
    ∃ c, (fs.handleRequestWithGroups scan req groups).2.inner.calls = c :: fs.inner.calls ∧
      (∀ g, req.fh = some g → c.1.fh = some (g - fs.handleBase)) ∧
      ∀ n g, req.fhOut = some (n, g) → ∃ i, c.1.fhOut = some (i, g - fs.handleBase) := by
  obtain ⟨hrfh, hrout⟩ := remapRequestInodes_fh hr
  have hs : fs.staleRelease req = none := by
    cases hs : fs.staleRelease req with
    | none => rfl
    | some g =>
      obtain ⟨hg, _, hstale, _⟩ := staleRelease_fh hs
      rw [hfh g hg] at hstale
      cases hstale
  obtain ⟨r₁, h, hr₁, hr₁out⟩ : ∃ r₁, fs.remapFh req r = (some r₁, fs) ∧
      (∀ g, req.fh = some g → r₁.fh = some (g - fs.handleBase)) ∧ r₁.fhOut = r.fhOut := by
    unfold remapFh
    split
    · next hnone =>
      refine ⟨r, rfl, fun g hg => ?_, rfl⟩
      cases hnone.symm.trans hg
    · next g hg =>
      rw [innerHandle_fresh (hfh g hg)]
      refine ⟨_, rfl, fun g' hg' => ?_, r.fhOut_withFh _⟩
      cases hg.symm.trans hg'
      exact VolumeRequest.fh_withFh_of_some _ (hrfh.trans hg)
  obtain ⟨r₂, h', hr₂, hr₂out⟩ : ∃ r₂, fs.remapFhOut req r₁ = (some r₂, fs) ∧ r₂.fh = r₁.fh ∧
      ∀ n g, req.fhOut = some (n, g) → ∃ i, r₂.fhOut = some (i, g - fs.handleBase) := by
    unfold remapFhOut
    split
    · next hnone =>
      refine ⟨r₁, rfl, rfl, fun n g hg => ?_⟩
      cases hnone.symm.trans hg
    · next n g hg =>
      rw [innerHandle_fresh (hout n g hg)]
      refine ⟨_, rfl, r₁.fh_withFhOut _, fun n' g' hg' => ?_⟩
      cases hg.symm.trans hg'
      rw [hg] at hrout
      obtain ⟨p, hp, _⟩ := Option.map_eq_some_iff.mp hrout
      rw [VolumeRequest.fhOut_withFhOut, hr₁out, hp]
      exact ⟨p.1, rfl⟩
  refine ⟨(r₂, (FilesystemHandler.handleRequestWithGroups fs.inner r₂ groups).1), ?_,
    fun g hg => hr₂.trans (hr₁ g hg), hr₂out⟩
  simp only [handleRequestWithGroups, hr, hs, h, h']
  exact delegate_calls scan fs req r₂ groups

/-! The base a restored server numbers its handles above. -/

omit [FilesystemHandler T] in
theorem table_ordered (fs : RemapFs T) : fs.table.Pairwise (·.1 < ·.1) := by
  let byStable : ℕ × Bytes → ℕ × Bytes → Prop := fun a b => a.1 ≤ b.1
  have _ : Std.Total byStable := ⟨fun a b => Nat.le_total a.1 b.1⟩
  have _ : IsTrans (ℕ × Bytes) byStable := ⟨fun _ _ _ h h' => Nat.le_trans h h'⟩
  have hsorted : fs.table.Pairwise byStable := pairwise_insertionSort byStable _
  have hkeys : (fs.table.map Prod.fst).Nodup := by
    have hperm := (perm_insertionSort byStable (fs.paths.entries.map fun e => (e.1, e.2))).map Prod.fst
    rw [map_map] at hperm
    exact hperm.nodup_iff.mpr fs.paths.nodupKeys
  rw [List.Nodup, pairwise_map] at hkeys
  exact hsorted.imp₂ (fun _ _ hle hne => Nat.lt_of_le_of_ne hle hne) hkeys

theorem foldl_restoreEntry_frame (table : List (ℕ × Bytes)) (fs : RemapFs T) :
    (table.foldl restoreEntry fs).handleRemap = fs.handleRemap := by
  induction table generalizing fs with
  | nil => rfl
  | cons entry table ih =>
    rw [foldl_cons, ih]
    unfold restoreEntry
    split
    · rfl
    · split <;> rfl

omit [FilesystemHandler T] in
theorem parseTable_serializeTable {J : Json} (hJ : J.Lawful) (fs : RemapFs T)
    (hle : max fs.maxGuestHandle fs.handleBase ≤ MAX_HANDLE_BASE) :
    parseTable J (fs.serializeTable J) = (max fs.maxGuestHandle fs.handleBase, fs.table) := by
  have hlt : max fs.maxGuestHandle fs.handleBase < 2 ^ 64 := Nat.lt_of_le_of_lt hle (by decide)
  obtain ⟨v, b, p, hv, hb, hbase, hp, htable⟩ := hJ.written _ _ hlt fs.table_ordered
  simp only [parseTable, serializeTable, hv, tableParts, hp, hb, Option.bind_some, hbase, Option.getD_some, htable]
  rw [if_neg (Nat.not_lt.mpr hle)]

end RemapFs

variable {T : Type} [FilesystemHandler T]

/-- A chain of servers: the current one, what it has served and the handles it gave out with the inner handles they
stand for, and the handles its predecessors gave out. -/
structure Chain (T : Type) where
  fs : RemapFs (Recorded T)
  issued : List (ℕ × ℕ)
  served : List (VolumeRequest × VolumeResponse)
  earlier : List ℕ

inductive Chain.Act (T : Type) where
  | serve (req : VolumeRequest) (groups : List ℕ)
  | restore (inner : T)

def givenBy (reply : VolumeResponse) (fs : RemapFs (Recorded T)) : List (ℕ × ℕ) :=
  match reply.handle with
  | none | some 0 => []
  | some g => [(g, (fs.inner.calls.head?.bind fun c => c.2.handle).getD 0)]

def chain (T : Type) [FilesystemHandler T] (scan : PathScan) (J : Json) : System (Chain T) (Chain.Act T) where
  initial s := ∃ t : T, s = ⟨.new ⟨t, []⟩, [], [], []⟩
  next s
    | .serve req groups =>
      let (reply, fs) := s.fs.handleRequestWithGroups scan req groups
      some { s with fs := fs, issued := givenBy reply fs ++ s.issued, served := (req, reply) :: s.served }
    | .restore inner => some {
        fs := .restoreFromTable J ⟨inner, []⟩ (s.fs.serializeTable J)
        issued := []
        served := []
        earlier := s.issued.map Prod.fst ++ s.earlier }

namespace Chain

def belowLimit (s : Chain T) : Act T → Bool
  | .serve .. => true
  | .restore _ => max s.fs.maxGuestHandle s.fs.handleBase ≤ MAX_HANDLE_BASE

/-- A request the current server served had handle `g` reopened as `x` for the inode it named it with, and `g` was
not released since. -/
def ReopenedBefore (s : Chain T) (g x : ℕ) : Prop :=
  ∃ newer q older, s.served = newer ++ q :: older ∧ s.fs.Opened q.1 s.fs.inner.calls g x ∧
    ∀ r ∈ newer, ¬(r.1.releases g = true ∧ r.2 = .ok)

structure Inv (s : Chain T) : Prop where
  earlier : ∀ g ∈ s.earlier, g ≠ 0 ∧ g ≤ s.fs.handleBase
  issued : ∀ g f, (g, f) ∈ s.issued → f ≠ 0 ∧ g = f + s.fs.handleBase ∧ g ≤ s.fs.maxGuestHandle
  remap : ∀ g x, s.fs.handleRemap.lookup g = some x → s.fs.isStaleHandle g = true ∧ s.ReopenedBefore g x

variable {s : Chain T}

theorem Inv.serve {scan : PathScan} (hs : s.Inv) (req : VolumeRequest) (groups : List ℕ) :
    Inv { s with
      fs := (s.fs.handleRequestWithGroups scan req groups).2
      issued := givenBy (s.fs.handleRequestWithGroups scan req groups).1
        (s.fs.handleRequestWithGroups scan req groups).2
        ++ s.issued
      served := (req, (s.fs.handleRequestWithGroups scan req groups).1) :: s.served } := by
  have hserved := RemapFs.served scan s.fs req groups
  generalize s.fs.handleRequestWithGroups scan req groups = out at hserved
  obtain ⟨made, hfacts⟩ := hserved.handleFacts
  have hgrows := hserved.grows
  have hmem : ∀ c ∈ s.fs.inner.calls, c ∈ out.2.inner.calls := by
    intro c hc
    rw [hfacts.calls]
    exact mem_append_right _ hc
  constructor
  · exact fun g hg => hfacts.base ▸ hs.earlier g hg
  · intro g f hgf
    rcases mem_append.mp hgf with hgf | hgf
    · unfold givenBy at hgf
      split at hgf
      · cases hgf
      · cases hgf
      · next g' hne hgive =>
        cases mem_singleton.mp hgf
        obtain ⟨f, c, rest, hcalls, hf, hf0, hval, hle⟩ := hfacts.gives g hgive hne
        simp only [hcalls, List.head?_cons, Option.bind_some, hf, Option.getD_some]
        exact ⟨hf0, hfacts.base ▸ hval, hle⟩
    · obtain ⟨hf0, hval, hle⟩ := hs.issued g f hgf
      exact ⟨hf0, hfacts.base ▸ hval, Nat.le_trans hle hfacts.highest⟩
  · intro g x hx
    have hstale := RemapFs.isStaleHandle_congr hfacts.base g
    rcases hfacts.remap g x hx with ⟨hst, hopen⟩ | ⟨hx, hkept⟩
    · refine ⟨hstale.trans hst, [], (req, out.1), s.served, rfl, hopen.mono hgrows.toInner fun c hc => ?_,
        nofun⟩
      rw [hfacts.calls]
      exact mem_append_left _ hc
    · obtain ⟨hst, newer, q, older, hserved, hopen, hrel⟩ := hs.remap g x hx
      refine ⟨hstale.trans hst, (req, out.1) :: newer, q, older, by rw [hserved]; rfl, ?_, ?_⟩
      · exact hopen.mono hgrows.toInner hmem
      · intro r hr
        rcases mem_cons.mp hr with rfl | hr
        · exact hkept hst
        · exact hrel r hr

theorem Inv.restore {J : Json} (hJ : J.Lawful) (hs : s.Inv) (inner : T)
    (hle : max s.fs.maxGuestHandle s.fs.handleBase ≤ MAX_HANDLE_BASE) : Inv {
      fs := .restoreFromTable J (⟨inner, []⟩ : Recorded T) (s.fs.serializeTable J)
      issued := []
      served := []
      earlier := s.issued.map Prod.fst ++ s.earlier } := by
  have hbase : (RemapFs.restoreFromTable J (⟨inner, []⟩ : Recorded T) (s.fs.serializeTable J)).handleBase =
      max (max s.fs.maxGuestHandle s.fs.handleBase) 1 := by
    unfold RemapFs.restoreFromTable
    rw [RemapFs.parseTable_serializeTable hJ s.fs hle]
  have hremap : (RemapFs.restoreFromTable J (⟨inner, []⟩ : Recorded T) (s.fs.serializeTable J)).handleRemap = ∅ :=
    RemapFs.foldl_restoreEntry_frame _ _
  refine ⟨fun g hg => ?_, nofun, fun g x hx => ?_⟩
  · rw [hbase]
    rcases mem_append.mp hg with hg | hg
    · obtain ⟨⟨g', f⟩, hgf, rfl⟩ := mem_map.mp hg
      obtain ⟨hf0, hval, hle⟩ := hs.issued g' f hgf
      dsimp only
      omega
    · obtain ⟨hg0, hle⟩ := hs.earlier g hg
      omega
  · rw [hremap] at hx
    cases hx

theorem inv_reachable {scan : PathScan} {J : Json} (hJ : J.Lawful)
    (h : ((chain T scan J).restrict belowLimit).Reachable s) : s.Inv := by
  refine h.invariant (P := Inv) ?_ ?_
  · rintro s ⟨t, rfl⟩
    exact ⟨nofun, nofun, nofun⟩
  · intro s a s' hs hnext
    obtain ⟨hlimit, hnext⟩ := System.restrict_next hnext
    cases a with
    | serve req groups =>
      cases hnext
      exact hs.serve req groups
    | restore inner =>
      cases hnext
      exact hs.restore hJ inner (of_decide_eq_true hlimit)

omit [FilesystemHandler T] in
theorem Inv.fresh (hs : s.Inv) {g f : ℕ} (h : (g, f) ∈ s.issued) :
    g ∉ s.earlier ∧ g ≠ 0 ∧ s.fs.isStaleHandle g = false ∧ g - s.fs.handleBase = f := by
  obtain ⟨hf0, hval, _⟩ := hs.issued g f h
  refine ⟨fun hg => ?_, by omega, ?_, by omega⟩
  · have := (hs.earlier g hg).2
    omega
  · have hlt : ¬g ≤ s.fs.handleBase := by omega
    simp [RemapFs.isStaleHandle, hlt]

omit [FilesystemHandler T] in
theorem Inv.stale (hs : s.Inv) {g : ℕ} (h : g ∈ s.earlier) : s.fs.isStaleHandle g = true := by
  obtain ⟨hg0, hle⟩ := hs.earlier g h
  have hbase : 0 < s.fs.handleBase := by omega
  simp [RemapFs.isStaleHandle, hg0, hbase, hle]

end Chain

/-- Handles over any chain of restores whose tables carry a base within the limit: no server gives out a handle of an
earlier one; a handle of the current server is passed on as the inner handle it stands for, and the request is passed
on if its inodes have mappings and its other handle is no stale one; a handle of an earlier server is passed on only
as one that the inner server gave for an open of the inode the handle was named with, by this request or by the one
that had it reopened. -/
theorem guest_handles_over_restores {scan : PathScan} {J : Json} (hJ : J.Lawful) {s : Chain T}
    (h : ((chain T scan J).restrict Chain.belowLimit).Reachable s) :
    (∀ g f, (g, f) ∈ s.issued → g ∉ s.earlier) ∧
      ∀ req groups, ∃ made, (s.fs.handleRequestWithGroups scan req groups).2.inner.calls = made ++ s.fs.inner.calls ∧
        (∀ g f, (g, f) ∈ s.issued → ∀ c ∈ made, ∀ x, req.Passes c.1 g x → x = f) ∧
        (∀ g f, (g, f) ∈ s.issued → req.Mentions g → s.fs.remapRequestInodes req ≠ none →
          (∀ g', req.Mentions g' → s.fs.isStaleHandle g' = false) → ∃ c ∈ made, req.Passes c.1 g f) ∧
        ∀ g ∈ s.earlier, ∀ c ∈ made, ∀ x, req.Passes c.1 g x → s.fs.Opened req made g x ∨ s.ReopenedBefore g x := by
  have hinv := Chain.inv_reachable hJ h
  refine ⟨fun g f hgf => (hinv.fresh hgf).1, fun req groups => ?_⟩
  obtain ⟨made, hfacts⟩ := (RemapFs.served scan s.fs req groups).handleFacts
  refine ⟨made, hfacts.calls, fun g f hgf c hc x hpass => ?_, fun g f hgf hg hknown hother => ?_,
    fun g hg c hc x hpass => ?_⟩
  · obtain ⟨_, hg0, hstale, hsub⟩ := hinv.fresh hgf
    cases hfacts.passes c hc g x hpass with
    | zero h => exact absurd h hg0
    | current => exact hsub
    | remembered hs | reopened hs =>
      cases hstale.symm.trans hs
  · obtain ⟨r, hr⟩ := Option.ne_none_iff_exists'.mp hknown
    obtain ⟨c, hcalls, hfh, hout⟩ := RemapFs.passed_on scan groups hr (fun g' h => hother g' (.inl h))
      (fun n g' h => hother g' (.inr ⟨n, h⟩))
    have hmade : made = [c] := append_cancel_right (hfacts.calls.symm.trans hcalls)
    have hsub := (hinv.fresh hgf).2.2.2
    refine ⟨c, hmade ▸ mem_singleton_self c, ?_⟩
    rcases hg with hg | ⟨n, hg⟩
    · exact .inl ⟨hg, hsub ▸ hfh g hg⟩
    · obtain ⟨i, hi⟩ := hout n g hg
      exact .inr ⟨n, i, hg, hsub ▸ hi⟩
  · cases hfacts.passes c hc g x hpass with
    | zero h => exact absurd h (hinv.earlier g hg).1
    | current _ hs =>
      rw [hinv.stale hg] at hs
      cases hs
    | remembered hs hx => exact .inr (hinv.remap g x hx).2
    | reopened hs hx => exact .inl hx

theorem guest_handles_over_restores_letters :
    ∃ s : Chain LetterFs, ((chain LetterFs firstScan plainJson).restrict Chain.belowLimit).exec
        ⟨letterServer, [], [], []⟩ [.serve (.open 1 0) [], .restore ⟨0⟩, .serve (.open 1 0) []] = some s ∧
      s.issued = [(2, 1)] ∧ s.earlier = [1] ∧ ∀ g f, (g, f) ∈ s.issued → g ∉ s.earlier := by
  obtain ⟨s, hexec, hissued, hearlier⟩ : ∃ s : Chain LetterFs,
      ((chain LetterFs firstScan plainJson).restrict Chain.belowLimit).exec
        ⟨letterServer, [], [], []⟩ [.serve (.open 1 0) [], .restore ⟨0⟩, .serve (.open 1 0) []] = some s ∧
      s.issued = [(2, 1)] ∧ s.earlier = [1] := ⟨_, rfl, by decide +kernel⟩
  have hreach := (System.Reachable.initial
    (M := (chain LetterFs firstScan plainJson).restrict Chain.belowLimit) ⟨⟨0⟩, rfl⟩).exec hexec
  exact ⟨s, hexec, hissued, hearlier, (guest_handles_over_restores plainJson_lawful hreach).1⟩

/-- A handle of an earlier server reaches the inner server under its own number, which is what its file was reopened
as; a handle named with a second inode reaches it as the file of the first; and a handle above the limit on a table's
base is given out again. -/
theorem stale_handle_passed_on :
    (∃ s : Chain LetterFs, (chain LetterFs firstScan plainJson).exec ⟨letterServer, [], [], []⟩
        [.serve (.open 1 0) [], .restore ⟨0⟩, .serve (.read 1 1) []] = some s ∧
      1 ∈ s.earlier ∧ s.fs.inner.calls = [(.read 1 1, .ok), (.open 1 O_RDWR, .opened 1)]) ∧
    (∃ s : Chain LetterFs, (chain LetterFs firstScan plainJson).exec ⟨letterServer, [], [], []⟩
        [.serve (.lookup 1 [97]) [], .serve (.lookup 1 [98]) [], .serve (.open (pathHash [97]) 0) [], .restore ⟨6⟩,
          .serve (.read (pathHash [97]) 1) [], .serve (.read (pathHash [98]) 1) []] = some s ∧
      1 ∈ s.earlier ∧ s.fs.inner.calls.take 3 = [(.read 100 7, .ok), (.read 99 7, .ok), (.open 99 O_RDWR, .opened 7)]) ∧
    ∃ s : Chain LetterFs, (chain LetterFs firstScan plainJson).exec ⟨.new ⟨⟨2 ^ 62⟩, []⟩, [], [], []⟩
        [.serve (.open 1 0) [], .restore ⟨2 ^ 62 - 2 ^ 32⟩, .serve (.open 1 0) []] = some s ∧
      2 ^ 62 + 1 ∈ s.issued.map Prod.fst ∧ 2 ^ 62 + 1 ∈ s.earlier :=
  ⟨⟨_, rfl, by decide +kernel⟩, ⟨_, rfl, by decide +kernel⟩, _, rfl, by decide +kernel⟩

end Fcvm.Remap
