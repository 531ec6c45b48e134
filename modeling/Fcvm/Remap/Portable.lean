import Fcvm.Remap.Answered
import Fcvm.Remap.TreeFs

namespace Fcvm.Remap

open Library Option

/-! With handle base 0, as in a server that was not restored, handles pass unchanged. -/

namespace VolumeRequest

theorem withFh_self {req : VolumeRequest} {fh : ℕ} (h : req.fh = some fh) : req.withFh fh = req := by
  cases req <;> first | rfl | (cases h; rfl)

theorem withFhOut_self {req : VolumeRequest} {fh : ℕ} (h : req.fhOut.map Prod.snd = some fh) :
    req.withFhOut fh = req := by
  cases req with
  | copyFileRange | remapFileRange =>
    cases h
    rfl
  | _ => rfl

end VolumeRequest

namespace RemapFs

variable {T : Type} [FilesystemHandler T]

theorem handleRequestWithGroups_zero (scan : PathScan) {fs : RemapFs T} (hbase : fs.handleBase = 0)
    (req : VolumeRequest) (groups : List ℕ) :
    fs.handleRequestWithGroups scan req groups =
      match fs.remapRequestInodes req with
      | none => (.ioError, fs)
      | some r => fs.delegate scan req r groups := by
  have hfresh : ∀ g, fs.isStaleHandle g = false := by
    intro g
    simp [isStaleHandle, hbase]
  have hinner : ∀ g n isDir, fs.innerHandle g n isDir = (some g, fs) := by
    intro g n isDir
    rw [innerHandle_fresh (hfresh g), hbase, Nat.sub_zero]
  have hrelease : fs.staleRelease req = none := by
    cases req with
    | release _ fh | releasedir _ fh => simp [staleRelease, hfresh]
    | _ => rfl
  unfold handleRequestWithGroups
  rcases hreq : fs.remapRequestInodes req with _ | r
  · rfl
  obtain ⟨hfh, hfhOut⟩ := remapRequestInodes_fh hreq
  have hpass : fs.remapFh req r = (some r, fs) := by
    unfold remapFh
    split
    · rfl
    · next g hg =>
      rw [hinner]
      dsimp only
      rw [VolumeRequest.withFh_self (hfh.trans hg)]
  have hpassOut : fs.remapFhOut req r = (some r, fs) := by
    unfold remapFhOut
    split
    · rfl
    · next g hg =>
      rw [hinner]
      dsimp only
      rw [VolumeRequest.withFhOut_self (hfhOut.trans (by rw [hg]; rfl))]
  dsimp only
  rw [hrelease]
  dsimp only
  rw [hpass]
  dsimp only
  rw [hpassOut]

omit [FilesystemHandler T] in
theorem guestHandleResponse_zero {fs : RemapFs T} (hbase : fs.handleBase = 0) {resp : VolumeResponse}
    (hle : fs.maxGuestHandle ≤ MAX_HANDLE_BASE) (hresp : ∀ fh, resp.handle = some fh → fh ≤ MAX_HANDLE_BASE) :
    ∃ highest ≤ MAX_HANDLE_BASE, fs.guestHandleResponse resp = (resp, { fs with maxGuestHandle := highest }) := by
  unfold guestHandleResponse
  split
  · exact ⟨_, hle, rfl⟩
  · next fh hfh =>
    have hmax := hresp fh hfh
    have hsum : fh + fs.handleBase = fh := by rw [hbase, Nat.add_zero]
    rw [hsum]
    split
    · exact ⟨_, hle, rfl⟩
    · have hlt : fh < 2 ^ 64 := Nat.lt_of_le_of_lt hmax (by decide)
      rw [if_pos hlt]
      refine ⟨_, Nat.max_le.mpr ⟨hle, hmax⟩, ?_⟩
      cases resp with
      | opened | openeddir | created =>
        cases hfh
        rfl
      | _ => cases hfh

end RemapFs

/-! A volume served from the start, with the objects for which its replies have given stable inodes. -/

theorem numbersShown_error (resp : VolumeResponse) (e : ℕ) : numbersShown resp (.error e) = [] := by
  cases resp <;> rfl

structure Volume (T : Type) where
  fs : RemapFs (Recorded T)
  given : Set (ℕ × Object)

def lastAnswer {T : Type} (fs : RemapFs (Recorded T)) : VolumeResponse := (fs.inner.calls.head?.map Prod.snd).getD .ok

variable {T : Type} [FilesystemHandler T] [TreeShaped T]

def volume (scan : PathScan) : System (Volume T) (VolumeRequest × List ℕ) where
  initial s := ∃ inner, s = ⟨.new ⟨inner, []⟩, { e | e.1 = 1 ∧ (tree inner).node [] = some e.2 }⟩
  next s a :=
    let (reply, fs) := s.fs.handleRequestWithGroups scan a.1 a.2
    some ⟨fs, objectsGiven (tree fs.inner) (fs.stableShown (lastAnswer fs) reply) ∪ s.given⟩

def KeepsPaths (scan : PathScan) (s : Volume T) (a : VolumeRequest × List ℕ) : Prop :=
  ∀ s' r resp, (volume scan).next s a = some s' → s'.fs.inner.calls = (r, resp) :: s.fs.inner.calls →
    (∀ fh, resp.handle = some fh → fh ≤ MAX_HANDLE_BASE) ∧
      s.fs.Keeps (tree s.fs.inner) (tree s'.fs.inner) a.1 resp

namespace Volume

structure Inv (s : Volume T) : Prop where
  base : s.fs.handleBase = 0
  highest : s.fs.maxGuestHandle ≤ MAX_HANDLE_BASE
  tracks : Tracks (tree s.fs.inner) s.fs s.given

theorem inv_initial (inner : T) :
    Inv (⟨.new ⟨inner, []⟩, { e | e.1 = 1 ∧ (tree inner).node [] = some e.2 }⟩ : Volume T) := by
  have hrec : (RemapFs.new (⟨inner, []⟩ : Recorded T)).recorded = fun n => if n = 1 then some [] else none := by
    funext n
    split
    · next hn =>
      subst hn
      rfl
    · next hn =>
      have hnone : (RemapFs.new (⟨inner, []⟩ : Recorded T)).paths.lookup n = none := AList.lookup_insert_ne hn
      rw [RemapFs.recorded, hnone]
      rfl
  refine ⟨rfl, Nat.zero_le _, RemapFs.new_bijective _, fun n => ?_, ?_, ?_⟩
  · rw [hrec]
    dsimp only
    split
    · next hn =>
      subst hn
      exact ⟨nofun, nofun⟩
    · next hn => exact ⟨fun _ => rfl, fun _ => AList.lookup_insert_ne hn⟩
  · rintro n o ⟨rfl, ho⟩
    rw [(tree inner).rootIno o ho]
    rfl
  · rw [hrec]
    exact Ledger.initial _ _

theorem Inv.next {scan : PathScan} {s s' : Volume T} {a : VolumeRequest × List ℕ} (h : s.Inv)
    (hk : KeepsPaths scan s a) (hnext : (volume scan).next s a = some s') : s'.Inv := by
  have hkeeps := hk s'
  obtain ⟨req, groups⟩ := a
  simp only [hnext, true_implies] at hkeeps
  simp only [volume, some.injEq, RemapFs.handleRequestWithGroups_zero scan h.base] at hnext
  subst hnext
  cases hreq : s.fs.remapRequestInodes req with
  | none =>
    refine ⟨h.base, h.highest, ?_⟩
    simp only [RemapFs.stableShown, VolumeResponse.ioError, numbersShown_error, List.filter_nil, objectsGiven_nil,
      Set.empty_union]
    exact h.tracks
  | some r =>
    simp only [hreq] at hkeeps
    have hcalls := RemapFs.delegate_calls scan s.fs req r groups
    obtain ⟨hhandle, hkeeps⟩ := hkeeps r _ hcalls
    have hlast : lastAnswer (s.fs.delegate scan req r groups).2 =
        (FilesystemHandler.handleRequestWithGroups s.fs.inner r groups).1 := by
      rw [lastAnswer, hcalls]
      rfl
    dsimp only
    rw [hlast]
    have hans := TreeShaped.answers s.fs.inner r groups
    unfold RemapFs.delegate at hkeeps ⊢
    generalize FilesystemHandler.handleRequestWithGroups s.fs.inner r groups = answer at hans hhandle hkeeps ⊢
    obtain ⟨resp, inner⟩ := answer
    dsimp only at hans hhandle hkeeps ⊢
    have hguest := @RemapFs.guestHandleResponse_zero _ { s.fs with inner := inner } h.base resp h.highest hhandle
    obtain ⟨highest, hle, hguest⟩ := hguest
    rw [hguest] at hkeeps ⊢
    dsimp only at hkeeps ⊢
    rw [(RemapFs.MapStep.remapResponse scan _ _ _).inner] at hkeeps
    have htracks : Tracks (tree s.fs.inner)
        ({ s.fs with inner := inner, maxGuestHandle := highest } : RemapFs (Recorded T)) s.given :=
      h.tracks.of_eq rfl rfl rfl rfl
    have hext := htracks.answered scan hreq hans hkeeps
    have hstep := RemapFs.MapStep.remapResponse scan
      ({ s.fs with inner := inner, maxGuestHandle := highest } : RemapFs (Recorded T)) req resp
    refine ⟨hstep.base.trans h.base, hstep.highest.trans_le hle, ?_⟩
    dsimp only
    rw [hstep.inner]
    exact hext.tracks

theorem Inv.restored {s : Volume T} (h : s.Inv) {J : Json} (hJ : J.Lawful) {inner : T}
    (hinner : (tree inner).node = (tree s.fs.inner).node) (n : ℕ) :
    (RemapFs.restoreFromTable J inner (s.fs.serializeTable J)).toInner n =
      (s.fs.recorded n).bind fun p => ((tree inner).node p).map Object.ino := by
  have hmax : max s.fs.maxGuestHandle s.fs.handleBase ≤ MAX_HANDLE_BASE := by
    rw [h.base, Nat.max_zero]
    exact h.highest
  obtain ⟨hroot, hpath⟩ := RemapFs.restore_toInner hJ s.fs inner hmax n
  obtain ⟨hone, o, ho, _⟩ := h.tracks.ledger.rooted
  cases hb : s.fs.paths.lookup n with
  | none =>
    have hn : n ≠ 1 := by
      rintro rfl
      obtain ⟨b, hb', _⟩ := RemapFs.recorded_eq_some.mp hone
      cases hb.symm.trans hb'
    rw [hroot (fun b hb' => by cases hb.symm.trans hb'), if_neg hn, RemapFs.recorded, hb]
    rfl
  | some b =>
    have hrec := Tracks.recorded_of_lookup hb
    by_cases hnil : b = []
    · subst hnil
      have hn : n = 1 := h.tracks.ledger.distinct n 1 [] hrec hone
      rw [hroot (fun b hb' => by cases hb.symm.trans hb'; rfl), if_pos hn, hrec, bind_some, segments_nil,
        hinner, ho, map_some, (tree s.fs.inner).rootIno o ho]
    · have hn : n ≠ 1 := by
        rintro rfl
        exact hnil (segments_eq_nil.mp (some.inj (hrec.symm.trans hone)))
      rw [hpath b hb hnil, if_neg hn, or_none, hrec]
      rfl

end Volume

/-- After requests that keep the recorded paths, a server restored over the same tree maps every stable inode the guest
was given for an object that is still there to that object, and no stable inode to another one. -/
theorem restored_inodes_identify {J : Json} (hJ : J.Lawful) (scan : PathScan) {s : Volume T}
    (hs : (volume scan).ReachableBy (KeepsPaths scan) s) (inner : T)
    (hinner : (tree inner).node = (tree s.fs.inner).node) :
    (∀ n o, (n, o) ∈ s.given → (tree inner).Linked o →
      (RemapFs.restoreFromTable J inner (s.fs.serializeTable J)).toInner n = some o.ino) ∧
    ∀ n i, (RemapFs.restoreFromTable J inner (s.fs.serializeTable J)).toInner n = some i →
      ∃ o, (n, o) ∈ s.given ∧ (tree inner).Linked o ∧ o.ino = i ∧ ∀ o', (n, o') ∈ s.given → o' = o := by
  have hinv : s.Inv := by
    refine hs.invariant ?_ fun s a s' h hk hnext => h.next hk hnext
    rintro s ⟨inner, rfl⟩
    exact Volume.inv_initial inner
  have hledger := hinv.tracks.ledger
  constructor
  · rintro n o hn ⟨q, hq⟩
    obtain ⟨p, hp⟩ := hledger.named n o hn
    have hlive := hledger.live n o p q hn (hinner ▸ hq) hp
    rw [hinv.restored hJ hinner, hp, Option.bind_some, hinner, hlive, Option.map_some]
  · intro n i hi
    rw [hinv.restored hJ hinner, Option.bind_eq_some_iff] at hi
    obtain ⟨p, hp, hi⟩ := hi
    obtain ⟨o, ho, rfl⟩ := Option.map_eq_some_iff.mp hi
    have hn := hledger.only n p o hp (hinner ▸ ho)
    exact ⟨o, hn, ⟨p, ho⟩, rfl, fun o' hn' => hledger.same n o' o hn' hn⟩

/-! Runs of a server over a small tree. -/

theorem volume_next (scan : PathScan) (s : Volume T) (a : VolumeRequest × List ℕ) :
    ∃ s', (volume scan).next s a = some s' ∧ s'.fs = (s.fs.handleRequestWithGroups scan a.1 a.2).2 ∧
      s.given ⊆ s'.given ∧
      ∀ n p o, (o.ino, n) ∈ s'.fs.stableShown (lastAnswer s'.fs) (s.fs.handleRequestWithGroups scan a.1 a.2).1 →
        (tree s'.fs.inner).node p = some o → (n, o) ∈ s'.given :=
  ⟨_, rfl, rfl, Set.subset_union_right, fun _ p o hn ho => .inl ⟨o.ino, hn, ⟨p, ho⟩, rfl⟩⟩

theorem volume_step {scan : PathScan} {s : Volume T} {fs : RemapFs (Recorded T)}
    (hs : (volume scan).ReachableBy (KeepsPaths scan) s) (hfs : s.fs = fs) (a : VolumeRequest × List ℕ)
    (resp : VolumeResponse) (hresp : lastAnswer (fs.handleRequestWithGroups scan a.1 a.2).2 = resp)
    (hhandle : ∀ fh, resp.handle = some fh → fh ≤ MAX_HANDLE_BASE)
    (hkeeps : fs.Keeps (tree fs.inner) (tree (fs.handleRequestWithGroups scan a.1 a.2).2.inner) a.1 resp) :
    ∃ s', (volume scan).ReachableBy (KeepsPaths scan) s' ∧ s'.fs = (fs.handleRequestWithGroups scan a.1 a.2).2 ∧
      s.given ⊆ s'.given ∧
      ∀ n p o, (o.ino, n) ∈ s'.fs.stableShown (lastAnswer s'.fs) (fs.handleRequestWithGroups scan a.1 a.2).1 →
        (tree s'.fs.inner).node p = some o → (n, o) ∈ s'.given := by
  subst hfs
  obtain ⟨s', hnext, hfs, hgiven⟩ := volume_next scan s a
  refine ⟨s', hs.next ?_ hnext, hfs, hgiven⟩
  intro s'' r resp' hnext' hcalls
  cases hnext.symm.trans hnext'
  rw [← hfs] at hresp hkeeps
  have heq : resp' = resp := by
    rw [← hresp, lastAnswer, hcalls]
    rfl
  rw [heq]
  exact ⟨hhandle, hkeeps⟩

omit [FilesystemHandler T] [TreeShaped T] in
theorem RemapFs.unrecorded_of_entries {fs : RemapFs T} {path : Bytes} (h : ∀ e ∈ fs.paths.entries, e.2 ≠ path) :
    fs.Unrecorded path := fun _ hn => h _ (AList.mem_lookup_iff.mp hn) rfl

def treeServer : RemapFs (Recorded TreeFs) := .new ⟨⟨[([], ⟨1, 1, true⟩)], by decide⟩, []⟩

def servedBy (fs : RemapFs (Recorded TreeFs)) (reqs : List VolumeRequest) : RemapFs (Recorded TreeFs) :=
  reqs.foldl (fun fs req => (fs.handleRequestWithGroups firstScan req []).2) fs

theorem volume_run (s : Volume TreeFs) (reqs : List VolumeRequest) :
    ∃ s', (volume firstScan).exec s (reqs.map fun req => (req, [])) = some s' ∧ s'.fs = servedBy s.fs reqs ∧
      s.given ⊆ s'.given := by
  induction reqs generalizing s with
  | nil => exact ⟨s, rfl, rfl, subset_rfl⟩
  | cons req reqs ih =>
    obtain ⟨s₁, hnext, hfs, hsub, _⟩ := volume_next firstScan s (req, [])
    obtain ⟨s₂, hexec, hfs₂, hsub₂⟩ := ih s₁
    refine ⟨s₂, ?_, ?_, hsub.trans hsub₂⟩
    · rw [List.map_cons, System.exec, hnext]
      exact hexec
    · rw [hfs₂, hfs]
      rfl

theorem treeServer_initial : (volume firstScan).initial
    (⟨treeServer, { e | e.1 = 1 ∧ (tree treeServer.inner).node [] = some e.2 }⟩ : Volume TreeFs) := ⟨_, rfl⟩

/-- A directory with a file in it is made and renamed; the file is found again under its stable inode. -/
theorem restored_inodes_identify_renamed :
    ∃ s : Volume TreeFs, (volume firstScan).ReachableBy (KeepsPaths firstScan) s ∧
      (tree s.fs.inner).node [[98], [102]] = some ⟨3, 3, false⟩ ∧
      (RemapFs.restoreFromTable plainJson s.fs.inner.handler (s.fs.serializeTable plainJson)).toInner
        (pathHash [97, 47, 102]) = some 3 := by
  have h₀ := System.ReachableBy.initial (C := KeepsPaths firstScan) treeServer_initial
  obtain ⟨s₁, h₁, hfs₁, -⟩ := volume_step h₀ rfl (.mkdir 1 [97], []) (.entry ⟨2⟩) (by decide +kernel)
    nofun
    ⟨by decide +kernel, RemapFs.unrecorded_of_entries (by decide +kernel), by decide +kernel⟩
  obtain ⟨s₂, h₂, hfs₂, -, hgiven₂⟩ := volume_step h₁ hfs₁ (.create (pathHash [97]) [102], [])
    (.created ⟨3⟩ 1) (by decide +kernel) (fun fh hfh => by cases hfh; decide)
    ⟨by decide +kernel, .inr ⟨RemapFs.unrecorded_of_entries (by decide +kernel), by decide +kernel⟩⟩
  have hgiven : (pathHash [97, 47, 102], ⟨3, 3, false⟩) ∈ s₂.given := by
    rw [hfs₂] at hgiven₂
    exact hgiven₂ _ [[97], [102]] _ (by decide +kernel) (by decide +kernel)
  obtain ⟨s₃, h₃, hfs₃, hsub, -⟩ := volume_step h₂ hfs₂ (.rename 1 [97] 1 [98] 0, [])
    .ok (by decide +kernel) nofun
    ⟨by decide +kernel, by decide +kernel, .inr (RemapFs.unrecorded_of_entries (by decide +kernel))⟩
  have hnode : (tree s₃.fs.inner).node [[98], [102]] = some ⟨3, 3, false⟩ := by
    rw [hfs₃]
    decide +kernel
  refine ⟨s₃, h₃, hnode, ?_⟩
  exact (restored_inodes_identify plainJson_lawful firstScan h₃ s₃.fs.inner.handler rfl).1 _ _ (hsub hgiven) ⟨_, hnode⟩

/-- Two directories with a file each are exchanged, and each file's stable inode leads to the other one. -/
theorem exchanged_directories_swap_files :
    ∃ s : Volume TreeFs, (volume firstScan).Reachable s ∧ ∃ n o i, (n, o) ∈ s.given ∧ (tree s.fs.inner).Linked o ∧
      (RemapFs.restoreFromTable plainJson s.fs.inner.handler (s.fs.serializeTable plainJson)).toInner n = some i ∧
      i ≠ o.ino := by
  have h₀ := System.Reachable.initial treeServer_initial
  obtain ⟨s₁, hexec₁, hfs₁, -⟩ := volume_run _ [.mkdir 1 [97], .mkdir 1 [98]]
  obtain ⟨s₂, hnext₂, hfs₂, -, hgiven₂⟩ := volume_next firstScan s₁ (.create (pathHash [97]) [102], [])
  obtain ⟨s₃, hexec₃, hfs₃, hsub⟩ := volume_run s₂ [.create (pathHash [98]) [102], .rename 1 [97] 1 [98] 2]
  have hreach := ((h₀.exec hexec₁).next hnext₂).exec hexec₃
  rw [hfs₁] at hfs₂ hgiven₂
  rw [hfs₂] at hfs₃ hgiven₂
  refine ⟨s₃, hreach, pathHash [97, 47, 102], ⟨4, 4, false⟩, 5, ?_, ⟨[[98], [102]], ?_⟩, ?_, by decide⟩
  · exact hsub (hgiven₂ _ [[97], [102]] _ (by decide +kernel) (by decide +kernel))
  · rw [hfs₃]
    decide +kernel
  · rw [hfs₃]
    decide +kernel

end Fcvm.Remap
