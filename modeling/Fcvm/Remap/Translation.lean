import Fcvm.Remap.Inodes

namespace Fcvm.Remap

open Library List

variable {resp : VolumeResponse} {r req : VolumeRequest} {i n dir : ℕ}

inductive Kind where
  | entry
  | attr
  | listing
  | other
  deriving DecidableEq

def VolumeRequest.kind : VolumeRequest → Kind
  | .lookup .. | .mkdir .. | .create .. | .mknod .. | .symlink .. | .link .. => .entry
  | .getattr .. | .setattr .. => .attr
  | .readdirplus .. => .listing
  | _ => .other

/-- The answer is of the kind the request asks for, the attributes are those of the inode asked about, and the `.`
of a listing is the directory itself. -/
def VolumeResponse.Fits (req : VolumeRequest) : VolumeResponse → Prop
  | .entry _ | .created _ _ => req.kind = .entry
  | .attr a => req.kind = .attr ∧ req.ino = some a.ino
  | .dirEntriesPlus entries => req.kind = .listing ∧ ∀ e ∈ entries,
      (e.name = RemapFs.dot → req.ino = some e.attr.ino) ∧ (e.name = RemapFs.dotdot → e.attr.ino = e.ino)
  | _ => True

theorem VolumeResponse.Fits.congr {r' : VolumeRequest} (h : resp.Fits r)
    (hkind : r'.kind = r.kind) (hino : r'.ino = r.ino) : resp.Fits r' := by
  cases resp with
  | entry | created => exact hkind.trans h
  | attr a => exact ⟨hkind.trans h.1, hino.trans h.2⟩
  | dirEntriesPlus entries =>
    refine ⟨hkind.trans h.1, fun e he => ⟨fun hdot => ?_, (h.2 e he).2⟩⟩
    exact hino.trans ((h.2 e he).1 hdot)
  | _ => trivial

class AnswersInKind (T : Type) [FilesystemHandler T] : Prop where
  fits : ∀ (t : T) (req : VolumeRequest) (groups : List ℕ),
    (FilesystemHandler.handleRequestWithGroups t req groups).1.Fits req

namespace RemapFs

variable {T : Type}

def raw (fs : RemapFs T) (i n : ℕ) : Bool := n == i && fs.toStable i != some n

def shownBy (fs : RemapFs T) : VolumeResponse → VolumeResponse → List (ℕ × ℕ)
  | .entry a, .entry a' => [(a.ino, a'.ino)]
  | .created a _, .created a' _ => [(a.ino, a'.ino)]
  | .attr a, .attr a' => [(a.ino, a'.ino)]
  | .dirEntriesPlus entries, .dirEntriesPlus entries' =>
    ((entries.zip entries').map fun (e, e') => (e.attr.ino, e'.attr.ino)).filter fun (i, n) => !fs.raw i n
  | _, _ => []

theorem shownBy_error (fs : RemapFs T) (resp : VolumeResponse) (e : ℕ) : fs.shownBy resp (.error e) = [] := by
  cases resp <;> rfl

theorem shownBy_ok (fs : RemapFs T) (resp : VolumeResponse) : fs.shownBy resp .ok = [] := by
  cases resp <;> rfl

variable {fs : RemapFs T} {entries : List DirEntryPlus}

theorem remapEntryResponse_shown {parent : ℕ} {name : Bytes}
    (hkind : resp.fileAttr = none → False) (hattr : ∀ a, resp ≠ .attr a)
    (h : (i, n) ∈ (fs.remapEntryResponse parent name resp).2.shownBy resp
      (fs.remapEntryResponse parent name resp).1) :
    (fs.remapEntryResponse parent name resp).2.toStable i = some n := by
  cases resp with
  | entry attr | created attr _ =>
    have hr := (registered fs parent name attr.ino).step.2
    simp only [remapEntryResponse] at h ⊢
    split at h
    · next heq =>
      rw [heq] at hr
      cases mem_singleton.mp h
      exact hr _ rfl
    · cases h
  | attr a => exact absurd rfl (hattr a)
  | _ => exact absurd rfl hkind

theorem remapDirEntryPlus_shown (path : Bytes) {e : DirEntryPlus} (hb : fs.Bijective)
    (hdir : fs.toInner dir = some i) (hdot : e.name = dot → e.attr.ino = i)
    (hdotdot : e.name = dotdot → e.attr.ino = e.ino) :
    (remapDirEntryPlus dir path fs e).2.toStable e.attr.ino = some (remapDirEntryPlus dir path fs e).1.attr.ino ∨
      (remapDirEntryPlus dir path fs e).1 = e := by
  unfold remapDirEntryPlus
  split
  · next hname =>
    left
    rw [hdot hname]
    exact (hb i dir).mpr hdir
  · split
    · next hname =>
      split
      · next n hn =>
        left
        rw [hdotdot hname]
        exact hn
      · exact .inr rfl
    · have hr := (registered fs dir e.name e.attr.ino).step.2
      split
      · next heq =>
        rw [heq] at hr
        left
        exact (MapStep.fixPath _ _ _).toStable _ _ (hr _ rfl)
      · exact .inr rfl

theorem remapEntries_shown (path : Bytes)
    (hb : fs.Bijective) (hdir : fs.toInner dir = some i)
    (hentries : ∀ e ∈ entries, (e.name = dot → e.attr.ino = i) ∧ (e.name = dotdot → e.attr.ino = e.ino)) :
    ∀ p ∈ entries.zip (remapEntries (remapDirEntryPlus dir path) fs entries).1,
      (remapEntries (remapDirEntryPlus dir path) fs entries).2.toStable p.1.attr.ino = some p.2.attr.ino ∨
        p.2 = p.1 := by
  induction entries generalizing fs with
  | nil => exact nofun
  | cons e entries ih =>
    intro p hp
    have hstep := MapStep.remapDirEntryPlus dir path fs e
    rcases mem_cons.mp hp with rfl | hp
    · obtain ⟨hdot, hdotdot⟩ := hentries e mem_cons_self
      rcases remapDirEntryPlus_shown path hb hdir hdot hdotdot with h | h
      · exact .inl ((MapStep.remapEntries (MapStep.remapDirEntryPlus dir path) _ entries).toStable _ _ h)
      · exact .inr h
    · exact ih (hstep.bijective hb) (hstep.toInner _ _ hdir) (fun e he => hentries e (mem_cons_of_mem _ he)) p hp

theorem remapReaddirplusResponse_shown {j : ℕ}
    (hb : fs.Bijective) (hdir : fs.toInner dir = some i)
    (hentries : ∀ e ∈ entries, (e.name = dot → e.attr.ino = i) ∧ (e.name = dotdot → e.attr.ino = e.ino))
    (h : (j, n) ∈ (fs.remapReaddirplusResponse dir (.dirEntriesPlus entries)).2.shownBy (.dirEntriesPlus entries)
      (fs.remapReaddirplusResponse dir (.dirEntriesPlus entries)).1) :
    (fs.remapReaddirplusResponse dir (.dirEntriesPlus entries)).2.toStable j = some n := by
  simp only [remapReaddirplusResponse, shownBy, mem_filter, mem_map] at h ⊢
  obtain ⟨⟨p, hp, heq⟩, hraw⟩ := h
  cases heq
  rcases remapEntries_shown (fs.pathOf dir) hb hdir hentries p hp with h | h
  · exact h
  · rw [h] at hraw ⊢
    simpa [raw] using hraw

theorem remapRequestInodes_kind (h : fs.remapRequestInodes req = some r)
    (hkind : req.kind ≠ .other) :
    r.kind = req.kind ∧ ∃ n i, req.ino = some n ∧ fs.toInner n = some i ∧ r.ino = some i := by
  cases req with
  | link =>
    obtain ⟨i, hi, h⟩ := Option.bind_eq_some_iff.mp h
    obtain ⟨_, _, h⟩ := Option.bind_eq_some_iff.mp h
    cases h
    exact ⟨rfl, _, i, rfl, hi, rfl⟩
  | lookup | mkdir | create | mknod | symlink | getattr | setattr | readdirplus =>
    obtain ⟨i, hi, h⟩ := Option.bind_eq_some_iff.mp h
    cases h
    exact ⟨rfl, _, i, rfl, hi, rfl⟩
  | _ => exact absurd rfl hkind

theorem remapRequestInodes_other (h : fs.remapRequestInodes req = some r)
    (hkind : req.kind = .other) : r.kind = .other := by
  cases req with
  | forget | batchForget =>
    cases h
    rfl
  | rename | copyFileRange | remapFileRange =>
    obtain ⟨_, _, h⟩ := Option.bind_eq_some_iff.mp h
    obtain ⟨_, _, h⟩ := Option.bind_eq_some_iff.mp h
    cases h
    rfl
  | lookup | mkdir | create | mknod | symlink | getattr | setattr | readdirplus | link => cases hkind
  | _ =>
    obtain ⟨_, _, h⟩ := Option.bind_eq_some_iff.mp h
    cases h
    rfl

theorem remapResponse_shown (scan : PathScan) {fs₀ : RemapFs T}
    (hb : fs.Bijective) (hmaps : fs.stableToInner = fs₀.stableToInner)
    (hr : fs₀.remapRequestInodes req = some r) (hfits : resp.Fits r)
    (h : (i, n) ∈ (fs.remapResponse scan req resp).2.shownBy resp (fs.remapResponse scan req resp).1) :
    (fs.remapResponse scan req resp).2.toStable i = some n := by
  have hkind : r.kind ≠ .other → r.kind = req.kind ∧
      ∃ m j, req.ino = some m ∧ fs.toInner m = some j ∧ r.ino = some j := by
    intro hne
    simp only [toInner, hmaps]
    exact remapRequestInodes_kind hr fun hother => hne (remapRequestInodes_other hr hother)
  cases resp with
  | entry a | created a _ =>
    have hreq := (hkind (by rw [hfits]; decide)).1.symm.trans hfits
    cases req with
    | lookup | mkdir | create | mknod | symlink | link =>
      exact remapEntryResponse_shown (fun h => by cases h) (fun _ h => by cases h) h
    | _ => cases hreq
  | attr a =>
    obtain ⟨hreq, m, j, hm, hj, hrj⟩ := hkind (by rw [hfits.1]; decide)
    rw [hfits.1] at hreq
    cases hfits.2.symm.trans hrj
    have hstable : fs.toStable a.ino = some m := (hb a.ino m).mpr hj
    cases req with
    | getattr | setattr =>
      have hreply : (i, n) ∈ [(a.ino, (fs.toStable a.ino).getD a.ino)] := h
      rw [hstable] at hreply
      cases mem_singleton.mp hreply
      exact hstable
    | _ => cases hreq
  | dirEntriesPlus entries =>
    obtain ⟨hreq, m, j, hm, hj, hrj⟩ := hkind (by rw [hfits.1]; decide)
    rw [hfits.1] at hreq
    cases req with
    | readdirplus =>
      cases hm
      refine remapReaddirplusResponse_shown hb hj (fun e he => ⟨fun hdot => ?_, (hfits.2 e he).2⟩) h
      have := (hfits.2 e he).1 hdot
      rw [hrj] at this
      exact (Option.some.inj this).symm
    | _ => cases hreq
  | _ =>
    simp only [shownBy] at h
    cases h

variable [FilesystemHandler T]

theorem remapFh_kind {fs₁ : RemapFs T} {r₁ : VolumeRequest} (h : fs.remapFh req r = (some r₁, fs₁)) :
    r₁.kind = r.kind ∧ r₁.ino = r.ino := by
  unfold remapFh at h
  split at h
  · cases h
    exact ⟨rfl, rfl⟩
  · split at h
    · cases h
      cases r <;> exact ⟨rfl, rfl⟩
    · cases h

theorem remapFhOut_kind {fs₁ : RemapFs T} {r₁ : VolumeRequest} (h : fs.remapFhOut req r = (some r₁, fs₁)) :
    r₁.kind = r.kind ∧ r₁.ino = r.ino := by
  unfold remapFhOut at h
  split at h
  · cases h
    exact ⟨rfl, rfl⟩
  · split at h
    · cases h
      cases r <;> exact ⟨rfl, rfl⟩
    · cases h

omit [FilesystemHandler T] in
theorem guestHandleResponse_shown (fs fs' : RemapFs T) (resp : VolumeResponse) (reply : VolumeResponse) :
    (fs.guestHandleResponse resp).1 = .ioError ∨
      fs'.shownBy (fs.guestHandleResponse resp).1 reply = fs'.shownBy resp reply ∧
        ∀ r, resp.Fits r → (fs.guestHandleResponse resp).1.Fits r := by
  unfold guestHandleResponse
  split
  · exact .inr ⟨rfl, fun _ h => h⟩
  · split
    · exact .inr ⟨rfl, fun _ h => h⟩
    · split
      · right
        cases resp with
        | created a fh =>
          refine ⟨?_, fun _ h => h⟩
          cases reply <;> rfl
        | _ => exact ⟨rfl, fun _ h => h⟩
      · exact .inl rfl

theorem delegate_shown (scan : PathScan) {fs fs₀ : RemapFs (Recorded T)} {groups : List ℕ}
    (hb : fs.Bijective) (hmaps : fs.stableToInner = fs₀.stableToInner)
    (hr : ∃ r₀, fs₀.remapRequestInodes req = some r₀ ∧ r.kind = r₀.kind ∧ r.ino = r₀.ino)
    (hfits : (FilesystemHandler.handleRequestWithGroups fs.inner r groups).1.Fits r)
    (h : (i, n) ∈ (fs.delegate scan req r groups).2.shownBy
      (FilesystemHandler.handleRequestWithGroups fs.inner r groups).1 (fs.delegate scan req r groups).1) :
    (fs.delegate scan req r groups).2.toStable i = some n := by
  obtain ⟨r₀, hr₀, hkind, hino⟩ := hr
  unfold delegate at h ⊢
  dsimp only at h ⊢
  generalize FilesystemHandler.handleRequestWithGroups fs.inner r groups = answer at h hfits ⊢
  obtain ⟨highest, hframe⟩ := guestHandleResponse_frame
    ({ fs with inner := answer.2 } : RemapFs (Recorded T)) answer.1
  rcases guestHandleResponse_shown ({ fs with inner := answer.2 } : RemapFs (Recorded T)) _ answer.1 _
    with herr | ⟨hshown, hfit⟩
  · rw [herr] at h
    rw [show remapResponse scan _ req VolumeResponse.ioError = (VolumeResponse.ioError, _) from rfl] at h
    simp [VolumeResponse.ioError, shownBy_error] at h
  · rw [← hshown] at h
    rw [hframe] at h ⊢
    exact remapResponse_shown scan hb hmaps hr₀ (hfit _ (hfits.congr hkind.symm hino.symm)) h

end RemapFs

end Fcvm.Remap
