import Fcvm.Library.System
import Fcvm.Remap.Serve

namespace Fcvm.Remap

open Library List

variable {req : VolumeRequest}

namespace VolumeRequest

theorem inodes_withFh (req : VolumeRequest) (fh : ℕ) : (req.withFh fh).inodes = req.inodes := by
  cases req <;> rfl

theorem inodes_withFhOut (req : VolumeRequest) (fh : ℕ) : (req.withFhOut fh).inodes = req.inodes := by
  cases req <;> rfl

theorem ino_mem_inodes {n : ℕ} (h : req.ino = some n) : n ∈ req.inodes := by
  cases req <;> first | (cases h; exact mem_cons_self) | cases h

theorem fhOut_mem_inodes {n g : ℕ} (h : req.fhOut = some (n, g)) : n ∈ req.inodes := by
  cases req <;> first | (cases h; exact mem_cons_of_mem _ mem_cons_self) | cases h

end VolumeRequest

namespace RemapFs

variable {T : Type}

/-- Number `i` reaches the inner server in the place of the guest's number `n`: its mapping, or in a FORGET or
BATCH_FORGET the number itself when it has none. -/
def Carried (fs : RemapFs T) (req : VolumeRequest) (n i : ℕ) : Prop :=
  fs.toInner n = some i ∨ req.isForget = true ∧ fs.toInner n = none ∧ i = n

/-- The inner request `c`, made for `req`, has each inode of `req` translated in its place, or is about one inode
alone, the translation of one that `req` names. -/
def Translates (fs : RemapFs T) (req c : VolumeRequest) : Prop :=
  List.Forall₂ (fs.Carried req) req.inodes c.inodes ∨
    ∃ n ∈ req.inodes, ∃ i, fs.toInner n = some i ∧ c.inodes = [i]

theorem forgetIno_carried {fs : RemapFs T} (h : req.isForget = true) (n : ℕ) :
    fs.Carried req n (fs.forgetIno n) := by
  unfold Carried forgetIno
  cases hn : fs.toInner n with
  | some i => exact .inl rfl
  | none => exact .inr ⟨h, rfl, rfl⟩

theorem remapRequestInodes_carried {fs : RemapFs T} {r : VolumeRequest}
    (h : fs.remapRequestInodes req = some r) : List.Forall₂ (fs.Carried req) req.inodes r.inodes := by
  cases req with
  | forget ino nlookup =>
    cases h
    exact .cons (forgetIno_carried rfl ino) .nil
  | batchForget inodes =>
    cases h
    simp only [VolumeRequest.inodes, map_map]
    rw [forall₂_map_left_iff, forall₂_map_right_iff, forall₂_same]
    exact fun e _ => forgetIno_carried rfl e.1
  | link | rename | copyFileRange | remapFileRange =>
    obtain ⟨i, hi, h⟩ := Option.bind_eq_some_iff.mp h
    obtain ⟨j, hj, h⟩ := Option.bind_eq_some_iff.mp h
    cases h
    exact .cons (.inl hi) (.cons (.inl hj) .nil)
  | _ =>
    obtain ⟨i, hi, h⟩ := Option.bind_eq_some_iff.mp h
    cases h
    exact .cons (.inl hi) .nil

theorem Opens.inodes {i : ℕ} {c : VolumeRequest} (h : Opens i c) : c.inodes = [i] := by
  cases c with
  | «open» ino _ | opendir ino =>
    cases h
    rfl
  | _ => cases h

/-- Turning the handles of `req` into inner ones keeps the inode maps, and opens no inode but those it names. -/
structure HandleStep (req : VolumeRequest) (fs fs' : RemapFs (Recorded T)) : Prop where
  toStable : fs'.innerToStable = fs.innerToStable
  toInner : fs'.stableToInner = fs.stableToInner
  made : ∃ made, fs'.inner.calls = made ++ fs.inner.calls ∧
    ∀ c ∈ made, ∃ m ∈ req.inodes, ∃ i, fs.toInner m = some i ∧ Opens i c.1

theorem HandleStep.refl (req : VolumeRequest) (fs : RemapFs (Recorded T)) : HandleStep req fs fs :=
  ⟨rfl, rfl, [], rfl, nofun⟩

theorem HandleStep.trans {fs₁ fs₂ fs₃ : RemapFs (Recorded T)} (h : HandleStep req fs₁ fs₂)
    (h' : HandleStep req fs₂ fs₃) : HandleStep req fs₁ fs₃ := by
  obtain ⟨made, hcalls, hopens⟩ := h.made
  obtain ⟨made', hcalls', hopens'⟩ := h'.made
  refine ⟨h'.toStable.trans h.toStable, h'.toInner.trans h.toInner, made' ++ made, ?_, ?_⟩
  · rw [hcalls', hcalls, append_assoc]
  · intro c hc
    rcases mem_append.mp hc with hc | hc
    · obtain ⟨m, hm, i, hi, hopen⟩ := hopens' c hc
      rw [RemapFs.toInner, h.toInner] at hi
      exact ⟨m, hm, i, hi, hopen⟩
    · exact hopens c hc

theorem InnerHandle.step {fs : RemapFs (Recorded T)} {g : ℕ} {n : Option ℕ}
    {out : Option ℕ × RemapFs (Recorded T)} (h : InnerHandle fs g n out) (hn : ∀ m, n = some m → m ∈ req.inodes) :
    HandleStep req fs out.2 := by
  cases h with
  | zero | current | remembered => exact .refl req fs
  | refused hs hcalls hopens =>
    refine ⟨rfl, rfl, _, hcalls, fun c hc => ?_⟩
    obtain ⟨m, i, hm, hi, hopen⟩ := hopens c hc
    exact ⟨m, hn m hm, i, hi, hopen⟩
  | reopened hs hm hi hcalls hopens => exact ⟨rfl, rfl, _, hcalls, fun c hc => ⟨_, hn _ hm, _, hi, hopens c hc⟩⟩

variable [FilesystemHandler T]

theorem remapFh_step (fs : RemapFs (Recorded T)) (req r : VolumeRequest) :
    HandleStep req fs (fs.remapFh req r).2 ∧ ∀ r₁, (fs.remapFh req r).1 = some r₁ → r₁.inodes = r.inodes := by
  unfold remapFh
  split
  · refine ⟨.refl req fs, fun r₁ h => ?_⟩
    cases h
    rfl
  · next g hg =>
    have hstep := (innerHandle_spec fs g req.ino req.isDirHandleOp).step fun m => VolumeRequest.ino_mem_inodes
    split
    · next heq =>
      rw [heq] at hstep
      refine ⟨hstep, fun r₁ h => ?_⟩
      cases h
      exact r.inodes_withFh _
    · next heq =>
      rw [heq] at hstep
      exact ⟨hstep, nofun⟩

theorem remapFhOut_step (fs : RemapFs (Recorded T)) (req r : VolumeRequest) :
    HandleStep req fs (fs.remapFhOut req r).2 ∧
      ∀ r₁, (fs.remapFhOut req r).1 = some r₁ → r₁.inodes = r.inodes := by
  unfold remapFhOut
  split
  · refine ⟨.refl req fs, fun r₁ h => ?_⟩
    cases h
    rfl
  · next n g hg =>
    have hmem : ∀ m, some n = some m → m ∈ req.inodes := by
      rintro m ⟨⟩
      exact VolumeRequest.fhOut_mem_inodes hg
    have hstep := (innerHandle_spec fs g (some n) false).step hmem
    split
    · next heq =>
      rw [heq] at hstep
      refine ⟨hstep, fun r₁ h => ?_⟩
      cases h
      exact r.inodes_withFhOut _
    · next heq =>
      rw [heq] at hstep
      exact ⟨hstep, nofun⟩

theorem delegate_calls (scan : PathScan) (fs : RemapFs (Recorded T)) (req r : VolumeRequest) (groups : List ℕ) :
    (fs.delegate scan req r groups).2.inner.calls =
      (r, (FilesystemHandler.handleRequestWithGroups fs.inner r groups).1) :: fs.inner.calls := by
  unfold delegate
  dsimp only
  rw [(MapStep.remapResponse scan _ _ _).inner]
  obtain ⟨highest, hframe⟩ := guestHandleResponse_frame
    ({ fs with inner := (FilesystemHandler.handleRequestWithGroups fs.inner r groups).2 } : RemapFs (Recorded T))
    (FilesystemHandler.handleRequestWithGroups fs.inner r groups).1
  rw [hframe]
  rfl

theorem calls_translate (scan : PathScan) (fs : RemapFs (Recorded T)) (req : VolumeRequest) (groups : List ℕ) :
    ∃ made, (fs.handleRequestWithGroups scan req groups).2.inner.calls = made ++ fs.inner.calls ∧
      ∀ c ∈ made, fs.Translates req c.1 := by
  have hopened : ∀ {fs' : RemapFs (Recorded T)}, HandleStep req fs fs' →
      ∃ made, fs'.inner.calls = made ++ fs.inner.calls ∧ ∀ c ∈ made, fs.Translates req c.1 := by
    intro fs' hstep
    obtain ⟨made, hcalls, hopens⟩ := hstep.made
    refine ⟨made, hcalls, fun c hc => ?_⟩
    obtain ⟨m, hm, i, hi, hopen⟩ := hopens c hc
    exact .inr ⟨m, hm, i, hi, hopen.inodes⟩
  generalize hout : fs.handleRequestWithGroups scan req groups = out
  have h := served scan fs req groups
  rw [hout] at h
  cases h with
  | unknown => exact ⟨[], rfl, nofun⟩
  | @released r g hr hs =>
    unfold releaseStale
    split
    · refine ⟨[_], rfl, fun c hc => ?_⟩
      rw [mem_singleton.mp hc]
      left
      rw [VolumeRequest.inodes_withFh]
      exact remapRequestInodes_carried hr
    · exact ⟨[], rfl, nofun⟩
  | @badFh r fs₁ hr hs h =>
    have hstep := (remapFh_step fs req r).1
    rw [h] at hstep
    exact hopened hstep
  | @badFhOut r r₁ fs₁ fs₂ hr hs h h' =>
    have hstep := (remapFh_step fs req r).1
    have hstep' := (remapFhOut_step fs₁ req r₁).1
    rw [h] at hstep
    rw [h'] at hstep'
    exact hopened (hstep.trans hstep')
  | @delegated r r₁ r₂ fs₁ fs₂ hr hs h h' =>
    obtain ⟨hstep, hr₁⟩ := remapFh_step fs req r
    obtain ⟨hstep', hr₂⟩ := remapFhOut_step fs₁ req r₁
    rw [h] at hstep hr₁
    rw [h'] at hstep' hr₂
    obtain ⟨made, hcalls, htr⟩ := hopened (hstep.trans hstep')
    refine ⟨_ :: made, by rw [delegate_calls, hcalls]; rfl, fun c hc => ?_⟩
    rcases mem_cons.mp hc with rfl | hc
    · left
      rw [hr₂ r₂ rfl, hr₁ r₁ rfl]
      exact remapRequestInodes_carried hr
    · exact htr c hc

end RemapFs

end Fcvm.Remap
