import Fcvm.Remap.InodeSafety

namespace Fcvm.Remap

namespace VolumeRequest

variable (req : VolumeRequest)

def Names (g n : ℕ) : Prop :=
  req.fh = some g ∧ req.ino = some n ∨ req.fhOut = some (n, g)

def Mentions (g : ℕ) : Prop := req.fh = some g ∨ ∃ n, req.fhOut = some (n, g)

def Passes (req c : VolumeRequest) (g x : ℕ) : Prop :=
  req.fh = some g ∧ c.fh = some x ∨ ∃ n i, req.fhOut = some (n, g) ∧ c.fhOut = some (i, x)

def releases (g : ℕ) : Bool :=
  match req with
  | .release _ fh | .releasedir _ fh => fh == g
  | _ => false

theorem fh_withFh (x : ℕ) : (req.withFh x).fh = none ∨ (req.withFh x).fh = some x := by
  cases req <;> first | exact .inl rfl | exact .inr rfl

theorem fh_withFh_of_some {req : VolumeRequest} {g : ℕ} (x : ℕ) (h : req.fh = some g) : (req.withFh x).fh = some x := by
  cases req <;> first | rfl | cases h

theorem fhOut_withFh (x : ℕ) : (req.withFh x).fhOut = req.fhOut := by
  cases req <;> rfl

theorem fh_withFhOut (x : ℕ) : (req.withFhOut x).fh = req.fh := by
  cases req <;> rfl

theorem fhOut_withFhOut (x : ℕ) : (req.withFhOut x).fhOut = req.fhOut.map fun p => (p.1, x) := by
  cases req <;> rfl

end VolumeRequest

namespace RemapFs

variable {T : Type}

theorem Opens.fh {i : ℕ} {c : VolumeRequest} (h : Opens i c) : c.fh = none ∧ c.fhOut = none := by
  cases c <;> first | exact ⟨rfl, rfl⟩ | cases h

variable {req : VolumeRequest} {fs fs' : RemapFs (Recorded T)} {g x : ℕ}
  {made made' : List (VolumeRequest × VolumeResponse)}

theorem remapRequestInodes_fh {fs : RemapFs T} {r : VolumeRequest} (h : fs.remapRequestInodes req = some r) :
    r.fh = req.fh ∧ r.fhOut.map Prod.snd = req.fhOut.map Prod.snd := by
  cases req with
  | forget | batchForget =>
    cases h
    exact ⟨rfl, rfl⟩
  | link | rename | copyFileRange | remapFileRange =>
    obtain ⟨_, _, h⟩ := Option.bind_eq_some_iff.mp h
    obtain ⟨_, _, h⟩ := Option.bind_eq_some_iff.mp h
    cases h
    exact ⟨rfl, rfl⟩
  | _ =>
    obtain ⟨_, _, h⟩ := Option.bind_eq_some_iff.mp h
    cases h
    exact ⟨rfl, rfl⟩

def Opened (fs : RemapFs (Recorded T)) (req : VolumeRequest) (calls : List (VolumeRequest × VolumeResponse))
    (g x : ℕ) : Prop :=
  ∃ n i, req.Names g n ∧ fs.toInner n = some i ∧ ∃ c ∈ calls, Opens i c.1 ∧ reopenedAs c.2 = some x

theorem Opened.mono
    {calls calls' : List (VolumeRequest × VolumeResponse)} (h : fs.Opened req calls g x)
    (hinner : ∀ n i, fs.toInner n = some i → fs'.toInner n = some i) (hcalls : ∀ c ∈ calls, c ∈ calls') :
    fs'.Opened req calls' g x := by
  obtain ⟨n, i, hn, hi, c, hc, hopen⟩ := h
  exact ⟨n, i, hn, hinner n i hi, c, hcalls c hc, hopen⟩

inductive Resolved (fs : RemapFs (Recorded T)) (req : VolumeRequest)
    (made : List (VolumeRequest × VolumeResponse)) (g : ℕ) : ℕ → Prop
  | zero (h : g = 0) : Resolved fs req made g 0
  | current (h : g ≠ 0) (hs : fs.isStaleHandle g = false) : Resolved fs req made g (g - fs.handleBase)
  | remembered {x : ℕ} (hs : fs.isStaleHandle g = true)
    (h : fs.handleRemap.lookup g = some x) : Resolved fs req made g x
  | reopened {x : ℕ} (hs : fs.isStaleHandle g = true) (h : fs.Opened req made g x) : Resolved fs req made g x

theorem Resolved.mono (h : Resolved fs req made g x)
    (hmade : ∀ c ∈ made, c ∈ made') : Resolved fs req made' g x := by
  cases h with
  | zero h => exact .zero h
  | current h hs => exact .current h hs
  | remembered hs h => exact .remembered hs h
  | reopened hs h => exact .reopened hs (h.mono (fun _ _ h => h) hmade)

structure Prepares (req : VolumeRequest) (made : List (VolumeRequest × VolumeResponse))
    (fs fs' : RemapFs (Recorded T)) : Prop where
  calls : fs'.inner.calls = made ++ fs.inner.calls
  opens : ∀ c ∈ made, ∃ i, Opens i c.1
  toInner : fs'.stableToInner = fs.stableToInner
  base : fs'.handleBase = fs.handleBase
  highest : fs'.maxGuestHandle = fs.maxGuestHandle
  remap : ∀ g x, fs'.handleRemap.lookup g = some x →
    fs.handleRemap.lookup g = some x ∨ fs.isStaleHandle g = true ∧ fs.Opened req made g x

theorem Prepares.refl (req : VolumeRequest) (fs : RemapFs (Recorded T)) : Prepares req [] fs fs :=
  ⟨rfl, nofun, rfl, rfl, rfl, fun _ _ h => .inl h⟩

theorem isStaleHandle_congr (h : fs'.handleBase = fs.handleBase) (g : ℕ) :
    fs'.isStaleHandle g = fs.isStaleHandle g := by
  simp only [isStaleHandle, h]

theorem Prepares.trans
    {fs₁ fs₂ fs₃ : RemapFs (Recorded T)} (h : Prepares req made fs₁ fs₂) (h' : Prepares req made' fs₂ fs₃) :
    Prepares req (made' ++ made) fs₁ fs₃ := by
  refine ⟨?_, ?_, h'.toInner.trans h.toInner, h'.base.trans h.base, h'.highest.trans h.highest, ?_⟩
  · rw [h'.calls, h.calls, List.append_assoc]
  · intro c hc
    rcases List.mem_append.mp hc with hc | hc
    · exact h'.opens c hc
    · exact h.opens c hc
  · intro g x hx
    rcases h'.remap g x hx with hx | hx
    · rcases h.remap g x hx with hx | hx
      · exact .inl hx
      · exact .inr ⟨hx.1, hx.2.mono (fun _ _ h => h) fun c hc => List.mem_append_right _ hc⟩
    · refine .inr ⟨isStaleHandle_congr h.base g ▸ hx.1, hx.2.mono (fun n i hi => ?_) fun c hc =>
        List.mem_append_left _ hc⟩
      rwa [RemapFs.toInner, h.toInner] at hi

theorem Resolved.back (h : Resolved fs' req made' g x) (hp : Prepares req made fs fs') :
    Resolved fs req (made' ++ made) g x := by
  have hstale := isStaleHandle_congr hp.base g
  cases h with
  | zero h => exact .zero h
  | current h hs =>
    rw [hp.base]
    exact .current h (hstale ▸ hs)
  | remembered hs h =>
    rcases hp.remap g x h with h | h
    · exact .remembered (hstale ▸ hs) h
    · exact .reopened (hstale ▸ hs) (h.2.mono (fun _ _ h => h) fun c hc => List.mem_append_right _ hc)
  | reopened hs h =>
    refine .reopened (hstale ▸ hs) (h.mono (fun n i hi => ?_) fun c hc => List.mem_append_left _ hc)
    rwa [RemapFs.toInner, hp.toInner] at hi

theorem InnerHandle.prepares {n : Option ℕ}
    {out : Option ℕ × RemapFs (Recorded T)} (h : InnerHandle fs g n out) (hn : ∀ m, n = some m → req.Names g m) :
    ∃ made, Prepares req made fs out.2 ∧ ∀ x, out.1 = some x → Resolved fs req made g x := by
  cases h with
  | zero h =>
    refine ⟨[], .refl req fs, fun x hx => ?_⟩
    cases hx
    exact .zero h
  | current h hs =>
    refine ⟨[], .refl req fs, fun x hx => ?_⟩
    cases hx
    exact .current h hs
  | remembered hs h =>
    refine ⟨[], .refl req fs, fun x hx => ?_⟩
    cases hx
    exact .remembered hs h
  | @refused inner made hs hcalls hopens =>
    refine ⟨made, ⟨hcalls, fun c hc => ?_, rfl, rfl, rfl, fun _ _ h => .inl h⟩, nofun⟩
    obtain ⟨_, i, _, _, hopen⟩ := hopens c hc
    exact ⟨i, hopen⟩
  | @reopened inner made m i x hs hm hi hcalls hopens hx =>
    obtain ⟨c, hc, hcx⟩ := hx
    have hopened : fs.Opened req made g x := ⟨m, i, hn m hm, hi, c, hc, hopens c hc, hcx⟩
    refine ⟨made, ⟨hcalls, fun c hc => ⟨i, hopens c hc⟩, rfl, rfl, rfl, fun g' y hy => ?_⟩, fun y hy => ?_⟩
    · by_cases hg : g' = g
      · subst hg
        cases (AList.lookup_insert _).symm.trans hy
        exact .inr ⟨hs, hopened⟩
      · exact .inl ((AList.lookup_insert_ne hg).symm.trans hy)
    · cases hy
      exact .reopened hs hopened

variable [FilesystemHandler T]

theorem remapFh_prepares (fs : RemapFs (Recorded T)) (req r : VolumeRequest) :
    ∃ made, Prepares req made fs (fs.remapFh req r).2 ∧ ∀ r₁, (fs.remapFh req r).1 = some r₁ →
      r₁.fhOut = r.fhOut ∧ ∀ g x, req.fh = some g → r₁.fh = some x → Resolved fs req made g x := by
  unfold remapFh
  split
  · next hnone =>
    refine ⟨[], .refl req fs, fun r₁ h => ?_⟩
    cases h
    refine ⟨rfl, fun g x hg => ?_⟩
    cases hnone.symm.trans hg
  · next g hg =>
    have hn : ∀ m, req.ino = some m → req.Names g m := fun m hm => .inl ⟨hg, hm⟩
    obtain ⟨made, hp, hres⟩ := (innerHandle_spec fs g req.ino req.isDirHandleOp).prepares hn
    refine ⟨made, ?_⟩
    split
    · next y fs₁ heq =>
      rw [heq] at hp hres
      refine ⟨hp, fun r₁ h => ?_⟩
      cases h
      refine ⟨r.fhOut_withFh _, fun g' x hg' hx => ?_⟩
      cases hg.symm.trans hg'
      rcases r.fh_withFh y with h | h
      · cases h.symm.trans hx
      · cases h.symm.trans hx
        exact hres y rfl
    · next heq =>
      rw [heq] at hp
      exact ⟨hp, nofun⟩

theorem remapFhOut_prepares (fs : RemapFs (Recorded T)) (req r : VolumeRequest) :
    ∃ made, Prepares req made fs (fs.remapFhOut req r).2 ∧ ∀ r₁, (fs.remapFhOut req r).1 = some r₁ →
      r₁.fh = r.fh ∧ ∀ n g i x, req.fhOut = some (n, g) → r₁.fhOut = some (i, x) → Resolved fs req made g x := by
  unfold remapFhOut
  split
  · next hnone =>
    refine ⟨[], .refl req fs, fun r₁ h => ?_⟩
    cases h
    refine ⟨rfl, fun n g i x hg => ?_⟩
    cases hnone.symm.trans hg
  · next n g hg =>
    have hn : ∀ m, some n = some m → req.Names g m := by
      rintro m ⟨⟩
      exact .inr hg
    obtain ⟨made, hp, hres⟩ := (innerHandle_spec fs g (some n) false).prepares hn
    refine ⟨made, ?_⟩
    split
    · next y fs₁ heq =>
      rw [heq] at hp hres
      refine ⟨hp, fun r₁ h => ?_⟩
      cases h
      refine ⟨r.fh_withFhOut _, fun n' g' i x hg' hx => ?_⟩
      cases hg.symm.trans hg'
      rw [VolumeRequest.fhOut_withFhOut] at hx
      obtain ⟨p, _, hp⟩ := Option.map_eq_some_iff.mp hx
      cases hp
      exact hres y rfl
    · next heq =>
      rw [heq] at hp
      exact ⟨hp, nofun⟩

omit [FilesystemHandler T] in
theorem remapResponse_handle {scan : PathScan} {fs : RemapFs T} {resp : VolumeResponse}
    (h : (fs.remapResponse scan req resp).1.handle = some g) : resp.handle = some g := by
  have hentry : ∀ parent name, (fs.remapEntryResponse parent name resp).1.handle = some g → resp.handle = some g := by
    intro parent name h
    cases resp with
    | entry | created =>
      simp only [remapEntryResponse] at h
      split at h
      · exact h
      · cases h
    | _ => exact h
  unfold remapResponse at h
  split at h
  · exact h
  · split at h
    case h_7 | h_8 =>
      cases resp <;> exact h
    case h_9 | h_10 =>
      cases resp <;> exact h
    all_goals first | exact hentry _ _ h | exact h

theorem delegate_handle {scan : PathScan} {fs : RemapFs T} {r : VolumeRequest} {groups : List ℕ}
    (h : (fs.delegate scan req r groups).1.handle = some g) (hg : g ≠ 0) :
    ∃ f, (FilesystemHandler.handleRequestWithGroups fs.inner r groups).1.handle = some f ∧ f ≠ 0 ∧
      g = f + fs.handleBase ∧ g ≤ (fs.delegate scan req r groups).2.maxGuestHandle := by
  unfold delegate at h ⊢
  dsimp only at h ⊢
  generalize FilesystemHandler.handleRequestWithGroups fs.inner r groups = answer at h ⊢
  rw [(MapStep.remapResponse scan _ _ _).highest]
  have h := remapResponse_handle h
  unfold guestHandleResponse at h ⊢
  cases hf : answer.1.handle with
  | none =>
    rw [hf] at h
    cases hf.symm.trans h
  | some f =>
    rw [hf] at h
    dsimp only at h ⊢
    split at h
    · next hzero =>
      cases hf.symm.trans h
      exact absurd hzero hg
    · next hne =>
      split at h
      · next hlt =>
        have hval : g = f + fs.handleBase := by
          generalize answer.1 = resp at h hf
          cases resp <;> first | (cases h; rfl) | cases hf
        refine ⟨f, rfl, hne, hval, ?_⟩
        rw [if_neg hne, if_pos hlt, hval]
        exact Nat.le_max_right _ _
      · cases h

theorem delegate_frame (scan : PathScan) (fs : RemapFs T) (req r : VolumeRequest) (groups : List ℕ) :
    (fs.delegate scan req r groups).2.handleRemap = fs.handleRemap ∧
      (fs.delegate scan req r groups).2.handleBase = fs.handleBase ∧
      fs.maxGuestHandle ≤ (fs.delegate scan req r groups).2.maxGuestHandle := by
  unfold delegate
  dsimp only
  generalize FilesystemHandler.handleRequestWithGroups fs.inner r groups = answer
  rw [(MapStep.remapResponse scan _ _ _).highest, (MapStep.remapResponse scan _ _ _).remap,
    (MapStep.remapResponse scan _ _ _).base]
  unfold guestHandleResponse
  split
  · exact ⟨rfl, rfl, Nat.le_refl _⟩
  · split
    · exact ⟨rfl, rfl, Nat.le_refl _⟩
    · split
      · exact ⟨rfl, rfl, Nat.le_max_left _ _⟩
      · exact ⟨rfl, rfl, Nat.le_refl _⟩

end RemapFs

end Fcvm.Remap
