import Fcvm.Uffd.Placement

namespace Fcvm.Uffd

variable {ctx : VmContext}

theorem place_maps {runOffset runEnd : ℕ} {region : GuestRegionUffdMapping} {segment : Segment} (hctx : ctx.Accepted)
    (hregion : region ∈ ctx.mappings) (h : place ctx runOffset runEnd region = some segment) :
    Maps ctx segment.hostAddr segment.fileOffset segment.len := by
  obtain ⟨hbase, hoffset, hsize⟩ := hctx.aligned region hregion
  unfold place at h
  dsimp only at h
  split at h
  · cases h
  · next hin =>
    split at h
    · cases h
    · cases h
      have hstart : ctx.pageSize ∣ (max runOffset region.offset - region.offset) / ctx.pageSize * ctx.pageSize :=
        Nat.dvd_mul_left _ _
      have hend : ctx.pageSize ∣ min ((min runEnd (region.offset + region.size) - region.offset) ⌈/⌉ ctx.pageSize *
          ctx.pageSize) region.size := by
        rcases min_choice ((min runEnd (region.offset + region.size) - region.offset) ⌈/⌉ ctx.pageSize *
          ctx.pageSize) region.size with hm | hm
        · rw [hm]
          exact Nat.dvd_mul_left _ _
        · rw [hm]
          exact hsize
      have hle := min_le_right ((min runEnd (region.offset + region.size) - region.offset) ⌈/⌉ ctx.pageSize *
        ctx.pageSize) region.size
      generalize (max runOffset region.offset - region.offset) / ctx.pageSize * ctx.pageSize = relStart at hstart
      generalize min ((min runEnd (region.offset + region.size) - region.offset) ⌈/⌉ ctx.pageSize * ctx.pageSize)
        region.size = relEnd at hend hle
      refine ⟨Nat.dvd_add hbase hstart, Nat.dvd_add hoffset hstart, Nat.dvd_sub hend hstart, fun x hx => ?_⟩
      dsimp only at hx ⊢
      exact ⟨region, hregion, by omega, by omega, by omega⟩

theorem merge_maps {previous segment merged : Segment}
    (hprevious : Maps ctx previous.hostAddr previous.fileOffset previous.len)
    (hsegment : Maps ctx segment.hostAddr segment.fileOffset segment.len) (h : merge previous segment = some merged) :
    Maps ctx merged.hostAddr merged.fileOffset merged.len := by
  unfold merge at h
  dsimp only at h
  split at h
  · cases h
  · next hin =>
    cases h
    have hgap : ctx.pageSize ∣ segment.hostAddr - previous.hostAddr := Nat.dvd_sub hsegment.host_dvd hprevious.host_dvd
    refine ⟨hprevious.host_dvd, hprevious.file_dvd, ?_, fun x hx => ?_⟩
    · rcases max_choice previous.len (segment.hostAddr - previous.hostAddr + segment.len) with hm | hm
      · rw [hm]
        exact hprevious.len_dvd
      · rw [hm]
        exact Nat.dvd_add hgap hsegment.len_dvd
    · dsimp only at hx ⊢
      rcases Nat.lt_or_ge x previous.len with hlt | hge
      · exact hprevious.places x hlt
      · -- past the end of the previous segment, so in the next one
        obtain ⟨m, hm, hlow, hhigh, heq⟩ := hsegment.places (x - (segment.hostAddr - previous.hostAddr)) (by omega)
        exact ⟨m, hm, by omega, by omega, by omega⟩

theorem mergeAll_maps {pending : Option Segment} {segments : List Segment}
    (hpending : ∀ segment, pending = some segment → Maps ctx segment.hostAddr segment.fileOffset segment.len)
    (hsegments : ∀ segment ∈ segments, Maps ctx segment.hostAddr segment.fileOffset segment.len) :
    ∀ segment ∈ mergeAll pending segments, Maps ctx segment.hostAddr segment.fileOffset segment.len := by
  induction segments generalizing pending with
  | nil =>
    intro segment hsegment
    cases pending with
    | none => cases hsegment
    | some previous =>
      rw [List.mem_singleton.mp hsegment]
      exact hpending previous rfl
  | cons next segments ih =>
    have hnext := hsegments next List.mem_cons_self
    have hrest := fun segment hsegment => hsegments segment (List.mem_cons_of_mem next hsegment)
    cases pending with
    | none =>
      apply ih
      · intro segment heq
        cases heq
        exact hnext
      · exact hrest
    | some previous =>
      have hprevious := hpending previous rfl
      intro segment hsegment
      unfold mergeAll at hsegment
      split at hsegment
      · next merged hmerge =>
        refine ih (fun other heq => ?_) hrest segment hsegment
        cases heq
        exact merge_maps hprevious hnext hmerge
      · rcases List.mem_cons.mp hsegment with rfl | hsegment
        · exact hprevious
        · refine ih (fun other heq => ?_) hrest segment hsegment
          cases heq
          exact hnext

theorem plan_maps (hctx : ctx.Accepted) (runs : List (ℕ × ℕ)) :
    ∀ segment ∈ plan ctx runs, Maps ctx segment.hostAddr segment.fileOffset segment.len := by
  unfold plan
  split
  · apply mergeAll_maps
    · exact nofun
    · intro segment hsegment
      obtain ⟨run, -, hsegment⟩ := List.mem_flatMap.mp hsegment
      unfold placeRun at hsegment
      dsimp only at hsegment
      split at hsegment
      · obtain ⟨region, hregion, hplace⟩ := List.mem_filterMap.mp hsegment
        exact place_maps hctx hregion hplace
      · cases hsegment
  · exact nofun

end Fcvm.Uffd
