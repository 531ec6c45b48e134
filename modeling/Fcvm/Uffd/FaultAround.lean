import Fcvm.Uffd.GivenBack

namespace Fcvm.Uffd

open List

variable {ctx : VmContext} {m : GuestRegionUffdMapping} {granule offset : ℕ}

/-- The pages of the block after the demanded one, then those before it, where the arithmetic does not overflow. -/
theorem granuleSegments_eq (hctx : ctx.Accepted) (hm : m ∈ ctx.mappings) (hgranule : granule ≠ 0)
    (hfirst : m.offset ≤ offset) (hlast : offset + ctx.pageSize ≤ m.offset + m.size)
    (hend : offset / granule * granule + granule < ADDRESSES) :
    let page := m.baseHostVirtAddr + (offset - m.offset)
    let start := max (offset / granule * granule) m.offset
    let stop := min (offset / granule * granule + granule) (m.offset + m.size)
    granuleSegments m granule ctx.pageSize page offset =
      (if offset + ctx.pageSize < stop then
        [⟨page + ctx.pageSize, offset + ctx.pageSize, stop - (offset + ctx.pageSize)⟩] else []) ++
      if start < offset then [⟨page - (offset - start), start, offset - start⟩] else [] := by
  have hhost := hctx.host m hm
  have hfile := (hctx.file m hm).trans_lt hctx.memSize
  unfold granuleSegments
  generalize offset / granule * granule = block at *
  dsimp only
  have hguard : ¬(ADDRESSES ≤ m.offset + m.size ∨ granule = 0 ∨ ADDRESSES ≤ block + granule ∨
      ADDRESSES ≤ offset + ctx.pageSize) := by omega
  have hover : ¬ADDRESSES ≤ m.baseHostVirtAddr + (offset - m.offset) + ctx.pageSize := by omega
  have hunder : ¬m.baseHostVirtAddr + (offset - m.offset) < offset - max block m.offset := by omega
  simp only [if_neg hguard, if_neg hover, if_neg hunder, ← apply_ite some]

theorem granule_is_tiled {k : ℕ} (hctx : ctx.Accepted) (hm : m ∈ ctx.mappings) (hgranule : granule = 2 ^ k)
    (hpages : ctx.pageSize ∣ granule) (hoffset : ctx.pageSize ∣ offset) (hfirst : m.offset ≤ offset)
    (hlast : offset < m.offset + m.size) :
    let page := m.baseHostVirtAddr + (offset - m.offset)
    let block := offset / granule * granule
    let pieces := granuleSegments m granule ctx.pageSize page offset
    (block + granule < ADDRESSES →
      (∀ x, (∃ p ∈ ⟨page, offset, ctx.pageSize⟩ :: pieces, p.fileOffset ≤ x ∧ x < p.fileOffset + p.len) ↔
        (block ≤ x ∧ x < block + granule) ∧ m.offset ≤ x ∧ x < m.offset + m.size) ∧
      (⟨page, offset, ctx.pageSize⟩ :: pieces).Pairwise (fun p q =>
        p.fileOffset + p.len ≤ q.fileOffset ∨ q.fileOffset + q.len ≤ p.fileOffset)) ∧
    (ADDRESSES ≤ block + granule → pieces = []) ∧
    ∀ p ∈ pieces, 0 < p.len ∧ ctx.pageSize ∣ p.fileOffset ∧ ctx.pageSize ∣ p.hostAddr ∧ ctx.pageSize ∣ p.len ∧
      p.hostAddr + m.offset = m.baseHostVirtAddr + p.fileOffset := by
  obtain ⟨hbase, hregion, hsize⟩ := hctx.aligned m hm
  have hne : granule ≠ 0 := hgranule ▸ (Nat.two_pow_pos k).ne'
  have hnext : ctx.pageSize ∣ offset + ctx.pageSize := Nat.dvd_add hoffset dvd_rfl
  have hblock : ctx.pageSize ∣ offset / granule * granule := hpages.mul_left _
  have hle := Nat.div_mul_le_self offset granule
  have hlt := Nat.lt_div_mul_add (a := offset) (Nat.pos_of_ne_zero hne)
  -- the block and the region end at a page, so the demanded page lies in both
  have hfits : offset + ctx.pageSize ≤ m.offset + m.size :=
    Nat.le_of_lt_add_of_dvd (by omega) hnext (Nat.dvd_add hregion hsize)
  have hinside : offset + ctx.pageSize ≤ offset / granule * granule + granule :=
    Nat.le_of_lt_add_of_dvd (by omega) hnext (Nat.dvd_add hblock hpages)
  dsimp only
  by_cases hend : offset / granule * granule + granule < ADDRESSES
  · rw [granuleSegments_eq hctx hm hne hfirst hfits hend]
    generalize offset / granule * granule = block at *
    have hstart : ctx.pageSize ∣ max block m.offset := by
      rcases max_choice block m.offset with h | h <;> rwa [h]
    have hstop : ctx.pageSize ∣ min (block + granule) (m.offset + m.size) := by
      rcases min_choice (block + granule) (m.offset + m.size) with h | h <;> rw [h]
      · exact Nat.dvd_add hblock hpages
      · exact Nat.dvd_add hregion hsize
    have hpage := Nat.dvd_add hbase (Nat.dvd_sub hoffset hregion)
    refine ⟨fun _ => ⟨fun x => ?_, ?_⟩, fun h => absurd h (Nat.not_le.mpr hend), ?_⟩
    · split <;> split <;> simp <;> omega
    · split <;> split <;> simp <;> omega
    · intro p hp
      rcases mem_append.mp hp with hp | hp
      · split at hp
        · obtain rfl := mem_singleton.mp hp
          exact ⟨by dsimp only; omega, hnext, Nat.dvd_add hpage dvd_rfl, Nat.dvd_sub hstop hnext, by dsimp only; omega⟩
        · cases hp
      · split at hp
        · obtain rfl := mem_singleton.mp hp
          exact ⟨by dsimp only; omega, hstart, Nat.dvd_sub hpage (Nat.dvd_sub hoffset hstart),
            Nat.dvd_sub hoffset hstart, by dsimp only; omega⟩
        · cases hp
  · have hnil : granuleSegments m granule ctx.pageSize (m.baseHostVirtAddr + (offset - m.offset)) offset = [] := by
      unfold granuleSegments
      dsimp only
      rw [if_pos (.inr (.inr (.inl (Nat.le_of_not_lt hend))))]
    rw [hnil]
    exact ⟨fun h => absurd h hend, fun _ => rfl, by simp⟩

theorem granule_is_tiled_fourthPage :
    let pieces := granuleSegments ⟨2 ^ 40, 0, 18 * 2 ^ 20⟩ (2 ^ 16) 4096 (2 ^ 40 + 3 * 4096) (3 * 4096)
    pieces.length = 2 ∧ ∀ p ∈ pieces, 0 < p.len ∧ 4096 ∣ p.fileOffset ∧ 4096 ∣ p.hostAddr ∧ 4096 ∣ p.len ∧
      p.hostAddr + 0 = 2 ^ 40 + p.fileOffset :=
  ⟨by decide, (granule_is_tiled (k := 16) smallClone_accepted (mem_singleton_self _) rfl (by decide) (by decide)
    (by decide) (by decide)).2.2⟩

theorem planned_bytes_keep_their_place (hctx : ctx.Accepted) (runs : List (ℕ × ℕ)) {segment : Segment}
    (h : segment ∈ plan ctx runs) :
    (ctx.pageSize ∣ segment.hostAddr ∧ ctx.pageSize ∣ segment.fileOffset ∧ ctx.pageSize ∣ segment.len) ∧
      Places ctx segment.hostAddr segment.fileOffset segment.len := by
  obtain ⟨hhost, hfile, hlen, hplaces⟩ := plan_maps hctx runs segment h
  exact ⟨⟨hhost, hfile, hlen⟩, hplaces⟩

theorem planned_bytes_keep_their_place_onePage : Places smallClone (2 ^ 40 + 4096) 4096 4096 :=
  (planned_bytes_keep_their_place smallClone_accepted [(5000, 10)] (mem_singleton_self _)).2

end Fcvm.Uffd
