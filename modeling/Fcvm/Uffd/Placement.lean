import Fcvm.Uffd.Replay

namespace Fcvm.Uffd

open List

variable {ctx : VmContext} {host fileOffset len : ℕ}

variable {d n page : ℕ} {m : GuestRegionUffdMapping}

/-- Every byte of the clone from `host` on lies in a region, and at its place in the memory file. -/
def Places (ctx : VmContext) (host fileOffset len : ℕ) : Prop :=
  ∀ x < len, ∃ m ∈ ctx.mappings, m.baseHostVirtAddr ≤ host + x ∧ host + x < m.baseHostVirtAddr + m.size ∧
    fileOffset + x = m.offset + (host + x - m.baseHostVirtAddr)

structure Maps (ctx : VmContext) (host fileOffset len : ℕ) : Prop where
  host_dvd : ctx.pageSize ∣ host
  file_dvd : ctx.pageSize ∣ fileOffset
  len_dvd : ctx.pageSize ∣ len
  places : Places ctx host fileOffset len

namespace VmContext.Accepted

theorem pageSize_pos (h : ctx.Accepted) : 0 < ctx.pageSize := by
  obtain ⟨k, -, -, hk⟩ := h.pageSize
  rw [hk]
  exact Nat.two_pow_pos k

theorem pageSize_dvd_chunk (h : ctx.Accepted) : ctx.pageSize ∣ CHUNK_BYTES := by
  obtain ⟨k, -, hle, hk⟩ := h.pageSize
  rw [hk]
  exact pow_dvd_pow 2 hle

theorem pageSize_dvd_pieceCap (h : ctx.Accepted) : ctx.pageSize ∣ PlainRuns.pieceCap ctx.pageSize := by
  unfold PlainRuns.pieceCap
  rcases le_total COPY_BYTES ctx.pageSize with hle | hle
  · rw [max_eq_right hle]
  · rw [max_eq_left hle]
    obtain ⟨k, -, -, hk⟩ := h.pageSize
    have hpow : COPY_BYTES = 2 ^ 16 := rfl
    rw [hk, hpow] at hle
    rw [hk, hpow]
    exact pow_dvd_pow 2 ((Nat.pow_le_pow_iff_right (by decide)).mp hle)

end VmContext.Accepted

namespace Places

theorem sub (h : Places ctx host fileOffset len) (hd : d + n ≤ len) :
    Places ctx (host + d) (fileOffset + d) n := by
  intro x hx
  obtain ⟨m, hm, hle, hlt, heq⟩ := h (d + x) (by omega)
  exact ⟨m, hm, by omega, by omega, by omega⟩

theorem host_lt (h : Places ctx host fileOffset len) (hctx : ctx.Accepted) (hlen : 0 < len) :
    host + len < ADDRESSES := by
  obtain ⟨m, hm, hle, hlt, heq⟩ := h (len - 1) (by omega)
  have := hctx.host m hm
  omega

theorem file_le (h : Places ctx host fileOffset len) (hctx : ctx.Accepted) (hlen : 0 < len) :
    fileOffset + len ≤ ctx.memSize := by
  obtain ⟨m, hm, hle, hlt, heq⟩ := h (len - 1) (by omega)
  have := hctx.file m hm
  omega

theorem file_lt (h : Places ctx host fileOffset len) (hctx : ctx.Accepted) (hlen : 0 < len) :
    fileOffset + len < ADDRESSES := (h.file_le hctx hlen).trans_lt hctx.memSize

theorem file_dvd (h : Places ctx host fileOffset len) (hctx : ctx.Accepted) (hlen : 0 < len)
    (hhost : ctx.pageSize ∣ host) : ctx.pageSize ∣ fileOffset := by
  obtain ⟨m, hm, hle, hlt, heq⟩ := h 0 hlen
  obtain ⟨hbase, hoff, -⟩ := hctx.aligned m hm
  rw [Nat.add_zero, Nat.add_zero] at heq
  rw [heq]
  exact Nat.dvd_add hoff (Nat.dvd_sub hhost hbase)

end Places

namespace Maps

theorem sub (h : Maps ctx host fileOffset len) (hd : d + n ≤ len) (hdvd : ctx.pageSize ∣ d)
    (hn : ctx.pageSize ∣ n) : Maps ctx (host + d) (fileOffset + d) n :=
  ⟨Nat.dvd_add h.host_dvd hdvd, Nat.dvd_add h.file_dvd hdvd, hn, h.places.sub hd⟩

theorem drop (h : Maps ctx host fileOffset len) (hd : d ≤ len) (hdvd : ctx.pageSize ∣ d) :
    Maps ctx (host + d) (fileOffset + d) (len - d) := h.sub (by omega) hdvd (Nat.dvd_sub h.len_dvd hdvd)

theorem take (h : Maps ctx host fileOffset len) (hn : n ≤ len) (hdvd : ctx.pageSize ∣ n) :
    Maps ctx host fileOffset n := h.sub (by omega) (dvd_zero _) hdvd

end Maps

theorem saturatingAdd_eq {a b : ℕ} (h : a + b < ADDRESSES) : saturatingAdd a b = a + b := by
  unfold saturatingAdd
  omega

theorem Maps.saturating (h : Maps ctx host fileOffset len) (hctx : ctx.Accepted) (hd : d < len) :
    saturatingAdd host d = host + d ∧ saturatingAdd fileOffset d = fileOffset + d := by
  have hhost := h.places.host_lt hctx (by omega)
  have hfile := h.places.file_lt hctx (by omega)
  exact ⟨saturatingAdd_eq (by omega), saturatingAdd_eq (by omega)⟩

theorem chunkAt_eq_some {size : Option ℕ} {segment chunk : Segment} {done : ℕ}
    (h : chunkAt size segment done = some chunk) :
    done < segment.len ∧
      chunk = ⟨segment.hostAddr + done, segment.fileOffset + done, min CHUNK_BYTES (segment.len - done)⟩ := by
  unfold chunkAt at h
  dsimp only at h
  split at h
  · cases h
  · next hin =>
    split at h
    · cases h
    · cases h
      exact ⟨by omega, rfl⟩

/-- The bytes of a run, each its address in the clone and its place in the memory file. -/
def ReplayRun.bytes (run : ReplayRun) : List (ℕ × ℕ) :=
  (List.range run.len).map fun x => (run.hostAddr + x, run.fileOffset + x)

theorem ReplayRun.bytes_cut (host fileOffset : ℕ) (h : n ≤ len) : (ReplayRun.mk host fileOffset len).bytes =
    (ReplayRun.mk host fileOffset n).bytes ++ (ReplayRun.mk (host + n) (fileOffset + n) (len - n)).bytes := by
  obtain ⟨k, rfl⟩ := Nat.exists_eq_add_of_le h
  simp [ReplayRun.bytes, range_add, Nat.add_assoc]

namespace RemovedPages

def plain (removed : RemovedPages) (pageSize : ℕ) (byte : ℕ × ℕ) : Bool := !removed.contains byte.2 pageSize

variable {removed : RemovedPages}

theorem plain_bytes {pageSize : ℕ} {b : Bool} {byte : ℕ × ℕ} (hpos : 0 < pageSize) (hdvd : pageSize ∣ fileOffset)
    (h : ∀ g, fileOffset ≤ g * pageSize → g * pageSize < fileOffset + len → removed.has g = b)
    (hbyte : byte ∈ (ReplayRun.mk host fileOffset len).bytes) : removed.plain pageSize byte = !b := by
  obtain ⟨x, hx, rfl⟩ := mem_map.mp hbyte
  have hlow : fileOffset ≤ (fileOffset + x) / pageSize * pageSize := by
    obtain ⟨c, rfl⟩ := hdvd
    rw [Nat.mul_add_div hpos, Nat.add_mul, Nat.mul_comm c]
    exact Nat.le_add_right _ _
  have hhigh := Nat.div_mul_le_self (fileOffset + x) pageSize
  have hlt : x < len := mem_range.mp hx
  rw [plain, contains, h _ hlow (by omega)]

theorem clear_of_contains {pageSize : ℕ} (hpos : 0 < pageSize) (hdvd : pageSize ∣ fileOffset)
    (h : removed.contains fileOffset pageSize = false) : removed.Clear pageSize fileOffset pageSize := by
  intro g hle hlt
  obtain ⟨c, rfl⟩ := hdvd
  have hg : g = c := by
    have h1 : c ≤ g := by
      refine Nat.le_of_mul_le_mul_left ?_ hpos
      rw [Nat.mul_comm pageSize g]
      exact hle
    have h2 : g < c + 1 := by
      refine Nat.lt_of_mul_lt_mul_left (a := pageSize) ?_
      rw [Nat.mul_comm pageSize g, Nat.mul_add, Nat.mul_one]
      exact hlt
    omega
  rw [contains, Nat.mul_div_cancel_left c hpos] at h
  rw [hg]
  exact h

end RemovedPages

namespace PlainRuns

/-- The cursor is over pages that map, and the stretch it is in is clear where `fresh`. -/
structure Ok (ctx : VmContext) (removed : RemovedPages) (fresh : Prop) (r : PlainRuns) : Prop where
  maps : 0 < r.left → Maps ctx r.host r.at r.left
  at_le : r.stretchAt ≤ r.stretch
  le : r.stretch ≤ r.left
  at_dvd : ctx.pageSize ∣ r.stretchAt
  dvd : ctx.pageSize ∣ r.stretch
  clear : fresh → removed.Clear ctx.pageSize (r.at + r.stretchAt) (r.stretch - r.stretchAt)

/-- The bytes the cursor has still to yield. -/
def rest (removed : RemovedPages) (pageSize : ℕ) (r : PlainRuns) : List (ℕ × ℕ) :=
  (ReplayRun.mk (r.host + r.stretchAt) (r.at + r.stretchAt) (r.left - r.stretchAt)).bytes.filter
    (removed.plain pageSize)

variable {removed : RemovedPages} {fresh : Prop} {r : PlainRuns}

theorem ok_of_no_stretch (hmaps : 0 < r.left → Maps ctx r.host r.at r.left) (hstretch : r.stretch = 0)
    (hat : r.stretchAt = 0) : r.Ok ctx removed fresh := by
  refine ⟨hmaps, by omega, by omega, ?_, ?_, fun _ g hle hlt => ?_⟩
  · rw [hat]
    exact dvd_zero _
  · rw [hstretch]
    exact dvd_zero _
  · omega

theorem ok_new (h : Maps ctx host fileOffset len) : (new host fileOffset len).Ok ctx removed fresh :=
  ok_of_no_stretch (fun _ => h) rfl rfl

theorem advance_ok (hmaps : 0 < r.left → Maps ctx r.host r.at r.left) (hctx : ctx.Accepted) {run : ℕ}
    (hdvd : ctx.pageSize ∣ run) : (r.advance run).Ok ctx removed fresh := by
  refine ok_of_no_stretch (fun hleft => ?_) rfl rfl
  unfold advance at hleft ⊢
  dsimp only at hleft ⊢
  have hmaps' := hmaps (by omega)
  obtain ⟨hhost, hat⟩ := hmaps'.saturating hctx (show run < r.left by omega)
  rw [hhost, hat]
  exact hmaps'.drop (by omega) hdvd

theorem rest_advance (hmaps : 0 < r.left → Maps ctx r.host r.at r.left) (hctx : ctx.Accepted) {run : ℕ}
    (hle : run ≤ r.left) : (r.advance run).rest removed ctx.pageSize =
      (ReplayRun.mk (r.host + run) (r.at + run) (r.left - run)).bytes.filter (removed.plain ctx.pageSize) := by
  unfold rest advance
  rcases hle.eq_or_lt with rfl | hlt
  · simp [ReplayRun.bytes]
  · obtain ⟨hhost, hat⟩ := (hmaps (by omega)).saturating hctx hlt
    rw [hhost, hat]
    rfl

theorem seek_spec (hctx : ctx.Accepted) (hcounted : removed.Counted) {fuel : ℕ} (hfuel : r.left ≤ fuel)
    (h : r.Ok ctx removed True) (hstretch : r.stretch = 0) (hat : r.stretchAt = 0) :
    (seek removed ctx.pageSize fuel r).Ok ctx removed True ∧
      (seek removed ctx.pageSize fuel r).rest removed ctx.pageSize = r.rest removed ctx.pageSize ∧
      ((seek removed ctx.pageSize fuel r).stretchAt < (seek removed ctx.pageSize fuel r).stretch ∨
        (seek removed ctx.pageSize fuel r).left = 0) := by
  induction fuel generalizing r with
  | zero => exact ⟨h, rfl, .inr (Nat.le_zero.mp hfuel)⟩
  | succ fuel ih =>
    unfold seek
    split
    · next hend => exact ⟨h, rfl, .inr hend⟩
    · next hne =>
      have hmaps := h.maps (by omega)
      obtain ⟨hle, hdvd, huniform⟩ := @RemovedPages.runAt_spec removed ctx.pageSize r.at r.left
        hctx.pageSize_pos hcounted hmaps.file_dvd
      have hrun := hdvd hmaps.len_dvd hctx.pageSize_dvd_chunk
      have hpos := @RemovedPages.runAt_pos removed ctx.pageSize r.at r.left hctx.pageSize_pos (by omega)
      -- the run is at least a page, so that cutting it to what is left changes nothing
      have hclamp : max (min ctx.pageSize r.left) (min (removed.runAt r.at r.left ctx.pageSize).2 r.left) =
          (removed.runAt r.at r.left ctx.pageSize).2 := by
        have hpage := Nat.le_of_dvd hpos hrun
        omega
      dsimp only
      rw [hclamp]
      split
      · next hback =>
        obtain ⟨hok, hrest, hend⟩ := ih (r := r.advance _) (by simp only [advance]; omega)
          (advance_ok h.maps hctx hrun) rfl rfl
        refine ⟨hok, ?_, hend⟩
        rw [hrest, rest_advance h.maps hctx hle, rest, hat, Nat.add_zero, Nat.add_zero, Nat.sub_zero,
          ReplayRun.bytes_cut r.host r.at hle, filter_append, self_eq_append_left, filter_eq_nil_iff]
        intro byte hbyte
        rw [RemovedPages.plain_bytes hctx.pageSize_pos hmaps.file_dvd huniform hbyte, hback]
        exact Bool.false_ne_true
      · next hback =>
        rw [Bool.not_eq_true] at hback
        refine ⟨⟨h.maps, hat ▸ Nat.zero_le _, hle, h.at_dvd, hrun, fun _ => ?_⟩, rfl, .inl (hat ▸ hpos)⟩
        dsimp only
        rw [hat]
        exact fun g hg hlt => (huniform g hg hlt).trans hback

/-- What a call of `next` yields comes off what the cursor has still to yield. -/
theorem next_spec (hctx : ctx.Accepted) (hcounted : removed.Counted) (h : r.Ok ctx removed fresh) :
    match next removed ctx.pageSize r with
    | none => r.rest removed ctx.pageSize = []
    | some (run, r') =>
      (Maps ctx run.hostAddr run.fileOffset run.len ∧
        (fresh → removed.Clear ctx.pageSize run.fileOffset run.len) ∧ r'.Ok ctx removed fresh) ∧
        (0 < run.len ∧ run.len ≤ pieceCap ctx.pageSize) ∧
        (fresh → run.bytes ++ r'.rest removed ctx.pageSize = r.rest removed ctx.pageSize) := by
  unfold next
  dsimp only
  generalize hr : (if r.stretchAt < r.stretch then r else seek removed ctx.pageSize r.left (r.advance r.stretch)) =
    found
  have hfound : found.Ok ctx removed fresh ∧ found.rest removed ctx.pageSize = r.rest removed ctx.pageSize ∧
      (found.stretchAt < found.stretch ∨ found.left = 0) := by
    rw [← hr]
    split
    · next hlt => exact ⟨h, rfl, .inl hlt⟩
    · next hge =>
      have hdone : r.stretchAt = r.stretch := le_antisymm h.at_le (Nat.not_lt.mp hge)
      obtain ⟨hok, hrest, hend⟩ := seek_spec hctx hcounted (r := r.advance r.stretch) (Nat.sub_le _ _)
        (advance_ok h.maps hctx h.dvd) rfl rfl
      refine ⟨{ hok with clear := fun _ => hok.clear trivial }, ?_, hend⟩
      rw [hrest, rest_advance h.maps hctx h.le, rest, hdone]
  obtain ⟨hok, hrest, hend⟩ := hfound
  rw [← hrest]
  by_cases hlt : found.stretchAt < found.stretch
  · rw [if_pos hlt]
    have hpiece : ctx.pageSize ∣ min (found.stretch - found.stretchAt) (pieceCap ctx.pageSize) := by
      rcases min_choice (found.stretch - found.stretchAt) (pieceCap ctx.pageSize) with hm | hm
      · rw [hm]
        exact Nat.dvd_sub hok.dvd hok.at_dvd
      · rw [hm]
        exact hctx.pageSize_dvd_pieceCap
    have hcap : 0 < pieceCap ctx.pageSize := lt_max_of_lt_right hctx.pageSize_pos
    generalize hp : min (found.stretch - found.stretchAt) (pieceCap ctx.pageSize) = piece at hpiece
    have hle := hok.le
    have hmaps := hok.maps (by omega)
    obtain ⟨hhost, hat⟩ := hmaps.saturating hctx (show found.stretchAt < found.left by omega)
    have hclear (hf : fresh) : removed.Clear ctx.pageSize (found.at + found.stretchAt) piece :=
      (hok.clear hf).mono le_rfl (by omega)
    have hsub := hmaps.sub (show found.stretchAt + piece ≤ found.left by omega) hok.at_dvd hpiece
    dsimp only
    rw [hhost, hat]
    refine ⟨⟨hsub, hclear, ?_⟩, ⟨by omega, by omega⟩, fun hf => ?_⟩
    · refine ⟨hok.maps, by dsimp only; omega, hle, Nat.dvd_add hok.at_dvd hpiece, hok.dvd, fun hf => ?_⟩
      exact (hok.clear hf).mono (by dsimp only; omega) (by dsimp only; omega)
    · rw [rest, rest, ReplayRun.bytes_cut _ _ (show piece ≤ found.left - found.stretchAt by omega), filter_append,
        Nat.add_assoc, Nat.add_assoc, Nat.sub_sub]
      congr 1
      refine (filter_eq_self.mpr fun byte hbyte => ?_).symm
      exact RemovedPages.plain_bytes hctx.pageSize_pos hsub.file_dvd (hclear hf) hbyte
  · rw [if_neg hlt]
    dsimp only
    rw [rest, hend.resolve_left hlt, Nat.zero_sub]
    rfl

/-- The cursor yields these pieces and then ends. -/
inductive Drains (removed : RemovedPages) (pageSize : ℕ) : PlainRuns → List ReplayRun → Prop
  | ended {r : PlainRuns} (hnext : next removed pageSize r = none) : Drains removed pageSize r []
  | piece {r r' : PlainRuns} {run : ReplayRun} {runs : List ReplayRun}
    (hnext : next removed pageSize r = some (run, r')) (hrest : Drains removed pageSize r' runs) :
    Drains removed pageSize r (run :: runs)

theorem collect_spec (hctx : ctx.Accepted) (hcounted : removed.Counted) {fuel : ℕ} (h : r.Ok ctx removed True)
    (hfuel : (r.rest removed ctx.pageSize).length ≤ fuel) :
    Drains removed ctx.pageSize r (collect removed ctx.pageSize fuel r) ∧
      (collect removed ctx.pageSize fuel r).flatMap ReplayRun.bytes = r.rest removed ctx.pageSize ∧
      ∀ run ∈ collect removed ctx.pageSize fuel r, (Maps ctx run.hostAddr run.fileOffset run.len ∧
        removed.Clear ctx.pageSize run.fileOffset run.len) ∧ 0 < run.len ∧ run.len ≤ pieceCap ctx.pageSize := by
  induction fuel generalizing r with
  | zero =>
    have hspec := next_spec hctx hcounted h
    cases hnext : next removed ctx.pageSize r with
    | none => exact ⟨.ended hnext, (eq_nil_of_length_eq_zero (Nat.le_zero.mp hfuel)).symm, nofun⟩
    | some found =>
      rw [hnext] at hspec
      simp only [← hspec.2.2 trivial, ReplayRun.bytes, length_append, length_map, length_range] at hfuel
      omega
  | succ fuel ih =>
    have hspec := next_spec hctx hcounted h
    unfold collect
    split
    · next hnext =>
      rw [hnext] at hspec
      exact ⟨.ended hnext, hspec.symm, nofun⟩
    · next run r' hnext =>
      rw [hnext] at hspec
      obtain ⟨⟨hmaps, hclear, hok⟩, hlen, hbytes⟩ := hspec
      simp only [← hbytes trivial, ReplayRun.bytes, length_append, length_map, length_range] at hfuel
      obtain ⟨hdrains, hrest, hruns⟩ := ih hok (by omega)
      rw [flatMap_cons, hrest, hbytes trivial]
      exact ⟨.piece hnext hdrains, rfl, forall_mem_cons.mpr ⟨⟨⟨hmaps, hclear trivial⟩, hlen⟩, hruns⟩⟩

theorem collect_new (hctx : ctx.Accepted) (hcounted : removed.Counted) (h : Maps ctx host fileOffset len) :
    Drains removed ctx.pageSize (new host fileOffset len)
        (collect removed ctx.pageSize len (new host fileOffset len)) ∧
      (collect removed ctx.pageSize len (new host fileOffset len)).flatMap ReplayRun.bytes =
        (ReplayRun.mk host fileOffset len).bytes.filter (removed.plain ctx.pageSize) ∧
      ∀ run ∈ collect removed ctx.pageSize len (new host fileOffset len),
        (Maps ctx run.hostAddr run.fileOffset run.len ∧ removed.Clear ctx.pageSize run.fileOffset run.len) ∧
          0 < run.len ∧ run.len ≤ pieceCap ctx.pageSize := by
  apply collect_spec hctx hcounted (ok_new h)
  refine (length_filter_le _ _).trans ?_
  simp [ReplayRun.bytes, new]

theorem Ok.weaken {removed' : RemovedPages} {fresh' : Prop} (h : r.Ok ctx removed fresh)
    (hfresh : fresh' → fresh ∧ removed' = removed) : r.Ok ctx removed' fresh' where
  maps := h.maps
  at_le := h.at_le
  le := h.le
  at_dvd := h.at_dvd
  dvd := h.dvd
  clear := fun hf => by
    obtain ⟨hold, hsame⟩ := hfresh hf
    rw [hsame]
    exact h.clear hold

end PlainRuns

theorem granuleSegments_places {granule : ℕ} (hm : m ∈ ctx.mappings)
    (hle : m.baseHostVirtAddr ≤ page) (hpage : page < m.baseHostVirtAddr + m.size)
    (hfile : fileOffset = m.offset + (page - m.baseHostVirtAddr)) {segment : Segment}
    (h : segment ∈ granuleSegments m granule ctx.pageSize page fileOffset) :
    Places ctx segment.hostAddr segment.fileOffset segment.len := by
  unfold granuleSegments at h
  dsimp only at h
  split at h
  · cases h
  · split at h
    · next after before hafter hbefore =>
      rcases mem_append.mp h with hin | hin
      · split at hafter
        · next hlt =>
          split at hafter
          · cases hafter
          · cases hafter
            rw [mem_singleton.mp hin]
            intro x hx
            exact ⟨m, hm, by dsimp only; omega, by dsimp only at hx ⊢; omega, by dsimp only; omega⟩
        · cases hafter
          cases hin
      · split at hbefore
        · next hlt =>
          split at hbefore
          · cases hbefore
          · cases hbefore
            rw [mem_singleton.mp hin]
            intro x hx
            exact ⟨m, hm, by dsimp only; omega, by dsimp only at hx ⊢; omega, by dsimp only; omega⟩
        · cases hbefore
          cases hin
    · cases h

theorem region_holds_page (hctx : ctx.Accepted) (hm : m ∈ ctx.mappings)
    (hlt : page < m.baseHostVirtAddr + m.size) (hpage : ctx.pageSize ∣ page) :
    page + ctx.pageSize ≤ m.baseHostVirtAddr + m.size := by
  obtain ⟨hbase, -, hsize⟩ := hctx.aligned m hm
  have hgap : ctx.pageSize ∣ m.baseHostVirtAddr + m.size - page := Nat.dvd_sub (Nat.dvd_add hbase hsize) hpage
  have := Nat.le_of_dvd (by omega) hgap
  omega

theorem maps_page (hctx : ctx.Accepted) (hm : m ∈ ctx.mappings)
    (hle : m.baseHostVirtAddr ≤ page) (hlt : page < m.baseHostVirtAddr + m.size) (hpage : ctx.pageSize ∣ page) :
    Maps ctx page (m.offset + (page - m.baseHostVirtAddr)) ctx.pageSize := by
  obtain ⟨hbase, hoffset, -⟩ := hctx.aligned m hm
  have hfits := region_holds_page hctx hm hlt hpage
  refine ⟨hpage, Nat.dvd_add hoffset (Nat.dvd_sub hpage hbase), dvd_rfl, fun x hx => ?_⟩
  exact ⟨m, hm, by omega, by omega, by omega⟩

theorem rememberIn_spec (hctx : ctx.Accepted) (hm : m ∈ ctx.mappings)
    (hsound : removed.Sound ctx.pageSize ctx.memSize) (start stop : ℕ) :
    (rememberIn ctx start stop removed m).Sound ctx.pageSize ctx.memSize ∧
      (∀ g, removed.has g = true → (rememberIn ctx start stop removed m).has g = true) ∧
      ∀ page, ctx.pageSize ∣ page → start ≤ page → page + ctx.pageSize ≤ stop → m.baseHostVirtAddr ≤ page →
        page < m.baseHostVirtAddr + m.size →
        (rememberIn ctx start stop removed m).has ((m.offset + (page - m.baseHostVirtAddr)) / ctx.pageSize) = true := by
  have hhost := hctx.host m hm
  have hfile := hctx.file m hm
  have hmem := hctx.memSize
  have hpos := hctx.pageSize_pos
  unfold rememberIn
  dsimp only
  rw [if_neg (by omega)]
  split
  · refine ⟨hsound, fun _ h => h, fun page _ hstart hstop hbase hlt => ?_⟩
    omega
  · rw [if_neg (by omega)]
    generalize hfirst : max start m.baseHostVirtAddr = first
    generalize hlast : min stop (m.baseHostVirtAddr + m.size) = last
    obtain ⟨hsound', hhas⟩ := @RemovedPages.insertRange_spec removed ctx.pageSize ctx.memSize
      (m.offset + (first - m.baseHostVirtAddr)) (last - first) hpos hsound (by omega)
    refine ⟨hsound', fun g hg => (hhas g).mpr (.inl hg),
      fun page hpage hstart hstop hbase hlt => (hhas _).mpr (.inr ?_)⟩
    have hmaps := maps_page hctx hm hbase hlt hpage
    have hfits := hmaps.places.file_le hctx hpos
    obtain ⟨c, hc⟩ := hmaps.file_dvd
    rw [hc, Nat.mul_div_cancel_left c hpos]
    constructor
    · refine (ceilDiv_le_iff_le_mul hpos).mpr ?_
      omega
    · rw [← Nat.succ_le_iff, Nat.le_div_iff_mul_le hpos, Nat.succ_mul, Nat.mul_comm c, ← hc]
      have hregion := region_holds_page hctx hm hlt hpage
      refine le_min ?_ hfits
      omega

theorem rememberRemoved_spec (hctx : ctx.Accepted) (hsound : removed.Sound ctx.pageSize ctx.memSize) (start stop : ℕ) :
    (rememberRemoved ctx removed start stop).Sound ctx.pageSize ctx.memSize ∧
      (∀ g, removed.has g = true → (rememberRemoved ctx removed start stop).has g = true) ∧
      ∀ m ∈ ctx.mappings, ∀ page, ctx.pageSize ∣ page → start ≤ page → page + ctx.pageSize ≤ stop →
        m.baseHostVirtAddr ≤ page → page < m.baseHostVirtAddr + m.size →
        (rememberRemoved ctx removed start stop).has ((m.offset + (page - m.baseHostVirtAddr)) / ctx.pageSize) =
          true := by
  -- over the regions, one after the other
  suffices h : ∀ mappings : List GuestRegionUffdMapping, (∀ m ∈ mappings, m ∈ ctx.mappings) →
      ∀ removed : RemovedPages, removed.Sound ctx.pageSize ctx.memSize →
      (mappings.foldl (rememberIn ctx start stop) removed).Sound ctx.pageSize ctx.memSize ∧
        (∀ g, removed.has g = true → (mappings.foldl (rememberIn ctx start stop) removed).has g = true) ∧
        ∀ m ∈ mappings, ∀ page, ctx.pageSize ∣ page → start ≤ page → page + ctx.pageSize ≤ stop →
          m.baseHostVirtAddr ≤ page → page < m.baseHostVirtAddr + m.size →
          (mappings.foldl (rememberIn ctx start stop) removed).has
            ((m.offset + (page - m.baseHostVirtAddr)) / ctx.pageSize) = true from
    h ctx.mappings (fun _ hm => hm) removed hsound
  intro mappings
  induction mappings with
  | nil =>
    intro _ removed hsound
    exact ⟨hsound, fun _ h => h, nofun⟩
  | cons first mappings ih =>
    intro hin removed hsound
    obtain ⟨hsound', hkeep, hadd⟩ := rememberIn_spec hctx (hin first mem_cons_self) hsound start stop
    obtain ⟨hall, hkeep', hadd'⟩ := ih (fun m hm => hin m (mem_cons_of_mem _ hm)) _ hsound'
    refine ⟨hall, fun g hg => hkeep' g (hkeep g hg), fun m hm => ?_⟩
    rcases mem_cons.mp hm with rfl | hm
    · exact fun page hpage hstart hstop hbase hlt => hkeep' _ (hadd page hpage hstart hstop hbase hlt)
    · exact hadd' m hm

end Fcvm.Uffd
