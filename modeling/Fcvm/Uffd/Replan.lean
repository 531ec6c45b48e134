import Mathlib.Data.List.Nodup
import Fcvm.Uffd.GivenBack

namespace Fcvm.Uffd

open List

/-- A run of whole pages that ends below the last address of the clone and of the file. -/
structure ReplayRun.Aligned (pageSize : ℕ) (run : ReplayRun) : Prop where
  host_dvd : pageSize ∣ run.hostAddr
  file_dvd : pageSize ∣ run.fileOffset
  len_dvd : pageSize ∣ run.len
  host_lt : run.hostAddr + run.len < ADDRESSES
  file_lt : run.fileOffset + run.len < ADDRESSES

namespace ReplayJob

def bytes (job : ReplayJob) : List (ℕ × ℕ) := job.runs.flatMap ReplayRun.bytes

/-- What of a job is copied before run `index` and of that run up to `done`. -/
def copied (job : ReplayJob) (index done : ℕ) : List (ℕ × ℕ) :=
  (job.runs.take index).flatMap ReplayRun.bytes ++ (job.runs[index]?.elim [] ReplayRun.bytes).take done

end ReplayJob

variable {ctx : VmContext} {run : ReplayRun}

-- the cursor reads of its context only the page size, so that one region around the run will do
theorem ReplayRun.Aligned.maps (h : run.Aligned ctx.pageSize) (hpage : ∃ k, 12 ≤ k ∧ k ≤ 21 ∧ ctx.pageSize = 2 ^ k) :
    ∃ ctx' : VmContext, ctx'.Accepted ∧ ctx'.pageSize = ctx.pageSize ∧
      Maps ctx' run.hostAddr run.fileOffset run.len := by
  refine ⟨{ ctx with
    mappings := [⟨run.hostAddr, run.fileOffset, run.len⟩], memSize := run.fileOffset + run.len }, ?_, rfl, ?_⟩
  · constructor
    · exact hpage
    · exact h.file_lt
    · simpa using h.host_lt
    · simp
    · simpa using ⟨h.host_dvd, h.file_dvd, h.len_dvd⟩
    · simp
  · refine ⟨h.host_dvd, h.file_dvd, h.len_dvd, fun x hx => ⟨_, mem_singleton_self _, ?_⟩⟩
    dsimp only
    omega

theorem splitJob_bytes {s : Handler} {job : ReplayJob} (h : ∀ run ∈ job.runs, run.Aligned ctx.pageSize)
    (hpage : ∃ k, 12 ≤ k ∧ k ≤ 21 ∧ ctx.pageSize = 2 ^ k) (hcounted : s.removed.Counted) :
    (splitJobAgainstRemoved ctx s job).bytes = job.bytes.filter (s.removed.plain ctx.pageSize) := by
  rw [ReplayJob.bytes, ReplayJob.bytes, filter_flatMap, splitJobAgainstRemoved, flatMap_assoc]
  refine flatMap_congr fun run hrun => ?_
  obtain ⟨ctx', hctx, hsize, hmaps⟩ := (h run hrun).maps hpage
  rw [← hsize]
  exact (PlainRuns.collect_new hctx hcounted hmaps).2.1

theorem staleFrom_bytes {job : ReplayJob} {pageSize index done : ℕ} (h : ∀ run ∈ job.runs, run.Aligned pageSize)
    (hindex : index < job.runs.length) (hdone : pageSize ∣ done) : ∃ rest, staleFrom job index done = .stale rest ∧
      (∀ run ∈ rest.runs, run.Aligned pageSize) ∧ job.bytes = job.copied index done ++ rest.bytes := by
  have hruns : job.runs = job.runs.take index ++ job.runs[index] :: job.runs.drop (index + 1) := by
    rw [← drop_eq_getElem_cons hindex, take_append_drop]
  have hcurrent := h _ (getElem_mem hindex)
  unfold staleFrom ReplayJob.copied ReplayJob.bytes
  rw [getElem?_eq_getElem hindex]
  generalize job.runs[index] = current at hruns hcurrent
  have hhost := hcurrent.host_lt
  have hfile := hcurrent.file_lt
  by_cases hlt : done < current.len
  · refine ⟨_, rfl, ?_, ?_⟩
    · rw [if_pos hlt, singleton_append, forall_mem_cons, saturatingAdd_eq (by omega), saturatingAdd_eq (by omega)]
      refine ⟨⟨?_, ?_, ?_, by dsimp only; omega, by dsimp only; omega⟩, fun run hrun => h run (mem_of_mem_drop hrun)⟩
      · exact Nat.dvd_add hcurrent.host_dvd hdone
      · exact Nat.dvd_add hcurrent.file_dvd hdone
      · exact Nat.dvd_sub hcurrent.len_dvd hdone
    · have hcut : current.bytes = _ := ReplayRun.bytes_cut current.hostAddr current.fileOffset hlt.le
      have htake : (ReplayRun.mk current.hostAddr current.fileOffset done).bytes.length = done := by
        simp [ReplayRun.bytes]
      rw [if_pos hlt, saturatingAdd_eq (by omega), saturatingAdd_eq (by omega), Option.elim_some, hcut,
        take_left' htake]
      conv_lhs => rw [hruns, flatMap_append, flatMap_cons, hcut]
      simp
  · refine ⟨_, rfl, ?_, ?_⟩
    · rw [if_neg hlt]
      exact fun run hrun => h run (mem_of_mem_drop hrun)
    · have htake : current.bytes.take done = current.bytes := take_of_length_le (by simp [ReplayRun.bytes]; omega)
      rw [if_neg hlt, Option.elim_some, htake]
      conv_lhs => rw [hruns, flatMap_append, flatMap_cons]
      simp

theorem replanning_conserves_bytes (ctx : VmContext) (s : Handler)
    (hpage : ∃ k, 12 ≤ k ∧ k ≤ 21 ∧ ctx.pageSize = 2 ^ k) (hs : s.removed.Sound ctx.pageSize ctx.memSize) :
    (∀ run : ReplayRun, run.Aligned ctx.pageSize → ∃ pieces : List ReplayRun,
      PlainRuns.Drains s.removed ctx.pageSize (.new run.hostAddr run.fileOffset run.len) pieces ∧
        pieces.flatMap ReplayRun.bytes = run.bytes.filter (s.removed.plain ctx.pageSize) ∧
        ∀ piece ∈ pieces, 0 < piece.len ∧ piece.len ≤ PlainRuns.pieceCap ctx.pageSize) ∧
    ∀ (job : ReplayJob) (index done : ℕ), (∀ run ∈ job.runs, run.Aligned ctx.pageSize) → index < job.runs.length →
      ctx.pageSize ∣ done → ∃ rest, staleFrom job index done = .stale rest ∧
        let copied := job.copied index done
        let again := (splitJobAgainstRemoved ctx s rest).bytes
        let given := (job.bytes.drop copied.length).filter fun byte => s.removed.contains byte.2 ctx.pageSize
        (copied ++ again ++ given).Perm job.bytes ∧
          (job.bytes.Nodup → copied.Disjoint again ∧ copied.Disjoint given ∧ again.Disjoint given) := by
  refine ⟨fun run hrun => ?_, fun job index done hruns hindex hdone => ?_⟩
  · obtain ⟨ctx', hctx, hsize, hmaps⟩ := hrun.maps hpage
    rw [← hsize]
    obtain ⟨hdrains, hbytes, hpieces⟩ := PlainRuns.collect_new hctx hs.counted hmaps
    exact ⟨_, hdrains, hbytes, fun piece hpiece => (hpieces piece hpiece).2⟩
  obtain ⟨rest, hrest, haligned, hbytes⟩ := staleFrom_bytes hruns hindex hdone
  have hagain := splitJob_bytes haligned hpage hs.counted
  have hperm : (job.copied index done ++ (splitJobAgainstRemoved ctx s rest).bytes ++
      (job.bytes.drop (job.copied index done).length).filter fun byte => s.removed.contains byte.2 ctx.pageSize).Perm
        job.bytes := by
    have hsplit := filter_append_perm (s.removed.plain ctx.pageSize) rest.bytes
    simp only [RemovedPages.plain, Bool.not_not] at hsplit
    rw [hagain, hbytes, drop_left, append_assoc]
    exact hsplit.append_left _
  refine ⟨rest, hrest, hperm, fun hnodup => ?_⟩
  obtain ⟨hboth, -, hgiven⟩ := nodup_append'.mp (hperm.nodup_iff.mpr hnodup)
  rw [disjoint_append_left] at hgiven
  exact ⟨(nodup_append'.mp hboth).2.2, hgiven⟩

def thirdPageGone : Handler :=
  { (smallWorld false []).handler with removed := RemovedPages.empty.insertRange 8192 4096 4096 (18 * 2 ^ 20) }

def fourPages : ReplayJob := ⟨[⟨2 ^ 40, 0, 4 * 4096⟩], 0⟩

/-- The worker stops after the first page, and the third is given back. -/
theorem replanning_conserves_bytes_fourPages : ∃ rest given, staleFrom fourPages 0 4096 = .stale rest ∧
    (fourPages.copied 0 4096 ++ (splitJobAgainstRemoved smallClone thirdPageGone rest).bytes ++ given).Perm
      fourPages.bytes := by
  have hsound := (@RemovedPages.insertRange_spec .empty 4096 (18 * 2 ^ 20) 8192 4096 (by decide)
    (RemovedPages.sound_empty _ _) (by decide)).1
  have haligned : ∀ run ∈ fourPages.runs, run.Aligned smallClone.pageSize :=
    forall_mem_singleton.mpr ⟨by decide, by decide, by decide, by decide, by decide⟩
  obtain ⟨rest, hrest, hperm, -⟩ := (replanning_conserves_bytes smallClone thirdPageGone smallClone_accepted.pageSize
    hsound).2 fourPages 0 4096 haligned (by decide) (by decide)
  exact ⟨rest, _, hrest, hperm⟩

end Fcvm.Uffd
