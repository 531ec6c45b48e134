import Fcvm.WorkingSet.Schedule

namespace Fcvm.WorkingSet

open Library List Option

variable {memLen : ℕ} {w w' : World} {s s' : Store} {o : PageSet} {c : Call}

def Call.counted (c : Call) : Bool :=
  match c.phase with
  | .send _ | .withdraw => true
  | .remember | .add _ | .returned => false

def Call.settled (c : Call) : Bool :=
  match c.phase with
  | .withdraw | .returned => true
  | .remember | .add _ | .send _ => false

def Worker.persists : Worker → Bool
  | .persisting _ _ | .finishing => true
  | .receiving | .exited => false

def Worker.merged : Worker → Option PageSet
  | .persisting _ m => m.merged
  | .receiving | .finishing | .exited => none

def Worker.Sound (memLen : ℕ) (s : Store) : Worker → Prop
  | .persisting _ m => m.Sound memLen s
  | .receiving | .finishing | .exited => True

def Worker.Brings (memLen : ℕ) (s : Store) (o : PageSet) : Worker → Prop
  | .persisting _ m => m.Brings memLen s o
  | .receiving | .finishing | .exited => (s.onDisk memLen).Covers o

def World.requests (w : World) : ℕ := w.queue.isSome.toNat + w.worker.persists.toNat

structure Kept (memLen : ℕ) (w : World) (o : PageSet) : Prop where
  known : w.store.known.Covers o
  brought : w.queue.isSome = true ∨ w.worker.Brings memLen w.store o

structure Stored (memLen : ℕ) (w : World) (o : PageSet) : Prop where
  known : w.store.known.Covers o
  disk : (w.store.onDisk memLen).Covers o
  merged : ∀ merged, w.worker.merged = some merged → merged.Covers o

structure Inv (memLen : ℕ) (w : World) : Prop where
  store : w.store.Fits memLen
  worker : w.worker.Sound memLen w.store
  observed : ∀ c ∈ w.calls, c.observed.Fits memLen
  remembered : ∀ c ∈ w.calls, c.phase ≠ .remember → w.store.known.Covers c.observed
  count : w.count = w.calls.countP Call.counted + w.requests
  kept : ∀ c ∈ w.calls, c.settled = true → Kept memLen w c.observed
  handles : w.busy = true → 0 < w.handles
  exited : w.worker = .exited → w.handles = 0
  before : ∀ d ∈ w.drains, ∀ o ∈ d.before, ∃ c ∈ w.calls, c.returned = true ∧ c.observed = o
  drained : ∀ d ∈ w.drains, d.result = some true → ∀ o ∈ d.before, Stored memLen w o

theorem settled_of_returned (h : c.returned = true) : c.settled = true := by
  unfold Call.returned at h
  unfold Call.settled
  rw [of_decide_eq_true h]

theorem Inv.stored (h : Inv memLen w) (hcount : w.count = 0) (hc : c ∈ w.calls) (hsettled : c.settled = true) :
    Stored memLen w c.observed := by
  have hzero := h.count
  unfold World.requests at hzero
  have hkept := h.kept c hc hsettled
  have hqueue : w.queue.isSome = false := by
    cases hq : w.queue.isSome with
    | false => rfl
    | true =>
      rw [hq, Bool.toNat_true] at hzero
      omega
  have hworker : w.worker.persists = false := by
    cases hp : w.worker.persists with
    | false => rfl
    | true =>
      rw [hp, Bool.toNat_true] at hzero
      omega
  have hbrings : w.worker.Brings memLen w.store c.observed := by
    rcases hkept.brought with hsome | hbrings
    · cases hqueue.symm.trans hsome
    · exact hbrings
  cases hw : w.worker with
  | receiving | exited =>
    rw [hw] at hbrings
    refine ⟨hkept.known, hbrings, ?_⟩
    intro merged hmerged
    rw [hw] at hmerged
    cases hmerged
  | persisting | finishing =>
    rw [hw] at hworker
    cases hworker

structure Quiet (memLen : ℕ) (w w' : World) : Prop where
  fits : w'.store.known.Fits memLen
  known : w'.store.known.Covers w.store.known
  disk : w'.store.disk = w.store.disk
  worker : w'.worker = w.worker
  queue : w.queue.isSome = true → w'.queue.isSome = true

theorem onDisk_congr (h : s'.disk = s.disk) : s'.onDisk memLen = s.onDisk memLen := by
  unfold Store.onDisk
  rw [h]

theorem Worker.brings_congr {worker : Worker} (h : s'.disk = s.disk) (hb : worker.Brings memLen s o) :
    worker.Brings memLen s' o := by
  cases worker with
  | receiving | finishing | exited =>
    simp only [Worker.Brings, onDisk_congr h] at hb ⊢
    exact hb
  | persisting request m =>
    cases m with
    | finished result =>
      simp only [Worker.Brings, Merge.Brings, onDisk_congr h] at hb ⊢
      exact hb
    | start | copied | leased | locked | read | decided | written | unlocked | released => exact hb

theorem Worker.sound_congr {worker : Worker} (h : s'.disk = s.disk) (hs : worker.Sound memLen s) :
    worker.Sound memLen s' := by
  cases worker with
  | receiving | finishing | exited => trivial
  | persisting request m =>
    cases m with
    | start | finished | copied | leased | locked => exact hs
    | read | decided | written | unlocked | released =>
      simp only [Worker.Sound, Merge.Sound, onDisk_congr h] at hs ⊢
      exact hs

theorem Kept.quiet (h : Kept memLen w o) (hq : Quiet memLen w w') : Kept memLen w' o := by
  refine ⟨hq.known.trans h.known, ?_⟩
  rcases h.brought with hsome | hbrings
  · exact .inl (hq.queue hsome)
  · rw [hq.worker]
    exact .inr (Worker.brings_congr hq.disk hbrings)

theorem Stored.quiet (h : Stored memLen w o) (hq : Quiet memLen w w') : Stored memLen w' o := by
  refine ⟨hq.known.trans h.known, ?_, ?_⟩
  · rw [onDisk_congr hq.disk]
    exact h.disk
  · rw [hq.worker]
    exact h.merged

theorem Inv.quiet (h : Inv memLen w) (hq : Quiet memLen w w') (hdrains : w'.drains = w.drains)
    (hhandles : w'.handles = w.handles) (hobserved : ∀ c ∈ w'.calls, c.observed.Fits memLen)
    (hremembered : ∀ c ∈ w'.calls, c.phase ≠ .remember → w'.store.known.Covers c.observed)
    (hcount : w'.count = w'.calls.countP Call.counted + w'.requests)
    (hkept : ∀ c ∈ w'.calls, c.settled = true → Kept memLen w' c.observed) (hbusy : w'.busy = true → 0 < w.handles)
    (hreturned : ∀ c ∈ w.calls, c.returned = true → c ∈ w'.calls) : Inv memLen w' where
  store := by
    refine ⟨hq.fits, ?_⟩
    rw [hq.disk]
    exact h.store.disk
  worker := by
    rw [hq.worker]
    exact Worker.sound_congr hq.disk h.worker
  observed := hobserved
  remembered := hremembered
  count := hcount
  kept := hkept
  handles hb := by
    rw [hhandles]
    exact hbusy hb
  exited he := by
    rw [hhandles]
    exact h.exited (hq.worker.symm.trans he)
  before := by
    rw [hdrains]
    intro d hd o ho
    obtain ⟨c, hc, hret, hobs⟩ := h.before d hd o ho
    exact ⟨c, hreturned c hc hret, hret, hobs⟩
  drained := by
    rw [hdrains]
    intro d hd hresult o ho
    exact (h.drained d hd hresult o ho).quiet hq

section Calls

variable {i : ℕ} {phase : Phase}

theorem busy_of_mem (hc : c ∈ w.calls) (hret : c.returned = false) : w.busy = true := by
  unfold World.busy
  rw [Bool.or_eq_true]
  exact .inl (any_eq_true.mpr ⟨c, hc, by rw [hret]; rfl⟩)

theorem countP_set_call (phase : Phase) (hc : w.calls[i]? = some c) :
    (w.calls.set i { c with phase := phase }).countP Call.counted + c.counted.toNat =
      w.calls.countP Call.counted + (Call.counted { c with phase := phase }).toNat := by
  obtain ⟨hi, hget⟩ := List.getElem?_eq_some_iff.mp hc
  have hmem : c ∈ w.calls := mem_of_getElem? hc
  rw [countP_set hi, hget]
  have hpos : c.counted = true → 0 < w.calls.countP Call.counted := fun h => countP_pos_iff.mpr ⟨c, hmem, h⟩
  cases hcounted : c.counted with
  | false => cases Call.counted { c with phase := phase } <;> simp
  | true =>
    have hlt := hpos hcounted
    cases Call.counted { c with phase := phase } <;> simp <;> omega

theorem Inv.call (h : Inv memLen w) (hc : w.calls[i]? = some c) (hret : c.returned = false)
    (hq : Quiet memLen w w') (hcalls : w'.calls = w.calls.set i { c with phase := phase })
    (hdrains : w'.drains = w.drains) (hhandles : w'.handles = w.handles)
    (hknown : phase ≠ .remember → w'.store.known.Covers c.observed)
    (hcount : w'.count + c.counted.toNat + w.requests =
      w.count + (Call.counted { c with phase := phase }).toNat + w'.requests)
    (hsettled : Call.settled { c with phase := phase } = true → Kept memLen w' c.observed) : Inv memLen w' := by
  have hmem : c ∈ w.calls := mem_of_getElem? hc
  have hsplit : ∀ c' ∈ w'.calls, c' ∈ w.calls ∨ c' = { c with phase := phase } := by
    rw [hcalls]
    intro c' hc'
    exact mem_or_eq_of_mem_set hc'
  apply h.quiet hq hdrains hhandles
  · intro c' hc'
    rcases hsplit c' hc' with hc' | rfl
    · exact h.observed c' hc'
    · exact h.observed c hmem
  · intro c' hc' hphase
    rcases hsplit c' hc' with hc' | rfl
    · exact hq.known.trans (h.remembered c' hc' hphase)
    · exact hknown hphase
  · have hset := countP_set_call phase hc
    have hold := h.count
    rw [hcalls]
    omega
  · intro c' hc' hsettled'
    rcases hsplit c' hc' with hc' | rfl
    · exact (h.kept c' hc' hsettled').quiet hq
    · exact hsettled hsettled'
  · exact fun _ => h.handles (busy_of_mem hmem hret)
  · intro c' hc' hret'
    obtain ⟨j, hj⟩ := List.getElem?_of_mem hc'
    rw [hcalls]
    have hne : i ≠ j := by
      rintro rfl
      cases hc.symm.trans hj
      cases hret.symm.trans hret'
    apply mem_of_getElem? (i := j)
    rw [List.getElem?_set_ne hne]
    exact hj

theorem Inv.callStep (h : Inv memLen w) (hc : w.calls[i]? = some c) (hret : c.returned = false) :
    Inv memLen { (w.callStep c).1 with calls := w.calls.set i { c with phase := (w.callStep c).2 } } := by
  have hmem : c ∈ w.calls := mem_of_getElem? hc
  have hfits := h.observed c hmem
  obtain ⟨vmId, observed, phase⟩ := c
  cases phase with
  | remember =>
    have hq : Quiet memLen w
        { w with
          store := { w.store with known := (w.store.known.unionFrom observed).1 }
          calls := w.calls.set i ⟨vmId, observed, .add ⟨vmId, observed.len, (w.store.known.unionFrom observed).2⟩⟩ } :=
      ⟨h.store.known.unionFrom _, PageSet.covers_unionFrom_left h.store.known hfits, rfl, rfl, id⟩
    refine h.call hc hret hq rfl rfl rfl ?_ rfl ?_
    · exact fun _ => PageSet.covers_unionFrom_right h.store.known hfits
    · intro hsettled
      cases hsettled
  | add request =>
    have hq : Quiet memLen w { w with count := w.count + 1, calls := w.calls.set i ⟨vmId, observed, .send request⟩ } :=
      ⟨h.store.known, .refl _, rfl, rfl, id⟩
    refine h.call hc hret hq rfl rfl rfl ?_ rfl ?_
    · exact fun _ => h.remembered _ hmem (by simp)
    · intro hsettled
      cases hsettled
  | send request =>
    have hknown : w.store.known.Covers observed := h.remembered _ hmem (by simp)
    have hworker : w.worker ≠ .exited := by
      intro hexited
      have hzero := h.exited hexited
      have hpos := h.handles (busy_of_mem hmem hret)
      omega
    simp only [World.callStep, if_neg hworker]
    cases hqueue : w.queue with
    | some queued =>
      -- the queued request copies the union after this call has added to it
      have hq : Quiet memLen w { w with calls := w.calls.set i ⟨vmId, observed, .withdraw⟩ } :=
        ⟨h.store.known, .refl _, rfl, rfl, id⟩
      refine h.call hc hret hq rfl rfl rfl (fun _ => hknown) rfl ?_
      intro _
      exact ⟨hknown, .inl (by simp [hqueue])⟩
    | none =>
      have hq : Quiet memLen w
          { w with queue := some request, calls := w.calls.set i ⟨vmId, observed, .returned⟩ } :=
        ⟨h.store.known, .refl _, rfl, rfl, fun _ => rfl⟩
      refine h.call hc hret hq rfl rfl rfl (fun _ => hknown) ?_ ?_
      · simp only [World.requests, Call.counted, hqueue, isSome_none, isSome_some, Bool.toNat_false,
          Bool.toNat_true]
        omega
      · exact fun _ => ⟨hknown, .inl rfl⟩
  | withdraw =>
    have hkept := h.kept _ hmem rfl
    have hpos : 0 < w.count := by
      have hcounted : 0 < w.calls.countP Call.counted := countP_pos_iff.mpr ⟨_, hmem, rfl⟩
      have hcount := h.count
      omega
    have hq : Quiet memLen w { w with count := w.count - 1, calls := w.calls.set i ⟨vmId, observed, .returned⟩ } :=
      ⟨h.store.known, .refl _, rfl, rfl, id⟩
    refine h.call hc hret hq rfl rfl rfl (fun _ => hkept.known) ?_ (fun _ => hkept.quiet hq)
    simp only [World.callStep, World.requests, Call.counted, Bool.toNat_true, Bool.toNat_false]
    omega
  | returned => cases hret

theorem Inv.schedule (h : Inv memLen w) (vmId : String) {observed : PageSet} (hfits : observed.Fits memLen)
    (hhandles : 0 < w.handles) : Inv memLen { w with calls := w.calls ++ [⟨vmId, observed, .remember⟩] } := by
  have hsplit : ∀ c ∈ w.calls ++ [⟨vmId, observed, .remember⟩], c ∈ w.calls ∨ c = ⟨vmId, observed, .remember⟩ := by
    intro c hc
    rcases mem_append.mp hc with hc | hc
    · exact .inl hc
    · exact .inr (mem_singleton.mp hc)
  have hq : Quiet memLen w { w with calls := w.calls ++ [⟨vmId, observed, .remember⟩] } :=
    ⟨h.store.known, .refl _, rfl, rfl, id⟩
  refine h.quiet hq rfl rfl ?_ ?_ ?_ ?_ (fun _ => hhandles) ?_
  · intro c hc
    rcases hsplit c hc with hc | rfl
    · exact h.observed c hc
    · exact hfits
  · intro c hc hphase
    rcases hsplit c hc with hc | rfl
    · exact h.remembered c hc hphase
    · exact absurd rfl hphase
  · have hcount := h.count
    rw [countP_append]
    exact hcount
  · intro c hc hsettled
    rcases hsplit c hc with hc | rfl
    · exact (h.kept c hc hsettled).quiet hq
    · cases hsettled
  · exact fun c hc _ => mem_append_left _ hc

end Calls

section

variable (h : Inv memLen w)
include h

theorem Inv.works (hcalls : w'.calls = w.calls) (hdrains : w'.drains = w.drains)
    (hhandles : w'.handles = w.handles) (hstore : w'.store.Fits memLen) (hworker : w'.worker.Sound memLen w'.store)
    (hknown : w'.store.known.Covers w.store.known) (hcount : w'.count + w.requests = w.count + w'.requests)
    (hkept : ∀ o, Kept memLen w o → Kept memLen w' o) (hstored : ∀ o, Stored memLen w o → Stored memLen w' o)
    (hexited : w'.worker = .exited → w.handles = 0) : Inv memLen w' where
  store := hstore
  worker := hworker
  observed := by
    rw [hcalls]
    exact h.observed
  remembered := by
    rw [hcalls]
    intro c hc hphase
    exact hknown.trans (h.remembered c hc hphase)
  count := by
    have hold := h.count
    rw [hcalls]
    omega
  kept := by
    rw [hcalls]
    intro c hc hsettled
    exact hkept _ (h.kept c hc hsettled)
  handles := by
    unfold World.busy
    rw [hcalls, hdrains, hhandles]
    exact h.handles
  exited he := by
    rw [hhandles]
    exact hexited he
  before := by
    rw [hdrains, hcalls]
    exact h.before
  drained := by
    rw [hdrains]
    intro d hd hresult o ho
    exact hstored o (h.drained d hd hresult o ho)

theorem Inv.merge {request : PersistRequest} {m m' : Merge} {store : Store} {input : Input}
    (hw : w.worker = .persisting request m) (hinput : input.Undisturbed)
    (hstep : mergeStep (PageSet.empty memLen) true m w.store input = some (m', store)) :
    Inv memLen { w with store := store, worker := .persisting request m' } := by
  have hsound := h.worker
  rw [hw] at hsound
  have hadvance := mergeStep_advance h.store hsound hinput hstep
  have hrequests : World.requests { w with store := store, worker := .persisting request m' } = w.requests := by
    unfold World.requests
    rw [hw]
    rfl
  refine h.works rfl rfl rfl hadvance.fits hadvance.sound hadvance.known ?_ ?_ ?_ ?_
  · rw [hrequests]
  · intro o hkept
    refine ⟨hadvance.known.trans hkept.known, ?_⟩
    rcases hkept.brought with hsome | hbrings
    · exact .inl hsome
    · rw [hw] at hbrings
      exact .inr (hadvance.brings o hkept.known hbrings)
  · intro o hstored
    have hmerged : ∀ merged, m.merged = some merged → merged.Covers o := by
      intro merged heq
      apply hstored.merged
      rw [hw]
      exact heq
    refine ⟨hadvance.known.trans hstored.known, ?_, ?_⟩
    · rcases hadvance.disk with hdisk | ⟨merged, heq, hdisk⟩
      · rw [onDisk_congr hdisk]
        exact hstored.disk
      · have hon : store.onDisk memLen = merged := by
          unfold Store.onDisk
          rw [hdisk]
          rfl
        rw [hon]
        exact hmerged merged heq
    · intro merged' heq
      refine (hadvance.grows merged' heq).trans ?_
      cases hm : m.merged with
      | none => exact hstored.known
      | some merged => exact hmerged merged hm
  · nofun

theorem Inv.rests {worker : Worker} {count : ℕ} (hmerged : worker.merged = none) (hsound : worker.Sound memLen w.store)
    (hbrings : ∀ o, w.worker.Brings memLen w.store o → worker.Brings memLen w.store o)
    (hcount : count + w.worker.persists.toNat = w.count + worker.persists.toNat)
    (hexited : worker = .exited → w.handles = 0) : Inv memLen { w with worker := worker, count := count } := by
  refine h.works rfl rfl rfl h.store hsound (.refl _) ?_ ?_ ?_ hexited
  · simp only [World.requests]
    omega
  · intro o hkept
    refine ⟨hkept.known, ?_⟩
    rcases hkept.brought with hsome | hb
    · exact .inl hsome
    · exact .inr (hbrings o hb)
  · intro o hstored
    refine ⟨hstored.known, hstored.disk, ?_⟩
    intro merged heq
    cases hmerged.symm.trans heq

theorem Inv.workerStep (hstep : w.workerStep = some w') : Inv memLen w' := by
  unfold World.workerStep at hstep
  split at hstep
  · next request hw hqueue =>
    cases hstep
    refine h.works rfl rfl rfl h.store trivial (.refl _) ?_ ?_ ?_ ?_
    · unfold World.requests
      rw [hw, hqueue]
      rfl
    · exact fun o hkept => ⟨hkept.known, .inr trivial⟩
    · exact fun o hstored => ⟨hstored.known, hstored.disk, nofun⟩
    · nofun
  · next hw hqueue =>
    split at hstep
    · next hzero =>
      cases hstep
      refine h.rests rfl trivial ?_ ?_ (fun _ => hzero)
      · rw [hw]
        exact fun o hb => hb
      · rw [hw]
        rfl
    · cases hstep
  · next hw =>
    cases hstep
    refine h.rests rfl trivial ?_ ?_ ?_
    · rw [hw]
      exact fun o hb => hb
    · rw [hw]
      rfl
    · nofun
  · next hw =>
    cases hstep
    have hcount := h.count
    unfold World.requests at hcount
    rw [hw] at hcount
    refine h.rests rfl trivial ?_ ?_ ?_
    · rw [hw]
      exact fun o hb => hb
    · rw [hw]
      simp only [Worker.persists, Bool.toNat_true, Bool.toNat_false] at hcount ⊢
      omega
    · nofun
  · cases hstep

theorem Inv.drain (hhandles : 0 < w.handles) :
    Inv memLen { w with drains := w.drains ++ [⟨(w.calls.filter Call.returned).map (·.observed), none⟩] } := by
  exact { h with
    kept c hc hsettled := (h.kept c hc hsettled).quiet ⟨h.store.known, .refl _, rfl, rfl, id⟩
    handles _ := hhandles
    before := by
      intro d hd o ho
      rcases mem_append.mp hd with hd | hd
      · exact h.before d hd o ho
      · cases mem_singleton.mp hd
        obtain ⟨c, hc, hobs⟩ := mem_map.mp ho
        obtain ⟨hc, hret⟩ := mem_filter.mp hc
        exact ⟨c, hc, hret, hobs⟩
    drained := by
      intro d hd hresult o ho
      rcases mem_append.mp hd with hd | hd
      · exact (h.drained d hd hresult o ho).quiet ⟨h.store.known, .refl _, rfl, rfl, id⟩
      · cases mem_singleton.mp hd
        cases hresult }

theorem Inv.wait {i : ℕ} {d : Drain} {timeout : Bool} (hd : w.drains[i]? = some d) (hnone : d.result.isSome = false) :
    Inv memLen { w with drains := w.drains.set i { d with result := waitStep w.count timeout } } := by
  have hmem : d ∈ w.drains := mem_of_getElem? hd
  have hq : Quiet memLen w { w with drains := w.drains.set i { d with result := waitStep w.count timeout } } :=
    ⟨h.store.known, .refl _, rfl, rfl, id⟩
  refine { h with kept := ?_, handles := ?_, before := ?_, drained := ?_ }
  · exact fun c hc hsettled => (h.kept c hc hsettled).quiet hq
  · intro _
    apply h.handles
    unfold World.busy
    rw [Bool.or_eq_true]
    refine .inr (any_eq_true.mpr ⟨d, hmem, ?_⟩)
    rw [← not_isSome, hnone]
    rfl
  · intro d' hd' o ho
    rcases mem_or_eq_of_mem_set hd' with hd' | rfl
    · exact h.before d' hd' o ho
    · exact h.before d hmem o ho
  · intro d' hd' hresult o ho
    rcases mem_or_eq_of_mem_set hd' with hd' | rfl
    · exact (h.drained d' hd' hresult o ho).quiet hq
    · have hzero : w.count = 0 := by
        by_contra hne
        simp only [waitStep, if_neg hne] at hresult
        split at hresult
        · cases hresult
        · cases hresult
      obtain ⟨c, hc, hret, rfl⟩ := h.before d hmem o ho
      exact (h.stored hzero hc (settled_of_returned hret)).quiet hq

theorem Inv.handles_of {handles : ℕ} (hpos : 0 < w.handles) (hbusy : w.busy = true → 0 < handles) :
    Inv memLen { w with handles := handles } := by
  exact { h with
    kept c hc hsettled := (h.kept c hc hsettled).quiet ⟨h.store.known, .refl _, rfl, rfl, id⟩
    handles := hbusy
    exited he := by
      have hzero := h.exited he
      omega
    drained d hd hresult o ho := (h.drained d hd hresult o ho).quiet ⟨h.store.known, .refl _, rfl, rfl, id⟩ }

theorem Inv.step {e : Event} (he : e.Undisturbed memLen) (hstep : step memLen w e = some w') : Inv memLen w' := by
  cases e with
  | schedule vmId observed =>
    simp only [WorkingSet.step] at hstep
    split at hstep
    · next hhandles =>
      cases hstep
      exact h.schedule vmId he hhandles
    · cases hstep
  | call i =>
    simp only [WorkingSet.step] at hstep
    split at hstep
    · cases hstep
    · next c hc =>
      split at hstep
      · cases hstep
      · next hret =>
        cases hstep
        exact h.callStep hc (by simpa using hret)
  | drain =>
    simp only [WorkingSet.step] at hstep
    split at hstep
    · next hhandles =>
      cases hstep
      exact h.drain hhandles
    · cases hstep
  | wait i timeout =>
    simp only [WorkingSet.step] at hstep
    split at hstep
    · cases hstep
    · next d hd =>
      split at hstep
      · cases hstep
      · next hresult =>
        cases hstep
        exact h.wait hd (by simpa using hresult)
  | merge input =>
    simp only [WorkingSet.step] at hstep
    split at hstep
    · next request m hw =>
      obtain ⟨⟨m', store⟩, hmerge, heq⟩ := map_eq_some_iff.mp hstep
      cases heq
      exact h.merge hw he hmerge
    · cases hstep
  | worker => exact h.workerStep hstep
  | clone =>
    simp only [WorkingSet.step] at hstep
    split at hstep
    · next hhandles =>
      cases hstep
      exact h.handles_of hhandles fun _ => Nat.succ_pos _
    · cases hstep
  | drop =>
    simp only [WorkingSet.step] at hstep
    split at hstep
    · next hguard =>
      cases hstep
      apply h.handles_of
      · omega
      · intro hbusy
        rcases hguard with hmany | ⟨-, hidle⟩
        · omega
        · cases hbusy.symm.trans hidle
    · cases hstep

end

theorem Inv.initial {store : Store} (h : store.Fits memLen) : Inv memLen (World.initial store) where
  store := h
  worker := trivial
  observed c hc := by cases hc
  remembered c hc := by cases hc
  count := rfl
  kept c hc := by cases hc
  handles _ := Nat.one_pos
  exited he := by cases he
  before d hd := by cases hd
  drained d hd := by cases hd

theorem inv_of_reachable (h : (system memLen).ReachableBy (fun _ e => e.Undisturbed memLen) w) : Inv memLen w := by
  refine h.invariant ?_ ?_
  · rintro w ⟨store, hstore, rfl⟩
    exact Inv.initial hstore
  · exact fun w e w' hw he hstep => hw.step he hstep

/-- With no request counted, what the calls that have returned observed is on disk; a `drain` that returned true found
on disk what was scheduled before it began; and every request that is queued or being persisted is counted. -/
theorem coalesced_publications_kept (memLen : ℕ) {w : World}
    (h : (system memLen).ReachableBy (fun _ e => e.Undisturbed memLen) w) :
    (w.count = 0 → ∀ c ∈ w.calls, c.returned = true → ∀ granule, c.observed.contains granule = true →
      (w.store.onDisk memLen).contains granule = true) ∧
    (∀ d ∈ w.drains, d.result = some true → ∀ o ∈ d.before, ∀ granule, o.contains granule = true →
      (w.store.onDisk memLen).contains granule = true) ∧
    w.requests ≤ w.count := by
  have hinv := inv_of_reachable h
  refine ⟨?_, ?_, ?_⟩
  · intro hcount c hc hret granule hg
    have hstored := hinv.stored hcount hc (settled_of_returned hret)
    exact hstored.disk.contains hinv.store.onDisk (hinv.observed c hc) hg
  · intro d hd hresult o ho granule hg
    obtain ⟨c, hc, -, hobs⟩ := hinv.before d hd o ho
    have hstored := hinv.drained d hd hresult o ho
    have hfits := hinv.observed c hc
    rw [hobs] at hfits
    exact hstored.disk.contains hinv.store.onDisk hfits hg
  · have hcount := hinv.count
    omega

instance (s : PageSet) : Decidable (s.Fits memLen) :=
  decidable_of_iff (s.granules = PageSet.granulesOf memLen ∧ s.words.length = (PageSet.granulesOf memLen + 63) / 64)
    ⟨fun h => ⟨h.1, h.2⟩, fun h => ⟨h.granules, h.words⟩⟩

instance (e : Event) : Decidable (e.Undisturbed memLen) :=
  match e with
  | .schedule _ observed => inferInstanceAs (Decidable (observed.Fits memLen))
  | .merge input => inferInstanceAs (Decidable input.Undisturbed)
  | .call _ | .drain | .wait _ _ | .worker | .clone | .drop => inferInstanceAs (Decidable True)

def coalescing : List Event :=
  [.schedule "a" ⟨2, [1#64]⟩, .schedule "b" ⟨2, [2#64]⟩, .call 0, .call 0, .call 0, .call 1, .call 1, .call 1, .call 1,
    .drain, .worker, .merge (.call .ok), .merge (.call .ok), .merge (.call .ok), .merge (.sidecar true),
    .merge (.identity true), .merge (.call .ok), .merge (.call .ok), .merge (.call .ok), .merge (.call .ok), .worker,
    .worker, .wait 0 false]

def noSidecar : Store := ⟨PageSet.empty 8192, none⟩

theorem coalesced_call_kept : ∃ w, (system 8192).ReachableBy (fun _ e => e.Undisturbed 8192) w ∧ w.count = 0 ∧
    ⟨"b", ⟨2, [2#64]⟩, .returned⟩ ∈ w.calls ∧ (w.store.onDisk 8192).contains 1 = true ∧
    ⟨[⟨2, [1#64]⟩, ⟨2, [2#64]⟩], some true⟩ ∈ w.drains ∧ (w.store.onDisk 8192).contains 0 = true ∧
    w.requests ≤ w.count := by
  have hrun : ((system 8192).exec (World.initial noSidecar) coalescing).map (fun w => (w.count, w.calls, w.drains)) =
      some (0, [⟨"a", ⟨2, [1#64]⟩, .returned⟩, ⟨"b", ⟨2, [2#64]⟩, .returned⟩],
        [⟨[⟨2, [1#64]⟩, ⟨2, [2#64]⟩], some true⟩]) := by
    decide +kernel
  obtain ⟨w, hexec, hw⟩ := Option.map_eq_some_iff.mp hrun
  simp only [Prod.mk.injEq] at hw
  obtain ⟨hcount, hcalls, hdrains⟩ := hw
  have hstart : (system 8192).ReachableBy (fun _ e => e.Undisturbed 8192) (World.initial noSidecar) :=
    .initial ⟨noSidecar, ⟨PageSet.fits_empty 8192, nofun⟩, rfl⟩
  have hreach := hstart.exec (fun _ => (by decide : ∀ e ∈ coalescing, e.Undisturbed 8192)) hexec
  obtain ⟨hkept, hdrained, hrequests⟩ := coalesced_publications_kept 8192 hreach
  have hb : ⟨"b", ⟨2, [2#64]⟩, .returned⟩ ∈ w.calls := by
    rw [hcalls]
    exact mem_cons_of_mem _ mem_cons_self
  have hd : ⟨[⟨2, [1#64]⟩, ⟨2, [2#64]⟩], some true⟩ ∈ w.drains := by
    rw [hdrains]
    exact mem_cons_self
  exact ⟨w, hreach, hcount, hb, hkept hcount _ hb rfl 1 (by decide), hd,
    hdrained _ hd rfl ⟨2, [1#64]⟩ mem_cons_self 0 (by decide), hrequests⟩

end Fcvm.WorkingSet
