import Fcvm.Library.Counting
import Fcvm.GpuHosts.Loop

namespace Fcvm.GpuHosts

open Library Prog List Function

variable {x y : Instance} {count token asked : ℕ} {ids : List ℕ} {region : Region} {market : Market}

section Later

def Older (x y : Instance) : Prop :=
  (y.id, y.region, y.market, y.token) = (x.id, x.region, x.market, x.token) ∧ x.state.rank ≤ y.state.rank

theorem Older.refl (x : Instance) : Older x x := ⟨rfl, Nat.le_refl _⟩

theorem Older.trans {z : Instance} (h : Older x y) (h' : Older y z) : Older x z :=
  ⟨h'.1.trans h.1, h.2.trans h'.2⟩

theorem Older.live (h : Older x y) (hy : y.state.live = true) : x.state.live = true :=
  HostState.live_of_rank_le h.2 hy

section Lists

variable {xs ys : List Instance}

theorem forall₂_older_refl (xs : List Instance) : List.Forall₂ Older xs xs := forall₂_same.mpr fun x _ => Older.refl x

section

variable (h : List.Forall₂ Older xs ys)
include h

theorem forall₂_older_trans {zs : List Instance} (h' : List.Forall₂ Older ys zs) : List.Forall₂ Older xs zs := by
  induction h generalizing zs with
  | nil => exact h'
  | cons hxy _ ih =>
    cases h' with
    | cons hyz hrest => exact .cons (hxy.trans hyz) (ih hrest)

omit h in
theorem exists_of_forall₂ {R : Instance → Instance → Prop} (h : List.Forall₂ R xs ys) (hy : y ∈ ys) :
    ∃ x ∈ xs, R x y := by
  induction h with
  | nil => cases hy
  | cons hxy _ ih =>
    rcases mem_cons.mp hy with rfl | hy
    · exact ⟨_, mem_cons_self, hxy⟩
    · obtain ⟨x, hx, hold⟩ := ih hy
      exact ⟨x, mem_cons_of_mem _ hx, hold⟩

theorem exists_older (hy : y ∈ ys) : ∃ x ∈ xs, Older x y := exists_of_forall₂ h hy

theorem exists_newer (hx : x ∈ xs) : ∃ y ∈ ys, Older x y := exists_of_forall₂ h.flip hx

theorem map_eq_of_older {β : Type} (f : Instance → β)
    (hf : ∀ x y : Instance, (y.id, y.region, y.market, y.token) = (x.id, x.region, x.market, x.token) → f y = f x) :
    ys.map f = xs.map f := by
  induction h with
  | nil => rfl
  | cons hxy _ ih => rw [map_cons, map_cons, ih, hf _ _ hxy.1]

theorem count_le_of_older (p : Instance → Bool)
    (hp : ∀ x y : Instance, (y.id, y.region, y.market, y.token) = (x.id, x.region, x.market, x.token) → p y = p x) :
    (ys.filter fun x => p x && x.state.live).length ≤ (xs.filter fun x => p x && x.state.live).length := by
  induction h with
  | nil => exact Nat.le_refl _
  | @cons x y _ _ hxy _ ih =>
    simp only [filter_cons, hp _ _ hxy.1]
    cases hy : y.state.live with
    | false =>
      simp only [Bool.and_false, Bool.false_eq_true, if_false]
      split
      · exact Nat.le_succ_of_le ih
      · exact ih
    | true =>
      rw [hxy.live hy]
      split
      · exact Nat.succ_le_succ ih
      · exact ih

end

end Lists

structure Later (c c' : Cloud) : Prop where
  time : c.time ≤ c'.time
  instances : List.Forall₂ Older c.instances c'.instances
  same : (c'.asks, c'.nextToken, c'.want, c'.requests) = (c.asks, c.nextToken, c.want, c.requests)

theorem Later.refl (c : Cloud) : Later c c := ⟨Nat.le_refl _, forall₂_older_refl _, rfl⟩

variable {c c' : Cloud}

theorem Later.asks (h : Later c c') : c'.asks = c.asks := (Prod.mk.inj h.same).1

theorem Later.nextToken (h : Later c c') : c'.nextToken = c.nextToken := (Prod.mk.inj (Prod.mk.inj h.same).2).1

theorem Later.want (h : Later c c') : c'.want = c.want := (Prod.mk.inj (Prod.mk.inj (Prod.mk.inj h.same).2).2).1

theorem Later.requests (h : Later c c') : c'.requests = c.requests :=
  (Prod.mk.inj (Prod.mk.inj (Prod.mk.inj h.same).2).2).2

theorem Later.liveIn_le (h : Later c c') (region : Region) : c'.liveIn region ≤ c.liveIn region :=
  count_le_of_older h.instances (fun x => x.region = region) fun x y hxy => by
    simp only [Prod.mk.injEq] at hxy
    rw [hxy.2.1]

theorem Later.liveOnDemand_le (h : Later c c') : c'.liveOnDemand ≤ c.liveOnDemand :=
  count_le_of_older h.instances (fun x => x.market = .onDemand) fun x y hxy => by
    simp only [Prod.mk.injEq] at hxy
    rw [hxy.2.2.1]

theorem Instance.older_advance (x : Instance) (id : ℕ) (state : HostState) : Older x (x.advance id state) := by
  unfold Instance.advance
  split
  · next h => exact ⟨rfl, h.2⟩
  · exact Older.refl x

theorem later_move (c : Cloud) (m : Move) : Later c (c.move m) := by
  cases m with
  | tick duration => exact ⟨Nat.le_add_right _ _, forall₂_older_refl _, rfl⟩
  | advance id state =>
    refine ⟨Nat.le_refl _, ?_, rfl⟩
    simp only [Cloud.move]
    rw [forall₂_map_right_iff]
    exact forall₂_same.mpr fun x _ => x.older_advance id state

theorem Later.trans {c'' : Cloud} (h : Later c c') (h' : Later c' c'') : Later c c'' :=
  ⟨h.time.trans h'.time, forall₂_older_trans h.instances h'.instances, h'.same.trans h.same⟩

theorem later_moves (c : Cloud) (moves : List Move) : Later c (moves.foldl Cloud.move c) := by
  induction moves generalizing c with
  | nil => exact Later.refl c
  | cons m moves ih => exact (later_move c m).trans (ih (c.move m))

end Later

section WellFormed

structure Cloud.WF (regions : List Region) (c : Cloud) : Prop where
  ids : (c.instances.map (·.id)).Nodup
  regions : ∀ x ∈ c.instances, x.region ∈ regions
  tokens : ∀ x ∈ c.instances, ∀ t, x.token = some t →
    ∃ a, c.asks t = some a ∧ a.region = x.region ∧ a.market = x.market ∧ a.launched = true
  counts : ∀ t a, c.asks t = some a → (c.instances.filter fun x => x.token = some t).length ≤ a.count
  fresh : ∀ t, c.nextToken ≤ t → c.asks t = none

variable {regions : List Region} {c c' : Cloud}

theorem Cloud.WF.unique (h : c.WF regions) (hx : x ∈ c.instances) (hy : y ∈ c.instances)
    (hid : x.id = y.id) : x = y := inj_on_of_nodup_map h.ids hx hy hid

theorem filter_length_eq_of_map {xs ys : List Instance} {p : Instance → Bool} (h : ys.map p = xs.map p) :
    (ys.filter p).length = (xs.filter p).length := by
  rw [← countP_eq_length_filter, ← countP_eq_length_filter]
  have hcount : ∀ zs : List Instance, zs.countP p = (zs.map p).count true := by
    intro zs
    rw [List.count, countP_map]
    apply countP_congr
    intro x _
    simp
  rw [hcount, hcount, h]

theorem Cloud.WF.later (h : c.WF regions) (hl : Later c c') : c'.WF regions where
  ids := by
    rw [map_eq_of_older hl.instances (·.id) fun x y hxy => (Prod.mk.inj hxy).1]
    exact h.ids
  regions := by
    intro y hy
    obtain ⟨x, hx, hold, -⟩ := exists_older hl.instances hy
    simp only [Prod.mk.injEq] at hold
    rw [hold.2.1]
    exact h.regions x hx
  tokens := by
    intro y hy t ht
    obtain ⟨x, hx, hold, -⟩ := exists_older hl.instances hy
    simp only [Prod.mk.injEq] at hold
    rw [hold.2.2.2] at ht
    rw [hl.asks, hold.2.1, hold.2.2.1]
    exact h.tokens x hx t ht
  counts := by
    intro t a ha
    rw [hl.asks] at ha
    have hmap := map_eq_of_older hl.instances (fun x => decide (x.token = some t)) fun x y hxy => by
      simp only [Prod.mk.injEq] at hxy
      rw [hxy.2.2.2]
    rw [filter_length_eq_of_map hmap]
    exact h.counts t a ha
  fresh := by
    rw [hl.asks, hl.nextToken]
    exact h.fresh

theorem mayLaunch_iff : c.mayLaunch count token ids = true ↔
    ids.length ≤ count ∧ ids.Nodup ∧ (∀ id ∈ ids, ∀ x ∈ c.instances, x.id ≠ id) ∧
      (ids = [] ∨ (c.asks token).any (·.launched) = false) := by
  simp only [Cloud.mayLaunch, Bool.and_eq_true, decide_eq_true_eq, List.all_eq_true, Bool.or_eq_true, List.isEmpty_iff,
    Bool.not_eq_true', and_assoc]

theorem Cloud.WF.none_launched (h : c.WF regions) (hnone : (c.asks token).any (·.launched) = false) :
    c.instances.filter (fun x => x.token = some token) = [] := by
  apply filter_eq_nil_iff.mpr
  intro x hx ht
  obtain ⟨a, ha, -, -, hlaunched⟩ := h.tokens x hx token (by simpa using ht)
  rw [ha] at hnone
  simp only [Option.any_some] at hnone
  cases hlaunched.symm.trans hnone

theorem Cloud.WF.launch (h : c.WF regions)
    (hregion : region ∈ regions) (htoken : token < c.nextToken)
    (hasked : ∀ a, c.asks token = some a → a.region = region ∧ a.market = market ∧ a.count = count)
    (hmay : c.mayLaunch count token ids = true) : (c.launch region market count token asked ids).WF regions := by
  obtain ⟨hlength, hnodup, hnew, honce⟩ := mayLaunch_iff.mp hmay
  constructor
  · simp only [Cloud.launch, map_append, map_map]
    have hids : ids.map ((·.id) ∘ fun id => (⟨id, region, market, some token, .pending⟩ : Instance)) = ids := by
      simp [comp_def]
    rw [hids]
    refine List.Nodup.append h.ids hnodup ?_
    intro id hid hid'
    obtain ⟨x, hx, rfl⟩ := mem_map.mp hid
    exact hnew _ hid' x hx rfl
  · intro x hx
    rcases mem_append.mp hx with hx | hx
    · exact h.regions x hx
    · obtain ⟨id, -, rfl⟩ := mem_map.mp hx
      exact hregion
  · intro x hx t ht
    rcases mem_append.mp hx with hx | hx
    · obtain ⟨a, ha, hr, hm, hl⟩ := h.tokens x hx t ht
      by_cases heq : t = token
      · subst heq
        obtain ⟨hr', hm', -⟩ := hasked a ha
        refine ⟨_, update_self .., ?_, ?_, ?_⟩
        · rw [← hr', hr]
        · rw [← hm', hm]
        · simp [ha, hl]
      · refine ⟨a, ?_, hr, hm, hl⟩
        simp only [Cloud.launch, update_of_ne heq]
        exact ha
    · obtain ⟨id, hid, rfl⟩ := mem_map.mp hx
      cases ht
      refine ⟨_, update_self .., rfl, rfl, ?_⟩
      simp [ne_nil_of_mem hid]
  · intro t a ha
    simp only [Cloud.launch, filter_append, length_append] at ha ⊢
    by_cases heq : t = token
    · subst heq
      rw [update_self] at ha
      cases ha
      rcases honce with rfl | hnone
      · cases hask : c.asks t with
        | none =>
          have hnone : (c.asks t).any (·.launched) = false := by simp [hask]
          have hempty := h.none_launched hnone
          simp [hempty]
        | some a =>
          have hle := h.counts t a hask
          obtain ⟨-, -, hcount⟩ := hasked a hask
          simpa [hcount] using hle
      · rw [h.none_launched hnone]
        simpa using (length_filter_le _ _).trans (by simpa using hlength)
    · rw [update_of_ne heq] at ha
      have hle := h.counts t a ha
      have hother : (ids.map fun id => (⟨id, region, market, some token, .pending⟩ : Instance)).filter
          (fun x => x.token = some t) = [] := by
        apply filter_eq_nil_iff.mpr
        intro x hx
        obtain ⟨id, -, rfl⟩ := mem_map.mp hx
        simpa using Ne.symm heq
      rw [hother]
      simpa using hle
  · intro t ht
    have hne : t ≠ token := by
      rintro rfl
      exact absurd (Nat.lt_of_lt_of_le htoken ht) (Nat.lt_irrefl _)
    simp only [Cloud.launch, update_of_ne hne]
    exact h.fresh t ht

end WellFormed

/-- What each call may answer, and the cloud after it. -/
inductive Answered (cfg : Config) (c : Cloud) : (o : Op) → Cloud → Res o → Prop
  | power (state : String) : Answered cfg c .power { c with want := wantOf cfg state } state
  | now : Answered cfg c .now c c.time
  | unlisted (region : Region) : Answered cfg c (.hosts region) c none
  | listed (region : Region) {hosts : List Host} (h : c.MayList region hosts) :
    Answered cfg c (.hosts region) c (some hosts)
  | uuid : Answered cfg c .uuid { c with nextToken := c.nextToken + 1 } c.nextToken
  | launched (region : Region) (market : Market) {count token : ℕ} (asked : ℕ) {ids : List ℕ}
      (h : c.mayLaunch count token ids = true) (reply : Option (List String × List String)) :
    Answered cfg c (.launch region market count token asked) (c.launch region market count token asked ids)
      (reply.map fun r => ⟨(c.launch region market count token asked ids).launchedBy token, r.1, r.2⟩)
  | terminated (region : Region) (ids : List ℕ) (ok : Bool) : Answered cfg c (.terminate region ids) c ok

theorem answered_of_exec {cfg : Config} {c c' : Cloud} {o : Op} {i : Input} {r : Res o}
    (h : exec cfg o c i = some (c', r)) : Answered cfg (i.moves.foldl Cloud.move c) o c' r := by
  obtain ⟨moves, answer⟩ := i
  -- an answer of another kind than the call's is refused
  cases o <;> cases answer <;> try cases h
  case power.power => exact .power _
  case now.none => exact .now
  case hosts.hosts region hosts =>
    cases hosts with
    | none =>
      cases h
      exact .unlisted region
    | some hosts =>
      simp only [exec] at h
      split at h
      · next hlist =>
        cases h
        exact .listed region hlist
      · cases h
  case uuid.none => exact .uuid
  case launch.launch =>
    simp only [exec] at h
    split at h
    · next hmay =>
      cases h
      exact .launched _ _ _ hmay _
    · cases h
  case terminate.terminate => exact .terminated _ _ _

section Contract

variable (cfg : Config) (P : Prop)

/-- What a launch request needs: a region of the fleet, room in it if it is new, and room for on-demand hosts if it may
launch them. -/
structure MayAsk (c : Cloud) (region : Region) (market : Market) (count token : ℕ) : Prop where
  ours : region ∈ cfg.regions
  used : token < c.nextToken
  room : c.asks token = none → c.liveIn region + count ≤ c.want
  same : ∀ a, c.asks token = some a → a.region = region ∧ a.market = market ∧ a.count = count
  onDemand : market = .onDemand → P → (c.asks token).any (·.launched) = false → c.liveOnDemand + count ≤ cfg.onDemandMax

theorem MayAsk.later {c c' : Cloud}
    (h : MayAsk cfg P c region market count token) (hl : Later c c') : MayAsk cfg P c' region market count token where
  ours := h.ours
  used := by
    rw [hl.nextToken]
    exact h.used
  room := by
    rw [hl.asks, hl.want]
    intro hnone
    exact (Nat.add_le_add_right (hl.liveIn_le region) count).trans (h.room hnone)
  same := by
    rw [hl.asks]
    exact h.same
  onDemand := by
    rw [hl.asks]
    intro hm hP hnone
    exact (Nat.add_le_add_right hl.liveOnDemand_le count).trans (h.onDemand hm hP hnone)

def contract : Prog.Contract Op Res Cloud where
  pre o c :=
    match o with
    | .launch region market count token _ => MayAsk cfg P c region market count token
    | _ => True
  post o c r c' := c'.WF cfg.regions ∧ ∃ i, exec cfg o c i = some (c', r)

structure Safe (c : Cloud) : Prop where
  wf : c.WF cfg.regions
  requests : ∀ r ∈ c.requests, r.live + r.count ≤ r.want
  onDemand : P → c.liveOnDemand ≤ cfg.onDemandMax

theorem Safe.later {c c' : Cloud} (h : Safe cfg P c) (hl : Later c c') : Safe cfg P c' where
  wf := h.wf.later hl
  requests := by
    rw [hl.requests]
    exact h.requests
  onDemand hP := hl.liveOnDemand_le.trans (h.onDemand hP)

end Contract

section Safe

variable {cfg : Config} {P : Prop} {c c' : Cloud}

theorem liveOnDemand_launch (c : Cloud) (region : Region) (market : Market) (count token asked : ℕ) (ids : List ℕ) :
    (c.launch region market count token asked ids).liveOnDemand =
      c.liveOnDemand + if market = .onDemand then ids.length else 0 := by
  have hall : ∀ x ∈ ids.map (fun id => (⟨id, region, market, some token, .pending⟩ : Instance)),
      (x.market = .onDemand && x.state.live) = decide (market = .onDemand) := by
    intro x hx
    obtain ⟨id, -, rfl⟩ := mem_map.mp hx
    simp [HostState.live]
  simp only [Cloud.liveOnDemand, Cloud.launch, filter_append, length_append, filter_congr hall]
  congr 1
  split
  · next h => simp [h]
  · next h => simp [h]

theorem Safe.launch (h : Safe cfg P c)
    (hask : MayAsk cfg P c region market count token) (hmay : c.mayLaunch count token ids = true) :
    Safe cfg P (c.launch region market count token asked ids) where
  wf := h.wf.launch hask.ours hask.used hask.same hmay
  requests := by
    intro r hr
    simp only [Cloud.launch] at hr
    split at hr
    · next hnone =>
      rcases mem_cons.mp hr with rfl | hr
      · exact hask.room (Option.isNone_iff_eq_none.mp hnone)
      · exact h.requests r hr
    · exact h.requests r hr
  onDemand := by
    intro hP
    rw [liveOnDemand_launch]
    obtain ⟨hlength, -, -, honce⟩ := mayLaunch_iff.mp hmay
    have hold := h.onDemand hP
    split
    · next hm =>
      rcases honce with rfl | hnone
      · exact hold
      · have hroom := hask.onDemand hm hP hnone
        omega
    · exact hold

theorem Safe.exec {o : Op} {i : Input} {r : Res o} (h : Safe cfg P c) (hpre : (contract cfg P).pre o c)
    (hexec : exec cfg o c i = some (c', r)) : Safe cfg P c' := by
  have hl := later_moves c i.moves
  have hsafe := h.later cfg P hl
  cases answered_of_exec hexec with
  | power => exact ⟨{ hsafe.wf with }, hsafe.requests, hsafe.onDemand⟩
  | now | unlisted | listed | terminated => exact hsafe
  | uuid =>
    refine ⟨⟨hsafe.wf.ids, hsafe.wf.regions, hsafe.wf.tokens, hsafe.wf.counts, ?_⟩, hsafe.requests, hsafe.onDemand⟩
    intro t ht
    exact hsafe.wf.fresh t (Nat.le_of_succ_le ht)
  | launched _ _ _ hmay => exact hsafe.launch (hpre.later cfg P hl) hmay

end Safe

section Rules

variable {cfg : Config} {P : Prop} {c : Cloud} {α : Type} {Q : α → Cloud → Prop}

theorem wp_now {f : ℕ → Program α} (h : ∀ c', Later c c' → c'.WF cfg.regions → wp (contract cfg P) (f c'.time) Q c') :
    wp (contract cfg P) (now >>= f) Q c := by
  apply wp_perform trivial
  rintro r c' ⟨hwf, i, hexec⟩
  cases answered_of_exec hexec
  exact h _ (later_moves c i.moves) hwf

theorem wp_power {f : String → Program α}
    (h : ∀ c' state, Later c c' → c'.WF cfg.regions →
      wp (contract cfg P) (f state) Q { c' with want := wantOf cfg state }) :
    wp (contract cfg P) (power >>= f) Q c := by
  apply wp_perform trivial
  rintro r c' ⟨hwf, i, hexec⟩
  cases answered_of_exec hexec
  exact h _ _ (later_moves c i.moves) { hwf with }

theorem wp_uuid {f : ℕ → Program α}
    (h : ∀ c', Later c c' → c'.asks c'.nextToken = none →
      wp (contract cfg P) (f c'.nextToken) Q { c' with nextToken := c'.nextToken + 1 })
    (hwf : c.WF cfg.regions) : wp (contract cfg P) (uuid >>= f) Q c := by
  apply wp_perform trivial
  rintro r c' ⟨-, i, hexec⟩
  cases answered_of_exec hexec
  exact h _ (later_moves c i.moves) ((hwf.later (later_moves c i.moves)).fresh _ (Nat.le_refl _))

theorem wp_hosts {f : Option (List Host) → Program α}
    (hnone : ∀ c', Later c c' → c'.WF cfg.regions → wp (contract cfg P) (f none) Q c')
    (hsome : ∀ c' hosts, Later c c' → c'.WF cfg.regions → c'.MayList region hosts →
      wp (contract cfg P) (f (some hosts)) Q c') :
    wp (contract cfg P) (hosts region >>= f) Q c := by
  apply wp_perform trivial
  rintro r c' ⟨hwf, i, hexec⟩
  cases answered_of_exec hexec with
  | unlisted => exact hnone _ (later_moves c i.moves) hwf
  | listed _ hlist => exact hsome _ _ (later_moves c i.moves) hwf hlist

theorem wp_launch {f : Option Launch → Program α}
    (hask : MayAsk cfg P c region market count token)
    (h : ∀ c' ids, Later c c' → c'.mayLaunch count token ids = true →
      (c'.launch region market count token asked ids).WF cfg.regions →
      wp (contract cfg P) (f none) Q (c'.launch region market count token asked ids) ∧
      ∀ refused failed,
        wp (contract cfg P)
          (f (some ⟨(c'.launch region market count token asked ids).launchedBy token, refused, failed⟩)) Q
          (c'.launch region market count token asked ids)) :
    wp (contract cfg P) (launch region market count token asked >>= f) Q c := by
  apply wp_perform hask
  rintro r c' ⟨hwf, i, hexec⟩
  cases answered_of_exec hexec with
  | launched _ _ _ hmay reply =>
    obtain ⟨hlost, hgot⟩ := h _ _ (later_moves c i.moves) hmay hwf
    cases reply with
    | none => exact hlost
    | some r => exact hgot r.1 r.2

theorem wp_terminate {f : Unit → Program α}
    (h : ∀ c', Later c c' → c'.WF cfg.regions → wp (contract cfg P) (f ()) Q c') (hwf : c.WF cfg.regions) :
    wp (contract cfg P) (terminateUnlessEmpty region ids >>= f) Q c := by
  unfold terminateUnlessEmpty
  split
  · exact h c (Later.refl c) hwf
  · apply wp_perform trivial
    rintro r c' ⟨hwf', i, hexec⟩
    cases answered_of_exec hexec
    exact h _ (later_moves c i.moves) hwf'

end Rules

end Fcvm.GpuHosts
