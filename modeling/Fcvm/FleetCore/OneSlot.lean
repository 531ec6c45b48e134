import Fcvm.FleetCore.Kept
import Mathlib.Data.List.Perm.Subperm

/-! One slot or phone for each GPU a host names, and no host above its capacity. -/

namespace Fcvm.FleetCore

open Std (ExtTreeMap)
open Library List

variable {p : Parts}

section Distinct

variable {seen : List String} {gpus : List Gpu} {g : Gpu}

theorem distinctGpus_sublist (seen : List String) (gpus : List Gpu) : (distinctGpus seen gpus).Sublist gpus := by
  induction gpus generalizing seen with
  | nil => exact .slnil
  | cons g gpus ih =>
    simp only [distinctGpus]
    split
    · exact (ih seen).cons g
    · exact (ih (g.sbdf :: seen)).cons_cons g

theorem distinctGpus_notMem_seen (h : g ∈ distinctGpus seen gpus) : g.sbdf ∉ seen := by
  induction gpus generalizing seen with
  | nil => cases h
  | cons g' gpus ih =>
    simp only [distinctGpus] at h
    split at h
    · exact ih h
    · next hseen =>
      rcases mem_cons.mp h with rfl | h
      · exact hseen
      · exact fun hmem => ih h (mem_cons_of_mem _ hmem)

theorem distinctGpus_nodup (seen : List String) (gpus : List Gpu) :
    ((distinctGpus seen gpus).map Gpu.sbdf).Nodup := by
  induction gpus generalizing seen with
  | nil => exact nodup_nil
  | cons g gpus ih =>
    simp only [distinctGpus]
    split
    · exact ih seen
    · rw [map_cons, nodup_cons]
      refine ⟨?_, ih (g.sbdf :: seen)⟩
      intro hmem
      obtain ⟨g', hg', heq⟩ := mem_map.mp hmem
      apply distinctGpus_notMem_seen hg'
      rw [heq]
      exact mem_cons_self

theorem wallGpus_nodup (h : Hello) : ((wallGpus h).map Gpu.sbdf).Nodup :=
  ((take_sublist _ _).map _).nodup (distinctGpus_nodup [] h.gpus)

theorem phoneGpus_apart {h : Hello} (hg : g ∈ phoneGpus h) {g' : Gpu} (hg' : g' ∈ wallGpus h) : g.sbdf ≠ g'.sbdf := by
  intro heq
  apply distinctGpus_notMem_seen hg
  rw [heq]
  exact mem_map_of_mem ((distinctGpus_sublist [] h.gpus).subset (mem_of_mem_take hg'))

end Distinct

def Slot.address (s : Slot p) : Option String := s.gpu.map Gpu.sbdf

def slotsOn (m : ExtTreeMap ℕ (Slot p)) (name : String) : ℕ := m.toList.countP fun e => e.2.host = some name

def Distinct (m : ExtTreeMap ℕ (Slot p)) : Prop :=
  ∀ a ∈ m.toList, ∀ b ∈ m.toList, a.2.host = b.2.host → a.2.address = b.2.address → a.1 = b.1

def Listed (host : String) (gpus : List Gpu) (m : ExtTreeMap ℕ (Slot p)) : Prop :=
  ∀ e ∈ m.toList, e.2.host = some host → ∃ g ∈ gpus, e.2.gpu = some g

section Seats

variable {m m' : ExtTreeMap ℕ (Slot p)} {e : ℕ × Slot p}

theorem eq_of_mem_toList {a b : ℕ × Slot p} (ha : a ∈ m.toList) (hb : b ∈ m.toList) (h : a.1 = b.1) : a = b := by
  rw [ExtTreeMap.mem_toList_iff_getElem?_eq_some] at ha hb
  rw [h, hb] at ha
  exact Prod.ext h (Option.some.inj ha).symm

theorem toList_nodup (m : ExtTreeMap ℕ (Slot p)) : m.toList.Nodup := by
  apply m.distinct_keys_toList.imp
  rintro a b hne rfl
  exact hne Std.ReflCmp.compare_self

theorem mem_filter_toList {keep : Slot p → Bool} :
    e ∈ (m.filter fun _ s => keep s).toList ↔ e ∈ m.toList ∧ keep e.2 = true := by
  rw [ExtTreeMap.toList_filter, mem_filter]

theorem exists_of_seats (h : seats m' = seats m) (he : e ∈ m'.toList) :
    ∃ e₀ ∈ m.toList, e₀.1 = e.1 ∧ e₀.2.host = e.2.host ∧ e₀.2.gpu = e.2.gpu := by
  have hmem : (e.1, e.2.seat) ∈ (seats m).toList := by
    rw [← h, seats, toList_view]
    exact mem_map_of_mem he
  rw [seats, toList_view] at hmem
  obtain ⟨e₀, he₀, heq⟩ := mem_map.mp hmem
  simp only [Slot.seat, Prod.mk.injEq] at heq
  exact ⟨e₀, he₀, heq⟩

theorem slotsOn_seats (h : seats m' = seats m) (name : String) : slotsOn m' name = slotsOn m name := by
  have hview (m : ExtTreeMap ℕ (Slot p)) : slotsOn m name = (seats m).toList.countP fun e => e.2.1 = some name := by
    rw [seats, toList_view, countP_map]
    rfl
  rw [hview, hview, h]

theorem Distinct.of_seats (hm : Distinct m) (h : seats m' = seats m) : Distinct m' := by
  intro a ha b hb hhost haddress
  obtain ⟨a₀, ha₀, han, hah, hag⟩ := exists_of_seats h ha
  obtain ⟨b₀, hb₀, hbn, hbh, hbg⟩ := exists_of_seats h hb
  rw [← han, ← hbn]
  apply hm a₀ ha₀ b₀ hb₀
  · rw [hah, hbh, hhost]
  · simpa only [Slot.address, hag, hbg] using haddress

theorem Distinct.filter {keep : Slot p → Bool} (h : Distinct m) : Distinct (m.filter fun _ s => keep s) :=
  fun a ha b hb => h a (mem_filter_toList.mp ha).1 b (mem_filter_toList.mp hb).1

theorem Listed.length_le {host : String} {gpus : List Gpu} (h : Distinct m) (hlisted : Listed host gpus m) :
    slotsOn m host ≤ gpus.length := by
  rw [slotsOn, countP_eq_length_filter]
  have hnodup : ((m.toList.filter fun e => e.2.host = some host).map fun e => e.2.gpu).Nodup := by
    apply List.Nodup.map_on
    · intro a ha b hb hgpu
      obtain ⟨ha, hahost⟩ := mem_filter.mp ha
      obtain ⟨hb, hbhost⟩ := mem_filter.mp hb
      simp only [decide_eq_true_eq] at hahost hbhost
      have hn := h a ha b hb (hahost.trans hbhost.symm) (by simp only [Slot.address, hgpu])
      exact eq_of_mem_toList ha hb hn
    · exact (toList_nodup m).filter _
  have hsub : ((m.toList.filter fun e => e.2.host = some host).map fun e => e.2.gpu) ⊆ gpus.map some := by
    intro x hx
    obtain ⟨e, he, rfl⟩ := mem_map.mp hx
    obtain ⟨he, hhost⟩ := mem_filter.mp he
    obtain ⟨g, hg, hgpu⟩ := hlisted e he (by simpa using hhost)
    rw [hgpu]
    exact mem_map_of_mem hg
  simpa using (hnodup.subperm hsub).length_le

theorem holdsGpu_iff {host : String} {g : Gpu} :
    holdsGpu m host g = true ↔ ∃ e ∈ m.toList, e.2.host = some host ∧ e.2.gpu = some g := by
  simp only [holdsGpu, any_eq_true, Bool.and_eq_true, decide_eq_true_eq]

end Seats

section Assign

variable {m : ExtTreeMap ℕ (Slot p)} {e : ℕ × Slot p} {fresh : Gpu → Slot p} {host : String} {gpus : List Gpu} {g : Gpu}

theorem mem_addGpu (h : e ∈ (addGpu fresh host m g).toList) :
    e ∈ m.toList ∨ (holdsGpu m host g = false ∧ e = (freeNumber m, fresh g)) := by
  unfold addGpu at h
  split at h
  · exact .inl h
  · next hholds =>
    obtain ⟨n, s⟩ := e
    rw [ExtTreeMap.mem_toList_iff_getElem?_eq_some, ExtTreeMap.getElem?_insert] at h
    split at h
    · next hn =>
      obtain rfl := Std.LawfulEqCmp.eq_of_compare hn
      exact .inr ⟨by simpa using hholds, by rw [Option.some.inj h]⟩
    · exact .inl (ExtTreeMap.mem_toList_iff_getElem?_eq_some.mpr h)

theorem Listed.holds (h : Listed host gpus m) (hnodup : (gpus.map Gpu.sbdf).Nodup) (hg : g ∈ gpus) (he : e ∈ m.toList)
    (hhost : e.2.host = some host) (haddress : e.2.address = some g.sbdf) : holdsGpu m host g = true := by
  obtain ⟨g', hg', hgpu⟩ := h e he hhost
  have hsbdf : g'.sbdf = g.sbdf := by simpa [Slot.address, hgpu] using haddress
  have heq : g' = g := inj_on_of_nodup_map hnodup hg' hg hsbdf
  rw [holdsGpu_iff]
  exact ⟨e, he, hhost, heq ▸ hgpu⟩

variable (hfresh : ∀ g, (fresh g).seat = (some host, some g))
include hfresh

theorem Listed.addGpu (h : Listed host gpus m) (hg : g ∈ gpus) : Listed host gpus (addGpu fresh host m g) := by
  intro e he hhost
  rcases mem_addGpu he with he | ⟨-, rfl⟩
  · exact h e he hhost
  · exact ⟨g, hg, congrArg Prod.snd (hfresh g)⟩

theorem Distinct.addGpu (h : Distinct m) (hlisted : Listed host gpus m) (hnodup : (gpus.map Gpu.sbdf).Nodup)
    (hg : g ∈ gpus) : Distinct (addGpu fresh host m g) := by
  have hhost' : (fresh g).host = some host := congrArg Prod.fst (hfresh g)
  have haddress' : (fresh g).address = some g.sbdf := by
    have hgpu : (fresh g).gpu = some g := congrArg Prod.snd (hfresh g)
    simp [Slot.address, hgpu]
  intro a ha b hb hhost haddress
  rcases mem_addGpu ha with ha | ⟨hfree, rfl⟩ <;> rcases mem_addGpu hb with hb | ⟨hfree', rfl⟩
  · exact h a ha b hb hhost haddress
  · have hholds := hlisted.holds hnodup hg ha (hhost.trans hhost') (haddress.trans haddress')
    cases hfree'.symm.trans hholds
  · have hholds := hlisted.holds hnodup hg hb (hhost.symm.trans hhost') (haddress.symm.trans haddress')
    cases hfree.symm.trans hholds
  · rfl

theorem mem_assignGpus (h : e ∈ (assignGpus fresh host gpus m).toList) : e ∈ m.toList ∨ e.2.host = some host := by
  unfold assignGpus at h
  generalize hm₀ : (m.filter fun _ s => listed host gpus s) = m₀ at h
  have hsub : ∀ e ∈ m₀.toList, e ∈ m.toList ∨ e.2.host = some host := by
    intro e he
    rw [← hm₀] at he
    exact .inl (mem_filter_toList.mp he).1
  clear hm₀
  generalize gpus = listed at h
  induction listed generalizing m₀ with
  | nil => exact hsub e h
  | cons g gpus ih =>
    refine ih (FleetCore.addGpu fresh host m₀ g) ?_ h
    intro e he
    rcases mem_addGpu he with he | ⟨-, rfl⟩
    · exact hsub e he
    · exact .inr (congrArg Prod.fst (hfresh g))

theorem slotsOn_assignGpus_le {other : String} (hne : other ≠ host) :
    slotsOn (assignGpus fresh host gpus m) other ≤ slotsOn m other := by
  rw [slotsOn, slotsOn, countP_eq_length_filter, countP_eq_length_filter]
  apply List.Subperm.length_le
  apply List.Nodup.subperm
  · exact (toList_nodup _).filter _
  · intro e he
    obtain ⟨he, hother⟩ := mem_filter.mp he
    refine mem_filter.mpr ⟨(mem_assignGpus hfresh he).resolve_right ?_, hother⟩
    simp only [decide_eq_true_eq] at hother
    rw [hother]
    exact fun heq => hne (Option.some.inj heq)

variable (fresh) in
theorem assignGpus_spec (h : Distinct m) (hnodup : (gpus.map Gpu.sbdf).Nodup)
    (hsame : ∀ e ∈ m.toList, e.2.host = some host → ∀ g ∈ gpus, e.2.address = some g.sbdf → e.2.gpu = some g) :
    Distinct (assignGpus fresh host gpus m) ∧ Listed host gpus (assignGpus fresh host gpus m) := by
  have hlisted : Listed host gpus (m.filter fun _ s => listed host gpus s) := by
    intro e he hhost
    obtain ⟨he, hkept⟩ := mem_filter_toList.mp he
    have hany : ∃ g ∈ gpus, some g.sbdf = e.2.address := by simpa [listed, hhost, Slot.address] using hkept
    obtain ⟨g, hg, haddress⟩ := hany
    exact ⟨g, hg, hsame e he hhost g hg haddress.symm⟩
  have hrun : ∀ (todo : List Gpu) (m : ExtTreeMap ℕ (Slot p)), todo ⊆ gpus → Distinct m → Listed host gpus m →
      Distinct (todo.foldl (FleetCore.addGpu fresh host) m) ∧
        Listed host gpus (todo.foldl (FleetCore.addGpu fresh host) m) := by
    intro todo
    induction todo with
    | nil => exact fun m _ hd hl => ⟨hd, hl⟩
    | cons g todo ih =>
      intro m hsub hd hl
      have hg : g ∈ gpus := hsub mem_cons_self
      exact ih _ (fun x hx => hsub (mem_cons_of_mem _ hx)) (hd.addGpu hfresh hl hnodup hg) (hl.addGpu hfresh hg)
  exact hrun gpus _ (fun _ hx => hx) h.filter hlisted

end Assign

structure OneSlotPerGpu (f : Fleet p) : Prop where
  slots : ∀ a ∈ f.slots.toList, ∀ b ∈ f.slots.toList, a.2.host = b.2.host → a.2.address = b.2.address → a.1 = b.1
  phones : ∀ a ∈ f.phones.toList, ∀ b ∈ f.phones.toList, a.2.host = b.2.host → a.2.address = b.2.address → a.1 = b.1
  apart : ∀ a ∈ f.slots.toList, ∀ b ∈ f.phones.toList, a.2.host = b.2.host → a.2.address ≠ b.2.address
  capacity : ∀ (name : String) (host : Host), f.hosts[name]? = some host → slotsOn f.slots name ≤ host.capacity

def SameGpus (f : Fleet p) : EventKind p → Prop
  | .agent host (.hello h) => h.host = host →
    (∀ e ∈ f.slots.toList, e.2.host = some host → ∀ g ∈ wallGpus h, e.2.address = some g.sbdf → e.2.gpu = some g) ∧
    ∀ e ∈ f.phones.toList, e.2.host = some host → ∀ g ∈ phoneGpus h, e.2.address = some g.sbdf → e.2.gpu = some g
  | _ => True

namespace OneSlotPerGpu

variable {f g : Fleet p} {now : ℕ} {host : String}

/-- Only the hosts and GPUs of slots and phones and the hosts' capacities count. -/
theorem of_standing (h : OneSlotPerGpu f) (hslots : g.standing.slots = f.standing.slots)
    (hphones : g.standing.phones = f.standing.phones) (hhosts : g.standing.capacities = f.standing.capacities) :
    OneSlotPerGpu g where
  slots := Distinct.of_seats h.slots hslots
  phones := Distinct.of_seats h.phones hphones
  apart := by
    intro a ha b hb hhost
    obtain ⟨a₀, ha₀, -, hah, hag⟩ := exists_of_seats hslots ha
    obtain ⟨b₀, hb₀, -, hbh, hbg⟩ := exists_of_seats hphones hb
    have hne := h.apart a₀ ha₀ b₀ hb₀ (by rw [hah, hbh, hhost])
    simpa only [Slot.address, hag, hbg] using hne
  capacity := by
    intro name host hname
    have hview : (view Host.capacity g.hosts)[name]? = some host.capacity := by
      rw [getElem?_view, hname]
      rfl
    have hsame : view Host.capacity g.hosts = view Host.capacity f.hosts := hhosts
    rw [hsame, getElem?_view] at hview
    obtain ⟨host₀, hhost₀, hcapacity⟩ := Option.map_eq_some_iff.mp hview
    rw [slotsOn_seats hslots, ← hcapacity]
    exact h.capacity name host₀ hhost₀

theorem agentGone (h : OneSlotPerGpu f) : OneSlotPerGpu (agentGone host now f) := by
  have hslots : (FleetCore.agentGone host now f).slots = f.slots.filter fun _ s => s.host ≠ some host := by
    simp only [FleetCore.agentGone]
    split <;> rfl
  have hphones : (FleetCore.agentGone host now f).phones = f.phones.filter fun _ s => s.host ≠ some host := by
    simp only [FleetCore.agentGone]
    split <;> rfl
  have hhosts : (FleetCore.agentGone host now f).hosts = f.hosts.erase host := by
    simp only [FleetCore.agentGone]
    split <;> rfl
  constructor
  · rw [hslots]
    exact Distinct.filter h.slots
  · rw [hphones]
    exact Distinct.filter h.phones
  · rw [hslots, hphones]
    exact fun a ha b hb => h.apart a (mem_filter_toList.mp ha).1 b (mem_filter_toList.mp hb).1
  · intro name k hk
    rw [hhosts, ExtTreeMap.getElem?_erase] at hk
    split at hk
    · cases hk
    · apply le_trans _ (h.capacity name k hk)
      rw [hslots, slotsOn, ExtTreeMap.toList_filter]
      exact filter_sublist.countP_le

theorem hello {k : Hello} (h : OneSlotPerGpu f) (hsame : SameGpus f (.agent k.host (.hello k))) :
    OneSlotPerGpu (phoneHello k now (hello k now f)) := by
  obtain ⟨hslots, hphones⟩ := hsame rfl
  obtain ⟨hslots, hwall⟩ := assignGpus_spec (fun g => newSlot .fcvm (some k.host) (some g) now)
    (fun _ => rfl) h.slots (wallGpus_nodup k) hslots
  obtain ⟨hphones, hlisted⟩ :=
    assignGpus_spec (fun g => { newSlot .fcvm (some k.host) (some g) now with phone := some .new })
      (fun _ => rfl) h.phones (distinctGpus_nodup _ _) hphones
  refine ⟨hslots, hphones, ?_, ?_⟩
  · intro a ha b hb hhost
    by_cases hk : a.2.host = some k.host
    · obtain ⟨g, hg, hag⟩ := hwall a ha hk
      obtain ⟨g', hg', hbg⟩ := hlisted b hb (hhost ▸ hk)
      have hne := phoneGpus_apart hg' hg
      simp only [Slot.address, hag, hbg, Option.map_some]
      intro heq
      exact hne (Option.some.inj heq).symm
    · have ha' := (mem_assignGpus (fun _ => rfl) ha).resolve_right hk
      have hb' := (mem_assignGpus (fun _ => rfl) hb).resolve_right (hhost ▸ hk)
      exact h.apart a ha' b hb' hhost
  · intro name host hname
    simp only [phoneHello, FleetCore.hello, dropMissingFromRaces, ExtTreeMap.getElem?_insert] at hname
    split at hname
    · next heq =>
      obtain rfl := Std.LawfulEqCmp.eq_of_compare heq
      obtain rfl := Option.some.inj hname
      apply le_trans (Listed.length_le hslots hwall)
      exact length_take_le _ _
    · next hne =>
      apply le_trans (slotsOn_assignGpus_le (fun _ => rfl) _)
      · exact h.capacity name host hname
      · rintro rfl
        exact hne Std.ReflCmp.compare_self

/-- The standing an event leaves is that of a fleet with one slot for each GPU: the old one, or the one after the hello
or the departure. -/
theorem restand {kind : EventKind p} (h : OneSlotPerGpu f) (now : ℕ) (hsame : SameGpus f kind) :
    ∃ g : Fleet p, OneSlotPerGpu g ∧ (f.restand now kind).slots = g.standing.slots ∧
      (f.restand now kind).phones = g.standing.phones ∧ (f.restand now kind).capacities = g.standing.capacities := by
  unfold Fleet.restand
  split
  · split
    · next heq =>
      subst heq
      exact ⟨_, h.hello hsame, rfl, rfl, rfl⟩
    · exact ⟨_, h, rfl, rfl, rfl⟩
  · exact ⟨_, h, rfl, rfl, rfl⟩
  · exact ⟨_, h.agentGone, rfl, rfl, rfl⟩
  · split <;> exact ⟨_, h, rfl, rfl, rfl⟩
  · exact ⟨_, h, rfl, rfl, rfl⟩

theorem apply {s : State p} {e : Event p} (h : OneSlotPerGpu s.fleet) (hsame : SameGpus s.fleet e.kind) :
    OneSlotPerGpu (apply s e).fleet := by
  have hstep := apply_standing s e
  obtain ⟨g, hg, hslots, hphones, hhosts⟩ := h.restand e.now hsame
  apply hg.of_standing
  · rw [hstep, hslots]
  · rw [hstep, hphones]
  · rw [hstep, hhosts]

end OneSlotPerGpu

/-- In every run of events each of which names, at an address a slot or phone of its host holds, the GPU that is there,
no two slots and no two phones are of one GPU, no GPU is both, and no host is above the capacity of its last hello. -/
theorem one_slot_per_gpu {s : State p} (h : (system p).ReachableBy (fun s e => SameGpus s.fleet e.kind) s) :
    OneSlotPerGpu s.fleet := by
  apply h.invariant (P := fun s => OneSlotPerGpu s.fleet)
  · rintro s ⟨c, now, rfl⟩
    constructor <;> simp [State.new, Fleet.new]
  · intro s e t hs hsame hnext
    obtain rfl := Option.some.inj hnext
    exact hs.apply hsame

def said (now : ℕ) (gpus : List Gpu) (capacity : ℕ) : Event Parts.plain :=
  ⟨now, .agent "h" (.hello ⟨"h", "arm64", gpus, capacity, none, ∅, [], [], 0⟩)⟩

/-- A host that says hello twice, the second time with one GPU more. -/
theorem one_slot_per_gpu_again : ∃ s : State Parts.plain,
    (system _).ReachableBy (fun s e => SameGpus s.fleet e.kind) s ∧ s.fleet.slots.size = 2 ∧ OneSlotPerGpu s.fleet := by
  let first := said 1 [⟨"0000:19:00.0", "L4"⟩] 2
  let second := said 2 [⟨"0000:19:00.0", "L4"⟩, ⟨"0000:1a:00.0", "L4"⟩] 2
  have hreach : (system _).ReachableBy (fun s e => SameGpus s.fleet e.kind)
      (apply (apply (.new .plain 0) first) second) := by
    refine .next (a := second) (.next (a := first) (.initial ⟨_, _, rfl⟩) ?_ rfl) ?_ rfl
    · intro _
      constructor <;> decide +kernel
    · intro _
      constructor <;> decide +kernel
  exact ⟨_, hreach, by decide +kernel, one_slot_per_gpu hreach⟩

/-- A second hello that names the GPU differently gives the address a second slot, above the capacity. -/
theorem renamed_gpu_gets_second_slot : ∃ s : State Parts.plain, (system _).Reachable s ∧
    (∃ a ∈ s.fleet.slots.toList, ∃ b ∈ s.fleet.slots.toList,
      a.1 ≠ b.1 ∧ a.2.host = b.2.host ∧ a.2.address = b.2.address) ∧
    ∃ e ∈ s.fleet.hosts.toList, e.2.capacity < slotsOn s.fleet.slots e.1 := by
  refine ⟨_, reachable_runFrom .plain 0 [said 1 [⟨"0000:19:00.0", "L4"⟩] 1, said 2 [⟨"0000:19:00.0", "NVIDIA L4"⟩] 1],
    ?_, ?_⟩
  · decide +kernel
  · decide +kernel

end Fcvm.FleetCore
