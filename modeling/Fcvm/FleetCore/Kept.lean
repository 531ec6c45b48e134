import Fcvm.FleetCore.Wall
import Fcvm.Library.Views

/-! What an event does before the fleet is settled to the books, to the EC2 tiles, to the hosts and GPUs of slots and
phones, and to the quarantines: all but four kinds of event leave them alone. -/

namespace Fcvm.FleetCore

open Std (ExtTreeMap)
open Library Library.Command

variable {p : Parts}

structure SameBooks (s s' : State p) : Prop where
  config : s'.config = s.config
  version : s'.version = s.version
  receipts : s'.receipts = s.receipts
  receiptOrder : s'.receiptOrder = s.receiptOrder

def Slot.seat (s : Slot p) : Option String × Option Gpu := (s.host, s.gpu)

def seats (m : ExtTreeMap ℕ (Slot p)) : ExtTreeMap ℕ (Option String × Option Gpu) := view Slot.seat m

/-- What the fleet is made of and what of it is quarantined: the part of the state that only hellos, departures,
quarantines and settling change. -/
structure Standing where
  slots : ExtTreeMap ℕ (Option String × Option Gpu)
  phones : ExtTreeMap ℕ (Option String × Option Gpu)
  capacities : ExtTreeMap String ℕ
  ec2 : ExtTreeMap ℕ Unit
  quarantined : ExtTreeMap String Quarantined
  releasedReports : ExtTreeMap String String

def Fleet.standing (f : Fleet p) : Standing where
  slots := seats f.slots
  phones := seats f.phones
  capacities := view Host.capacity f.hosts
  ec2 := view (fun _ => ()) f.ec2
  quarantined := f.quarantined
  releasedReports := f.releasedReports

structure Moves (s s' : State p) : Prop extends SameBooks s s' where
  standing : s'.fleet.standing = s.fleet.standing

variable {s : State p}

instance : Std.Refl (Moves (p := p)) where
  refl _ := ⟨⟨rfl, rfl, rfl, rfl⟩, rfl⟩

instance : IsTrans (State p) Moves where
  trans _ _ _ h h' :=
    ⟨⟨h'.config.trans h.config, h'.version.trans h.version, h'.receipts.trans h.receipts,
      h'.receiptOrder.trans h.receiptOrder⟩, h'.standing.trans h.standing⟩

theorem Moves.fleet {g : Fleet p} (h : g.standing = s.fleet.standing) : Moves s { s with fleet := g } :=
  ⟨⟨rfl, rfl, rfl, rfl⟩, h⟩

section Standing

variable {f g : Fleet p}

theorem standing_slots (hslots : seats g.slots = seats f.slots)
    (h : { g.standing with slots := seats f.slots } = f.standing) : g.standing = f.standing := by
  rw [← h, ← hslots]
  rfl

theorem standing_phones (hphones : seats g.phones = seats f.phones)
    (h : { g.standing with phones := seats f.phones } = f.standing) : g.standing = f.standing := by
  rw [← h, ← hphones]
  rfl

theorem standing_hosts (hhosts : view Host.capacity g.hosts = view Host.capacity f.hosts)
    (h : { g.standing with capacities := view Host.capacity f.hosts } = f.standing) : g.standing = f.standing := by
  rw [← h, ← hhosts]
  rfl

theorem standing_ec2 (hec2 : view (fun _ => ()) g.ec2 = view (fun _ => ()) f.ec2)
    (h : { g.standing with ec2 := view (fun _ => ()) f.ec2 } = f.standing) : g.standing = f.standing := by
  rw [← h, ← hec2]
  rfl

theorem standing_foldl {α : Type} {g : Fleet p → α → Fleet p} (hg : ∀ f a, (g f a).standing = f.standing) (l : List α)
    (f : Fleet p) : (l.foldl g f).standing = f.standing := by
  induction l generalizing f with
  | nil => rfl
  | cons a l ih => rw [List.foldl_cons, ih, hg]

theorem standing_release (n now : ℕ) (f : Fleet p) : (release n now f).standing = f.standing := by
  simp only [release]
  split
  · rfl
  · next s hs =>
    split
    · rfl
    · exact standing_slots (view_insert hs rfl) rfl

theorem standing_releasePhone (n now : ℕ) (f : Fleet p) : (releasePhone n now f).standing = f.standing := by
  simp only [releasePhone]
  split
  · rfl
  · next s hs =>
    split
    · rfl
    · split
      · rfl
      · exact standing_phones (view_insert hs rfl) rfl

theorem standing_releaseAll (now : ℕ) (test : Claim p.Keyframe → Bool) (f : Fleet p) :
    (releaseAll now test f).standing = f.standing := standing_foldl (fun f n => standing_release n now f) _ f

theorem standing_releasePhones (now : ℕ) (test : PhoneClaim → Bool) (f : Fleet p) :
    (releasePhones now test f).standing = f.standing := standing_foldl (fun f n => standing_releasePhone n now f) _ f

theorem standing_startRace (c : Config) (sender : String) (now : ℕ) (f : Fleet p) :
    (startRace c sender now f).standing = f.standing := by
  have hslots : seats (startRace c sender now f).slots = seats f.slots := by
    apply view_map
    intro n s
    split <;> rfl
  have hec2 : view (fun _ => ()) (startRace c sender now f).ec2 = view (fun _ => ()) f.ec2 := view_map fun _ _ => rfl
  simp only [Fleet.standing, hslots, hec2]
  rfl

end Standing

section Commands

variable (c : Ctx)

theorem sound_relaunch (tile : String) : Sound Moves (relaunch c tile : Command (State p) String String) := by
  apply Sound.get_bind
  intro s
  apply Sound.lift_bind
  rintro ⟨half, n⟩
  apply Sound.lift_bind
  rintro -
  apply Sound.refuseIf_bind
  apply Sound.refuseIf_bind
  apply Sound.modify_bind
  · cases half with
    | fcvm => exact fun _ => .fleet (standing_slots (view_modify fun _ => rfl) rfl)
    | ec2 => exact fun _ => .fleet (standing_ec2 (view_modify fun _ => rfl) rfl)
  · exact .modify_bind (fun _ => .fleet rfl) (.pure _)

/-- What follows the two checks of a word cannot fail. -/
theorem placeWord_eq (text : String) (textStyle : TextStyle) (check : Option TextCheck) :
    ∃ write : State p → Command (State p) String String, (∀ s, Sure Moves (write s)) ∧
      placeWord c text textStyle check = (get >>= fun s =>
        lift (rate s.fleet.lastWordAt c.client c.now s.config.wordIntervalMs "word") >>= fun _ =>
          lift (checkWord check (sky s.fleet)) >>= fun _ => write s) := by
  refine ⟨_, ?_, rfl⟩
  intro s
  apply Sure.modify_bind fun _ => .fleet rfl
  apply Sure.modify_bind fun _ => .fleet rfl
  split
  · exact .modify_bind (fun _ => .fleet rfl) (.pure _)
  · exact .pure _

theorem sound_placeWord (text : String) (textStyle : TextStyle) (check : Option TextCheck) :
    Sound Moves (placeWord c text textStyle check : Command (State p) String String) := by
  obtain ⟨write, hwrite, heq⟩ := placeWord_eq c text textStyle check (p := p)
  rw [heq]
  apply Sound.get_bind
  intro s
  apply Sound.lift_bind
  rintro -
  apply Sound.lift_bind
  rintro -
  exact (hwrite s).sound

theorem sound_placeLight (pos color : ℚ × ℚ × ℚ) :
    Sound Moves (placeLight c pos color : Command (State p) String String) := by
  apply Sound.get_bind
  intro s
  apply Sound.lift_bind
  rintro -
  apply Sound.modify_bind fun _ => .fleet rfl
  exact .modify_bind (fun _ => .fleet rfl) (.pure _)

theorem sound_phonesZoom (out : Bool) : Sound Moves (phonesZoom c out : Command (State p) String String) := by
  apply Sound.get_bind
  intro s
  apply Sound.refuseIf_bind
  split
  · exact (Sure.pure _).sound
  · apply Sound.refuseIf_bind
    apply Sound.modify_bind fun _ => .fleet rfl
    exact .modify_bind (fun _ => .fleet rfl) (.pure _)

theorem moves_updatePhone (n : ℕ) (g : PhoneSlot → PhoneSlot) (s : State p) : Moves s (updatePhone n g s) :=
  .fleet (standing_phones (view_modify fun _ => rfl) rfl)

theorem sound_noteTap (n : ℕ) (slot : Slot p) (ph : PhoneSlot) (k : PhoneClaim) :
    Sound Moves (noteTap c n slot ph k) := by
  apply Sound.refuseIf_bind
  apply Sound.refuseIf_bind
  apply Sound.refuseIf_bind
  exact (Sure.modify (moves_updatePhone _ _)).sound

theorem sound_noteAction (n : ℕ) (k : PhoneClaim) :
    Sound Moves (noteAction c n k : Command (State p) String Unit) := by
  apply Sound.refuseIf_bind
  exact (Sure.modify (moves_updatePhone _ _)).sound

theorem moves_showFront (n generation : ℕ) (action : PhoneAction) (s : State p) :
    Moves s (showFront n generation action s) := by
  simp only [showFront]
  split
  · exact moves_updatePhone _ _ _
  · exact moves_updatePhone _ _ _
  · exact Std.Refl.refl s

theorem sure_carryOut (n : ℕ) (slot : Slot p) (k : PhoneClaim) (action : PhoneAction) (point : Option TapPoint) :
    Sure Moves (carryOut c n slot k action point) := by
  simp only [carryOut]
  split
  · exact .modify_bind (fun _ => .fleet (standing_phones (view_modify fun _ => rfl) rfl)) (.pure _)
  · apply Sure.modify_bind (moves_showFront n slot.generation action)
    apply Sure.modify_bind fun _ => .fleet rfl
    exact .modify_bind (fun _ => moves_updatePhone _ _ _) (.pure _)

theorem sound_phoneAction (claim : Option String) (action : PhoneAction) (point : Option TapPoint) :
    Sound Moves (phoneAction c claim action point : Command (State p) String String) := by
  apply Sound.get_bind
  intro s
  apply Sound.lift_bind
  rintro ⟨n, slot, ph, k⟩
  apply Sound.lift_bind
  rintro -
  apply Sound.refuseIf_bind
  apply Sound.bind
  · split
    · exact sound_noteTap c n slot ph k
    · exact sound_noteAction c n k
  · exact fun _ => sure_carryOut c n slot k action point

theorem sound_claim : Sound Moves (claim c : Command (State p) String String) := by
  apply Sound.get_bind
  intro s
  apply Sound.lift_bind
  intro token
  apply Sound.refuseIf_bind
  apply Sound.lift_bind
  rintro -
  apply Sound.lift_bind
  rintro ⟨n, borrowed⟩
  exact .modify_bind (fun _ => .fleet (standing_slots (view_modify fun _ => rfl) rfl)) (.pure _)

theorem sound_claimPhone (want : Option String) :
    Sound Moves (claimPhone c want : Command (State p) String String) := by
  apply Sound.get_bind
  intro s
  apply Sound.refuseIf_bind
  apply Sound.lift_bind
  rintro -
  apply Sound.refuseIf_bind
  apply Sound.lift_bind
  intro n
  exact .modify_bind (fun _ => .fleet (standing_phones (view_modify fun _ => rfl) rfl)) (.pure _)

theorem moves_updateClaim (n : ℕ) (g : Claim p.Keyframe → Claim p.Keyframe) (s : State p) :
    Moves s (updateClaim n g s) :=
  .fleet (standing_slots (view_modify fun _ => rfl) rfl)

theorem sound_claimAutopilot (fly : Bool) : Sound Moves (claimAutopilot c fly : Command (State p) String String) := by
  apply Sound.get_bind
  intro s
  apply Sound.lift_bind
  rintro ⟨n, slot, k⟩
  simp only
  split
  · exact (Sure.pure _).sound
  · exact (Sure.pure _).sound
  · exact .modify_bind (moves_updateClaim _ _) (.pure _)
  · exact .modify_bind (moves_updateClaim _ _) (.pure _)

variable {client e : String} {now : ℕ}

theorem vote_error {φ : Type} {d d' : Director φ} {target intent : String}
    (h : d.vote p client target intent now = (.error e, d')) : d' = d := by
  simp only [Director.vote] at h
  split at h
  · cases h
  · split at h
    · exact (Prod.mk.inj h).2.symm
    · split at h <;> cases h

theorem faster_error {γ ρ : Type} {g g' : Potato γ ρ} {cfg : Config}
    (h : g.faster cfg client now = (.error e, g')) : g' = g := by
  simp only [Potato.faster] at h
  split at h
  · exact (Prod.mk.inj h).2.symm
  · split at h
    · exact (Prod.mk.inj h).2.symm
    · split at h
      · exact (Prod.mk.inj h).2.symm
      · cases h

theorem restart_error {γ ρ : Type} {g g' : Potato γ ρ} {cfg : Config}
    (h : g.restart cfg client now = (.error e, g')) : g' = g := by
  simp only [Potato.restart] at h
  split at h
  · exact (Prod.mk.inj h).2.symm
  · split at h
    · exact (Prod.mk.inj h).2.symm
    · split at h
      · exact (Prod.mk.inj h).2.symm
      · cases h

theorem sound_intentEffect (intent : Intent) (check : Option TextCheck) :
    Sound Moves (intentEffect c intent check : Command (State p) String String) := by
  apply Sound.get_bind
  intro s
  cases intent with
  | relaunch tile => exact sound_relaunch c tile
  | word text textStyle => exact sound_placeWord c text textStyle check
  | light pos color => exact sound_placeLight c pos color
  | phonesZoom out => exact sound_phonesZoom c out
  | phoneAction claim action point => exact sound_phoneAction c claim action point
  | claimAutopilot fly => exact sound_claimAutopilot c fly
  | claimGpu =>
    apply Sound.refuseIf_bind
    exact sound_claim c
  | claimPhone phone =>
    apply Sound.refuseIf_bind
    exact sound_claimPhone c phone
  | wake =>
    apply Sound.refuseIf_bind
    apply Sound.refuseIf_bind
    exact .modify_bind (fun _ => .fleet rfl) (.pure _)
  | restartNow =>
    apply Sound.refuseIf_bind
    apply Sound.refuseIf_bind
    exact .modify_bind (fun _ => .fleet (standing_startRace _ _ _ _)) (.pure _)
  | nudge target =>
    refine (Sound.update (fun _ => .fleet rfl) ?_).bind fun _ => .pure _
    intro s e s' hs
    rcases hv : s.fleet.director.vote p c.client target c.id c.now with ⟨r, d⟩
    simp only [hv] at hs
    obtain ⟨rfl, rfl⟩ := Prod.mk.inj hs
    rw [vote_error hv]
    rfl
  | potatoFaster =>
    refine (Sound.update (fun _ => .fleet rfl) ?_).bind fun _ => .pure _
    intro s e s' hs
    rcases hv : s.fleet.potato.faster s.config c.client c.now with ⟨r, g⟩
    simp only [hv] at hs
    obtain ⟨rfl, rfl⟩ := Prod.mk.inj hs
    rw [faster_error hv]
    rfl
  | potatoRestart =>
    refine (Sound.update (fun _ => .fleet rfl) ?_).bind fun _ => .pure _
    intro s e s' hs
    rcases hv : s.fleet.potato.restart s.config c.client c.now with ⟨r, g⟩
    simp only [hv] at hs
    obtain ⟨rfl, rfl⟩ := Prod.mk.inj hs
    rw [restart_error hv]
    rfl
  | claimCamera yawDeg pitchDeg dive =>
    apply Sound.lift_bind
    rintro ⟨n, slot, k⟩
    exact .modify_bind (moves_updateClaim _ _) (.pure _)
  | releaseGpu named =>
    apply Sound.lift_bind
    rintro ⟨n, slot, k⟩
    apply Sound.refuseIf_bind
    exact .modify_bind (fun _ => .fleet (standing_release _ _ _)) (.pure _)
  | releasePhone named =>
    apply Sound.lift_bind
    rintro ⟨n, slot, ph, k⟩
    apply Sound.lift_bind
    rintro -
    exact .modify_bind (fun _ => .fleet (standing_releasePhone _ _ _)) (.pure _)

end Commands

variable {f : Fleet p} {now : ℕ}

theorem seat_noteRunning (r : SlotReport) (now : ℕ) (s : Slot p) : (noteRunning r now s).seat = s.seat := by
  simp only [noteRunning]
  split
  · rfl
  · split
    · split <;> rfl
    · rfl

theorem seat_reported (half : Half) (r : SlotReport) (t : ℚ) (s : Slot p) :
    (reported half r now t s).seat = s.seat := by
  have hadopt : (if half = .fcvm then adopt r s else s).seat = s.seat := by split <;> rfl
  simp only [reported]
  split
  · exact (seat_noteRunning ..).trans hadopt
  · exact (seat_noteRunning ..).trans hadopt

theorem standing_observeSlot (half : Half) (k : ℕ) (host : Option String) (r : SlotReport) :
    (observeSlot half k host r now f).standing = f.standing := by
  simp only [observeSlot]
  rcases hs : (f.side half)[k]? with _ | slot
  · rfl
  simp only
  split
  · rfl
  · cases half with
    | fcvm => exact standing_slots (view_insert hs (seat_reported ..)) rfl
    | ec2 => exact standing_ec2 (view_insert hs rfl) rfl

theorem standing_observePhone (k : ℕ) (host : String) (r : SlotReport) :
    (observePhone k host r now f).standing = f.standing := by
  simp only [observePhone]
  split
  · rfl
  · next s hs =>
    split
    · rfl
    · exact standing_phones (view_insert hs (seat_noteRunning ..)) rfl

theorem standing_health (host : Option String) (h : HealthReport p.Json) : (health host h f).standing = f.standing := by
  have hseat (s : Slot p) : (noteHealth true h s).seat = s.seat := by
    simp only [noteHealth]
    split <;> rfl
  simp only [health]
  split
  · next name =>
    have hnote (s : Slot p) : (if s.host = some name then noteHealth true h s else s).seat = s.seat := by
      split
      · exact hseat s
      · rfl
    split
    · split
      · exact standing_phones (view_modify hnote) rfl
      · rfl
    · split
      · exact standing_slots (view_modify hnote) rfl
      · rfl
  · split
    · exact standing_ec2 (view_modify fun _ => rfl) rfl
    · rfl

theorem standing_publish (c : Config) (slot : String) (names : Published) :
    (publish c slot names f).standing = f.standing := by
  have hseat (s : Slot p) : (publishSlot names s).seat = s.seat := by
    simp only [publishSlot]
    split <;> rfl
  simp only [publish]
  split
  · split <;> rfl
  · split
    · next name h hfind =>
      split
      · have hh := ExtTreeMap.mem_toList_iff_getElem?_eq_some.1 (List.mem_of_find?_eq_some hfind)
        exact standing_hosts (view_insert hh rfl) rfl
      · rfl
    · split
      · exact standing_slots (view_modify hseat) rfl
      · split
        · exact standing_ec2 (view_modify fun _ => rfl) rfl
        · split
          · exact standing_phones (view_modify hseat) rfl
          · rfl

theorem standing_tick (c : Config) : (tick c now f).standing = f.standing := by
  have hhistory (f : Fleet p) : (historyStep c now f).standing = f.standing := by
    simp only [historyStep]
    split
    · rfl
    · split
      · rfl
      · split
        · rfl
        · split <;> rfl
  have hcamera (f : Fleet p) : (directCamera now f).standing = f.standing := rfl
  have hflights (f : Fleet p) : (extendFlights now f).standing = f.standing :=
    standing_slots (view_map fun _ _ => rfl) rfl
  have hactions (f : Fleet p) : (dropActions now f).standing = f.standing :=
    standing_phones (view_map fun _ _ => rfl) rfl
  have hforget (f : Fleet p) : (forgetOld c now f).standing = f.standing := rfl
  simp only [tick]
  rw [hforget, hactions, standing_releasePhones, standing_releaseAll, hflights, hhistory, hcamera, runSchedule]
  split
  · exact standing_startRace c _ now f
  · rfl

def Fleet.report (host sbdf error : String) (report : Option String) (now : ℕ) (f : Fleet p) :
    ExtTreeMap String Quarantined :=
  if (report.isSome ∧ f.releasedReports[gpuKey host sbdf]? = report) ∨
    gpuKey host sbdf ∈ f.quarantined then f.quarantined
  else f.quarantined.insert (gpuKey host sbdf) ⟨host, sbdf, error, now, report⟩

/-- What an event makes of the fleet's standing, before the fleet is settled. -/
def Fleet.restand (now : ℕ) (f : Fleet p) : EventKind p → Standing
  | .agent host (.hello h) => if h.host = host then (phoneHello h now (hello h now f)).standing else f.standing
  | .agent host (.quarantine sbdf error report) =>
    { f.standing with quarantined := f.report host sbdf error report now }
  | .agentGone host => (agentGone host now f).standing
  | .releaseQuarantine host sbdf =>
    match f.quarantined[gpuKey host sbdf]? with
    | none => f.standing
    | some q =>
      { f.standing with
        quarantined := f.quarantined.erase (gpuKey host sbdf)
        releasedReports := match q.report with
          | some report => f.releasedReports.insert (gpuKey host sbdf) report
          | none => f.releasedReports }
  | _ => f.standing

theorem standing_agentMsg (host : String) (msg : AgentMsg p) :
    (agentMsg host now f msg).standing = f.restand now (.agent host msg) := by
  cases msg with
  | hello h =>
    simp only [agentMsg, Fleet.restand]
    split
    · simp only [agentHello, noteHello]
      split <;> exact standing_hosts (view_modify fun _ => rfl) rfl
    · rfl
  | slot r =>
    simp only [agentMsg]
    split
    · exact standing_observeSlot _ _ _ _
    · split
      · exact standing_observePhone _ _ _
      · rfl
  | health h => exact standing_health _ h
  | draining => exact standing_hosts (view_modify fun _ => rfl) rfl
  | aggregate => exact standing_hosts (view_modify fun _ => rfl) rfl
  | scrub | potato => rfl
  | quarantine sbdf error report =>
    simp only [agentMsg, Fleet.restand, Fleet.report]
    split
    · next h =>
      rw [if_pos (.inl h)]
      rfl
    · next h =>
      simp only [quarantine]
      split
      · next hq =>
        rw [if_pos (.inr hq)]
        rfl
      · next hq =>
        rw [if_neg (by tauto)]
        exact standing_foldl (fun f n => standing_release n now f) _ _

theorem standing_applyFleet (c : Config) (kind : EventKind p) :
    (applyFleet c now f kind).standing = f.restand now kind := by
  cases kind with
  | intent | hostsExpected | degraded => rfl
  | viewerJoined viewer client returning =>
    simp only [applyFleet]
    split <;> rfl
  | visibility viewer visible =>
    simp only [applyFleet]
    split <;> rfl
  | published slot names => exact standing_publish c slot names
  | scaleInstances instances =>
    simp only [applyFleet]
    split <;> rfl
  | viewerLeft viewer =>
    simp only [applyFleet]
    rw [standing_releasePhones, standing_releaseAll]
    rfl
  | tick =>
    have hround (f : Fleet p) : (budgetRound now f).standing = f.standing := by
      simp only [budgetRound]
      split <;> rfl
    have hpotato (f : Fleet p) (g : Potato p.Game p.Play) :
        ({ f with potato := g } : Fleet p).standing = f.standing := rfl
    simp only [applyFleet, Fleet.restand]
    rw [hpotato, hround, standing_tick]
  | ec2Health report => exact standing_health _ report
  | agent host msg => exact standing_agentMsg host msg
  | agentGone host => rfl
  | ec2 report =>
    simp only [applyFleet]
    split
    · exact standing_observeSlot _ _ _ _
    · rfl
  | releaseQuarantine host sbdf =>
    simp only [applyFleet, Fleet.restand]
    cases f.quarantined[gpuKey host sbdf]? <;> rfl

theorem restand_ec2 (kind : EventKind p) : (f.restand now kind).ec2 = f.standing.ec2 := by
  simp only [Fleet.restand]
  split
  · split <;> rfl
  · rfl
  · simp only [agentGone]
    split <;> rfl
  · split <;> rfl
  · rfl

/-- One event before the fleet is settled: the books stay, and the standing is that of `restand`. -/
theorem applyInner_spec (s : State p) (e : Event p) :
    SameBooks s (applyInner e s).1 ∧ (applyInner e s).1.fleet.standing = s.fleet.restand e.now e.kind := by
  by_cases he : ∃ m, e.kind = .intent m
  · obtain ⟨m, he⟩ := he
    have hmoves : Moves s (applyInner e s).1 := by
      simp only [applyInner, he, applyIntent]
      split
      · exact Std.Refl.refl s
      · have hrun : Moves s (runIntent m e.now s).2 := by
          simp only [runIntent]
          split
          · exact Std.Refl.refl s
          · exact (sound_intentEffect _ _ _).moves s
        exact IsTrans.trans _ _ _ hrun (.fleet rfl)
    rw [he]
    exact ⟨hmoves.toSameBooks, hmoves.standing⟩
  · have happly : applyInner e s = (onFleet (fun f => applyFleet s.config e.now f e.kind) s, none) := by
      simp only [applyInner]
      split
      · next m hm => exact absurd ⟨m, hm⟩ he
      · rfl
    rw [happly]
    exact ⟨⟨rfl, rfl, rfl, rfl⟩, standing_applyFleet s.config e.kind⟩

theorem mem_applyInner_ec2 (s : State p) (e : Event p) (n : ℕ) :
    n ∈ (applyInner e s).1.fleet.ec2 ↔ n ∈ s.fleet.ec2 := by
  have h := congrArg Standing.ec2 (applyInner_spec s e).2
  rw [restand_ec2] at h
  rw [← mem_view (v := fun _ => ()), ← mem_view (v := fun _ => ()) (m := s.fleet.ec2)]
  exact iff_of_eq (congrArg (n ∈ ·) h)

theorem mem_retile_ec2 {c : Config} {n : ℕ} (hn : n ∈ (retile c now f).ec2) : n ∈ f.ec2 ∨ 1 ≤ n := by
  have hmem := (mem_lay_ec2 _ now _).1 hn
  rcases mem_ec2Tiles.1 hmem with h | h
  · exact .inl h.1
  · exact .inr h.1

theorem mem_settle_ec2 {c : Config} {n : ℕ} (hn : n ∈ (settle c now f).ec2) : n ∈ f.ec2 ∨ 1 ≤ n := by
  have hpower {m : ℕ} (hm : m ∈ (powerStep c now (retile c now f)).ec2) : m ∈ f.ec2 ∨ 1 ≤ m := by
    rw [powerStep_eq] at hm
    exact mem_retile_ec2 hm
  simp only [settle] at hn
  split at hn
  · rcases mem_retile_ec2 hn with h | h
    · exact hpower h
    · exact .inr h
  · exact hpower hn

theorem standing_retile (c : Config) (now : ℕ) (f : Fleet p) :
    (retile c now f).standing = { f.standing with ec2 := (retile c now f).standing.ec2 } := by
  have hslots : seats (retile c now f).slots = seats f.slots := view_map fun _ _ => Prod.ext laySlot_host laySlot_gpu
  have hhosts : view Host.capacity (retile c now f).hosts = view Host.capacity f.hosts := view_map fun _ _ => rfl
  simp only [Fleet.standing, hslots, hhosts]
  rfl

theorem standing_settle (c : Config) (now : ℕ) (f : Fleet p) :
    (settle c now f).standing = { f.standing with ec2 := (settle c now f).standing.ec2 } := by
  have hpower : (powerStep c now (retile c now f)).standing =
      { f.standing with ec2 := (powerStep c now (retile c now f)).standing.ec2 } := by
    rw [powerStep_eq]
    exact standing_retile c now f
  simp only [settle]
  split
  · rw [standing_retile, hpower]
  · exact hpower

/-- One event: the standing is that of `restand`, but for the EC2 tiles, which settling makes. -/
theorem apply_standing (s : State p) (e : Event p) :
    (apply s e).fleet.standing = { s.fleet.restand e.now e.kind with ec2 := (apply s e).fleet.standing.ec2 } := by
  rw [← (applyInner_spec s e).2, apply_fleet]
  exact standing_settle _ _ _

theorem apply_version (s : State p) (e : Event p) :
    (apply s e).version = s.version ∧ (apply s e).fleet = sameBookkeeping s.fleet (apply s e).fleet ∨
      (apply s e).version = s.version + 1 := by
  have hversion := (applyInner_spec s e).1.version
  rw [apply_fleet]
  simp only [apply, hversion]
  cases hreceipt : (applyInner e s).2 with
  | none =>
    simp only [Option.isSome_none, Bool.false_or, decide_eq_true_eq]
    split
    · exact .inr rfl
    · next hsame => exact .inl ⟨rfl, not_not.1 hsame⟩
  | some r => exact .inr rfl

theorem apply_config_eq (s : State p) (e : Event p) : (apply s e).config = s.config := by
  rw [apply_config, (applyInner_spec s e).1.config]

end Fcvm.FleetCore
