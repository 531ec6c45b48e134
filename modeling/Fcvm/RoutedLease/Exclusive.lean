import Fcvm.RoutedLease.Operations

namespace Fcvm.RoutedLease

open Library Prog Function Option

variable {Addr : Type}

variable {o : Op Addr} {address : Addr} {process : ℕ} {w : Pool.State (Dir Addr) (Op Addr) Res}

section Programs

variable {β : Type} {ω : Own Addr}

theorem wp_does_bind {f : Res o → Program Addr β} {Q : β → Own Addr → Prop} (hpre : pre o ω)
    (h : ∀ r ω', post o ω r ω' → wp contract (f r) Q ω') : wp contract (does o >>= f) Q ω := wp_perform hpre h

theorem wp_does {Q : Res o → Own Addr → Prop} (hpre : pre o ω) (h : ∀ r ω', post o ω r ω' → Q r ω') :
    wp contract (does o) Q ω := ⟨hpre, h⟩

structure Between (call : Option (ℕ × Call Addr)) (ω : Own Addr) : Prop where
  call : ω.call = call
  table : ω.table = true
  file : ω.file = none

variable {call : Option (ℕ × Call Addr)}

theorem wp_closeFile (hcall : ω.call = call) (htable : ω.table = true) :
    wp contract (does .closeFile) (fun _ ω' => Between call ω') ω := by
  refine wp_does trivial ?_
  rintro _ ω' rfl
  exact ⟨hcall, htable, rfl⟩

theorem removeAbandonedLease_spec (path : FileName Addr) (h : Between call ω) :
    wp contract (removeAbandonedLease path) (fun _ ω' => Between call ω') ω := by
  refine wp_does_bind h.file ?_
  intro r ω₁ h₁
  cases r with
  | opened =>
    obtain ⟨i, rfl⟩ := h₁
    refine wp_does_bind ⟨h.table, rfl⟩ ?_
    intro r ω₂ h₂
    cases r with
    | locked =>
      obtain ⟨named, rfl⟩ := h₂
      refine wp_does_bind trivial ?_
      rintro held ω₃ ⟨rfl, hheld⟩
      refine wp_does_bind trivial ?_
      rintro current ω₄ ⟨rfl, hcurrent⟩
      dsimp only
      split
      · next held current =>
        split
        · next heq =>
          subst heq
          refine wp_does_bind (hcurrent held rfl (hheld held rfl) rfl) ?_
          intro removed ω₅ h₅
          cases removed with
          | true | false =>
            cases h₅
            exact wp_closeFile h.call h.table
        · exact wp_closeFile h.call h.table
      · exact wp_closeFile h.call h.table
    | wouldBlock =>
      obtain ⟨p, address, -, rfl⟩ := h₂
      exact wp_closeFile h.call h.table
    | failed =>
      cases h₂
      exact wp_closeFile h.call h.table
  | notFound | failed =>
    cases h₁
    exact wp_ret h

theorem sweep_spec [DecidableEq Addr] (keep : FileName Addr) (entries : List (Option (FileName Addr)))
    (h : Between call ω) :
    wp contract (sweep keep entries) (fun _ ω' => Between call ω') ω := by
  induction entries generalizing ω with
  | nil => exact wp_ret h
  | cons entry entries ih =>
    cases entry with
    | none => exact wp_ret h
    | some path =>
      unfold sweep
      split
      · exact ih h
      · exact wp_seq (removeAbandonedLease_spec path h) (fun _ _ h => ih h)

theorem removeAbandonedLeases_spec [DecidableEq Addr] (keep : FileName Addr) (h : Between call ω) :
    wp contract (removeAbandonedLeases keep) (fun _ ω' => Between call ω') ω := by
  refine wp_does_bind trivial ?_
  intro r ω₁ h₁
  cases h₁
  cases r with
  | none => exact wp_ret h
  | some entries => exact sweep_spec keep entries h

structure Attempted (call : Option (ℕ × Call Addr)) (address : Addr) (r : Option LeaseAttempt) (ω : Own Addr) : Prop
    extends Between call ω where
  held : ∀ holder, r = some (.held holder) → ∃ p, ω.met = some (.lease p address)

theorem Attempted.of_ne {r : Option LeaseAttempt} (h : Between call ω)
    (hr : ∀ holder, r ≠ some (.held holder)) : Attempted call address r ω :=
  ⟨h, fun holder heq => absurd heq (hr holder)⟩

theorem wp_closeFile_none (hcall : ω.call = call) (htable : ω.table = true) :
    wp contract (do does .closeFile; return none) (Attempted call address) ω := by
  refine wp_seq (wp_closeFile hcall htable) ?_
  intro _ ω' h'
  exact wp_ret (Attempted.of_ne h' nofun)

theorem recordHolder_spec (pid : ℕ) (vmId : List Char) (hcall : ω.call = call) (htable : ω.table = true)
    (hnamed : ω.named = some (.lease address)) :
    wp contract (recordHolder address pid vmId) (Attempted call address) ω := by
  refine wp_does_bind trivial ?_
  intro r ω₁ h₁
  cases h₁
  cases r
  case false => exact wp_closeFile_none hcall htable
  refine wp_does_bind trivial ?_
  intro r ω₂ h₂
  cases h₂
  cases r
  case false => exact wp_closeFile_none hcall htable
  refine wp_does_bind trivial ?_
  intro r ω₃ h₃
  cases h₃
  cases r with
  | false => exact wp_closeFile_none hcall htable
  | true =>
    refine wp_does_bind hnamed ?_
    rintro _ ω₄ rfl
    exact wp_ret (Attempted.of_ne ⟨hcall, htable, rfl⟩ nofun)

theorem attempts_spec (address : Addr) (pid : ℕ) (vmId : List Char) (n : ℕ) (h : Between call ω) :
    wp contract (attempts address pid vmId n) (Attempted call address) ω := by
  induction n generalizing ω with
  | zero => exact wp_ret (Attempted.of_ne h nofun)
  | succ n ih =>
    refine wp_does_bind h.file ?_
    intro r ω₁ h₁
    cases r with
    | opened =>
      obtain ⟨i, rfl⟩ := h₁
      refine wp_does_bind ⟨h.table, rfl⟩ ?_
      intro r ω₂ h₂
      cases r with
      | locked =>
        obtain ⟨named, rfl⟩ := h₂
        refine wp_does_bind trivial ?_
        rintro held ω₃ ⟨rfl, hheld⟩
        obtain _ | held := held
        · exact wp_closeFile_none h.call h.table
        refine wp_does_bind trivial ?_
        rintro current ω₄ ⟨rfl, hcurrent⟩
        cases current with
        | failed => exact wp_closeFile_none h.call h.table
        | notFound => exact wp_seq (wp_closeFile h.call h.table) (fun _ _ h => ih h)
        | inode current =>
          dsimp only
          split
          · next heq =>
            subst heq
            exact recordHolder_spec pid vmId h.call h.table (hcurrent current rfl (hheld current rfl) rfl)
          · exact wp_seq (wp_closeFile h.call h.table) (fun _ _ h => ih h)
      | wouldBlock =>
        obtain ⟨p, address', hhome, rfl⟩ := h₂
        cases hhome
        refine wp_does_bind trivial ?_
        intro written ω₃ h₃
        cases h₃
        cases written with
        | none => exact wp_closeFile_none h.call h.table
        | some written =>
          refine wp_does_bind trivial ?_
          rintro _ ω₄ rfl
          exact wp_ret ⟨⟨h.call, h.table, rfl⟩, fun _ _ => ⟨p, rfl⟩⟩
      | failed =>
        cases h₂
        exact wp_closeFile_none h.call h.table
    | notFound | failed =>
      cases h₁
      exact wp_ret (Attempted.of_ne h nofun)

theorem wp_answer {attempt : Option LeaseAttempt} {vmId : List Char}
    (hcall : ω.call = some (process, .leaseAddress address vmId))
    (h : ∀ holder, attempt = some (.held holder) → ∃ p, ω.met = some (.lease p address)) :
    wp contract (does (.answer attempt)) (fun _ _ => True) ω := by
  refine wp_does ?_ (fun _ _ _ => trivial)
  intro holder heq process' address' vmId' hcall'
  cases hcall.symm.trans hcall'
  exact h holder heq

theorem leaseAddress_spec [DecidableEq Addr] {vmId : List Char}
    (hcall : ω.call = some (process, .leaseAddress address vmId)) (hfile : ω.file = none) (pid : ℕ) :
    wp contract (leaseAddress address pid vmId) (fun _ _ => True) ω := by
  have hnone : wp contract (does (.answer none)) (fun _ _ => True) ω := wp_answer hcall nofun
  refine wp_does_bind trivial ?_
  intro r ω₁ h₁
  cases h₁
  cases r
  case false => exact hnone
  refine wp_does_bind trivial ?_
  intro r ω₂ h₂
  cases h₂
  cases r
  case false => exact hnone
  refine wp_does_bind trivial ?_
  intro r ω₃ h₃
  cases r with
  | false =>
    cases h₃
    exact hnone
  | true =>
    cases h₃
    refine wp_seq (removeAbandonedLeases_spec _ ⟨hcall, rfl, hfile⟩) ?_
    intro _ ω₄ h₄
    refine wp_seq (attempts_spec address pid vmId 100 h₄) ?_
    intro attempt ω₅ h₅
    refine wp_does_bind h₅.file ?_
    rintro _ ω₆ rfl
    exact wp_answer h₅.call h₅.held

theorem dropLease_spec : wp contract (dropLease : Program Addr Unit) (fun _ _ => True) ω := by
  refine wp_does_bind trivial ?_
  rintro _ ω₁ ⟨i, rfl⟩
  exact wp_does ⟨i, rfl⟩ (fun _ _ _ => trivial)

end Programs

section System

variable [DecidableEq Addr]

def processes : Pool (Dir Addr) (Own Addr) (Choice Addr) (ℕ × Call Addr) ℕ (Op Addr) Res where
  own := own
  exec := exec
  call t c s := s.begin t c.1 c.2
  environment s process := some (s.kill process, s.belongs process)

def system : System (Pool.State (Dir Addr) (Op Addr) Res) (Pool.Event (Choice Addr) (ℕ × Call Addr) ℕ) :=
  processes.system (fun s => s = Dir.empty)

variable {s s' : Dir Addr} {t : ℕ}

omit [DecidableEq Addr] in
theorem Inv.empty : Inv (Dir.empty : Dir Addr) where
  names _ _ h := by cases h
  files _ _ h := by cases h
  locks _ h := absurd rfl h
  callLocks _ _ h := by cases h
  leaseLocks _ _ _ h := by cases h
  leases _ _ h := by cases h
  dropping _ _ h := by cases h
  droppedOnce _ _ _ h := by cases h
  idle _ _ := ⟨rfl, nofun, rfl⟩
  answers _ h := by cases h

theorem Inv.begin (h : Inv s) {call : Call Addr} {p : Program Addr Unit}
    (hbegin : s.begin t process call = some (s', p)) :
    Inv s' ∧ wp contract p (fun _ _ => True) (own t s') ∧ ∀ u, u ≠ t → own u s' = own u s := by
  cases call with
  | leaseAddress address vmId =>
    simp only [Dir.begin] at hbegin
    split at hbegin
    · next hidle =>
      cases hbegin
      obtain ⟨hfile, -, -⟩ := h.idle t hidle
      refine ⟨{ h with dropping := ?_, idle := ?_ }, ?_, ?_⟩
      · intro u i hi
        obtain ⟨p, a, c, hl, hcall, hd⟩ := h.dropping u i hi
        refine ⟨p, a, c, hl, update_kept hcall ?_, hd⟩
        rw [hidle]
        exact (some_ne_none _).symm
      · intro u hu
        dsimp only at hu
        by_cases hut : u = t
        · subst hut
          simp [update_self] at hu
        · rw [update_of_ne hut] at hu
          exact h.idle u hu
      · exact leaseAddress_spec (update_self ..) hfile process
      · exact fun u hu => SameTo.own_eq { SameTo.refl u s with calls := update_of_ne hu .., met := update_of_ne hu .. }
    · cases hbegin
  | drop i =>
    simp only [Dir.begin] at hbegin
    split at hbegin
    · next l hl =>
      split at hbegin
      · next hcond =>
        obtain ⟨hidle, rfl, hnotDropping⟩ := hcond
        cases hbegin
        obtain ⟨hlock, hname⟩ := h.leases i l hl
        have hnobody : ∀ u, s.dropping u ≠ some i := by
          intro u hu
          obtain ⟨p, a, c, -, -, hd⟩ := h.dropping u i hu
          rw [hd l hl] at hnotDropping
          cases hnotDropping
        refine ⟨{ h with leases := ?_, dropping := ?_, droppedOnce := ?_, idle := ?_ }, dropLease_spec, ?_⟩
        · intro j m hm
          rcases update_some.mp hm with ⟨rfl, rfl⟩ | ⟨-, hm⟩
          · exact ⟨hlock, hname⟩
          · exact h.leases j m hm
        · intro u j hj
          rcases update_some.mp hj with ⟨rfl, rfl⟩ | ⟨hut, hdu⟩
          · refine ⟨l.process, l.address, _, hlock, update_self .., ?_⟩
            intro m hm
            rcases update_some.mp hm with ⟨-, rfl⟩ | ⟨hne, -⟩
            · rfl
            · exact absurd rfl hne
          · dsimp only
            obtain ⟨p, a, c, hl', hcall, hd⟩ := h.dropping u j hdu
            have hji : j ≠ i := by
              rintro rfl
              exact hnobody u hdu
            refine ⟨p, a, c, hl', ?_, ?_⟩
            · rw [update_of_ne hut]
              exact hcall
            · rw [update_of_ne hji]
              exact hd
        · intro u v j hu hv
          rcases update_some.mp hu with ⟨rfl, rfl⟩ | ⟨-, hu⟩
          · rcases update_some.mp hv with ⟨rfl, -⟩ | ⟨-, hv⟩
            · rfl
            · exact absurd hv (hnobody v)
          · rcases update_some.mp hv with ⟨-, rfl⟩ | ⟨-, hv⟩
            · exact absurd hu (hnobody u)
            · exact h.droppedOnce u v j hu hv
        · intro u hu
          dsimp only at hu ⊢
          by_cases hut : u = t
          · subst hut
            simp [update_self] at hu
          · rw [update_of_ne hut] at hu ⊢
            exact h.idle u hu
        · intro u hu
          refine SameTo.own_eq { SameTo.refl u s with calls := update_of_ne hu .., dropping := update_of_ne hu .., leases := ?_ }
          intro j hj
          refine update_of_ne ?_ _ _
          rintro rfl
          exact hnobody u hj
      · cases hbegin
    · cases hbegin

omit [DecidableEq Addr] in
theorem belongs_of_call {t p : ℕ} {call : Call Addr} (h : s.calls t = some (p, call)) :
    s.belongs process t = decide (p = process) := by
  simp [Dir.belongs, h]

theorem Inv.kill (h : Inv s) (process : ℕ) :
    Inv (s.kill process) ∧ ∀ u, s.belongs process u = false → own u (s.kill process) = own u s := by
  have hlock : ∀ i o, (s.kill process).lock i = some o ↔ s.lock i = some o ∧ s.owns process o = false := by
    intro i o
    simp [Dir.kill, filter_eq_some_iff]
  have hfiles : ∀ u i, (s.kill process).files u = some i → s.files u = some i := by
    intro u i hi
    simp only [Dir.kill] at hi
    split at hi
    · cases hi
    · exact hi
  have hdrops : ∀ u i, (s.kill process).dropping u = some i → s.belongs process u = false ∧ s.dropping u = some i := by
    intro u i hi
    simp only [Dir.kill] at hi
    split at hi
    · cases hi
    · next hb => exact ⟨by simpa using hb, hi⟩
  have hleases : ∀ i l, (s.kill process).leases i = some l ↔ s.leases i = some l ∧ l.process ≠ process := by
    intro i l
    simp [Dir.kill, filter_eq_some_iff]
  have halive : ∀ u, s.belongs process u = false → (s.kill process).calls u = s.calls u ∧
      (s.kill process).files u = s.files u ∧ (s.kill process).dropping u = s.dropping u := by
    intro u hu
    simp [Dir.kill, hu]
  refine ⟨⟨h.names, ?_, ?_, ?_, ?_, ?_, ?_, ?_, ?_, h.answers⟩, ?_⟩
  · exact fun u i hi => h.files u i (hfiles u i hi)
  · intro i hi
    obtain ⟨o, ho⟩ := ne_none_iff_exists'.mp hi
    exact h.lock_lt ((hlock i o).mp ho).1
  · intro i u hi
    obtain ⟨hl, hb⟩ := (hlock i _).mp hi
    obtain ⟨hf, htable⟩ := h.callLocks i u hl
    refine ⟨(halive u hb).2.1.trans hf, ?_⟩
    have hbu : s.belongs process u = false := hb
    simp [Dir.kill, htable, hbu]
  · exact fun i p address hi => h.leaseLocks i p address ((hlock i _).mp hi).1
  · intro i l hl
    obtain ⟨hl, hp⟩ := (hleases i l).mp hl
    obtain ⟨hl', hn⟩ := h.leases i l hl
    exact ⟨(hlock i _).mpr ⟨hl', by simpa [Dir.owns] using hp⟩, hn⟩
  · intro u i hi
    obtain ⟨hb, hi⟩ := hdrops u i hi
    obtain ⟨p, a, c, hl, hcall, hd⟩ := h.dropping u i hi
    have hp : p ≠ process := by
      rw [belongs_of_call hcall] at hb
      simpa using hb
    refine ⟨p, a, c, (hlock i _).mpr ⟨hl, by simpa [Dir.owns] using hp⟩, (halive u hb).1.trans hcall, ?_⟩
    exact fun l hl => hd l ((hleases i l).mp hl).1
  · exact fun u v i hu hv => h.droppedOnce u v i (hdrops u i hu).2 (hdrops v i hv).2
  · intro u hu
    by_cases hb : s.belongs process u = true
    · refine ⟨by simp [Dir.kill, hb], ?_, by simp [Dir.kill, hb]⟩
      intro htable
      have hmem := (filter_eq_some_iff.mp htable).2
      simp [hb] at hmem
    · rw [Bool.not_eq_true] at hb
      obtain ⟨hcalls, hf, hd⟩ := halive u hb
      rw [hcalls] at hu
      obtain ⟨hfile, htable, hdrop⟩ := h.idle u hu
      refine ⟨hf.trans hfile, ?_, hd.trans hdrop⟩
      intro heq
      exact htable (filter_eq_some_iff.mp heq).1
  · intro u hb
    obtain ⟨hcalls, hf, hd⟩ := halive u hb
    refine SameTo.own_eq { SameTo.refl u s with calls := hcalls, table := ?_, files := hf, dropping := hd, leases := ?_, lock := ?_ }
    · constructor
      · exact fun heq => (filter_eq_some_iff.mp heq).1
      · intro heq
        simp [Dir.kill, heq, hb]
    · intro i hi
      obtain ⟨p, a, c, hl, hcall, -⟩ := h.dropping u i hi
      have hp : p ≠ process := by
        rw [belongs_of_call hcall] at hb
        simpa using hb
      apply ext
      intro l
      rw [hleases]
      refine ⟨fun h' => h'.1, fun hl' => ⟨hl', ?_⟩⟩
      have hsame := (h.leases i l hl').1
      cases hl.symm.trans hsame
      exact hp
    · intro i _
      rw [hlock]
      exact ⟨fun h' => h'.1, fun h' => ⟨h', hb⟩⟩

theorem exec_eq {c : Choice Addr} {r : Res o} (h : exec t o s c = some (s', r)) :
    ∃ process call, s.calls t = some (process, call) ∧ effect t process call o s c = some (s', r) := by
  obtain ⟨⟨process, call⟩, hcall, heffect⟩ := bind_eq_some_iff.mp h
  exact ⟨process, call, hcall, heffect⟩

theorem invariant (h : system.Reachable w) :
    Inv w.shared ∧ processes.Threads contract w := by
  refine Pool.reachable ?_ ?_ ?_ ?_ (System.ReachableBy.of_reachable h)
  · rintro s rfl
    exact Inv.empty
  · intro w t o k c s r hI _ _ hpre hexec
    obtain ⟨process, call, hcall, heffect⟩ := exec_eq hexec
    obtain ⟨⟨ω', hpost, hsteps⟩, -⟩ := hI.effect hcall hpre heffect
    refine ⟨hsteps.inv, ?_, hsteps.others⟩
    have hmine : processes.own t s = ω' := hsteps.mine
    rw [hmine]
    exact hpost
  · exact fun w t c s p hI _ hcall => hI.begin hcall
  · intro s process s' ended hI hkill
    cases hkill
    exact hI.kill process

theorem names_kept {w' : Pool.State (Dir Addr) (Op Addr) Res} {e : Pool.Event (Choice Addr) (ℕ × Call Addr) ℕ}
    (h : system.Reachable w) (hnext : system.next w e = some w') {i : ℕ} {l : AddressLease Addr}
    (hl : w.shared.leases i = some l) :
    w'.shared.names (.lease l.address) = some i ∨ ∃ t c, e = .step t c ∧ w.shared.dropping t = some i := by
  obtain ⟨hI, hthreads⟩ := invariant h
  have hname := (hI.leases i l hl).2
  have hnext' : processes.next w e = some w' := hnext
  cases e with
  | step t c =>
    simp only [Pool.next] at hnext'
    split at hnext'
    · next o k hop =>
      obtain ⟨⟨s, r⟩, hexec, rfl⟩ := map_eq_some_iff.mp hnext'
      obtain ⟨process, call, hcall, heffect⟩ := exec_eq hexec
      rcases (hI.effect hcall (hthreads t _ hop).1 heffect).2 i l hl with hkept | hdropping
      · exact .inl (((invariant (h.next hnext)).1.leases i l hkept).2)
      · exact .inr ⟨t, c, rfl, hdropping⟩
    · cases hnext'
  | call t c =>
    simp only [Pool.next] at hnext'
    split at hnext'
    · obtain ⟨⟨s, p⟩, hbegin, rfl⟩ := map_eq_some_iff.mp hnext'
      apply Or.inl
      obtain ⟨process, call⟩ := c
      cases call with
      | leaseAddress address vmId =>
        simp only [processes, Dir.begin] at hbegin
        split at hbegin
        · cases hbegin
          exact hname
        · cases hbegin
      | drop j =>
        simp only [processes, Dir.begin] at hbegin
        split at hbegin
        · split at hbegin
          · cases hbegin
            exact hname
          · cases hbegin
        · cases hbegin
    · cases hnext'
  | environment process =>
    cases hnext'
    exact .inl hname

end System

/-- In every state of any run: two leases that are held of one address are one; its path names the inode that it has
locked, and only its own drop removes that name; and of every answer `Held` the lock that was refused was the one of a
lease of the address, held or being dropped. -/
theorem one_lease_per_address [DecidableEq Addr] {w : Pool.State (Dir Addr) (Op Addr) Res} (h : system.Reachable w) :
    (∀ i j l m, w.shared.leases i = some l → w.shared.leases j = some m → l.address = m.address → i = j ∧ l = m) ∧
    (∀ i l, w.shared.leases i = some l →
      w.shared.lock i = some (.lease l.process l.address) ∧ w.shared.names (.lease l.address) = some i ∧
      ∀ e w', system.next w e = some w' → w'.shared.names (.lease l.address) ≠ some i →
        ∃ t c, e = .step t c ∧ w.shared.dropping t = some i) ∧
    ∀ x ∈ w.shared.answers, ∀ holder, x.attempt = some (.held holder) → ∃ p, x.met = some (.lease p x.address) := by
  obtain ⟨hI, -⟩ := invariant h
  refine ⟨?_, ?_, hI.answers⟩
  · intro i j l m hl hm heq
    have hi := (hI.leases i l hl).2
    have hj := (hI.leases j m hm).2
    rw [heq, hj] at hi
    cases hi
    rw [hl] at hm
    exact ⟨rfl, Option.some.inj hm⟩
  · intro i l hl
    obtain ⟨hlock, hname⟩ := hI.leases i l hl
    refine ⟨hlock, hname, ?_⟩
    intro e w' hnext hgone
    exact (names_kept h hnext hl).resolve_left hgone

def locking (t : ℕ) : List (Pool.Event (Choice ℕ) (ℕ × Call ℕ) ℕ) :=
  [.step t .ok, .step t .ok, .step t .ok, .step t (.entries []), .step t .ok, .step t .ok]

def oks (t n : ℕ) : List (Pool.Event (Choice ℕ) (ℕ × Call ℕ) ℕ) := List.replicate n (.step t .ok)

def refusal : List (Pool.Event (Choice ℕ) (ℕ × Call ℕ) ℕ) :=
  .call 0 (7, .leaseAddress 1 ['a']) :: locking 0 ++ oks 0 8 ++ .call 1 (8, .leaseAddress 1 ['b']) :: locking 1 ++
    oks 1 4

theorem refused_while_leased : ∃ w : Pool.State (Dir ℕ) (Op ℕ) Res, system.Reachable w ∧
    w.shared.leases 0 = some ⟨7, 1, false⟩ ∧ w.shared.names (.lease 1) = some 0 ∧
    ∃ x ∈ w.shared.answers, x.process = 8 ∧ x.attempt = some (.held (some ⟨7, ['a']⟩)) ∧ x.met = some (.lease 7 1) := by
  have hrun : ((system : System (Pool.State (Dir ℕ) (Op ℕ) Res) _).exec ⟨Dir.empty, fun _ => none⟩ refusal).map
      (fun w => (w.shared.leases 0, w.shared.answers)) =
      some (some ⟨7, 1, false⟩, [⟨8, 1, some (.held (some ⟨7, ['a']⟩)), some (.lease 7 1)⟩,
        ⟨7, 1, some .leased, none⟩]) := by
    decide +kernel
  obtain ⟨w, hw, hview⟩ := Option.map_eq_some_iff.mp hrun
  obtain ⟨hlease, hanswers⟩ := Prod.mk.inj hview
  have hreach : system.Reachable w := System.Reachable.exec (.initial ⟨rfl, fun _ => rfl⟩) hw
  refine ⟨w, hreach, hlease, ((one_lease_per_address hreach).2.1 0 _ hlease).2.1,
    ⟨8, 1, some (.held (some ⟨7, ['a']⟩)), some (.lease 7 1)⟩, ?_, rfl, rfl, rfl⟩
  rw [hanswers]
  exact List.mem_cons_self

end Fcvm.RoutedLease
