import Fcvm.Library.PartialMap
import Fcvm.RoutedLease.Contract

namespace Fcvm.RoutedLease

open Library Function Option

variable {Addr : Type} [DecidableEq Addr]

variable {i process : ℕ} {name : FileName Addr}

structure Steps (t : ℕ) (s s' : Dir Addr) (ω' : Own Addr) : Prop where
  inv : Inv s'
  mine : own t s' = ω'
  others : ∀ u, u ≠ t → own u s' = own u s

section Steps

variable {s : Dir Addr} {t : ℕ}

omit [DecidableEq Addr] in
theorem others_of_lock {lock : ℕ → Option (Owner Addr)} (hsame : ∀ j, j ≠ i → lock j = s.lock j)
    (hold : ∀ u, u ≠ t → s.lock i ≠ some (.call u)) (hnew : ∀ u, u ≠ t → lock i ≠ some (.call u)) {u : ℕ} (hu : u ≠ t)
    (j : ℕ) : lock j = some (.call u) ↔ s.lock j = some (.call u) := by
  by_cases hj : j = i
  · subst hj
    exact ⟨fun h => absurd h (hnew u hu), fun h => absurd h (hold u hu)⟩
  · rw [hsame j hj]

theorem nameOf_unlink (hname : s.names name = some i) {j : ℕ} (hj : j ≠ i) :
    (s.unlink name).nameOf j = s.nameOf j := by
  apply ext
  intro name'
  rw [nameOf_eq, nameOf_eq]
  simp only [Dir.unlink]
  constructor
  · exact fun ⟨hh, hn⟩ => ⟨hh, (update_none.mp hn).2⟩
  · rintro ⟨hh, hn⟩
    refine ⟨hh, update_kept hn ?_⟩
    rw [hname]
    exact fun heq => hj (some.inj heq).symm

def KeepsLeases (t : ℕ) (s s' : Dir Addr) : Prop :=
  ∀ i l, s.leases i = some l → s'.leases i = some l ∨ s.dropping t = some i

omit [DecidableEq Addr] in
theorem KeepsLeases.of_eq {s' : Dir Addr} (h : s'.leases = s.leases) : KeepsLeases t s s' := by
  intro i l hl
  rw [h]
  exact .inl hl

omit [DecidableEq Addr] in
theorem keepsLeases_retire (hdropping : s.dropping t = some i) (names : FileName Addr → Option ℕ) :
    KeepsLeases t s ({ s with names := names }.retire i) := by
  intro j l hl
  by_cases hji : j = i
  · exact .inr (hji ▸ hdropping)
  · exact .inl (update_none.mpr ⟨hji, hl⟩)

variable (h : Inv s)
include h

theorem Steps.refl : Steps t s s (own t s) := ⟨h, rfl, fun _ _ => rfl⟩

omit [DecidableEq Addr] in
theorem Inv.lock_lt {o : Owner Addr} (ho : s.lock i = some o) : i < s.nextInode :=
  h.locks i (by rw [ho]; exact some_ne_none _)

omit [DecidableEq Addr] in
theorem Inv.unlocked (hfile : s.files t = none) (i : ℕ) : s.lock i ≠ some (.call t) := by
  intro hl
  obtain ⟨hf, -⟩ := h.callLocks i t hl
  simp [hfile] at hf

omit [DecidableEq Addr] in
theorem Inv.notDropping {u : ℕ} (hl : s.lock i = some (.call u)) (v : ℕ) : s.dropping v ≠ some i := by
  intro hv
  obtain ⟨p, a, c, hl', -⟩ := h.dropping v i hv
  cases hl.symm.trans hl'

theorem Inv.lockTable (hfree : s.table = none) (hcall : s.calls t ≠ none) :
    Steps t s { s with table := some t } { own t s with table := true } where
  inv :=
    { h with
      callLocks := by
        intro i u hl
        obtain ⟨-, htable⟩ := h.callLocks i u hl
        cases hfree.symm.trans htable
      idle := by
        intro u hu
        refine ⟨(h.idle u hu).1, ?_, (h.idle u hu).2.2⟩
        rintro heq
        cases heq
        exact hcall hu }
  mine := by simp [own, Dir.nameOf]
  others u hu := by
    refine SameTo.own_eq { SameTo.refl u s with table := ?_ }
    rw [hfree]
    simp [Ne.symm hu]

theorem Inv.closeTable (hfile : s.files t = none) :
    Steps t s { s with table := s.table.filter (· ≠ t) } { own t s with table := false } where
  inv :=
    { h with
      callLocks := by
        intro i u hl
        obtain ⟨hf, htable⟩ := h.callLocks i u hl
        refine ⟨hf, ?_⟩
        rw [htable, filter_some, if_pos]
        simp only [ne_eq, decide_eq_true_eq]
        rintro rfl
        cases hfile.symm.trans hf
      idle := by
        intro u hu
        obtain ⟨hf, htable, hd⟩ := h.idle u hu
        refine ⟨hf, ?_, hd⟩
        intro heq
        exact htable (filter_eq_some_iff.mp heq).1 }
  mine := by
    simp [own, hfile]
  others u hu := by
    refine SameTo.own_eq { SameTo.refl u s with table := ?_ }
    constructor
    · exact fun heq => (filter_eq_some_iff.mp heq).1
    · intro heq
      rw [heq, filter_some, if_pos]
      simpa using hu

theorem Inv.setFile (hcall : s.calls t ≠ none) (hfile : s.files t = none) (hname : s.names name = some i) :
    Steps t s (s.openFile t i) { own t s with file := some i, home := some name, locked := false, named := none } := by
  refine ⟨{ h with files := ?_, callLocks := ?_, idle := ?_ }, ?_, ?_⟩
  · intro u j hj
    rcases update_some.mp hj with ⟨-, rfl⟩ | ⟨-, hj⟩
    · exact (h.names name i hname).1
    · exact h.files u j hj
  · intro j u hl
    obtain ⟨hf, htable⟩ := h.callLocks j u hl
    refine ⟨?_, htable⟩
    by_cases hu : u = t
    · subst hu
      exact absurd hl (h.unlocked hfile j)
    · simpa only [Dir.openFile, update_of_ne hu] using hf
  · intro u hu
    by_cases hut : u = t
    · subst hut
      exact absurd hu hcall
    · simpa only [Dir.openFile, update_of_ne hut] using h.idle u hu
  · simp [own, Dir.openFile, Dir.nameOf, (h.names name i hname).2, h.unlocked hfile i]
  · exact fun u hu => SameTo.own_eq { SameTo.refl u s with files := update_of_ne hu .. }

theorem Inv.create (hcall : s.calls t ≠ none) (hfile : s.files t = none) (hname : s.names name = none) :
    Steps t s (s.create t name)
      { own t s with file := some s.nextInode, home := some name, locked := false, named := none } := by
  have hfree : s.lock s.nextInode = none := by
    by_contra hne
    exact absurd (h.locks _ hne) (Nat.lt_irrefl _)
  have hhome : ∀ j, j < s.nextInode → update s.home s.nextInode (some name) j = s.home j := by
    intro j hj
    rw [update_of_ne (by omega)]
  have hnames : ∀ name' j, s.names name' = some j → (s.create t name).names name' = some j := by
    intro name' j hj
    apply update_kept hj
    rw [hname]
    exact (some_ne_none _).symm
  refine ⟨⟨?_, ?_, ?_, ?_, ?_, ?_, h.dropping, h.droppedOnce, ?_, h.answers⟩, ?_, ?_⟩
  · intro name' j hj
    rcases update_some.mp hj with ⟨rfl, rfl⟩ | ⟨-, hj⟩
    · exact ⟨Nat.lt_succ_self _, update_self ..⟩
    · obtain ⟨hlt, hh⟩ := h.names name' j hj
      exact ⟨Nat.lt_succ_of_lt hlt, (hhome j hlt).trans hh⟩
  · intro u j hj
    rcases update_some.mp hj with ⟨-, rfl⟩ | ⟨-, hj⟩
    · exact Nat.lt_succ_self _
    · exact Nat.lt_succ_of_lt (h.files u j hj)
  · exact fun j hj => Nat.lt_succ_of_lt (h.locks j hj)
  · intro j u hl
    obtain ⟨hf, htable⟩ := h.callLocks j u hl
    refine ⟨?_, htable⟩
    by_cases hu : u = t
    · subst hu
      exact absurd hl (h.unlocked hfile j)
    · simpa only [Dir.create, update_of_ne hu] using hf
  · exact fun j p address hl => (hhome j (h.lock_lt hl)).trans (h.leaseLocks j p address hl)
  · intro j l hl
    obtain ⟨hlock, hn⟩ := h.leases j l hl
    exact ⟨hlock, hnames _ j hn⟩
  · intro u hu
    by_cases hut : u = t
    · subst hut
      exact absurd hu hcall
    · simpa only [Dir.create, update_of_ne hut] using h.idle u hu
  · simp [own, Dir.create, hfree]
  · intro u hu
    refine SameTo.own_eq { SameTo.refl u s with files := update_of_ne hu .., home := ?_, name := ?_ }
    · exact fun j hj => hhome j (h.files u j hj)
    · intro j hj _
      have hlt := h.files u j hj
      apply ext
      intro name'
      rw [nameOf_eq, nameOf_eq]
      simp only [Dir.create]
      rw [hhome j hlt]
      constructor
      · rintro ⟨hh, hn⟩
        refine ⟨hh, ?_⟩
        rcases update_some.mp hn with ⟨-, rfl⟩ | ⟨-, hn⟩
        · exact absurd hlt (Nat.lt_irrefl _)
        · exact hn
      · rintro ⟨hh, hn⟩
        exact ⟨hh, hnames name' j hn⟩

theorem Inv.acquire (hfile : s.files t = some i) (hfree : s.lock i = none) (htable : s.table = some t) :
    Steps t s (s.acquire t i) { own t s with locked := true, named := s.nameOf i } := by
  have hkept : ∀ j o, s.lock j = some o → (s.acquire t i).lock j = some o := by
    intro j o hj
    apply update_kept hj
    rw [hfree]
    exact (some_ne_none _).symm
  refine ⟨{ h with locks := ?_, callLocks := ?_, leaseLocks := ?_, leases := ?_, dropping := ?_ }, ?_, ?_⟩
  · intro j hj
    obtain ⟨o, ho⟩ := ne_none_iff_exists'.mp hj
    rcases update_some.mp ho with ⟨rfl, -⟩ | ⟨-, ho⟩
    · exact h.files t j hfile
    · exact h.lock_lt ho
  · intro j u hj
    rcases update_some.mp hj with ⟨rfl, heq⟩ | ⟨-, hj⟩
    · cases heq
      exact ⟨hfile, htable⟩
    · exact h.callLocks j u hj
  · intro j p address hj
    rcases update_some.mp hj with ⟨-, heq⟩ | ⟨-, hj⟩
    · cases heq
    · exact h.leaseLocks j p address hj
  · intro j l hl
    obtain ⟨hlock, hn⟩ := h.leases j l hl
    exact ⟨hkept j _ hlock, hn⟩
  · intro u j hj
    obtain ⟨p, address, call, hlock, hcall, hd⟩ := h.dropping u j hj
    exact ⟨p, address, call, hkept j _ hlock, hcall, hd⟩
  · simp [own, Dir.acquire, Dir.nameOf, hfile]
  · intro u hu
    refine SameTo.own_eq { SameTo.refl u s with lock := ?_ }
    intro j _
    refine others_of_lock (t := t) (fun j hj => update_of_ne hj _ _) ?_ ?_ hu j
    · intro u _ heq
      cases hfree.symm.trans heq
    · intro u hu heq
      simp only [Dir.acquire, update_self, some.injEq, Owner.call.injEq] at heq
      exact hu heq.symm

theorem Inv.refuse (htaken : s.lock i ≠ none) (htable : s.table = some t)
    (hnot : s.lock i ≠ some (.call t)) : ∃ p address, s.home i = some (.lease address) ∧
      Steps t s (s.refuse t i) { own t s with met := some (.lease p address) } := by
  obtain ⟨o, ho⟩ := ne_none_iff_exists'.mp htaken
  cases o with
  | call u =>
    -- another call would have the table
    obtain ⟨-, htable'⟩ := h.callLocks i u ho
    cases htable.symm.trans htable'
    exact absurd ho hnot
  | lease p address =>
    refine ⟨p, address, h.leaseLocks i p address ho, { h with }, ?_, ?_⟩
    · simp [own, Dir.refuse, Dir.nameOf, ho]
    · exact fun u hu => SameTo.own_eq { SameTo.refl u s with met := update_of_ne hu .. }

theorem Inv.setText (i : ℕ) (text : List Char) : Steps t s (s.setText i text) (own t s) :=
  ⟨{ h with }, rfl, fun _ _ => rfl⟩

theorem Inv.unlink (hnamed : (own t s).named = some name) :
    Steps t s (s.unlink name) { own t s with named := none } := by
  obtain ⟨i, hfile, hlock, hhome, hname⟩ := own_named hnamed
  refine ⟨{ h with names := ?_, leases := ?_ }, ?_, ?_⟩
  · exact fun name' j hj => h.names name' j (update_none.mp hj).2
  · intro j l hl
    obtain ⟨hl', hn⟩ := h.leases j l hl
    refine ⟨hl', update_kept hn ?_⟩
    -- a lease's name names what the lease has locked
    rw [hname]
    rintro heq
    cases heq
    cases hlock.symm.trans hl'
  · have hgone : (s.unlink name).nameOf i = none := by
      apply eq_none_iff_forall_ne_some.mpr
      intro name' heq
      obtain ⟨hh, hn⟩ := nameOf_eq.mp heq
      have heq' : s.home i = some name' := hh
      cases hhome.symm.trans heq'
      exact (update_none.mp hn).1 rfl
    have hkept : (s.unlink name).lock i = some (.call t) := hlock
    have hfile' : (s.unlink name).files t = some i := hfile
    rw [own_file hfile', own_file hfile, hgone, ite_self, hkept, hlock]
    rfl
  · intro u hu
    refine SameTo.own_eq { SameTo.refl u s with name := ?_ }
    intro j _ hl
    apply nameOf_unlink hname
    rintro rfl
    cases hlock.symm.trans hl
    exact hu rfl

theorem Inv.closeFile (hfile : s.files t = some i) : Steps t s (s.closeFile t i) (own t s).closed := by
  have hlock : ∀ j o, (s.closeFile t i).lock j = some o → s.lock j = some o ∧ o ≠ .call t := by
    intro j o hj
    simp only [Dir.closeFile] at hj
    split at hj
    · next hmine =>
      obtain ⟨hji, hj⟩ := update_none.mp hj
      refine ⟨hj, ?_⟩
      rintro rfl
      obtain ⟨hf, -⟩ := h.callLocks j t hj
      rw [hfile] at hf
      exact hji (some.inj hf).symm
    · next hnot =>
      refine ⟨hj, ?_⟩
      rintro rfl
      obtain ⟨hf, -⟩ := h.callLocks j t hj
      cases hfile.symm.trans hf
      exact hnot hj
  have hkept : ∀ j o, s.lock j = some o → o ≠ .call t → (s.closeFile t i).lock j = some o := by
    intro j o hj ho
    simp only [Dir.closeFile]
    split
    · next hmine =>
      apply update_kept hj
      rw [hmine]
      exact fun heq => ho (some.inj heq).symm
    · exact hj
  have hfiles : ∀ u, u ≠ t → (s.closeFile t i).files u = s.files u := fun u hu => update_of_ne hu ..
  refine ⟨⟨h.names, ?_, ?_, ?_, ?_, ?_, ?_, h.droppedOnce, ?_, h.answers⟩, ?_, ?_⟩
  · exact fun u j hj => h.files u j (update_none.mp hj).2
  · intro j hj
    obtain ⟨o, ho⟩ := ne_none_iff_exists'.mp hj
    exact h.lock_lt (hlock j o ho).1
  · intro j u hj
    obtain ⟨hl, hne⟩ := hlock j _ hj
    obtain ⟨hf, htable⟩ := h.callLocks j u hl
    have hu : u ≠ t := fun heq => hne (by rw [heq])
    exact ⟨(hfiles u hu).trans hf, htable⟩
  · exact fun j p address hj => h.leaseLocks j p address (hlock j _ hj).1
  · intro j l hl
    obtain ⟨hl', hn⟩ := h.leases j l hl
    exact ⟨hkept j _ hl' nofun, hn⟩
  · intro u j hj
    obtain ⟨p, address, call, hl, hcall, hd⟩ := h.dropping u j hj
    exact ⟨p, address, call, hkept j _ hl nofun, hcall, hd⟩
  · intro u hu
    obtain ⟨hf, hrest⟩ := h.idle u hu
    refine ⟨?_, hrest⟩
    by_cases hut : u = t
    · subst hut
      simp [Dir.closeFile]
    · exact (hfiles u hut).trans hf
  · simp [own, Dir.closeFile, Own.closed]
  · intro u hu
    refine SameTo.own_eq { SameTo.refl u s with files := hfiles u hu, lock := ?_ }
    intro j _
    constructor
    · exact fun hl => (hlock j _ hl).1
    · exact fun hl => hkept j _ hl (fun heq => hu (Owner.call.inj heq))

theorem Inv.hold {call : Call Addr} {address : Addr} (hcall : s.calls t = some (process, call))
    (hnamed : (own t s).named = some (.lease address)) :
    ∃ i, s.files t = some i ∧ Steps t s (s.hold t i ⟨process, address, false⟩) (own t s).closed := by
  obtain ⟨i, hfile, hmine, hhome, hname⟩ := own_named hnamed
  have hkept : ∀ j o, s.lock j = some o → o ≠ .call t →
      (s.hold t i ⟨process, address, false⟩).lock j = some o := by
    intro j o hj ho
    apply update_kept hj
    rw [hmine]
    exact fun heq => ho (some.inj heq).symm
  have hfiles : ∀ u, u ≠ t → (s.hold t i ⟨process, address, false⟩).files u = s.files u :=
    fun u hu => update_of_ne hu ..
  -- nobody else drops a lease of an inode that this call has locked
  have hnotDropped := h.notDropping hmine
  refine ⟨i, hfile, ⟨h.names, ?_, ?_, ?_, ?_, ?_, ?_, h.droppedOnce, ?_, h.answers⟩, ?_, ?_⟩
  · exact fun u j hj => h.files u j (update_none.mp hj).2
  · intro j hj
    obtain ⟨o, ho⟩ := ne_none_iff_exists'.mp hj
    rcases update_some.mp ho with ⟨rfl, -⟩ | ⟨-, ho⟩
    · exact h.files t j hfile
    · exact h.lock_lt ho
  · intro j u hj
    rcases update_some.mp hj with ⟨-, heq⟩ | ⟨hji, hj⟩
    · cases heq
    · obtain ⟨hf, htable⟩ := h.callLocks j u hj
      refine ⟨(hfiles u ?_).trans hf, htable⟩
      rintro rfl
      rw [hfile] at hf
      exact hji (some.inj hf).symm
  · intro j p a hj
    rcases update_some.mp hj with ⟨rfl, heq⟩ | ⟨-, hj⟩
    · cases heq
      exact hhome
    · exact h.leaseLocks j p a hj
  · intro j l hl
    rcases update_some.mp hl with ⟨rfl, rfl⟩ | ⟨-, hl⟩
    · exact ⟨update_self .., hname⟩
    · obtain ⟨hl', hn⟩ := h.leases j l hl
      exact ⟨hkept j _ hl' nofun, hn⟩
  · intro u j hj
    obtain ⟨p, a, c, hl, hcall, hd⟩ := h.dropping u j hj
    refine ⟨p, a, c, hkept j _ hl nofun, hcall, ?_⟩
    have hji : j ≠ i := by
      rintro rfl
      exact hnotDropped u hj
    simpa only [Dir.hold, update_of_ne hji] using hd
  · intro u hu
    obtain ⟨hf, hrest⟩ := h.idle u hu
    refine ⟨?_, hrest⟩
    by_cases hut : u = t
    · subst hut
      simp [Dir.hold]
    · exact (hfiles u hut).trans hf
  · have hdrop : ((s.dropping t).map fun j => (j, update s.leases i (some ⟨process, address, false⟩) j)) =
        (s.dropping t).map fun j => (j, s.leases j) := by
      cases hd : s.dropping t with
      | none => rfl
      | some j =>
        have hji : j ≠ i := by
          rintro rfl
          exact hnotDropped t hd
        simp [update_of_ne hji]
    simp [own, Dir.hold, Own.closed, hdrop]
  · intro u hu
    refine SameTo.own_eq { SameTo.refl u s with files := hfiles u hu, leases := ?_, lock := ?_ }
    · intro j hj
      refine update_of_ne ?_ _ _
      rintro rfl
      exact hnotDropped u hj
    · intro j _
      constructor
      · intro hl
        rcases update_some.mp hl with ⟨-, heq⟩ | ⟨-, hl⟩
        · cases heq
        · exact hl
      · exact fun hl => hkept j _ hl (fun heq => hu (Owner.call.inj heq))

theorem Inv.answer {address : Addr} {vmId : List Char} {attempt : Option LeaseAttempt}
    (hcall : s.calls t = some (process, .leaseAddress address vmId)) (hpre : pre (.answer attempt) (own t s)) :
    Steps t s { s with answers := ⟨process, address, attempt, s.met t⟩ :: s.answers } (own t s) := by
  refine ⟨{ h with answers := ?_ }, rfl, fun _ _ => rfl⟩
  intro x hx holder hheld
  rcases List.mem_cons.mp hx with rfl | hx
  · exact hpre holder hheld process address vmId hcall
  · exact h.answers x hx holder hheld

theorem Inv.retire (hdropping : s.dropping t = some i) {names : FileName Addr → Option ℕ}
    (hnames : names = s.names ∨ ∃ l, s.leases i = some l ∧ names = update s.names (.lease l.address) none) :
    Steps t s ({ s with names := names }.retire i) { own t s with dropping := some (i, none) } := by
  have hsub : ∀ name j, names name = some j → s.names name = some j := by
    intro name j hj
    rcases hnames with rfl | ⟨l, -, rfl⟩
    · exact hj
    · exact (update_none.mp hj).2
  have hother : ∀ name j, j ≠ i → s.names name = some j → names name = some j := by
    intro name j hji hj
    rcases hnames with rfl | ⟨l, hl, rfl⟩
    · exact hj
    · apply update_kept hj
      rw [(h.leases i l hl).2]
      exact fun heq => hji (some.inj heq).symm
  have hlock : ∀ u, s.lock i ≠ some (.call u) := by
    intro u hu
    obtain ⟨p, a, c, hl, -⟩ := h.dropping t i hdropping
    cases hu.symm.trans hl
  have hnameOf : ∀ j, j ≠ i → ({ s with names := names }.retire i).nameOf j = s.nameOf j := by
    intro j hji
    apply ext
    intro name
    rw [nameOf_eq, nameOf_eq]
    exact ⟨fun ⟨hh, hn⟩ => ⟨hh, hsub name j hn⟩, fun ⟨hh, hn⟩ => ⟨hh, hother name j hji hn⟩⟩
  refine ⟨{ h with names := ?_, leases := ?_, dropping := ?_ }, ?_, ?_⟩
  · exact fun name j hj => h.names name j (hsub name j hj)
  · intro j l hl
    obtain ⟨hji, hl⟩ := update_none.mp hl
    obtain ⟨hl', hn⟩ := h.leases j l hl
    exact ⟨hl', hother _ j hji hn⟩
  · intro u j hj
    obtain ⟨p, a, c, hl, hcall, hd⟩ := h.dropping u j hj
    exact ⟨p, a, c, hl, hcall, fun l hl => hd l (update_none.mp hl).2⟩
  · have hnamed : (own t ({ s with names := names }.retire i)).named = (own t s).named := by
      rcases hf : s.files t with _ | j
      · simp [own, Dir.retire, hf]
      have hf' : ({ s with names := names }.retire i).files t = some j := hf
      rw [own_file hf, own_file hf']
      by_cases hji : j = i
      · subst hji
        have hl' : ({ s with names := names }.retire j).lock j ≠ some (.call t) := hlock t
        rw [if_neg (hlock t), if_neg hl']
      · rw [hnameOf j hji]
        rfl
    have hd : (own t ({ s with names := names }.retire i)).dropping = some (i, none) := by
      simp [own, hdropping, Dir.retire]
    have hrest : own t ({ s with names := names }.retire i) =
      { own t s with
        named := (own t ({ s with names := names }.retire i)).named
        dropping := (own t ({ s with names := names }.retire i)).dropping } := rfl
    rw [hrest, hnamed, hd]
  · intro u hu
    refine SameTo.own_eq { SameTo.refl u s with leases := ?_, name := ?_ }
    · intro j hj
      refine update_of_ne ?_ _ _
      rintro rfl
      exact hu (h.droppedOnce u t j hj hdropping)
    · intro j _ hl
      apply hnameOf
      rintro rfl
      exact hlock u hl

theorem Inv.closeLease (hdropping : (own t s).dropping = some (i, none)) :
    s.dropping t = some i ∧ Steps t s (s.closeLease t i) { own t s with dropping := none } := by
  obtain ⟨hd, hgone⟩ : s.dropping t = some i ∧ s.leases i = none := by
    simp only [own, map_eq_some_iff, Prod.mk.injEq] at hdropping
    obtain ⟨j, hj, rfl, hl⟩ := hdropping
    exact ⟨hj, hl⟩
  obtain ⟨p₀, a₀, c₀, hmine, -⟩ := h.dropping t i hd
  have hkept : ∀ j o, j ≠ i → s.lock j = some o → (s.closeLease t i).lock j = some o :=
    fun j o hji hj => update_none.mpr ⟨hji, hj⟩
  have hcall : ∀ u j, (s.closeLease t i).lock j = some (.call u) ↔ s.lock j = some (.call u) := by
    intro u j
    refine ⟨fun hl => (update_none.mp hl).2, fun hl => hkept j _ ?_ hl⟩
    rintro rfl
    cases hmine.symm.trans hl
  refine ⟨hd, ⟨h.names, h.files, ?_, ?_, ?_, ?_, ?_, ?_, ?_, h.answers⟩, ?_, ?_⟩
  · intro j hj
    obtain ⟨o, ho⟩ := ne_none_iff_exists'.mp hj
    exact h.lock_lt (update_none.mp ho).2
  · exact fun j u hj => h.callLocks j u (update_none.mp hj).2
  · exact fun j p a hj => h.leaseLocks j p a (update_none.mp hj).2
  · intro j l hl
    obtain ⟨hl', hn⟩ := h.leases j l hl
    refine ⟨hkept j _ ?_ hl', hn⟩
    rintro rfl
    have hl₂ : s.leases j = some l := hl
    cases hgone.symm.trans hl₂
  · intro u j hj
    obtain ⟨hu, hdu⟩ := update_none.mp hj
    obtain ⟨p, a, c, hl, hcall, hd'⟩ := h.dropping u j hdu
    refine ⟨p, a, c, hkept j _ ?_ hl, hcall, hd'⟩
    rintro rfl
    exact hu (h.droppedOnce u t j hdu hd)
  · exact fun u v j hu hv => h.droppedOnce u v j (update_none.mp hu).2 (update_none.mp hv).2
  · intro u hu
    obtain ⟨hf, htable, hdu⟩ := h.idle u hu
    refine ⟨hf, htable, ?_⟩
    by_cases hut : u = t
    · subst hut
      simp [Dir.closeLease]
    · simpa only [Dir.closeLease, update_of_ne hut] using hdu
  · have heq : own t { s.closeLease t i with dropping := s.dropping } = own t s :=
      SameTo.own_eq { SameTo.refl t s with lock := fun j _ => hcall t j }
    have hnone : (own t (s.closeLease t i)).dropping = none := by simp [own, Dir.closeLease]
    rw [← heq, ← hnone]
    rfl
  · exact fun u hu => SameTo.own_eq { SameTo.refl u s with dropping := update_of_ne hu .., lock := fun j _ => hcall u j }

theorem Inv.effect {call : Call Addr} (hcall : s.calls t = some (process, call)) {o : Op Addr}
    {c : Choice Addr} {s' : Dir Addr} {r : Res o} (hpre : pre o (own t s))
    (heffect : effect t process call o s c = some (s', r)) :
    (∃ ω', post o (own t s) r ω' ∧ Steps t s s' ω') ∧ KeepsLeases t s s' := by
  have hsome : s.calls t ≠ none := by rw [hcall]; exact some_ne_none _
  cases c with
  | entries list =>
    cases o with
    | readDir =>
      cases heffect
      exact ⟨⟨_, rfl, Steps.refl h⟩, .of_eq rfl⟩
    | _ => cases heffect
  | error =>
    cases o with
    | closeTable | closeFile | hold | answer | closeLease => cases heffect
    | fstat | stat name =>
      cases heffect
      exact ⟨⟨_, ⟨rfl, (by rintro _ ⟨⟩)⟩, Steps.refl h⟩, .of_eq rfl⟩
    | removeLease =>
      obtain ⟨i, hi, heffect⟩ := map_eq_some_iff.mp heffect
      cases heffect
      exact ⟨⟨_, ⟨i, rfl⟩, h.retire hi (.inl rfl)⟩, keepsLeases_retire hi s.names⟩
    | _ =>
      cases heffect
      exact ⟨⟨_, rfl, Steps.refl h⟩, .of_eq rfl⟩
  | ok =>
    cases o with
    | createDirAll | openTable | rewind =>
      cases heffect
      exact ⟨⟨_, rfl, Steps.refl h⟩, .of_eq rfl⟩
    | readDir => cases heffect
    | lockTable =>
      simp only [RoutedLease.effect] at heffect
      split at heffect
      · next hfree =>
        cases heffect
        exact ⟨⟨_, rfl, h.lockTable hfree hsome⟩, .of_eq rfl⟩
      · cases heffect
    | closeTable =>
      cases heffect
      exact ⟨⟨_, rfl, h.closeTable hpre⟩, .of_eq rfl⟩
    | openFile name create =>
      simp only [RoutedLease.effect] at heffect
      split at heffect
      · next i hi =>
        cases heffect
        exact ⟨⟨_, ⟨i, rfl⟩, h.setFile hsome hpre hi⟩, .of_eq rfl⟩
      · next hnone =>
        split at heffect
        · cases heffect
          exact ⟨⟨_, ⟨s.nextInode, rfl⟩, h.create hsome hpre hnone⟩, .of_eq rfl⟩
        · cases heffect
          exact ⟨⟨_, rfl, Steps.refl h⟩, .of_eq rfl⟩
    | tryLock =>
      obtain ⟨i, hi, heffect⟩ := map_eq_some_iff.mp heffect
      have htable : s.table = some t := by simpa [own] using hpre.1
      split at heffect
      · next hfree =>
        cases heffect
        exact ⟨⟨_, ⟨_, rfl⟩, h.acquire hi hfree htable⟩, .of_eq rfl⟩
      · next htaken =>
        cases heffect
        have hnot : s.lock i ≠ some (.call t) := by
          intro hmine
          have hunlocked := hpre.2
          rw [own_file hi, hmine] at hunlocked
          simp at hunlocked
        obtain ⟨p, address, hhome, hsteps⟩ := h.refuse htaken htable hnot
        refine ⟨⟨_, ⟨p, address, ?_, rfl⟩, hsteps⟩, .of_eq rfl⟩
        rw [own_file hi]
        exact hhome
    | fstat =>
      obtain ⟨i, hi, heffect⟩ := map_eq_some_iff.mp heffect
      cases heffect
      refine ⟨⟨_, ⟨rfl, ?_⟩, Steps.refl h⟩, .of_eq rfl⟩
      intro j hj
      cases hj
      exact hi
    | stat name =>
      simp only [RoutedLease.effect] at heffect
      split at heffect
      · next i hi =>
        cases heffect
        refine ⟨⟨_, ⟨rfl, ?_⟩, Steps.refl h⟩, .of_eq rfl⟩
        intro j hj hfile hlocked
        cases hj
        have hf : s.files t = some i := hfile
        rw [own_file hf] at hlocked ⊢
        have hmine : s.lock i = some (.call t) := by simpa using hlocked
        dsimp only
        rw [if_pos hmine]
        exact nameOf_eq.mpr ⟨(h.names name i hi).2, hi⟩
      · cases heffect
        exact ⟨⟨_, ⟨rfl, (by rintro _ ⟨⟩)⟩, Steps.refl h⟩, .of_eq rfl⟩
    | setLen | write =>
      obtain ⟨i, -, heffect⟩ := map_eq_some_iff.mp heffect
      cases heffect
      exact ⟨⟨_, rfl, h.setText i _⟩, .of_eq rfl⟩
    | readToString =>
      obtain ⟨i, -, heffect⟩ := map_eq_some_iff.mp heffect
      cases heffect
      exact ⟨⟨_, rfl, Steps.refl h⟩, .of_eq rfl⟩
    | unlink name =>
      cases heffect
      exact ⟨⟨_, rfl, h.unlink hpre⟩, .of_eq rfl⟩
    | closeFile =>
      obtain ⟨i, hi, heffect⟩ := map_eq_some_iff.mp heffect
      cases heffect
      exact ⟨⟨_, rfl, h.closeFile hi⟩, .of_eq rfl⟩
    | hold address =>
      obtain ⟨i, hi, heffect⟩ := map_eq_some_iff.mp heffect
      cases heffect
      obtain ⟨j, hj, hsteps⟩ := h.hold hcall hpre
      cases hi.symm.trans hj
      refine ⟨⟨_, rfl, hsteps⟩, ?_⟩
      -- the inode is locked by the call, so no lease has it
      intro k l hl
      obtain ⟨j, hj, hmine, -⟩ := own_named hpre
      cases hi.symm.trans hj
      refine .inl (update_kept hl ?_)
      intro hl'
      simp [(h.leases i l hl').1] at hmine
    | answer attempt =>
      simp only [RoutedLease.effect] at heffect
      split at heffect
      · cases heffect
        exact ⟨⟨_, rfl, h.answer hcall hpre⟩, .of_eq rfl⟩
      · cases heffect
    | removeLease =>
      obtain ⟨i, hi, heffect⟩ := bind_eq_some_iff.mp heffect
      obtain ⟨l, hl, heffect⟩ := map_eq_some_iff.mp heffect
      cases heffect
      exact ⟨⟨_, ⟨i, rfl⟩, h.retire hi (.inr ⟨l, hl, rfl⟩)⟩, keepsLeases_retire hi _⟩
    | closeLease =>
      obtain ⟨i, hi, heffect⟩ := map_eq_some_iff.mp heffect
      cases heffect
      obtain ⟨j, hj⟩ := hpre
      obtain ⟨hd, hsteps⟩ := h.closeLease hj
      cases hi.symm.trans hd
      exact ⟨⟨_, rfl, hsteps⟩, .of_eq rfl⟩

end Steps

end Fcvm.RoutedLease
