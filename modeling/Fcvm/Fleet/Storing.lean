import Fcvm.Fleet.Coordinator
import Fcvm.Fleet.Covered
import Mathlib.Order.Basic

namespace Fcvm.Fleet

open List

variable {k' : Coordinator} {acks : List ℕ}

namespace Writer

variable {u : Option State} {xs ys : List StoreCmd}

theorem newest_append (u : Option State) (xs ys : List StoreCmd) : newest u (xs ++ ys) = newest (newest u xs) ys :=
  foldl_append

theorem newest_sublist (u : Option State) (xs : List StoreCmd) :
    (newest u xs).toList.Sublist (u.toList ++ xs.filterMap StoreCmd.bytes) := by
  induction xs generalizing u with
  | nil => simp [newest]
  | cons c xs ih =>
    have hcons : newest u (c :: xs) = newest (c.bytes.or u) xs := rfl
    rw [hcons]
    cases hc : c.bytes with
    | none => simpa [hc] using ih u
    | some b =>
      rw [filterMap_cons_some hc]
      exact (ih (some b)).trans (sublist_append_right _ _)

def newestVersion (x : Writer) (diskVersion : ℕ) (cmds : List StoreCmd) : ℕ :=
  ((newest x.unwritten cmds).map State.version).getD diskVersion

structure Acks (x : Writer) (diskVersion v n : ℕ) : Prop where
  queued : ∀ pre post, x.queue = pre ++ post → (∃ c ∈ pre, c.ack = some n) → v ≤ x.newestVersion diskVersion pre
  busy : ∀ acks, x.busy = some acks → n ∈ acks → v ≤ x.newestVersion diskVersion []
  answered : x.answers n = some true → v ≤ diskVersion

structure AcksBelow (x : Writer) (nextAck : ℕ) : Prop where
  queued : ∀ c ∈ x.queue, ∀ n, c.ack = some n → n < nextAck
  busy : ∀ acks, x.busy = some acks → ∀ n ∈ acks, n < nextAck
  answered : ∀ n, x.answers n ≠ none → n < nextAck

end Writer

namespace Coordinator

variable {k : Coordinator} {a : Actor}

def base (k : Coordinator) : State := k.disk.getD .new

def pending (k : Coordinator) : List State :=
  k.writer.unwritten.toList ++ k.writer.queue.filterMap StoreCmd.bytes

def chain (k : Coordinator) : List (ℕ × State) := (k.diskVersion, k.base) :: k.pending.map fun b => (b.version, b)

def Safe (k : Coordinator) (g : GpuId) (r : ℕ) : Prop :=
  ∃ t, (g, r, t) ∈ k.applied ∧ (∀ p ∈ k.chain, Covered g t p.2) ∧ ∀ a, k.actor = some a → Covered g t a.state

structure Running (k : Coordinator) (a : Actor) : Prop where
  sorted : (k.chain.map Prod.fst).Pairwise (· ≤ ·)
  stored : a.stored = k.writer.newestVersion k.diskVersion k.writer.queue
  le : ∀ p ∈ k.chain, p.1 ≤ a.state.version
  same : ∀ p ∈ k.chain, p.1 = a.state.version → SameCore p.2 a.state
  unacked : ∀ u ∈ a.unacked, ∃ r t, u.2.1 = some r ∧ u.2.2 ≤ a.state.version ∧ (u.1, r, t) ∈ k.applied ∧
    Covered u.1 t a.state ∧ ∀ p ∈ k.chain, u.2.2 ≤ p.1 → Covered u.1 t p.2
  acks : ∀ v n, a.quarantineWrite = some (v, n) → v ≤ a.state.version ∧ n < k.nextAck ∧ k.writer.Acks k.diskVersion v n
  rooted : Rooted k.applied a.state

structure Inv (k : Coordinator) : Prop where
  times : ∀ x ∈ k.applied, x.2.2 < k.clock
  rooted : ∀ p ∈ k.chain, Rooted k.applied p.2
  acks : k.writer.AcksBelow k.nextAck
  idle : k.actor = none → k.writer = .new
  running : ∀ a, k.actor = some a → k.Running a

structure Goes (k k' : Coordinator) : Prop where
  inv : k'.Inv
  safe : ∀ g r, k.Safe g r → k'.Safe g r

theorem Goes.refl (h : k.Inv) : k.Goes k := ⟨h, fun _ _ hs => hs⟩

section Apply

variable {now moved : ℕ}

theorem Inv.apply {a' : Actor} {e : State.Event} {applied' : List (GpuId × ℕ × ℕ)} (h : k.Inv) (ha : k.actor = some a)
    (hsub : k.applied ⊆ applied') (htimes : ∀ x ∈ applied', x.2.2 < k.clock + 1)
    (hreport : ∀ g error r, e = .agentQuarantine g error (some r) → (g, r, k.clock) ∈ applied')
    (hstate : a'.state = a.state.apply e now k.clock moved) (hstored : a'.stored = a.stored)
    (hwrite : a'.quarantineWrite = a.quarantineWrite)
    (hunacked : ∀ u ∈ a'.unacked, u ∈ a.unacked ∨ ∃ r t, u.2.1 = some r ∧ u.2.2 = a'.state.version ∧
      (u.1, r, t) ∈ applied' ∧ Covered u.1 t a'.state) :
    Goes k { k with actor := some a', clock := k.clock + 1, applied := applied' } := by
  have hr := h.running a ha
  have hle : a.state.version ≤ a'.state.version := by
    rw [hstate]
    exact State.apply_version_le e
  -- a state of the chain that has the version now has had it all along
  have hsame : ∀ p ∈ k.chain, p.1 = a'.state.version → SameCore p.2 a'.state := by
    intro p hp heq
    have hpa := hr.le p hp
    have hversion : a'.state.version = a.state.version := by omega
    rw [hstate] at hversion ⊢
    refine (hr.same p hp ?_).trans (State.apply_sameCore hversion)
    rw [heq, hstate, hversion]
  constructor
  · refine ⟨htimes, fun p hp => (h.rooted p hp).mono hsub, h.acks, ?_, ?_⟩
    · nofun
    · intro a₂ ha₂
      cases ha₂
      refine ⟨hr.sorted, hstored ▸ hr.stored, fun p hp => (hr.le p hp).trans hle, hsame, ?_, ?_, ?_⟩
      · intro u hu
        rcases hunacked u hu with hu | ⟨r, t, hur, hversion, happlied, hcovered⟩
        · obtain ⟨r, t, hur, hversion, happlied, hcovered, hchain⟩ := hr.unacked u hu
          refine ⟨r, t, hur, hversion.trans hle, hsub happlied, ?_, hchain⟩
          rw [hstate]
          exact hcovered.apply (h.times _ happlied) e
        · refine ⟨r, t, hur, hversion.le, happlied, hcovered, ?_⟩
          intro p hp hge
          have hpa := hr.le p hp
          exact (hsame p hp (by omega)).covered hcovered
      · intro v n hvn
        obtain ⟨hv, hn, hacks⟩ := hr.acks v n (hwrite ▸ hvn)
        exact ⟨hv.trans hle, hn, hacks⟩
      · rw [hstate]
        exact hr.rooted.apply h.times hsub hreport
  · rintro g r ⟨t, happlied, hchain, hactor⟩
    refine ⟨t, hsub happlied, hchain, ?_⟩
    intro a₂ ha₂
    cases ha₂
    rw [hstate]
    exact (hactor a ha).apply (h.times _ happlied) e

theorem Inv.applyOther {e : State.Event} (h : k.Inv) (ha : k.actor = some a)
    (agents : AList fun _ : ℕ => String) (he : ∀ g error r, e ≠ .agentQuarantine g error (some r)) :
    Goes k (k.apply { a with agents := agents } e now moved) := by
  refine h.apply ha (fun _ hx => hx) ?_ ?_ rfl rfl rfl (fun u hu => .inl hu)
  · exact fun x hx => (h.times x hx).trans (Nat.lt_succ_self _)
  · exact fun g error r heq => absurd heq (he g error r)

theorem Inv.quarantine (h : k.Inv) (ha : k.actor = some a) (g : GpuId) (error : String) (report : ℕ) :
    Goes k (k.quarantine a g error report now moved) := by
  refine h.apply ha (e := .agentQuarantine g error (some report)) (subset_cons_self _ _) ?_ ?_ rfl rfl rfl ?_
  · intro x hx
    rcases mem_cons.mp hx with rfl | hx
    · exact Nat.lt_succ_self _
    · exact (h.times x hx).trans (Nat.lt_succ_self _)
  · rintro _ _ _ ⟨⟩
    exact mem_cons_self
  · intro u hu
    rcases mem_append.mp hu with hu | hu
    · exact .inl hu
    · rw [mem_singleton] at hu
      subst hu
      obtain ⟨t, happlied, hcovered⟩ : ∃ t, (g, report, t) ∈ (g, report, k.clock) :: k.applied ∧
          Covered g t (a.state.apply (.agentQuarantine g error (some report)) now k.clock moved) :=
        covered_of_reported (h.running a ha).rooted
      exact .inr ⟨report, t, rfl, rfl, happlied, hcovered⟩

end Apply

section Send

variable {o : Option StoreCmd} {answer : Option Bool}

theorem prefix_of_append {α : Type} {o : Option α} {pre post q : List α} (h : q ++ o.toList = pre ++ post) :
    (∃ rest, q = pre ++ rest) ∨ pre = q ++ o.toList := by
  rcases append_eq_append_iff.mp h with ⟨d, hd, hrest⟩ | ⟨d, hd, -⟩
  · cases o with
    | none =>
      have hnil : d = [] := by simp_all
      exact .inl ⟨[], by simp [hd, hnil]⟩
    | some c =>
      cases d with
      | nil => exact .inl ⟨[], by simp [hd]⟩
      | cons x d =>
        have hx : x = c ∧ d = [] := by simp_all
        exact .inr (by simp [hd, hx])
  · exact .inl ⟨d, hd⟩

theorem chain_send : (k.send o answer).chain =
    k.chain ++ (o.bind StoreCmd.bytes).toList.map fun b => (b.version, b) := by
  have hpending : (k.send o answer).pending = k.pending ++ (o.bind StoreCmd.bytes).toList := by
    simp only [pending, send, filterMap_append, append_assoc]
    cases o with
    | none => rfl
    | some c => cases hc : c.bytes <;> simp [hc]
  simp only [chain, hpending, map_append, cons_append]
  rfl

theorem newestVersion_send (v : ℕ) : (k.send o answer).writer.newestVersion v (k.writer.queue ++ o.toList) =
    ((o.bind StoreCmd.bytes).map State.version).getD (k.writer.newestVersion v k.writer.queue) := by
  simp only [Writer.newestVersion, Writer.newest_append]
  cases o with
  | none => rfl
  | some c => cases hc : c.bytes <;> simp [Writer.newest, send, hc]

theorem acksBelow_send (h : k.writer.AcksBelow k.nextAck) (ho : ∀ c ∈ o, ∀ n, c.ack = some n → n = k.nextAck) :
    (k.send o answer).writer.AcksBelow (k.nextAck + 1) where
  queued := by
    intro c hc n hn
    rcases mem_append.mp hc with hc | hc
    · exact (h.queued c hc n hn).trans (Nat.lt_succ_self _)
    · rw [ho c (Option.mem_toList.mp hc) n hn]
      exact Nat.lt_succ_self _
  busy acks hacks n hn := (h.busy acks hacks n hn).trans (Nat.lt_succ_self _)
  answered := by
    intro n hn
    by_cases heq : n = k.nextAck
    · omega
    · simp only [send, Function.update_of_ne heq] at hn
      exact (h.answered n hn).trans (Nat.lt_succ_self _)

theorem acks_send {v n : ℕ} (h : k.writer.Acks k.diskVersion v n) (hn : n < k.nextAck)
    (ho : ∀ c ∈ o, ∀ n, c.ack = some n → n = k.nextAck)
    (hle : k.writer.newestVersion k.diskVersion k.writer.queue ≤
      (k.send o answer).writer.newestVersion k.diskVersion (k.writer.queue ++ o.toList)) :
    (k.send o answer).writer.Acks k.diskVersion v n where
  queued := by
    intro pre post heq ⟨c, hc, hack⟩
    rcases prefix_of_append heq with ⟨rest, hrest⟩ | hall
    · exact h.queued pre rest hrest ⟨c, hc, hack⟩
    · rw [hall] at hc ⊢
      rcases mem_append.mp hc with hc | hc
      · exact (h.queued k.writer.queue [] (append_nil _).symm ⟨c, hc, hack⟩).trans hle
      · have heq := ho c (Option.mem_toList.mp hc) n hack
        omega
  busy := h.busy
  answered := by
    intro hanswer
    simp only [send, Function.update_of_ne (Nat.ne_of_lt hn)] at hanswer
    exact h.answered hanswer

theorem acks_send_new {v : ℕ} (h : k.writer.AcksBelow k.nextAck) (hanswer : answer ≠ some true)
    (hv : o ≠ none → v ≤ (k.send o answer).writer.newestVersion k.diskVersion (k.writer.queue ++ o.toList)) :
    (k.send o answer).writer.Acks k.diskVersion v k.nextAck where
  queued := by
    intro pre post heq ⟨c, hc, hack⟩
    have hold : c ∉ k.writer.queue := fun hmem => Nat.lt_irrefl _ (h.queued c hmem _ hack)
    rcases prefix_of_append heq with ⟨rest, hrest⟩ | hall
    · exact absurd (hrest ▸ mem_append_left rest hc) hold
    · rw [hall] at hc ⊢
      apply hv
      rintro rfl
      exact hold (by simpa using hc)
  busy acks hacks hmem := absurd (h.busy acks hacks _ hmem) (Nat.lt_irrefl _)
  answered htrue := by
    simp only [send, Function.update_self] at htrue
    exact absurd htrue hanswer

theorem Inv.send {a' : Actor} (h : k.Inv) (ha : k.actor = some a) (hstate : a'.state = a.state)
    (hunacked : a'.unacked = a.unacked) (ho : ∀ c ∈ o, ∀ n, c.ack = some n → n = k.nextAck)
    (hbytes : o.bind StoreCmd.bytes = none ∧ a'.stored = a.stored ∨
      o.bind StoreCmd.bytes = some a.state ∧ a'.stored = a.state.version)
    (hwrite : a'.quarantineWrite = a.quarantineWrite ∨
      a'.quarantineWrite = some (a.state.version, k.nextAck) ∧ answer ≠ some true ∧
        (o ≠ none → a'.stored = a.state.version)) :
    Goes k { k.send o answer with actor := some a' } := by
  have hr := h.running a ha
  -- what is new in the chain is the state
  have hnew : ∀ p ∈ (k.send o answer).chain, p ∈ k.chain ∨ p = (a.state.version, a.state) := by
    intro p hp
    rw [chain_send] at hp
    rcases mem_append.mp hp with hp | hp
    · exact .inl hp
    · rcases hbytes with ⟨hb, -⟩ | ⟨hb, -⟩ <;> rw [hb] at hp
      · cases hp
      · exact .inr (by simpa using hp)
  have hstored : a'.stored = (k.send o answer).writer.newestVersion k.diskVersion (k.writer.queue ++ o.toList) := by
    rw [newestVersion_send]
    rcases hbytes with ⟨hb, hs⟩ | ⟨hb, hs⟩
    · rw [hb, hs]
      exact hr.stored
    · rw [hb, hs]
      rfl
  have hstoredLe : a.stored ≤ a'.stored := by
    rcases hbytes with ⟨-, hs⟩ | ⟨-, hs⟩
    · omega
    · rw [hs, hr.stored, Writer.newestVersion]
      cases hnewest : Writer.newest k.writer.unwritten k.writer.queue with
      | none => exact hr.le (k.diskVersion, k.base) mem_cons_self
      | some b =>
        apply hr.le (b.version, b)
        apply mem_cons_of_mem
        apply mem_map_of_mem
        apply (Writer.newest_sublist _ _).subset
        simp [hnewest]
  constructor
  · refine ⟨h.times, ?_, acksBelow_send h.acks ho, ?_, ?_⟩
    · intro p hp
      rcases hnew p hp with hp | rfl
      · exact h.rooted p hp
      · exact hr.rooted
    · nofun
    · intro a₂ ha₂
      cases ha₂
      refine ⟨?_, hstored, ?_, ?_, ?_, ?_, hstate ▸ hr.rooted⟩
      · show ((k.send o answer).chain.map Prod.fst).Pairwise (· ≤ ·)
        rw [chain_send, map_append, pairwise_append]
        refine ⟨hr.sorted, ?_, ?_⟩
        · rcases hbytes with ⟨hb, -⟩ | ⟨hb, -⟩ <;> simp [hb]
        · intro x hx y hy
          obtain ⟨p, hp, rfl⟩ := mem_map.mp hx
          rcases hbytes with ⟨hb, -⟩ | ⟨hb, -⟩ <;> rw [hb] at hy
          · cases hy
          · have hy : y = a.state.version := by simpa using hy
            rw [hy]
            exact hr.le p hp
      · intro p hp
        rw [hstate]
        rcases hnew p hp with hp | rfl
        · exact hr.le p hp
        · exact Nat.le_refl _
      · intro p hp heq
        rw [hstate] at heq ⊢
        rcases hnew p hp with hp | rfl
        · exact hr.same p hp heq
        · exact SameCore.refl _
      · intro u hu
        rw [hstate]
        obtain ⟨r, t, hur, hversion, happlied, hcovered, hchain⟩ := hr.unacked u (hunacked ▸ hu)
        refine ⟨r, t, hur, hversion, happlied, hcovered, ?_⟩
        intro p hp hge
        rcases hnew p hp with hp | rfl
        · exact hchain p hp hge
        · exact hcovered
      · intro v n hvn
        rw [hstate]
        rcases hwrite with hsame | ⟨hnewWrite, hanswer, hall⟩
        · obtain ⟨hv, hn, hacks⟩ := hr.acks v n (hsame ▸ hvn)
          refine ⟨hv, hn.trans (Nat.lt_succ_self _), acks_send hacks hn ho ?_⟩
          rw [← hstored, ← hr.stored]
          exact hstoredLe
        · cases hnewWrite.symm.trans hvn
          refine ⟨Nat.le_refl _, Nat.lt_succ_self _, acks_send_new h.acks hanswer ?_⟩
          intro hsome
          rw [← hstored, hall hsome]
  · rintro g r ⟨t, happlied, hchain, hactor⟩
    refine ⟨t, happlied, ?_, ?_⟩
    · intro p hp
      rcases hnew p hp with hp | rfl
      · exact hchain p hp
      · exact hactor a ha
    · intro a₂ ha₂
      cases ha₂
      rw [hstate]
      exact hactor a ha

theorem Inv.store (h : k.Inv) (ha : k.actor = some a) (barrier serialized : Bool) {write : Option (ℕ × ℕ)}
    (hwrite : write = a.quarantineWrite ∨ barrier = true ∧ write = some (a.state.version, k.nextAck)) :
    Goes k { (k.store a barrier serialized).2 with
      actor := some { (k.store a barrier serialized).1 with quarantineWrite := write } } := by
  unfold Coordinator.store
  by_cases hversion : a.state.version = a.stored
  · cases barrier with
    | true =>
      simp only [hversion, if_true]
      refine h.send ha rfl rfl ?_ (.inl ⟨rfl, rfl⟩) ?_
      · rintro c ⟨⟩ n ⟨⟩
        rfl
      · exact hwrite.imp id fun hw => ⟨hw.2, by simp, fun _ => hversion.symm⟩
    | false =>
      simp only [hversion, if_true, Bool.false_eq_true, if_false]
      refine h.send ha rfl rfl ?_ (.inl ⟨rfl, rfl⟩) (.inl (hwrite.resolve_right fun hw => Bool.false_ne_true hw.1))
      rintro c ⟨⟩ n ⟨⟩
  · cases serialized with
    | true =>
      simp only [hversion, if_false, if_true]
      refine h.send ha rfl rfl ?_ (.inr ⟨rfl, rfl⟩) ?_
      · rintro c ⟨⟩ n ⟨⟩
        rfl
      · exact hwrite.imp id fun hw => ⟨hw.2, by simp, fun _ => rfl⟩
    | false =>
      simp only [hversion, if_false, Bool.false_eq_true]
      refine h.send ha rfl rfl ?_ (.inl ⟨rfl, rfl⟩) ?_
      · rintro c ⟨⟩
      · exact hwrite.imp id fun hw => ⟨hw.2, by simp, fun hne => absurd rfl hne⟩

theorem store_quarantineWrite (barrier serialized : Bool) :
    (k.store a barrier serialized).1.quarantineWrite = a.quarantineWrite := by
  unfold Coordinator.store
  split
  · split <;> rfl
  · split <;> rfl

theorem Inv.storeTick (h : k.Inv) (ha : k.actor = some a) (serialized : Bool) :
    Goes k (k.storeTick a serialized) := by
  unfold Coordinator.storeTick
  split
  · exact h.store ha true serialized (.inr ⟨rfl, rfl⟩)
  · exact h.store ha false serialized (.inl (store_quarantineWrite false serialized))

theorem Inv.shutdownStore (h : k.Inv) (ha : k.actor = some a) (serialized : Bool) :
    Goes k (k.shutdownStore a serialized) :=
  h.store ha true serialized (.inl (store_quarantineWrite true serialized))

end Send

theorem Inv.written {told : List (GpuId × Option ℕ × ℕ)} (h : k.Inv) (ha : k.actor = some a)
    (hw : k.written a = some (k', told)) :
    Goes k k' ∧ ∀ u ∈ told, ∃ r, u.2.1 = some r ∧ k.Safe u.1 r := by
  have hr := h.running a ha
  -- the actor that waits for no write, and of whose reports only some are left
  have hgoes : ∀ unacked, unacked ⊆ a.unacked →
      Goes k { k with actor := some { a with quarantineWrite := none, unacked := unacked } } := by
    intro unacked hsub
    constructor
    · refine ⟨h.times, h.rooted, h.acks, nofun, ?_⟩
      intro a₂ ha₂
      cases ha₂
      exact { hr with unacked := fun u hu => hr.unacked u (hsub hu), acks := nofun }
    · rintro g r ⟨t, happlied, hchain, hactor⟩
      refine ⟨t, happlied, hchain, ?_⟩
      intro a₂ ha₂
      cases ha₂
      exact hactor a ha
  unfold Coordinator.written at hw
  obtain ⟨⟨v, n⟩, hvn, hw⟩ := Option.bind_eq_some_iff.mp hw
  obtain ⟨stored, hstored, hw⟩ := Option.map_eq_some_iff.mp hw
  cases stored with
  | false =>
    cases hw
    exact ⟨hgoes a.unacked (fun _ hu => hu), nofun⟩
  | true =>
    cases hw
    refine ⟨hgoes _ (filter_subset_self _), ?_⟩
    intro u hu
    obtain ⟨hu, hle⟩ := mem_filter.mp hu
    obtain ⟨r, t, hur, -, happlied, hcovered, hchain⟩ := hr.unacked u hu
    have hdisk := (hr.acks v n hvn).2.2.answered hstored
    refine ⟨r, hur, t, happlied, ?_, ?_⟩
    · -- every state of the chain is the stored one or newer
      intro p hp
      apply hchain p hp
      have hsorted := hr.sorted
      simp only [chain, map_cons, pairwise_cons] at hsorted
      have hp₁ : k.diskVersion ≤ p.1 := by
        rcases mem_cons.mp hp with rfl | hp
        · exact Nat.le_refl _
        · exact hsorted.1 p.1 (mem_map_of_mem hp)
      simp only [decide_eq_true_eq] at hle
      omega
    · intro a₂ ha₂
      cases ha.symm.trans ha₂
      exact hcovered

section Write

variable {b : State}

theorem Writer.newest_some (b : State) (cmds : List StoreCmd) (v : ℕ) :
    ((Writer.newest (some b) cmds).map State.version).getD v =
      ((Writer.newest none cmds).map State.version).getD b.version := by
  induction cmds generalizing b with
  | nil => rfl
  | cons c cmds ih =>
    rcases hc : c.bytes with _ | b'
    · simpa [Writer.newest, hc] using ih b
    have hisSome : ∀ (cmds : List StoreCmd) (b : State), (Writer.newest (some b) cmds).isSome := by
      intro cmds
      induction cmds with
      | nil => exact fun _ => rfl
      | cons c cmds ih =>
        intro b
        cases hc : c.bytes with
        | none => simpa [Writer.newest, hc] using ih b
        | some b' => simpa [Writer.newest, hc] using ih b'
    obtain ⟨b₂, hb₂⟩ := Option.isSome_iff_exists.mp (hisSome cmds b')
    simp only [Writer.newest] at hb₂
    simp [Writer.newest, hc, hb₂]

theorem Inv.write (h : k.Inv) (hactor : k'.actor = k.actor) (hsome : k.actor ≠ none)
    (hclock : k'.clock = k.clock) (happlied : k'.applied = k.applied)
    (hchain : k'.chain ⊆ k.chain)
    (hsorted : (k.chain.map Prod.fst).Pairwise (· ≤ ·) → (k'.chain.map Prod.fst).Pairwise (· ≤ ·))
    (hnewest : k'.writer.newestVersion k'.diskVersion k'.writer.queue =
      k.writer.newestVersion k.diskVersion k.writer.queue)
    (hbelow : k'.writer.AcksBelow k'.nextAck) (hnext : k.nextAck ≤ k'.nextAck)
    (hacks : ∀ v n, k.writer.Acks k.diskVersion v n → k'.writer.Acks k'.diskVersion v n) : Goes k k' := by
  constructor
  · refine ⟨?_, ?_, hbelow, fun hnone => absurd (hactor ▸ hnone) hsome, ?_⟩
    · rw [happlied, hclock]
      exact h.times
    · intro p hp
      rw [happlied]
      exact h.rooted p (hchain hp)
    · intro a ha
      have hr := h.running a (hactor ▸ ha)
      refine ⟨hsorted hr.sorted, hnewest ▸ hr.stored, fun p hp => hr.le p (hchain hp),
        fun p hp => hr.same p (hchain hp), ?_, ?_, happlied ▸ hr.rooted⟩
      · intro u hu
        obtain ⟨r, t, hur, hversion, hmem, hcovered, hall⟩ := hr.unacked u hu
        exact ⟨r, t, hur, hversion, happlied ▸ hmem, hcovered, fun p hp => hall p (hchain hp)⟩
      · intro v n hvn
        obtain ⟨hv, hn, hold⟩ := hr.acks v n hvn
        exact ⟨hv, hn.trans_le hnext, hacks v n hold⟩
  · rintro g r ⟨t, hmem, hall, hstate⟩
    exact ⟨t, happlied ▸ hmem, fun p hp => hall p (hchain hp), fun a ha => hstate a (hactor ▸ ha)⟩

theorem Inv.writerTake (h : k.Inv) (hsome : k.actor ≠ none) (n : ℕ) :
    Goes k { k with writer := k.writer.take n } := by
  have hqueue : k.writer.queue = k.writer.queue.take n ++ k.writer.queue.drop n := (take_append_drop n _).symm
  have hpending : ({ k with writer := k.writer.take n } : Coordinator).pending.Sublist k.pending := by
    have hbytes : k.writer.queue.filterMap StoreCmd.bytes =
        (k.writer.queue.take n).filterMap StoreCmd.bytes ++ (k.writer.queue.drop n).filterMap StoreCmd.bytes := by
      rw [← filterMap_append, take_append_drop]
    simp only [pending, Writer.take, hbytes, ← append_assoc]
    exact (Writer.newest_sublist _ _).append (List.Sublist.refl _)
  have hchain : ({ k with writer := k.writer.take n } : Coordinator).chain.Sublist k.chain :=
    (hpending.map _).cons_cons _
  -- what is newest behind commands that are left was newest behind those that were taken too
  have hnewest : ∀ cmds, (k.writer.take n).newestVersion k.diskVersion cmds =
      k.writer.newestVersion k.diskVersion (k.writer.queue.take n ++ cmds) := by
    intro cmds
    simp only [Writer.newestVersion, Writer.take, Writer.newest_append]
  refine h.write rfl hsome rfl rfl hchain.subset (fun hs => hs.sublist (hchain.map _)) ?_ ?_ (Nat.le_refl _) ?_
  · rw [hnewest]
    congr 1
    exact hqueue.symm
  · refine ⟨fun c hc => h.acks.queued c (mem_of_mem_drop hc), ?_, h.acks.answered⟩
    intro acks hbusy m hm
    cases hbusy
    obtain ⟨c, hc, hack⟩ := mem_filterMap.mp hm
    exact h.acks.queued c (mem_of_mem_take hc) m hack
  · intro v m hacks
    refine ⟨?_, ?_, hacks.answered⟩
    · rintro pre post heq ⟨c, hc, hack⟩
      rw [hnewest]
      apply hacks.queued _ post
      · rw [append_assoc, ← heq]
        exact hqueue
      · exact ⟨c, mem_append_right _ hc, hack⟩
    · intro acks hbusy hm
      cases hbusy
      obtain ⟨c, hc, hack⟩ := mem_filterMap.mp hm
      rw [hnewest, append_nil]
      exact hacks.queued _ _ hqueue ⟨c, hc, hack⟩

theorem busy_actor (h : k.Inv) (hbusy : k.writer.busy = some acks) : k.actor ≠ none := by
  intro hnone
  rw [h.idle hnone] at hbusy
  cases hbusy

theorem chain_land (hb : k.writer.unwritten = some b) :
    (k.land b).chain ⊆ k.chain ∧
      ((k.chain.map Prod.fst).Pairwise (· ≤ ·) → k.diskVersion ≤ b.version ∧
        ((k.land b).chain.map Prod.fst).Pairwise (· ≤ ·)) := by
  have hpending : k.pending = b :: k.writer.queue.filterMap StoreCmd.bytes := by simp [pending, hb]
  have hpending' : (k.land b).pending = k.pending := rfl
  constructor
  · intro p hp
    rcases mem_cons.mp hp with rfl | hp
    · apply mem_cons_of_mem
      rw [hpending]
      exact mem_cons_self
    · exact mem_cons_of_mem _ hp
  · intro hsorted
    simp only [chain, hpending, map_cons, pairwise_cons] at hsorted
    refine ⟨hsorted.1 _ mem_cons_self, ?_⟩
    simp only [chain, hpending', hpending, map_cons, pairwise_cons]
    refine ⟨?_, hsorted.2⟩
    intro v hv
    rcases mem_cons.mp hv with rfl | hv
    · exact Nat.le_refl _
    · exact hsorted.2.1 v hv

theorem Inv.writerLand (h : k.Inv) (hbusy : k.writer.busy = some acks)
    (hb : k.writer.unwritten = some b) : Goes k (k.land b) := by
  have hsome := busy_actor h hbusy
  obtain ⟨a, ha⟩ := Option.ne_none_iff_exists'.mp hsome
  obtain ⟨hchain, hsorted⟩ := chain_land hb
  have hle := (hsorted (h.running a ha).sorted).1
  have hnewest : ∀ cmds, (k.land b).writer.newestVersion (k.land b).diskVersion cmds =
      k.writer.newestVersion k.diskVersion cmds := by
    intro cmds
    simp only [Writer.newestVersion, land, hb, Writer.newest_some]
  refine h.write rfl hsome rfl rfl hchain (fun hs => (hsorted hs).2) (hnewest _) h.acks (Nat.le_refl _) ?_
  intro v n hacks
  refine ⟨?_, ?_, fun htrue => (hacks.answered htrue).trans hle⟩
  · intro pre post heq hpre
    rw [hnewest]
    exact hacks.queued pre post heq hpre
  · intro acks hbusy hmem
    rw [hnewest]
    exact hacks.busy acks hbusy hmem

theorem Goes.trans {k'' : Coordinator} (h : Goes k k') (h' : Goes k' k'') : Goes k k'' :=
  ⟨h'.inv, fun g r hs => h'.safe g r (h.safe g r hs)⟩

theorem Inv.answer {x : Writer} (h : k.Inv) (hbusy : k.writer.busy = some acks)
    (hx : x = k.writer ∨ x = { k.writer with unwritten := none } ∧ k.writer.unwritten = some k.base ∧
      k.base.version = k.diskVersion) :
    Goes k { k with writer := x.answer acks } := by
  have hsome := busy_actor h hbusy
  have hqueue : x.queue = k.writer.queue ∧ x.answers = k.writer.answers := by
    rcases hx with rfl | ⟨rfl, -⟩ <;> exact ⟨rfl, rfl⟩
  have hchain : ({ k with writer := x.answer acks } : Coordinator).chain.Sublist k.chain := by
    rcases hx with rfl | ⟨rfl, hb, hversion⟩
    · exact List.Sublist.refl _
    · apply List.Sublist.cons_cons
      apply List.Sublist.map
      simp only [pending, Writer.answer, hb]
      exact sublist_append_right _ _
  have hnewest : ∀ cmds, (x.answer acks).newestVersion k.diskVersion cmds =
      k.writer.newestVersion k.diskVersion cmds := by
    intro cmds
    rcases hx with rfl | ⟨rfl, hb, hversion⟩
    · rfl
    · simp only [Writer.newestVersion, Writer.answer, hb, Writer.newest_some, hversion]
  refine h.write rfl hsome rfl rfl hchain.subset (fun hs => hs.sublist (hchain.map _)) ?_ ?_ (Nat.le_refl _) ?_
  · rw [hnewest]
    exact congrArg _ hqueue.1
  · refine ⟨?_, nofun, ?_⟩
    · exact fun c hc => h.acks.queued c (hqueue.1 ▸ hc)
    · intro n hn
      simp only [Writer.answer] at hn
      split at hn
      · next hmem => exact h.acks.busy acks hbusy n hmem
      · exact h.acks.answered n (hqueue.2 ▸ hn)
  · intro v n hacks
    refine ⟨?_, nofun, ?_⟩
    · intro pre post heq hpre
      rw [hnewest]
      exact hacks.queued pre post (hqueue.1 ▸ heq) hpre
    · intro htrue
      simp only [Writer.answer] at htrue
      split at htrue
      · next hmem =>
        have hv := hacks.busy acks hbusy hmem
        have hnone : x.unwritten = none := by simpa using htrue
        rw [← hnewest] at hv
        simpa [Writer.newestVersion, Writer.answer, Writer.newest, hnone] using hv
      · exact hacks.answered (hqueue.2 ▸ htrue)

theorem Inv.writerFinish (h : k.Inv) (hbusy : k.writer.busy = some acks) (ok : Bool) :
    Goes k (k.writerFinish acks ok) := by
  unfold Coordinator.writerFinish
  cases hb : k.writer.unwritten with
  | none => exact h.answer hbusy (.inl rfl)
  | some b =>
    cases ok with
    | false => exact h.answer hbusy (.inl rfl)
    | true =>
      have hland := h.writerLand hbusy hb
      exact hland.trans (hland.inv.answer hbusy (.inr ⟨rfl, hb, rfl⟩))

end Write

theorem Inv.kill (h : k.Inv) : Goes k k.kill := by
  have hchain : k.kill.chain ⊆ k.chain := by
    intro p hp
    simpa [chain, pending, Coordinator.kill, Writer.new, base] using Or.inl (mem_singleton.mp hp)
  constructor
  · refine ⟨h.times, fun p hp => h.rooted p (hchain hp), ?_, fun _ => rfl, nofun⟩
    refine ⟨nofun, nofun, fun n hn => absurd rfl hn⟩
  · rintro g r ⟨t, happlied, hall, -⟩
    exact ⟨t, happlied, fun p hp => hall p (hchain hp), nofun⟩

theorem resumes_eq : k.resumes.quarantined = k.base.quarantined ∧
    k.resumes.releasedReports = k.base.releasedReports ∧ k.resumes.history = k.base.history := by
  unfold base resumes
  cases k.disk with
  | none => exact ⟨rfl, rfl, rfl⟩
  | some d => exact ⟨rfl, rfl, rfl⟩

theorem Inv.restart (h : k.Inv) (hnone : k.actor = none) (moved : ℕ) : Goes k (k.restart moved) := by
  have hwriter := h.idle hnone
  obtain ⟨hquarantined, hreleased, hhistory⟩ := resumes_eq (k := k)
  have hsame : SameCore k.base { k.resumes with version := k.resumes.version + moved } :=
    ⟨hquarantined.symm, hreleased.symm, fun g t => by rw [hhistory]⟩
  have hbase : (k.diskVersion, k.base) ∈ k.chain := mem_cons_self
  have hchain : (k.restart moved).chain = [(k.resumes.version, k.base)] := by
    simp only [chain, pending, Coordinator.restart, hwriter]
    rfl
  constructor
  · refine ⟨h.times, ?_, h.acks, nofun, ?_⟩
    · intro p hp
      rw [hchain, mem_singleton] at hp
      subst hp
      exact h.rooted (k.diskVersion, k.base) hbase
    · intro a ha
      cases ha
      refine ⟨?_, ?_, ?_, ?_, nofun, nofun, ?_⟩
      · rw [hchain]
        exact pairwise_singleton _ _
      · simp only [Coordinator.restart, hwriter]
        rfl
      · intro p hp
        rw [hchain, mem_singleton] at hp
        subst hp
        exact Nat.le_add_right _ _
      · intro p hp _
        rw [hchain, mem_singleton] at hp
        subst hp
        exact hsame
      · exact (h.rooted _ hbase).of_eq hquarantined hreleased (fun x hx => hhistory ▸ hx)
  · rintro g r ⟨t, happlied, hall, -⟩
    have hcovered := hall _ hbase
    refine ⟨t, happlied, ?_, ?_⟩
    · intro p hp
      rw [hchain, mem_singleton] at hp
      subst hp
      exact hcovered
    · intro a ha
      cases ha
      rcases hcovered with hcovered | ⟨t', ht', hcovered⟩
      · exact .inl (hquarantined ▸ hcovered)
      · exact .inr ⟨t', ht', hhistory ▸ hcovered⟩

end Coordinator

end Fcvm.Fleet
