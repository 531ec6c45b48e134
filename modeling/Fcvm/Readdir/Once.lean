import Mathlib.Data.List.Nodup
import Fcvm.Readdir.Listing

namespace Fcvm.Readdir

open List

structure Request.Valid (r : Request) : Prop extends r.host.Valid where
  rises : r.host.Rises
  named : r.host.Named
  room : 0 < r.room

def Steady (ino : ℕ) : List Request → ℕ → Prop
  | r :: next :: requests, offset =>
    ∀ reply ∈ r.reply ino offset,
      next.host.listing.take (nextOffset reply offset) = r.host.listing.take (nextOffset reply offset) ∧
        Steady ino (next :: requests) (nextOffset reply offset)
  | _, _ => True

instance Steady.decidable (ino : ℕ) : (requests : List Request) → (offset : ℕ) → Decidable (Steady ino requests offset)
  | [], _ => isTrue trivial
  | [_], _ => isTrue trivial
  | r :: next :: requests, offset =>
    have := Steady.decidable ino (next :: requests)
    inferInstanceAs (Decidable (∀ reply ∈ r.reply ino offset,
      next.host.listing.take (nextOffset reply offset) = r.host.listing.take (nextOffset reply offset) ∧
        Steady ino (next :: requests) (nextOffset reply offset)))

/-- Each of `.`, `..` and the names that were there all along is listed once, and no name that never was there. -/
structure Once (requests : List Request) (got : List DirEntry) : Prop where
  dot : (got.map DirEntry.name).count DOT = 1
  dotdot : (got.map DirEntry.name).count DOTDOT = 1
  throughout : ∀ name, (∀ r ∈ requests, name ∈ r.host.names) → (got.map DirEntry.name).count name = 1
  other : ∀ e ∈ got, e.name = DOT ∨ e.name = DOTDOT ∨ ∃ r ∈ requests, e.name ∈ r.host.names

section Reply

variable {r : Request} {ino offset : ℕ} {reply : List (DirEntry × ℕ)}

theorem Request.reply_eq (h : r.reply ino offset = some reply) :
    ∃ entries, r.host.readdir ino offset = .dirEntries entries ∧
      reply = (entries.zipIdx.map fun (entry, i) => (entry, offset + i + 1)).take r.room := by
  unfold Request.reply clientReaddir at h
  split at h
  · cases h
  · next entries hread => exact ⟨entries, hread, (Option.some.inj h).symm⟩

theorem Request.Valid.reply_names (hr : r.Valid) (h : r.reply ino offset = some reply) :
    (reply.map Prod.fst).map DirEntry.name = (r.host.listing.drop offset).take r.room := by
  obtain ⟨entries, hread, rfl⟩ := Request.reply_eq h
  rw [← Host.readdir_names hr.toValid hr.rises hr.named hread, map_take, map_map, map_take]
  congr 2
  exact zipIdx_map_fst 0 entries

theorem Request.nextOffset_eq (h : r.reply ino offset = some reply) :
    nextOffset reply offset = offset + reply.length := by
  obtain ⟨entries, -, rfl⟩ := Request.reply_eq h
  unfold nextOffset
  rw [getLast?_eq_getElem?]
  rcases Nat.eq_zero_or_pos ((entries.zipIdx.map fun (entry, i) => (entry, offset + i + 1)).take r.room).length with
    hzero | hpos
  · rw [length_eq_zero_iff.mp hzero]
    rfl
  · have hlength : ((entries.zipIdx.map fun (entry, i) => (entry, offset + i + 1)).take r.room).length ≤
        entries.length := by
      rw [length_take, length_map, length_zipIdx]
      exact Nat.min_le_right _ _
    have hroom := length_take_le r.room (entries.zipIdx.map fun (entry, i) => (entry, offset + i + 1))
    generalize hn : ((entries.zipIdx.map fun (entry, i) => (entry, offset + i + 1)).take r.room).length = n at *
    rw [getElem?_take, if_pos (by omega), getElem?_map, getElem?_zipIdx,
      getElem?_eq_getElem (show n - 1 < entries.length by omega)]
    simp only [Option.map_some, Option.getD_some]
    omega

theorem Request.Valid.got_names (hr : r.Valid) {got : List DirEntry}
    (hgot : got.map DirEntry.name = r.host.listing.take offset) (h : r.reply ino offset = some reply) :
    (got ++ reply.map Prod.fst).map DirEntry.name = r.host.listing.take (nextOffset reply offset) := by
  have hnames := hr.reply_names h
  have hlength := congrArg length hnames
  rw [length_map, length_map, length_take, length_drop] at hlength
  rw [map_append, hgot, hnames, Request.nextOffset_eq h, take_add, hlength]
  congr 1
  rw [← length_drop, ← take_eq_take_min]

theorem Request.Valid.listed (hr : r.Valid) {got : List DirEntry}
    (hgot : got.map DirEntry.name = r.host.listing.take offset) (h : r.reply ino offset = some []) :
    got.map DirEntry.name = r.host.listing := by
  have hnames := (hr.reply_names h).symm
  rw [map_nil, map_nil, take_eq_nil_iff, drop_eq_nil_iff] at hnames
  have hroom := hr.room
  have hle := hnames.resolve_left (by omega)
  rw [hgot, take_of_length_le hle]

end Reply

section Guest

variable {ino : ℕ}

theorem guest_names {requests : List Request} {offset : ℕ} {got all : List DirEntry} (hvalid : ∀ r ∈ requests, r.Valid)
    (hsteady : Steady ino requests offset)
    (hgot : ∀ r ∈ requests.head?, got.map DirEntry.name = r.host.listing.take offset)
    (h : guest ino requests offset got = some all) :
    ∃ r ∈ requests, all.map DirEntry.name = r.host.listing := by
  induction requests generalizing offset got with
  | nil => cases h
  | cons r requests ih =>
    have hr := hvalid r mem_cons_self
    have hlisted := hgot r (by simp)
    unfold guest at h
    split at h
    · cases h
    · next reply hreply =>
      split at h
      · next hempty =>
        rw [isEmpty_iff.mp hempty] at hreply
        cases h
        exact ⟨r, mem_cons_self, hr.listed hlisted hreply⟩
      · have hnext := hr.got_names hlisted hreply
        have hrest : ∀ x ∈ requests, x.Valid := fun x hx => hvalid x (mem_cons_of_mem _ hx)
        cases requests with
        | nil => cases h
        | cons next requests =>
          obtain ⟨hsame, hsteady⟩ := hsteady reply hreply
          obtain ⟨x, hx, hall⟩ := ih hrest hsteady (by
            intro x hx
            cases hx
            rw [hnext, hsame]) h
          exact ⟨x, mem_cons_of_mem _ hx, hall⟩

theorem guest_ends {requests : List Request} {offset : ℕ} (got : List DirEntry) (hvalid : ∀ r ∈ requests, r.Valid)
    (hanswered : ∀ r ∈ requests, ∀ offset, r.reply ino offset ≠ none)
    (hlong : ∀ r ∈ requests, r.host.listing.length < offset + requests.length) (hne : requests ≠ []) :
    ∃ all, guest ino requests offset got = some all := by
  induction requests generalizing offset got with
  | nil => exact absurd rfl hne
  | cons r requests ih =>
    have hr := hvalid r mem_cons_self
    unfold guest
    rcases hreply : r.reply ino offset with _ | reply
    · exact absurd hreply (hanswered r mem_cons_self offset)
    dsimp only
    split
    · exact ⟨got, rfl⟩
    · next hempty =>
      have hpos : 0 < reply.length := length_pos_iff.mpr fun hnil => hempty (isEmpty_iff.mpr hnil)
      have hnames := congrArg length (hr.reply_names hreply)
      rw [length_map, length_map, length_take, length_drop] at hnames
      have hr' := hlong r mem_cons_self
      rw [length_cons] at hr'
      rw [Request.nextOffset_eq hreply]
      apply ih
      · exact fun x hx => hvalid x (mem_cons_of_mem _ hx)
      · exact fun x hx => hanswered x (mem_cons_of_mem _ hx)
      · intro x hx
        have hx' := hlong x (mem_cons_of_mem _ hx)
        rw [length_cons] at hx'
        omega
      · rintro rfl
        rw [length_nil] at hr'
        omega

end Guest

theorem Host.Valid.listing_nodup {h : Host} (hh : h.Valid) : h.listing.Nodup := by
  have hnames : h.names.Nodup := (filter_sublist.map HostEntry.name).nodup hh.names
  have hdots : ∀ name ∈ h.names, name ≠ DOT ∧ name ≠ DOTDOT := by
    intro name hname
    obtain ⟨e, he, rfl⟩ := mem_map.mp hname
    have hno := (mem_filter.mp he).2
    simp only [HostEntry.isDots, Bool.not_or, Bool.and_eq_true, Bool.not_eq_true', beq_eq_false_iff_ne] at hno
    exact hno
  unfold Host.listing
  rw [nodup_cons, nodup_cons]
  refine ⟨?_, ?_, hnames⟩
  · intro hin
    rcases mem_cons.mp hin with hdot | hin
    · exact absurd hdot (by decide)
    · exact (hdots _ hin).1 rfl
  · exact fun hin => (hdots _ hin).2 rfl

/-- A guest that reads a directory to its end gets every name that is there all along once, where the chunks lead
through the directory and its changes lie behind the guest's offset. -/
theorem names_listed_once {ino : ℕ} {requests : List Request} (hvalid : ∀ r ∈ requests, r.Valid)
    (hsteady : Steady ino requests 0) :
    (∀ got, guest ino requests 0 [] = some got → Once requests got) ∧
      ((∀ r ∈ requests, ∀ offset, r.reply ino offset ≠ none) →
        (∀ r ∈ requests, r.host.listing.length < requests.length) → requests ≠ [] →
          ∃ got, guest ino requests 0 [] = some got) := by
  constructor
  · intro got hguest
    obtain ⟨last, hlast, hnames⟩ := guest_names hvalid hsteady (by simp) hguest
    have hnodup := (hvalid last hlast).listing_nodup
    rw [← hnames] at hnodup
    refine ⟨?_, ?_, ?_, ?_⟩
    · apply count_eq_one_of_mem hnodup
      rw [hnames]
      exact mem_cons_self
    · apply count_eq_one_of_mem hnodup
      rw [hnames]
      exact mem_cons_of_mem _ mem_cons_self
    · intro name hname
      apply count_eq_one_of_mem hnodup
      rw [hnames]
      exact mem_cons_of_mem _ (mem_cons_of_mem _ (hname last hlast))
    · intro e he
      have hin := mem_map_of_mem (f := DirEntry.name) he
      rw [hnames] at hin
      simp only [Host.listing, mem_cons] at hin
      rcases hin with hdot | hdotdot | hin
      · exact .inl hdot
      · exact .inr (.inl hdotdot)
      · exact .inr (.inr ⟨last, hlast, hin⟩)
  · intro hanswered hlong hne
    apply guest_ends [] hvalid hanswered _ hne
    intro r hr
    have hr' := hlong r hr
    omega

def files (names : List Name) : Host where
  entries := names.zipIdx.map fun (name, i) => ⟨i + 10, name, 8, i + 1⟩
  split := fun _ => 8
  openError := none
  readError := fun _ => none
  parent := some 1

theorem files_valid {names : List Name} (hnames : names.Nodup) : (files names).Valid where
  names := by
    unfold files
    rw [map_map]
    exact (zipIdx_map_fst 0 names).symm ▸ hnames
  offsets := by
    unfold files
    rw [map_map]
    have heq : names.zipIdx.map (HostEntry.offset ∘ fun (name, i) => ⟨i + 10, name, 8, i + 1⟩) =
        (names.zipIdx.map Prod.snd).map (· + 1) := by
      rw [map_map]
      rfl
    rw [heq, zipIdx_map_snd]
    exact (nodup_range').map (fun a b hab => by simpa using hab)
  nonzero := by
    intro e he
    obtain ⟨x, -, rfl⟩ := mem_map.mp he
    exact Nat.succ_ne_zero _
  split := fun _ => Nat.succ_pos _

def createdRequests : List Request := ⟨files [[97], [98]], 3⟩ :: List.replicate 6 ⟨files [[97], [98], [99]], 3⟩

theorem names_listed_once_created :
    Once createdRequests [.dot 2, .dotdot 1, ⟨10, [97], 8⟩, ⟨11, [98], 8⟩, ⟨12, [99], 8⟩] := by
  have hvalid : ∀ r ∈ createdRequests, r.Valid := by
    intro r hr
    rcases mem_cons.mp hr with rfl | hr
    · exact ⟨files_valid (by decide), by decide, by decide, by decide⟩
    · rw [eq_of_mem_replicate hr]
      exact ⟨files_valid (by decide), by decide, by decide, by decide⟩
  have hsteady : Steady 2 createdRequests 0 := by decide
  exact (names_listed_once hvalid hsteady).1 _ (by decide)

/-- A guest that reads to the end does not get a name that was there all along. -/
def Misses (requests : List Request) (name : Name) : Prop :=
  (∀ r ∈ requests, r.host.Valid ∧ 0 < r.room ∧ name ∈ r.host.names) ∧
    ∃ got, guest 2 requests 0 [] = some got ∧ name ∉ got.map DirEntry.name

def oneByOne (entries : List (Name × ℕ)) : Host where
  entries := entries.map fun (name, offset) => ⟨10, name, 8, offset⟩
  split := fun _ => 1
  openError := none
  readError := fun _ => none
  parent := some 1

/-- A name is missed when another that the guest has got by then is removed; and without a removal, after a chunk that
ends at a smaller cookie, and after one that holds no name. -/
theorem name_missed_after_removal :
    (∃ requests, Misses requests [98] ∧ ∀ r ∈ requests, r.host.Rises ∧ r.host.Named) ∧
    (∃ h : Host, Misses (replicate 2 ⟨h, 8⟩) [98] ∧ h.Named ∧ ¬h.Rises) ∧
    ∃ h : Host, Misses (replicate 2 ⟨h, 8⟩) [98] ∧ h.Rises ∧ ¬h.Named := by
  refine ⟨⟨⟨files [[97], [98], [99]], 3⟩ :: replicate 2 ⟨files [[98], [99]], 3⟩, ⟨?_, ?_⟩, by decide⟩,
    ⟨oneByOne [([97], 5), ([99], 3), ([98], 7)], ⟨?_, ?_⟩, by decide, by decide⟩,
    ⟨oneByOne [(DOT, 1), ([98], 2)], ⟨?_, ?_⟩, by decide, by decide⟩⟩
  · intro r hr
    rcases mem_cons.mp hr with rfl | hr
    · exact ⟨files_valid (by decide), by decide⟩
    · rw [eq_of_mem_replicate hr]
      exact ⟨files_valid (by decide), by decide⟩
  · exact ⟨[.dot 2, .dotdot 1, ⟨10, [97], 8⟩, ⟨11, [99], 8⟩], by decide, by decide⟩
  · intro r hr
    rw [eq_of_mem_replicate hr]
    exact ⟨⟨by decide, by decide, by decide, fun _ => Nat.one_pos⟩, by decide⟩
  · exact ⟨[.dot 2, .dotdot 1, ⟨10, [97], 8⟩, ⟨10, [99], 8⟩], by decide, by decide⟩
  · intro r hr
    rw [eq_of_mem_replicate hr]
    exact ⟨⟨by decide, by decide, by decide, fun _ => Nat.one_pos⟩, by decide⟩
  · exact ⟨[.dot 2, .dotdot 1], by decide, by decide⟩

end Fcvm.Readdir
