import Fcvm.DiskDir.Reading

namespace Fcvm.DiskDir

open Library DiskDir.Tree List

variable {u : Tree} {xs : List (Path × Tree)} {q p : Path} {es : List Flat}

namespace Tree

def inode : Tree → Option Inode
  | leaf inode _ _ _ => some inode
  | dir _ _ => none

def node : Tree → Option Node
  | leaf _ _ _ node => some node
  | dir _ _ => none

def Fits : Tree → Prop
  | leaf _ _ _ (.file content) => content.length < 2 ^ 64
  | leaf _ _ _ (.symlink target) => target.length < 2 ^ 64
  | leaf _ _ _ _ => True
  | dir _ entries => entries.length < 2 ^ 64

instance : DecidablePred Fits
  | leaf _ _ _ (.file content) => inferInstanceAs (Decidable (content.length < 2 ^ 64))
  | leaf _ _ _ (.symlink target) => inferInstanceAs (Decidable (target.length < 2 ^ 64))
  | leaf _ _ _ (.block _) => .isTrue trivial
  | leaf _ _ _ (.char _) => .isTrue trivial
  | leaf _ _ _ .fifo => .isTrue trivial
  | leaf _ _ _ .socket => .isTrue trivial
  | leaf _ _ _ .other => .isTrue trivial
  | dir _ entries => inferInstanceAs (Decidable (entries.length < 2 ^ 64))

@[simp]
theorem fileInode_sorted (t : Tree) : t.sorted.fileInode = t.fileInode := by
  cases t with
  | leaf => rfl
  | dir => rfl

@[simp]
theorem nlinks_sorted (t : Tree) : t.sorted.nlinks = t.nlinks := by
  cases t with
  | leaf => rfl
  | dir => rfl

@[simp]
theorem kind_sorted (t : Tree) : t.sorted.kind = t.kind := by
  cases t with
  | leaf => rfl
  | dir => rfl

@[simp]
theorem metadata_sorted (t : Tree) : t.sorted.metadata = t.metadata := by
  cases t with
  | leaf => rfl
  | dir => rfl

theorem length_sortedEntries (entries : List (Name × Tree)) : (sortedEntries entries).length = entries.length := by
  have h := congrArg length (map_fst_sortedEntries entries)
  simpa using h

@[simp]
theorem body_sorted (met : Option Bytes) (t : Tree) : t.sorted.body met = t.body met := by
  cases t with
  | leaf => rfl
  | dir md entries => simp [sorted, body, length_sortedEntries]

theorem Distinct.sorted {t : Tree} (h : t.Distinct) : t.sorted.Distinct := by
  intro path md entries hat
  obtain ⟨u, hu, heq⟩ := at_sorted.mp hat
  cases u with
  | leaf => cases heq
  | dir md' entries' =>
    cases heq
    have hperm := (perm_insertionSort (fun a b : Name × Tree => a.1.bytes ≤ b.1.bytes)
      (sortedEntries entries')).map Prod.fst
    rw [hperm.nodup_iff, map_fst_sortedEntries]
    exact h path md entries' hu

theorem Distinct.unique {t v : Tree} {path : Path} (h : t.Distinct) (hu : At path t u) (hv : At path t v) : u = v := by
  have hmem : ∀ w, At path t w → (path, w) ∈ t.nodes [] := fun w hw => (mem_nodes [] t _).mpr ⟨path, rfl, hw⟩
  have heq := inj_on_of_nodup_map (nodup_nodes [] t h) (hmem u hu) (hmem v hv) rfl
  exact congrArg Prod.snd heq

end Tree

/-- A directory tree as a file system holds it: names are distinct, lengths fit their type, and the paths of one inode
show one file, which counts its links. -/
structure SourceTree where
  root : Tree
  distinct : root.Distinct
  fits : ∀ path u, At path root u → u.Fits
  paths : ∀ path u, At path root u → (joined path).length < 2 ^ 64
  xattrs : ∀ path u, At path root u → u.metadata.xattrs.length < 2 ^ 64 ∧
    ∀ x ∈ u.metadata.xattrs, x.1.length < 2 ^ 64 ∧ x.2.length < 2 ^ 64
  links : ∀ p q u v i, At p root u → At q root v → u.inode = some i → v.inode = some i → u = v ∧ (p ≠ q → 1 < u.nlinks)

/-- What the copy keeps of an entry by itself: its type with what that holds, its permission bits, its owners and its
attributes. -/
structure View where
  node : Option Node
  mode : UInt32
  owners : Option (UInt32 × UInt32)
  xattrs : List (Bytes × Bytes)
  deriving DecidableEq

def view (keepOwners : Bool) (t : Tree) : View where
  node := t.node
  mode := t.metadata.mode &&& 0o7777
  owners := owners keepOwners t.metadata
  xattrs := carried keepOwners t.metadata

namespace SourceTree

def Shows (keepOwners : Bool) (A : SourceTree) (path : Path) (v : View) : Prop :=
  ∃ u, At path A.root u ∧ view keepOwners u = v

def Linked (A : SourceTree) (p q : Path) : Prop :=
  ∃ u v i, At p A.root u ∧ At q A.root v ∧ u.inode = some i ∧ v.inode = some i

def SpecialLinked (A : SourceTree) (p q : Path) : Prop :=
  ∃ u v i, At p A.root u ∧ At q A.root v ∧ u.inode = some i ∧ v.inode = some i ∧ u.fileInode = none

def walk (A : SourceTree) : List (Path × Tree) := A.root.sorted.nodes []

end SourceTree

structure SameCopy (keepOwners : Bool) (A B : SourceTree) : Prop where
  shows : ∀ path v, A.Shows keepOwners path v ↔ B.Shows keepOwners path v
  linked : ∀ p q, A.Linked p q ↔ B.Linked p q

/-- At one path, alike in mode, owners and attributes, one tree has a later link of a regular file and the other the
first link of a file whose contents read like that link. -/
def SourceTree.Confuses (keepOwners : Bool) (A B : SourceTree) : Prop :=
  ∃ path first u v i j content, At path A.root u ∧ At path B.root v ∧
    u.fileInode = some i ∧ firstMet A.walk i = some first ∧ first ≠ path ∧
    v.fileInode = some j ∧ firstMet B.walk j = some path ∧ v.node = some (.file content) ∧
    { view keepOwners u with node := none } = { view keepOwners v with node := none } ∧
    Confusable (joined first) content

section Walk

variable {keepOwners : Bool} {A B : SourceTree} {path : Path} {i : Inode}

theorem SourceTree.mem_walk {x : Path × Tree} : x ∈ A.walk ↔ ∃ u, At x.1 A.root u ∧ x.2 = u.sorted := by
  rw [SourceTree.walk, mem_nodes]
  constructor
  · rintro ⟨rest, hpath, hat⟩
    rw [nil_append] at hpath
    exact hpath ▸ at_sorted.mp hat
  · exact fun h => ⟨x.1, rfl, at_sorted.mpr h⟩

theorem SourceTree.nodup_walk (A : SourceTree) : (A.walk.map Prod.fst).Nodup := nodup_nodes [] _ A.distinct.sorted

theorem fileInode_eq (h : u.fileInode = some i) : u.inode = some i ∧ ∃ content, u.node = some (.file content) := by
  cases u with
  | leaf inode nlink md node =>
    cases node with
    | file content => exact ⟨h, content, rfl⟩
    | symlink | block | char | fifo | socket | other => cases h
  | dir => cases h

theorem SourceTree.shares_walk (A : SourceTree) : A.walk.Pairwise Shares := by
  apply List.Nodup.pairwise_of_forall_ne A.nodup_walk.of_map
  intro x hx y hy hne i hxi hyi
  obtain ⟨u, hu, hxu⟩ := SourceTree.mem_walk.mp hx
  obtain ⟨v, hv, hyv⟩ := SourceTree.mem_walk.mp hy
  have hpath : x.1 ≠ y.1 := fun heq => hne (inj_on_of_nodup_map A.nodup_walk hx hy heq)
  rw [hxu, fileInode_sorted] at hxi
  rw [hyv, fileInode_sorted] at hyi
  obtain ⟨rfl, hlinks⟩ := A.links _ _ _ _ i hu hv (fileInode_eq hxi).1 (fileInode_eq hyi).1
  rw [hxu, hyv, nlinks_sorted]
  exact ⟨hlinks hpath, hlinks hpath⟩

def repeats (xs : List (Path × Tree)) (x : Path × Tree) : Option Bytes :=
  ((x.2.fileInode.bind (firstMet xs)).filter (· ≠ x.1)).map joined

theorem firstMet_mem (h : firstMet xs i = some q) :
    ∃ t, (q, t) ∈ xs ∧ t.fileInode = some i := by
  unfold firstMet at h
  cases hfind : xs.find? (fun x => x.2.fileInode = some i) with
  | none =>
    simp [hfind] at h
  | some x =>
    rw [hfind] at h
    cases h
    exact ⟨x.2, mem_of_find?_eq_some hfind, by simpa using find?_some hfind⟩

variable {pre : List (Path × Tree)}

theorem metAt_eq_repeats {x : Path × Tree}
    (hnodup : ((pre ++ x :: xs).map Prod.fst).Nodup) : metAt pre x = repeats (pre ++ x :: xs) x := by
  unfold metAt repeats
  rcases hi : x.2.fileInode with _ | i
  · rfl
  rw [Option.bind_some, Option.bind_some]
  cases hmet : firstMet pre i with
  | some q =>
    obtain ⟨t, hmem, -⟩ := firstMet_mem hmet
    have hne : q ≠ x.1 := by
      intro heq
      rw [map_append, nodup_append] at hnodup
      exact hnodup.2.2 q (mem_map.mpr ⟨_, hmem, rfl⟩) x.1 (by simp) heq
    have hall : firstMet (pre ++ x :: xs) i = some q := by
      unfold firstMet at hmet ⊢
      rw [find?_append, Option.map_or, hmet, Option.some_or]
    rw [hall, Option.filter_some, if_pos (by simpa using hne)]
  | none =>
    have hall : firstMet (pre ++ x :: xs) i = some x.1 := by
      unfold firstMet at hmet ⊢
      rw [find?_append, Option.map_or, hmet, Option.none_or, find?_cons_of_pos (by simpa using hi)]
      rfl
    rw [hall, Option.filter_some, if_neg (by simp)]

theorem entries_eq_map (hnodup : ((pre ++ xs).map Prod.fst).Nodup) :
    entries keepOwners pre xs = xs.map fun x => entryOf keepOwners (repeats (pre ++ xs) x) x := by
  induction xs generalizing pre with
  | nil => rfl
  | cons x xs ih =>
    have happend : pre ++ [x] ++ xs = pre ++ x :: xs := by simp
    rw [entries, metAt_eq_repeats hnodup, ih (by rw [happend]; exact hnodup), happend, map_cons]

def SourceTree.entryAt (keepOwners : Bool) (A : SourceTree) (x : Path × Tree) : Entry :=
  entryOf keepOwners (repeats A.walk x) x

theorem SourceTree.hash_eq (keepOwners : Bool) (A : SourceTree) :
    hashTreeWith keepOwners A.root = (A.walk.map (A.entryAt keepOwners)).flatMap Entry.encode := by
  have htracks : Tracks (fun _ => none) [] := fun _ => rfl
  have h := (hashEntry_eq keepOwners A.root.sorted [] [] _ htracks A.shares_walk).1
  have hmap : entries keepOwners [] A.walk = A.walk.map (A.entryAt keepOwners) := entries_eq_map A.nodup_walk
  rw [hashTreeWith, ← joined_nil, h]
  exact congrArg (flatMap Entry.encode) hmap

theorem SourceTree.entryAt_sorted (u : Tree) :
    A.entryAt keepOwners (path, u.sorted) = A.entryAt keepOwners (path, u) := by
  simp [SourceTree.entryAt, entryOf, repeats]

theorem SourceTree.mem_entries (hu : At path A.root u) :
    A.entryAt keepOwners (path, u) ∈ A.walk.map (A.entryAt keepOwners) := by
  rw [← SourceTree.entryAt_sorted u]
  exact mem_map.mpr ⟨_, SourceTree.mem_walk.mpr ⟨u, hu, rfl⟩, rfl⟩

theorem SourceTree.of_mem_entries {e : Entry} (he : e ∈ A.walk.map (A.entryAt keepOwners)) :
    ∃ path u, At path A.root u ∧ e = A.entryAt keepOwners (path, u) := by
  obtain ⟨⟨path, t⟩, hx, rfl⟩ := mem_map.mp he
  obtain ⟨u, hu, rfl⟩ := SourceTree.mem_walk.mp hx
  exact ⟨path, u, hu, SourceTree.entryAt_sorted u⟩

theorem SourceTree.firstMet_of_at (hu : At path A.root u) (hi : u.fileInode = some i) :
    ∃ q, firstMet A.walk i = some q ∧ At q A.root u := by
  have hmem : (path, u.sorted) ∈ A.walk := SourceTree.mem_walk.mpr ⟨u, hu, rfl⟩
  cases hfirst : firstMet A.walk i with
  | none =>
    have hnone := find?_eq_none.mp (Option.map_eq_none_iff.mp hfirst) _ hmem
    simp [hi] at hnone
  | some q =>
    obtain ⟨t, ht, hti⟩ := firstMet_mem hfirst
    obtain ⟨w, hw, rfl⟩ := SourceTree.mem_walk.mp ht
    rw [fileInode_sorted] at hti
    obtain ⟨rfl, -⟩ := A.links _ _ _ _ i hw hu (fileInode_eq hti).1 (fileInode_eq hi).1
    exact ⟨q, rfl, hw⟩

theorem repeats_of_first (hi : u.fileInode = some i) (hq : firstMet xs i = some path) :
    repeats xs (path, u) = none := by
  simp [repeats, hi, hq]

theorem repeats_of_later (hi : u.fileInode = some i)
    (hq : firstMet xs i = some q) (hne : q ≠ path) : repeats xs (path, u) = some (joined q) := by
  simp [repeats, hi, hq, hne]

end Walk

section Bodies

variable {t t' : Tree} {met met' : Option Bytes}

theorem body_of_fileInode_none (h : t.fileInode = none) : t.body met = t.body none := by
  cases t with
  | leaf inode nlink md node =>
    cases node with
    | file content => cases h
    | symlink | block | char | fifo | socket | other => rfl
  | dir md entries => rfl

theorem body_of_file {content : Bytes} (h : t.node = some (.file content)) :
    t.body met = match met with
      | some first => .link first
      | none => .content content := by
  cases t with
  | leaf inode nlink md node =>
    cases h
    rfl
  | dir md entries => cases h

theorem fileInode_of_kind (h : t.kind = 0x66) : ∃ i content, t.fileInode = some i ∧ t.node = some (.file content) := by
  cases t with
  | leaf inode nlink md node =>
    cases node with
    | file content => exact ⟨inode, content, rfl, rfl⟩
    | symlink | block | char | fifo | socket | other => cases h
  | dir md entries => cases h

theorem kind_of_fileInode {i : Inode} (h : t.fileInode = some i) : t.kind = 0x66 := by
  cases t with
  | leaf inode nlink md node =>
    cases node with
    | file content => rfl
    | symlink | block | char | fifo | socket | other => cases h
  | dir md entries => cases h

theorem kindOf_body (t : Tree) (met : Option Bytes) : KindOf t.kind (t.body met) := by
  cases t with
  | leaf inode nlink md node =>
    cases node with
    | file content => cases met <;> rfl
    | symlink => rfl
    | block => exact .inl rfl
    | char => exact .inr rfl
    | fifo => exact .inl rfl
    | socket => exact .inr (.inl rfl)
    | other => exact .inr (.inr rfl)
  | dir md entries => rfl

theorem node_eq_of_body (hkind : t.kind = t'.kind) (hbody : t.body none = t'.body none) : t.node = t'.node := by
  cases t with
  | leaf inode nlink md node =>
    cases t' with
    | leaf inode' nlink' md' node' =>
      cases node <;> cases node' <;> simp_all [Tree.kind, Node.kind, Tree.body, Tree.node]
    | dir => cases node <;> cases hkind
  | dir =>
    cases t' with
    | leaf inode' nlink' md' node' => cases node' <;> cases hkind
    | dir => rfl

end Bodies

section Identity

variable {keepOwners : Bool} {A B : SourceTree} {path : Path} {i : Inode}

theorem body_link {met : Option Bytes} {first : Bytes} (h : u.body met = .link first) :
    met = some first ∧ ∃ i, u.fileInode = some i := by
  cases hi : u.fileInode with
  | none =>
    rw [body_of_fileInode_none hi] at h
    cases u with
    | leaf inode nlink md node => cases node <;> cases h
    | dir => cases h
  | some i =>
    obtain ⟨-, content, hnode⟩ := fileInode_eq hi
    rw [body_of_file hnode] at h
    cases met with
    | none => cases h
    | some first' =>
      cases h
      exact ⟨rfl, i, rfl⟩

theorem body_content {met : Option Bytes} {content : Bytes} (h : u.body met = .content content) :
    met = none ∧ u.node = some (.file content) ∧ ∃ i, u.fileInode = some i := by
  cases u with
  | leaf inode nlink md node =>
    cases node with
    | file content' =>
      cases met with
      | none =>
        cases h
        exact ⟨rfl, rfl, inode, rfl⟩
      | some first => cases h
    | symlink | block | char | fifo | socket | other => cases h
  | dir => cases h

theorem carried_mem {md : Metadata} {x : Bytes × Bytes} (hx : x ∈ carried keepOwners md) : x ∈ md.xattrs :=
  (mem_insertionSort _).mp (mem_of_mem_filter hx)

theorem length_carried_le (keepOwners : Bool) (md : Metadata) : (carried keepOwners md).length ≤ md.xattrs.length := by
  calc (carried keepOwners md).length
      ≤ (md.xattrs.insertionSort fun a b => xattrLe a b).length := length_filter_le _ _
    _ = md.xattrs.length := length_insertionSort _ _

theorem SourceTree.body_fits (hu : At path A.root u) : (u.body (repeats A.walk (path, u))).Fits := by
  have hfits := A.fits path u hu
  cases hi : u.fileInode with
  | none =>
    rw [body_of_fileInode_none hi]
    cases u with
    | leaf inode nlink md node =>
      cases node with
      | file content => cases hi
      | symlink target => exact hfits
      | block | char | fifo | socket | other => trivial
    | dir md entries => exact hfits
  | some i =>
    obtain ⟨-, content, hnode⟩ := fileInode_eq hi
    obtain ⟨q, hq, hat⟩ := SourceTree.firstMet_of_at hu hi
    rw [body_of_file hnode]
    by_cases hne : q = path
    · subst hne
      rw [repeats_of_first hi hq]
      cases u with
      | leaf inode nlink md node =>
        cases hnode
        exact hfits
      | dir => cases hnode
    · rw [repeats_of_later hi hq hne]
      exact A.paths q u hat

theorem SourceTree.entryAt_valid (hu : At path A.root u) : (A.entryAt keepOwners (path, u)).Valid keepOwners where
  relative := A.paths path u hu
  owners := by cases keepOwners <;> rfl
  count := Nat.lt_of_le_of_lt (length_carried_le keepOwners _) (A.xattrs path u hu).1
  xattrs := fun x hx => (A.xattrs path u hu).2 x (carried_mem hx)
  kind := kindOf_body u _
  body := SourceTree.body_fits hu

variable {v : Tree}

theorem SourceTree.confuses_of_entries (hu : At p A.root u) (hv : At q B.root v)
    (h : (A.entryAt keepOwners (p, u)).Confuses (B.entryAt keepOwners (q, v))) : A.Confuses keepOwners B := by
  obtain ⟨first, content, hlink, heq, hconf⟩ := h
  have hpath : p = q := (joined_injective (congrArg Entry.relative heq)).symm
  subst hpath
  obtain ⟨hrepeats, i, hi⟩ := body_link hlink
  obtain ⟨hnone, hnode, j, hj⟩ := body_content (congrArg Entry.body heq)
  obtain ⟨r, hr, -⟩ := SourceTree.firstMet_of_at hu hi
  obtain ⟨s, hs, -⟩ := SourceTree.firstMet_of_at hv hj
  have hrp : r ≠ p := by
    rintro rfl
    rw [repeats_of_first hi hr] at hrepeats
    cases hrepeats
  have hsp : s = p := by
    by_contra hne
    rw [repeats_of_later hj hs hne] at hnone
    cases hnone
  subst hsp
  rw [repeats_of_later hi hr hrp] at hrepeats
  cases hrepeats
  have hmode := congrArg Entry.mode heq
  have howners := congrArg Entry.owners heq
  have hxattrs := congrArg Entry.xattrs heq
  refine ⟨s, r, u, v, i, j, content, hu, hv, hi, hr, hrp, hj, hs, hnode, ?_, hconf⟩
  simp only [view, View.mk.injEq, true_and]
  exact ⟨hmode.symm, howners.symm, hxattrs.symm⟩

def Agrees (keepOwners : Bool) (A B : SourceTree) : Prop :=
  ∀ path u, At path A.root u → ∃ v, At path B.root v ∧ A.entryAt keepOwners (path, u) = B.entryAt keepOwners (path, v)

theorem agrees_of_entries (h : A.walk.map (A.entryAt keepOwners) = B.walk.map (B.entryAt keepOwners)) :
    Agrees keepOwners A B := by
  intro path u hu
  have hmem : A.entryAt keepOwners (path, u) ∈ A.walk.map (A.entryAt keepOwners) := SourceTree.mem_entries hu
  rw [h] at hmem
  obtain ⟨q, v, hv, heq⟩ := SourceTree.of_mem_entries hmem
  have hpath : path = q := joined_injective (congrArg Entry.relative heq)
  subst hpath
  exact ⟨v, hv, heq⟩

theorem firstMet_of_entry (hv : At path B.root v)
    (heq : A.entryAt keepOwners (path, u) = B.entryAt keepOwners (path, v)) (hi : u.fileInode = some i)
    (hq : firstMet A.walk i = some q) : ∃ j, v.fileInode = some j ∧ firstMet B.walk j = some q := by
  have hkind : u.kind = v.kind := congrArg Entry.kind heq
  have hbody : u.body (repeats A.walk (path, u)) = v.body (repeats B.walk (path, v)) := congrArg Entry.body heq
  obtain ⟨j, content', hj, hnode'⟩ := fileInode_of_kind (hkind ▸ kind_of_fileInode hi)
  obtain ⟨-, content, hnode⟩ := fileInode_eq hi
  obtain ⟨r, hr, -⟩ := SourceTree.firstMet_of_at hv hj
  rw [body_of_file hnode, body_of_file hnode'] at hbody
  refine ⟨j, hj, hr.trans (congrArg some ?_)⟩
  by_cases hqp : q = path
  · subst hqp
    by_contra hrq
    rw [repeats_of_first hi hq, repeats_of_later hj hr hrq] at hbody
    cases hbody
  · rw [repeats_of_later hi hq hqp] at hbody
    by_cases hrp : r = path
    · subst hrp
      simp [repeats_of_first hj hr] at hbody
    · rw [repeats_of_later hj hr hrp] at hbody
      exact (joined_injective (Body.link.inj hbody)).symm

theorem Agrees.node (h : Agrees keepOwners A B) (hu : At path A.root u) (hv : At path B.root v)
    (heq : A.entryAt keepOwners (path, u) = B.entryAt keepOwners (path, v)) : u.node = v.node := by
  have hkind : u.kind = v.kind := congrArg Entry.kind heq
  apply node_eq_of_body hkind
  cases hi : u.fileInode with
  | none =>
    have hj : v.fileInode = none := by
      cases hj : v.fileInode with
      | none => rfl
      | some j =>
        obtain ⟨i, content, hi', -⟩ := fileInode_of_kind (hkind.trans (kind_of_fileInode hj))
        cases hi.symm.trans hi'
    rw [← body_of_fileInode_none hi, ← body_of_fileInode_none hj]
    exact congrArg Entry.body heq
  | some i =>
    -- both are met first at one path, and there both contribute their contents
    obtain ⟨q, hq, hatu⟩ := SourceTree.firstMet_of_at hu hi
    obtain ⟨j, hj, hqj⟩ := firstMet_of_entry hv heq hi hq
    obtain ⟨r, hr, hatv⟩ := SourceTree.firstMet_of_at hv hj
    cases hqj.symm.trans hr
    obtain ⟨w, hw, hsame⟩ := h q u hatu
    cases B.distinct.unique hw hatv
    have hbody : u.body (repeats A.walk (q, u)) = v.body (repeats B.walk (q, v)) := congrArg Entry.body hsame
    rwa [repeats_of_first hi hq, repeats_of_first hj hqj] at hbody

theorem Agrees.shows {v : View} (h : Agrees keepOwners A B) (hv : A.Shows keepOwners path v) :
    B.Shows keepOwners path v := by
  obtain ⟨u, hu, rfl⟩ := hv
  obtain ⟨w, hw, heq⟩ := h path u hu
  refine ⟨w, hw, ?_⟩
  have hnode := h.node hu hw heq
  have hmode := congrArg Entry.mode heq
  have howners := congrArg Entry.owners heq
  have hxattrs := congrArg Entry.xattrs heq
  simp only [view, View.mk.injEq]
  exact ⟨hnode.symm, hmode.symm, howners.symm, hxattrs.symm⟩

theorem SourceTree.SpecialLinked.linked (h : A.SpecialLinked p q) : A.Linked p q := by
  obtain ⟨u, v, i, hu, hv, hui, hvi, -⟩ := h
  exact ⟨u, v, i, hu, hv, hui, hvi⟩

theorem Agrees.linked (h : Agrees keepOwners A B) (hspecial : A.SpecialLinked p q → B.SpecialLinked p q)
    (hlinked : A.Linked p q) : B.Linked p q := by
  obtain ⟨u, v, i, hu, hv, hui, hvi⟩ := hlinked
  obtain ⟨rfl, -⟩ := A.links _ _ _ _ i hu hv hui hvi
  rcases hi : u.fileInode with _ | i'
  · exact (hspecial ⟨u, u, i, hu, hv, hui, hvi, hi⟩).linked
  obtain ⟨r, hr, -⟩ := SourceTree.firstMet_of_at hu hi
  obtain ⟨u', hu', hequ⟩ := h p u hu
  obtain ⟨v', hv', heqv⟩ := h q u hv
  obtain ⟨j, hj, hrj⟩ := firstMet_of_entry hu' hequ hi hr
  obtain ⟨k, hk, hrk⟩ := firstMet_of_entry hv' heqv hi hr
  obtain ⟨s, hs, hats⟩ := SourceTree.firstMet_of_at hu' hj
  obtain ⟨s', hs', hats'⟩ := SourceTree.firstMet_of_at hv' hk
  rw [hrj] at hs
  rw [hrk] at hs'
  cases hs
  cases hs'
  cases B.distinct.unique hats hats'
  exact ⟨u', u', j, hu', hv', (fileInode_eq hj).1, (fileInode_eq hj).1⟩

/-- The hash identifies the tree that the copy keeps, unless a later link and contents that read like it meet, or links
of files that are not regular differ. -/
theorem hash_identifies_tree (keepOwners : Bool) (A B : SourceTree) (hAB : ¬ A.Confuses keepOwners B)
    (hBA : ¬ B.Confuses keepOwners A) (hspecial : ∀ p q, A.SpecialLinked p q ↔ B.SpecialLinked p q)
    (h : hashTreeWith keepOwners A.root = hashTreeWith keepOwners B.root) : SameCopy keepOwners A B := by
  have hvalid : ∀ (T : SourceTree), ∀ e ∈ T.walk.map (T.entryAt keepOwners), e.Valid keepOwners := by
    intro T e he
    obtain ⟨path, u, hu, rfl⟩ := SourceTree.of_mem_entries he
    exact SourceTree.entryAt_valid hu
  have hentries : A.walk.map (A.entryAt keepOwners) = B.walk.map (B.entryAt keepOwners) := by
    rw [A.hash_eq, B.hash_eq] at h
    refine entries_inj (hvalid A) (hvalid B) ?_ h
    intro e he e' he'
    obtain ⟨p, u, hu, rfl⟩ := SourceTree.of_mem_entries he
    obtain ⟨q, v, hv, rfl⟩ := SourceTree.of_mem_entries he'
    exact ⟨fun hc => hAB (SourceTree.confuses_of_entries hu hv hc),
      fun hc => hBA (SourceTree.confuses_of_entries hv hu hc)⟩
  have hforth := agrees_of_entries hentries
  have hback := agrees_of_entries hentries.symm
  constructor
  · exact fun path v => ⟨hforth.shows, hback.shows⟩
  · exact fun p q => ⟨hforth.linked (hspecial p q).mp, hback.linked (hspecial p q).mpr⟩

end Identity

structure Flat where
  name : Name
  inode : Inode
  nlink : ℕ
  node : Node
  deriving DecidableEq

def fileMetadata : Metadata := ⟨0o644, 0, 0, []⟩

def Flat.tree (e : Flat) : Name × Tree := (e.name, leaf e.inode e.nlink fileMetadata e.node)

def flatRoot (es : List Flat) : Tree := dir ⟨0o755, 0, 0, []⟩ (es.map Flat.tree)

theorem at_flatRoot {path : Path} (h : At path (flatRoot es) u) :
    path = [] ∧ u = flatRoot es ∨ ∃ e ∈ es, path = [e.name] ∧ u = e.tree.2 := by
  cases path with
  | nil => exact .inl ⟨rfl, h⟩
  | cons name path =>
    obtain ⟨t, hmem, hat⟩ := h
    obtain ⟨e, he, heq⟩ := mem_map.mp hmem
    cases heq
    cases path with
    | nil => exact .inr ⟨e, he, rfl, hat⟩
    | cons name path => exact hat.elim

def WellFormed (es : List Flat) : Prop :=
  (es.map Flat.name).Nodup ∧ es.length < 2 ^ 64 ∧ (∀ e ∈ es, e.name.bytes.length < 2 ^ 64 ∧ e.tree.2.Fits) ∧
    ∀ e ∈ es, ∀ e' ∈ es, e.inode = e'.inode → (e.nlink, e.node) = (e'.nlink, e'.node) ∧ (e.name ≠ e'.name → 1 < e.nlink)

instance (es : List Flat) : Decidable (WellFormed es) := by
  unfold WellFormed
  infer_instance

def flatTree (es : List Flat) (h : WellFormed es) : SourceTree where
  root := flatRoot es
  distinct := by
    intro path md entries hat
    rcases at_flatRoot hat with ⟨-, heq⟩ | ⟨e, -, -, heq⟩
    · cases heq
      have hnames : (es.map Flat.tree).map Prod.fst = es.map Flat.name := by
        rw [map_map]
        rfl
      rw [hnames]
      exact h.1
    · cases heq
  fits := by
    intro path u hat
    rcases at_flatRoot hat with ⟨-, rfl⟩ | ⟨e, he, -, rfl⟩
    · simpa [flatRoot, Fits] using h.2.1
    · exact (h.2.2.1 e he).2
  paths := by
    intro path u hat
    rcases at_flatRoot hat with ⟨rfl, -⟩ | ⟨e, he, rfl, -⟩
    · exact Nat.two_pow_pos 64
    · exact (h.2.2.1 e he).1
  xattrs := by
    intro path u hat
    have hnone : u.metadata.xattrs = [] := by
      rcases at_flatRoot hat with ⟨-, rfl⟩ | ⟨e, -, -, rfl⟩
      · rfl
      · rfl
    rw [hnone]
    exact ⟨Nat.two_pow_pos 64, nofun⟩
  links := by
    intro p q u v i hu hv hui hvi
    rcases at_flatRoot hu with ⟨-, rfl⟩ | ⟨e, he, rfl, rfl⟩
    · cases hui
    · rcases at_flatRoot hv with ⟨-, rfl⟩ | ⟨e', he', rfl, rfl⟩
      · cases hvi
      · have hinode : e.inode = e'.inode := Option.some.inj (hui.trans hvi.symm)
        obtain ⟨hsame, hlinks⟩ := h.2.2.2 e he e' he' hinode
        obtain ⟨hnlink, hnode⟩ := Prod.mk.inj hsame
        refine ⟨?_, fun hne => hlinks fun heq => hne (by rw [heq])⟩
        simp only [Flat.tree, hinode, hnlink, hnode]

def letter (b : UInt8) (h : b ≠ 0x2F) : Name := ⟨[b], cons_ne_nil _ _, by simpa using h.symm⟩

def nameA : Name := letter 0x61 (by decide)
def nameB : Name := letter 0x62 (by decide)
def nameC : Name := letter 0x63 (by decide)

theorem not_confuses_flat {keepOwners : Bool} {A : SourceTree} (h : WellFormed es)
    (hshort : ∀ e ∈ es, ∀ content, e.node = .file content → content.length < 104) :
    ¬ A.Confuses keepOwners (flatTree es h) := by
  rintro ⟨path, first, u, v, i, j, content, -, hv, -, -, -, -, -, hnode, -, hlength, -⟩
  rcases at_flatRoot hv with ⟨-, rfl⟩ | ⟨e, he, -, rfl⟩
  · cases hnode
  · have := hshort e he content (Option.some.inj hnode)
    omega

theorem not_specialLinked_flat (h : WellFormed es) (hfile : ∀ e ∈ es, e.tree.2.fileInode ≠ none)
    (p q : Path) : ¬ (flatTree es h).SpecialLinked p q := by
  rintro ⟨u, v, i, hu, -, hui, -, hnone⟩
  rcases at_flatRoot hu with ⟨-, rfl⟩ | ⟨e, he, -, rfl⟩
  · cases hui
  · exact hfile e he hnone

def twoLinks : SourceTree :=
  flatTree [⟨nameA, (0, 1), 2, .file [7]⟩, ⟨nameB, (0, 1), 2, .file [7]⟩] (by decide +kernel)

def twoLinksListedBackwards : SourceTree :=
  flatTree [⟨nameB, (0, 9), 2, .file [7]⟩, ⟨nameA, (0, 9), 2, .file [7]⟩] (by decide +kernel)

/-- The order in which a directory lists its names and the numbers of its inodes do not count. -/
theorem listing_order_not_hashed : SameCopy true twoLinks twoLinksListedBackwards := by
  apply hash_identifies_tree true
  · exact not_confuses_flat _ (by simp)
  · exact not_confuses_flat _ (by simp)
  · intro p q
    have hA : ¬ twoLinks.SpecialLinked p q := not_specialLinked_flat _ (by simp [Flat.tree, fileInode]) p q
    have hB : ¬ twoLinksListedBackwards.SpecialLinked p q :=
      not_specialLinked_flat _ (by simp [Flat.tree, fileInode]) p q
    exact ⟨fun h => absurd h hA, fun h => absurd h hB⟩
  · decide +kernel

theorem linked_flat (h : WellFormed es) {e e' : Flat} (he : e ∈ es) (he' : e' ∈ es) :
    (flatTree es h).Linked [e.name] [e'.name] ↔ e.inode = e'.inode := by
  have hat : ∀ f ∈ es, At [f.name] (flatTree es h).root f.tree.2 :=
    fun f hf => ⟨f.tree.2, mem_map.mpr ⟨f, hf, rfl⟩, rfl⟩
  constructor
  · rintro ⟨u, v, i, hu, hv, hui, hvi⟩
    cases (flatTree es h).distinct.unique hu (hat e he)
    cases (flatTree es h).distinct.unique hv (hat e' he')
    exact Option.some.inj (hui.trans hvi.symm)
  · exact fun heq => ⟨_, _, e.inode, hat e he, hat e' he', rfl, congrArg some heq.symm⟩

def filler : Bytes := List.replicate 328 0

def entryOfC (length : ℕ) : Bytes := header false nameC.bytes 0x66 fileMetadata ++ littleEndian 8 length

def linkTree : SourceTree :=
  flatTree [⟨nameA, (0, 1), 2, .file []⟩, ⟨nameB, (0, 1), 2, .file []⟩,
    ⟨nameC, (0, 2), 1, .file (filler ++ entryOfC 0)⟩]
    (by decide +kernel)

def contentTree : SourceTree :=
  flatTree [⟨nameA, (0, 1), 1, .file []⟩, ⟨nameB, (0, 3), 1, .file (0 :: 0x61 :: entryOfC 358 ++ filler)⟩,
    ⟨nameC, (0, 2), 1, .file []⟩] (by decide +kernel)

def linkedSymlinks : SourceTree :=
  flatTree [⟨nameA, (0, 1), 2, .symlink [0x78]⟩, ⟨nameB, (0, 1), 2, .symlink [0x78]⟩] (by decide +kernel)

def separateSymlinks : SourceTree :=
  flatTree [⟨nameA, (0, 1), 1, .symlink [0x78]⟩, ⟨nameB, (0, 2), 1, .symlink [0x78]⟩] (by decide +kernel)

/-- A link reads like contents, and links of symlinks are not hashed. -/
theorem hash_of_two_trees :
    (hashTreeWith false linkTree.root = hashTreeWith false contentTree.root ∧ ¬ SameCopy false linkTree contentTree) ∧
      hashTreeWith false linkedSymlinks.root = hashTreeWith false separateSymlinks.root ∧
      ¬ SameCopy false linkedSymlinks separateSymlinks := by
  refine ⟨⟨by decide +kernel, fun h => ?_⟩, by decide +kernel, fun h => ?_⟩
  · have hlinked : linkTree.Linked [nameA] [nameB] :=
      (linked_flat _ mem_cons_self (mem_cons_of_mem _ mem_cons_self)).mpr rfl
    have hother := (h.linked [nameA] [nameB]).mp hlinked
    have heq := (linked_flat _ mem_cons_self (mem_cons_of_mem _ mem_cons_self)).mp hother
    exact absurd heq (by decide)
  · have hlinked : linkedSymlinks.Linked [nameA] [nameB] :=
      (linked_flat _ mem_cons_self (mem_cons_of_mem _ mem_cons_self)).mpr rfl
    have hother := (h.linked [nameA] [nameB]).mp hlinked
    have heq := (linked_flat _ mem_cons_self (mem_cons_of_mem _ mem_cons_self)).mp hother
    exact absurd heq (by decide)

end Fcvm.DiskDir
