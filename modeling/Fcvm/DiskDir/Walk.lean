import Mathlib.Data.List.Induction
import Fcvm.DiskDir.Tree

namespace Fcvm.DiskDir

open Library List

abbrev Path := List Name

def joined (path : Path) : Bytes := path.foldl join []

@[simp]
theorem joined_nil : joined [] = [] := rfl

@[simp]
theorem joined_append (path : Path) (name : Name) : joined (path ++ [name]) = join (joined path) name := by
  simp [joined]

theorem joined_ne_nil (path : Path) (name : Name) : joined (path ++ [name]) ≠ [] := by
  rw [joined_append]
  unfold join
  split
  · exact name.nonempty
  · exact append_ne_nil_of_right_ne_nil _ (cons_ne_nil _ _)

theorem Name.ext_bytes {n m : Name} (h : n.bytes = m.bytes) : n = m := by
  cases n
  cases m
  cases h
  rfl

theorem join_inj {r r' : Bytes} {n n' : Name} (h : join r n = join r' n') : r = r' ∧ n = n' := by
  unfold join at h
  split at h
  · next hr =>
    split at h
    · next hr' => exact ⟨hr.trans hr'.symm, Name.ext_bytes h⟩
    · exact absurd (h ▸ mem_append_right _ mem_cons_self) n.plain
  · split at h
    · exact absurd (h ▸ mem_append_right _ mem_cons_self) n'.plain
    · obtain ⟨hr, hn⟩ := append_cons_inj n.plain n'.plain h
      exact ⟨hr, Name.ext_bytes hn⟩

theorem joined_injective : Function.Injective joined := by
  intro p q h
  induction p using reverseRecOn generalizing q with
  | nil =>
    cases q using reverseRecOn with
    | nil => rfl
    | append_singleton q m => exact absurd h.symm (joined_ne_nil q m)
  | append_singleton p n ih =>
    cases q using reverseRecOn with
    | nil => exact absurd h (joined_ne_nil p n)
    | append_singleton q m =>
      rw [joined_append, joined_append] at h
      obtain ⟨hpq, rfl⟩ := join_inj h
      rw [ih hpq]

namespace Tree

def At : Path → Tree → Tree → Prop
  | [], t, u => u = t
  | name :: path, dir _ entries, u => ∃ t, (name, t) ∈ entries ∧ At path t u
  | _ :: _, leaf _ _ _ _, _ => False

mutual

def nodes (path : Path) : Tree → List (Path × Tree)
  | leaf inode nlink md node => [(path, leaf inode nlink md node)]
  | dir md entries => (path, dir md entries) :: nodesOf path entries

def nodesOf (path : Path) : List (Name × Tree) → List (Path × Tree)
  | [] => []
  | (name, t) :: entries => nodes (path ++ [name]) t ++ nodesOf path entries

end

mutual

theorem mem_nodes (path : Path) :
    (t : Tree) → ∀ x : Path × Tree, x ∈ t.nodes path ↔ ∃ rest, x.1 = path ++ rest ∧ At rest t x.2
  | leaf inode nlink md node => by
    intro x
    simp only [nodes, mem_singleton]
    constructor
    · rintro rfl
      exact ⟨[], by simp, rfl⟩
    · rintro ⟨rest, hpath, hat⟩
      cases rest with
      | nil => exact Prod.ext (by simpa using hpath) hat
      | cons name rest => exact hat.elim
  | dir md entries => by
    intro x
    simp only [nodes, mem_cons, mem_nodesOf path entries]
    constructor
    · rintro (rfl | ⟨name, t, rest, hmem, hpath, hat⟩)
      · exact ⟨[], by simp, rfl⟩
      · exact ⟨name :: rest, hpath, t, hmem, hat⟩
    · rintro ⟨rest, hpath, hat⟩
      cases rest with
      | nil => exact .inl (Prod.ext (by simpa using hpath) hat)
      | cons name rest =>
        obtain ⟨t, hmem, hat⟩ := hat
        exact .inr ⟨name, t, rest, hmem, hpath, hat⟩

theorem mem_nodesOf (path : Path) : (entries : List (Name × Tree)) → ∀ x : Path × Tree,
    x ∈ nodesOf path entries ↔ ∃ name t rest, (name, t) ∈ entries ∧ x.1 = path ++ name :: rest ∧ At rest t x.2
  | [] => by simp [nodesOf]
  | (name, t) :: entries => by
    intro x
    simp only [nodesOf, mem_append, mem_nodes (path ++ [name]) t, mem_nodesOf path entries]
    constructor
    · rintro (⟨rest, hpath, hat⟩ | ⟨name', t', rest, hmem, hpath, hat⟩)
      · exact ⟨name, t, rest, mem_cons_self, by simpa using hpath, hat⟩
      · exact ⟨name', t', rest, mem_cons_of_mem _ hmem, hpath, hat⟩
    · rintro ⟨name', t', rest, hmem, hpath, hat⟩
      rcases mem_cons.mp hmem with heq | hmem
      · cases heq
        exact .inl ⟨rest, by simpa using hpath, hat⟩
      · exact .inr ⟨name', t', rest, hmem, hpath, hat⟩

end

theorem mem_sortedEntries {entries : List (Name × Tree)} {name : Name} {u : Tree} :
    (name, u) ∈ sortedEntries entries ↔ ∃ t, (name, t) ∈ entries ∧ u = t.sorted := by
  induction entries with
  | nil => simp [sortedEntries]
  | cons e entries ih =>
    obtain ⟨name', t⟩ := e
    simp only [sortedEntries, mem_cons, ih, Prod.mk.injEq]
    constructor
    · rintro (⟨rfl, rfl⟩ | ⟨t', hmem, rfl⟩)
      · exact ⟨t, .inl ⟨rfl, rfl⟩, rfl⟩
      · exact ⟨t', .inr hmem, rfl⟩
    · rintro ⟨t', ⟨rfl, rfl⟩ | hmem, rfl⟩
      · exact .inl ⟨rfl, rfl⟩
      · exact .inr ⟨t', hmem, rfl⟩

theorem map_fst_sortedEntries (entries : List (Name × Tree)) :
    (sortedEntries entries).map Prod.fst = entries.map Prod.fst := by
  induction entries with
  | nil => rfl
  | cons e entries ih =>
    obtain ⟨name, t⟩ := e
    simp [sortedEntries, ih]

theorem at_sorted {path : Path} {t v : Tree} : At path t.sorted v ↔ ∃ u, At path t u ∧ v = u.sorted := by
  induction path generalizing t with
  | nil =>
    constructor
    · rintro rfl
      exact ⟨t, rfl, rfl⟩
    · rintro ⟨u, rfl, rfl⟩
      rfl
  | cons name path ih =>
    cases t with
    | leaf inode nlink md node => simp [sorted, At]
    | dir md entries =>
      simp only [sorted, At, mem_insertionSort, mem_sortedEntries]
      constructor
      · rintro ⟨_, ⟨t, hmem, rfl⟩, hat⟩
        obtain ⟨u, hu, rfl⟩ := ih.mp hat
        exact ⟨u, ⟨t, hmem, hu⟩, rfl⟩
      · rintro ⟨u, ⟨t, hmem, hat⟩, rfl⟩
        exact ⟨_, ⟨t, hmem, rfl⟩, ih.mpr ⟨u, hat, rfl⟩⟩

def Distinct (t : Tree) : Prop := ∀ path md entries, At path t (dir md entries) → (entries.map Prod.fst).Nodup

mutual

theorem nodup_nodes (path : Path) : (t : Tree) → t.Distinct → ((t.nodes path).map Prod.fst).Nodup
  | leaf inode nlink md node => by simp [nodes]
  | dir md entries => by
    intro h
    have hnames : (entries.map Prod.fst).Nodup := h [] md entries rfl
    have hbelow : ∀ e ∈ entries, e.2.Distinct :=
      fun e he rest md' entries' hat => h (e.1 :: rest) md' entries' ⟨e.2, he, hat⟩
    simp only [nodes, map_cons, nodup_cons]
    refine ⟨?_, nodup_nodesOf path entries hnames hbelow⟩
    intro hmem
    obtain ⟨x, hx, hpath⟩ := mem_map.mp hmem
    obtain ⟨name, t, rest, -, hpath', -⟩ := (mem_nodesOf path entries x).mp hx
    have hlength := congrArg length (hpath.symm.trans hpath')
    simp at hlength

theorem nodup_nodesOf (path : Path) : (entries : List (Name × Tree)) → (entries.map Prod.fst).Nodup →
    (∀ e ∈ entries, e.2.Distinct) → ((nodesOf path entries).map Prod.fst).Nodup
  | [] => by simp [nodesOf]
  | (name, t) :: entries => by
    intro hnames hbelow
    obtain ⟨hname, hnames⟩ := nodup_cons.mp hnames
    simp only [nodesOf, map_append]
    refine List.Nodup.append (nodup_nodes (path ++ [name]) t (hbelow (name, t) mem_cons_self))
      (nodup_nodesOf path entries hnames (fun e he => hbelow e (mem_cons_of_mem _ he))) ?_
    intro q hq hq'
    obtain ⟨x, hx, rfl⟩ := mem_map.mp hq
    obtain ⟨y, hy, hxy⟩ := mem_map.mp hq'
    obtain ⟨rest, hpath, -⟩ := (mem_nodes (path ++ [name]) t x).mp hx
    obtain ⟨name', t', rest', hmem, hpath', -⟩ := (mem_nodesOf path entries y).mp hy
    have heq : path ++ name' :: rest' = path ++ name :: rest := by
      rw [← hpath', hxy, hpath]
      simp
    cases append_cancel_left heq
    exact hname (mem_map.mpr ⟨_, hmem, rfl⟩)

end

def fileInode : Tree → Option Inode
  | leaf inode _ _ (.file _) => some inode
  | _ => none

def nlinks : Tree → ℕ
  | leaf _ nlink _ _ => nlink
  | dir _ _ => 0

end Tree

open DiskDir.Tree

def firstMet (xs : List (Path × Tree)) (i : Inode) : Option Path :=
  (xs.find? fun x => x.2.fileInode = some i).map Prod.fst

inductive Body where
  | link (first : Bytes)
  | content (bytes : Bytes)
  | target (bytes : Bytes)
  | device (rdev : UInt64)
  | children (count : ℕ)
  | nothing
  deriving DecidableEq

structure Entry where
  relative : Bytes
  kind : UInt8
  mode : UInt32
  owners : Option (UInt32 × UInt32)
  xattrs : List (Bytes × Bytes)
  body : Body
  deriving DecidableEq

def Body.encode : Body → Bytes
  | .link first => 0x68 :: lengthPrefixed first
  | .content bytes => lengthPrefixed bytes
  | .target bytes => lengthPrefixed bytes
  | .device rdev => littleEndian 8 rdev.toNat
  | .children count => littleEndian 8 count
  | .nothing => []

def encodeOwners : Option (UInt32 × UInt32) → Bytes
  | none => []
  | some (uid, gid) => littleEndian 4 uid.toNat ++ littleEndian 4 gid.toNat

def Entry.encode (e : Entry) : Bytes :=
  lengthPrefixed e.relative ++ [e.kind] ++ littleEndian 4 e.mode.toNat ++ encodeOwners e.owners ++
    littleEndian 8 e.xattrs.length ++ (e.xattrs.flatMap fun x => lengthPrefixed x.1 ++ lengthPrefixed x.2) ++
      e.body.encode

namespace Tree

def kind : Tree → UInt8
  | leaf _ _ _ node => node.kind
  | dir _ _ => dirKind

def metadata : Tree → Metadata
  | leaf _ _ md _ => md
  | dir md _ => md

def body (met : Option Bytes) : Tree → Body
  | leaf _ _ _ (.file content) =>
    match met with
    | some first => .link first
    | none => .content content
  | leaf _ _ _ (.symlink target) => .target target
  | leaf _ _ _ (.block rdev) => .device rdev
  | leaf _ _ _ (.char rdev) => .device rdev
  | leaf _ _ _ _ => .nothing
  | dir _ entries => .children entries.length

end Tree

variable (keepOwners : Bool)

def owners (md : Metadata) : Option (UInt32 × UInt32) :=
  if keepOwners then some (md.uid, md.gid) else none

def entryOf (met : Option Bytes) (x : Path × Tree) : Entry where
  relative := joined x.1
  kind := x.2.kind
  mode := x.2.metadata.mode &&& 0o7777
  owners := owners keepOwners x.2.metadata
  xattrs := carried keepOwners x.2.metadata
  body := x.2.body met

def metAt (pre : List (Path × Tree)) (x : Path × Tree) : Option Bytes :=
  (x.2.fileInode.bind (firstMet pre)).map joined

def entries (keepOwners : Bool) (pre : List (Path × Tree)) : List (Path × Tree) → List Entry
  | [] => []
  | x :: xs => entryOf keepOwners (metAt pre x) x :: entries keepOwners (pre ++ [x]) xs

theorem entries_append (pre xs ys : List (Path × Tree)) :
    entries keepOwners pre (xs ++ ys) = entries keepOwners pre xs ++ entries keepOwners (pre ++ xs) ys := by
  induction xs generalizing pre with
  | nil => simp [entries]
  | cons x xs ih => simp [entries, ih]

theorem header_append_body (met : Option Bytes) (path : Path) (t : Tree) :
    header keepOwners (joined path) t.kind t.metadata ++ (t.body met).encode =
      (entryOf keepOwners met (path, t)).encode := by
  cases keepOwners with
  | false | true => simp [header, Entry.encode, entryOf, owners, encodeOwners, hashBytes]

def Shares (x y : Path × Tree) : Prop :=
  ∀ i, x.2.fileInode = some i → y.2.fileInode = some i → 1 < x.2.nlinks ∧ 1 < y.2.nlinks

def Tracks (links : Links) (pre : List (Path × Tree)) : Prop :=
  ∀ i, links i = (pre.find? fun x => x.2.fileInode = some i ∧ 1 < x.2.nlinks).map fun x => joined x.1

section Hash

variable {keepOwners : Bool} {links : Links} {pre : List (Path × Tree)} {path : Path}

variable {x : Path × Tree}

theorem Tracks.append_of_none (h : Tracks links pre) (hx : ∀ i, x.2.fileInode = some i → ¬ 1 < x.2.nlinks) :
    Tracks links (pre ++ [x]) := by
  intro i
  rw [h i, find?_append]
  have hnone : [x].find? (fun x => x.2.fileInode = some i ∧ 1 < x.2.nlinks) = none := by
    simpa using hx i
  rw [hnone, Option.or_none]

theorem find?_congr {α : Type} {p q : α → Bool} {xs : List α} (h : ∀ x ∈ xs, p x = q x) : xs.find? p = xs.find? q := by
  induction xs with
  | nil => rfl
  | cons x xs ih =>
    simp only [find?_cons, h x mem_cons_self]
    rw [ih fun y hy => h y (mem_cons_of_mem _ hy)]

theorem Tracks.met (h : Tracks links pre) {i : Inode} (hi : x.2.fileInode = some i)
    (hshares : ∀ y ∈ pre, Shares y x) : links i = metAt pre x := by
  have hsame : pre.find? (fun y => y.2.fileInode = some i ∧ 1 < y.2.nlinks) =
      pre.find? fun y => y.2.fileInode = some i := by
    apply find?_congr
    intro y hy
    rw [decide_eq_decide]
    exact ⟨fun h => h.1, fun h => ⟨h, (hshares y hy i h hi).1⟩⟩
  rw [h i, hsame, metAt, hi, Option.bind_some, firstMet, Option.map_map]
  rfl

theorem metAt_eq_none (hshares : ∀ y ∈ pre, Shares y x) (hlinks : ¬ 1 < x.2.nlinks) :
    metAt pre x = none := by
  cases hi : x.2.fileInode with
  | none => simp [metAt, hi]
  | some i =>
    have hnone : pre.find? (fun y => y.2.fileInode = some i) = none := by
      apply find?_eq_none.mpr
      intro y hy hyi
      exact hlinks (hshares y hy i (by simpa using hyi) hi).2
    simp [metAt, hi, firstMet, hnone]

theorem hashNode_eq {inode : Inode} {nlink : ℕ} {md : Metadata} {node : Node} (h : Tracks links pre)
    (hshares : ∀ y ∈ pre, Shares y (path, leaf inode nlink md node)) :
    (hashNode (joined path) inode nlink node links).1 =
        ((leaf inode nlink md node).body (metAt pre (path, leaf inode nlink md node))).encode ∧
      Tracks (hashNode (joined path) inode nlink node links).2 (pre ++ [(path, leaf inode nlink md node)]) := by
  cases node with
  | file content =>
    have hinode : (leaf inode nlink md (.file content)).fileInode = some inode := rfl
    have hmet : links inode = metAt pre (path, leaf inode nlink md (.file content)) := h.met hinode hshares
    unfold hashNode
    by_cases hlinks : 1 < nlink
    · cases hfirst : links inode with
      | some first =>
        rw [hfirst] at hmet
        refine ⟨?_, ?_⟩
        · simp [hlinks, ← hmet, Tree.body, Body.encode, hashBytes]
        · intro i
          rw [find?_append]
          by_cases hi : i = inode
          · subst hi
            have hsome : (pre.find? fun x => x.2.fileInode = some i ∧ 1 < x.2.nlinks).isSome := by
              rw [h i] at hfirst
              cases hfind : pre.find? (fun x => x.2.fileInode = some i ∧ 1 < x.2.nlinks) with
              | none =>
                rw [hfind] at hfirst
                cases hfirst
              | some y => rfl
            simp only [hlinks, Option.isSome_some, and_self, if_true]
            rw [Option.or_of_isSome hsome, ← h i]
          · have hnone : [(path, leaf inode nlink md (.file content))].find?
                (fun x => x.2.fileInode = some i ∧ 1 < x.2.nlinks) = none := by
              simp [fileInode, Ne.symm hi]
            simp only [hlinks, Option.isSome_some, and_self, if_true]
            rw [h i, hnone, Option.or_none]
      | none =>
        rw [hfirst] at hmet
        refine ⟨?_, ?_⟩
        · simp [hlinks, ← hmet, Tree.body, Body.encode, lengthPrefixed]
        · intro i
          simp only [hlinks, Option.isSome_none, and_false, Bool.false_eq_true, if_false, if_true]
          rw [find?_append]
          by_cases hi : i = inode
          · subst hi
            have hnone : pre.find? (fun x => x.2.fileInode = some i ∧ 1 < x.2.nlinks) = none := by
              rw [h i] at hfirst
              exact Option.map_eq_none_iff.mp hfirst
            rw [Function.update_self, hnone]
            simp [fileInode, nlinks, hlinks]
          · have hnone : [(path, leaf inode nlink md (.file content))].find?
                (fun x => x.2.fileInode = some i ∧ 1 < x.2.nlinks) = none := by
              simp [fileInode, Ne.symm hi]
            rw [Function.update_of_ne hi, h i, hnone, Option.or_none]
    · have hnone : metAt pre (path, leaf inode nlink md (.file content)) = none := metAt_eq_none hshares hlinks
      simp only [hlinks, false_and, if_false, hnone]
      exact ⟨rfl, h.append_of_none (fun _ _ => hlinks)⟩
  | symlink | block | char | fifo | socket | other => exact ⟨rfl, h.append_of_none (by rintro _ ⟨⟩)⟩

mutual

theorem hashEntry_eq (keepOwners : Bool) : (t : Tree) → ∀ (path : Path) (pre : List (Path × Tree)) (links : Links),
    Tracks links pre → (pre ++ t.nodes path).Pairwise Shares →
    (hashEntry keepOwners (joined path) t links).1 = (entries keepOwners pre (t.nodes path)).flatMap Entry.encode ∧
      Tracks (hashEntry keepOwners (joined path) t links).2 (pre ++ t.nodes path)
  | leaf inode nlink md node => by
    intro path pre links h hshares
    have hpre : ∀ y ∈ pre, Shares y (path, leaf inode nlink md node) :=
      fun y hy => (pairwise_append.mp hshares).2.2 y hy _ mem_cons_self
    obtain ⟨hbody, htracks⟩ := hashNode_eq h hpre
    refine ⟨?_, htracks⟩
    simp only [hashEntry, nodes, entries, flatMap_cons, flatMap_nil, append_nil]
    rw [hbody, ← header_append_body]
    rfl
  | dir md children => by
    intro path pre links h hshares
    have hnone : Tracks links (pre ++ [(path, dir md children)]) := h.append_of_none nofun
    have hrest : (pre ++ [(path, dir md children)] ++ nodesOf path children).Pairwise Shares := by
      simpa [nodes] using hshares
    obtain ⟨hbody, htracks⟩ := hashEntries_eq keepOwners children path _ links hnone hrest
    refine ⟨?_, by simpa [nodes, hashEntry] using htracks⟩
    simp only [hashEntry, nodes, entries, flatMap_cons, hbody]
    rw [← header_append_body]
    rfl

theorem hashEntries_eq (keepOwners : Bool) : (children : List (Name × Tree)) →
    ∀ (path : Path) (pre : List (Path × Tree)) (links : Links), Tracks links pre →
    (pre ++ nodesOf path children).Pairwise Shares →
    (hashEntries keepOwners (joined path) children links).1 =
        (entries keepOwners pre (nodesOf path children)).flatMap Entry.encode ∧
      Tracks (hashEntries keepOwners (joined path) children links).2 (pre ++ nodesOf path children)
  | [] => by
    intro path pre links h _
    simpa [hashEntries, nodesOf, entries] using h
  | (name, t) :: children => by
    intro path pre links h hshares
    simp only [nodesOf, ← append_assoc] at hshares
    obtain ⟨hfirst, htracks⟩ := hashEntry_eq keepOwners t (path ++ [name]) pre links h (pairwise_append.mp hshares).1
    obtain ⟨hrest, hlast⟩ := hashEntries_eq keepOwners children path _ _ htracks hshares
    rw [joined_append] at hfirst htracks hrest hlast
    simp only [hashEntries, nodesOf, entries_append, flatMap_append, hfirst, hrest]
    exact ⟨trivial, by simpa using hlast⟩

end

end Hash

end Fcvm.DiskDir
