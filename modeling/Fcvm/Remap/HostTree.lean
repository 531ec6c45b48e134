import Fcvm.Library.NameTree
import Fcvm.Library.Segments
import Fcvm.Remap.HandleChain

namespace Fcvm.Remap

open Library List

/-- A file or directory of the host. Its inode number may be used again for another object once it is gone. -/
structure Object where
  id : ℕ
  ino : ℕ
  dir : Bool
  deriving DecidableEq

def Object.IsDir (o : Object) : Prop := o.dir = true

def GoodName (name : Bytes) : Prop := name ≠ [] ∧ slash ∉ name ∧ name ≠ RemapFs.dot ∧ name ≠ RemapFs.dotdot

structure HostTree extends NameTree Bytes Object.IsDir Object.ino where
  rootIno : ∀ o, node [] = some o → o.ino = 1
  goodName : ∀ p n o, node (p ++ [n]) = some o → GoodName n

namespace HostTree

def DirAt (t : HostTree) (p : List Bytes) (ino : ℕ) : Prop := ∃ d, t.node p = some d ∧ d.IsDir ∧ d.ino = ino

def Linked (t : HostTree) (o : Object) : Prop := ∃ p, t.node p = some o

theorem DirAt.unique {t : HostTree} {p q : List Bytes} {o : Object} {i : ℕ} (h : t.DirAt p i) (ho : t.node q = some o)
    (hi : o.ino = i) : p = q ∧ o.IsDir := by
  obtain ⟨d, hd, hdir, hdi⟩ := h
  have heq : d = o := t.numbered p q d o hd ho (hdi.trans hi.symm)
  subst heq
  exact ⟨t.alone p q d hd ho hdir, hdir⟩

end HostTree

namespace VolumeRequest

def touchesTree : VolumeRequest → Bool
  | .lookup .. | .mkdir .. | .mknod .. | .symlink .. | .create .. | .link .. | .rename .. | .unlink .. | .rmdir ..
  | .readdir .. | .readdirplus .. => true
  | _ => false

def MakesEntry (req : VolumeRequest) (parent : ℕ) (name : Bytes) : Prop :=
  req = .mkdir parent name ∨ req = .mknod parent name ∨ req = .symlink parent name

end VolumeRequest

def VolumeResponse.givesInodes : VolumeResponse → Bool
  | .entry .. | .created .. | .dirEntriesPlus .. => true
  | _ => false

def listed (t : HostTree) (p : List Bytes) (name : Bytes) (ino : ℕ) : Prop :=
  name = RemapFs.dot ∨ name = RemapFs.dotdot ∨ ∃ o, t.node (p ++ [name]) = some o ∧ o.ino = ino

/-- The answers of a server over a tree, and the tree after them. An error leaves the tree as it is. -/
inductive Answers (t t' : HostTree) : VolumeRequest → VolumeResponse → Prop
  | error {req : VolumeRequest} {e : ℕ} (ht : t'.node = t.node) : Answers t t' req (.error e)
  | lookup {parent : ℕ} {name : Bytes} {p : List Bytes} {o : Object} (hp : t.DirAt p parent)
    (ho : t.node (p ++ [name]) = some o) (ht : t'.node = t.node) :
    Answers t t' (.lookup parent name) (.entry ⟨o.ino⟩)
  | made {req : VolumeRequest} {parent : ℕ} {name : Bytes} {p : List Bytes} {o : Object}
    (hreq : req.MakesEntry parent name) (hp : t.DirAt p parent) (hfree : t.node (p ++ [name]) = none)
    (ht : t'.node = Function.update t.node (p ++ [name]) (some o)) : Answers t t' req (.entry ⟨o.ino⟩)
  | created {parent fh : ℕ} {name : Bytes} {p : List Bytes} {o : Object} (hp : t.DirAt p parent)
    (hfree : t.node (p ++ [name]) = none) (ht : t'.node = Function.update t.node (p ++ [name]) (some o)) :
    Answers t t' (.create parent name) (.created ⟨o.ino⟩ fh)
  | opened {parent fh : ℕ} {name : Bytes} {p : List Bytes} {o : Object} (hp : t.DirAt p parent)
    (ho : t.node (p ++ [name]) = some o) (ht : t'.node = t.node) :
    Answers t t' (.create parent name) (.created ⟨o.ino⟩ fh)
  | link {newparent : ℕ} {newname : Bytes} {p q : List Bytes} {o : Object} (hq : t.node q = some o)
    (hfile : ¬o.IsDir) (hp : t.DirAt p newparent) (hfree : t.node (p ++ [newname]) = none)
    (ht : t'.node = Function.update t.node (p ++ [newname]) (some o)) :
    Answers t t' (.link o.ino newparent newname) (.entry ⟨o.ino⟩)
  | rename {parent newparent flags : ℕ} {name newname : Bytes} {p q : List Bytes} {o : Object}
    (hflags : RemapFs.isExchange flags = false) (hp : t.DirAt p parent) (hq : t.DirAt q newparent)
    (ho : t.node (p ++ [name]) = some o) (hbelow : ¬p ++ [name] <+: q ++ [newname])
    (hempty : ∀ n, t.node (q ++ [newname] ++ [n]) = none) (hother : t.node (q ++ [newname]) ≠ some o)
    (ht : t'.node = moveNode t.node (p ++ [name]) (q ++ [newname])) :
    Answers t t' (.rename parent name newparent newname flags) .ok
  -- two names of one object, or one name: nothing to do
  | renameSame {parent newparent flags : ℕ} {name newname : Bytes} {p q : List Bytes} {o : Object}
    (hp : t.DirAt p parent) (hq : t.DirAt q newparent) (ho : t.node (p ++ [name]) = some o)
    (ho' : t.node (q ++ [newname]) = some o) (ht : t'.node = t.node) :
    Answers t t' (.rename parent name newparent newname flags) .ok
  | exchange {parent newparent flags : ℕ} {name newname : Bytes} {p q : List Bytes} {o o' : Object}
    (hflags : RemapFs.isExchange flags = true) (hp : t.DirAt p parent) (hq : t.DirAt q newparent)
    (ho : t.node (p ++ [name]) = some o) (ho' : t.node (q ++ [newname]) = some o')
    (hbelow : ¬p ++ [name] <+: q ++ [newname]) (habove : ¬q ++ [newname] <+: p ++ [name])
    (ht : t'.node = swapNode t.node (p ++ [name]) (q ++ [newname])) :
    Answers t t' (.rename parent name newparent newname flags) .ok
  | unlink {parent : ℕ} {name : Bytes} {p : List Bytes} {o : Object} (hp : t.DirAt p parent)
    (ho : t.node (p ++ [name]) = some o) (hfile : ¬o.IsDir)
    (ht : t'.node = Function.update t.node (p ++ [name]) none) : Answers t t' (.unlink parent name) .ok
  | rmdir {parent : ℕ} {name : Bytes} {p : List Bytes} {o : Object} (hp : t.DirAt p parent)
    (ho : t.node (p ++ [name]) = some o) (hdir : o.IsDir) (hempty : ∀ n, t.node (p ++ [name] ++ [n]) = none)
    (ht : t'.node = Function.update t.node (p ++ [name]) none) : Answers t t' (.rmdir parent name) .ok
  | readdir {ino : ℕ} {p : List Bytes} {entries : List DirEntry} (hp : t.DirAt p ino)
    (hentries : ∀ e ∈ entries, listed t p e.name e.ino) (ht : t'.node = t.node) :
    Answers t t' (.readdir ino) (.dirEntries entries)
  | readdirplus {ino fh : ℕ} {p : List Bytes} {entries : List DirEntryPlus} (hp : t.DirAt p ino)
    (hentries : ∀ e ∈ entries, listed t p e.name e.attr.ino) (ht : t'.node = t.node) :
    Answers t t' (.readdirplus ino fh) (.dirEntriesPlus entries)
  -- a directory that was removed while it was open
  | goneReaddir {ino : ℕ} {entries : List DirEntry}
    (hentries : ∀ e ∈ entries, e.name = RemapFs.dot ∨ e.name = RemapFs.dotdot) (ht : t'.node = t.node) :
    Answers t t' (.readdir ino) (.dirEntries entries)
  | goneReaddirplus {ino fh : ℕ} {entries : List DirEntryPlus}
    (hentries : ∀ e ∈ entries, e.name = RemapFs.dot ∨ e.name = RemapFs.dotdot) (ht : t'.node = t.node) :
    Answers t t' (.readdirplus ino fh) (.dirEntriesPlus entries)
  | other {req : VolumeRequest} {resp : VolumeResponse} (hreq : req.touchesTree = false)
    (hresp : resp.givesInodes = false) (ht : t'.node = t.node) : Answers t t' req resp

class TreeShaped (T : Type) [FilesystemHandler T] where
  tree : T → HostTree
  answers : ∀ (t : T) (req : VolumeRequest) (groups : List ℕ),
    Answers (tree t) (tree (FilesystemHandler.handleRequestWithGroups t req groups).2) req
      (FilesystemHandler.handleRequestWithGroups t req groups).1
  answersLookup : ∀ (t : T) (parent : ℕ) (name : Bytes),
    Answers (tree t) (tree (handleRequest t (.lookup parent name)).2) (.lookup parent name)
      (handleRequest t (.lookup parent name)).1
  -- the lookups of a restore fail only where there is nothing; those of the guest may fail anywhere
  noEntry : ∀ (t : T) (parent : ℕ) (name : Bytes) (p : List Bytes), (tree t).DirAt p parent →
    (handleRequest t (.lookup parent name)).1.isError = true → (tree t).node (p ++ [name]) = none

export TreeShaped (tree)

variable {T : Type} [FilesystemHandler T] [TreeShaped T]

instance : TreeShaped (Recorded T) where
  tree t := tree t.handler
  answers t := TreeShaped.answers t.handler
  answersLookup t := TreeShaped.answersLookup t.handler
  noEntry t := TreeShaped.noEntry t.handler

namespace RemapFs

theorem walk_tree (inner : T) {p : List Bytes} {o : Object} (ho : (tree inner).node p = some o) (names : List Bytes) :
    (walk inner o.ino names).1 = ((tree inner).node (p ++ names)).map Object.ino ∧
      (tree (walk inner o.ino names).2).node = (tree inner).node := by
  induction names generalizing inner p o with
  | nil =>
    rw [append_nil, ho]
    exact ⟨rfl, rfl⟩
  | cons name names ih =>
    have hans := TreeShaped.answersLookup inner o.ino name
    have hno := TreeShaped.noEntry inner o.ino name p
    unfold walk
    generalize handleRequest inner (.lookup o.ino name) = answer at hans hno ⊢
    obtain ⟨resp, inner'⟩ := answer
    dsimp only at hans hno ⊢
    cases hans with
    | error ht =>
      refine ⟨?_, ht⟩
      have hnone : (tree inner).node (p ++ [name]) = none := by
        by_cases hdir : o.IsDir
        · exact hno ⟨o, ho, hdir, rfl⟩ rfl
        · exact (tree inner).none_below_file ho hdir name
      rw [append_cons, (tree inner).none_below hnone]
      rfl
    | @lookup _ _ q o' hq ho' ht =>
      obtain ⟨rfl, _⟩ := hq.unique ho rfl
      rw [← ht] at ho'
      obtain ⟨hfound, htree⟩ := ih inner' ho'
      refine ⟨?_, htree.trans ht⟩
      rw [append_cons, ← ht]
      exact hfound
    | made hreq => rcases hreq with h | h | h <;> cases h
    | other hreq => cases hreq

theorem restoreEntry_tree {fs : RemapFs T} {r : Object} (hroot : (tree fs.inner).node [] = some r)
    (entry : ℕ × Bytes) :
    (tree (restoreEntry fs entry).inner).node = (tree fs.inner).node ∧
      (∀ n, n ≠ entry.1 ∨ entry.2 = [] → (restoreEntry fs entry).toInner n = fs.toInner n) ∧
      (entry.2 ≠ [] → (restoreEntry fs entry).toInner entry.1 =
        (((tree fs.inner).node (segments slash entry.2)).map Object.ino).or (fs.toInner entry.1)) := by
  unfold restoreEntry
  split
  · next hempty => exact ⟨rfl, fun _ _ => rfl, fun hne => absurd hempty hne⟩
  · next hne =>
    obtain ⟨hfound, htree⟩ := walk_tree fs.inner hroot (entry.2.splitOn slash)
    rw [(tree fs.inner).rootIno r hroot, nil_append, ← segments_of_ne hne] at hfound
    rw [(tree fs.inner).rootIno r hroot] at htree
    rw [segments_of_ne hne] at hfound ⊢
    generalize walk fs.inner 1 (entry.2.splitOn slash) = walked at hfound htree
    obtain ⟨found, inner⟩ := walked
    dsimp only at hfound htree
    rw [← hfound]
    cases found with
    | none => exact ⟨htree, fun _ _ => rfl, fun _ => rfl⟩
    | some current =>
      refine ⟨htree, fun n hn => ?_, fun _ => AList.lookup_insert _⟩
      exact AList.lookup_insert_ne (hn.resolve_right hne)

theorem foldl_restoreEntry_toInner {fs : RemapFs T} {r : Object} (hroot : (tree fs.inner).node [] = some r)
    {table : List (ℕ × Bytes)} (hkeys : (table.map Prod.fst).Nodup) (n : ℕ) :
    ((∀ b, (n, b) ∈ table → b = []) → (table.foldl restoreEntry fs).toInner n = fs.toInner n) ∧
      ∀ b, (n, b) ∈ table → b ≠ [] → (table.foldl restoreEntry fs).toInner n =
        (((tree fs.inner).node (segments slash b)).map Object.ino).or (fs.toInner n) := by
  induction table generalizing fs with
  | nil => exact ⟨fun _ => rfl, nofun⟩
  | cons entry table ih =>
    rw [map_cons, nodup_cons] at hkeys
    obtain ⟨htree, hother, hself⟩ := restoreEntry_tree hroot entry
    obtain ⟨ihnone, ihsome⟩ := @ih (restoreEntry fs entry) (by rw [htree]; exact hroot) hkeys.2
    rw [foldl_cons]
    constructor
    · intro hempty
      rw [ihnone fun b hb => hempty b (mem_cons_of_mem _ hb)]
      apply hother
      by_cases hn : n = entry.1
      · exact .inr (hempty entry.2 (hn ▸ mem_cons_self))
      · exact .inl hn
    · intro b hb hne
      rcases mem_cons.mp hb with heq | hb
      · have hrest : ∀ b', (n, b') ∈ table → b' = [] := by
          intro b' hb'
          refine absurd ?_ hkeys.1
          rw [← heq]
          exact mem_map.mpr ⟨_, hb', rfl⟩
        rw [ihnone hrest]
        subst heq
        exact hself hne
      · rw [ihsome b hb hne, htree, hother n (.inl ?_)]
        rintro rfl
        exact hkeys.1 (mem_map.mpr ⟨_, hb, rfl⟩)

omit [FilesystemHandler T] [TreeShaped T] in
theorem mem_table {fs : RemapFs T} {n : ℕ} {b : Bytes} : (n, b) ∈ fs.table ↔ fs.paths.lookup n = some b := by
  unfold table
  rw [mem_insertionSort, mem_map]
  constructor
  · rintro ⟨⟨n', b'⟩, hmem, heq⟩
    cases heq
    exact AList.mem_lookup_iff.mpr hmem
  · exact fun h => ⟨⟨n, b⟩, AList.mem_lookup_iff.mp h, rfl⟩

theorem restore_toInner {J : Json} (hJ : J.Lawful) (fs : RemapFs (Recorded T)) (inner : T)
    (hle : max fs.maxGuestHandle fs.handleBase ≤ MAX_HANDLE_BASE) (n : ℕ) :
    ((∀ b, fs.paths.lookup n = some b → b = []) →
      (restoreFromTable J inner (fs.serializeTable J)).toInner n = if n = 1 then some 1 else none) ∧
    ∀ b, fs.paths.lookup n = some b → b ≠ [] →
      (restoreFromTable J inner (fs.serializeTable J)).toInner n =
        (((tree inner).node (segments slash b)).map Object.ino).or (if n = 1 then some 1 else none) := by
  have hkeys : (fs.table.map Prod.fst).Nodup := by
    rw [List.Nodup, pairwise_map]
    exact fs.table_ordered.imp fun h => Nat.ne_of_lt h
  obtain ⟨r, hr, _⟩ := (tree (new inner).inner).root
  have hnew : (new inner).toInner n = if n = 1 then some 1 else none := by
    unfold toInner new
    split
    · next h => rw [h]; rfl
    · next h => exact AList.lookup_insert_ne h
  have hrestore : (restoreFromTable J inner (fs.serializeTable J)).toInner n =
      (fs.table.foldl restoreEntry (new inner)).toInner n := by
    unfold restoreFromTable
    rw [parseTable_serializeTable hJ fs hle]
    rfl
  obtain ⟨hnone, hsome⟩ := foldl_restoreEntry_toInner hr hkeys n
  rw [hrestore, ← hnew]
  exact ⟨fun h => hnone fun b hb => h b (mem_table.mp hb), fun b hb => hsome b (mem_table.mpr hb)⟩

end RemapFs

end Fcvm.Remap
