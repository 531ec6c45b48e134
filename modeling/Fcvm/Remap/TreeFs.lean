import Fcvm.Remap.HostTree

namespace Fcvm.Remap

open Library List

def ENOENT : ℕ := 2
def EINVAL : ℕ := 22

instance (name : Bytes) : Decidable (GoodName name) := inferInstanceAs (Decidable (_ ∧ _ ∧ _ ∧ _))

instance (o : Object) : Decidable o.IsDir := inferInstanceAs (Decidable (_ = _))

abbrev Entries := List (List Bytes × Object)

structure Entries.Good (entries : Entries) : Prop where
  nodup : (entries.map Prod.fst).Nodup
  root : ∃ e ∈ entries, e.1 = [] ∧ e.2.IsDir ∧ e.2.ino = 1
  parent : ∀ e ∈ entries, e.1 ≠ [] → ∃ d ∈ entries, d.1 = e.1.dropLast ∧ d.2.IsDir
  names : ∀ e ∈ entries, ∀ name ∈ e.1.getLast?, GoodName name
  alone : ∀ e ∈ entries, ∀ e' ∈ entries, e.2 = e'.2 → e.2.IsDir → e.1 = e'.1
  numbered : ∀ e ∈ entries, ∀ e' ∈ entries, e.2.ino = e'.2.ino → e.2 = e'.2

instance (entries : Entries) : Decidable entries.Good :=
  decidable_of_iff ((entries.map Prod.fst).Nodup ∧ (∃ e ∈ entries, e.1 = [] ∧ e.2.IsDir ∧ e.2.ino = 1) ∧
    (∀ e ∈ entries, e.1 ≠ [] → ∃ d ∈ entries, d.1 = e.1.dropLast ∧ d.2.IsDir) ∧
    (∀ e ∈ entries, ∀ name ∈ e.1.getLast?, GoodName name) ∧
    (∀ e ∈ entries, ∀ e' ∈ entries, e.2 = e'.2 → e.2.IsDir → e.1 = e'.1) ∧
    (∀ e ∈ entries, ∀ e' ∈ entries, e.2.ino = e'.2.ino → e.2 = e'.2))
    ⟨fun ⟨h₁, h₂, h₃, h₄, h₅, h₆⟩ => ⟨h₁, h₂, h₃, h₄, h₅, h₆⟩, fun ⟨h₁, h₂, h₃, h₄, h₅, h₆⟩ => ⟨h₁, h₂, h₃, h₄, h₅, h₆⟩⟩

namespace Entries

variable (entries : Entries)

def node (p : List Bytes) : Option Object := (entries.find? fun e => e.1 = p).map Prod.snd

variable {entries : Entries} {p : List Bytes} {o : Object}

theorem mem_of_node (h : entries.node p = some o) : (p, o) ∈ entries := by
  obtain ⟨e, he, rfl⟩ := Option.map_eq_some_iff.mp h
  have hp := find?_some he
  rw [decide_eq_true_eq] at hp
  rw [← hp]
  exact mem_of_find?_eq_some he

theorem node_eq_some (hnodup : (entries.map Prod.fst).Nodup) : entries.node p = some o ↔ (p, o) ∈ entries := by
  refine ⟨mem_of_node, fun h => ?_⟩
  cases hnode : entries.node p with
  | some o' => rw [inj_on_of_nodup_map hnodup h (mem_of_node hnode) rfl |> Prod.mk.inj |>.2]
  | none =>
    have := find?_eq_none.mp (Option.map_eq_none_iff.mp hnode) _ h
    simp at this

theorem node_eq (hnodup : (entries.map Prod.fst).Nodup) {f : List Bytes → Option Object}
    (h : ∀ p o, (p, o) ∈ entries ↔ f p = some o) : entries.node = f := by
  funext p
  ext o
  rw [node_eq_some hnodup, h]

def tree (h : entries.Good) : HostTree where
  node := entries.node
  root := by
    obtain ⟨⟨_, o⟩, he, rfl, hdir, _⟩ := h.root
    exact ⟨o, (node_eq_some h.nodup).mpr he, hdir⟩
  parent p n o ho := by
    obtain ⟨⟨_, d⟩, hd, hp, hdir⟩ := h.parent _ (mem_of_node ho) (by simp)
    rw [dropLast_concat] at hp
    cases hp
    exact ⟨d, (node_eq_some h.nodup).mpr hd, hdir⟩
  alone p q o hp hq hdir := h.alone _ (mem_of_node hp) _ (mem_of_node hq) rfl hdir
  numbered p q o o' hp hq heq := h.numbered _ (mem_of_node hp) _ (mem_of_node hq) heq
  rootIno o ho := by
    obtain ⟨⟨_, r⟩, hr, rfl, _, hino⟩ := h.root
    cases ((node_eq_some h.nodup).mpr hr).symm.trans ho
    exact hino
  goodName p n o ho := h.names _ (mem_of_node ho) n (by simp)

def dirPath (ino : ℕ) : Option (List Bytes) :=
  (entries.find? fun e => e.2.IsDir ∧ e.2.ino = ino).map Prod.fst

theorem dirAt_of_dirPath (h : entries.Good) {ino : ℕ} (hp : entries.dirPath ino = some p) :
    (entries.tree h).DirAt p ino := by
  obtain ⟨⟨_, d⟩, he, rfl⟩ := Option.map_eq_some_iff.mp hp
  have hd := find?_some he
  rw [decide_eq_true_eq] at hd
  exact ⟨d, (node_eq_some h.nodup).mpr (mem_of_find?_eq_some he), hd⟩

theorem not_dirAt_of_dirPath (h : entries.Good) {ino : ℕ} (hp : entries.dirPath ino = none) (p : List Bytes) :
    ¬(entries.tree h).DirAt p ino := by
  rintro ⟨d, hd, hdir⟩
  have := find?_eq_none.mp (Option.map_eq_none_iff.mp hp) _ (mem_of_node hd)
  exact this (decide_eq_true hdir)

def fresh : ℕ := (entries.map fun e => e.2.ino).foldl max 0 + 1

def swapPath (a b p : List Bytes) : List Bytes :=
  if a <+: p then b ++ p.drop a.length else if b <+: p then a ++ p.drop b.length else p

def swapped (a b : List Bytes) : Entries := entries.map fun e => (swapPath a b e.1, e.2)

def moved (a b : List Bytes) : Entries :=
  (entries.filter fun e => ¬b <+: e.1).map fun e => (relocate a b e.1, e.2)

variable {a b : List Bytes}

theorem swapPath_swapPath (hab : ¬a <+: b) (hba : ¬b <+: a) (p : List Bytes) :
    swapPath a b (swapPath a b p) = p := by
  have hright : ∀ x, swapPath a b (b ++ x) = a ++ x := by
    intro x
    have hnot : ¬a <+: b ++ x := fun h =>
      ( prefix_or_prefix_of_prefix h (prefix_append b x)).elim hab hba
    rw [swapPath, if_neg hnot, if_pos (prefix_append b x), drop_left]
  have hleft : ∀ x, swapPath a b (a ++ x) = b ++ x := by
    intro x
    rw [swapPath, if_pos (prefix_append a x), drop_left]
  by_cases ha : a <+: p
  · obtain ⟨x, rfl⟩ := ha
    rw [hleft, hright]
  · by_cases hb : b <+: p
    · obtain ⟨x, rfl⟩ := hb
      rw [hright, hleft]
    · have hsame : swapPath a b p = p := by rw [swapPath, if_neg ha, if_neg hb]
      rw [hsame, hsame]

theorem node_swapped (h : entries.Good) (h' : (entries.swapped a b).Good) (hab : ¬a <+: b)
    (hba : ¬b <+: a) : (entries.swapped a b).node = swapNode entries.node a b := by
  apply node_eq h'.nodup
  intro p o
  have hswap : swapNode entries.node a b p = entries.node (swapPath a b p) := by
    unfold swapNode swapPath
    split
    · rfl
    · split <;> rfl
  rw [hswap, node_eq_some h.nodup, swapped, mem_map]
  constructor
  · rintro ⟨⟨q, o'⟩, hmem, heq⟩
    cases heq
    rwa [swapPath_swapPath hab hba]
  · intro hmem
    refine ⟨_, hmem, ?_⟩
    rw [swapPath_swapPath hab hba]

theorem node_moved (h : entries.Good) (h' : (entries.moved a b).Good) (hab : ¬a <+: b)
    (hba : ¬b <+: a) : (entries.moved a b).node = moveNode entries.node a b := by
  apply node_eq h'.nodup
  intro p o
  rw [moved, mem_map]
  constructor
  · rintro ⟨⟨q, o'⟩, hmem, heq⟩
    cases heq
    rw [mem_filter, decide_eq_true_eq] at hmem
    obtain ⟨hmem, hb⟩ := hmem
    by_cases ha : a <+: q
    · obtain ⟨x, rfl⟩ := ha
      rw [relocate_append, moveNode_below]
      exact (node_eq_some h.nodup).mpr hmem
    · rw [relocate, if_neg ha, moveNode, if_neg hb, if_neg ha]
      exact (node_eq_some h.nodup).mpr hmem
  · intro hnode
    rcases moveNode_some hnode with ⟨x, rfl, hx⟩ | ⟨hb, ha, hnode⟩
    · refine ⟨(a ++ x, o), mem_filter.mpr ⟨mem_of_node hx, ?_⟩, by rw [relocate_append]⟩
      rw [decide_eq_true_eq]
      intro hb
      exact ( prefix_or_prefix_of_prefix (prefix_append a x) hb).elim hab hba
    · refine ⟨(p, o), mem_filter.mpr ⟨mem_of_node hnode, decide_eq_true hb⟩, ?_⟩
      rw [relocate, if_neg ha]

end Entries

/-- A small tree server: it finds, makes and renames entries, and takes a change only if the result is a tree. -/
def TreeFs := { entries : Entries // entries.Good }

namespace TreeFs

variable (fs : TreeFs)

def lookup (parent : ℕ) (name : Bytes) : VolumeResponse :=
  match (fs.1.dirPath parent).bind fun p => fs.1.node (p ++ [name]) with
  | some o => .entry ⟨o.ino⟩
  | none => .error ENOENT

def make (parent : ℕ) (name : Bytes) (dir : Bool) (resp : ℕ → VolumeResponse) : VolumeResponse × TreeFs :=
  match fs.1.dirPath parent with
  | none => (.error ENOENT, fs)
  | some p =>
    let entries : Entries := (p ++ [name], ⟨fs.1.fresh, fs.1.fresh, dir⟩) :: fs.1
    if h : entries.Good then (resp fs.1.fresh, ⟨entries, h⟩) else (.error EINVAL, fs)

def renamed (a b : List Bytes) (flags : ℕ) : Option Entries :=
  match fs.1.node a with
  | none => none
  | some o =>
    if a <+: b ∨ b <+: a then none
    else if RemapFs.isExchange flags then (fs.1.node b).map fun _ => fs.1.swapped a b
    else if fs.1.node b = some o ∨ fs.1.any fun e => b <+: e.1.dropLast then none
    else some (fs.1.moved a b)

def rename (parent : ℕ) (name : Bytes) (newparent : ℕ) (newname : Bytes) (flags : ℕ) : VolumeResponse × TreeFs :=
  match fs.1.dirPath parent, fs.1.dirPath newparent with
  | some p, some q =>
    match fs.renamed (p ++ [name]) (q ++ [newname]) flags with
    | some entries => if h : entries.Good then (.ok, ⟨entries, h⟩) else (.error EINVAL, fs)
    | none => (.error EINVAL, fs)
  | _, _ => (.error ENOENT, fs)

def serve (fs : TreeFs) : VolumeRequest → VolumeResponse × TreeFs
  | .lookup parent name => (fs.lookup parent name, fs)
  | .mkdir parent name => fs.make parent name true fun ino => .entry ⟨ino⟩
  | .create parent name => fs.make parent name false fun ino => .created ⟨ino⟩ 1
  | .rename parent name newparent newname flags => fs.rename parent name newparent newname flags
  | _ => (.error ENOSYS, fs)

instance : FilesystemHandler TreeFs where
  handleRequest := serve
  handleRequestWithGroups fs req _ := fs.serve req

def tree : HostTree := fs.1.tree fs.2

theorem lookup_answers (parent : ℕ) (name : Bytes) :
    Answers fs.tree fs.tree (.lookup parent name) (fs.lookup parent name) := by
  unfold lookup
  split
  · next o hfound =>
    obtain ⟨p, hp, ho⟩ := Option.bind_eq_some_iff.mp hfound
    exact .lookup (Entries.dirAt_of_dirPath fs.2 hp) ho rfl
  · exact .error rfl

theorem no_entry {parent : ℕ} {name : Bytes} {p : List Bytes} (hdir : fs.tree.DirAt p parent)
    (herr : (fs.lookup parent name).isError = true) : fs.tree.node (p ++ [name]) = none := by
  cases hp : fs.1.dirPath parent with
  | none => exact absurd hdir (Entries.not_dirAt_of_dirPath fs.2 hp p)
  | some q =>
    obtain ⟨d, hd, _, hino⟩ := Entries.dirAt_of_dirPath fs.2 hp
    obtain ⟨rfl, _⟩ := hdir.unique hd hino
    cases ho : fs.1.node (p ++ [name]) with
    | none => exact ho
    | some o => simp [lookup, hp, ho, VolumeResponse.isError] at herr

theorem make_answers {req : VolumeRequest} {parent : ℕ} {name : Bytes} {dir : Bool}
    {resp : ℕ → VolumeResponse}
    (hanswer : ∀ {t' p o}, fs.tree.DirAt p parent → fs.tree.node (p ++ [name]) = none →
      t'.node = Function.update fs.tree.node (p ++ [name]) (some o) → Answers fs.tree t' req (resp o.ino)) :
    Answers fs.tree (fs.make parent name dir resp).2.tree req (fs.make parent name dir resp).1 := by
  unfold make
  split
  · exact .error rfl
  · next p hp =>
    dsimp only
    split
    · next hgood =>
      have hfree : fs.1.node (p ++ [name]) = none := by
        cases ho : fs.1.node (p ++ [name]) with
        | none => rfl
        | some o =>
          have hmem := mem_map_of_mem (f := Prod.fst) (Entries.mem_of_node ho)
          exact absurd hmem (nodup_cons.mp hgood.nodup).1
      apply hanswer (o := ⟨fs.1.fresh, fs.1.fresh, dir⟩) (Entries.dirAt_of_dirPath fs.2 hp) hfree
      apply Entries.node_eq hgood.nodup
      intro q o
      by_cases hq : q = p ++ [name]
      · subst hq
        rw [Function.update_self, ← Entries.node_eq_some hgood.nodup]
        simp [Entries.node]
      · rw [Function.update_of_ne hq, mem_cons]
        simp only [Prod.mk.injEq, hq, false_and, false_or]
        exact (Entries.node_eq_some fs.2.nodup).symm
    · exact .error rfl

theorem rename_answers (parent : ℕ) (name : Bytes) (newparent : ℕ) (newname : Bytes) (flags : ℕ) :
    Answers fs.tree (fs.rename parent name newparent newname flags).2.tree (.rename parent name newparent newname flags)
      (fs.rename parent name newparent newname flags).1 := by
  unfold rename
  split
  · next p q hp hq =>
    have hp := Entries.dirAt_of_dirPath fs.2 hp
    have hq := Entries.dirAt_of_dirPath fs.2 hq
    split
    · next entries hrenamed =>
      split
      · next hgood =>
        unfold renamed at hrenamed
        split at hrenamed
        · cases hrenamed
        · next o ho =>
          split at hrenamed
          · cases hrenamed
          · next hapart =>
            rw [not_or] at hapart
            split at hrenamed
            · next hflags =>
              obtain ⟨o', ho', rfl⟩ := Option.map_eq_some_iff.mp hrenamed
              exact .exchange hflags hp hq ho ho' hapart.1 hapart.2
                (Entries.node_swapped fs.2 hgood hapart.1 hapart.2)
            · next hflags =>
              split at hrenamed
              · cases hrenamed
              · next hclear =>
                cases hrenamed
                rw [not_or, Bool.not_eq_true, any_eq_false] at hclear
                refine .rename (Bool.not_eq_true _ ▸ hflags) hp hq ho hapart.1 (fun n => ?_) hclear.1
                  (Entries.node_moved fs.2 hgood hapart.1 hapart.2)
                cases hn : fs.tree.node (q ++ [newname] ++ [n]) with
                | none => rfl
                | some o' =>
                  have hbelow := hclear.2 _ (Entries.mem_of_node hn)
                  simp at hbelow
      · exact .error rfl
    · exact .error rfl
  · exact .error rfl

theorem serve_answers (req : VolumeRequest) : Answers fs.tree (fs.serve req).2.tree req (fs.serve req).1 := by
  cases req with
  | lookup parent name => exact fs.lookup_answers parent name
  | mkdir parent name => exact fs.make_answers fun hp hfree ht => .made (.inl rfl) hp hfree ht
  | create parent name => exact fs.make_answers fun hp hfree ht => .created hp hfree ht
  | rename parent name newparent newname flags => exact fs.rename_answers parent name newparent newname flags
  | _ => exact .error rfl

instance : TreeShaped TreeFs where
  tree := tree
  answers fs req _ := fs.serve_answers req
  answersLookup fs parent name := fs.serve_answers (.lookup parent name)
  noEntry fs _ _ _ := fs.no_entry

end TreeFs

end Fcvm.Remap
