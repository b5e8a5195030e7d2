import Sirius.Fs.Ramfs

/-! What the calls do to the tree of nodes: they keep it a tree with distinct names in every
directory, unless a name is cut when it is stored or a directory is moved below itself. -/
namespace Sirius.Fs.Ramfs
open Support Relation Function List Call
open State hiding modify
open Finset (coe_erase coe_insert coe_singleton mem_erase mem_insert mem_of_mem_erase)

def Child (s : State) (p c : Address) : Prop := p ∈ s.live ∧ c ∈ s.entriesOf p

/-- Each live node is reached from the root by one path, no node is above itself, and the
names in a directory differ. `parent_inode` is the inode of the directory a node is in. -/
structure IsTree (s : State) : Prop where
  reachable : ∀ n ∈ s.live, ∃! path, Path (Child s) s.root path n
  acyclic : ∀ n, ¬TransGen (Child s) n n
  distinct : ∀ d ∈ s.live, ((s.entriesOf d).map s.nameOf).Nodup
  parents : ∀ p c, Child s p c → (s.nodes c).parentInode = (s.nodes p).inode

/-- The call would not give the stored form of `name` to a second node of the directory. -/
def NameFits (s : State) (dir : Address) (name : Name) (self : Option Address) : Prop :=
  finddir s dir name = none → ∀ entry ∈ s.entriesOf dir, some entry ≠ self → s.nameOf entry ≠ storedName name
deriving Decidable

/-- A cut name is not yet there, and no directory goes into itself or below itself. -/
def Call.Clean : Call → State → Prop
  | create parent name _ _, s => NameFits s parent name none
  | mkdir parent name _ _, s => NameFits s parent name none
  | unlink _ _, _ => True
  | rmdir _ _, _ => True
  | rename oldDir oldName newDir newName, s =>
    NameFits s newDir newName (finddir s oldDir oldName) ∧
      (oldDir ≠ newDir → ∀ target ∈ finddir s oldDir oldName, ¬ReflTransGen (Child s) target newDir)

instance (call : Call) (s : State) : Decidable (call.Possible s) := by
  cases call <;> exact inferInstanceAs (Decidable (_ ∧ _))

/-- What does not depend on the names. -/
structure Linked (s : State) : Prop where
  tree : RootedTree (Child s) s.root (s.live : Set Address)
  parents : ∀ p c, Child s p c → (s.nodes c).parentInode = (s.nodes p).inode
  files : ∀ f ∈ s.live, (s.nodes f).flags = .file → s.entriesOf f = []

structure Wf (s : State) : Prop extends Linked s where
  distinct : ∀ d ∈ s.live, ((s.entriesOf d).map s.nameOf).Nodup

theorem Wf.entries_nodup (wf : Wf s) (live : d ∈ s.live) : (s.entriesOf d).Nodup := (wf.distinct d live).of_map _

theorem Wf.isTree (wf : Wf s) : IsTree s where
  reachable _ mem := wf.tree.existsUnique_path mem
  acyclic := wf.tree.acyclic
  distinct := wf.distinct
  parents := wf.parents

theorem vfsInit_wf (root : Address) : Wf (vfsInit root) where
  tree := by
    have none : Child (vfsInit root) = fun _ _ => False := by
      funext p c
      exact eq_false fun child => not_mem_nil child.2
    rw [none]
    simpa only [vfsInit, coe_singleton] using RootedTree.leaf root
  distinct _ _ := nodup_nil
  parents _ _ child := absurd child.2 not_mem_nil
  files _ _ _ := rfl

section Fields

variable {s : State} {a : Address}

variable (entries : List Address) (field : Node → β) (change : Node → Node)

theorem nodes_modify (b : Address) :
    (s.modify a change).nodes b = if b = a then change (s.nodes a) else s.nodes b := by
  simp only [State.modify, update_apply]

/-- A change that leaves a field alone at one node leaves it alone at all. -/
theorem field_modify (same : ∀ node, field (change node) = field node) (b : Address) :
    field ((s.modify a change).nodes b) = field (s.nodes b) := by
  rw [nodes_modify]
  split
  case isTrue at_a => rw [same, at_a]
  case isFalse => rfl

theorem field_setEntries {β : Type*} (field : Node → β) (entries : List Address)
    (same : ∀ node : Node, field { node with entries := entries } = field node) (b : Address) :
    field ((s.setEntries a entries).nodes b) = field (s.nodes b) :=
  field_modify field _ same b

theorem field_setParentInode {β : Type*} (field : Node → β) (inode : BitVec 32)
    (same : ∀ node : Node, field { node with parentInode := inode } = field node) (b : Address) :
    field ((s.setParentInode a inode).nodes b) = field (s.nodes b) :=
  field_modify field _ same b

theorem field_setName {β : Type*} (field : Node → β) (name : Name)
    (same : ∀ node : Node, field { node with name := name } = field node) (b : Address) :
    field ((s.setName a name).nodes b) = field (s.nodes b) :=
  field_modify field _ same b

theorem entriesOf_setEntries : (s.setEntries a entries).entriesOf = update s.entriesOf a entries := by
  funext b
  rw [entriesOf, setEntries, nodes_modify, update_apply]
  split <;> rfl

end Fields

theorem finddir_mem (found : finddir s parent name = some entry) :
    entry ∈ s.entriesOf parent ∧ s.nameOf entry = name := by
  unfold finddir at found
  split at found
  · exact ⟨mem_of_find?_eq_some found, of_decide_eq_true (find?_some found :)⟩
  · cases found

section Link

variable {s : State} {p a : Address} {node : Node}

theorem entriesOf_link (ne : p ≠ a) (d : Address) : (link s p a node).entriesOf d =
    if d = p then a :: s.entriesOf p else if d = a then node.entries else s.entriesOf d := by
  simp only [link, entriesOf_setEntries, update_apply]
  simp only [entriesOf, update_apply, if_neg ne]
  split
  · rfl
  · split <;> rfl

theorem field_link {β : Type*} (field : Node → β)
    (same : ∀ (node : Node) entries, field { node with entries := entries } = field node) (b : Address) :
    field ((link s p a node).nodes b) = if b = a then field node else field (s.nodes b) := by
  simp only [link, field_setEntries field _ fun node => same node _, update_apply]
  split <;> rfl

theorem child_link (parent : p ∈ s.live) (fresh : a ∉ s.live) (leaf : node.entries = []) (x y : Address) :
    Child (link s p a node) x y ↔ Child s x y ∨ x = p ∧ y = a := by
  have ne : p ≠ a := fun same => fresh (same ▸ parent)
  have live : x ∈ (link s p a node).live ↔ x = a ∨ x ∈ s.live := mem_insert
  rw [Child, live, entriesOf_link ne, Child, leaf]
  split_ifs with isParent isNew
  · simp [isParent, parent, or_comm]
  · simp [isNew, fresh, ne.symm]
  · simp [isParent, isNew]

theorem Wf.link (wf : Wf s) (parent : s.IsDirectory p) (fresh : a ∉ s.live) (leaf : node.entries = [])
    (inode : node.parentInode = (s.nodes p).inode) (unused : ∀ entry ∈ s.entriesOf p, s.nameOf entry ≠ node.name) :
    Wf (link s p a node) := by
  have ne : p ≠ a := fun same => fresh (same ▸ parent.1)
  have edges := child_link (s := s) parent.1 fresh leaf
  have old : ∀ {x y}, Child s x y → x ≠ a ∧ y ≠ a := fun child =>
    ⟨fun same => fresh (same ▸ wf.tree.parent_mem child), fun same => fresh (same ▸ wf.tree.child_mem child)⟩
  have names : ∀ d ∈ s.live, (s.entriesOf d).map (Ramfs.link s p a node).nameOf = (s.entriesOf d).map s.nameOf := by
    intro d live
    refine map_congr_left fun entry mem => ?_
    exact (field_link Node.name (fun _ _ => rfl) entry).trans (if_neg (old ⟨live, mem⟩).2)
  have newName : (Ramfs.link s p a node).nameOf a = node.name :=
    (field_link Node.name (fun _ _ => rfl) a).trans (if_pos rfl)
  refine ⟨⟨?_, ?_, ?_⟩, ?_⟩
  · have tree := wf.tree.insert parent.1 fresh edges
    rwa [← coe_insert] at tree
  · intro x y child
    rw [field_link Node.parentInode fun _ _ => rfl, field_link Node.inode fun _ _ => rfl]
    rcases (edges x y).mp child with child | ⟨rfl, rfl⟩
    · rw [if_neg (old child).1, if_neg (old child).2]
      exact wf.parents x y child
    · rw [if_pos rfl, if_neg ne, inode]
  · intro f live isFile
    rw [field_link Node.flags fun _ _ => rfl] at isFile
    rw [entriesOf_link ne]
    split_ifs at isFile ⊢ with isParent isNew isNew
    · exact absurd (isParent.symm.trans isNew) ne
    · cases parent.2.symm.trans (isParent ▸ isFile)
    · exact leaf
    · exact wf.files f ((mem_insert.mp live).resolve_left isNew) isFile
  · intro d live
    rw [entriesOf_link ne]
    split_ifs with isParent isNew
    · rw [map_cons, names p parent.1, newName, nodup_cons]
      refine ⟨?_, wf.distinct p parent.1⟩
      simpa only [mem_map, not_exists, not_and] using unused
    · rw [leaf]
      exact nodup_nil
    · have live := (mem_insert.mp live).resolve_left isNew
      rw [names d live]
      exact wf.distinct d live

theorem createObject_wf (wf : Wf s) (parent : s.IsDirectory p) (fresh : s.Fresh grants)
    (fits : NameFits s p name none) : Wf (createObject s p name permissions flags grants).2 := by
  unfold createObject
  repeat' split
  all_goals try exact wf
  next missing _ address granted _ _ =>
    have missing := Option.not_isSome_iff_eq_none.mp missing
    exact wf.link parent (fresh address granted) rfl rfl fun entry mem => fits missing entry mem nofun

end Link

section Remove

variable {s : State} {p gone : Address} {name : Name}

theorem notMem_eraseP {l : List Address} {p : Address → Bool} (nodup : l.Nodup) (found : l.find? p = some g) :
    g ∉ l.eraseP p := by
  obtain ⟨passes, front, back, rfl, before⟩ := find?_eq_some_iff_append.mp found
  rw [eraseP_append_right _ fun e mem => by simpa using before e mem, eraseP_cons_of_pos passes]
  exact (nodup_cons.mp (nodup_middle.mp nodup)).1

/-- The first entry with the name is the only one, so that what `eraseP` leaves is the rest. -/
theorem mem_eraseP_name (distinct : ((s.entriesOf p).map s.nameOf).Nodup)
    (found : (s.entriesOf p).find? (fun entry => s.nameOf entry = name) = some gone) (entry : Address) :
    entry ∈ (s.entriesOf p).eraseP (fun entry => s.nameOf entry = name) ↔ entry ∈ s.entriesOf p ∧ entry ≠ gone := by
  refine ⟨fun mem => ⟨mem_of_mem_eraseP mem, fun same => notMem_eraseP distinct.of_map found (same ▸ mem)⟩, fun ⟨mem, ne⟩ => ?_⟩
  refine (mem_eraseP_of_neg fun same => ne ?_).mpr mem
  have isName : s.nameOf gone = name := of_decide_eq_true (find?_some found :)
  exact inj_on_of_nodup_map distinct mem (mem_of_find?_eq_some found) ((of_decide_eq_true same).trans isName.symm)

def removed (s : State) (p gone : Address) (rest : List Address) : State :=
  { s.setEntries p rest with live := s.live.erase gone }

theorem entriesOf_removed (rest : List Address) :
    (removed s p gone rest).entriesOf = update s.entriesOf p rest := entriesOf_setEntries rest

section
variable {rest : List Address} (child : Child s p gone) (leaf : s.entriesOf gone = [])
    (kept : ∀ entry, entry ∈ rest ↔ entry ∈ s.entriesOf p ∧ entry ≠ gone)
include child leaf kept

theorem child_removed (linked : Linked s) (x y : Address) :
    Child (removed s p gone rest) x y ↔ Child s x y ∧ y ≠ gone := by
  have live : x ∈ (removed s p gone rest).live ↔ x ≠ gone ∧ x ∈ s.live := mem_erase
  rw [Child, live, entriesOf_removed, update_apply]
  by_cases isParent : x = p
  · subst isParent
    have ne : x ≠ gone := by
      rintro rfl
      exact linked.tree.acyclic x (.single child)
    rw [if_pos rfl, kept, Child]
    simp [ne, and_assoc]
  · rw [if_neg isParent, Child]
    constructor
    · rintro ⟨⟨-, there⟩, mem⟩
      refine ⟨⟨there, mem⟩, ?_⟩
      rintro rfl
      exact isParent (linked.tree.single ⟨there, mem⟩ child)
    · rintro ⟨⟨there, mem⟩, -⟩
      refine ⟨⟨?_, there⟩, mem⟩
      rintro rfl
      rw [leaf] at mem
      exact not_mem_nil mem

theorem Wf.removed (wf : Wf s) (part : rest.Sublist (s.entriesOf p)) :
    Wf (removed s p gone rest) := by
  have edges := child_removed child leaf kept wf.toLinked
  refine ⟨⟨?_, ?_, ?_⟩, ?_⟩
  · have tree := wf.tree.erase child (fun c link => not_mem_nil (leaf ▸ link.2)) edges
    rwa [← coe_erase] at tree
  · intro x y link
    have same := wf.parents x y ((edges x y).mp link).1
    rwa [← field_setEntries (a := p) Node.parentInode rest fun _ => rfl,
      ← field_setEntries (a := p) Node.inode rest (fun _ => rfl) x] at same
  · intro f live isFile
    have live := mem_of_mem_erase live
    have isFile := (field_setEntries Node.flags rest (fun _ => rfl) f).symm.trans isFile
    have none := wf.files f live isFile
    rw [entriesOf_removed, update_apply]
    split
    next same => exact sublist_nil.mp (none ▸ same ▸ part)
    next => exact none
  · intro d live
    have live := mem_of_mem_erase live
    have names : (Ramfs.removed s p gone rest).nameOf = s.nameOf :=
      funext fun b => field_setEntries Node.name rest (fun _ => rfl) b
    rw [entriesOf_removed, names, update_apply]
    split
    case isTrue same => exact (wf.distinct p (same ▸ live)).sublist (part.map _)
    case isFalse => exact wf.distinct d live

end

theorem removeObject_wf (wf : Wf s) (live : p ∈ s.live) : Wf (removeObject s p name flag).2 := by
  unfold removeObject
  split
  · exact wf
  case h_2 gone found =>
  have child : Child s p gone := ⟨live, mem_of_find?_eq_some found⟩
  split
  · exact wf
  case isFalse isFlag =>
  split
  · exact wf
  case isFalse notFull =>
  have leaf : s.entriesOf gone = [] := by
    cases flag with
    | file => exact wf.files gone (wf.tree.child_mem child) (not_not.mp isFlag)
    | directory => exact not_not.mp fun full => notFull ⟨rfl, full⟩
  exact wf.removed child leaf (mem_eraseP_name (wf.distinct p live) found) eraseP_sublist

end Remove

section Rename

variable {s : State} {oldDir newDir target : Address}

theorem field_moveEntry {β : Type*} (field : Node → β)
    (entries : ∀ (node : Node) entries, field { node with entries := entries } = field node)
    (inode : ∀ (node : Node) inode, field { node with parentInode := inode } = field node) (b : Address) :
    field ((moveEntry s oldDir newDir target).nodes b) = field (s.nodes b) := by
  unfold moveEntry
  split
  · rw [field_setParentInode field _ fun node => inode node _, field_setEntries field _ fun node => entries node _,
      field_setEntries field _ fun node => entries node _]
  · rfl

theorem live_moveEntry : (moveEntry s oldDir newDir target).live = s.live := by
  unfold moveEntry
  split <;> rfl

theorem root_moveEntry : (moveEntry s oldDir newDir target).root = s.root := by
  unfold moveEntry
  split <;> rfl

theorem entriesOf_moveEntry (mem : target ∈ s.entriesOf oldDir) (ne : oldDir ≠ newDir) (d : Address) :
    (moveEntry s oldDir newDir target).entriesOf d = if d = newDir then target :: s.entriesOf newDir
      else if d = oldDir then (s.entriesOf oldDir).erase target else s.entriesOf d := by
  rw [moveEntry, if_pos mem, entriesOf, field_setParentInode Node.entries _ fun _ => rfl]
  change entriesOf _ d = _
  simp only [entriesOf_setEntries, update_apply, if_neg ne.symm]

theorem parentInode_moveEntry (mem : target ∈ s.entriesOf oldDir) (b : Address) :
    ((moveEntry s oldDir newDir target).nodes b).parentInode =
      if b = target then (s.nodes newDir).inode else (s.nodes b).parentInode := by
  rw [moveEntry, if_pos mem, setParentInode, nodes_modify]
  split
  · simp only [field_setEntries Node.inode _ fun _ => rfl]
  · simp only [field_setEntries Node.parentInode _ fun _ => rfl]

section
variable (linked : Linked s) (nodup : (s.entriesOf oldDir).Nodup) (child : Child s oldDir target) (ne : oldDir ≠ newDir)
include linked nodup child ne

theorem child_moveEntry (live : newDir ∈ s.live) (x y : Address) :
    Child (moveEntry s oldDir newDir target) x y ↔ Child s x y ∧ y ≠ target ∨ x = newDir ∧ y = target := by
  have elsewhere : ∀ {d}, d ≠ oldDir → d ∈ s.live → y ∈ s.entriesOf d → y ≠ target := by
    rintro d other there mem rfl
    exact other (linked.tree.single ⟨there, mem⟩ child)
  rw [Child, live_moveEntry, entriesOf_moveEntry child.2 ne, Child]
  by_cases isNew : x = newDir
  · subst isNew
    rw [if_pos rfl, mem_cons]
    constructor
    · rintro ⟨there, rfl | mem⟩
      · exact .inr ⟨rfl, rfl⟩
      · exact .inl ⟨⟨there, mem⟩, elsewhere ne.symm there mem⟩
    · rintro (⟨⟨there, mem⟩, -⟩ | ⟨-, same⟩)
      · exact ⟨there, .inr mem⟩
      · exact ⟨live, .inl same⟩
  · rw [if_neg isNew]
    simp only [isNew, false_and, or_false]
    by_cases isOld : x = oldDir
    · subst isOld
      rw [if_pos rfl, nodup.mem_erase_iff]
      tauto
    rw [if_neg isOld]
    constructor
    · rintro ⟨there, mem⟩
      exact ⟨⟨there, mem⟩, elsewhere isOld there mem⟩
    · exact And.left

theorem Linked.moveEntry (directory : s.IsDirectory newDir) (outside : ¬ReflTransGen (Child s) target newDir) :
    Linked (moveEntry s oldDir newDir target) := by
  have edges := child_moveEntry linked nodup child ne directory.1
  refine ⟨?_, ?_, ?_⟩
  · rw [live_moveEntry, root_moveEntry]
    exact linked.tree.move child directory.1 outside edges
  · intro x y link
    rw [parentInode_moveEntry child.2, field_moveEntry Node.inode (fun _ _ => rfl) fun _ _ => rfl]
    rcases (edges x y).mp link with ⟨old, other⟩ | ⟨rfl, rfl⟩
    · rw [if_neg other]
      exact linked.parents x y old
    · rw [if_pos rfl]
  · intro f live isFile
    rw [live_moveEntry] at live
    rw [field_moveEntry Node.flags (fun _ _ => rfl) fun _ _ => rfl] at isFile
    have none := linked.files f live isFile
    have notNew : f ≠ newDir := by
      rintro rfl
      rw [directory.2] at isFile
      cases isFile
    rw [entriesOf_moveEntry child.2 ne, if_neg notNew]
    split
    case isTrue same =>
      subst same
      rw [none, erase_nil]
    case isFalse => exact none

end

theorem entriesOf_setName : (s.setName target name).entriesOf = s.entriesOf :=
  funext fun b => field_setName Node.entries name (fun _ => rfl) b

theorem nameOf_setName : (s.setName target name).nameOf = update s.nameOf target name := by
  funext b
  rw [nameOf, setName, nodes_modify, update_apply]
  split <;> rfl

theorem Linked.setName (linked : Linked s) : Linked (s.setName target name) := by
  have edges : Child (s.setName target name) = Child s := by
    funext x y
    rw [Child, entriesOf_setName]
    rfl
  refine ⟨?_, ?_, ?_⟩
  · rw [edges]
    exact linked.tree
  · intro x y link
    rw [edges] at link
    rw [field_setName Node.parentInode name fun _ => rfl, field_setName Node.inode name fun _ => rfl]
    exact linked.parents x y link
  · intro f live isFile
    rw [field_setName Node.flags name fun _ => rfl] at isFile
    rw [entriesOf_setName]
    exact linked.files f live isFile

/-- With the new name the node differs from its neighbours, which differ from each other. -/
theorem Linked.wf_setName (linked : Linked s) (child : Child s dir target) (nodup : (s.entriesOf dir).Nodup)
    (others : ∀ d ∈ s.live, (((s.entriesOf d).erase target).map s.nameOf).Nodup)
    (unused : ∀ entry ∈ s.entriesOf dir, entry ≠ target → s.nameOf entry ≠ name) :
    Wf (s.setName target name) := by
  have kept : ∀ {l : List Address}, target ∉ l → l.map (s.setName target name).nameOf = l.map s.nameOf := by
    intro l absent
    refine map_congr_left fun entry mem => ?_
    rw [nameOf_setName, update_of_ne]
    rintro rfl
    exact absent mem
  refine ⟨linked.setName, fun d live => ?_⟩
  have others := others d live
  rw [entriesOf_setName]
  by_cases here : d = dir
  · subst here
    have absent : target ∉ (s.entriesOf d).erase target := nodup.not_mem_erase
    rw [((perm_cons_erase child.2).map _).nodup_iff, map_cons, kept absent, nodup_cons]
    refine ⟨?_, others⟩
    rw [nameOf_setName, update_self, mem_map]
    rintro ⟨entry, mem, same⟩
    obtain ⟨ne, mem⟩ := nodup.mem_erase_iff.mp mem
    exact unused entry mem ne same
  · have absent : target ∉ s.entriesOf d := fun mem => here (linked.tree.single ⟨live, mem⟩ child)
    rw [kept absent]
    rwa [erase_of_not_mem absent] at others

theorem rename_wf (wf : Wf s) (old : s.IsDirectory oldDir) (new : s.IsDirectory newDir)
    (clean : (Call.rename oldDir oldName newDir newName).Clean s) : Wf (rename s oldDir oldName newDir newName).2 := by
  unfold rename
  split
  · exact wf
  case h_2 target found =>
  split
  · exact wf
  case isFalse missing =>
  obtain ⟨fits, outside⟩ := clean
  have child : Child s oldDir target := ⟨old.1, (finddir_mem found).1⟩
  have unused : ∀ entry ∈ s.entriesOf newDir, entry ≠ target → s.nameOf entry ≠ storedName newName := by
    intro entry mem ne
    refine fits (Option.not_isSome_iff_eq_none.mp missing) entry mem ?_
    rw [found]
    exact fun same => ne (Option.some.inj same)
  have others : ∀ d ∈ s.live, (((s.entriesOf d).erase target).map s.nameOf).Nodup := fun d live =>
    (wf.distinct d live).sublist (erase_sublist.map _)
  by_cases ne : oldDir = newDir
  · subst ne
    simp only [ne_eq, not_true_eq_false, if_false]
    exact wf.toLinked.wf_setName child (wf.entries_nodup old.1) others unused
  simp only [ne_eq, ne, not_false_eq_true, if_true]
  have nodup := wf.entries_nodup old.1
  have linked := wf.toLinked.moveEntry nodup child ne new (outside ne target found)
  have absent : target ∉ s.entriesOf newDir := fun mem => ne (wf.tree.single child ⟨new.1, mem⟩)
  have entries := entriesOf_moveEntry child.2 ne
  have here : (moveEntry s oldDir newDir target).entriesOf newDir = target :: s.entriesOf newDir := by
    rw [entries, if_pos rfl]
  have names : (moveEntry s oldDir newDir target).nameOf = s.nameOf :=
    funext fun b => field_moveEntry Node.name (fun _ _ => rfl) (fun _ _ => rfl) b
  have moved := (child_moveEntry wf.toLinked nodup child ne new.1 newDir target).mpr (.inr ⟨rfl, rfl⟩)
  refine linked.wf_setName moved ?_ ?_ ?_
  · rw [here]
    exact nodup_cons.mpr ⟨absent, wf.entries_nodup new.1⟩
  · intro d live
    rw [live_moveEntry] at live
    rw [names, entries]
    split
    · rw [erase_cons_head]
      exact wf.distinct newDir new.1
    · split
      · exact (others oldDir old.1).sublist (erase_sublist.map _)
      · exact others d live
  · intro entry mem other
    rw [names]
    rw [here] at mem
    exact unused entry ((mem_cons.mp mem).resolve_left other) other

end Rename

theorem Call.apply_wf (call : Call) (wf : Wf s) (possible : call.Possible s) (clean : call.Clean s) :
    Wf (call.apply s) := by
  cases call with
  | create | mkdir => exact createObject_wf wf possible.1 possible.2 clean
  | unlink | rmdir => exact removeObject_wf wf possible.1
  | rename => exact rename_wf wf possible.1 possible.2 clean

/-- From the empty root, calls that are clean when their turn comes keep the nodes a tree. -/
theorem ramfs_stays_a_tree (root : Address) (calls : List Call)
    (meet : AllMeet apply (fun call s => call.Possible s ∧ call.Clean s) calls (vfsInit root)) :
    IsTree (runAll apply calls (vfsInit root)) := by
  have wf := meet.preserves (vfsInit_wf root) fun call s condition wf => call.apply_wf wf condition.1 condition.2
  exact wf.isTree

def orderlyCalls : List Call :=
  [.mkdir 1 [97] 493 ⟨some 2, true, true⟩, .create 1 [102] 420 ⟨some 3, true, true⟩, .rename 1 [102] 2 [103],
    .unlink 2 [103]]

theorem orderlyCalls_meet :
    AllMeet apply (fun call s => call.Possible s ∧ call.Clean s) orderlyCalls (vfsInit 1) := by
  refine ⟨⟨by decide +kernel, ?_⟩, ⟨by decide +kernel, ?_⟩, ⟨by decide +kernel, ?_, fun _ target found below => ?_⟩,
    ⟨by decide +kernel, trivial⟩, trivial⟩
  · change NameFits _ 1 [97] none
    decide +kernel
  · change NameFits _ 1 [102] none
    decide +kernel
  · decide +kernel
  · -- The file has nothing below it.
    let s := runAll apply (orderlyCalls.take 2) (vfsInit 1)
    have isFile : finddir s 1 [102] = some 3 := by decide +kernel
    obtain rfl : 3 = target := Option.some.inj (isFile.symm.trans found)
    rcases below.cases_head with same | ⟨c, link, -⟩
    · exact absurd same (by decide)
    · have none : s.entriesOf 3 = [] := by decide +kernel
      exact not_mem_nil (none ▸ link.2)

theorem ramfs_stays_a_tree_moved : IsTree (runAll apply orderlyCalls (vfsInit 1)) :=
  ramfs_stays_a_tree 1 orderlyCalls orderlyCalls_meet

/-- A directory moved into itself. -/
def movedIntoItself : List Call := [.mkdir 1 [97] 493 ⟨some 2, true, true⟩, .rename 1 [97] 2 [98]]

/-- Two names that are stored as the same 255 characters. -/
def cutNames : List Call :=
  [.create 1 (replicate 256 97) 420 ⟨some 2, true, true⟩,
    .create 1 (replicate 257 97) 420 ⟨some 3, true, true⟩]

theorem renamed_below_itself_or_cut :
    (AllMeet apply (fun call s => call.Possible s) movedIntoItself (vfsInit 1) ∧
      ¬IsTree (runAll apply movedIntoItself (vfsInit 1))) ∧
    AllMeet apply (fun call s => call.Possible s) cutNames (vfsInit 1) ∧
      ¬IsTree (runAll apply cutNames (vfsInit 1)) := by
  refine ⟨⟨⟨?_, ?_, trivial⟩, fun tree => ?_⟩, ⟨?_, ?_, trivial⟩, fun tree => ?_⟩
  · decide +kernel
  · decide +kernel
  · have loop : 2 ∈ (runAll apply movedIntoItself (vfsInit 1)).entriesOf 2 := by decide +kernel
    exact tree.acyclic 2 (.single ⟨by decide +kernel, loop⟩)
  · decide +kernel
  · decide +kernel
  · exact absurd (tree.distinct 1 (by decide +kernel)) (by decide +kernel)

end Sirius.Fs.Ramfs
