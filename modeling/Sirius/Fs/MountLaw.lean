import Sirius.Fs.Vfs

/-! Mounting a volume over a directory and taking it off again. `vfs_umount` looks for the
directory by its path; but the path leads to the root of the volume as soon as something is
mounted there, so that a mount is never undone. -/
namespace Sirius.Fs.Vfs
open Function List Finset

variable {s s' : State} {a : Address}

/-- Nodes lead to nodes that are there. -/
structure Wf (s : State) : Prop where
  root : s.root ∈ s.live
  entries : ∀ a ∈ s.live, ∀ e ∈ (s.nodes a).entries, e ∈ s.live
  mounts : ∀ m ∈ s.mounts, m.fsRoot ∈ s.live

/-- Nothing but new nodes: what lookups do to the state. -/
structure Grown (s s' : State) : Prop where
  live : s.live ⊆ s'.live
  nodes : ∀ a ∈ s.live, s'.nodes a = s.nodes a
  root : s'.root = s.root
  mounts : s'.mounts = s.mounts

theorem Grown.refl (s : State) : Grown s s := ⟨Finset.Subset.refl _, fun _ _ => rfl, rfl, rfl⟩

theorem Grown.trans (first : Grown s s') (second : Grown s' t) : Grown s t where
  live := first.live.trans second.live
  nodes a mem := (second.nodes a (first.live mem)).trans (first.nodes a mem)
  root := second.root.trans first.root
  mounts := second.mounts.trans first.mounts

theorem fresh_notMem (s : State) : s.fresh ∉ s.live := by
  intro mem
  have below : id s.fresh ≤ s.live.sup id := le_sup mem
  exact absurd below (Nat.not_succ_le_self _)

theorem nodes_alloc (s : State) (node : Node) : (s.alloc node).nodes s.fresh = node := by
  simp [State.alloc]

theorem alloc_grown (s : State) (node : Node) : Grown s (s.alloc node) where
  live := subset_insert _ _
  nodes a mem := by
    have other : a ≠ s.fresh := fun same => fresh_notMem s (same ▸ mem)
    simp only [State.alloc, update_of_ne other]
  root := rfl
  mounts := rfl

/-- A new node without entries keeps the state well formed. -/
theorem Wf.alloc (wf : Wf s) (leaf : node.entries = []) : Wf (s.alloc node) where
  root := mem_insert_of_mem wf.root
  entries a mem e entry := by
    rcases mem_insert.mp mem with rfl | mem
    · rw [nodes_alloc, leaf] at entry
      exact absurd entry not_mem_nil
    · rw [(alloc_grown s node).nodes a mem] at entry
      exact mem_insert_of_mem (wf.entries a mem e entry)
  mounts m mem := mem_insert_of_mem (wf.mounts m mem)

theorem vfsResolveMountpoint_mem (wf : Wf s) (mem : a ∈ s.live) : vfsResolveMountpoint s a ∈ s.live := by
  unfold vfsResolveMountpoint
  split
  · exact mem
  · split
    case h_1 m found => exact wf.mounts m (mem_of_find?_eq_some found)
    case h_2 => exact mem

/-- What a lookup leaves, and that the node it finds is there. -/
structure Looked (s : State) (result : Option Address × State) : Prop where
  grown : Grown s result.2
  wf : Wf result.2
  found : ∀ a ∈ result.1, a ∈ result.2.live

theorem finddir_looked (wf : Wf s) (mem : a ∈ s.live) (name : Name) : Looked s (finddir s a name) := by
  unfold finddir
  split
  · refine ⟨.refl s, wf, fun b found => ?_⟩
    unfold ramfsFinddir at found
    split at found
    · exact wf.entries a mem b (mem_of_find?_eq_some found)
    · cases found
  · unfold fat32Finddir
    dsimp only
    split
    · exact ⟨.refl s, wf, nofun⟩
    · refine ⟨alloc_grown s _, wf.alloc rfl, fun b found => ?_⟩
      obtain rfl := Option.some.inj found
      exact mem_insert_self _ _
  · exact ⟨.refl s, wf, nofun⟩

theorem walk_looked (wf : Wf s) (mem : a ∈ s.live) (tokens : List Name) : Looked s (walk tokens s a) := by
  induction tokens generalizing s a with
  | nil => exact ⟨.refl s, wf, fun b found => Option.some.inj found ▸ mem⟩
  | cons token rest ih =>
    unfold walk
    split
    · exact ih wf mem
    have looked := finddir_looked wf (vfsResolveMountpoint_mem wf mem) token
    split <;> rename_i result <;> rw [result] at looked
    · exact { looked with found := nofun }
    next next s' =>
      have further := ih looked.wf (looked.found next rfl)
      exact ⟨looked.grown.trans further.grown, further.wf, further.found⟩

theorem vfsPathToNode_looked (wf : Wf s) (path : List UInt8) : Looked s (vfsPathToNode s path) := by
  have start := vfsResolveMountpoint_mem wf wf.root
  unfold vfsPathToNode
  split
  · exact ⟨.refl s, wf, nofun⟩
  dsimp only
  split
  · exact ⟨.refl s, wf, fun b found => Option.some.inj found ▸ start⟩
  split
  · exact ⟨.refl s, wf, nofun⟩
  have looked := walk_looked wf start (components path)
  split <;> rename_i result <;> rw [result] at looked
  · exact { looked with found := nofun }
  next last s' =>
  refine { looked with found := fun b found => ?_ }
  obtain rfl := Option.some.inj found
  exact vfsResolveMountpoint_mem looked.wf (looked.found last rfl)

/-- What a path leads to: a node in memory, or what is on the disk for it. -/
inductive Resolution
  | node (a : Address)
  | copy (node : Node)
deriving DecidableEq

def seen (s : State) (path : List UInt8) : Option Resolution :=
  match vfsPathToNode s path with
  | (none, _) => none
  | (some a, s') => some (if a ∈ s.live then .node a else .copy (s'.nodes a))

def Below (path other : List UInt8) : Prop :=
  (components path).filter (· ≠ dot) <+: (components other).filter (· ≠ dot)

/-- The path leads to the root of the volume and no other path has changed; `vfs_umount` gives
back what was there before. -/
structure Inverse (s mounted : State) (path : List UInt8) : Prop where
  covered : ∃ mount, mounted.mounts = mount :: s.mounts ∧ (vfsPathToNode mounted path).1 = some mount.fsRoot
  others : ∀ other, ¬Below path other → seen mounted other = seen s other
  returned : (vfsUmount mounted path).1 = 0
  restored : ∀ other, seen (vfsUmount mounted path).2 other = seen s other
  kept : ∀ a ∈ (vfsPathToNode s path).1, a ∈ s.live → a ∈ (vfsUmount mounted path).2.live

/-- What a mount that succeeds has done. -/
theorem vfsMount_cases (mounted : vfsMount s path request = some (0, s')) :
    ∃ target looked volume rootCluster, vfsPathToNode s path = (some target, looked) ∧
      s' = addMount (looked.alloc (fat32Root path volume rootCluster)) target looked.fresh := by
  unfold vfsMount fat32MountCallback at mounted
  repeat' split at mounted
  all_goals try cases mounted
  next target looked result _ _ _ _ _ _ callback _ =>
  repeat' split at callback
  all_goals cases callback
  exact ⟨target, looked, _, _, result, rfl⟩

theorem Wf.addMount (wf : Wf s) (mem : fsRoot ∈ s.live) (target : Address) : Wf (addMount s target fsRoot) where
  root := wf.root
  entries b there e entry := by
    refine wf.entries b there e ?_
    simp only [Vfs.addMount, State.modify, update_apply] at entry
    split at entry
    case isTrue same => exact same ▸ entry
    case isFalse => exact entry
  mounts m there := by
    rcases mem_cons.mp there with rfl | there
    · exact mem
    · exact wf.mounts m there

theorem fat32Root_not_mountpoint (path : List UInt8) (volume : Volume) (rootCluster : BitVec 32) :
    (fat32Root path volume rootCluster).isMountpoint = false := by
  have clear : vfsDirectory &&& vfsMountpoint = 0 := by decide
  simp [Node.isMountpoint, fat32Root, clear]

/-- A directory that does not bear the mark is not unmounted. -/
theorem vfsUmount_unmarked (result : vfsPathToNode s path = (some a, s'))
    (unmarked : (s'.nodes a).isMountpoint = false) : (vfsUmount s path).1 = -2 := by
  unfold vfsUmount
  rw [result]
  dsimp only
  rw [unmarked]

/-- With the volume in its place, `vfs_umount` answers that nothing is mounted there. -/
theorem vfsUmount_of_covered (wf : Wf s) (mounted : vfsMount s path request = some (0, s'))
    (mounts : s'.mounts = mount :: s.mounts) (covered : (vfsPathToNode s' path).1 = some mount.fsRoot) :
    (vfsUmount s' path).1 = -2 := by
  obtain ⟨target, looked, volume, rootCluster, result, rfl⟩ := vfsMount_cases mounted
  have before := vfsPathToNode_looked wf path
  rw [result] at before
  have there : looked.fresh ∈ (looked.alloc (fat32Root path volume rootCluster)).live := mem_insert_self _ _
  have isRoot : mount.fsRoot = looked.fresh := congrArg Mount.fsRoot (cons.inj mounts).1.symm
  have after := vfsPathToNode_looked ((before.wf.alloc rfl).addMount there target) path
  -- The root of the volume is not the directory that has got the mark.
  have other : looked.fresh ≠ target := fun same => fresh_notMem looked (same ▸ before.found target rfl)
  have node : (addMount (looked.alloc (fat32Root path volume rootCluster)) target looked.fresh).nodes looked.fresh =
      fat32Root path volume rootCluster := by
    simp only [addMount, State.modify, update_of_ne other, nodes_alloc]
  refine vfsUmount_unmarked (Prod.ext (covered.trans (congrArg some isRoot)) rfl) ?_
  rw [after.grown.nodes _ there, node]
  exact fat32Root_not_mountpoint path volume rootCluster

/-- No mount is undone by unmounting the same path. -/
theorem mount_is_never_undone (s mounted : State) (wf : Wf s) (path : List UInt8) (request : MountRequest)
    (success : vfsMount s path request = some (0, mounted)) : ¬Inverse s mounted path := by
  intro inverse
  obtain ⟨mount, mounts, covered⟩ := inverse.covered
  have refused := vfsUmount_of_covered wf success mounts covered
  rw [inverse.returned] at refused
  cases refused

def directoryNode (name : Name) (inode : BitVec 32) (entries : List Address) : Node where
  name := name
  flags := vfsDirectory
  inode := inode
  ops := .ramfs
  entries := entries
  volume := 0
  ptrMount := none

def smallTree : State where
  nodes a := if a = 1 then directoryNode [slash] 1 [2] else directoryNode [109] 2 []
  live := {1, 2}
  root := 1
  mounts := []
  listing _ cluster := if cluster = 2 then [⟨[100], true, 3⟩] else []

def fatRequest : MountRequest := ⟨true, true, some .fat32, some (0, 2), true⟩

def afterMount (s : State) (path : List UInt8) : State := ((vfsMount s path fatRequest).map Prod.snd).getD s

theorem mount_is_never_undone_small : ¬Inverse smallTree (afterMount smallTree [slash, 109]) [slash, 109] :=
  mount_is_never_undone smallTree _ ⟨by decide, by decide, by decide⟩ [slash, 109] fatRequest rfl

/-- On `/m` the path leads to the volume, and `vfs_umount` refuses and frees its root; over the
directory `/m/d` of the volume the path does not even lead to the second volume. -/
theorem umount_of_mounted_path_refused : ((vfsMount smallTree [slash, 109] fatRequest).map Prod.fst = some 0 ∧
      (vfsPathToNode (afterMount smallTree [slash, 109]) [slash, 109]).1 = some 3 ∧
      (afterMount smallTree [slash, 109]).mounts = [⟨2, 3⟩] ∧
      (vfsUmount (afterMount smallTree [slash, 109]) [slash, 109]).1 = -2 ∧
      3 ∉ (vfsUmount (afterMount smallTree [slash, 109]) [slash, 109]).2.live ∧
      ¬Inverse smallTree (afterMount smallTree [slash, 109]) [slash, 109]) ∧
    (vfsMount (afterMount smallTree [slash, 109]) [slash, 109, slash, 100] fatRequest).map Prod.fst = some 0 ∧
      (vfsPathToNode (afterMount (afterMount smallTree [slash, 109]) [slash, 109, slash, 100])
        [slash, 109, slash, 100]).1 ≠
      ((afterMount (afterMount smallTree [slash, 109]) [slash, 109, slash, 100]).mounts.head?.map Mount.fsRoot) := by
  refine ⟨⟨by decide +kernel, by decide +kernel, by decide +kernel, by decide +kernel, by decide +kernel,
    fun inverse => ?_⟩, by decide +kernel, by decide +kernel⟩
  exact absurd inverse.returned (by decide +kernel)

end Sirius.Fs.Vfs
