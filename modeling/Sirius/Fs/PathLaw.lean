import Sirius.Fs.Vfs
import Mathlib.Data.List.DropRight

/-! Paths in a tree without mounts, against their names looked up one after the other. -/
namespace Sirius.Fs.Vfs
open List

/-- The nodes of the RamFS and of devices. Those of a FAT32 volume are found through its mount only, and
`ramfs_create_object` refuses an empty name. -/
structure PlainTree (s : State) : Prop where
  mounts : s.mounts = []
  memory : ∀ a, (s.nodes a).ops ≠ .fat32
  named : ∀ a, (s.nodes a).name ≠ []

def lookup (s : State) (a : Address) (name : Name) : Option Address := (finddir s a name).1

/-- The names in a path, other than `.`, however many slashes there are between them. -/
def pathNames (path : List UInt8) : List Name := (path.splitOn slash).filter fun name => name ≠ [] ∧ name ≠ dot

variable {s : State} (plain : PlainTree s)
include plain

theorem PlainTree.vfsResolveMountpoint_eq (a : Address) : vfsResolveMountpoint s a = a := by
  simp [vfsResolveMountpoint, plain.mounts]

theorem PlainTree.finddir_eq (a : Address) (name : Name) : finddir s a name = (lookup s a name, s) := by
  have memory := plain.memory a
  unfold lookup finddir
  split
  · rfl
  · exact absurd ‹_› memory
  · rfl

theorem PlainTree.lookup_nil (a : Address) : lookup s a [] = none := by
  have memory := plain.memory a
  unfold lookup finddir
  split
  · simp [ramfsFinddir, plain.named]
  · exact absurd ‹_› memory
  · rfl

theorem PlainTree.walk_eq (names : List Name) (a : Address) :
    walk names s a = ((names.filter fun name => name ≠ dot).foldlM (lookup s) a, s) := by
  induction names generalizing a with
  | nil => rfl
  | cons token rest ih =>
    by_cases here : token = dot
    · simp [walk, here, ih]
    rw [walk, if_neg here, plain.vfsResolveMountpoint_eq, plain.finddir_eq, filter_cons_of_pos (by simpa using here),
      foldlM_cons]
    cases lookup s a token with
    | none => rfl
    | some next => exact ih next

theorem PlainTree.lookups_of_empty {names : List Name} (empty : [] ∈ names) (a : Address) : names.foldlM (lookup s) a = none := by
  induction names generalizing a with
  | nil => cases empty
  | cons token rest ih =>
    rw [foldlM_cons]
    rcases mem_cons.mp empty with rfl | later
    · rw [plain.lookup_nil]
      rfl
    · cases lookup s a token with
      | none => rfl
      | some next => exact ih later next

omit plain in
theorem components_filter (path : List UInt8) :
    (components path).filter (fun name => name ≠ [] ∧ name ≠ dot) = pathNames path := by
  have last (parts : List Name) : (if parts.getLast? = some [] then parts.dropLast else parts).filter
      (fun name => name ≠ [] ∧ name ≠ dot) = parts.filter (fun name => name ≠ [] ∧ name ≠ dot) := by
    split
    · rename_i empty
      obtain ⟨front, rfl⟩ := getLast?_eq_some_iff.mp empty
      simp
    · rfl
  rw [components, last, pathNames]
  cases path with
  | nil => rfl
  | cons c rest =>
    by_cases here : c = slash
    · subst here
      simp [splitOn, splitOnP_cons_eq_if_modifyHead]
    · simp [here]

theorem PlainTree.vfsPathToNode_eq (short : path.length < pathBufferSize) (some : path ≠ []) :
    (vfsPathToNode s path).1 = ((components path).filter fun name => name ≠ dot).foldlM (lookup s) s.root := by
  rw [vfsPathToNode, if_neg some]
  by_cases only : path = [slash]
  · rw [if_pos only, only, plain.vfsResolveMountpoint_eq]
    rfl
  · rw [if_neg only, if_neg (by omega), plain.walk_eq, plain.vfsResolveMountpoint_eq]
    cases foldlM (lookup s) s.root _ with
    | none => rfl
    | some a => exact congrArg Option.some (plain.vfsResolveMountpoint_eq a)

/-- An empty part is looked up like any other. -/
theorem path_follows_names_iff (path : List UInt8) (short : path.length < 512) :
    (vfsPathToNode s path).1 = (pathNames path).foldlM (lookup s) s.root ↔
      path ≠ [] ∧ [] ∉ components path ∨ (pathNames path).foldlM (lookup s) s.root = none := by
  by_cases some : path = []
  · subst some
    exact ⟨nofun, by rintro (⟨no, -⟩ | no); exacts [absurd rfl no, nomatch no]⟩
  rw [plain.vfsPathToNode_eq short some]
  by_cases empty : [] ∈ components path
  · rw [plain.lookups_of_empty (mem_filter.mpr ⟨empty, by decide⟩)]
    simp [empty, eq_comm]
  have names : ((components path).filter fun name => name ≠ dot) = pathNames path := by
    rw [← components_filter]
    refine filter_congr fun name mem => ?_
    have : name ≠ [] := fun none => empty (none ▸ mem)
    simp [this]
  rw [names]
  exact ⟨fun _ => .inl ⟨some, empty⟩, fun _ => rfl⟩

omit plain

/-- `/a/b/c` and so on. -/
def chainTree : State where
  nodes a := ⟨[UInt8.ofNat (96 + a)], vfsDirectory, 0, .ramfs, [a + 1], 0, none⟩
  live := ∅
  root := 0
  mounts := []
  listing _ _ := []

theorem path_follows_names_chain : (vfsPathToNode chainTree [47, 97, 47, 98]).1 =
    (pathNames [47, 97, 47, 98]).foldlM (lookup chainTree) 0 :=
  (path_follows_names_iff ⟨rfl, by simp [chainTree], by simp [chainTree]⟩ _ (by decide)).mpr (.inl (by decide))

/-- `/a//b`. -/
theorem second_slash_ends_lookup : (vfsPathToNode chainTree [47, 97, 47, 47, 98]).1 = none ∧
    (pathNames [47, 97, 47, 47, 98]).foldlM (lookup chainTree) 0 = some 2 := by
  decide

/-- What is behind the last slash of a path. -/
def childPart (path : List UInt8) : Name := path.rtakeWhile (· ≠ slash)

/-- What is before the last slash of a path. -/
def frontPart (path : List UInt8) : List UInt8 := (path.rdropWhile (· ≠ slash)).dropLast

def parentPart (path : List UInt8) : List UInt8 := if frontPart path = [] then [slash] else frontPart path

/-- The two strings, and how many bytes are written to `parent_path`; to `out_child` it is the name and
its NUL. -/
structure Split where
  child : Name
  parent : List UInt8
  parentBytes : Nat
deriving DecidableEq, Repr

def splitPath (path : List UInt8) : Split :=
  if 1 < path.length ∧ path.getLast? = some slash then ⟨[], path.take 255, 256⟩
  else ⟨childPart path, parentPart path, max 256 ((frontPart path).length + 1)⟩

theorem last_slash (path : List UInt8) :
    path = frontPart path ++ slash :: childPart path ∨ frontPart path = [] ∧ path = childPart path := by
  induction path using reverseRecOn with
  | nil => exact .inr ⟨rfl, rfl⟩
  | append_singleton front c ih =>
    by_cases here : c = slash
    · simp [frontPart, childPart, here]
    have same : frontPart (front ++ [c]) = frontPart front := by simp [frontPart, here]
    have longer : childPart (front ++ [c]) = childPart front ++ [c] := by simp [childPart, here]
    rw [same, longer]
    exact ih.imp (fun split => by rw [← cons_append, ← append_assoc, ← split]) (.imp_right fun split => by rw [← split])

theorem components_append {front child : List UInt8} (named : child ≠ []) (alone : child.splitOn slash = [child])
    (full : [] ∉ components (front ++ slash :: child)) :
    components (front ++ slash :: child) = components (if front = [] then [slash] else front) ++ [child] := by
  cases front with
  | nil => simp [components, alone, named]
  | cons c rest =>
    have parts : components (c :: rest ++ slash :: child) =
        (if c = slash then rest else c :: rest).splitOn slash ++ [child] := by
      have bare : (if c = slash then rest ++ slash :: child else c :: (rest ++ slash :: child)) =
          (if c = slash then rest else c :: rest) ++ slash :: child := by split <;> rfl
      simp only [components, cons_append, head?_cons, tail_cons, Option.some.injEq]
      rw [bare, splitOn, splitOnP_append_cons _ _ (by simp), ← splitOn, ← splitOn, alone]
      simp [named]
    rw [parts, mem_append, not_or] at full
    rw [parts, if_neg (cons_ne_nil c rest), components]
    simp only [head?_cons, tail_cons, Option.some.injEq]
    rw [if_neg fun last => full.1 (mem_of_getLast? last)]

theorem components_split (named : childPart path ≠ []) (full : [] ∉ components path) :
    components path = components (parentPart path) ++ [childPart path] := by
  have other : ∀ c ∈ childPart path, (c == slash) = false := fun c mem => by simpa using mem_rtakeWhile_imp mem
  have alone : (childPart path).splitOn slash = [childPart path] := splitOnP_eq_singleton other
  rcases last_slash path with split | ⟨none, split⟩
  · have append := components_append named alone (by rwa [← split])
    rwa [← split] at append
  · have first : (childPart path).head? ≠ some slash := fun head => by simpa using other _ (mem_of_head? head)
    have whole : components (childPart path) = [childPart path] := by simp [components, first, alone, named]
    rw [parentPart, if_pos none]
    exact (congrArg components split).trans whole

/-- An empty part ends the lookup of the whole path, and `.` is not looked up there. -/
theorem split_agrees_iff {s : State} (plain : PlainTree s) (path : List UInt8) :
    ((splitPath path).child.length + 1 ≤ 64 ∧ (splitPath path).parentBytes ≤ 256 ∧
      ∀ a, (vfsPathToNode s (splitPath path).parent).1 = some a → (splitPath path).child ≠ [] →
        lookup s a (splitPath path).child = (vfsPathToNode s path).1) ↔
    1 < path.length ∧ path.getLast? = some slash ∨
      (childPart path).length < 64 ∧ (frontPart path).length < 256 ∧
        ∀ a, (vfsPathToNode s (parentPart path)).1 = some a → childPart path ≠ [] →
          if [] ∈ components path then lookup s a (childPart path) = none
          else childPart path = dot → lookup s a dot = some a := by
  by_cases whole : 1 < path.length ∧ path.getLast? = some slash
  · simp [splitPath, whole]
  rw [splitPath, if_neg whole, or_iff_right whole]
  dsimp only
  have size : path.length ≤ (frontPart path).length + 1 + (childPart path).length := by
    have length := (last_slash path).imp (congrArg length) fun split => congrArg length split.2
    simp only [length_append, length_cons] at length
    omega
  rw [max_le_iff, and_iff_right le_rfl]
  refine and_congr_right fun name => and_congr_right fun front =>
    forall_congr' fun a => imp_congr_right fun found => imp_congr_right fun child => ?_
  have nonempty : path ≠ [] := fun none => child (by rw [none]; rfl)
  rw [plain.vfsPathToNode_eq (show _ < 512 by omega) nonempty]
  by_cases empty : [] ∈ components path
  · rw [if_pos empty, plain.lookups_of_empty (mem_filter.mpr ⟨empty, by decide⟩)]
  have parent : (parentPart path).length < 512 ∧ parentPart path ≠ [] := by
    unfold parentPart
    split
    · decide
    · exact ⟨by omega, ‹_›⟩
  rw [plain.vfsPathToNode_eq parent.1 parent.2] at found
  rw [if_neg empty, components_split child empty, filter_append, foldlM_append, found]
  by_cases self : childPart path = dot <;> simp [self]

theorem split_agrees_chain : (vfsPathToNode chainTree [47, 97]).1 = some 1 ∧
    lookup chainTree 1 [98] = (vfsPathToNode chainTree [47, 97, 47, 98]).1 :=
  ⟨by decide, ((split_agrees_iff ⟨rfl, by simp [chainTree], by simp [chainTree]⟩ [47, 97, 47, 98]).mpr
    (.inr ⟨by decide, by decide, by decide⟩)).2.2 1 (by decide) (by decide)⟩

/-- A name of 64 bytes; and `/a//b`, with an entry `b` in `/a`. -/
theorem split_overruns_and_disagrees : (splitPath (replicate 64 97)).child.length + 1 = 65 ∧
    (vfsPathToNode chainTree (splitPath [47, 97, 47, 47, 98]).parent).1 = some 1 ∧
    lookup chainTree 1 (splitPath [47, 97, 47, 47, 98]).child = some 2 ∧
    (vfsPathToNode chainTree [47, 97, 47, 47, 98]).1 = none := by
  decide

end Sirius.Fs.Vfs
