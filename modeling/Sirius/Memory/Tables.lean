import Sirius.Memory.Paging
import Sirius.Support.StoredTree
import Mathlib.Data.List.FinRange

/-! The user half of an address space as a tree in physical memory: a table is reached
by one path only, and the page allocator does not hand it out. -/
namespace Sirius.Memory
open Support Function PhysMem List

def edge (mem : PhysMem) (frame : Frame) (i : Fin 512) : Option Frame :=
  if present (mem frame i) then some (address (mem frame i)) else none

/-- The kernel half of the root is shared between address spaces and not looked at. -/
def userEdge (mem : PhysMem) (root frame : Frame) (i : Fin 512) : Option Frame :=
  if frame = root ∧ 256 ≤ i.val then none else edge mem frame i

/-- The frame at the end of a path of indices through the user half. -/
def userWalk (mem : PhysMem) (root : Frame) (path : List (Fin 512)) : Option Frame :=
  walk (userEdge mem root) root path

def indices (virt : BitVec 64) : List (Fin 512) :=
  [pml4Index virt, pdptIndex virt, pdIndex virt, ptIndex virt]

@[irreducible] def allSlots : List (Fin 512) := finRange 512

theorem mem_allSlots (i : Fin 512) : i ∈ allSlots := by
  unfold allSlots
  exact mem_finRange i

theorem nodup_allSlots : allSlots.Nodup := by
  unfold allSlots
  exact nodup_finRange 512

def userSlots : List (Fin 512) := allSlots.filter fun i => i.val < 256

def sharedSlot : Fin 512 := 224

@[simp] theorem present_setField_address (entry : Entry) (frame : Frame) :
    present (setField 12 frame entry) = present entry :=
  getLsbD_setField_of_disjoint 12 frame entry (by decide) (by decide)

@[simp] theorem pageSizeBit_setField_address (entry : Entry) (frame : Frame) :
    pageSizeBit (setField 12 frame entry) = pageSizeBit entry :=
  getLsbD_setField_of_disjoint 12 frame entry (by decide) (by decide)

@[simp] theorem address_setField_address (entry : Entry) (frame : Frame) :
    address (setField 12 frame entry) = frame := field_setField 12 frame entry (by decide)

theorem present_setField_flag (lo : Nat) (positive : 0 < lo) (small : lo + 1 ≤ 64) (flag : BitVec 1)
    (entry : Entry) : present (setField lo flag entry) = present entry :=
  getLsbD_setField_of_disjoint lo flag entry small (.inl positive)

theorem present_setField_present (flag : BitVec 1) (entry : Entry) :
    present (setField 0 flag entry) = flag.getLsbD 0 := by
  rw [present, getLsbD_setField 0 flag entry (by decide), if_pos (by decide)]

section
variable (flags phys : BitVec 64) (old : Entry)

theorem tableEntry_spec :
    present (tableEntry flags phys old) = true ∧ address (tableEntry flags phys old) = frameOf phys := by
  constructor
  · simp [tableEntry, present_setField_flag, present_setField_present]
  · simp only [tableEntry, address_setField_address]

theorem directoryEntry_spec : present (directoryEntry flags phys old) = true ∧
      address (directoryEntry flags phys old) = frameOf phys ∧
      pageSizeBit (directoryEntry flags phys old) = false := by
  refine ⟨?_, ?_, ?_⟩
  · simp [directoryEntry, present_setField_flag, present_setField_present]
  · simp only [directoryEntry, address_setField_address]
  · simp only [directoryEntry, pageSizeBit_setField_address]
    rw [pageSizeBit, getLsbD_setField 7 _ _ (by decide), if_pos (by decide)]
    rfl

theorem pageEntry_spec :
    present (pageEntry flags phys old) = true ∧ address (pageEntry flags phys old) = frameOf phys := by
  constructor
  · simp [pageEntry, present_setField_flag, present_setField_present]
  · simp only [pageEntry, address]
    rw [field_setField_of_disjoint 63 _ _ (by decide) 12 (by decide)]
    exact field_setField 12 _ _ (by decide)

end

variable {mem : PhysMem} {pmm later : Pmm} {root node : Frame} {path : List (Fin 512)} {i : Fin 512}

theorem PhysMem.write_apart (mem : PhysMem) (entry : Entry) (apart : ¬ (frame = node ∧ j = i)) :
    mem.write node i entry frame j = mem frame j := by
  by_cases same : frame = node
  · subst same
    have slot : j ≠ i := fun here => apart ⟨rfl, here⟩
    rw [write, update_self, update_of_ne slot]
  · rw [write, update_of_ne same]

/-- A frame is cleared and an entry is written elsewhere. -/
theorem PhysMem.write_clear_apart (mem : PhysMem) (entry : Entry) (other : frame ≠ fresh) (apart : ¬ (frame = node ∧ j = i)) :
    (mem.clear fresh).write node i entry frame j = mem frame j := by
  rw [write_apart _ entry apart, clear, update_of_ne other]

structure Tables (mem : PhysMem) (pmm : Pmm) (root : Frame) : Prop where
  owned : Owned (userEdge mem root) root 3
  used : ∀ path frame, path.length ≤ 3 → userWalk mem root path = some frame → pmm.InUse frame
  small : ∀ path frame i, path.length = 2 → userWalk mem root path = some frame →
    present (mem frame i) = true → pageSizeBit (mem frame i) = false

namespace Tables
variable (tables : Tables mem pmm root)
include tables

theorem of_walks (same : ∀ path : List (Fin 512), path.length ≤ 3 → userWalk changed root path = userWalk mem root path)
    (small : ∀ path frame i, path.length = 2 → userWalk mem root path = some frame → present (changed frame i) = true →
      pageSizeBit (changed frame i) = false) : Tables changed pmm root where
  owned := tables.owned.of_walks same
  used path frame short reached := tables.used path frame short ((same path short).symm.trans reached)
  small path frame i two reached := small path frame i two ((same path (by omega)).symm.trans reached)

theorem path_of_root (reached : userWalk mem root path = some root) (within : path.length ≤ 3) : path = [] :=
  tables.owned path [] root within (by decide) reached rfl

section
variable (reached : userWalk mem root path = some node) (within : path.length ≤ 3) (user : path = [] → i.val < 256)
include reached within user

theorem not_shared : ¬ (node = root ∧ 256 ≤ i.val) := by
  rintro ⟨rfl, high⟩
  have := user (tables.path_of_root reached within)
  omega

/-- Reading an edge of a table off memory. -/
theorem userEdge_eq : userEdge mem root node i = edge mem node i := if_neg (tables.not_shared reached within user)

end

end Tables

/-- Walks do not notice what is in a frame that is no table. -/
theorem userWalk_update (apart : ∀ path : List (Fin 512), path.length ≤ 3 → userWalk mem root path ≠ some frame)
    (words : Fin 512 → Entry) (short : path.length ≤ 4) :
    userWalk (update mem frame words) root path = userWalk mem root path := by
  apply walk_congr
  intro front j back n _ length arrived
  have other : n ≠ frame := by
    rintro rfl
    exact apart front (by omega) arrived
  simp only [userEdge, edge, update_of_ne other]

namespace Tables
variable (tables : Tables mem pmm root)
include tables

theorem update (apart : ∀ path : List (Fin 512), path.length ≤ 3 → userWalk mem root path ≠ some frame)
    (words : Fin 512 → Entry) : Tables (Function.update mem frame words) pmm root := by
  refine tables.of_walks (fun path short => userWalk_update apart words (by omega)) fun path f j two arrived here => ?_
  have differs : f ≠ frame := by
    rintro rfl
    exact apart path (by omega) arrived
  simp only [update_of_ne differs] at here ⊢
  exact tables.small path f j two arrived here

theorem apart (free : ¬ pmm.InUse frame) (path : List (Fin 512)) (short : path.length ≤ 3) :
    userWalk mem root path ≠ some frame :=
  fun arrived => free (tables.used path frame short arrived)

theorem mono (kept : ∀ path frame, path.length ≤ 3 → userWalk mem root path = some frame →
      pmm.InUse frame → later.InUse frame) : Tables mem later root :=
  ⟨tables.owned, fun path frame short arrived => kept path frame short arrived
    (tables.used path frame short arrived), tables.small⟩

/-- What linking a new table to a slot without one does. -/
structure Linked (mem changed : PhysMem) (later : Pmm) (root : Frame) (path : List (Fin 512))
    (fresh : Frame) : Prop where
  tables : Tables changed later root
  reached : userWalk changed root path = some fresh
  empty : ∀ j, userWalk changed root (path ++ [j]) = none
  pages : ∀ other : List (Fin 512), other.length = 4 → userWalk changed root other = userWalk mem root other

theorem newTable_apart (free : ¬ pmm.InUse fresh) (short : path.length ≤ 3) (reached : userWalk mem root path = some frame)
    (entry : Entry) (off : ¬ (frame = node ∧ j = i)) : (mem.clear fresh).write node i entry frame j = mem frame j :=
  mem.write_clear_apart entry (fun same => tables.apart free path short (same ▸ reached)) off

section
variable (reached : userWalk mem root path = some node) (within : path.length < 3) (user : path = [] → i.val < 256)
  (absent : present (mem node i) = false) (entry : Entry) (here : present entry = true)
include reached within user absent here

/-- The new table is reached by one path, nothing is below it, and every other walk is an old one. -/
theorem walk_newTable (free : ¬ pmm.InUse fresh) (target : address entry = fresh) :
    Owned (userEdge ((mem.clear fresh).write node i entry) root) root 3 ∧
      userWalk ((mem.clear fresh).write node i entry) root (path ++ [i]) = some fresh ∧
      (∀ j, userWalk ((mem.clear fresh).write node i entry) root (path ++ [i] ++ [j]) = none) ∧
      ∀ path' : List (Fin 512), path'.length ≤ 4 → path' ≠ path ++ [i] →
        userWalk ((mem.clear fresh).write node i entry) root path' = userWalk mem root path' := by
  have slot := tables.not_shared reached within.le user
  have differs : fresh ≠ node := fun same => tables.apart free path within.le (same ▸ reached)
  have kept : ∀ front n j, front.length ≤ 3 → userWalk mem root front = some n → ¬ (n = node ∧ j = i) →
      userEdge ((mem.clear fresh).write node i entry) root n j = userEdge mem root n j := fun front n j short arrived off => by
    simp only [userEdge, edge, tables.newTable_apart free short arrived entry off]
  have vacant : userEdge mem root node i = none := by
    rw [userEdge, if_neg slot, edge, absent]
    rfl
  have linked : userEdge ((mem.clear fresh).write node i entry) root node i = some fresh := by
    rw [userEdge, if_neg slot, edge, write, update_self, update_self, if_pos here, target]
  have empty : ∀ j, userEdge ((mem.clear fresh).write node i entry) root fresh j = none := fun j => by
    rw [userEdge, edge, write_apart _ entry fun both => differs both.1, clear, update_self]
    simp [present]
  obtain ⟨owned, arrives, behind, others⟩ :=
    tables.owned.link_fresh reached kept within vacant (tables.apart free) linked empty
  exact ⟨owned, arrives, fun j => behind j [], others⟩

theorem newTable (allocated : pmmAllocPage pmm = (new, later)) (nonzero : new ≠ 0) (target : address entry = frameOf new)
    (directory : path.length = 2 → pageSizeBit entry = false) :
    Linked mem ((mem.clear (frameOf new)).write node i entry) later root (path ++ [i]) (frameOf new) := by
  obtain ⟨-, free, -, now⟩ := pmmAllocPage_spec allocated nonzero
  have differs : frameOf new ≠ node := fun same => tables.apart free path within.le (same ▸ reached)
  obtain ⟨owned, arrives, childless, other⟩ := tables.walk_newTable reached within user absent entry here free target
  refine ⟨⟨owned, ?_, ?_⟩, arrives, childless, ?_⟩
  · intro path' frame short arrived
    by_cases taken : path' = path ++ [i]
    · subst taken
      rw [arrives] at arrived
      exact (now frame).mpr (.inl (Option.some.inj arrived).symm)
    · rw [other path' (by omega) taken] at arrived
      exact (now frame).mpr (.inr (tables.used path' frame short arrived))
  · intro path' frame j two arrived shown
    by_cases taken : path' = path ++ [i]
    · subst taken
      rw [arrives] at arrived
      cases arrived
      simp [PhysMem.write, differs, PhysMem.clear, present] at shown
    rw [other path' (by omega) taken] at arrived
    by_cases written : frame = node ∧ j = i
    · obtain ⟨rfl, rfl⟩ := written
      rw [tables.owned path' path frame (by omega) (by omega) arrived reached] at two
      simpa [PhysMem.write] using directory two
    · rw [tables.newTable_apart free (by omega) arrived entry written] at shown ⊢
      exact tables.small path' frame j two arrived shown
  · intro path' four
    apply other path' (by omega)
    rintro rfl
    simp at four
    omega

end

/-- What writing an entry of a page table does. -/
theorem writePage (reached : userWalk mem root path = some node) (three : path.length = 3) (entry : Entry) :
    Tables (mem.write node i entry) pmm root ∧ (∀ other : List (Fin 512), other.length ≤ 3 →
        userWalk (mem.write node i entry) root other = userWalk mem root other) ∧
      userWalk (mem.write node i entry) root (path ++ [i]) =
        (if present entry then some (address entry) else none) ∧
      ∀ other : List (Fin 512), other.length = 4 → other ≠ path ++ [i] →
        userWalk (mem.write node i entry) root other = userWalk mem root other := by
  have slot : ¬ (node = root ∧ 256 ≤ i.val) := tables.not_shared reached three.le fun empty => by simp [empty] at three
  have kept : ∀ front n j, front.length ≤ 3 → userWalk mem root front = some n → ¬ (n = node ∧ j = i) →
      userEdge (mem.write node i entry) root n j = userEdge mem root n j := fun _ n j _ _ off => by
    simp only [userEdge, edge, mem.write_apart entry off]
  have above := walk_last tables.owned reached kept three
  refine ⟨tables.of_walks above fun other frame j two arrived shown => ?_, above, ?_, ?_⟩
  · have differs : frame ≠ node := by
      rintro rfl
      rw [tables.owned other path frame (by omega) (by omega) arrived reached] at two
      omega
    simp only [write, update_of_ne differs] at shown ⊢
    exact tables.small other frame j two arrived shown
  · rw [userWalk, walk_changed tables.owned reached kept three.le, userEdge, if_neg slot, edge, write, update_self, update_self]
  · intro other four differ
    apply walk_apart tables.owned reached kept three.le other (by omega)
    intro extended
    exact differ (extended.eq_of_length (by simp [three, four])).symm

end Tables

/-- A user half in which every frame, table or page, is reached once and all pages are
small. -/
structure UserTree (mem : PhysMem) (root : Frame) : Prop where
  owned : Owned (userEdge mem root) root 4
  small : ∀ path frame i, path.length = 2 → userWalk mem root path = some frame →
    present (mem frame i) = true → pageSizeBit (mem frame i) = false

section
variable (tree : UserTree mem root) (reached : userWalk mem root path = some node) (short : path.length ≤ 4) (proper : path ≠ [])
include tree reached short proper

theorem UserTree.ne_root : node ≠ root := by
  rintro rfl
  exact proper (tree.owned path [] node short (by decide) reached rfl)

theorem UserTree.userEdge_eq (i : Fin 512) : userEdge mem root node i = edge mem node i :=
  if_neg fun both => tree.ne_root reached short proper both.1

end

end Sirius.Memory
