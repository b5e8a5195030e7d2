import Sirius.Memory.CloneCopies
import Sirius.Memory.FlushAccounting
import Mathlib.Data.List.Pairwise

/-! The child of a clone as an address space: the same pages with the same flags and
content, in frames of its own. -/
namespace Sirius.Memory
open Support Function List Nat
open Machine hiding copy mem pmm read scratchMap

/-- A walk that starts with an entry. -/
def entryWalk (mem : PhysMem) (entry : Entry) (path : List (Fin 512)) : Option Frame :=
  if present entry then walk (edge mem) (address entry) path else none

variable {mem after : PhysMem} {levels : Nat} {entry target : Entry} {part : List Frame} {path : List (Fin 512)}
  {i : Fin 512} {m next start : Machine} {parent child root : Frame}

theorem entryWalk_cons (mem : PhysMem) (here : present entry = true) (j : Fin 512) (path : List (Fin 512)) :
    entryWalk mem entry (j :: path) = entryWalk mem (mem (address entry) j) path := by
  rw [entryWalk, if_pos here, walk, edge, entryWalk]
  cases present (mem (address entry) j) <;> rfl

theorem entryWalk_absent (absent : present entry = false) : entryWalk mem entry path = none := by
  rw [entryWalk, absent]
  rfl

namespace SlotCopied
variable (slot : SlotCopied (Copied mem after levels) entry target part)
include slot

theorem cases : (present entry = false ∧ present target = false) ∨
      ∃ below, present entry = true ∧ present target = true ∧ part = address target :: below ∧
        Copied mem after levels (address entry) (address target) below := by
  cases here : present entry with
  | false =>
    rw [SlotCopied, here, if_neg Bool.false_ne_true] at slot
    rw [slot.2]
    exact .inl ⟨rfl, rfl⟩
  | true =>
    rw [SlotCopied, if_pos here] at slot
    obtain ⟨frame, below, split, rfl, down⟩ := slot
    rw [present_setField_address, address_setField_address]
    exact .inr ⟨below, rfl, here, split, down⟩

/-- Walks through an entry and its copy take the same course, to a page of the copy and
on from there. -/
theorem twin (short : path.length ≤ levels) :
    (entryWalk mem entry path = none ∧ entryWalk after target path = none) ∨
      ∃ frame copy below, entryWalk mem entry path = some frame ∧ entryWalk after target path = some copy ∧
        copy ∈ part ∧ Copied mem after (levels - path.length) frame copy below := by
  induction path generalizing levels entry target part with
  | nil =>
    obtain ⟨absent, gone⟩ | ⟨below, here, there, split, down⟩ := slot.cases
    · exact .inl ⟨entryWalk_absent absent, entryWalk_absent gone⟩
    · refine .inr ⟨_, _, below, if_pos here, if_pos there, ?_, down⟩
      rw [split]
      exact .head _
  | cons j rest ih =>
    obtain ⟨absent, gone⟩ | ⟨below, here, there, split, down⟩ := slot.cases
    · exact .inl ⟨entryWalk_absent absent, entryWalk_absent gone⟩
    cases levels with
    | zero => cases short
    | succ levels =>
      obtain ⟨parts, pages, slots⟩ := down
      rw [entryWalk_cons mem here, entryWalk_cons after there]
      cases ih (slots j) (le_of_succ_le_succ short) with
      | inl stopped => exact .inl stopped
      | inr went =>
        obtain ⟨page, copy, deeper, first, second, inside, copied⟩ := went
        refine .inr ⟨page, copy, deeper, first, second, ?_, ?_⟩
        · rw [split, pages]
          exact .tail _ (mem_flatMap.mpr ⟨j, mem_allSlots j, inside⟩)
        · rw [length_cons, Nat.add_sub_add_right]
          exact copied

theorem mem_part (short : path.length ≤ levels) (reached : entryWalk after target path = some copy) : copy ∈ part := by
  cases slot.twin short with
  | inl stopped =>
    rw [stopped.2] at reached
    cases reached
  | inr went =>
    obtain ⟨-, found, -, -, second, inside, -⟩ := went
    rw [second] at reached
    cases reached
    exact inside

end SlotCopied

theorem flatMap_disjoint {slots : List (Fin 512)} {parts : Fin 512 → List Frame}
    (distinct : (slots.flatMap parts).Nodup) (left : i ∈ slots) (right : j ∈ slots)
    (first : frame ∈ parts i) (second : frame ∈ parts j) : i = j := by
  by_contra differ
  have : Std.Symm (Function.onFun List.Disjoint parts) := ⟨fun _ _ apart _ here there => apart there here⟩
  exact (nodup_flatMap.mp distinct).2.forall left right differ first second

theorem SlotCopied.deeper_ne (slot : SlotCopied (Copied mem after levels) entry target part) (distinct : part.Nodup)
    (short : (i :: path).length ≤ levels) (here : entryWalk after target [] = some frame) :
    entryWalk after target (i :: path) ≠ some frame := by
  intro reached
  obtain ⟨absent, gone⟩ | ⟨below, -, there, split, down⟩ := slot.cases
  · rw [entryWalk_absent gone] at here
    cases here
  cases levels with
  | zero => cases short
  | succ levels =>
    obtain ⟨parts, rfl, slots⟩ := down
    rw [split, nodup_cons] at distinct
    rw [entryWalk, if_pos there] at here
    cases here
    rw [entryWalk_cons after there] at reached
    have inside := (slots i).mem_part (le_of_succ_le_succ short) reached
    exact distinct.1 (mem_flatMap.mpr ⟨i, mem_allSlots i, inside⟩)

/-- Without duplicates among the pages, no page of the copy is reached twice. -/
theorem SlotCopied.owned (slot : SlotCopied (Copied mem after levels) entry target part) (distinct : part.Nodup)
    {front back : List (Fin 512)} (shortFront : front.length ≤ levels) (shortBack : back.length ≤ levels)
    (first : entryWalk after target front = some frame) (second : entryWalk after target back = some frame) :
    front = back := by
  induction front generalizing levels entry target part back with
  | nil =>
    cases back with
    | nil => rfl
    | cons j rest => exact (slot.deeper_ne distinct shortBack first second).elim
  | cons i rest ih =>
    cases back with
    | nil => exact (slot.deeper_ne distinct shortFront second first).elim
    | cons j other =>
      obtain ⟨absent, gone⟩ | ⟨below, here, there, split, down⟩ := slot.cases
      · rw [entryWalk_absent gone] at first
        cases first
      cases levels with
      | zero => cases shortFront
      | succ levels =>
        obtain ⟨parts, rfl, slots⟩ := down
        rw [split, nodup_cons] at distinct
        rw [entryWalk_cons after there] at first second
        have inFront := (slots i).mem_part (le_of_succ_le_succ shortFront) first
        have inBack := (slots j).mem_part (le_of_succ_le_succ shortBack) second
        cases flatMap_disjoint distinct.2 (mem_allSlots i) (mem_allSlots j) inFront inBack
        have alone := (nodup_flatMap.mp distinct.2).1 i (mem_allSlots i)
        rw [ih (slots i) alone (le_of_succ_le_succ shortFront) (le_of_succ_le_succ shortBack) first second]

theorem Machine.fill_eq (m : Machine) (window : Nat) (slots : List (Fin 512)) (value : Fin 512 → Entry) :
    m.fill window slots value =
      { m with mem := update m.mem (m.windows window) fun i => if i ∈ slots then value i else m.mem (m.windows window) i } := by
  induction slots generalizing m with
  | nil => simp [fill]
  | cons j rest ih =>
    have step : m.fill window (j :: rest) value = (m.write window j (value j)).fill window rest value := rfl
    rw [step, ih]
    simp only [write, PhysMem.write, update_self, update_idem, Machine.mk.injEq, and_true]
    congr 1
    funext i
    by_cases here : i = j <;> simp [here]

theorem mem_userSlots : i ∈ userSlots ↔ i.val < 256 := by
  simp [userSlots, mem_allSlots]

theorem mem_kernelSlots : i ∈ kernelSlots ↔ 256 ≤ i.val := by
  simp [kernelSlots, mem_allSlots]

/-- The new root: the shared entries of the parent and nothing else. -/
structure Created (m next : Machine) (parent child : Frame) : Prop where
  free : ¬ m.pmm.InUse child
  taken : ∀ frame, next.pmm.InUse frame ↔ frame = child ∨ m.pmm.InUse frame
  kept : ∀ frame, frame ≠ child → next.mem frame = m.mem frame
  entries : ∀ i : Fin 512, next.mem child i = if 256 ≤ i.val ∨ i = sharedSlot then m.mem parent i else 0

/-- The call comes to a new root if it gets a page. -/
theorem vmmCreateAddressSpace_made (allocated : pmmAllocPage m.pmm = (new, pmm)) (nonzero : new ≠ 0) :
    ∃ next, vmmCreateAddressSpace m (addrOf parent) = (addrOf (frameOf new), next) ∧ next.pmm = pmm ∧
      Created m next parent (frameOf new) := by
  obtain ⟨aligned, free, -, taken⟩ := pmmAllocPage_spec allocated nonzero
  have masked : new &&& ~~~ 0xFFF = addrOf (frameOf new) := by
    rw [← aligned, addrOf_masked, frameOf_addrOf]
  simp only [vmmCreateAddressSpace, alloc, allocated, if_neg nonzero, masked]
  refine ⟨_, rfl, ?_⟩
  -- the three passes over the new root
  simp only [fill_eq, write, PhysMem.write, Machine.scratchMap, Machine.read, update_self, update_idem, frameOf_addrOf]
  refine ⟨trivial, free, taken, fun frame differ => update_of_ne differ _ _, fun i => ?_⟩
  dsimp only
  rw [update_self]
  by_cases shared : i = sharedSlot
  · rw [shared, update_self, if_pos (.inr rfl)]
  · rw [update_of_ne shared]
    simp only [mem_kernelSlots, mem_userSlots, shared, or_false]
    by_cases high : 256 ≤ i.val
    · rw [if_pos high, if_pos high]
    · rw [if_neg high, if_neg high, if_pos (not_le.mp high)]

theorem vmmCreateAddressSpace_spec
    (created : vmmCreateAddressSpace m (addrOf parent) = (result, next)) (nonzero : result ≠ 0) :
    ∃ child, result = addrOf child ∧ Created m next parent child := by
  rcases allocated : pmmAllocPage m.pmm with ⟨new, pmm⟩
  by_cases zero : new = 0
  · simp only [vmmCreateAddressSpace, alloc, allocated, if_pos zero, Prod.mk.injEq] at created
    exact absurd created.1.symm nonzero
  · obtain ⟨last, made, -, root⟩ := @vmmCreateAddressSpace_made _ parent _ _ allocated zero
    rw [created] at made
    cases made
    exact ⟨frameOf new, rfl, root⟩

/-- The slots whose tables are copied. -/
def privateSlots : List (Fin 512) := userSlots.filter fun i => i ≠ sharedSlot

theorem mem_privateSlots : i ∈ privateSlots ↔ i.val < 256 ∧ i ≠ sharedSlot := by
  simp [privateSlots, mem_userSlots]

theorem foldlM_clonePdpt (slots : List (Fin 512)) (m : Machine) : slots.foldlM clonePdpt m =
      (slots.filter fun i => i ≠ sharedSlot).foldlM (cloneTable 0 clonedTable clonePd) m := by
  induction slots generalizing m with
  | nil => rfl
  | cons i rest ih =>
    rw [foldlM_cons, clonePdpt]
    by_cases shared : i = sharedSlot
    · rw [if_pos shared, filter_cons_of_neg (by simp [shared])]
      exact ih m
    · rw [if_neg shared, filter_cons_of_pos (by simp [shared]), foldlM_cons]
      congr 1
      funext next
      exact ih next

/-- An address space: a tree of small pages that the allocator does not hand out. -/
structure AddressSpace (m : Machine) (root : Frame) : Prop where
  tree : UserTree m.mem root
  used : ∀ path frame, path.length ≤ 4 → userWalk m.mem root path = some frame → m.pmm.InUse frame

theorem userWalk_cons_of (user : i.val < 256) (agree : present (mem root i) = true →
      walk (userEdge mem root) (address (mem root i)) path = walk (edge mem) (address (mem root i)) path) :
    userWalk mem root (i :: path) = entryWalk mem (mem root i) path := by
  have first : userEdge mem root root i = edge mem root i := if_neg (by omega)
  cases here : present (mem root i) with
  | false =>
    rw [userWalk, walk, first, edge, here, entryWalk_absent here]
    rfl
  | true => rw [userWalk, walk, first, edge, if_pos here, entryWalk, if_pos here, Option.bind_some, agree here]

/-- Walks of the user half start with an entry of the root. -/
theorem userWalk_cons (owned : Owned (userEdge mem root) root 3) (user : i.val < 256) (short : path.length ≤ 3) :
    userWalk mem root (i :: path) = entryWalk mem (mem root i) path := by
  refine userWalk_cons_of user fun here => (walk_congr path fun front j back node _ length reached => ?_).symm
  have first : userEdge mem root root i = some (address (mem root i)) := by
    rw [userEdge, if_neg (by omega), edge, if_pos here]
  have arrived : userWalk mem root (i :: front) = some node := by
    rw [userWalk, walk, first]
    exact reached
  refine (if_neg fun both => ?_).symm
  have same := owned (i :: front) [] root (by simp; omega) (by decide) (both.1 ▸ arrived) rfl
  cases same

theorem userWalk_cons_of_apart (user : i.val < 256)
    (apart : ∀ front node, front.length < path.length → entryWalk mem (mem root i) front = some node → node ≠ root) :
    userWalk mem root (i :: path) = entryWalk mem (mem root i) path := by
  refine userWalk_cons_of user fun here => walk_congr path fun front j back node _ length reached => ?_
  have differ := apart front node (by omega) (by rw [entryWalk, if_pos here]; exact reached)
  exact if_neg fun both => differ both.1

/-- The state in which the outer loop starts. -/
theorem Created.cloneable (space : AddressSpace m parent) (root : Created m start parent child) :
    Cloneable m.mem 0 3 parent child privateSlots
      ((start.scratchMap (addrOf parent) 0).scratchMap (addrOf child) 1) := by
  have parentUsed := space.used [] parent (by decide) rfl
  have apart : parent ≠ child := fun same => root.free (same ▸ parentUsed)
  constructor
  case parentWindow => simp [Machine.scratchMap]
  case childWindow => simp [Machine.scratchMap]
  case unchanged => exact root.kept parent apart
  case tableUsed => exact (root.taken parent).mpr (.inr parentUsed)
  case copyUsed => exact (root.taken child).mpr (.inl rfl)
  case apart => exact apart
  case blank =>
    intro i inside
    obtain ⟨user, unshared⟩ := mem_privateSlots.mp inside
    exact (root.entries i).trans (if_neg (by omega))
  case source =>
    intro i inside here path frame short reached
    obtain ⟨user, -⟩ := mem_privateSlots.mp inside
    have used := space.used (i :: path) frame (succ_le_succ short) (by
      rw [userWalk_cons (space.tree.owned.mono (by decide)) user short, entryWalk, if_pos here]
      exact reached)
    have differ : frame ≠ child := fun same => root.free (same ▸ used)
    exact ⟨root.kept frame differ, (root.taken frame).mpr (.inr used), differ⟩

theorem nodup_privateSlots : privateSlots.Nodup := (nodup_allSlots.filter _).filter _

theorem cloneRoot_clones : Clones (cloneTable 0 clonedTable clonePd) 0 3 :=
  cloneTable_clones clonedTable_eq clonePd_clones

/-- Both steps of the clone, the root and what hangs from it. -/
theorem vmmCloneAddressSpace_cloned (space : AddressSpace m parent)
    (cloned : vmmCloneAddressSpace m (addrOf parent) (addrOf parent) = (result, next)) (nonzero : result ≠ 0) :
    ∃ child start parts, result = addrOf child ∧ Created m start parent child ∧
      Cloned m.mem 0 3 parent child privateSlots parts start next := by
  rcases created : vmmCreateAddressSpace m (addrOf parent) with ⟨new, fresh⟩
  simp only [vmmCloneAddressSpace, created] at cloned
  split at cloned
  case isTrue =>
    cases cloned
    exact absurd rfl nonzero
  case isFalse got =>
  obtain ⟨child, rfl, root⟩ := vmmCreateAddressSpace_spec created got
  split at cloned
  case h_1 =>
    cases cloned
    exact absurd rfl nonzero
  case h_2 last looped =>
  cases cloned
  rw [foldlM_clonePdpt] at looped
  obtain ⟨parts, all⟩ := cloneRoot_clones.loop nodup_privateSlots (root.cloneable space) looped
  refine ⟨child, _, parts, rfl, ?_, all⟩
  exact { root with }

/-- The clone succeeds if the allocator has its pages. -/
theorem vmmCloneAddressSpace_nonzero (space : AddressSpace m parent)
    (enough : 0 ∉ allocations (slotsPages m.mem 3 parent privateSlots + 1) m.pmm) :
    (vmmCloneAddressSpace m (addrOf parent) (addrOf parent)).1 ≠ 0 := by
  rcases allocated : pmmAllocPage m.pmm with ⟨new, pmm⟩
  obtain ⟨nonzero, remaining⟩ := (not_mem_allocations allocated).mp enough
  obtain ⟨start, made, rfl, root⟩ := @vmmCreateAddressSpace_made _ parent _ _ allocated nonzero
  have got : addrOf (frameOf new) ≠ 0 := by
    rw [(pmmAllocPage_spec allocated nonzero).1]
    exact nonzero
  have completes := cloneTable_completes clonedTable_eq clonePd_clones clonePd_completes
  obtain ⟨next, done, -⟩ := @Completes.loop _ _ _ 0 _ _ _ _ _ completes cloneRoot_clones nodup_privateSlots
    (root.cloneable space) remaining
  have looped := (foldlM_clonePdpt userSlots _).trans done
  simp only [vmmCloneAddressSpace, made, if_neg got, looped]
  exact got

/-- A path that does not start in the shared slot. -/
def Private (path : List (Fin 512)) : Prop := ∀ i rest, path = i :: rest → i ≠ sharedSlot

structure ClonesAddressSpace (m next : Machine) (parent child : Frame) : Prop where
  mapped : ∀ path, Private path → path.length ≤ 4 →
    (userWalk next.mem child path).isSome = (userWalk m.mem parent path).isSome
  flags : ∀ path i table copy, Private (path ++ [i]) → path.length ≤ 3 → (path = [] → i.val < 256) →
    userWalk m.mem parent path = some table → userWalk next.mem child path = some copy →
    present (m.mem table i) = true →
    ∀ bit, bit < 12 ∨ 52 ≤ bit → (next.mem copy i).getLsbD bit = (m.mem table i).getLsbD bit
  content : ∀ path page copy, Private path → path.length = 4 → userWalk m.mem parent path = some page →
    userWalk next.mem child path = some copy → next.mem copy = m.mem page
  fresh : ∀ path frame, Private path → path.length ≤ 4 → userWalk next.mem child path = some frame →
    ¬ m.pmm.InUse frame ∧ next.pmm.InUse frame
  distinct : ∀ front back frame, Private front → Private back → front.length ≤ 4 → back.length ≤ 4 →
    userWalk next.mem child front = some frame → userWalk next.mem child back = some frame → front = back
  shared : ∀ i : Fin 512, 256 ≤ i.val ∨ i = sharedSlot → next.mem child i = m.mem parent i
  kept : ∀ frame, m.pmm.InUse frame → next.mem frame = m.mem frame

section
variable {parts : Fin 512 → List Frame} (created : Created m start parent child)
  (cloned : Cloned m.mem 0 3 parent child privateSlots parts start next)
include created cloned

theorem Cloned.not_mem_parts (inside : i ∈ privateSlots) (frame : Frame) (page : frame ∈ parts i) :
    ¬ m.pmm.InUse frame ∧ next.pmm.InUse frame ∧ frame ≠ child := by
  have member := mem_flatMap.mpr ⟨i, inside, page⟩
  have free := cloned.fresh frame member
  rw [created.taken, not_or] at free
  exact ⟨free.2, (cloned.used frame).mpr (.inl member), free.1⟩

theorem Cloned.userWalk_child (inside : i ∈ privateSlots) (short : path.length ≤ 3) :
    userWalk next.mem child (i :: path) = entryWalk next.mem (next.mem child i) path := by
  apply userWalk_cons_of_apart (mem_privateSlots.mp inside).1
  intro front node brief reached
  have page := (cloned.copied i inside).mem_part (show front.length ≤ 3 by omega) reached
  exact (cloned.not_mem_parts created inside node page).2.2

end

theorem userWalk_kernel (high : 256 ≤ i.val) (mem : PhysMem) (root : Frame) (path : List (Fin 512)) :
    userWalk mem root (i :: path) = none := by
  have closed : userEdge mem root root i = none := if_pos ⟨rfl, high⟩
  rw [userWalk, walk, closed]
  rfl

theorem SlotCopied.bits (slot : SlotCopied below entry target part)
    (here : present entry = true) (bit : Nat) (outside : bit < 12 ∨ 52 ≤ bit) :
    target.getLsbD bit = entry.getLsbD bit := by
  rw [SlotCopied, if_pos here] at slot
  obtain ⟨frame, rest, -, rfl, -⟩ := slot
  exact getLsbD_setField_of_disjoint 12 frame entry (by decide) outside

section
variable {parts : Fin 512 → List Frame} (space : AddressSpace m parent) (created : Created m start parent child)
  (cloned : Cloned m.mem 0 3 parent child privateSlots parts start next)
include space created cloned

section
variable (private_ : Private (i :: path)) (short : path.length ≤ 3)
include private_ short

/-- A private walk in the child has a twin in the parent. -/
theorem Cloned.twin : (userWalk m.mem parent (i :: path) = none ∧ userWalk next.mem child (i :: path) = none) ∨
      ∃ frame copy below, i ∈ privateSlots ∧ userWalk m.mem parent (i :: path) = some frame ∧
        userWalk next.mem child (i :: path) = some copy ∧ copy ∈ parts i ∧
        Copied m.mem next.mem (3 - path.length) frame copy below := by
  by_cases high : 256 ≤ i.val
  · rw [userWalk_kernel high, userWalk_kernel high]
    exact .inl ⟨rfl, rfl⟩
  have user : i.val < 256 := by omega
  have inside := mem_privateSlots.mpr ⟨user, private_ i path rfl⟩
  rw [userWalk_cons (space.tree.owned.mono (by decide)) user short, cloned.userWalk_child created inside short]
  obtain stopped | ⟨frame, copy, below, first, second, page, copied⟩ := (cloned.copied i inside).twin short
  · exact .inl stopped
  · exact .inr ⟨frame, copy, below, inside, first, second, page, copied⟩

theorem Cloned.copied_of_walks (atParent : userWalk m.mem parent (i :: path) = some table)
    (atChild : userWalk next.mem child (i :: path) = some copy) :
    ∃ below, Copied m.mem next.mem (3 - path.length) table copy below := by
  obtain ⟨stopped, -⟩ | ⟨_, _, below, -, first, second, -, copied⟩ := cloned.twin space created private_ short
  · rw [stopped] at atParent
    cases atParent
  rw [first] at atParent
  rw [second] at atChild
  cases atParent
  cases atChild
  exact ⟨below, copied⟩

theorem Cloned.page_of_walk (reached : userWalk next.mem child (i :: path) = some frame) :
    i ∈ privateSlots ∧ frame ∈ parts i := by
  obtain ⟨-, stopped⟩ | ⟨_, _, _, inside, -, second, page, -⟩ := cloned.twin space created private_ short
  · rw [stopped] at reached
    cases reached
  · rw [second] at reached
    cases reached
    exact ⟨inside, page⟩

end

theorem Cloned.flags (private_ : Private (path ++ [j])) (short : path.length ≤ 3) (user : path = [] → j.val < 256)
    (atParent : userWalk m.mem parent path = some table) (atChild : userWalk next.mem child path = some copy)
    (here : present (m.mem table j) = true) (bit : Nat) (outside : bit < 12 ∨ 52 ≤ bit) :
    (next.mem copy j).getLsbD bit = (m.mem table j).getLsbD bit := by
  cases path with
  | nil =>
    cases atParent
    cases atChild
    have inside := mem_privateSlots.mpr ⟨user rfl, private_ j [] rfl⟩
    exact (cloned.copied j inside).bits here bit outside
  | cons i rest =>
    have brief := le_of_succ_le_succ short
    obtain ⟨below, copied⟩ := cloned.copied_of_walks space created
      (fun k more same => private_ k (more ++ [j]) (by rw [same]; rfl)) (by omega) atParent atChild
    obtain ⟨levels, deeper⟩ : ∃ levels, 3 - rest.length = levels + 1 := ⟨2 - rest.length, by omega⟩
    rw [deeper] at copied
    obtain ⟨_, -, slots⟩ := copied
    exact (slots j).bits here bit outside

theorem Cloned.userWalk_injective {front back : List (Fin 512)} (privateFront : Private front)
    (privateBack : Private back) (shortFront : front.length ≤ 4) (shortBack : back.length ≤ 4)
    (first : userWalk next.mem child front = some frame) (second : userWalk next.mem child back = some frame) :
    front = back := by
  have root : ∀ i path, Private (i :: path) → path.length ≤ 3 →
      userWalk next.mem child (i :: path) ≠ some child := by
    intro i path private_ short reached
    obtain ⟨inside, page⟩ := cloned.page_of_walk space created private_ short reached
    exact (cloned.not_mem_parts created inside child page).2.2 rfl
  cases front with
  | nil =>
    cases first
    cases back with
    | nil => rfl
    | cons j other => exact absurd second (root j other privateBack (le_of_succ_le_succ shortBack))
  | cons i rest =>
    cases back with
    | nil =>
      cases second
      exact absurd first (root i rest privateFront (le_of_succ_le_succ shortFront))
    | cons j other =>
      have briefFront := le_of_succ_le_succ shortFront
      have briefBack := le_of_succ_le_succ shortBack
      obtain ⟨inside, page⟩ := cloned.page_of_walk space created privateFront briefFront first
      obtain ⟨there, also⟩ := cloned.page_of_walk space created privateBack briefBack second
      cases flatMap_disjoint cloned.distinct inside there page also
      rw [cloned.userWalk_child created inside briefFront] at first
      rw [cloned.userWalk_child created inside briefBack] at second
      have alone := (nodup_flatMap.mp cloned.distinct).1 i inside
      rw [(cloned.copied i inside).owned alone briefFront briefBack first second]

theorem clones_of_cloned : ClonesAddressSpace m next parent child := by
  have childUsed := (created.taken child).mpr (.inl rfl)
  constructor
  case mapped =>
    intro path private_ short
    cases path with
    | nil => rfl
    | cons i rest =>
      obtain ⟨first, second⟩ | ⟨_, _, _, -, first, second, -⟩ :=
        cloned.twin space created private_ (le_of_succ_le_succ short)
      · rw [first, second]
      · rw [first, second]
        rfl
  case flags =>
    intro path j table copy private_ short user atParent atChild here
    exact cloned.flags space created private_ short user atParent atChild here
  case content =>
    intro path page copy private_ four atParent atChild
    cases path with
    | nil => cases four
    | cons i rest =>
      have three : rest.length = 3 := succ.inj four
      obtain ⟨below, copied⟩ := cloned.copied_of_walks space created private_ three.le atParent atChild
      rw [three] at copied
      exact copied.1
  case fresh =>
    intro path frame private_ short reached
    cases path with
    | nil =>
      cases reached
      exact ⟨created.free, (cloned.used child).mpr (.inr childUsed)⟩
    | cons i rest =>
      obtain ⟨inside, page⟩ := cloned.page_of_walk space created private_ (le_of_succ_le_succ short) reached
      obtain ⟨free, used, -⟩ := cloned.not_mem_parts created inside frame page
      exact ⟨free, used⟩
  case distinct =>
    intro front back frame privateFront privateBack shortFront shortBack
    exact cloned.userWalk_injective space created privateFront privateBack shortFront shortBack
  case shared =>
    intro i outside
    have skipped : i ∉ privateSlots := by
      rw [mem_privateSlots]
      rintro ⟨user, unshared⟩
      cases outside with
      | inl high => omega
      | inr same => exact unshared same
    rw [cloned.others i skipped, created.entries i, if_pos outside]
  case kept =>
    intro frame used
    have differ : frame ≠ child := fun same => created.free (same ▸ used)
    rw [cloned.kept frame ((created.taken frame).mpr (.inr used)) differ, created.kept frame differ]

end

theorem vmmCloneAddressSpace_clones (space : AddressSpace m parent)
    (nonzero : (vmmCloneAddressSpace m (addrOf parent) (addrOf parent)).1 ≠ 0) :
    ∃ child, (vmmCloneAddressSpace m (addrOf parent) (addrOf parent)).1 = addrOf child ∧
      ClonesAddressSpace m (vmmCloneAddressSpace m (addrOf parent) (addrOf parent)).2 parent child := by
  rcases returned : vmmCloneAddressSpace m (addrOf parent) (addrOf parent) with ⟨result, next⟩
  rw [returned] at nonzero
  obtain ⟨child, start, parts, same, created, cloned⟩ := vmmCloneAddressSpace_cloned space returned nonzero
  exact ⟨child, same, clones_of_cloned space created cloned⟩

def takenPage : Machine := { onePage with pmm := onePage.pmm.bitmapSetBit 9 }

theorem takenPage_space : AddressSpace takenPage 5 := by
  obtain ⟨tables, tree, page⟩ := onePage_spec
  refine ⟨tree, ?_⟩
  intro path frame short reached
  by_cases four : path.length = 4
  · rw [page path frame four reached]
    exact .inl (by decide +kernel)
  cases tables.used path frame (by omega) reached with
  | inl taken =>
    left
    simp [takenPage, Pmm.bit_set, taken]
  | inr beyond => exact .inr beyond

theorem vmmCloneAddressSpace_one_page :
    ∃ child, (vmmCloneAddressSpace takenPage (addrOf 5) (addrOf 5)).1 = addrOf child ∧
      ClonesAddressSpace takenPage (vmmCloneAddressSpace takenPage (addrOf 5) (addrOf 5)).2 5 child := by
  apply vmmCloneAddressSpace_clones takenPage_space
  apply vmmCloneAddressSpace_nonzero takenPage_space
  decide +kernel

end Sirius.Memory
