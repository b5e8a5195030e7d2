import Sirius.Memory.Tables

/-! `vmm_create_address_space` and `vmm_clone_address_space`. The loops work on pairs of
windows, the parent's table in an even one and the child's in the next. A page that is
not to be had ends all loops; the machine is then left as it is. -/
namespace Sirius.Memory
open Support List

/-- The machine at the end of a loop, or where the allocator ran dry. -/
abbrev Cloning := Except Machine Machine

/-- The entry of the child: fields of the parent's entry, by lowest bit and width, and
a frame of its own. -/
def clonedEntry (low high : List (Nat × Nat)) (parent : Entry) (phys : BitVec 64) (old : Entry) : Entry :=
  let flags := copyFields low parent (setField 0 1#1 old)
  copyFields high parent (setField 12 (frameOf phys) flags)

/-- The fields `rw`, `us`, `pwt`, `pcd`, `rs1`, `ign` and `rs2`. -/
def clonedTable : Entry → BitVec 64 → Entry → Entry :=
  clonedEntry [(1, 1), (2, 1), (3, 1), (4, 1), (5, 4), (9, 3)] [(52, 12)]

/-- The fields `rw`, `us`, `pwt`, `pcd`, `a`, `d`, `ps`, `g`, `ign2` and `rs2`. -/
def clonedDirectory : Entry → BitVec 64 → Entry → Entry :=
  clonedEntry [(1, 1), (2, 1), (3, 1), (4, 1), (5, 1), (6, 1), (7, 1), (8, 1), (9, 3)] [(52, 12)]

/-- The fields `rw`, `us`, `pwt`, `pcd`, `a`, `d`, `pat`, `g`, `ign`, `rs2` and `nx`. -/
def clonedPage : Entry → BitVec 64 → Entry → Entry :=
  clonedEntry [(1, 1), (2, 1), (3, 1), (4, 1), (5, 1), (6, 1), (7, 1), (8, 1), (9, 3)] [(52, 11), (63, 1)]

namespace Machine

def copy (m : Machine) (target source : Nat) : Machine :=
  { m with mem := Function.update m.mem (m.windows target) (m.mem (m.windows source)) }

def fill (m : Machine) (window : Nat) (slots : List (Fin 512)) (entry : Fin 512 → Entry) : Machine :=
  slots.foldl (fun m i => m.write window i (entry i)) m

end Machine

def clonePage (m : Machine) (i : Fin 512) : Cloning :=
  let pte := m.read 6 i
  if present pte then
    let (page, m) := m.alloc
    if page = 0 then .error m
    else
      let m := m.write 7 i (clonedPage pte page (m.read 7 i))
      let m := (m.scratchMap (addrOf (address pte)) 8).scratchMap page 9
      .ok (m.copy 9 8)
  else .ok m

/-- One round of a loop over a table: a table for the child, entered next to the
parent's, and the loop over the two tables below. -/
def cloneTable (level : Nat) (entry : Entry → BitVec 64 → Entry → Entry)
    (inner : Machine → Fin 512 → Cloning) (m : Machine) (i : Fin 512) : Cloning :=
  let parent := m.read (2 * level) i
  if present parent then
    let (new, m) := m.alloc
    if new = 0 then .error m
    else
      let m := (m.scratchMap new (2 * level + 3)).clear (2 * level + 3)
      let m := m.write (2 * level + 1) i (entry parent new (m.read (2 * level + 1) i))
      allSlots.foldlM inner (m.scratchMap (addrOf (address parent)) (2 * level + 2))
  else .ok m

def clonePt : Machine → Fin 512 → Cloning := cloneTable 2 clonedDirectory clonePage

def clonePd : Machine → Fin 512 → Cloning := cloneTable 1 clonedTable clonePt

def clonePdpt (m : Machine) (i : Fin 512) : Cloning :=
  if i = sharedSlot then .ok m else cloneTable 0 clonedTable clonePd m i

def kernelSlots : List (Fin 512) := allSlots.filter fun i => 256 ≤ i.val

def vmmCreateAddressSpace (m : Machine) (cr3 : BitVec 64) : BitVec 64 × Machine :=
  let (new, m) := m.alloc
  if new = 0 then (0, m)
  else
    let m := m.scratchMap cr3 0
    let kernel := m.read 0
    let shared := m.read 0 sharedSlot
    let m := (m.scratchMap new 1).fill 1 userSlots fun _ => 0
    let m := (m.fill 1 kernelSlots kernel).write 1 sharedSlot shared
    (new &&& ~~~ 0xFFF, m)

def vmmCloneAddressSpace (m : Machine) (cr3 parentPml4Phys : BitVec 64) : BitVec 64 × Machine :=
  let (child, m) := vmmCreateAddressSpace m cr3
  if child = 0 then (0, m)
  else
    match userSlots.foldlM clonePdpt ((m.scratchMap parentPml4Phys 0).scratchMap child 1) with
    | .error m => (0, m)
    | .ok m => (child, m)

/-- A layout that leaves nothing out makes the entry of the parent with another frame. -/
theorem clonedEntry_eq (inside : ∀ part ∈ low ++ high, part.1 + part.2 ≤ 64)
    (above : ∀ part ∈ high, 52 ≤ part.1)
    (covered : ∀ i : Fin 64, i.val = 0 ∨ (12 ≤ i.val ∧ i.val < 52) ∨
      (low ++ high).any fun part => part.1 ≤ i.val && i.val < part.1 + part.2)
    (phys : BitVec 64) (old : Entry) (here : present parent = true) :
    clonedEntry low high parent phys old = setField 12 (frameOf phys) parent := by
  have lows : ∀ part ∈ low, part.1 + part.2 ≤ 64 := fun part member => inside part (mem_append_left _ member)
  have highs : ∀ part ∈ high, part.1 + part.2 ≤ 64 := fun part member => inside part (mem_append_right _ member)
  apply BitVec.eq_of_getLsbD_eq
  intro i small
  simp only [clonedEntry]
  rw [getLsbD_copyFields _ _ _ highs, getLsbD_setField 12 _ _ (by decide), getLsbD_setField 12 _ _ (by decide),
    getLsbD_copyFields _ _ _ lows, getLsbD_setField 0 _ _ (by decide)]
  by_cases upper : high.any (fun part => part.1 ≤ i && i < part.1 + part.2) = true
  · obtain ⟨part, member, within⟩ := any_eq_true.mp upper
    have := above part member
    have apart : ¬ (12 ≤ i ∧ i < 12 + 40) := by
      simp only [Bool.and_eq_true, decide_eq_true_eq] at within
      omega
    rw [if_pos upper, if_neg apart]
  · rw [if_neg upper]
    by_cases frame : 12 ≤ i ∧ i < 12 + 40
    · rw [if_pos frame, if_pos frame]
    rw [if_neg frame, if_neg frame]
    by_cases lower : low.any (fun part => part.1 ≤ i && i < part.1 + part.2) = true
    · rw [if_pos lower]
    rw [if_neg lower]
    have first : i = 0 := by
      have := covered ⟨i, small⟩
      rw [any_append, Bool.eq_false_iff.mpr lower, Bool.eq_false_iff.mpr upper] at this
      simp only [Bool.or_false, Bool.false_eq_true, or_false] at this
      omega
    subst first
    exact here.symm

/-- The entry of the child is the parent's with another frame. -/
abbrev Copies (entry : Entry → BitVec 64 → Entry → Entry) : Prop :=
  ∀ parent phys old, present parent = true → entry parent phys old = setField 12 (frameOf phys) parent

theorem clonedTable_eq : Copies clonedTable := fun _ => clonedEntry_eq (by decide) (by decide) (by decide)

theorem clonedDirectory_eq : Copies clonedDirectory := fun _ => clonedEntry_eq (by decide) (by decide) (by decide)

theorem clonedPage_eq : Copies clonedPage := fun _ => clonedEntry_eq (by decide) (by decide) (by decide)

end Sirius.Memory
