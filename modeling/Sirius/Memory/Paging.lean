import Sirius.Memory.Pmm

/-! Page tables as `vmm.c` edits them. Physical memory is 512 words a frame, whether the
words are table entries or data. A scratch window shows the frame last requested for
it; the root table is reached through a pointer of its own. Locks and the TLB are left
out. -/
namespace Sirius.Memory
open Support Function BitVec

abbrev Entry := BitVec 64
abbrev PhysMem := Frame → Fin 512 → Entry

instance tableSome : NeZero 512 := ⟨by decide⟩

structure Machine where
  mem : PhysMem
  pmm : Pmm
  windows : Nat → Frame

/-- The fields `p`, `ps` and, whatever its name at the level, the frame of an entry. -/
def present (entry : Entry) : Bool := entry.getLsbD 0
def pageSizeBit (entry : Entry) : Bool := entry.getLsbD 7
def address (entry : Entry) : Frame := field 12 40 entry

section
variable (shift : Nat) (virt : BitVec 64)

def tableIndex : Fin 512 :=
  ⟨virt.toNat / 2 ^ shift % 512, Nat.mod_lt _ (by decide)⟩

def pml4Index : Fin 512 := tableIndex 39 virt
def pdptIndex : Fin 512 := tableIndex 30 virt
def pdIndex : Fin 512 := tableIndex 21 virt
def ptIndex : Fin 512 := tableIndex 12 virt

end

def PhysMem.write (mem : PhysMem) (frame : Frame) (i : Fin 512) (entry : Entry) : PhysMem :=
  update mem frame (update (mem frame) i entry)

def PhysMem.clear (mem : PhysMem) (frame : Frame) : PhysMem := update mem frame fun _ => 0

namespace Machine

def scratchMap (m : Machine) (phys : BitVec 64) (window : Nat) : Machine :=
  { m with windows := update m.windows window (frameOf phys) }

def read (m : Machine) (window : Nat) (i : Fin 512) : Entry := m.mem (m.windows window) i

def write (m : Machine) (window : Nat) (i : Fin 512) (entry : Entry) : Machine :=
  { m with mem := m.mem.write (m.windows window) i entry }

def clear (m : Machine) (window : Nat) : Machine :=
  { m with mem := m.mem.clear (m.windows window) }

def alloc (m : Machine) : BitVec 64 × Machine :=
  let (phys, pmm) := pmmAllocPage m.pmm
  (phys, { m with pmm := pmm })

theorem alloc_eq {m : Machine} (allocated : pmmAllocPage m.pmm = (phys, later)) : m.alloc = (phys, { m with pmm := later }) := by
  simp only [alloc, allocated]

end Machine

/-- The entry for a new table: present, with the permissions of the page to be mapped. -/
def tableEntry (flags phys : BitVec 64) (old : Entry) : Entry :=
  let p := setField 0 1#1 old
  let rw := setField 1 (ofBool (flags.getLsbD 1)) p
  let us := setField 2 (ofBool (flags.getLsbD 2)) rw
  setField 12 (frameOf phys) us

/-- At the level of the page directory the page-size bit is cleared, too. -/
def directoryEntry (flags phys : BitVec 64) (old : Entry) : Entry :=
  let p := setField 0 1#1 old
  let rw := setField 1 (ofBool (flags.getLsbD 1)) p
  let us := setField 2 (ofBool (flags.getLsbD 2)) rw
  let ps := setField 7 0#1 us
  setField 12 (frameOf phys) ps

def pageEntry (flags phys : BitVec 64) (old : Entry) : Entry :=
  let p := setField 0 1#1 old
  let rw := setField 1 (ofBool (flags.getLsbD 1)) p
  let us := setField 2 (ofBool (flags.getLsbD 2)) rw
  let frames := setField 12 (frameOf phys) us
  setField 63 (ofBool (flags.getLsbD 63)) frames

/-- A table found or made, and what `pmm_alloc_page` returned for it. -/
structure Ensured where
  machine : Machine
  phys : BitVec 64
  allocated : List (BitVec 64) := []

variable (m : Machine) (root : Frame)

variable (virt flags : BitVec 64)

def ensurePdpt : Ensured :=
  let entry := m.mem root (pml4Index virt)
  if present entry then { machine := m, phys := addrOf (address entry) }
  else
    let (new, m) := m.alloc
    let m := (m.scratchMap new 0).clear 0
    let entry := tableEntry flags new (m.mem root (pml4Index virt))
    { machine := { m with mem := m.mem.write root (pml4Index virt) entry }
      phys := new
      allocated := [new] }

def ensurePd (pdptPhys virt flags : BitVec 64) : Ensured :=
  let m := m.scratchMap pdptPhys 0
  let entry := m.read 0 (pdptIndex virt)
  -- the mask keeps 36 bits of the address
  if present entry then { machine := m, phys := addrOf (address entry) &&& 0xFFFFFFFFF }
  else
    let (new, m) := m.alloc
    let m := (m.scratchMap new 1).clear 1
    { machine := m.write 0 (pdptIndex virt) (tableEntry flags new (m.read 0 (pdptIndex virt)))
      phys := new
      allocated := [new] }

def ensurePt (pdPhys virt flags : BitVec 64) : Ensured :=
  let m := m.scratchMap pdPhys 0
  let entry := m.read 0 (pdIndex virt)
  if present entry then { machine := m, phys := addrOf (address entry) }
  else
    let (new, m) := m.alloc
    let m := (m.scratchMap new 1).clear 1
    { machine := m.write 0 (pdIndex virt) (directoryEntry flags new (m.read 0 (pdIndex virt)))
      phys := new
      allocated := [new] }

structure MapPage where
  machine : Machine
  allocated : List (BitVec 64)

/-- No call checks what `pmm_alloc_page` returned, so an exhausted allocator makes
frame 0 a table. -/
def vmmMapPage (phys flags : BitVec 64) : MapPage :=
  let pdpt := ensurePdpt m root virt flags
  let pd := ensurePd pdpt.machine pdpt.phys virt flags
  let pt := ensurePt pd.machine pd.phys virt flags
  let m := pt.machine.scratchMap pt.phys 0
  { machine := m.write 0 (ptIndex virt) (pageEntry flags phys (m.read 0 (ptIndex virt)))
    allocated := pdpt.allocated ++ pd.allocated ++ pt.allocated }

/-- The first two steps of `vmm_unmap_page` and `vmm_get_physical_address`: window 0 is
left on the page directory, unless an entry on the way is not present. -/
def descend : Bool × Machine :=
  let pml4e := m.mem root (pml4Index virt)
  if present pml4e then
    let m := m.scratchMap (addrOf (address pml4e)) 0
    let pdpte := m.read 0 (pdptIndex virt)
    if present pdpte then (true, m.scratchMap (addrOf (address pdpte)) 0) else (false, m)
  else (false, m)

def vmmUnmapPage : Machine :=
  match descend m root virt with
  | (false, m) => m
  | (true, m) =>
    let pde := m.read 0 (pdIndex virt)
    if present pde then
      let m := m.scratchMap (addrOf (address pde)) 0
      let pte := m.read 0 (ptIndex virt)
      if present pte then
        let m := { m with pmm := pmmFreePage m.pmm (addrOf (address pte)) }
        m.write 0 (ptIndex virt) (setField 12 (0 : Frame) (setField 0 0#1 pte))
      else m
    else m

def vmmGetPhysicalAddress : BitVec 64 × Machine :=
  match descend m root virt with
  | (false, m) => (0, m)
  | (true, m) =>
    let pde := m.read 0 (pdIndex virt)
    if present pde then
      if pageSizeBit pde then (addrOf (address pde), m)
      else
        let m := m.scratchMap (addrOf (address pde)) 0
        let pte := m.read 0 (ptIndex virt)
        if present pte then (addrOf (address pte), m) else (0, m)
    else (0, m)

/-- The address of a single byte, through the kernel's own tables. Window 0 shows each
table in turn and nothing is written. -/
def vmmGetPhysical (mem : PhysMem) (root : Frame) (virt : BitVec 64) : BitVec 64 :=
  let pml4e := mem root (pml4Index virt)
  if ¬present pml4e then 0 else
    let pdpte := mem (address pml4e) (pdptIndex virt)
    if ¬present pdpte then 0
    else if pageSizeBit pdpte then (pdpte &&& 0x000FFFFFFFFFF000) ||| (virt &&& 0x3FFFFFFF)
    else
      let pde := mem (address pdpte) (pdIndex virt)
      if ¬present pde then 0
      else if pageSizeBit pde then addrOf (address pde) ||| (virt &&& 0x1FFFFF)
      else
        let pte := mem (address pde) (ptIndex virt)
        if ¬present pte then 0 else addrOf (address pte) ||| (virt &&& 0xFFF)

end Sirius.Memory
