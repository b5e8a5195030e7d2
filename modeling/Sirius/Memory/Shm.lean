import Sirius.Memory.PmmRanges
import Sirius.Memory.Translation

/-! Shared memory of `mm/shm.c` and the calls `sys_mmap` and `sys_munmap` on it. One lock
covers an operation from the search of the bitmap to its last update, so one operation is
under way at a time; each call of the page allocator or of the page-table code is one
step, and other users of the allocator take steps in between. Whom a frame belongs to is
recorded on the side. -/
namespace Sirius.Memory
open Support

def userShmVirtualBase : BitVec 64 := 0x700000000000
def userShmMaxPages : Nat := (0x704000000000 - 0x700000000000) / 4096

inductive Owner where
  | free
  | table
  | other
  | shm (page : BitVec 64)
deriving DecidableEq

/-- What the holder of the lock does next. -/
inductive ShmOp where
  | idle
  | allocating (numPages startBit : Nat) (flag : BitVec 64)
  | mapping (numPages startBit : Nat) (phys flag : BitVec 64) (i : Nat)
  | looking (base : BitVec 64) (numPages i : Nat)
  | unmapping (base : BitVec 64) (numPages i : Nat) (pa : BitVec 64)
  | freeing (base : BitVec 64) (numPages i : Nat) (pa : BitVec 64)
deriving DecidableEq

/-- The last two fields are the record: the owner of every frame, and the frames that an
operation freed although they did not belong to the page it was removing. -/
structure ShmState where
  machine : Machine
  bitmap : Nat → BitVec 32
  op : ShmOp
  owner : Frame → Owner
  foreign : List Frame

section
variable (bitmap : Nat → BitVec 32) (startBit : Nat)

def shmBit (i : Nat) : Bool := (bitmap (i / 32)).getLsbD (i % 32)

def shmFindFreeRegion (numPages : Nat) : Option Nat :=
  findRun (fun i => !shmBit bitmap i) numPages userShmMaxPages

def shmSetBits (numPages : Nat) : Nat → BitVec 32 :=
  (List.range numPages).foldl (fun bitmap p =>
    let i := startBit + p
    Function.update bitmap (i / 32) (bitmap (i / 32) ||| BitVec.ofNat 32 (1 <<< (i % 32)))) bitmap

def shmClearBits (numPages : Nat) : Nat → BitVec 32 :=
  (List.range numPages).foldl (fun bitmap p =>
    let i := startBit + p
    Function.update bitmap (i / 32) (bitmap (i / 32) &&& ~~~ BitVec.ofNat 32 (1 <<< (i % 32)))) bitmap

end

/-- The number of pages for `size` bytes; the sum has 64 bits. -/
def shmPages (size : BitVec 64) : Nat := (size + 4095).toNat / 4096

def pageAfter (base : BitVec 64) (i : Nat) : BitVec 64 := base + BitVec.ofNat 64 (i * 4096)

def pageOf (virt : BitVec 64) : BitVec 64 := virt &&& ~~~ (0xFFF : BitVec 64)

def shmStartBit (base : BitVec 64) : Nat := (base - userShmVirtualBase).toNat / 4096

instance (pmm : Pmm) (frame : Frame) : Decidable (pmm.InUse frame) := inferInstanceAs (Decidable (_ ∨ _))

/-- Frames that the allocator has given out since belong to `new`, those it got back to nobody. -/
def reown (before after : Pmm) (new owner : Frame → Owner) (frame : Frame) : Owner :=
  if before.InUse frame then if after.InUse frame then owner frame else .free
  else if after.InUse frame then new frame else owner frame

/-- The frame that `vmm_unmap_page` gives back. -/
def vmmUnmapFrees (m : Machine) (root : Frame) (virt : BitVec 64) : Option Frame :=
  match descend m root virt with
  | (false, _) => none
  | (true, m) =>
    let pde := m.read 0 (pdIndex virt)
    if present pde then
      let m := m.scratchMap (addrOf (address pde)) 0
      let pte := m.read 0 (ptIndex virt)
      if present pte then some (address pte) else none
    else none

namespace ShmState

/-- A call of the allocator, whose new frames belong to `new`. -/
def setPmm (s : ShmState) (pmm : Pmm) (new : Frame → Owner) : ShmState :=
  { s with machine := { s.machine with pmm := pmm }, owner := reown s.machine.pmm pmm new s.owner }

def setMachine (s : ShmState) (machine : Machine) : ShmState :=
  { s with machine := machine, owner := reown s.machine.pmm machine.pmm (fun _ => .table) s.owner }

/-- A call of `pmm_free_page` for `frame` while `page` is being removed. -/
def freed (s : ShmState) (page : BitVec 64) (frame : Frame) : List Frame :=
  if frame ≠ 0 ∧ frame.toNat < s.machine.pmm.totalPages ∧ s.owner frame ≠ .shm page then frame :: s.foreign
  else s.foreign

/-- The next round of the loop of `shm_free`, or its end. -/
def advance (s : ShmState) (base : BitVec 64) (numPages i : Nat) : ShmState :=
  if i + 1 < numPages then { s with op := .looking base numPages (i + 1) }
  else { s with bitmap := shmClearBits s.bitmap (shmStartBit base) numPages, op := .idle }

end ShmState

/-- The table of the window is entered in the root, all its fields set. Without a page for
it the kernel stops. -/
def shmInit (m : Machine) (root : Frame) (owner : Frame → Owner) : Option ShmState :=
  let (phys, after) := m.alloc
  if phys = 0 then none
  else
    let after := (after.scratchMap phys 15).clear 15
    some { machine := { after with mem := after.mem.write root sharedSlot (setField 12 (frameOf phys) 7) }
           bitmap := fun _ => 0
           op := .idle
           owner := reown m.pmm after.pmm (fun _ => .table) owner
           foreign := [] }

variable (root : Frame) (s : ShmState)

/-- `shm_alloc` up to its first call of the allocator. -/
def shmAlloc (size flag : BitVec 64) : ShmState :=
  if size = 0 then s
  else if shmPages size = 0 ∨ userShmMaxPages < shmPages size then s
  else match shmFindFreeRegion s.bitmap (shmPages size) with
    | none => s
    | some startBit => { s with op := .allocating (shmPages size) startBit flag }

/-- `shm_free` up to its first call of the page-table code. -/
def shmFree (base size : BitVec 64) : ShmState :=
  if base = 0 ∨ size = 0 then s
  else if base < userShmVirtualBase ∨ shmPages size = 0 then s
  else if userShmMaxPages < shmStartBit base + shmPages size then s
  else { s with op := .looking base (shmPages size) 0 }

/-- The address asked for plays no part. -/
def sysMmap (length : BitVec 64) (prot flags : BitVec 32) : ShmState :=
  if length = 0 then s
  else if flags &&& 1 = 0 then s
  else
    let readable : BitVec 64 := if prot &&& 1 = 0 then 0 else 1
    let writable : BitVec 64 := if prot &&& 2 = 0 then 0 else 3
    shmAlloc s length (readable ||| writable ||| 4)

def sysMunmap (addr length : BitVec 64) : ShmState := shmFree s addr length

def shmStep : ShmState :=
  match s.op with
  | .idle => s
  | .allocating numPages startBit flag =>
    let (phys, pmm) := pmmAllocPages s.machine.pmm (BitVec.ofNat 64 numPages)
    let base := pageAfter userShmVirtualBase startBit
    let s := s.setPmm pmm fun frame => .shm (pageAfter base (frame.toNat - phys.toNat / 4096))
    if phys = 0 then { s with op := .idle } else { s with op := .mapping numPages startBit phys flag 0 }
  | .mapping numPages startBit phys flag i =>
    let va := pageAfter (pageAfter userShmVirtualBase startBit) i
    let s := s.setMachine (vmmMapPage s.machine root va (pageAfter phys i) flag).machine
    if i + 1 < numPages then { s with op := .mapping numPages startBit phys flag (i + 1) }
    else { s with bitmap := shmSetBits s.bitmap startBit numPages, op := .idle }
  | .looking base numPages i =>
    let (pa, m) := vmmGetPhysicalAddress s.machine root (pageAfter base i)
    { s with machine := m, op := .unmapping base numPages i pa }
  | .unmapping base numPages i pa =>
    let va := pageAfter base i
    let foreign := match vmmUnmapFrees s.machine root va with
      | some frame => s.freed (pageOf va) frame
      | none => s.foreign
    let s := { s.setMachine (vmmUnmapPage s.machine root va) with foreign := foreign }
    if pa = 0 then s.advance base numPages i else { s with op := .freeing base numPages i pa }
  | .freeing base numPages i pa =>
    let foreign := s.freed (pageOf (pageAfter base i)) (frameOf pa)
    let s := { s.setPmm (pmmFreePages s.machine.pmm pa 1) (fun _ => .other) with foreign := foreign }
    s.advance base numPages i

/-- Other users of the allocator take frames, give theirs back and write to theirs. -/
inductive OtherUser (s : ShmState) : ShmState → Prop where
  | alloc (count : BitVec 64) : OtherUser s (s.setPmm (pmmAllocPages s.machine.pmm count).2 fun _ => .other)
  | free (frame : Frame) (owned : s.owner frame = .other) :
      OtherUser s (s.setPmm (pmmFreePage s.machine.pmm (addrOf frame)) fun _ => .other)
  | write (mem : PhysMem) (only : ∀ frame, s.owner frame ≠ .other → mem frame = s.machine.mem frame) :
      OtherUser s { s with machine := { s.machine with mem := mem } }

inductive ShmStep (root : Frame) (s : ShmState) : ShmState → Prop where
  | mmap (length : BitVec 64) (prot flags : BitVec 32) (unlocked : s.op = .idle) :
      ShmStep root s (sysMmap s length prot flags)
  | munmap (addr length : BitVec 64) (unlocked : s.op = .idle) : ShmStep root s (sysMunmap s addr length)
  | run (locked : s.op ≠ .idle) : ShmStep root s (shmStep root s)
  | other (next : ShmState) (user : OtherUser s next) : ShmStep root s next

end Sirius.Memory
