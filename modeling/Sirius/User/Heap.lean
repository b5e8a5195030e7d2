import Sirius.Support.Word

/-! The heap of a user program, `uheap.c`: headers in the memory itself, linked by their addresses,
over the break of the process. Walks along the list are given the end of the heap as the number
of steps they may take; each header has 32 bytes of its own below it. -/
namespace Sirius.User
open Support

/-- `start` is `g_uheap_start`, with 0 for the null pointer; `brk` is the break as the kernel has
it. -/
structure UHeap where
  mem : ByteMem
  start : Nat
  currentEnd : Nat
  brk : Nat

def headerSize : Nat := 32
def pageSize : Nat := 4096
def initialSize : Nat := 16 * 1024

/-- `(void*)-1`. -/
def noMemory : Nat := 2 ^ 64 - 1

/-- The break that a process starts with, and the end of the addresses it can ever be moved to. -/
def userHeapVirtualBase : Nat := 0x8000000
def userStackVirtualTop : Nat := 0x7FFFFFFFF000

/-- The kernel answers a question for the break, refuses one outside the process's part of the
addresses, and is free to refuse any other. -/
def sysBrk (grant : Nat → Bool) (s : UHeap) (addr : Nat) : Nat × UHeap :=
  if addr = 0 ∨ addr < userHeapVirtualBase ∨ userStackVirtualTop ≤ addr then (s.brk, s)
  else if grant addr then (addr, { s with brk := addr })
  else (s.brk, s)

def sbrkUser (grant : Nat → Bool) (s : UHeap) (increment : Nat) : Nat × UHeap :=
  let (currentBreak, s) := sysBrk grant s 0
  if increment = 0 then (currentBreak, s)
  else
    let (result, s) := sysBrk grant s (u64 (currentBreak + increment))
    if result = currentBreak then (noMemory, s) else (currentBreak, s)

section Fields

variable (mem : ByteMem) (header : Nat)

def sizeOf : Nat := load64 mem header
def isFree : Nat := load64 mem (header + 8)
def next : Nat := load64 mem (header + 16)

def setSize (value : Nat) : ByteMem := store64 mem header value
def setFree (value : Nat) : ByteMem := store64 mem (header + 8) value
def setNext (value : Nat) : ByteMem := store64 mem (header + 16) value

def freeHeader (size : Nat) : ByteMem := setNext (setFree (setSize mem header size) header 1) header 0

end Fields

variable (grant : Nat → Bool) (size : Nat)

variable (ptr : Nat) (s : UHeap)

/-- Step 1 of `umalloc`; not, where the pointer returned is null. -/
def lateInit : Bool × UHeap :=
  if s.start ≠ 0 then (true, s)
  else
    let (baseBreak, s) := sbrkUser grant s 0
    if baseBreak = noMemory then (false, s)
    else
      let initialExpansion :=
        if initialSize - headerSize < size then alignDown 16 (u64 (size + headerSize + 15)) else initialSize
      let (firstSpace, s) := sbrkUser grant s initialExpansion
      if firstSpace = noMemory then (false, s)
      else
        (true,
          { s with
            start := firstSpace
            mem := freeHeader s.mem firstSpace (sub64 initialExpansion headerSize)
            currentEnd := u64 (firstSpace + initialExpansion) })

/-- Step 2: the loop over `current`, with `best_block` and `smallest_diff`. -/
def searchBlock (mem : ByteMem) (size : Nat) : Nat → Nat → Nat → Nat → Option Nat
  | 0, _, _, _ => none
  | steps + 1, current, bestBlock, smallestDiff =>
    if current = 0 then some bestBlock
    else if isFree mem current ≠ 0 ∧ size ≤ sizeOf mem current then
      let diff := sizeOf mem current - size
      if diff < smallestDiff then searchBlock mem size steps (next mem current) current diff
      else searchBlock mem size steps (next mem current) bestBlock smallestDiff
    else searchBlock mem size steps (next mem current) bestBlock smallestDiff

def lastBlock (mem : ByteMem) : Nat → Nat → Option Nat
  | 0, _ => none
  | steps + 1, current => if next mem current = 0 then some current else lastBlock mem steps (next mem current)

/-- The new space is linked behind the last block, or goes to it if it is free. -/
def appendBlock (mem : ByteMem) (current space : Nat) : Nat × ByteMem :=
  let mem := setNext mem current space
  if isFree mem current ≠ 0 then
    let mem := setSize mem current (u64 (sizeOf mem current + (headerSize + sizeOf mem space)))
    (current, setNext mem current (next mem space))
  else (space, mem)

def expansionSize : Nat :=
  if initialSize < u64 (size + headerSize) then alignDown pageSize (u64 (size + headerSize + pageSize - 1)) else initialSize

/-- Step 3: the best block afterwards, or null. -/
def expandHeap : Option (Nat × UHeap) :=
  let (allocatedSpace, s) := sbrkUser grant s (expansionSize size)
  if allocatedSpace = noMemory then some (0, s)
  else
    let mem := freeHeader s.mem allocatedSpace (sub64 (expansionSize size) headerSize)
    let currentEnd := u64 (allocatedSpace + expansionSize size)
    (lastBlock mem currentEnd s.start).map fun current =>
      let (bestBlock, mem) := appendBlock mem current allocatedSpace
      (bestBlock, { s with mem := mem, currentEnd := currentEnd })

/-- Step 4: what is left over becomes a block of its own, if it is large enough. -/
def splitBlock (mem : ByteMem) (bestBlock size : Nat) : ByteMem :=
  let mem :=
    if u64 (size + headerSize + 16) ≤ sizeOf mem bestBlock then
      let newNextBlock := u64 (bestBlock + headerSize + size)
      let mem := setSize mem newNextBlock (sub64 (sub64 (sizeOf mem bestBlock) size) headerSize)
      let mem := setFree mem newNextBlock 1
      let mem := setNext mem newNextBlock (next mem bestBlock)
      setNext (setSize mem bestBlock size) bestBlock newNextBlock
    else mem
  setFree mem bestBlock 0

/-- Steps 2 to 4, for a size that has been rounded. -/
def takeBlock : Option (Nat × UHeap) := do
  let bestBlock ← searchBlock s.mem size s.currentEnd s.start 0 0xFFFFFFFFFFFFFFFF
  let (bestBlock, s) ← if bestBlock = 0 then expandHeap grant size s else some (bestBlock, s)
  if bestBlock = 0 then some (0, s)
  else some (u64 (bestBlock + headerSize), { s with mem := splitBlock s.mem bestBlock size })

/-- No result stands for a walk that has not come to an end. -/
def umalloc : Option (Nat × UHeap) :=
  if size = 0 then some (0, s)
  else
    let size := alignDown 16 (u64 (size + 15))
    match lateInit grant size s with
    | (false, s) => some (0, s)
    | (true, s) => takeBlock grant size s

/-- A merge does not advance `current`. -/
def coalesceBlocks : Nat → Nat → ByteMem → Option ByteMem
  | 0, _, _ => none
  | steps + 1, current, mem =>
    if current = 0 then some mem
    else if isFree mem current ≠ 0 ∧ next mem current ≠ 0 ∧ isFree mem (next mem current) ≠ 0 then
      let mem := setSize mem current (u64 (sizeOf mem current + (headerSize + sizeOf mem (next mem current))))
      coalesceBlocks steps current (setNext mem current (next mem (next mem current)))
    else coalesceBlocks steps (next mem current) mem

def ufree : Option UHeap :=
  if ptr = 0 then some s
  else (coalesceBlocks s.currentEnd s.start (setFree s.mem (sub64 ptr headerSize) 1)).map fun mem => { s with mem := mem }

def uMemset (val : UInt8) : Nat → Nat → ByteMem → ByteMem
  | 0, _, mem => mem
  | len + 1, dest, mem => uMemset val len (dest + 1) (Function.update mem dest val)

def uMemcpy : Nat → Nat → Nat → ByteMem → ByteMem
  | 0, _, _, mem => mem
  | len + 1, dest, src, mem => uMemcpy len (dest + 1) (src + 1) (Function.update mem dest (mem src))

def ucalloc (num size : Nat) (s : UHeap) : Option (Nat × UHeap) := do
  let totalSize := u64 (num * size)
  let (ptr, s) ← umalloc grant totalSize s
  if ptr = 0 then some (0, s) else some (ptr, { s with mem := uMemset 0 totalSize ptr s.mem })

def urealloc (newSize : Nat) (s : UHeap) : Option (Nat × UHeap) :=
  if ptr = 0 then umalloc grant newSize s
  else if newSize = 0 then (ufree ptr s).map fun s => (0, s)
  else
    let oldSize := sizeOf s.mem (sub64 ptr headerSize)
    if newSize ≤ oldSize then some (ptr, s)
    else do
      let (newPtr, s) ← umalloc grant newSize s
      if newPtr = 0 then some (0, s)
      else
        let s := { s with mem := uMemcpy oldSize newPtr ptr s.mem }
        (ufree ptr s).map fun s => (newPtr, s)

end Sirius.User
