import Sirius.Support.Tiling
import Sirius.Support.Word

/-! The kernel heap of `heap.c`: a list of headers, best fit with splitting,
growth by whole pages and coalescing on release. The intrusive list is kept as the
list of headers met from `g_heap_start` through `next`, so the `next` field of a
header is the address of its successor in the list. -/
namespace Sirius.Memory
open Support

structure HeapHeader where
  addr : Nat
  size : Nat
  isFree : Bool
deriving DecidableEq, Repr

/-- `blocks` is the list from `g_heap_start`; `currentEnd` is `g_heap_current_end`. -/
structure Heap where
  blocks : List HeapHeader
  currentEnd : Nat
deriving DecidableEq, Repr

def pageSize : Nat := 0x1000
def sizeofHeapHeader : Nat := 32
def kernelHeapVirtualBase : Nat := 0xFFFF800040000000
def kernelHeapInitialSize : Nat := 4 * 1024 * 1024

/-- The frames the page allocator can hand out at all: its bitmap is mapped through
at most `NUM_PT_TABLES` = 200 page tables, one bit for each frame. -/
def pmmMaxPages : Nat := 200 * 512 * pageSize * 8

def kheapInit : Heap where
  blocks := [{
    addr := kernelHeapVirtualBase
    size := kernelHeapInitialSize - sizeofHeapHeader
    isFree := true }]
  currentEnd := kernelHeapVirtualBase + kernelHeapInitialSize

/-- One turn of the search loop, over the pair `(best_block, smallest_diff)`. -/
def searchStep (size : Nat) (found : Option HeapHeader × Nat) (current : HeapHeader) :
    Option HeapHeader × Nat :=
  if current.isFree && decide (size ≤ current.size) then
    let diff := current.size - size
    if diff < found.2 then (some current, diff) else found
  else found

def searchBestFit (size : Nat) (blocks : List HeapHeader) : Option HeapHeader :=
  (blocks.foldl (searchStep size) (none, 0xFFFFFFFFFFFFFFFF)).1

/-- Rewrite the header at `addr` in place; the new headers take over its `next`. -/
def splice (addr : Nat) (new : HeapHeader → List HeapHeader) : List HeapHeader → List HeapHeader
  | [] => []
  | block :: rest => if block.addr = addr then new block ++ rest else block :: splice addr new rest

def expansionSize (size : Nat) : Nat :=
  if 1024 * 1024 < u64 (size + sizeofHeapHeader) then
    alignDown pageSize (u64 (size + sizeofHeapHeader + pageSize - 1))
  else 1024 * 1024

/-- The mapping loop takes a frame for each page, and `vmm_map_page` one for each table that is missing above it,
which it does not notice if there is none; `tables` gives their number for the page at an address. The second
component is what the page allocator has left, also when it ran out half way. -/
def mapExpansion (tables : Nat → Nat) : Nat → Nat → Nat → Bool × Nat
  | _, 0, frames => (true, frames)
  | _, _ + 1, 0 => (false, 0)
  | addr, pages + 1, frames + 1 => mapExpansion tables (addr + pageSize) pages (frames - tables addr)

/-- Append the header of the new space, or let a free last block absorb it. -/
def appendSpace (space : HeapHeader) : List HeapHeader → List HeapHeader
  | [] => []
  | [last] =>
    if last.isFree then [{ last with size := u64 (last.size + (sizeofHeapHeader + space.size)) }]
    else [last, space]
  | block :: next :: rest => block :: appendSpace space (next :: rest)

def expand (heap : Heap) (size : Nat) : Heap where
  blocks := appendSpace {
    addr := heap.currentEnd
    size := sub64 (expansionSize size) sizeofHeapHeader
    isFree := true } heap.blocks
  currentEnd := u64 (heap.currentEnd + expansionSize size)

/-- The chosen block becomes used; a remainder that can hold a header and 16 bytes
becomes a free block behind it. -/
def carve (size : Nat) (best : HeapHeader) : List HeapHeader :=
  if u64 (size + sizeofHeapHeader + 16) ≤ best.size then
    [{ best with size := size, isFree := false },
     { addr := u64 (best.addr + sizeofHeapHeader + size)
       size := sub64 (sub64 best.size size) sizeofHeapHeader
       isFree := true }]
  else [{ best with isFree := false }]

structure Kmalloc where
  heap : Heap
  frames : Nat
  ptr : Nat
deriving DecidableEq, Repr

/-- The body of `kmalloc` from `retry_search` on, for an already rounded size. -/
def kmallocRetry (tables : Nat → Nat) : Nat → Heap → Nat → Nat → Option Kmalloc
  | 0, _, _, _ => none
  | fuel + 1, heap, size, frames =>
    match searchBestFit size heap.blocks with
    | some best => some {
        heap := { heap with blocks := splice best.addr (carve size) heap.blocks }
        frames := frames
        ptr := u64 (best.addr + sizeofHeapHeader) }
    | none =>
      match mapExpansion tables heap.currentEnd (expansionSize size / pageSize) frames with
      | (false, left) => some { heap := heap, frames := left, ptr := 0 }
      | (true, left) => kmallocRetry tables fuel (expand heap size) size left

/-- `frames` is what the page allocator can still deliver. A retry either takes a
frame or leaves the next search the same work, so `none` is the code's endless loop. -/
def kmalloc (tables : Nat → Nat) (heap : Heap) (size frames : Nat) : Option Kmalloc :=
  if size = 0 then some { heap := heap, frames := frames, ptr := 0 }
  else kmallocRetry tables (frames + 2) heap (alignDown 16 (u64 (size + 15))) frames

/-- The merging walk of `kfree`; a merge does not advance `current`. -/
def coalesceFrom (current : HeapHeader) : List HeapHeader → List HeapHeader
  | [] => [current]
  | next :: rest =>
    if current.isFree && next.isFree then
      coalesceFrom { current with size := u64 (current.size + (sizeofHeapHeader + next.size)) } rest
    else current :: coalesceFrom next rest

def coalesce : List HeapHeader → List HeapHeader
  | [] => []
  | first :: rest => coalesceFrom first rest

def kfree (heap : Heap) (ptr : Nat) : Heap :=
  if ptr = 0 then heap
  else { heap with
    blocks := coalesce (splice (sub64 ptr sizeofHeapHeader)
      (fun header => [{ header with isFree := true }]) heap.blocks) }

end Sirius.Memory
