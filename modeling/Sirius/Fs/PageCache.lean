import Sirius.Support.ByteFile
import Sirius.Support.Runs
import Mathlib.Data.Fintype.Basic
import Mathlib.Algebra.Group.Nat.Defs

/-! The page cache of an open file: `vfs_read`, `vfs_write` and `vfs_flush` over a driver
whose reads give back what is stored, up to the end of the file, and whose writes may store
only a part. Loops that wait for the driver may not end; they are given a number of rounds. -/
namespace Sirius.Fs.PageCache
open Support

/-- `buffer` is the block from the pool, of which `size` bytes count. -/
structure Page where
  blockId : Nat
  buffer : Nat → UInt8
  size : Nat
  dirty : Bool

/-- What the driver does with a write: the first bytes are stored, and this is returned. -/
structure Outcome where
  stored : Nat
  ret : Int
deriving DecidableEq, Repr

/-- What is left open: the answers of the driver, by the number of calls so far and the length of
what is to be written; of its `flush`, if it has one; whether there is memory for the page of a
block, and what is in that memory. -/
structure Env where
  driver : Nat → Nat → Outcome
  flush : Option Int
  grant : Nat → Bool
  junk : Nat → Nat → UInt8

/-- `size` is that of the node, `disk` the file as the driver has it. `calls` counts the writes of
the driver. -/
structure State where
  size : Nat
  blockSize : Nat
  pages : List Page
  disk : ByteFile
  calls : Nat

namespace State

def page? (s : State) (block : Nat) : Option Page := s.pages.find? fun p => p.blockId = block

/-- There is one page for a block at most. -/
def setPage (s : State) (page : Page) : State :=
  { s with pages := s.pages.map fun p => if p.blockId = page.blockId then page else p }

def invalidate (s : State) (block : Nat) : State := { s with pages := s.pages.filter fun p => p.blockId ≠ block }

def extend (s : State) (size : Nat) : State := { s with size := max s.size size }

end State

/-- A number as the result type `int` shows it. -/
def cInt (n : Nat) : Int := (BitVec.ofNat 32 n).toInt

def uint64 (n : Nat) : Nat := n % 2 ^ 64

variable (env : Env) (s : State)

variable (offset : Nat) (data : List UInt8)

/-- The driver extends the file, and its node, to the end of what it stores. -/
def driverWrite : Int × State :=
  let outcome := env.driver s.calls data.length
  (outcome.ret,
    { s with
      disk := s.disk.write offset (data.take outcome.stored)
      size := max s.size (if outcome.stored = 0 then 0 else offset + min outcome.stored data.length)
      calls := s.calls + 1 })

/-- How much of a block is in the file. -/
def blockFill (block : Nat) : Nat :=
  if uint64 (block * s.blockSize + s.blockSize) > s.size then
    if s.size > block * s.blockSize then s.size - block * s.blockSize else 0
  else s.blockSize

/-- A new page, with what the driver reads laid over what was in the memory. -/
def newPage (block : Nat) (fromDisk : Bool) : Page where
  blockId := block
  buffer := if fromDisk then
    overlay (env.junk block) 0 (s.disk.read (block * s.blockSize) (blockFill s block)) else env.junk block
  size := if fromDisk then blockFill s block else 0
  dirty := false

def vfsGetOrCreatePage (block : Nat) (fromDisk : Bool) : Option (Page × State) :=
  match s.page? block with
  | some page => some (page, s)
  | none =>
    if env.grant block then
      let page := newPage env s block fromDisk
      some (page, { s with pages := page :: s.pages })
    else none

/-- Before a read that goes round the cache: a dirty page is written, all of its block, and the
page dropped whatever the driver answers. -/
def writeBack (block : Nat) : State :=
  let s := match s.page? block with
    | some page =>
      if page.dirty then
        (driverWrite env s (block * s.blockSize) (slice page.buffer 0 s.blockSize)).2
      else s
    | none => s
  s.invalidate block

def writeBackAll (block count : Nat) : State :=
  (List.range' block count).foldl (writeBack env) s

structure ReadResult where
  ret : Int
  bytes : List UInt8
deriving DecidableEq, Repr

def readRound (size : Nat) (bytes : List UInt8) (s : State) : (ReadResult ⊕ List UInt8) × State :=
  if size ≤ bytes.length then (.inl ⟨cInt bytes.length, bytes⟩, s)
  else
    let here := uint64 (offset + bytes.length)
    let block := here / s.blockSize
    let inBlock := here % s.blockSize
    if inBlock = 0 ∧ s.blockSize ≤ size - bytes.length then
      let blocks := (size - bytes.length) / s.blockSize
      let s := writeBackAll env s block blocks
      let direct := s.disk.read here (blocks * s.blockSize)
      if cInt direct.length < 0 then
        (.inl ⟨if 0 < bytes.length then cInt bytes.length else cInt direct.length, bytes⟩, s)
      else (.inr (bytes ++ direct), s)
    else
      match vfsGetOrCreatePage env s block true with
      | none => (.inl ⟨if 0 < bytes.length then cInt bytes.length else -5, bytes⟩, s)
      | some (page, s) =>
        if page.size ≤ inBlock then (.inl ⟨cInt bytes.length, bytes⟩, s)
        else
          let count := min (page.size - inBlock) (size - bytes.length)
          (.inr (bytes ++ slice page.buffer inBlock count), s)

/-- No result stands for a call that has not come back after so many rounds. -/
def vfsRead (rounds : Nat) (s : State) (offset size : Nat) : Option (ReadResult × State) :=
  if size = 0 then some (⟨0, []⟩, s)
  else if s.blockSize = 0 then
    let direct := s.disk.read offset size
    some (⟨cInt direct.length, direct⟩, s)
  else if s.size ≤ offset then some (⟨0, []⟩, s)
  else
    let size := if s.size < uint64 (offset + size) then (s.size - offset) % 2 ^ 32 else size
    loop (readRound env offset size) rounds [] s

/-- The whole blocks of what is left are written around the cache. -/
def writeDirect (done here : Nat) (s : State) : (Int ⊕ Nat) × State :=
  let block := here / s.blockSize
  let blocks := (data.length - done) / s.blockSize
  let dropped := (List.range' block blocks).foldl State.invalidate s
  let (ret, s) := driverWrite env dropped here ((data.drop done).take (blocks * s.blockSize))
  if ret < 0 then (.inl (if 0 < done then cInt done else ret), s)
  else (.inr ((done + ret.toNat) % 2 ^ 32), s.extend (uint64 (here + ret.toNat)))

def Page.put (page : Page) (inBlock : Nat) (chunk : List UInt8) : Page :=
  { page with
    buffer := overlay page.buffer inBlock chunk
    size := max page.size (inBlock + chunk.length)
    dirty := true }

/-- `original` is the size of the file when the call began. -/
def writeCached (original done here : Nat) (s : State) : (Int ⊕ Nat) × State :=
  let block := here / s.blockSize
  let inBlock := here % s.blockSize
  let count := min (s.blockSize - inBlock) (data.length - done)
  let fromDisk := ¬(inBlock = 0 ∧ count = s.blockSize) ∧ block * s.blockSize < original
  match vfsGetOrCreatePage env s block fromDisk with
  | none => (.inl (if 0 < done then cInt done else -5), s)
  | some (page, s) =>
    let s := s.setPage (page.put inBlock ((data.drop done).take count))
    (.inr (done + count), s.extend (uint64 (here + count)))

def writeRound (original done : Nat) (s : State) : (Int ⊕ Nat) × State :=
  if data.length ≤ done then (.inl (cInt done), s)
  else
    let here := uint64 (offset + done)
    if here % s.blockSize = 0 ∧ s.blockSize ≤ data.length - done then writeDirect env data done here s
    else writeCached env data original done here s

/-- For a node that is not a directory. -/
def vfsWrite (rounds : Nat) (s : State) (offset : Nat) (data : List UInt8) : Option (Int × State) :=
  if data = [] then some (0, s)
  else if s.blockSize = 0 then some (driverWrite env s offset data)
  else loop (writeRound env offset data s.size) rounds 0 s

def Page.clean (page : Page) : Page := { page with dirty := false }

/-- One page in `vfs_flush`: the last error, the page as it is now, and the driver's file. -/
def flushPage (blockSize : Nat) (page : Page) (error : Int) (s : State) : Int × Page × State :=
  if page.dirty ∧ 0 < page.size then
    let (ret, s) := driverWrite env s (page.blockId * blockSize) (slice page.buffer 0 page.size)
    if ret < 0 then (ret, page, s) else (error, page.clean, s)
  else (error, page.clean, s)

def flushPages (env : Env) (blockSize : Nat) : List Page → Int → State → Int × List Page × State
  | [], error, s => (error, [], s)
  | page :: rest, error, s =>
    let (error, page, s) := flushPage env blockSize page error s
    let (error, rest, s) := flushPages env blockSize rest error s
    (error, page :: rest, s)

def vfsFlush : Int × State :=
  if s.blockSize = 0 then (env.flush.getD (-2), s)
  else
    let (error, pages, s) := flushPages env s.blockSize s.pages 0 s
    let s := { s with pages := pages }
    if error < 0 then (error, s) else (env.flush.getD 0, s)

end Sirius.Fs.PageCache
