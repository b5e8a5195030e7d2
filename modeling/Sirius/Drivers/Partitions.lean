import Sirius.Support.LittleEndian

/-! Partition tables: `partition_scan_device` and the devices it makes, which hand requests
on to the disk they lie on. A buffer is what memory holds from its first byte on, also
behind its end; every access to a table says which buffer it is to and how long that is. -/
namespace Sirius.Drivers
open Support List

abbrev Memory := Nat → UInt8

/-- A field of a packed structure. -/
def field (memory : Memory) (offset width : Nat) : Nat :=
  leNat ((range width).map fun i => memory (offset + i))

def bytesAt (memory : Memory) (offset width : Nat) : List UInt8 :=
  (range width).map fun i => memory (offset + i)

/-- Reading gives what the buffer holds afterwards, or fails. -/
structure BlockDevice where
  name : String
  totalSectors : BitVec 64
  sectorSize : BitVec 32
  readBlocks : BitVec 64 → BitVec 32 → Option Memory
  wholeSector : 512 ≤ sectorSize.toNat

structure Partition where
  name : String
  startLba : BitVec 64
  totalSectors : BitVec 64
  partitionNum : Nat
  mbrType : BitVec 8
  signatureType : BitVec 8
  signature : List UInt8

structure Request where
  lba : BitVec 64
  count : BitVec 32
deriving DecidableEq, Repr

/-- What both directions do with a request: turn it away, or hand it to the disk. -/
def partitionForward (ctx : Partition) (r : Request) : Option Request :=
  if r.lba + r.count.setWidth 64 > ctx.totalSectors then none
  else some { r with lba := ctx.startLba + r.lba }

def partitionReadBlocks (ctx : Partition) (r : Request) : Option Request := partitionForward ctx r

def partitionWriteBlocks (ctx : Partition) (r : Request) : Option Request := partitionForward ctx r

/-- An access to a table, with the size of the buffer the table is in. -/
structure Access where
  size : Nat
  offset : Nat
  width : Nat
deriving DecidableEq, Repr

def Access.Inside (a : Access) : Prop := a.offset + a.width ≤ a.size

structure Scan where
  accesses : List Access := []
  partitions : List Partition := []

/-- The loops over the two kinds of table. `granted` says for which numbers there is memory
and a place in the list of devices. -/
def scanTable (used : Nat → Bool) (accesses : Nat → List Access) (make : Nat → Nat → Partition) (granted : Nat → Bool) :
    List Nat → Nat → Scan
  | [], _ => {}
  | i :: rest, partIndex =>
    if used i then
      let later := scanTable used accesses make granted rest (partIndex + 1)
      { accesses := accesses i ++ later.accesses
        partitions := if granted partIndex then make i partIndex :: later.partitions else later.partitions }
    else
      let later := scanTable used accesses make granted rest partIndex
      { later with accesses := accesses i ++ later.accesses }

def partName (dev : BlockDevice) (partIndex : Nat) : String := dev.name ++ "." ++ toString partIndex

section Mbr
variable (dev : BlockDevice) (buffer : Memory)

variable (i partIndex : Nat)

def mbrEntry : Nat := 0x1BE + 16 * i

def mbrType : Nat := field buffer (mbrEntry i + 4) 1

def mbrStart : Nat := field buffer (mbrEntry i + 8) 4

def mbrSectors : Nat := field buffer (mbrEntry i + 12) 4

def mbrUsed : Bool := mbrType buffer i != 0 && mbrSectors buffer i > 0

def mbrPartition : Partition where
  name := partName dev partIndex
  startLba := BitVec.ofNat 64 (mbrStart buffer i)
  totalSectors := BitVec.ofNat 64 (mbrSectors buffer i)
  partitionNum := partIndex
  mbrType := 1
  signatureType := 1
  signature := bytesAt buffer 0x1B8 4 ++ replicate 12 0

def mbrAccesses : List Access := [{ size := dev.sectorSize.toNat, offset := mbrEntry i, width := 16 }]

def scanMbr (granted : Nat → Bool) : Scan :=
  scanTable (mbrUsed buffer) (mbrAccesses dev) (mbrPartition dev buffer) granted (range 4) 1

def findProtective : List Nat → Bool × List Access
  | [] => (false, [])
  | i :: rest =>
    if mbrType buffer i == 0xEE then (true, mbrAccesses dev i)
    else ((findProtective rest).1, mbrAccesses dev i ++ (findProtective rest).2)

end Mbr

/-- What is read of the header, in 32-bit words where the code has such. -/
structure GptHeader where
  entriesLba : BitVec 64
  totalEntries : BitVec 32
  entrySize : BitVec 32

def gptHeader (buffer : Memory) : GptHeader where
  entriesLba := BitVec.ofNat 64 (field buffer 72 8)
  totalEntries := if field buffer 80 4 > 128 then 128 else BitVec.ofNat 32 (field buffer 80 4)
  entrySize := BitVec.ofNat 32 (field buffer 84 4)

section Gpt
variable (dev : BlockDevice) (gpt : GptHeader) (entries : Memory)

def entriesSectors : BitVec 32 := (gpt.totalEntries * gpt.entrySize + dev.sectorSize - 1) / dev.sectorSize

def entriesAllocSize : BitVec 32 := entriesSectors dev gpt * dev.sectorSize

def gptEntry (i : Nat) : Nat := (BitVec.ofNat 32 i * gpt.entrySize).toNat

def gptUsed (i : Nat) : Bool := bytesAt entries (gptEntry gpt i) 16 != replicate 16 0

def startingLba (i : Nat) : BitVec 64 := BitVec.ofNat 64 (field entries (gptEntry gpt i + 32) 8)

def endingLba (i : Nat) : BitVec 64 := BitVec.ofNat 64 (field entries (gptEntry gpt i + 40) 8)

def gptPartition (i partIndex : Nat) : Partition where
  name := partName dev partIndex
  startLba := startingLba gpt entries i
  totalSectors := endingLba gpt entries i - startingLba gpt entries i + 1
  partitionNum := partIndex
  mbrType := 2
  signatureType := 2
  signature := bytesAt entries (gptEntry gpt i + 16) 16

/-- The type is always looked at; the rest of an entry only if it is in use. -/
def gptAccesses (i : Nat) : List Access :=
  let size := (entriesAllocSize dev gpt).toNat
  { size := size, offset := gptEntry gpt i, width := 16 } ::
    if gptUsed gpt entries i then
      [{ size := size, offset := gptEntry gpt i + 40, width := 8 }, { size := size, offset := gptEntry gpt i + 32, width := 8 },
        { size := size, offset := gptEntry gpt i + 16, width := 16 }]
    else []

def scanGpt (granted : Nat → Bool) : Scan :=
  scanTable (gptUsed gpt entries) (gptAccesses dev gpt entries) (gptPartition dev gpt entries) granted
    (range gpt.totalEntries.toNat) 1

end Gpt

def efiPart : List UInt8 := [0x45, 0x46, 0x49, 0x20, 0x50, 0x41, 0x52, 0x54]

def scanGptDevice (dev : BlockDevice) (alloc : Nat → Bool) (granted : Nat → Bool) : Scan :=
  match dev.readBlocks 1 1 with
  | none => {}
  | some header =>
    if bytesAt header 0 8 != efiPart then {}
    else if !alloc 1 then {}
    else match dev.readBlocks (gptHeader header).entriesLba (entriesSectors dev (gptHeader header)) with
      | none => {}
      | some entries => scanGpt dev (gptHeader header) entries granted

/-- `alloc i` is the outcome of the `i`-th allocation from the pool. -/
def partitionScanDevice (dev : BlockDevice) (alloc : Nat → Bool) (granted : Nat → Bool) : Scan :=
  if !alloc 0 then {}
  else match dev.readBlocks 0 1 with
    | none => {}
    | some buffer =>
      if buffer 510 != 0x55 || buffer 511 != 0xAA then {}
      else
        let (isGptProtective, looked) := findProtective dev buffer (range 4)
        let scan := if isGptProtective then scanGptDevice dev alloc granted else scanMbr dev buffer granted
        { scan with accesses := looked ++ scan.accesses }

end Sirius.Drivers
