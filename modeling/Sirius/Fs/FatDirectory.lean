import Sirius.Fs.Fat32
import Sirius.Support.LittleEndian
import Sirius.Support.RunSearch

/-! The directories of a FAT32 volume: slots of 32 bytes in the clusters of a chain. A file has a
short slot with its 8.3 alias, and before it the slots with the fragments of its long name. Files
are found by their long names; their slots are changed by way of the alias. -/
namespace Sirius.Fs.Fat32
open Support List

abbrev Place := Nat × Nat

namespace Volume

variable (vol : Volume) (p : Place)

def slot (k : Nat) : UInt8 := if k < 32 then vol.data p.1 (32 * p.2 + k) else 0

/-- The first byte of the name, 0 behind the last slot in use and 0xE5 in a deleted one. -/
def mark : UInt8 := vol.slot p 0

def attr : UInt8 := vol.slot p 11

def shortName : List UInt8 := slice (vol.slot p) 0 11

def firstCluster : Nat :=
  leNat (slice (vol.slot p) 20 2) * 2 ^ 16 + leNat (slice (vol.slot p) 26 2)

def fileSize : Nat := leNat (slice (vol.slot p) 28 4)

/-- The cluster of the slot is written back with some bytes changed. -/
def put (k : Nat) (bytes : List UInt8) : Volume :=
  setData vol p.1 (overlay (vol.data p.1) (32 * p.2 + k) bytes)

def slotCount : Nat := vol.clusterBytes / 32

def placesIn (cluster : Nat) : List Place := (range vol.slotCount).map fun i => (cluster, i)

/-- The slots of a directory, in the order of the loops. -/
def places (cells : List Nat) : List Place := cells.flatMap vol.placesIn

end Volume

def toUpper (c : UInt8) : UInt8 := if 97 ≤ c ∧ c ≤ 122 then c - 32 else c

def toLower (c : UInt8) : UInt8 := if 65 ≤ c ∧ c ≤ 90 then c + 32 else c

/-- `fat32_to_83_name`: eight characters before the first dot, three behind it. -/
def to83Name (name : List UInt8) : List UInt8 :=
  let base := name.takeWhile fun c => c ≠ 46
  let extension := (name.drop base.length).drop 1
  ((base.take 8).map toUpper).rightpad 8 32 ++ ((extension.take 3).map toUpper).rightpad 3 32

def checksum (short : List UInt8) : UInt8 :=
  short.foldl (fun sum c => (if sum &&& 1 ≠ 0 then (0x80 : UInt8) else 0) + (sum >>> 1) + c) 0

def formatName (short : List UInt8) : List UInt8 :=
  let base := (short.take 8).filter fun c => c ≠ 32
  let extension := (short.drop 8).filter fun c => c ≠ 32
  let text := base ++ if short.getD 8 0 ≠ 32 then 46 :: extension else []
  (text.takeWhile fun c => c ≠ 0).map toLower

/-- A long name that is being put together: `lfn_buffer` and `target_checksum`. There is one while
`has_lfn` is set. -/
structure LongName where
  chars : Nat → UInt8
  checksum : UInt8

/-- One of the loops over the UTF-16 units of a fragment. A unit is its low and high byte, of which
the low one counts as signed. -/
def copyUnits : List (UInt8 × UInt8) → Nat × (Nat → UInt8) → Nat × (Nat → UInt8)
  | [], state => state
  | (low, high) :: rest, (offset, chars) =>
    if 255 ≤ offset ∨ (low = 0 ∧ high = 0) ∨ low = 0xFF then (offset, chars)
    else copyUnits rest (offset + 1, Function.update chars offset low)

def unitsAt (slot : Nat → UInt8) (start count : Nat) : List (UInt8 × UInt8) :=
  (range count).map fun k => (slot (start + 2 * k), slot (start + 2 * k + 1))

def addFragment (slot : Nat → UInt8) (long : LongName) : LongName :=
  let seq := (slot 0 &&& 0x1F).toNat
  if 1 ≤ seq ∧ seq ≤ 20 then
    let first := copyUnits (unitsAt slot 1 5) ((seq - 1) * 13, long.chars)
    let second := copyUnits (unitsAt slot 14 6) first
    { long with chars := (copyUnits (unitsAt slot 28 2) second).2 }
  else long

def longStep (slot : Nat → UInt8) (pending : Option LongName) : Option LongName :=
  if slot 0 &&& 0x40 ≠ 0 then some (addFragment slot ⟨fun _ => 0, slot 13⟩)
  else match pending with
    | none => none
    | some long => if slot 13 ≠ long.checksum then none else some (addFragment slot long)

def entryName (short : List UInt8) (pending : Option LongName) : List UInt8 :=
  match pending with
  | none => formatName short
  | some long =>
    let name := ((range 255).map long.chars).takeWhile fun c => c ≠ 0
    if Fat32.checksum short ≠ long.checksum ∨ name = [] then formatName short else name

/-- The entries that `fat32_readdir` gives for the indices 0, 1, …: the short slot and the name
of each. -/
def scan (vol : Volume) : Option LongName → List Place → List (Place × List UInt8)
  | _, [] => []
  | pending, p :: rest =>
    if vol.mark p = 0 then []
    else if vol.mark p = 0xE5 then scan vol none rest
    else if vol.attr p = 0x0F then scan vol (longStep (vol.slot p) pending) rest
    else if vol.attr p &&& 0x08 ≠ 0 then scan vol none rest
    else (p, entryName (vol.shortName p) pending) :: scan vol none rest

section
variable (vol : Volume) (dir : Nat)

def listing : Option (List (Place × List UInt8)) :=
  (clusters vol (chainLimit + 1) dir).map fun cells => scan vol none (vol.places cells)

variable (p : Place) (name : List UInt8)

def isDirectory : Bool := vol.attr p &&& 0x10 ≠ 0

def nodeAt : Node where
  name := name
  isDirectory := isDirectory vol p
  size := vol.fileSize p
  inode := vol.firstCluster p
  parentInode := 0
  permissions := if vol.attr p &&& 0x01 ≠ 0 then 0x0155 else 0x01FF

def findPlace : Option (Option Place) :=
  (listing vol dir).map fun entries => (entries.find? fun entry => entry.2 = name).map Prod.fst

def fat32Finddir : Option (Option Node) :=
  (findPlace vol dir name).map fun found => found.map fun p => nodeAt vol p name

/-- The slot that `fat32_update_entry_size` changes: the first one before the end whose first bytes
are the alias. -/
def sizeTarget (cells : List Nat) (short : List UInt8) : Option Place :=
  ((vol.places cells).takeWhile fun p => vol.mark p ≠ 0).find? fun p => vol.shortName p = short

def updateEntrySize (size : Nat) : Option (Int × Volume) :=
  (clusters vol (chainLimit + 1) dir).map fun cells =>
    match sizeTarget vol cells (to83Name name) with
    | none => (-1, vol)
    | some p => (0, vol.put p 28 (leBytes 4 size))

/-- The short slot that `fat32_invalidate_entries` and `fat32_chmod` change. The end mark ends the
search of its cluster only. -/
def aliasTarget (cells : List Nat) (short : List UInt8) : Option Place :=
  cells.findSome? fun cluster =>
    ((vol.placesIn cluster).takeWhile fun p => vol.mark p ≠ 0).find? fun p =>
      vol.mark p ≠ 0xE5 ∧ vol.attr p ≠ 0x0F ∧ vol.shortName p = short

/-- The slots with long name fragments before an index, back to the first that is none. -/
def eraseBack (cluster : Nat) : Nat → Volume → Volume
  | 0, vol => vol
  | i + 1, vol => if vol.attr (cluster, i) = 0x0F then eraseBack cluster i (vol.put (cluster, i) 0 [0xE5]) else vol

def eraseEntry : Volume := (eraseBack p.1 p.2 vol).put p 0 [0xE5]

def invalidateEntries : Option (Int × Volume) :=
  (clusters vol (chainLimit + 1) dir).map fun cells =>
    match aliasTarget vol cells (to83Name name) with
    | none => (-1, vol)
    | some p => (0, eraseEntry vol p)

def isDirEmpty : Option Bool :=
  (clusters vol (chainLimit + 1) dir).map fun cells =>
    ((vol.places cells).takeWhile fun p => vol.mark p ≠ 0).all fun p => vol.mark p = 0xE5 ∨ vol.mark p = 46

end

section
variable (name : List UInt8) (attr : UInt8)

/-- A character of a fragment: of the name, its terminator or the filling behind. -/
def unitOf (i : Nat) : List UInt8 :=
  if i < name.length then [name.getD i 0, 0] else if i = name.length then [0, 0] else [0xFF, 0xFF]

def unitsOf (start count : Nat) : List UInt8 :=
  (range count).flatMap fun k => unitOf name (start + k)

def longCount : Nat := (name.length + 12) / 13

def longSlot (index : Nat) : List UInt8 :=
  [UInt8.ofNat (if index + 1 = longCount name then (index + 1) ||| 0x40 else index + 1)] ++
    unitsOf name (index * 13) 5 ++ [0x0F, 0, checksum (to83Name name)] ++
    unitsOf name (index * 13 + 5) 6 ++ [0, 0] ++ unitsOf name (index * 13 + 11) 2

def shortSlot (short : List UInt8) (attr : UInt8) (firstCluster size : Nat) : List UInt8 :=
  short ++ [attr] ++ replicate 8 0 ++ leBytes 2 (firstCluster / 2 ^ 16) ++ replicate 4 0 ++
    leBytes 2 firstCluster ++ leBytes 4 size

/-- The slots of a new entry: the fragments, last first, and the short slot. -/
def entrySlots (firstCluster size : Nat) : List UInt8 :=
  (range (longCount name)).reverse.flatMap (longSlot name) ++ shortSlot (to83Name name) attr firstCluster size

end

section
variable (vol : Volume) (parent : Nat)

def isFree (p : Place) : Bool := vol.mark p = 0 ∨ vol.mark p = 0xE5

/-- The entry goes where all its slots are free in one cluster. A directory without such a place
is given another cluster. -/
def addLoop (name : List UInt8) (bytes : List UInt8) : Nat → Nat → Volume → Option (Int × Volume)
  | 0, _, _ => none
  | steps + 1, cluster, vol =>
    if EndOfChain cluster then some (-1, vol) else
      match findRun (fun i => isFree vol (cluster, i)) (longCount name + 1) vol.slotCount with
      | some start => some (0, vol.put (cluster, start) 0 bytes)
      | none =>
        let next := getNextCluster vol cluster
        if EndOfChain next then
          let (new, vol) := allocateCluster vol
          if new = badCluster then some (-1, vol)
          else addLoop name bytes steps new (setData (setCluster vol cluster new) new fun _ => 0)
        else addLoop name bytes steps next vol

variable (dir : Nat) (name : List UInt8)

def addEntry (attr : UInt8) (firstCluster size : Nat) : Option (Int × Volume) :=
  addLoop name (entrySlots name attr firstCluster size) (2 * chainLimit + 1) dir vol

def dotSlot (dots : List UInt8) (cluster : Nat) : List UInt8 := shortSlot (dots.rightpad 11 32) 0x10 cluster 0

/-- The nodes of directories are given by their first cluster. -/
def fat32Mkdir : Option (Int × Volume) := do
  let existing ← fat32Finddir vol parent name
  if existing.isSome then return (-1, vol)
  let (new, vol) := allocateCluster vol
  if new = badCluster then return (-1, vol)
  let parentCluster := if parent = vol.rootCluster then 0 else parent
  let vol := setData vol new (overlay (fun _ => 0) 0 (dotSlot [46] new ++ dotSlot [46, 46] parentCluster))
  addEntry vol parent name 0x10 new 0

def fat32Create : Option (Int × Volume) := do
  let existing ← fat32Finddir vol parent name
  if existing.isSome then return (-1, vol)
  let (new, vol) := allocateCluster vol
  if new = badCluster then return (-1, vol)
  addEntry vol parent name 0x20 new 0

def fat32Unlink : Option (Int × Volume) := do
  match ← fat32Finddir vol parent name with
  | none => return (-1, vol)
  | some node =>
    if node.isDirectory then return (-2, vol)
    let vol ← freeClusterChain vol node.inode
    invalidateEntries vol parent name

def fat32Rmdir : Option (Int × Volume) := do
  match ← fat32Finddir vol parent name with
  | none => return (-1, vol)
  | some node =>
    if ¬node.isDirectory then return (-2, vol)
    if name = [46] ∨ name = [46, 46] then return (-3, vol)
    let empty ← isDirEmpty vol node.inode
    if ¬empty then return (-4, vol)
    let vol ← freeClusterChain vol node.inode
    invalidateEntries vol parent name

end

variable (vol : Volume) (node : Node)

/-- The directory searched is always the root. -/
def fat32Chmod (mode : Nat) : Option (Int × Node × Volume) :=
  (clusters vol (chainLimit + 1) vol.rootCluster).map fun cells =>
    match aliasTarget vol cells (to83Name node.name) with
    | none => (-1, node, vol)
    | some p =>
      if mode.testBit 7 then (0, { node with permissions := 0x01FF }, vol.put p 11 [vol.attr p &&& 0xFE])
      else (0, { node with permissions := 0x0155 }, vol.put p 11 [vol.attr p ||| 0x01])

def fat32Rename (oldParent : Nat) (oldName : List UInt8) (newParent : Nat) (newName : List UInt8) :
    Option (Int × Volume) := do
  let existing ← fat32Finddir vol newParent newName
  if existing.isSome then return (-3, vol)
  match ← fat32Finddir vol oldParent oldName with
  | none => return (-1, vol)
  | some node =>
    let (ret, vol) ← addEntry vol newParent newName (if node.isDirectory then 0x10 else 0x20) node.inode node.size
    if ret ≠ 0 then return (-2, vol)
    let (_, vol) ← invalidateEntries vol oldParent oldName
    return (0, vol)

/-- The directory in which a node's slots are looked for. -/
def parentOf : Nat := if node.parentInode ≠ 0 then node.parentInode else vol.rootCluster

/-- Bit 0 of the flags asks for writing, bit 10 for an empty file. The cache of the node is the
VFS's. -/
def fat32Open (flags : Nat) : Option (Int × Node × Volume) := do
  if flags.testBit 0 ∧ node.isDirectory then return (-2, node, vol)
  if flags.testBit 0 ∧ node.permissions = 0x0155 then return (-3, node, vol)
  if flags.testBit 0 ∧ flags.testBit 10 ∧ 2 ≤ node.inode then
    let vol ← freeClusterChain vol node.inode
    let (_, vol) ← updateEntrySize vol (parentOf vol node) node.name 0
    return (0, { node with size := 0 }, vol)
  return (0, node, vol)

def fat32Close : Option (Int × Volume) :=
  if node.isDirectory then some (0, vol)
  else (updateEntrySize vol (parentOf vol node) node.name node.size).map fun (_, vol) => (0, vol)

end Sirius.Fs.Fat32
