import Sirius.Support.ByteFile
import Mathlib.Algebra.Group.Nat.Defs

/-! A mounted FAT32 volume: the table of its clusters, and the reading and writing of files along
the chains in the table. No sector fails and `pool_alloc` always has a buffer, except where the outcome of
an access is a parameter; a loop over a chain that never ends gives no result. -/
namespace Sirius.Fs.Fat32
open Support

def eof : Nat := 0x0FFFFFF8

/-- `FAT32_BAD_CLUSTER`, also what stands for no cluster. -/
def badCluster : Nat := 0x0FFFFFF7

/-- `fat` are the words from the first sector of the table on, `fatWords` of them before the first
data sector. `data` are the bytes of a cluster. -/
structure Volume where
  fat : Nat → Nat
  fatWords : Nat
  data : Nat → Nat → UInt8
  clusterBytes : Nat
  rootCluster : Nat

structure Node where
  name : List UInt8
  isDirectory : Bool
  size : Nat
  inode : Nat
  parentInode : Nat
  permissions : Nat
deriving DecidableEq, Repr

variable (vol : Volume) (node : Node)

def getNextCluster (cluster : Nat) : Nat := vol.fat cluster % 2 ^ 28

/-- The upper four bits of the word stay. -/
def setCluster (cluster value : Nat) : Volume :=
  { vol with fat := Function.update vol.fat cluster (vol.fat cluster / 2 ^ 28 * 2 ^ 28 + value % 2 ^ 28) }

def setData (cluster : Nat) (bytes : Nat → UInt8) : Volume :=
  { vol with data := Function.update vol.data cluster bytes }

/-- The first free word of all FAT sectors, whatever the number of clusters. -/
def allocateCluster : Nat × Volume :=
  match (List.range vol.fatWords).find? fun cluster => 2 ≤ cluster ∧ getNextCluster vol cluster = 0 with
  | some cluster => (cluster, setCluster vol cluster eof)
  | none => (badCluster, vol)

def EndOfChain (cluster : Nat) : Prop := eof ≤ cluster ∨ cluster = badCluster

instance : Decidable (EndOfChain cluster) := inferInstanceAs (Decidable (_ ∨ _))

/-- No loop over a chain passes more clusters without passing one twice. -/
def chainLimit : Nat := 2 ^ 28

/-- Whether a round of the loop has a buffer and its sector, for the word it reads and for the word it writes. -/
structure Access where
  get : Bool
  set : Bool

/-- The loop goes on with this cluster. -/
def Going (cluster : Nat) : Prop := ¬EndOfChain cluster ∧ cluster ≠ 0
deriving Decidable

/-- A next word that is not read ends the loop, and an entry that is not freed stays; no result means that more
rounds are to come. -/
def freeLoop (access : Nat → Access) : Nat → Nat → Nat → Volume → Option Volume
  | 0, _, _, _ => none
  | steps + 1, round, current, vol =>
    if Going current then
      freeLoop access steps (round + 1) (if (access round).get then getNextCluster vol current else badCluster)
        (if (access round).set then setCluster vol current 0 else vol)
    else some vol

def fat32FreeClusterChain (access : Nat → Access) (steps start : Nat) : Option Volume :=
  if start < 2 ∨ badCluster ≤ start then some vol else freeLoop access steps 0 start vol

def freeClusterChain (start : Nat) : Option Volume := fat32FreeClusterChain vol (fun _ => ⟨true, true⟩) chainLimit start

def clusters (vol : Volume) : Nat → Nat → Option (List Nat)
  | 0, _ => none
  | steps + 1, cluster =>
    if EndOfChain cluster then some []
    else (clusters vol steps (getNextCluster vol cluster)).map fun rest => cluster :: rest

/-- The next cluster of a chain that is being written; the chain is made longer at its end. -/
def nextOrNew (cluster : Nat) : Option Nat × Volume :=
  let next := getNextCluster vol cluster
  if EndOfChain next then
    let (new, vol) := allocateCluster vol
    if new = badCluster then (none, vol) else (some new, setCluster vol cluster new)
  else (some next, vol)

def writeSeek : Nat → Nat → Volume → Option Nat × Volume
  | 0, cluster, vol => (some cluster, vol)
  | rounds + 1, cluster, vol =>
    match nextOrNew vol cluster with
    | (none, vol) => (none, vol)
    | (some next, vol) => writeSeek rounds next vol

/-- Gives the number of bytes written. -/
def writeLoop : Nat → Nat → Nat → List UInt8 → Volume → Nat × Volume
  | 0, _, _, _, vol => (0, vol)
  | steps + 1, cluster, clusterOffset, data, vol =>
    if data = [] then (0, vol) else
      let count := min (vol.clusterBytes - clusterOffset) data.length
      let vol := setData vol cluster (overlay (vol.data cluster) clusterOffset (data.take count))
      if count < data.length then
        match nextOrNew vol cluster with
        | (none, vol) => (count, vol)
        | (some next, vol) =>
          let (more, vol) := writeLoop steps next 0 (data.drop count) vol
          (count + more, vol)
      else (count, vol)

/-- `fat32_write` for a node that has its first cluster. -/
def writeChain (offset : Nat) (data : List UInt8) : Int × Node × Volume :=
  match writeSeek (offset / vol.clusterBytes) node.inode vol with
  | (none, vol) => (0, node, vol)
  | (some cluster, vol) =>
    let (written, vol) := writeLoop data.length cluster (offset % vol.clusterBytes) data vol
    (written, { node with size := max node.size (offset + written) }, vol)

/-- A first cluster is put into the node only. -/
def fat32Write (offset : Nat) (data : List UInt8) : Int × Node × Volume :=
  if node.isDirectory then (-1, node, vol)
  else if node.inode = 0 then
    let (new, vol) := allocateCluster vol
    if new = badCluster then (-1, node, vol) else writeChain vol { node with inode := new } offset data
  else writeChain vol node offset data

end Sirius.Fs.Fat32
