import Mathlib.Order.Lattice.Nat

/-! The tree of nodes that paths are resolved in, with volumes mounted over its directories.
Nodes in memory stay where they are; a lookup in a FAT32 directory makes a new node each time
from what is on the disk. -/
namespace Sirius.Fs.Vfs

abbrev Address := Nat

abbrev Name := List UInt8

abbrev Volume := Nat

def slash : UInt8 := 47
def dot : Name := [46]
def pathBufferSize : Nat := 512

def vfsFile : BitVec 32 := 1
def vfsDirectory : BitVec 32 := 2
def vfsMountpoint : BitVec 32 := 32

/-- The table of operations: that of the RamFS, that of the FAT32 driver, or one of a device,
which has no `finddir`. -/
inductive Ops
  | ramfs
  | fat32
  | device
deriving DecidableEq, Repr

/-- `entries` is the list of a RamFS directory, `volume` the private data of a FAT32 node. -/
structure Node where
  name : Name
  flags : BitVec 32
  inode : BitVec 32
  ops : Ops
  entries : List Address
  volume : Volume
  ptrMount : Option Address
deriving DecidableEq, Repr

namespace Node

def isDirectory (node : Node) : Bool := node.flags &&& vfsDirectory ≠ 0

def isMountpoint (node : Node) : Bool := node.flags &&& vfsMountpoint ≠ 0

end Node

structure FatEntry where
  name : Name
  isDirectory : Bool
  firstCluster : BitVec 32
deriving DecidableEq, Repr

structure Mount where
  mountpoint : Address
  fsRoot : Address
deriving DecidableEq, Repr

/-- `listing` is what is in the directories of the disks: the entries of the directory that
starts at a cluster of a volume. `live` are the nodes not freed. -/
structure State where
  nodes : Address → Node
  live : Finset Address
  root : Address
  mounts : List Mount
  listing : Volume → BitVec 32 → List FatEntry

namespace State

def fresh (s : State) : Address := s.live.sup id + 1

def alloc (s : State) (node : Node) : State :=
  { s with nodes := Function.update s.nodes s.fresh node, live := insert s.fresh s.live }

def modify (s : State) (a : Address) (change : Node → Node) : State :=
  { s with nodes := Function.update s.nodes a (change (s.nodes a)) }

def kfree (s : State) (a : Address) : State := { s with live := s.live.erase a }

end State

section
variable (s : State) (parent : Address)

def vfsResolveMountpoint (a : Address) : Address :=
  if ¬(s.nodes a).isMountpoint then a
  else
    match s.mounts.find? (fun m => m.mountpoint = a ∨
        (s.nodes m.mountpoint).inode = (s.nodes a).inode ∧ (s.nodes m.mountpoint).ops = (s.nodes a).ops) with
    | some m => m.fsRoot
    | none => a

def ramfsFinddir (name : Name) : Option Address :=
  if (s.nodes parent).isDirectory then (s.nodes parent).entries.find? (fun a => (s.nodes a).name = name) else none

def fatNode (parent : Node) (entry : FatEntry) : Node where
  name := entry.name
  flags := if entry.isDirectory then vfsDirectory else vfsFile
  inode := entry.firstCluster
  ops := parent.ops
  entries := []
  volume := parent.volume
  ptrMount := none

def fat32Finddir (name : Name) : Option Address × State :=
  let node := s.nodes parent
  match (s.listing node.volume node.inode).find? (fun entry => entry.name = name) with
  | none => (none, s)
  | some entry => (some s.fresh, s.alloc (fatNode node entry))

def finddir (name : Name) : Option Address × State :=
  match (s.nodes parent).ops with
  | .ramfs => (ramfsFinddir s parent name, s)
  | .fat32 => fat32Finddir s parent name
  | .device => (none, s)

end

variable (s : State) (path : List UInt8)

/-- The parts of a path between its slashes. One slash at the end ends the last part; a slash
right behind another makes an empty part. -/
def components : List Name :=
  let parts := (if path.head? = some slash then path.tail else path).splitOn slash
  if parts.getLast? = some [] then parts.dropLast else parts

def walk : List Name → State → Address → Option Address × State
  | [], s, current => (some current, s)
  | token :: rest, s, current =>
    if token = dot then walk rest s current
    else
      match finddir s (vfsResolveMountpoint s current) token with
      | (none, s) => (none, s)
      | (some next, s) => walk rest s next

def vfsPathToNode : Option Address × State :=
  if path = [] then (none, s)
  else
    let start := vfsResolveMountpoint s s.root
    if path = [slash] then (some start, s)
    else if pathBufferSize ≤ path.length then (none, s)
    else
      match walk (components path) s start with
      | (none, s) => (none, s)
      | (some a, s) => (some (vfsResolveMountpoint s a), s)

/-- The drivers of the kernel that register themselves; that of the RamFS has no `mount`. -/
inductive FsType
  | fat32
  | ramfs
deriving DecidableEq, Repr

/-- What is asked of `vfs_mount`: the device, if one is named, is there or not; the name of the
file system is in the catalogue or not; the first sector of the device is that of a FAT32
volume, with the cluster of its root, or it is not, or memory runs out. -/
structure MountRequest where
  named : Bool
  device : Bool
  driver : Option FsType
  volume : Option (Volume × BitVec 32)
  memory : Bool
deriving DecidableEq, Repr

def fat32Root (volume : Volume) (rootCluster : BitVec 32) : Node where
  name := path
  flags := vfsDirectory
  inode := rootCluster
  ops := .fat32
  entries := []
  volume := volume
  ptrMount := none

def fat32MountCallback (request : MountRequest) : Option Address × State :=
  if ¬(request.named ∧ request.device) then (none, s)
  else
    match request.volume with
    | none => (none, s)
    | some (volume, rootCluster) => (some s.fresh, s.alloc (fat32Root path volume rootCluster))

/-- A node is given back unless it is the root, or what is mounted over it. -/
def dropNode (a : Address) : State :=
  if a ≠ s.root ∧ a ≠ vfsResolveMountpoint s s.root then s.kfree a else s

def addMount (target fsRoot : Address) : State :=
  let s := s.modify target fun node =>
    { node with ptrMount := some fsRoot, flags := node.flags ||| vfsMountpoint }
  { s with mounts := ⟨target, fsRoot⟩ :: s.mounts }

/-- No result stands for a call through the null pointer `mount` of the RamFS. -/
def vfsMount (request : MountRequest) : Option (Int × State) :=
  if request.named ∧ ¬request.device then some (-2, s)
  else
    match request.driver with
    | none => some (-3, s)
    | some driver =>
      match vfsPathToNode s path with
      | (none, s) => some (-5, s)
      | (some target, s) =>
        if ¬(s.nodes target).isDirectory then some (-8, dropNode s target)
        else
          match driver with
          | .ramfs => none
          | .fat32 =>
            match fat32MountCallback s path request with
            | (none, s) => some (-4, dropNode s target)
            | (some fsRoot, s) =>
              if ¬request.memory then some (-7, dropNode s target) else some (0, addMount s target fsRoot)

/-- Take the mark from the directory again, and its bridge out of the list. No driver fills in
the `fs` of the root of a volume, so that `unmount` is not called but the node freed. -/
def removeMount (target : Address) (mount : Mount) (fsRoot : Address) : State :=
  let s := { s with mounts := s.mounts.erase mount }
  let s := s.modify target fun node => { node with ptrMount := none, flags := node.flags &&& ~~~vfsMountpoint }
  let s := s.kfree fsRoot
  if target ≠ s.root then s.kfree target else s

def vfsUmount : Int × State :=
  match vfsPathToNode s path with
  | (none, s) => (-4, s)
  | (some target, s) =>
    let dropped := if target ≠ s.root then s.kfree target else s
    match (s.nodes target).isMountpoint, (s.nodes target).ptrMount with
    | true, some fsRoot =>
      match s.mounts.find? (fun m => m.mountpoint = target) with
      | none => (-5, dropped)
      | some mount => (0, removeMount s target mount fsRoot)
    | _, _ => (-2, dropped)

end Sirius.Fs.Vfs
