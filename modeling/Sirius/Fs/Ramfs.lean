import Sirius.Support.RootedTree
import Sirius.Support.Runs
import Mathlib.Data.Finset.Basic

/-! The file system in memory: directories are lists of entries, each a pointer to a node;
`create`, `mkdir`, `unlink`, `rmdir` and `rename` edit these lists. Nothing is mounted, so
`vfs_resolve_mountpoint` answers the node it is given. -/
namespace Sirius.Fs.Ramfs
open Support

abbrev Address := Nat

abbrev Name := List UInt8

def vfsNameMax : Nat := 256

inductive NodeFlags
  | file
  | directory
deriving DecidableEq

/-- `entries` is the list that the `private_data` of a directory points to. -/
structure Node where
  name : Name
  flags : NodeFlags
  inode : BitVec 32
  parentInode : BitVec 32
  permissions : BitVec 16
  entries : List Address
deriving DecidableEq

/-- `live` are the nodes that have been allocated and not freed. -/
structure State where
  nodes : Address → Node
  live : Finset Address
  root : Address

namespace State

variable (s : State) (a : Address)

def modify (change : Node → Node) : State :=
  { s with nodes := Function.update s.nodes a (change (s.nodes a)) }

def nameOf : Name := (s.nodes a).name

def entriesOf : List Address := (s.nodes a).entries

def setEntries (entries : List Address) : State :=
  s.modify a fun node => { node with entries := entries }

def setParentInode (inode : BitVec 32) : State :=
  s.modify a fun node => { node with parentInode := inode }

def setName (name : Name) : State := s.modify a fun node => { node with name := name }

end State

/-- What `strncpy` leaves in the field of the node. -/
def storedName (name : Name) : Name := name.take (vfsNameMax - 1)

def vfsInit (root : Address) : State where
  nodes _ := { name := [47], flags := .directory, inode := 1, parentInode := 0, permissions := 0, entries := [] }
  live := {root}
  root := root

section
variable (s : State) (parent : Address)

variable (name : Name) (permissions : BitVec 16)

def finddir : Option Address :=
  if (s.nodes parent).flags = .directory then
    (s.entriesOf parent).find? fun entry => s.nameOf entry = name
  else none

/-- The answers of `kmalloc` for the node, the data of a file and the entry. -/
structure Grants where
  node : Option Address
  data : Bool
  entry : Bool
deriving DecidableEq

def newNode (flags : NodeFlags) (address : Address) : Node where
  name := storedName name
  flags := flags
  inode := BitVec.ofNat 32 address
  parentInode := (s.nodes parent).inode
  permissions := permissions
  entries := []

def link (address : Address) (node : Node) : State :=
  let s : State := { s with nodes := Function.update s.nodes address node, live := insert address s.live }
  s.setEntries parent (address :: s.entriesOf parent)

def createObject (flags : NodeFlags) (grants : Grants) : Int × State :=
  if name = [] then (-1, s)
  else if (finddir s parent name).isSome then (-2, s)
  else
    match grants.node with
    | none => (-3, s)
    | some address =>
      -- A failure after the first block frees what was allocated.
      if flags = .file ∧ grants.data = false then (-3, s)
      else if grants.entry = false then (-3, s)
      else (0, link s parent address (newNode s parent name permissions flags address))

def mkdir (grants : Grants) : Int × State :=
  createObject s parent name permissions .directory grants

def create (grants : Grants) : Int × State :=
  createObject s parent name permissions .file grants

def removeObject (expectedFlag : NodeFlags) : Int × State :=
  match (s.entriesOf parent).find? (fun entry => s.nameOf entry = name) with
  | none => (-4, s)
  | some gone =>
    if (s.nodes gone).flags ≠ expectedFlag then (-2, s)
    else if expectedFlag = .directory ∧ s.entriesOf gone ≠ [] then (-3, s)
    else
      let s := s.setEntries parent ((s.entriesOf parent).eraseP fun entry => s.nameOf entry = name)
      (0, { s with live := s.live.erase gone })

def unlink : Int × State := removeObject s parent name .file

def rmdir : Int × State := removeObject s parent name .directory

/-- The entry of `target` goes from the list of one directory to the head of that of the other. -/
def moveEntry (oldDir newDir target : Address) : State :=
  if target ∈ s.entriesOf oldDir then
    let s := s.setEntries oldDir ((s.entriesOf oldDir).erase target)
    let s := s.setEntries newDir (target :: s.entriesOf newDir)
    s.setParentInode target (s.nodes newDir).inode
  else s

def rename (oldDir : Address) (oldName : Name) (newDir : Address) (newName : Name) : Int × State :=
  match finddir s oldDir oldName with
  | none => (-2, s)
  | some target =>
    if (finddir s newDir newName).isSome then (-3, s)
    else
      let s := if oldDir ≠ newDir then moveEntry s oldDir newDir target else s
      (0, s.setName target (storedName newName))

end

inductive Call
  | create (parent : Address) (name : Name) (permissions : BitVec 16) (grants : Grants)
  | mkdir (parent : Address) (name : Name) (permissions : BitVec 16) (grants : Grants)
  | unlink (parent : Address) (name : Name)
  | rmdir (parent : Address) (name : Name)
  | rename (oldDir : Address) (oldName : Name) (newDir : Address) (newName : Name)
deriving DecidableEq

def Call.apply : Call → State → State
  | create parent name permissions grants, s => (Ramfs.create s parent name permissions grants).2
  | mkdir parent name permissions grants, s => (Ramfs.mkdir s parent name permissions grants).2
  | unlink parent name, s => (Ramfs.unlink s parent name).2
  | rmdir parent name, s => (Ramfs.rmdir s parent name).2
  | rename oldDir oldName newDir newName, s => (Ramfs.rename s oldDir oldName newDir newName).2

def State.IsDirectory (s : State) (d : Address) : Prop := d ∈ s.live ∧ (s.nodes d).flags = .directory
deriving Decidable

/-- `kmalloc` answers with a block that is not in use. -/
def State.Fresh (s : State) (grants : Grants) : Prop := ∀ a ∈ grants.node, a ∉ s.live
deriving Decidable

/-- The directories given to the call are directories of the tree. -/
def Call.Possible : Call → State → Prop
  | create parent _ _ grants, s => s.IsDirectory parent ∧ s.Fresh grants
  | mkdir parent _ _ grants, s => s.IsDirectory parent ∧ s.Fresh grants
  | unlink parent _, s => s.IsDirectory parent
  | rmdir parent _, s => s.IsDirectory parent
  | rename oldDir _ newDir _, s => s.IsDirectory oldDir ∧ s.IsDirectory newDir

end Sirius.Fs.Ramfs
