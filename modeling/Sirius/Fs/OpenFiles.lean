import Sirius.Fs.Descriptors
import Sirius.Fs.RamfsLaw

/-! Open files of the RamFS: `vfs_open`, the system calls on descriptors, and `unlink`, with the nodes
and buffers they allocate and free. Nothing is mounted. A path is the names of its directories and
its last name, which fits the buffers it is copied to. -/
namespace Sirius.Fs.Ramfs
open Support Sched Function

/-- The `ramfs_file_data_t` of a file and the size in its node; `bytes` is what is in the buffer. -/
structure FileData where
  buffer : Option Address
  bufferCap : Nat
  size : Nat
  bytes : Nat → UInt8

def FileData.empty : FileData := ⟨none, 0, 0, fun _ => 0⟩

/-- `blocks` are the buffers that have not been freed. The rest is history: the number of nodes made so
far, which of them a live address is, and which node each file structure was opened for. -/
structure OpenFiles where
  files : Descriptors
  tree : State
  data : Address → FileData
  blocks : Finset Address
  made : Nat
  birth : Address → Nat
  opened : FileAddr → Nat

def dot : Name := [46]

def resolve (s : State) : List Name → Address → Option Address
  | [], current => some current
  | token :: rest, current =>
    if token = dot then resolve s rest current
    else
      match finddir s current token with
      | none => none
      | some next => resolve s rest next

def oCreat : BitVec 32 := 0x0040

namespace OpenFiles

variable (o : OpenFiles) (node : Address)

def createFile (parent : Address) (name : Name) (grants : Ramfs.Grants) : Int × OpenFiles :=
  match create o.tree parent name 0o644 grants with
  | (res, tree) =>
    match grants.node with
    | some address =>
      if res = 0 then
        (res, { o with
          tree := tree
          data := update o.data address .empty
          made := o.made + 1
          birth := update o.birth address o.made })
      else (res, { o with tree := tree })
    | none => (res, { o with tree := tree })

def vfsOpen (dirs : List Name) (name : Name) (flags : BitVec 32) (grants : Ramfs.Grants) :
    Option Address × OpenFiles :=
  let parent := resolve o.tree dirs o.tree.root
  let (target, o) :=
    match resolve o.tree (dirs ++ [name]) o.tree.root, parent with
    | none, some parent =>
      if flags &&& oCreat ≠ 0 then
        let (res, o) := o.createFile parent name grants
        (if res = 0 then finddir o.tree parent name else none, o)
      else (none, o)
    | target, _ => (target, o)
  match target with
  | none => (none, o)
  | some target =>
    let inode := match parent with
      | none => 0
      | some parent => (o.tree.nodes parent).inode
    (some target, { o with tree := o.tree.setParentInode target inode })

def sysOpen (o : OpenFiles) (p : Pcb) (dirs : List Name) (name : Name) (flags : BitVec 32) (grants : Ramfs.Grants)
    (block : Option FileAddr) : OpenFiles :=
  let (node, o) := o.vfsOpen dirs name flags grants
  let files := (Fs.sysOpen o.files p flags node block).2
  { o with
    files := files
    opened := match node, block with
      | some node, some file => update o.opened file (o.birth node)
      | _, _ => o.opened }

def fileOf (p : Pcb) (fd : Int) : Option FileAddr := (descriptor fd).bind fun i => o.files.table (p, i)

def nodeOf (file : FileAddr) : Address := (o.files.files file).node

def advance (file : FileAddr) (count : Nat) : OpenFiles :=
  let moved := { o.files.files file with offset := (o.files.files file).offset + BitVec.ofNat 64 count }
  { o with files := { o.files with files := update o.files.files file moved } }

variable (offset : Nat) (bytes : List UInt8)

def ramfsRead (size : Nat) : Int × List UInt8 :=
  if (o.tree.nodes node).flags = .directory then (-1, [])
  else if (o.data node).buffer = none ∨ (o.data node).size ≤ offset then (0, [])
  else
    let size := if (o.data node).size < offset + size then (o.data node).size - offset else size
    (size, (List.range size).map fun i => (o.data node).bytes (offset + i))

/-- `vfs_read` hands everything but an empty request on. -/
def vfsRead (size : Nat) : Int × List UInt8 :=
  if size = 0 then (0, []) else o.ramfsRead node offset size

def sysRead (p : Pcb) (fd : Int) (size : Nat) : OpenFiles :=
  match o.fileOf p fd with
  | none => o
  | some file =>
    let read := (o.vfsRead (o.nodeOf file) (o.files.files file).offset.toNat size).2
    if 0 < read.length then o.advance file read.length else o

/-- The buffer of the node is replaced by a larger one, if there is memory for it. -/
def grow (ending : Nat) (grant : Option Address) : Option OpenFiles :=
  if (o.data node).bufferCap < ending then
    match grant with
    | none => none
    | some block =>
      let freed := match (o.data node).buffer with
        | none => o.blocks
        | some old => o.blocks.erase old
      let grown := { o.data node with
        buffer := some block
        bufferCap := (ending + 512) % 2 ^ 32
        bytes := fun i => if i < (o.data node).size then (o.data node).bytes i else 0 }
      some { o with blocks := insert block freed, data := update o.data node grown }
  else some o

def store : OpenFiles :=
  let old := o.data node
  let stored := { old with
    size := max old.size (offset + bytes.length)
    bytes := fun i => if offset ≤ i then (bytes[i - offset]?).getD (old.bytes i) else old.bytes i }
  { o with data := update o.data node stored }

def ramfsWrite (grant : Option Address) : Int × OpenFiles :=
  if (o.tree.nodes node).flags = .directory then (-1, o)
  else
    match o.grow node (offset + bytes.length) grant with
    | none => (-2, o)
    | some o => (bytes.length, o.store node offset bytes)

def vfsWrite (grant : Option Address) : Int × OpenFiles :=
  if (o.tree.nodes node).flags = .directory then (-21, o)
  else if bytes = [] then (0, o)
  else o.ramfsWrite node offset bytes grant

def sysWrite (p : Pcb) (fd : Int) (bytes : List UInt8) (grant : Option Address) : OpenFiles :=
  match o.fileOf p fd with
  | none => o
  | some file =>
    match o.vfsWrite (o.nodeOf file) (o.files.files file).offset.toNat bytes grant with
    | (written, o) => if 0 < written then o.advance file written.toNat else o

/-- The node that `unlink` frees, if it frees one. -/
def doomed (parent : Address) (name : Name) : Option Address :=
  match (o.tree.entriesOf parent).find? (fun entry => o.tree.nameOf entry = name) with
  | none => none
  | some gone => if (o.tree.nodes gone).flags = .file then some gone else none

/-- The buffer goes with the node. -/
def sysUnlink (dirs : List Name) (name : Name) : OpenFiles :=
  match resolve o.tree dirs o.tree.root with
  | none => o
  | some parent =>
    { o with
      tree := (unlink o.tree parent name).2
      blocks := match o.doomed parent name with
        | none => o.blocks
        | some gone =>
          match (o.data gone).buffer with
          | none => o.blocks
          | some block => o.blocks.erase block }

end OpenFiles

inductive OpenCall
  | open (p : Pcb) (dirs : List Name) (name : Name) (flags : BitVec 32) (grants : Ramfs.Grants) (block : Option FileAddr)
  | close (p : Pcb) (fd : Int)
  | dup2 (p : Pcb) (oldfd newfd : Int)
  | read (p : Pcb) (fd : Int) (size : Nat)
  | write (p : Pcb) (fd : Int) (bytes : List UInt8) (grant : Option Address)
  | unlink (dirs : List Name) (name : Name)

def OpenCall.apply (call : OpenCall) (o : OpenFiles) : OpenFiles :=
  match call with
  | .open p dirs name flags grants block => o.sysOpen p dirs name flags grants block
  | .close p fd => { o with files := (sysClose o.files p fd).2 }
  | .dup2 p oldfd newfd => { o with files := (kDup2 o.files p oldfd newfd).2 }
  | .read p fd size => o.sysRead p fd size
  | .write p fd bytes grant => o.sysWrite p fd bytes grant
  | .unlink dirs name => o.sysUnlink dirs name

/-- The names before the last lead to a directory, if to anything: `create` and `unlink` take the data of
a file for a list of entries. -/
def DirsOnly (o : OpenFiles) (dirs : List Name) : Prop :=
  ∀ parent ∈ resolve o.tree dirs o.tree.root, (o.tree.nodes parent).flags = .directory
deriving Decidable

def OpenCall.caller : OpenCall → Option Pcb
  | .open p .. | .close p _ | .dup2 p .. | .read p .. | .write p .. => some p
  | .unlink .. => none

/-- The caller has not exited, and `kmalloc` answers with blocks that are not in use. -/
def OpenCall.Possible (call : OpenCall) (o : OpenFiles) : Prop :=
  (∀ p ∈ call.caller, p ∈ o.files.alive) ∧
    match call with
    | .open _ dirs _ _ grants block => DirsOnly o dirs ∧ o.tree.Fresh grants ∧ ∀ file, block = some file → file ∉ o.files.live
    | .write _ _ _ grant => ∀ block ∈ grant, block ∉ o.blocks
    | .unlink dirs _ => DirsOnly o dirs
    | _ => True

end Sirius.Fs.Ramfs
