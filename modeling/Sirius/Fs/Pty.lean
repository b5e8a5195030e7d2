import Sirius.Drivers.Tty
import Mathlib.Data.Finset.Basic

/-! Pseudo terminals: each `open` of `/dev/ptmx` makes a pair with a terminal between a master
and a replica `/dev/pts/N`. The node `/dev/ptmx` is one for all who open it, and its
`private_data` is the pair made last. -/
namespace Sirius.Fs.Pty
open Drivers

abbrev PairAddr := Nat

/-- The opens of `/dev/ptmx`, in the order they are made. -/
abbrev Session := Nat

/-- Who has written a byte: a descriptor of the master or of the replica of a session. -/
inductive Origin
  | master (session : Session)
  | replica (session : Session)
deriving DecidableEq, Repr

structure PtyPair where
  id : BitVec 32
  replicaTty : TtyDevice Origin
  masterOpenCount : Int
  replicaOpenCount : Int
  masterPresent : Bool
  session : Session

def vfsFile : BitVec 32 := 1
def vfsCharDev : BitVec 32 := 4

structure ReplicaNode where
  flags : BitVec 32
  privateData : Option PairAddr
  session : Session
deriving DecidableEq, Repr

/-- An open file of the node `/dev/ptmx` or of a node in `/dev/pts`. -/
inductive Descriptor
  | master (session : Session)
  | replica (number : BitVec 32) (session : Session)
deriving DecidableEq, Repr

def Descriptor.session : Descriptor → Session
  | master session => session
  | replica _ session => session

def Descriptor.origin : Descriptor → Origin
  | master session => .master session
  | replica _ session => .replica session

structure ReadEvent where
  reader : Descriptor
  chars : List (TtyChar Origin)
deriving DecidableEq, Repr

/-- `ptmx` is the `private_data` of the node `/dev/ptmx`, `pts` the directory `/dev/pts`; the
decimal names of its nodes are told by their numbers. `live` are the pairs not yet freed. -/
structure State where
  pairs : PairAddr → PtyPair
  live : Finset PairAddr
  ptmx : Option PairAddr
  pts : BitVec 32 → Option ReplicaNode
  idCounter : BitVec 32
  sessions : Session
  files : List Descriptor
  log : List ReadEvent

namespace State

variable (s : State) (a : PairAddr)

def setPair (pair : PtyPair) : State := { s with pairs := Function.update s.pairs a pair }

def setTty (tty : TtyDevice Origin) : State :=
  s.setPair a { s.pairs a with replicaTty := tty }

def setNode (number : BitVec 32) (node : Option ReplicaNode) : State :=
  { s with pts := Function.update s.pts number node }

def setFiles (files : List Descriptor) : State := { s with files := files }

def freePair : State := { s with live := s.live.erase a }

def pairOf : Descriptor → Option PairAddr
  | .master _ => s.ptmx
  | .replica number _ => (s.pts number).bind (·.privateData)

def clearPrivateData : Descriptor → State
  | .master _ => { s with ptmx := none }
  | .replica number _ => s.setNode number ((s.pts number).map fun node => { node with privateData := none })

end State

section
variable (s : State) (number : BitVec 32)

def newPair (session : Session) : PtyPair where
  id := number
  replicaTty := emptyTty (.master session)
  masterOpenCount := 0
  replicaOpenCount := 0
  masterPresent := false
  session := session

def ptyVfsInit : State where
  pairs _ := newPair 0 0
  live := ∅
  ptmx := none
  pts _ := none
  idCounter := 0
  sessions := 0
  files := []
  log := []

/-- The answers of `kmalloc` for the pair and its terminal, and whether `ramfs_create` finds memory. -/
structure Grants where
  pair : Option PairAddr
  tty : Bool
  node : Bool
deriving DecidableEq, Repr

/-- The node that `create` and `finddir` answer with: the one there is, or a new file. -/
def createNode (granted : Bool) : Option ReplicaNode :=
  match s.pts number with
  | some node => some node
  | none => if granted then some { flags := vfsFile, privateData := none, session := s.sessions } else none

def vfsPtyAllocateInternal (grants : Grants) : Option PairAddr × State :=
  match grants.pair with
  | none => (none, s)
  | some a =>
    if grants.tty = false then (none, s)
    else
      let number := s.idCounter
      let s := { s with idCounter := s.idCounter + 1 }
      match createNode s number grants.node with
      | none => (none, s)
      | some node =>
        let s := s.setPair a (newPair number s.sessions)
        let s := { s with live := insert a s.live }
        (some a, s.setNode number (some { node with flags := vfsCharDev, privateData := some a }))

def tfsPtmxOpen (grants : Grants) : Int × State :=
  match vfsPtyAllocateInternal s grants with
  | (none, s) => (-1, s)
  | (some a, s) =>
    let s := s.setPair a { s.pairs a with masterOpenCount := 1 }
    (0, { s with ptmx := some a, sessions := s.sessions + 1, files := .master s.sessions :: s.files })

def tfsPtyReplicaOpen : Int × State :=
  match s.pts number with
  | none => (-1, s)
  | some node =>
    match node.privateData with
    | none => (-1, s)
    | some a =>
      let s := s.setPair a { s.pairs a with replicaOpenCount := (s.pairs a).replicaOpenCount + 1 }
      (0, s.setFiles (.replica number node.session :: s.files))

/-- `ramfs_unlink` in `/dev/pts`: only what is a plain file goes. -/
def ptsUnlink : State :=
  match s.pts number with
  | none => s
  | some node => if node.flags ≠ vfsFile then s else s.setNode number none

end

section
variable (s : State) (d : Descriptor)

def Descriptor.closed (pair : PtyPair) : PtyPair :=
  match d with
  | .master _ => { pair with masterOpenCount := pair.masterOpenCount - 1 }
  | .replica _ _ => { pair with replicaOpenCount := pair.replicaOpenCount - 1 }

def tfsPtyClose : Int × State :=
  match s.pairOf d with
  | none => (-1, s.setFiles (s.files.erase d))
  | some a =>
    let pair := d.closed (s.pairs a)
    let s := (s.setPair a pair).setFiles (s.files.erase d)
    if pair.masterOpenCount ≤ 0 ∧ pair.replicaOpenCount ≤ 0 then
      let s := ptsUnlink s pair.id
      (0, (s.freePair a).clearPrivateData d)
    else (0, s)

def stamp (bytes : List UInt8) : List (TtyChar Origin) := bytes.map fun byte => ⟨byte, d.origin⟩

/-- `tfs_pty_master_write` and `tfs_pty_replica_write`. Without a master that has asked for its
number, what the replica writes is dropped. -/
def tfsPtyWrite (bytes : List UInt8) : Int × State :=
  if bytes = [] then (0, s)
  else
    match s.pairOf d with
    | none => (-1, s)
    | some a =>
      let tty := (s.pairs a).replicaTty
      match d with
      | .master _ =>
        let written := ttyWriteToInQueue (stamp d bytes) tty
        (written.1, s.setTty a written.2)
      | .replica _ _ =>
        if (s.pairs a).masterPresent then
          let written := ttyWriteToOutQueue tty (stamp d bytes)
          (written.1, s.setTty a written.2)
        else (bytes.length, s)

/-- `tfs_pty_master_read` and `tfs_pty_replica_read`. No answer while there is nothing to read. -/
def tfsPtyRead (size : Nat) : Option Int × State :=
  if size = 0 then (some 0, s)
  else
    match s.pairOf d with
    | none => (some (-1), s)
    | some a =>
      let tty := (s.pairs a).replicaTty
      let read := match d with
        | .master _ => ttyReadFromOutQueue tty size
        | .replica _ _ => ttyReadFromInQueue tty size
      match read with
      | none => (none, s)
      | some (chars, tty) =>
        let s := s.setTty a tty
        (some chars.length, { s with log := ⟨d, chars⟩ :: s.log })

/-- `TIOCGPTN`: the number of the pair, which now has a master that reads. -/
def tfsPtmxIoctl : Option (BitVec 32) × State :=
  match s.pairOf d with
  | none => (none, s)
  | some a => (some (s.pairs a).id, s.setPair a { s.pairs a with masterPresent := true })

end

inductive Call
  | openMaster (grants : Grants)
  | openReplica (number : BitVec 32)
  | write (d : Descriptor) (bytes : List UInt8)
  | read (d : Descriptor) (size : Nat)
  | ioctl (d : Descriptor)
  | close (d : Descriptor)
deriving DecidableEq, Repr

def Call.apply : Call → State → State
  | openMaster grants, s => (tfsPtmxOpen s grants).2
  | openReplica number, s => (tfsPtyReplicaOpen s number).2
  | write d bytes, s => (tfsPtyWrite s d bytes).2
  | read d size, s => (tfsPtyRead s d size).2
  | ioctl d, s => (tfsPtmxIoctl s d).2
  | close d, s => (tfsPtyClose s d).2

/-- A descriptor that is used is open, and `kmalloc` answers with a block not in use. -/
def Call.Possible : Call → State → Prop
  | openMaster grants, s => ∀ a ∈ grants.pair, a ∉ s.live
  | openReplica _, _ => True
  | write d _, s => d ∈ s.files
  | read d _, s => d ∈ s.files
  | ioctl d, s => d ∈ s.files
  | close d, s => d ∈ s.files

instance (call : Call) (s : State) : Decidable (call.Possible s) := by
  cases call <;> unfold Call.Possible <;> infer_instance

end Sirius.Fs.Pty
