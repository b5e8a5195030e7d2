import Sirius.Sched.Calls
import Sirius.Support.RefCount
import Sirius.Support.Runs
import Mathlib.Data.Finset.Prod
import Mathlib.Data.Fintype.Card

/-! The descriptor tables of the processes and the files they share: `sys_open`,
`sys_close`, `k_dup2`, and what `clone` and the end of a process do to them. -/
namespace Sirius.Fs
open Support Sched Relation Function

abbrev FileAddr := Nat

abbrev NodeAddr := Nat

def maxFilesPerProcess : Nat := 32

structure VfsFile where
  node : NodeAddr
  offset : BitVec 64
  flags : BitVec 32
  fdFlags : BitVec 32
  refCount : BitVec 32

abbrev Slot := Pcb × Fin maxFilesPerProcess

/-- `live` are the file structures that have not been freed, `alive` the processes that have
not exited; `procs` all control blocks in use, with the number of threads each still has.
`closed` records the calls of `vfs_close`. -/
structure Descriptors where
  files : FileAddr → VfsFile
  live : Finset FileAddr
  table : Slot → Option FileAddr
  procs : Finset Pcb
  alive : Finset Pcb
  threads : Pcb → Nat
  closed : List NodeAddr
  used : alive ⊆ procs

namespace Descriptors

variable (s : Descriptors) (f : FileAddr)

/-- The slots of the processes that have not exited. -/
def slots : Finset Slot := s.alive ×ˢ Finset.univ

def count : Nat := (s.files f).refCount.toNat

def setSlot (slot : Slot) (file : Option FileAddr) : Descriptors :=
  { s with table := update s.table slot file }

def vfsClose (node : NodeAddr) : Descriptors := { s with closed := node :: s.closed }

def setCount (count : BitVec 32) : Descriptors :=
  { s with files := update s.files f { s.files f with refCount := count } }

end Descriptors

def descriptor (fd : Int) : Option (Fin maxFilesPerProcess) :=
  if range : 0 ≤ fd ∧ fd < maxFilesPerProcess then some ⟨fd.toNat, by omega⟩ else none

section
variable (s : Descriptors) (p : Pcb)

def dropReference (file : FileAddr) : Descriptors :=
  let s := s.setCount file ((s.files file).refCount - 1)
  if (s.files file).refCount = 0 then
    { s.vfsClose (s.files file).node with live := s.live.erase file }
  else s

/-- With what `vfs_open` and `kmalloc` answer. -/
def sysOpen (flags : BitVec 32) (node : Option NodeAddr) (block : Option FileAddr) : Int × Descriptors :=
  match node with
  | none => (-1, s)
  | some node =>
    match (List.finRange maxFilesPerProcess).find? (fun i => s.table (p, i) = none) with
    | none => (-2, s.vfsClose node)
    | some fd =>
      match block with
      | none => (-3, s.vfsClose node)
      | some file =>
        let new : VfsFile := { node := node, offset := 0, flags := flags, fdFlags := 0, refCount := 0 }
        let s := { s with files := update s.files file new, live := insert file s.live }
        let s := s.setSlot (p, fd) (some file)
        (fd.val, s.setCount file ((s.files file).refCount + 1))

def sysClose (fd : Int) : Int × Descriptors :=
  match descriptor fd with
  | none => (-1, s)
  | some i =>
    match s.table (p, i) with
    | none => (-1, s)
    | some file => (0, (dropReference s file).setSlot (p, i) none)

def kDup2 (oldfd newfd : Int) : Int × Descriptors :=
  match descriptor oldfd, descriptor newfd with
  | some old, some new =>
    if old = new then
      match s.table (p, old) with
      | none => (-1, s)
      | some _ => (newfd, s)
    else
      match s.table (p, old) with
      | none => (-1, s)
      | some oldFile =>
        let s :=
          match s.table (p, new) with
          | none => s
          | some file => (dropReference s file).setSlot (p, new) none
        let s := s.setSlot (p, new) (some oldFile)
        (newfd, s.setCount oldFile ((s.files oldFile).refCount + 1))
  | _, _ => (-1, s)

variable (parent child : Pcb)

/-- A round of the loop in `clone` that copies the table. -/
def copyFile (s : Descriptors) (i : Fin maxFilesPerProcess) : Descriptors :=
  match s.table (parent, i) with
  | none => s
  | some file =>
    let s := s.setSlot (child, i) (some file)
    s.setCount file ((s.files file).refCount + 1)

def copyFiles : Descriptors :=
  (List.finRange maxFilesPerProcess).foldl (copyFile parent child) s

/-- A new control block is filled with zeros. -/
def clearTable : Descriptors :=
  { s with table := fun slot => if slot.1 = p then none else s.table slot }

/-- The table of the new process, before it has a thread. -/
def childTable (flags : BitVec 32) : Descriptors :=
  let s := clearTable s child
  if flags &&& cloneFiles ≠ 0 then copyFiles s parent child else s

def startTable : Descriptors :=
  { s with
    procs := insert child s.procs
    alive := insert child s.alive
    threads := update s.threads child 1
    used := Finset.insert_subset_insert child s.used }

/-- The files of `clone`. When no thread can be made, the control block is freed with the
references that are in it. -/
def cloneDescriptors (flags : BitVec 32) (grants : Grants) : Descriptors :=
  if flags &&& cloneVm ≠ 0 then
    match grants.tcb with
    | none => s
    | some _ => { s with threads := update s.threads p (s.threads p + 1) }
  else
    match grants.pcb, grants.space, grants.tcb with
    | none, _, _ => s
    | some child, false, _ => clearTable s child
    | some child, true, none => childTable s p child flags
    | some child, true, some _ => startTable (childTable s p child flags) child

/-- A round of the loop in `process_file_destroy`. -/
def destroyFile (s : Descriptors) (i : Fin maxFilesPerProcess) : Descriptors :=
  match s.table (p, i) with
  | none => s
  | some file => (dropReference s file).setSlot (p, i) none

def processFileDestroy : Descriptors :=
  (List.finRange maxFilesPerProcess).foldl (destroyFile p) s

def exitDescriptors : Descriptors :=
  let s := processFileDestroy s p
  { s with
    alive := s.alive.erase p
    threads := update s.threads p (s.threads p - 1)
    used := (Finset.erase_subset p s.alive).trans s.used }

end

inductive FileCall where
  | open (p : Pcb) (flags : BitVec 32) (node : Option NodeAddr) (block : Option FileAddr)
  | close (p : Pcb) (fd : Int)
  | dup2 (p : Pcb) (oldfd newfd : Int)
  | clone (p : Pcb) (flags : BitVec 32) (grants : Grants)
  | exit (p : Pcb)

def FileCall.caller : FileCall → Pcb
  | .open p .. | .close p _ | .dup2 p .. | .clone p .. | .exit p => p

variable (call : FileCall) (s : Descriptors)

/-- A process that has a thread can call; the allocator hands out blocks not in use. -/
def FileCall.Possible : Prop :=
  call.caller ∈ s.procs ∧ 0 < s.threads call.caller ∧
    match call with
    | .open _ _ _ block => ∀ f, block = some f → f ∉ s.live
    | .clone _ _ grants => ∀ child, grants.pcb = some child → child ∉ s.procs
    | _ => True

def FileCall.apply : Descriptors :=
  match call with
  | .open p flags node block => (sysOpen s p flags node block).2
  | .close p fd => (sysClose s p fd).2
  | .dup2 p oldfd newfd => (kDup2 s p oldfd newfd).2
  | .clone p flags grants => cloneDescriptors s p flags grants
  | .exit p => exitDescriptors s p

def FileStep (before after : Descriptors) : Prop :=
  ∃ call : FileCall, call.Possible before ∧ after = call.apply before

/-- The process has not exited, there are not too many of them for a count in 32 bits, and a
fork that shares files does not fail for want of a thread. -/
def FileCall.Clean : Prop :=
  call.caller ∈ s.alive ∧ maxFilesPerProcess * (s.alive.card + 1) < 2 ^ 32 ∧
    match call with
    | .clone p flags grants =>
      flags &&& cloneVm = 0 → flags &&& cloneFiles ≠ 0 → grants.pcb ≠ none → grants.space = true → grants.tcb = none →
        ∀ i, s.table (p, i) = none
    | _ => True

def CleanFileStep (before after : Descriptors) : Prop :=
  ∃ call : FileCall, call.Possible before ∧ call.Clean before ∧ after = call.apply before

/-- The count of every living file is the number of slots that point to it, no slot points
to a freed one, and no file outlives its last slot. -/
structure Exact (s : Descriptors) : Prop where
  counts : ∀ f ∈ s.live, s.count f = references s.slots s.table f
  points : ∀ slot ∈ s.slots, ∀ f, s.table slot = some f → f ∈ s.live
  held : ∀ f ∈ s.live, 0 < references s.slots s.table f

end Sirius.Fs
