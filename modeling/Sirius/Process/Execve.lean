import Sirius.Process.Elf
import Sirius.Memory.FlushUserSpace
import Sirius.Memory.CloneAddressSpace
import Sirius.Memory.TranslationLaw

/-! `sys_execve` and `elf_load_and_execve`. The tables of the process are replaced before
the image is looked at, and only a failure to make new tables puts the old ones back. -/
namespace Sirius.Process
open Support Memory

/-- A file that was opened: its size, what `vfs_read` returned for it, and the buffer
afterwards. -/
structure ExecFile where
  size : BitVec 64
  bytesRead : BitVec 32
  content : Nat → BitVec 8

/-- What the rest of the kernel answers: which files there are, whether the pool has room
for the buffer, and whether the heap has room for the table of arguments. -/
structure ExecEnv where
  vfsOpen : CString → Option ExecFile
  poolAlloc : Bool
  kmalloc : Bool

def elfLoadAndExecve (env : ExecEnv) (path : CString) (argv : List CString) (s : ExecState) : Int × ExecState :=
  match env.vfsOpen path with
  | none => (-1, s)
  | some file =>
    if file.size = 0 then (-1, s)
    else if env.poolAlloc = false then (-1, s)
    else if file.bytesRead ≠ file.size.setWidth 32 then (-1, s)
    else
      let old := s.proc.cr3
      let (cr3, m) := vmmCreateAddressSpace s.machine old
      if cr3 = 0 then (-1, { s with machine := m })
      else
        let created := { machine := m, proc := { s.proc with cr3 := cr3 } }
        let (entry, mapped) := elfParseAndMap created file.content file.size env.kmalloc argv
        if entry = 0 then (-1, mapped)
        else (0, { mapped with machine := (processFlushUserSpace mapped.machine old).2.machine })

/-- A call that succeeds does not return to the caller but starts the new image. -/
inductive ExecResult where
  | returns (code : Int)
  | entersImage
deriving DecidableEq

def defaultArguments : List CString := [[0x2E]]

def sysExecve (env : ExecEnv) (pathname : Option CString) (argv : Option (List CString)) (s : ExecState) :
    ExecResult × ExecState :=
  match pathname with
  | none => (.returns (-1), s)
  | some path =>
    let (status, after) := elfLoadAndExecve env path (argv.getD defaultArguments) s
    if status ≠ 0 then (.returns (-1), after) else (.entersImage, after)

/-- What the process sees at an address: the words of the page it is mapped to. -/
def userContents (s : ExecState) (virt : BitVec 64) : Option (Fin 512 → Entry) :=
  (userWalk s.machine.mem (frameOf s.proc.cr3) (indices virt)).map s.machine.mem

/-- Neither the fields of the process nor what it sees in memory has changed. -/
structure Intact (before after : ExecState) : Prop where
  fields : after.proc = before.proc
  memory : ∀ virt, userContents after virt = userContents before virt

/-- The call gets as far as new tables. -/
structure ReachesImage (env : ExecEnv) (path : CString) (file : ExecFile) (s : ExecState) : Prop where
  opened : env.vfsOpen path = some file
  nonempty : file.size ≠ 0
  buffer : env.poolAlloc = true
  whole : file.bytesRead = file.size.setWidth 32
  tables : s.machine.alloc.1 ≠ 0

theorem Intact.refl (s : ExecState) : Intact s s := ⟨rfl, fun _ => rfl⟩

/-- New tables are in a frame that was free; without one nothing but the allocator is touched. -/
theorem vmmCreateAddressSpace_spec (m : Machine) (cr3 : BitVec 64) :
    (m.alloc.1 = 0 → vmmCreateAddressSpace m cr3 = (0, m.alloc.2)) ∧
      (m.alloc.1 ≠ 0 → (vmmCreateAddressSpace m cr3).1 ≠ 0 ∧
        ¬ m.pmm.InUse (frameOf (vmmCreateAddressSpace m cr3).1)) := by
  rcases allocated : pmmAllocPage m.pmm with ⟨new, later⟩
  have result := Machine.alloc_eq allocated
  simp only [vmmCreateAddressSpace, result]
  constructor
  · intro zero
    rw [if_pos zero]
  intro nonzero
  obtain ⟨address, free, -⟩ := pmmAllocPage_spec allocated nonzero
  rw [if_neg nonzero]
  rw [← address, addrOf_masked, frameOf_addrOf, address]
  exact ⟨nonzero, free⟩

/-- A failing call has changed nothing the process can see, unless it got to the image. -/
theorem elfLoadAndExecve_unreached (argv : List CString) (away : ∀ file, ¬ ReachesImage env path file s) :
    ∃ m, elfLoadAndExecve env path argv s = (-1, { s with machine := m }) ∧ m.mem = s.machine.mem := by
  rw [elfLoadAndExecve]
  cases opened : env.vfsOpen path with
  | none => exact ⟨s.machine, rfl, rfl⟩
  | some file =>
    dsimp only
    by_cases empty : file.size = 0
    · rw [if_pos empty]
      exact ⟨s.machine, rfl, rfl⟩
    by_cases full : env.poolAlloc = false
    · rw [if_neg empty, if_pos full]
      exact ⟨s.machine, rfl, rfl⟩
    by_cases short : file.bytesRead ≠ file.size.setWidth 32
    · rw [if_neg empty, if_neg full, if_pos short]
      exact ⟨s.machine, rfl, rfl⟩
    have exhausted : s.machine.alloc.1 = 0 := by
      by_contra tables
      exact away file ⟨opened, empty, Bool.not_eq_false _ ▸ full, not_not.mp short, tables⟩
    rw [if_neg empty, if_neg full, if_neg short, (vmmCreateAddressSpace_spec s.machine s.proc.cr3).1 exhausted]
    exact ⟨s.machine.alloc.2, if_pos rfl, rfl⟩

/-- Once there are new tables the result is that of the loader, and the process keeps the
new tables either way. -/
theorem elfLoadAndExecve_reached (argv : List CString) (reached : ReachesImage env path file s) :
    let tables := vmmCreateAddressSpace s.machine s.proc.cr3
    let rejected := Rejected file.content file.size env.kmalloc argv tables.1 tables.2
    ((elfLoadAndExecve env path argv s).1 ≠ 0 ↔ rejected) ∧
      (elfLoadAndExecve env path argv s).2.proc.cr3 = tables.1 := by
  obtain ⟨nonzero, -⟩ := (vmmCreateAddressSpace_spec s.machine s.proc.cr3).2 reached.tables
  rw [elfLoadAndExecve, reached.opened]
  dsimp only
  rw [if_neg reached.nonempty, if_neg (ne_false_of_eq_true reached.buffer), if_neg (not_not.mpr reached.whole)]
  rcases created : vmmCreateAddressSpace s.machine s.proc.cr3 with ⟨cr3, m⟩
  rw [created] at nonzero
  rw [if_neg nonzero]
  obtain ⟨entry, kept⟩ :=
    elfParseAndMap_spec ⟨m, { s.proc with cr3 := cr3 }⟩ file.content file.size env.kmalloc argv
  rcases parsed : elfParseAndMap ⟨m, { s.proc with cr3 := cr3 }⟩ file.content file.size env.kmalloc argv with ⟨e, mapped⟩
  rw [parsed] at entry kept
  by_cases zero : e = 0
  · rw [if_pos zero]
    exact ⟨iff_of_true (Int.neg_ne_zero.mpr Int.one_ne_zero) (entry.mp zero), kept⟩
  · rw [if_neg zero]
    exact ⟨iff_of_false (fun wrong => wrong rfl) fun rejected => zero (entry.mpr rejected), kept⟩

def loneProcess : ExecState where
  machine := smallMachine
  proc := { cr3 := 0x5000, codeBase := 0x400000, heapStart := 0x8000000, heapEnd := 0x8000000,
            stackTop := 0x7FFFFFFFF000, stackLimit := 0x7FFFFFFFE000 }

def oneByteFile : ExecEnv :=
  { vfsOpen := fun path => if path = [0x61] then some { size := 1, bytesRead := 1, content := fun _ => 0x7F } else none
    poolAlloc := true
    kmalloc := true }

end Sirius.Process
