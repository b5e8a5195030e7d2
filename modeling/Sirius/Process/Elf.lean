import Sirius.Memory.Brk

/-! `elf_parse_and_map` of `process.c`: the header is checked, the fields of the process are
set for the new image, every page of a loadable segment and the page of the stack are
allocated, filled and mapped, and the arguments are put on the stack. The file is read
through a pointer and never bounds-checked, so its content is a total function. -/
namespace Sirius.Process
open Support Memory Function List

section
variable (content : Nat → BitVec 8) (ph : ProgramHeader)

def littleEndian (offset width : Nat) : Nat :=
  (range width).foldr (fun k rest => (content (offset + k)).toNat + 256 * rest) 0

def word16 (offset : Nat) : BitVec 16 := BitVec.ofNat 16 (littleEndian content offset 2)
def word32 (offset : Nat) : BitVec 32 := BitVec.ofNat 32 (littleEndian content offset 4)
def word64 (offset : Nat) : BitVec 64 := BitVec.ofNat 64 (littleEndian content offset 8)

structure ElfHeader where
  ident : List (BitVec 8)
  machine : BitVec 16
  entry : BitVec 64
  phoff : BitVec 64
  phnum : BitVec 16

def ehdrSize : BitVec 64 := 64

def elfHeader : ElfHeader where
  ident := (range 4).map content
  machine := word16 content 18
  entry := word64 content 24
  phoff := word64 content 32
  phnum := word16 content 56

def elfMagic : List (BitVec 8) := [0x7F, 0x45, 0x4C, 0x46]

structure ProgramHeader where
  type : BitVec 32
  offset : BitVec 64
  vaddr : BitVec 64
  filesz : BitVec 64
  memsz : BitVec 64

def programHeader (phoff : BitVec 64) (i : Nat) : ProgramHeader :=
  let base := phoff.toNat + i * 56
  { type := word32 content base
    offset := word64 content (base + 8)
    vaddr := word64 content (base + 16)
    filesz := word64 content (base + 32)
    memsz := word64 content (base + 40) }

/-- Byte `o` of the page at `virt`: file content where the segment has some, 0 elsewhere. -/
def segmentByte (virt : BitVec 64) (o : Nat) : BitVec 8 :=
  if ph.vaddr < virt + 4096 ∧ virt < ph.vaddr + ph.filesz then
    let early := virt < ph.vaddr
    let pageOffset := if early then ph.vaddr - virt else 0
    let fileOffset := if early then ph.offset + pageOffset else ph.offset + (virt - ph.vaddr)
    let copySize :=
      if ph.vaddr + ph.filesz < virt + 4096 then ph.vaddr + ph.filesz - virt - pageOffset else 4096 - pageOffset
    if o < pageOffset.toNat then 0
    else if o < pageOffset.toNat + copySize.toNat then content (fileOffset.toNat + (o - pageOffset.toNat))
    else 0
  else 0

def pageWords (bytes : Nat → BitVec 8) (i : Fin 512) : Entry := word64 bytes (i.val * 8)

/-- A page to be loaded and what it is to hold. -/
structure LoadPage where
  virt : BitVec 64
  words : Fin 512 → Entry

def segmentPages : List LoadPage :=
  let start := ph.vaddr &&& ~~~ 0xFFF
  let stop := (ph.vaddr + ph.memsz + 0xFFF) &&& ~~~ 0xFFF
  (pagesBetween start stop).map fun virt => ⟨virt, pageWords (segmentByte content ph virt)⟩

/-- The pages of all segments of type `PT_LOAD`, in the order in which they are loaded. -/
def loadPages : List LoadPage :=
  let header := elfHeader content
  (range header.phnum.toNat).flatMap fun i =>
    let ph := programHeader content header.phoff i
    if ph.type = 1 then segmentPages content ph else []

end

section
variable (m : Machine) (cr3 : BitVec 64)

/-- The page at `phys` is filled through the window of the loader, which then shows the root. -/
def placePage (page : LoadPage) (phys : BitVec 64) : Machine :=
  let m := m.scratchMap phys 10
  let m := { m with mem := update m.mem (m.windows 10) page.words }
  let m := m.scratchMap cr3 10
  (vmmMapPage m (m.windows 10) page.virt phys 7).machine

def loadSegments (cr3 : BitVec 64) : List LoadPage → Machine → Bool × Machine
  | [], m => (true, m)
  | page :: rest, m =>
    let (phys, m) := m.alloc
    if phys = 0 then (false, m) else loadSegments cr3 rest (placePage m cr3 page phys)

def userStackVirtualTop : BitVec 64 := 0x7FFFFFFFF000
def userStackInitialSize : BitVec 64 := 0x1000

def stackPage : LoadPage := ⟨userStackVirtualTop - userStackInitialSize, fun _ => 0⟩

abbrev CString := List (BitVec 8)

def overwrite (bytes : Nat → BitVec 8) (place : Nat) (source : List (BitVec 8)) (o : Nat) : BitVec 8 :=
  if place ≤ o ∧ o < place + source.length then source.getD (o - place) 0 else bytes o

def wordBytes (word : BitVec 64) : List (BitVec 8) := (range 8).map fun k => word.extractLsb' (k * 8) 8

/-- The page of the stack while the arguments are copied, last one first. -/
structure ArgumentPage where
  offset : Nat
  bytes : Nat → BitVec 8
  table : List (BitVec 64)

/-- An argument that does not leave room for the table ends the copy. -/
def copyArgument (argc : Nat) (page : ArgumentPage) (argument : CString) : Except ArgumentPage ArgumentPage :=
  let len := argument.length + 1
  if page.offset < len ∨ page.offset - len < 8 * (argc + 2) then .error page
  else
    let offset := page.offset - len
    .ok { offset := offset
          bytes := overwrite page.bytes offset (argument ++ [0])
          table := (userStackVirtualTop - BitVec.ofNat 64 (4096 - offset)) :: page.table }

def copyArguments (argv : List CString) : Except ArgumentPage ArgumentPage :=
  argv.reverse.foldlM (copyArgument argv.length) ⟨4096, fun _ => 0, []⟩

/-- The table of pointers with its terminator, and the count below it. -/
def finishArguments (argc : Nat) (page : ArgumentPage) : Nat × (Nat → BitVec 8) :=
  let table := page.offset / 8 * 8 - 8 * (argc + 1)
  let bytes := overwrite page.bytes table ((page.table ++ [0]).flatMap wordBytes)
  (table - 8, overwrite bytes (table - 8) (wordBytes (BitVec.ofNat 64 argc)))

/-- The machine and the address space of the process that runs. -/
structure ExecState where
  machine : Machine
  proc : ProcessSpace

def newImage (proc : ProcessSpace) (entry : BitVec 64) : ProcessSpace :=
  { proc with
    codeBase := entry
    heapStart := userHeapVirtualBase
    heapEnd := userHeapVirtualBase
    stackTop := userStackVirtualTop
    stackLimit := userStackVirtualTop - userStackInitialSize }

def fillPage (phys : BitVec 64) (bytes : Nat → BitVec 8) : Machine :=
  let m := m.scratchMap phys 10
  { m with mem := update m.mem (m.windows 10) (pageWords bytes) }

/-- What the pages placed so far leave, as long as each got a frame. -/
def placePages (pages : List LoadPage) (m : Machine) : Machine :=
  pages.foldl (fun m page => placePage m.alloc.2 cr3 page m.alloc.1) m

/-- `pmm_alloc_page` fails for one of the pages, or for the page of the stack after them. -/
def RunsOut (pages : List LoadPage) (m : Machine) : Prop :=
  ∃ front, front <+: pages ∧ (placePages cr3 front m).alloc.1 = 0

/-- There are arguments, and the strings, the table and the count go on one page. -/
def ArgumentsFit (argv : List CString) : Prop :=
  argv ≠ [] ∧ (argv.map fun argument => argument.length + 1).sum + 8 * (argv.length + 2) ≤ 4096

/-- The page of the stack is mapped, then cleared and filled; `tableOk` says whether
`kmalloc` has room for the table of argument addresses. A table of 0 bytes it never gives. -/
def buildStack (s : ExecState) (tableOk : Bool) (argv : List CString) : Bool × ExecState :=
  let (phys, m) := s.machine.alloc
  if phys = 0 then (false, { s with machine := m })
  else
    let m := m.scratchMap s.proc.cr3 10
    let m := (vmmMapPage m (m.windows 10) s.proc.stackLimit phys 7).machine
    if tableOk = false ∨ argv = [] then (false, { s with machine := fillPage m phys (fun _ => 0) })
    else match copyArguments argv with
      | .error page => (false, { s with machine := fillPage m phys page.bytes })
      | .ok page =>
        let (offset, bytes) := finishArguments argv.length page
        (true, { machine := fillPage m phys bytes
                 proc := { s.proc with stackTop := s.proc.stackTop - BitVec.ofNat 64 (4096 - offset) } })

/-- The entry point, or 0. -/
def elfParseAndMap (s : ExecState) (content : Nat → BitVec 8) (size : BitVec 64) (tableOk : Bool) (argv : List CString) :
    BitVec 64 × ExecState :=
  let header := elfHeader content
  if size < ehdrSize then (0, s)
  else if header.ident ≠ elfMagic then (0, s)
  else if header.machine ≠ 0x3E then (0, s)
  else
    let proc := newImage s.proc header.entry
    match loadSegments proc.cr3 (loadPages content) s.machine with
    | (false, m) => (0, ⟨m, proc⟩)
    | (true, m) =>
      match buildStack ⟨m, proc⟩ tableOk argv with
      | (false, s) => (0, s)
      | (true, s) => (header.entry, s)

theorem placePage_filled (page : LoadPage) (phys : BitVec 64) :
    ∃ filled : Machine, filled.mem = update m.mem (frameOf phys) page.words ∧ filled.pmm = m.pmm ∧
      placePage m cr3 page phys = (vmmMapPage filled (frameOf cr3) page.virt phys 7).machine := by
  refine ⟨({ m.scratchMap phys 10 with mem := update m.mem (frameOf phys) page.words } : Machine).scratchMap cr3 10,
    rfl, rfl, ?_⟩
  simp [placePage, Machine.scratchMap]

/-- With a frame for it, the page of the stack is mapped and then filled. -/
theorem buildStack_filled (nonzero : s.machine.alloc.1 ≠ 0) (tableOk : Bool) (argv : List CString) :
    ∃ bytes, (buildStack s tableOk argv).2.machine =
        fillPage (vmmMapPage (s.machine.alloc.2.scratchMap s.proc.cr3 10) (frameOf s.proc.cr3) s.proc.stackLimit
          s.machine.alloc.1 7).machine s.machine.alloc.1 bytes ∧
      ((buildStack s tableOk argv).1 = true → ∃ page, copyArguments argv = .ok page ∧
        bytes = (finishArguments argv.length page).2 ∧ (buildStack s tableOk argv).2.proc =
          { s.proc with stackTop := s.proc.stackTop - BitVec.ofNat 64 (4096 - (finishArguments argv.length page).1) }) := by
  rw [buildStack]
  generalize s.machine.alloc = result at nonzero ⊢
  dsimp only
  have window : (result.2.scratchMap s.proc.cr3 10).windows 10 = frameOf s.proc.cr3 := by
    simp [Machine.scratchMap]
  rw [if_neg nonzero, window]
  split
  · exact ⟨_, rfl, by simp⟩
  · split
    · exact ⟨_, rfl, by simp⟩
    · exact ⟨_, rfl, fun _ => ⟨_, by assumption, rfl, rfl⟩⟩

/-- Copying stops at no argument exactly if all fit above the table. -/
theorem foldlM_copyArgument (argc : Nat) (arguments : List CString) (page : ArgumentPage) :
    (∃ last, arguments.foldlM (copyArgument argc) page = .ok last) ↔
      arguments = [] ∨ (arguments.map fun argument => argument.length + 1).sum + 8 * (argc + 2) ≤ page.offset := by
  induction arguments generalizing page with
  | nil => exact iff_of_true ⟨page, rfl⟩ (.inl rfl)
  | cons argument rest ih =>
    simp only [foldlM_cons, map_cons, sum_cons, reduceCtorEq, false_or]
    by_cases room : argument.length + 1 + 8 * (argc + 2) ≤ page.offset
    · obtain ⟨next, copied, offset⟩ : ∃ next, copyArgument argc page argument = .ok next ∧
          next.offset = page.offset - (argument.length + 1) := by
        rw [copyArgument, if_neg (by omega)]
        exact ⟨_, rfl, rfl⟩
      rw [copied]
      refine (ih next).trans ⟨?_, fun all => .inr (by omega)⟩
      rintro (rfl | more)
      · simp only [map_nil, sum_nil]
        omega
      · omega
    · rw [copyArgument, if_pos (by omega)]
      refine iff_of_false ?_ (by omega)
      rintro ⟨last, impossible⟩
      cases impossible

theorem loadSegments_cons (page : LoadPage) (rest : List LoadPage) (m : Machine) :
    loadSegments cr3 (page :: rest) m = if m.alloc.1 = 0 then (false, m.alloc.2)
      else loadSegments cr3 rest (placePage m.alloc.2 cr3 page m.alloc.1) := rfl

/-- The loop gets to its end, and the stack gets its page, exactly if the allocator does not run out. -/
theorem loadSegments_spec (pages : List LoadPage) (m : Machine) :
    ((loadSegments cr3 pages m).1 = true ∧ (loadSegments cr3 pages m).2.alloc.1 ≠ 0) ↔ ¬ RunsOut cr3 pages m := by
  induction pages generalizing m with
  | nil =>
    simp only [loadSegments, RunsOut, prefix_nil, exists_eq_left, true_and]
    rfl
  | cons page rest ih =>
    rw [loadSegments_cons]
    have split : RunsOut cr3 (page :: rest) m ↔
        m.alloc.1 = 0 ∨ RunsOut cr3 rest (placePage m.alloc.2 cr3 page m.alloc.1) := by
      simp only [RunsOut, prefix_cons_iff, or_and_right, exists_or, exists_eq_left, ← exists_and_right, and_assoc]
      rw [exists_comm]
      simp only [exists_eq_left]
      rfl
    rw [split, not_or]
    by_cases empty : m.alloc.1 = 0
    · rw [if_pos empty]
      exact iff_of_false (fun both => Bool.false_ne_true both.1) fun both => both.1 empty
    · rw [if_neg empty, ih]
      exact ⟨fun enough => ⟨empty, enough⟩, fun both => both.2⟩

end

/-- An image that is not accepted: not a whole header, not an ELF file for the machine, no
entry point, not enough frames, no table for the arguments, or too many of them. -/
def Rejected (content : Nat → BitVec 8) (size : BitVec 64) (tableOk : Bool) (argv : List CString) (cr3 : BitVec 64)
    (m : Machine) : Prop :=
  size < ehdrSize ∨ (elfHeader content).ident ≠ elfMagic ∨ (elfHeader content).machine ≠ 0x3E ∨
    (elfHeader content).entry = 0 ∨ RunsOut cr3 (loadPages content) m ∨ tableOk = false ∨ ¬ ArgumentsFit argv

theorem buildStack_spec (s : ExecState) (tableOk : Bool) (argv : List CString) :
    ((buildStack s tableOk argv).1 = true ↔ s.machine.alloc.1 ≠ 0 ∧ tableOk = true ∧ ArgumentsFit argv) ∧
      (buildStack s tableOk argv).2.proc.cr3 = s.proc.cr3 := by
  have fits : (∃ page, copyArguments argv = .ok page) ↔ argv = [] ∨
      (argv.map fun argument => argument.length + 1).sum + 8 * (argv.length + 2) ≤ 4096 := by
    rw [copyArguments, foldlM_copyArgument, reverse_eq_nil_iff, map_reverse, sum_reverse]
  rw [buildStack]
  rcases allocated : s.machine.alloc with ⟨phys, m⟩
  dsimp only
  by_cases empty : phys = 0
  · rw [if_pos empty]
    exact ⟨iff_of_false Bool.false_ne_true fun all => all.1 empty, rfl⟩
  rw [if_neg empty]
  by_cases none : tableOk = false ∨ argv = []
  · rw [if_pos none]
    refine ⟨iff_of_false Bool.false_ne_true fun all => ?_, rfl⟩
    rcases none with missing | bare
    · exact Bool.false_ne_true (missing.symm.trans all.2.1)
    · exact all.2.2.1 bare
  rw [if_neg none]
  obtain ⟨table, some⟩ := not_or.mp none
  cases copied : copyArguments argv with
  | error page =>
    refine ⟨iff_of_false Bool.false_ne_true fun all => ?_, rfl⟩
    obtain ⟨whole, found⟩ := fits.mpr (.inr all.2.2.2)
    rw [copied] at found
    cases found
  | ok page =>
    have room := (fits.mp ⟨page, copied⟩).resolve_left some
    exact ⟨iff_of_true rfl ⟨empty, Bool.eq_true_of_not_eq_false table, some, room⟩, rfl⟩

/-- The loader fails exactly on the images it should reject, and never puts the tables of
the process back. -/
theorem elfParseAndMap_spec (s : ExecState) (content : Nat → BitVec 8) (size : BitVec 64) (tableOk : Bool)
    (argv : List CString) :
    ((elfParseAndMap s content size tableOk argv).1 = 0 ↔
        Rejected content size tableOk argv s.proc.cr3 s.machine) ∧
      (elfParseAndMap s content size tableOk argv).2.proc.cr3 = s.proc.cr3 := by
  rw [elfParseAndMap, Rejected]
  by_cases short : size < ehdrSize
  · rw [if_pos short]
    exact ⟨iff_of_true rfl (.inl short), rfl⟩
  by_cases magic : (elfHeader content).ident ≠ elfMagic
  · rw [if_neg short, if_pos magic]
    exact ⟨iff_of_true rfl (.inr (.inl magic)), rfl⟩
  by_cases machine : (elfHeader content).machine ≠ 0x3E
  · rw [if_neg short, if_neg magic, if_pos machine]
    exact ⟨iff_of_true rfl (.inr (.inr (.inl machine))), rfl⟩
  simp only [short, magic, machine, false_or]
  have loads := loadSegments_spec s.proc.cr3 (loadPages content) s.machine
  have same : (newImage s.proc (elfHeader content).entry).cr3 = s.proc.cr3 := by
    simp only [newImage]
  rw [same]
  rcases loaded : loadSegments s.proc.cr3 (loadPages content) s.machine with ⟨complete, m⟩
  rw [loaded] at loads
  cases complete with
  | false =>
    have out := not_not.mp fun enough => Bool.false_ne_true (loads.mpr enough).1
    exact ⟨iff_of_true rfl (.inr (.inl out)), same⟩
  | true =>
    obtain ⟨built, kept⟩ := buildStack_spec ⟨m, newImage s.proc (elfHeader content).entry⟩ tableOk argv
    dsimp only
    rcases result : buildStack ⟨m, newImage s.proc (elfHeader content).entry⟩ tableOk argv with ⟨done, last⟩
    rw [result] at built kept
    rw [same] at kept
    cases done with
    | false =>
      have rejected : RunsOut s.proc.cr3 (loadPages content) s.machine ∨ tableOk = false ∨ ¬ ArgumentsFit argv := by
        by_contra accepted
        simp only [not_or, Bool.not_eq_false, not_not] at accepted
        exact Bool.false_ne_true (built.mpr ⟨(loads.mpr accepted.1).2, accepted.2⟩)
      exact ⟨iff_of_true rfl (.inr rejected), kept⟩
    | true =>
      obtain ⟨nonempty, table, room⟩ := built.mp rfl
      have enough := loads.mp ⟨rfl, nonempty⟩
      refine ⟨⟨fun zero => .inl zero, ?_⟩, kept⟩
      rintro (zero | out | missing | crowded)
      · exact zero
      · exact absurd out enough
      · rw [table] at missing
        cases missing
      · exact absurd room crowded

theorem elfParseAndMap_built (done : (elfParseAndMap s content size tableOk argv).1 ≠ 0) :
    ∃ m, loadSegments s.proc.cr3 (loadPages content) s.machine = (true, m) ∧
      buildStack ⟨m, newImage s.proc (elfHeader content).entry⟩ tableOk argv =
        (true, (elfParseAndMap s content size tableOk argv).2) := by
  rw [elfParseAndMap] at done ⊢
  dsimp only at done ⊢
  have own : (newImage s.proc (elfHeader content).entry).cr3 = s.proc.cr3 := by rw [newImage]
  rw [own] at done ⊢
  generalize newImage s.proc (elfHeader content).entry = image at done ⊢
  split at done
  · exact absurd rfl done
  split at done
  · exact absurd rfl done
  split at done
  · exact absurd rfl done
  rename_i size ident machine
  rw [if_neg size, if_neg ident, if_neg machine]
  rcases loaded : loadSegments s.proc.cr3 (loadPages content) s.machine with ⟨complete, m⟩
  rw [loaded] at done
  cases complete with
  | false => exact absurd rfl done
  | true =>
    refine ⟨m, rfl, ?_⟩
    dsimp only at done ⊢
    rcases built : buildStack ⟨m, image⟩ tableOk argv with ⟨finished, after⟩
    rw [built] at done
    cases finished with
    | false => exact absurd rfl done
    | true => rfl

/-- An ELF header with an entry point and no segments. -/
def bareImage (o : Nat) : BitVec 8 :=
  match o with
  | 0 => 0x7F
  | 1 => 0x45
  | 2 => 0x4C
  | 3 => 0x46
  | 18 => 0x3E
  | 26 => 0x40
  | _ => 0

theorem bareImage_pages : loadPages bareImage = [] := by decide

end Sirius.Process
