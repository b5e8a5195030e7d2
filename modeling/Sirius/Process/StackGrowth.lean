import Sirius.Process.Execve
import Sirius.Support.Runs

/-! What a process finds in its memory once an image has been loaded: in each page what the last segment with a part
there has put into it, and the arguments on the page of the stack. -/
namespace Sirius.Process
open Support Memory Function Machine
variable {m next : Machine} {root frame : Frame} {virt cr3 : BitVec 64} {page : LoadPage} {pages : List LoadPage}

/-- When its turn comes, each page finds a frame and its tables, and the page directories lie below 64 GB. -/
def PagesFound (cr3 : BitVec 64) : List LoadPage → Machine → Prop
  | [], _ => True
  | page :: rest, m => Affords m (frameOf cr3) page.virt ∧ DirectoryBelow m (frameOf cr3) page.virt ∧
      PagesFound cr3 rest (placePage m.alloc.2 cr3 page m.alloc.1)

/-- A page replaces one that was loaded to the same address before it. -/
def layPages (pages : List LoadPage) (image : BitVec 64 → Option (Fin 512 → Entry)) : BitVec 64 → Option (Fin 512 → Entry) :=
  pages.foldl (fun image page => update image page.virt (some page.words)) image

theorem loadSegments_shows (tables : Tables m.mem m.pmm (frameOf cr3)) (shows : ShowsImage m (frameOf cr3) image)
    (user : ∀ page ∈ pages, UserPage page.virt) (found : PagesFound cr3 (pages ++ rest) m) :
    ∃ next, loadSegments cr3 pages m = (true, next) ∧ Tables next.mem next.pmm (frameOf cr3) ∧
      ShowsImage next (frameOf cr3) (layPages pages image) ∧ PagesFound cr3 rest next := by
  induction pages generalizing m image with
  | nil => exact ⟨m, rfl, tables, shows, found⟩
  | cons page pages ih =>
    obtain ⟨affords, below, more⟩ := found
    have first := user page List.mem_cons_self
    obtain ⟨filled, mem, pmm, same⟩ := placePage_filled m.alloc.2 cr3 page m.alloc.1
    rw [same] at more
    obtain ⟨nonzero, adds⟩ := adds_of_filled tables first affords below mem pmm
    rw [loadSegments_cons, if_neg nonzero, same]
    exact ih adds.tables (adds.shows first shows) (fun other mem => user other (List.mem_cons_of_mem _ mem)) more

theorem buildStack_shows (tables : Tables s.machine.mem s.machine.pmm (frameOf s.proc.cr3))
    (shows : ShowsImage s.machine (frameOf s.proc.cr3) image) (limit : s.proc.stackLimit = stackPage.virt)
    (found : PagesFound s.proc.cr3 [stackPage] s.machine) (built : buildStack s tableOk argv = (true, after)) :
    ∃ page, copyArguments argv = .ok page ∧ after.proc.stackLimit = stackPage.virt ∧
      Tables after.machine.mem after.machine.pmm (frameOf s.proc.cr3) ∧ ShowsImage after.machine (frameOf s.proc.cr3)
        (update image stackPage.virt (some (pageWords (finishArguments argv.length page).2))) := by
  obtain ⟨affords, below, -⟩ := found
  have user : UserPage stackPage.virt := ⟨by decide, by decide⟩
  have nonempty := ((buildStack_spec s tableOk argv).1.mp (congrArg Prod.fst built)).1
  obtain ⟨_, machine, outcome⟩ := buildStack_filled nonempty tableOk argv
  rw [built] at machine outcome
  obtain ⟨page, copied, rfl, proc⟩ := outcome rfl
  refine ⟨page, copied, ?_, ?_⟩
  · rw [proc, limit]
  rw [machine, limit]
  generalize filling : s.machine.alloc.2.scratchMap s.proc.cr3 10 = filled
  have mem : filled.mem = update s.machine.mem (frameOf s.machine.alloc.1) (s.machine.mem (frameOf s.machine.alloc.1)) := by
    rw [← filling, update_eq_self]
    rfl
  generalize (finishArguments argv.length page).2 = bytes
  obtain ⟨-, mapped⟩ := adds_of_filled tables user affords below mem (filling ▸ rfl)
  generalize s.machine.alloc.1 = phys at mapped
  generalize (vmmMapPage filled (frameOf s.proc.cr3) stackPage.virt phys 7).machine = next at mapped ⊢
  have adds : Adds (frameOf s.proc.cr3) s.machine (fillPage next phys bytes) stackPage.virt (frameOf phys) (pageWords bytes) :=
    mapped.fill (by simp [fillPage, scratchMap]) rfl
  exact ⟨adds.tables, adds.shows user shows⟩

/-- An image that is loaded shows its pages and, at the end of its stack, its arguments. -/
theorem elfParseAndMap_shows (tables : Tables s.machine.mem s.machine.pmm (frameOf s.proc.cr3))
    (user : ∀ page ∈ loadPages content, UserPage page.virt)
    (found : PagesFound s.proc.cr3 (loadPages content ++ [stackPage]) s.machine)
    (done : (elfParseAndMap s content size tableOk argv).1 ≠ 0) :
    let after := (elfParseAndMap s content size tableOk argv).2
    ∃ page, copyArguments argv = .ok page ∧ after.proc.stackLimit = stackPage.virt ∧
      Tables after.machine.mem after.machine.pmm (frameOf s.proc.cr3) ∧ ShowsImage after.machine (frameOf s.proc.cr3)
        (update (layPages (loadPages content) fun _ => none) stackPage.virt
          (some (pageWords (finishArguments argv.length page).2))) := by
  have none : ShowsImage s.machine (frameOf s.proc.cr3) fun _ => none := nofun
  obtain ⟨next, loaded, kept, shows, more⟩ := loadSegments_shows tables none user found
  obtain ⟨m, again, built⟩ := elfParseAndMap_built done
  obtain ⟨-, rfl⟩ := Prod.mk.inj (loaded.symm.trans again)
  have own : (newImage s.proc (elfHeader content).entry).cr3 = s.proc.cr3 := by rw [newImage]
  have limit : (newImage s.proc (elfHeader content).entry).stackLimit = stackPage.virt := by rw [newImage, stackPage]
  generalize newImage s.proc (elfHeader content).entry = image at own limit built
  rw [← own] at kept shows more ⊢
  exact buildStack_shows (s := ⟨next, image⟩) kept shows limit more built

/-! The stack of a process, which a fault below it makes longer by a page. -/

variable {s : ExecState} {fault : BitVec 64}

def userStackMaxLimitSize : BitVec 64 := 0x800000

/-- The address lies below the stack and not too far. -/
def GrowsStack (proc : ProcessSpace) (fault : BitVec 64) : Prop :=
  fault < proc.stackLimit ∧ userStackVirtualTop - userStackMaxLimitSize ≤ fault

instance : Decidable (GrowsStack proc fault) := inferInstanceAs (Decidable (_ ∧ _))

/-- The page that was missed is cleared and mapped, and the stack begins with it. -/
def handleUserStackGrowth (s : ExecState) (fault : BitVec 64) : Bool × ExecState :=
  if GrowsStack s.proc fault then
    let virt := fault &&& ~~~ 0xFFF
    let (phys, m) := s.machine.alloc
    if phys = 0 then (false, { s with machine := m })
    else
      let m := ((m.scratchMap phys 15).clear 15).scratchMap s.proc.cr3 15
      (true, ⟨(vmmMapPage m (m.windows 15) virt phys 7).machine, { s.proc with stackLimit := virt }⟩)
  else (false, s)

def afterFault (fault : BitVec 64) (s : ExecState) : ExecState := (handleUserStackGrowth s fault).2

/-- Every page from the limit to the top of the stack is mapped. -/
def NoHoles (s : ExecState) : Prop :=
  ∀ virt, UserPage virt → s.proc.stackLimit ≤ virt → virt < userStackVirtualTop →
    ∃ frame, userWalk s.machine.mem (frameOf s.proc.cr3) (indices virt) = some frame

/-- A fault that makes the stack longer is on the page right below it, and frames are found for the page and its
tables, below 64 GB. -/
structure NextPage (fault : BitVec 64) (s : ExecState) : Prop where
  adjacent : (fault &&& ~~~ 0xFFF) + 4096 = s.proc.stackLimit
  affords : Affords s.machine (frameOf s.proc.cr3) (fault &&& ~~~ 0xFFF)
  below : DirectoryBelow s.machine (frameOf s.proc.cr3) (fault &&& ~~~ 0xFFF)

structure StackInv (s : ExecState) : Prop where
  tables : Tables s.machine.mem s.machine.pmm (frameOf s.proc.cr3)
  limit : UserPage s.proc.stackLimit
  noHoles : NoHoles s

theorem StackInv.step (inv : StackInv s) (next : GrowsStack s.proc fault → NextPage fault s) : StackInv (afterFault fault s) := by
  rw [afterFault, handleUserStackGrowth]
  split
  case isFalse => exact inv
  case isTrue grows =>
  obtain ⟨adjacent, affords, below⟩ := next grows
  have start : (fault &&& ~~~ 0xFFF).toNat ≤ fault.toNat := Nat.and_le_left
  generalize fault &&& ~~~ 0xFFF = virt at adjacent affords below start
  have top := inv.limit.user
  have aligned := inv.limit.aligned
  have place : virt.toNat + 4096 = s.proc.stackLimit.toNat := by
    have inside := grows.1
    bv_omega
  have page : UserPage virt := ⟨by omega, by omega⟩
  generalize filling : (((s.machine.alloc.2.scratchMap s.machine.alloc.1 15).clear 15).scratchMap s.proc.cr3 15) = filled
  have mem : filled.mem = update s.machine.mem (frameOf s.machine.alloc.1) fun _ => 0 := by
    simp only [← filling, scratchMap, clear, update_self]
    rfl
  have window : filled.windows 15 = frameOf s.proc.cr3 := by simp [← filling, scratchMap]
  obtain ⟨nonzero, adds⟩ := adds_of_filled inv.tables page affords below mem (filling ▸ rfl)
  dsimp only
  rw [if_neg nonzero, filling, window]
  refine ⟨adds.tables, page, fun other user low high => ?_⟩
  change virt ≤ other at low
  by_cases here : other = virt
  · rw [here]
    exact ⟨_, adds.reached⟩
  have differ : indices other ≠ indices virt := fun same => here (indices_injective user page same)
  have above : s.proc.stackLimit ≤ other := by
    have := user.aligned
    rw [BitVec.le_def] at low ⊢
    have : other.toNat ≠ virt.toNat := fun same => here (BitVec.eq_of_toNat_eq same)
    omega
  obtain ⟨frame, reached⟩ := inv.noHoles other user above high
  exact ⟨frame, (adds.others _ rfl differ).trans reached⟩

theorem stack_without_holes (tables : Tables s.machine.mem s.machine.pmm (frameOf s.proc.cr3))
    (user : ∀ page ∈ loadPages content, UserPage page.virt)
    (found : PagesFound s.proc.cr3 (loadPages content ++ [stackPage]) s.machine)
    (done : (elfParseAndMap s content size tableOk argv).1 ≠ 0)
    (meet : AllMeet afterFault (fun fault s => GrowsStack s.proc fault → NextPage fault s) faults
      (elfParseAndMap s content size tableOk argv).2) :
    NoHoles (runAll afterFault faults (elfParseAndMap s content size tableOk argv).2) := by
  refine (meet.preserves (?_ : StackInv _) fun fault s next inv => inv.step next).noHoles
  obtain ⟨page, -, limit, kept, shows⟩ := elfParseAndMap_shows tables user found done
  have same := (elfParseAndMap_spec s content size tableOk argv).2
  generalize (elfParseAndMap s content size tableOk argv).2 = after at limit kept shows same
  refine ⟨same ▸ kept, limit ▸ ⟨by decide, by decide⟩, fun virt page low high => ?_⟩
  obtain rfl : virt = stackPage.virt := by
    have aligned := page.aligned
    rw [limit] at low
    simp only [stackPage, userStackVirtualTop, userStackInitialSize] at low high ⊢
    bv_omega
  obtain ⟨frame, reached, -⟩ := shows _ _ page (update_self ..)
  exact ⟨frame, same ▸ reached⟩

/-- A fault on the page below the stack of a process that has just been loaded. -/
theorem stack_without_holes_one_page :
    NoHoles (runAll afterFault [0x7FFFFFFFD800] (elfParseAndMap loneProcess bareImage 64 true [[0x61]]).2) := by
  have found : PagesFound 0x5000 (loadPages bareImage ++ [stackPage]) smallMachine := by
    rw [bareImage_pages, List.nil_append]
    refine ⟨by unfold Affords; decide +kernel, fun pd reached => ?_, trivial⟩
    cases reached
  refine stack_without_holes (s := loneProcess) smallMachine_empty.tables
    (by rw [bareImage_pages]; exact nofun) found (by decide +kernel)
    ⟨fun _ => ⟨by decide +kernel, by unfold Affords; decide +kernel, fun pd reached => ?_⟩, trivial⟩
  cases reached
  decide

/-- A fault two pages below the stack leaves the page between them without a frame. -/
theorem skipped_page_is_hole : (elfParseAndMap loneProcess bareImage 64 true [[0x61]]).1 ≠ 0 ∧
      (handleUserStackGrowth (elfParseAndMap loneProcess bareImage 64 true [[0x61]]).2 0x7FFFFFFFC800).1 = true ∧
      ¬NoHoles (runAll afterFault [0x7FFFFFFFC800] (elfParseAndMap loneProcess bareImage 64 true [[0x61]]).2) := by
  refine ⟨by decide +kernel, by decide +kernel, fun whole => ?_⟩
  obtain ⟨frame, reached⟩ := whole 0x7FFFFFFFD000 ⟨by decide, by decide⟩ (by decide +kernel) (by decide)
  cases reached

end Sirius.Process
