import Sirius.Memory.Translation
import Mathlib.Data.Set.Card

/-! `brk.c`: the heap of a process grows a page at a time, each page zeroed through a
scratch window and entered in the tables of the process. Shrinking moves the break and
nothing else: the loop that would unmap the pages is empty. -/
namespace Sirius.Memory
open Support Function List BitVec

structure ProcessSpace where
  cr3 : BitVec 64
  codeBase : BitVec 64
  heapStart : BitVec 64
  heapEnd : BitVec 64
  stackTop : BitVec 64
  stackLimit : BitVec 64

def userHeapVirtualBase : BitVec 64 := 0x8000000

def pageUp (addr : BitVec 64) : BitVec 64 := (addr + 4095) &&& ~~~ 0xFFF

def pagesBetween (start stop : BitVec 64) : List (BitVec 64) :=
  (List.range ((stop.toNat - start.toNat) / 4096)).map fun i => start + BitVec.ofNat 64 (i * 4096)

theorem mem_pagesBetween (first : start.toNat % 4096 = 0) (last : stop.toNat % 4096 = 0) :
    virt ∈ pagesBetween start stop ↔ virt.toNat % 4096 = 0 ∧ start ≤ virt ∧ virt < stop := by
  simp only [BitVec.le_def, BitVec.lt_def, pagesBetween, mem_map, mem_range]
  have entry : ∀ i, i < (stop.toNat - start.toNat) / 4096 →
      (start + BitVec.ofNat 64 (i * 4096)).toNat = start.toNat + i * 4096 := by
    intro i small
    rw [toNat_add, toNat_ofNat]
    omega
  constructor
  · rintro ⟨i, small, rfl⟩
    rw [entry i small]
    omega
  rintro ⟨aligned, above, below⟩
  have small : (virt.toNat - start.toNat) / 4096 < (stop.toNat - start.toNat) / 4096 := by omega
  refine ⟨(virt.toNat - start.toNat) / 4096, small, ?_⟩
  apply eq_of_toNat_eq
  rw [entry _ small]
  omega

/-- The new page at `phys` is cleared and mapped; the same window then shows the root. -/
def brkPage (m : Machine) (cr3 virt phys : BitVec 64) : Machine :=
  let m := (m.scratchMap phys 11).clear 11
  let m := m.scratchMap cr3 11
  (vmmMapPage m (m.windows 11) virt phys 7).machine

/-- What the loop over the new pages leaves, and the frames it took. -/
structure Grown where
  machine : Machine
  taken : List (BitVec 64)
  complete : Bool

def brkGrow (cr3 : BitVec 64) : List (BitVec 64) → Machine → Grown
  | [], m => ⟨m, [], true⟩
  | virt :: rest, m =>
    let (phys, m) := m.alloc
    if phys = 0 then ⟨m, [], false⟩
    else
      let grown := brkGrow cr3 rest (brkPage m cr3 virt phys)
      { grown with taken := phys :: grown.taken }

/-- The frames taken for the heap and not given back are counted on the side. -/
structure BrkState where
  machine : Machine
  proc : ProcessSpace
  taken : List (BitVec 64)

def brk (s : BrkState) (newBreak : BitVec 64) : BitVec 64 × BrkState :=
  let oldBreak := s.proc.heapEnd
  if newBreak = 0 ∨ newBreak = oldBreak then (oldBreak, s)
  else if newBreak < userHeapVirtualBase ∨ s.proc.stackLimit ≤ newBreak then (oldBreak, s)
  else
    let moved := { s.proc with heapEnd := newBreak }
    if oldBreak < newBreak then
      let grown := brkGrow s.proc.cr3 (pagesBetween (pageUp oldBreak) (pageUp newBreak)) s.machine
      let taken := grown.taken ++ s.taken
      -- the pages mapped before an allocation fails stay mapped
      if grown.complete then (newBreak, ⟨grown.machine, moved, taken⟩)
      else (oldBreak, ⟨grown.machine, s.proc, taken⟩)
    else (newBreak, { s with proc := moved })

/-- The page addresses from `low` up to `high` that are mapped. -/
def mappedIn (mem : PhysMem) (root : Frame) (low high : BitVec 64) : Set (BitVec 64) :=
  {virt | UserPage virt ∧ low ≤ virt ∧ virt < high ∧ userWalk mem root (indices virt) ≠ none}

def ReadsZero (m : Machine) (root : Frame) (virt : BitVec 64) : Prop :=
  ∃ frame, userWalk m.mem root (indices virt) = some frame ∧ m.mem frame = fun _ => 0

variable {m next : Machine} {root : Frame} {virt cr3 : BitVec 64}

/-- What mapping new pages does: each reads as zeros, and every other page and all data
are as before. -/
structure Growth (root : Frame) (m next : Machine) (done : List (BitVec 64)) : Prop where
  tables : Tables next.mem next.pmm root
  zeroed : ∀ virt ∈ done, ∃ frame, userWalk next.mem root (indices virt) = some frame ∧
    DataFrame next root frame ∧ next.mem frame = fun _ => 0
  others : ∀ path : List (Fin 512), path.length = 4 → (∀ virt ∈ done, path ≠ indices virt) →
    userWalk next.mem root path = userWalk m.mem root path
  data : ∀ frame, DataFrame m root frame → LeavesData m next root frame

theorem Growth.refl (tables : Tables m.mem m.pmm root) : Growth root m m [] where
  tables := tables
  zeroed _ member := absurd member not_mem_nil
  others _ _ _ := rfl
  data _ frame := frame.leaves rfl rfl

theorem Growth.cons (first : Growth root m next [virt]) (rest : Growth root next last done)
    (unmapped : ∀ other ∈ done, indices other ≠ indices virt) : Growth root m last (virt :: done) where
  tables := rest.tables
  zeroed other member := by
    cases member with
    | head =>
      obtain ⟨frame, reached, data, zero⟩ := first.zeroed virt mem_cons_self
      have kept := rest.data frame data
      refine ⟨frame, ?_, kept.data, kept.same.trans zero⟩
      rw [rest.others (indices virt) rfl fun other member same => unmapped other member same.symm, reached]
    | tail _ later => exact rest.zeroed other later
  others path four differ := by
    rw [rest.others path four fun other member => differ other (mem_cons_of_mem _ member)]
    apply first.others path four
    intro other member
    rw [mem_singleton.mp member]
    exact differ virt mem_cons_self
  data frame data := (first.data frame data).trans (rest.data frame (first.data frame data).data)

/-- A page just allocated and filled is data, and the tables are what they were. -/
theorem Tables.fillFrame (tables : Tables m.mem m.pmm root) (allocated : pmmAllocPage m.pmm = (phys, later))
    (nonzero : phys ≠ 0) (mem : next.mem = Function.update m.mem (frameOf phys) words) (pmm : next.pmm = later) :
    Tables next.mem next.pmm root ∧ DataFrame next root (frameOf phys) ∧
      (∀ path : List (Fin 512), path.length ≤ 4 → userWalk next.mem root path = userWalk m.mem root path) ∧
      ∀ frame, DataFrame m root frame → LeavesData m next root frame := by
  obtain ⟨-, free, -, now⟩ := pmmAllocPage_spec allocated nonzero
  have walks : ∀ path : List (Fin 512), path.length ≤ 4 → userWalk next.mem root path = userWalk m.mem root path := by
    intro path short
    rw [mem, userWalk_update (tables.apart free) _ short]
  have kept : Tables next.mem next.pmm root := by
    rw [mem, pmm]
    exact (tables.update (tables.apart free) _).mono fun path frame _ _ used => (now frame).mpr (.inr used)
  refine ⟨kept, ⟨?_, ?_⟩, walks, ?_⟩
  · rw [pmm]
    exact (now _).mpr (.inl rfl)
  · intro path short reached
    rw [walks path (by omega)] at reached
    exact free (tables.used path _ short reached)
  intro frame data
  refine ⟨⟨?_, ?_⟩, ?_⟩
  · rw [pmm]
    exact (now frame).mpr (.inr data.used)
  · intro path short
    rw [walks path (by omega)]
    exact data.apart path short
  · rw [mem, update_of_ne]
    rintro rfl
    exact free data.used

/-- The allocator has a page for `virt` and one for every table missing on its way. -/
def Affords (m : Machine) (root : Frame) (virt : BitVec 64) : Prop :=
  0 ∉ allocations (missingTables m.mem root virt + 1) m.pmm

theorem missingTables_congr
    (walks : ∀ path : List (Fin 512), path.length ≤ 4 → userWalk changed root path = userWalk mem root path) (virt : BitVec 64) :
    missingTables changed root virt = missingTables mem root virt := by
  simp only [missingTables, walks [pml4Index virt] (by simp), walks [pml4Index virt, pdptIndex virt] (by simp),
    walks [pml4Index virt, pdptIndex virt, pdIndex virt] (by simp)]

/-- A frame that was free shows `words` at a page, and every other page and all data are as before. -/
structure Adds (root : Frame) (m next : Machine) (virt : BitVec 64) (frame : Frame) (words : Fin 512 → Entry) : Prop where
  tables : Tables next.mem next.pmm root
  free : ¬ m.pmm.InUse frame
  reached : userWalk next.mem root (indices virt) = some frame
  page : DataFrame next root frame
  holds : next.mem frame = words
  others : ∀ path : List (Fin 512), path.length = 4 → path ≠ indices virt → userWalk next.mem root path = userWalk m.mem root path
  data : ∀ frame, DataFrame m root frame → LeavesData m next root frame

theorem adds_of_filled (tables : Tables m.mem m.pmm root) (page : UserPage virt) (affords : Affords m root virt)
    (below : DirectoryBelow m root virt) (mem : filled.mem = update m.mem (frameOf m.alloc.1) words)
    (pmm : filled.pmm = m.alloc.2.pmm) :
    m.alloc.1 ≠ 0 ∧ Adds root m (vmmMapPage filled root virt m.alloc.1 7).machine virt (frameOf m.alloc.1) words := by
  rcases allocated : pmmAllocPage m.pmm with ⟨phys, later⟩
  have result := Machine.alloc_eq allocated
  rw [result] at mem pmm ⊢
  obtain ⟨nonzero, enough⟩ := (not_mem_allocations allocated).mp affords
  obtain ⟨kept, data, walks, leaves⟩ := tables.fillFrame allocated nonzero mem pmm
  have directory : DirectoryBelow filled root virt := by
    intro pd reached
    rw [walks _ (by simp)] at reached
    exact below pd reached
  have succeeds : Succeeds filled root virt := by
    rw [Succeeds, missingTables_congr walks, pmm]
    exact enough
  have succeeded := (vmmMapPage_succeeded kept page directory phys 7).mpr succeeds
  obtain ⟨after, mapped, others⟩ := vmmMapPage_spec kept page directory succeeded
  have still := vmmMapPage_leaves kept page directory succeeded data
  refine ⟨nonzero, after, (pmmAllocPage_spec allocated nonzero).2.1, mapped, still.data, ?_,
    fun path four differ => ?_, fun frame old => ?_⟩
  · rw [still.same, mem, update_self]
  · rw [others path four differ, walks path (by omega)]
  · exact (leaves frame old).trans (vmmMapPage_leaves kept page directory succeeded (leaves frame old).data)

/-- The page shows these words, in a frame that is no table. -/
def Shows (m : Machine) (root : Frame) (virt : BitVec 64) (words : Fin 512 → Entry) : Prop :=
  ∃ frame, userWalk m.mem root (indices virt) = some frame ∧ DataFrame m root frame ∧ m.mem frame = words

/-- So do all the pages of an image. -/
def ShowsImage (m : Machine) (root : Frame) (image : BitVec 64 → Option (Fin 512 → Entry)) : Prop :=
  ∀ virt words, UserPage virt → image virt = some words → Shows m root virt words

theorem Adds.shows (adds : Adds root m next virt frame words) (user : UserPage virt) (shows : ShowsImage m root image) :
    ShowsImage next root (update image virt (some words)) := by
  intro other held page found
  by_cases here : other = virt
  · rw [here, update_self, Option.some.injEq] at found
    rw [here, ← found]
    exact ⟨frame, adds.reached, adds.page, adds.holds⟩
  rw [update_of_ne here] at found
  obtain ⟨old, reached, data, same⟩ := shows other held page found
  have kept := adds.data old data
  have differ : indices other ≠ indices virt := fun same => here (indices_injective page user same)
  exact ⟨old, (adds.others _ rfl differ).trans reached, kept.data, kept.same.trans same⟩

/-- The new page is filled once more. -/
theorem Adds.fill (adds : Adds root m next virt frame words) (mem : last.mem = update next.mem frame filling)
    (pmm : last.pmm = next.pmm) : Adds root m last virt frame filling := by
  have walks : ∀ path : List (Fin 512), path.length ≤ 4 → userWalk last.mem root path = userWalk next.mem root path :=
    fun path short => by rw [mem, userWalk_update adds.page.apart _ short]
  have still : ∀ other, DataFrame next root other → DataFrame last root other := fun other data =>
    ⟨pmm ▸ data.used, fun path short => walks path (by omega) ▸ data.apart path short⟩
  refine ⟨?_, adds.free, (walks _ (by simp [indices])).trans adds.reached, still _ adds.page, ?_, fun path four differ => ?_,
    fun old data => ⟨still old (adds.data old data).data, ?_⟩⟩
  · rw [mem, pmm]
    exact adds.tables.update adds.page.apart _
  · rw [mem, update_self]
  · rw [walks path four.le, adds.others path four differ]
  · rw [mem, update_of_ne, (adds.data old data).same]
    rintro rfl
    exact adds.free data.used

theorem brkPage_growth (tables : Tables m.mem m.pmm (frameOf cr3)) (page : UserPage virt)
    (affords : Affords m (frameOf cr3) virt) (below : DirectoryBelow m (frameOf cr3) virt) :
    m.alloc.1 ≠ 0 ∧ Growth (frameOf cr3) m (brkPage m.alloc.2 cr3 virt m.alloc.1) [virt] := by
  have opened : ∃ filled : Machine, filled.mem = m.mem.clear (frameOf m.alloc.1) ∧ filled.pmm = m.alloc.2.pmm ∧
      brkPage m.alloc.2 cr3 virt m.alloc.1 = (vmmMapPage filled (frameOf cr3) virt m.alloc.1 7).machine := by
    refine ⟨((m.alloc.2.scratchMap m.alloc.1 11).clear 11).scratchMap cr3 11, ?_, rfl, ?_⟩
    · simp only [Machine.scratchMap, Machine.clear, update_self]
      rfl
    · simp [brkPage, Machine.scratchMap, Machine.clear]
  obtain ⟨filled, mem, pmm, same⟩ := opened
  rw [same]
  obtain ⟨nonzero, adds⟩ := adds_of_filled tables page affords below mem pmm
  refine ⟨nonzero, adds.tables, fun other member => ?_, fun path four differ => ?_, adds.data⟩
  · rw [mem_singleton.mp member]
    exact ⟨_, adds.reached, adds.page, adds.holds⟩
  · exact adds.others path four (differ virt (mem_singleton_self virt))

end Sirius.Memory
