import Sirius.Memory.Translation

/-! The translation law over whole runs: from an empty address space on, mapping and
unmapping change the translation of one page each. What the rest of the kernel and the
processor do meanwhile is one more step, free to do anything but touch the tables. -/
namespace Sirius.Memory
open Support Relation List

structure EmptySpace (m : Machine) (root : Frame) : Prop where
  used : m.pmm.InUse root
  absent : ∀ i : Fin 512, i.val < 256 → present (m.mem root i) = false

variable {m next start : Machine} {root : Frame} {virt : BitVec 64}

theorem EmptySpace.userEdge_root (empty : EmptySpace m root) (i : Fin 512) : userEdge m.mem root root i = none := by
  by_cases high : 256 ≤ i.val
  · exact if_pos ⟨rfl, high⟩
  · have low : ¬ (root = root ∧ 256 ≤ i.val) := fun both => high both.2
    rw [userEdge, if_neg low, edge, empty.absent i (by omega)]
    rfl

theorem EmptySpace.userWalk_cons (empty : EmptySpace m root) (i : Fin 512) (path : List (Fin 512)) :
    userWalk m.mem root (i :: path) = none := by
  rw [userWalk, walk, empty.userEdge_root, Option.bind_none]

theorem EmptySpace.tables (empty : EmptySpace m root) : Tables m.mem m.pmm root := by
  have only_root : ∀ path frame, userWalk m.mem root path = some frame → path = [] ∧ frame = root :=
    fun _ _ => walk_of_blank empty.userEdge_root
  constructor
  · intro front back frame _ _ first second
    rw [(only_root front frame first).1, (only_root back frame second).1]
  · intro path frame _ reached
    rw [(only_root path frame reached).2]
    exact empty.used
  · intro path frame i two reached
    rw [(only_root path frame reached).1] at two
    cases two

/-- The tables of the address space are still taken and hold the same links. -/
structure KeepsTables (root : Frame) (m next : Machine) : Prop where
  used : ∀ path frame, path.length ≤ 3 → userWalk m.mem root path = some frame → next.pmm.InUse frame
  links : ∀ path frame i, path.length ≤ 3 → userWalk m.mem root path = some frame →
    userEdge next.mem root frame i = userEdge m.mem root frame i
  sizes : ∀ path frame i, path.length ≤ 3 → userWalk m.mem root path = some frame →
    pageSizeBit (next.mem frame i) = pageSizeBit (m.mem frame i)

theorem KeepsTables.userWalk_eq (kept : KeepsTables root m next) (path : List (Fin 512)) (short : path.length ≤ 4) :
    userWalk next.mem root path = userWalk m.mem root path := by
  apply walk_congr
  intro front i back frame _ length reached
  exact kept.links front frame i (by omega) reached

theorem KeepsTables.tables (kept : KeepsTables root m next) (tables : Tables m.mem m.pmm root) :
    Tables next.mem next.pmm root := by
  refine (tables.mono fun path frame short reached _ => kept.used path frame short reached).of_walks
    (fun path short => kept.userWalk_eq path (by omega)) fun path frame i two before here => ?_
  rw [kept.sizes path frame i (by omega) before]
  apply tables.small path frame i two before
  have not_root : ¬ (frame = root ∧ 256 ≤ i.val) := by
    rintro ⟨rfl, -⟩
    rw [tables.path_of_root before (by omega)] at two
    cases two
  have link := kept.links path frame i (by omega) before
  rw [userEdge, userEdge, if_neg not_root, if_neg not_root, edge, edge, here, if_pos rfl] at link
  cases present : present (m.mem frame i) with
  | false =>
    rw [present] at link
    cases link
  | true => rfl

/-- A call of `vmm_map_page` that gets its pages, or a call of `vmm_unmap_page`. -/
inductive VmmStep (root : Frame) (m : Machine) : Machine → Prop
  | map (virt phys flags : BitVec 64) (page : UserPage virt) (aligned : phys.toNat % 4096 = 0) (small : phys.toNat < 2 ^ 52)
      (succeeded : (vmmMapPage m root virt phys flags).Succeeded) :
      VmmStep root m (vmmMapPage m root virt phys flags).machine
  | unmap (virt : BitVec 64) (page : UserPage virt) : VmmStep root m (vmmUnmapPage m root virt)

/-- The same calls where page directories stay below 64 GB and no table is mapped as a
page and then given back, between steps of the rest of the kernel. -/
inductive GuardedStep (root : Frame) (m : Machine) : Machine → Prop
  | map (virt phys flags : BitVec 64) (page : UserPage virt) (enough : Succeeds m root virt)
      (below : DirectoryBelow m root virt) : GuardedStep root m (vmmMapPage m root virt phys flags).machine
  | unmap (virt : BitVec 64) (page : UserPage virt) (releases : ReleasesPage m root virt) :
      GuardedStep root m (vmmUnmapPage m root virt)
  | other (next : Machine) (kept : KeepsTables root m next) : GuardedStep root m next

theorem GuardedStep.tables (step : GuardedStep root m next) (tables : Tables m.mem m.pmm root) :
    Tables next.mem next.pmm root := by
  cases step with
  | map virt phys flags page enough below =>
    exact (vmmMapPage_spec tables page below ((vmmMapPage_succeeded tables page below phys flags).mpr enough)).1
  | unmap virt page releases => exact (vmmUnmapPage_spec tables page).1 releases
  | other _ kept => exact kept.tables tables

theorem tables_of_run (empty : EmptySpace start root) (run : ReflTransGen (GuardedStep root) start m) :
    Tables m.mem m.pmm root := by
  induction run with
  | refl => exact empty.tables
  | tail _ step ih => exact step.tables ih

def OthersKept (m next : Machine) (root : Frame) (virt : BitVec 64) : Prop :=
  ∀ other, UserPage other → other ≠ virt →
    (vmmGetPhysicalAddress next root other).1 = (vmmGetPhysicalAddress m root other).1

def MapLaw (m : Machine) (root : Frame) (virt : BitVec 64) : Prop :=
  ∀ phys flags : BitVec 64, phys.toNat % 4096 = 0 → phys.toNat < 2 ^ 52 →
    (vmmMapPage m root virt phys flags).Succeeded →
    (vmmGetPhysicalAddress (vmmMapPage m root virt phys flags).machine root virt).1 = phys ∧
      OthersKept m (vmmMapPage m root virt phys flags).machine root virt

def UnmapLaw (m : Machine) (root : Frame) (virt : BitVec 64) : Prop :=
  userWalk (vmmUnmapPage m root virt).mem root (indices virt) = none ∧
    (vmmGetPhysicalAddress (vmmUnmapPage m root virt) root virt).1 = 0 ∧
    OthersKept m (vmmUnmapPage m root virt) root virt

/-- Translations follow walks, so what keeps the walks keeps the translations. -/
theorem othersKept_of_walks (before : Tables m.mem pmm root) (after : Tables next.mem used root)
    (page : UserPage virt) (walks : ∀ other : List (Fin 512), other.length = 4 → other ≠ indices virt →
      userWalk next.mem root other = userWalk m.mem root other) : OthersKept m next root virt := by
  intro other there differ
  rw [vmmGetPhysicalAddress_eq after there, vmmGetPhysicalAddress_eq before there, walks (indices other) rfl]
  exact fun same => differ (indices_injective there page same)

theorem mapLaw (tables : Tables m.mem m.pmm root) (page : UserPage virt) (below : DirectoryBelow m root virt) :
    MapLaw m root virt := by
  intro phys flags aligned small succeeded
  obtain ⟨after, mapped, walks⟩ := vmmMapPage_spec tables page below succeeded
  refine ⟨?_, othersKept_of_walks tables after page walks⟩
  rw [vmmGetPhysicalAddress_eq after page, mapped]
  exact addrOf_frameOf aligned small

theorem unmapLaw (tables : Tables m.mem m.pmm root) (page : UserPage virt) : UnmapLaw m root virt := by
  obtain ⟨-, ⟨used, after⟩, gone, walks⟩ := vmmUnmapPage_spec tables page
  refine ⟨gone, ?_, othersKept_of_walks tables after page walks⟩
  rw [vmmGetPhysicalAddress_eq after page, gone]
  rfl

theorem vmm_translation_law (empty : EmptySpace start root)
    (run : ReflTransGen (GuardedStep root) start m) (page : UserPage virt) :
    (DirectoryBelow m root virt → MapLaw m root virt) ∧ UnmapLaw m root virt := by
  have tables := tables_of_run empty run
  exact ⟨mapLaw tables page, unmapLaw tables page⟩

/-- A machine of sixteen pages with frames 0 and 5 taken. -/
def smallMachine : Machine where
  mem := fun _ _ => 0
  pmm := { bitmap := fun i => if i = 0 then 0x21 else 0, totalPages := 16, addressable := by decide }
  windows := fun _ => 0

theorem smallMachine_empty : EmptySpace smallMachine 5 := by
  constructor
  · exact .inl (by decide)
  · intro i _
    exact BitVec.getLsbD_zero

theorem vmm_translation_law_second_page : let m := (vmmMapPage smallMachine 5 0x1000 0x9000 7).machine
    (vmmGetPhysicalAddress (vmmMapPage m 5 0x2000 0xA000 7).machine 5 0x2000).1 = 0xA000 ∧
      UnmapLaw m 5 0x1000 := by
  have first : UserPage 0x1000 := ⟨by decide, by decide⟩
  have second : UserPage 0x2000 := ⟨by decide, by decide⟩
  have mapped : GuardedStep 5 smallMachine (vmmMapPage smallMachine 5 0x1000 0x9000 7).machine := by
    refine .map _ _ _ first (by decide +kernel) ?_
    intro pd reached
    cases reached
  have run := ReflTransGen.single mapped
  refine ⟨?_, (vmm_translation_law smallMachine_empty run first).2⟩
  refine ((vmm_translation_law smallMachine_empty run second).1 ?_ 0xA000 7 (by decide) (by decide) ?_).1
  · intro pd reached
    cases reached
    decide
  · decide +kernel

/-- The first `n` bytes of the bitmap are full, the next is `taken`, and there is one more. -/
def pmmFullBelow (n : Nat) (addressable : n * 8 + 16 ≤ 2 ^ 40) (taken : BitVec 8) : Pmm where
  bitmap := fun i => if i < n then 0xFF else if i = n then taken else 0
  totalPages := n * 8 + 16
  addressable := addressable

theorem pmmAllocPage_fullBelow (addressable : n * 8 + 16 ≤ 2 ^ 40) (first : Pmm.clearBit taken = some bit) :
    pmmAllocPage (pmmFullBelow n addressable taken) = (BitVec.ofNat 64 ((n * 8 + bit) * 4096),
        pmmFullBelow n addressable (taken ||| BitVec.ofNat 8 (1 <<< bit))) := by
  have small : bit < 8 := mem_range.mp (mem_of_find?_eq_some first)
  have found : (pmmFullBelow n addressable taken).firstFree = some (n * 8 + bit) := by
    apply Pmm.firstFree_of_full
    · intro i below
      exact if_pos below
    · simp only [Pmm.bitmapSize, pmmFullBelow]
      omega
    · simpa [pmmFullBelow] using first
  have inside : ¬ (pmmFullBelow n addressable taken).totalPages ≤ n * 8 + bit := by
    simp only [pmmFullBelow]
    omega
  have byte : (n * 8 + bit) / 8 = n := by omega
  have place : (n * 8 + bit) % 8 = bit := by omega
  rw [pmmAllocPage, found]
  dsimp only
  rw [if_neg inside]
  simp only [Pmm.bitmapSetBit, byte, place, pmmFullBelow, Prod.mk.injEq, Pmm.mk.injEq, and_true, true_and]
  funext i
  by_cases here : i = n
  · subst here
    simp
  · simp [here]

/-- The allocator of a machine whose free pages all lie above 64 GB. -/
def highPmm (taken : BitVec 8) : Pmm := pmmFullBelow (2 ^ 21) (by decide) taken

theorem vmmGetPhysicalAddress_of_mem (same : m.mem = next.mem) :
    (vmmGetPhysicalAddress m root virt).1 = (vmmGetPhysicalAddress next root virt).1 := by
  simp only [vmmGetPhysicalAddress, descend, Machine.read, Machine.scratchMap, same, Function.update_self,
    frameOf_addrOf]
  cases present (next.mem root (pml4Index virt)) with
  | false => rfl
  | true =>
    generalize address (next.mem root (pml4Index virt)) = pdpt
    cases present (next.mem pdpt (pdptIndex virt)) with
    | false => rfl
    | true =>
      simp only [if_true, Function.update_self]
      repeat' split
      all_goals rfl

def highMachine : Machine where
  mem := fun _ _ => 0
  pmm := highPmm 0
  windows := fun _ => 0

/-- The memory of that machine after its first page has been mapped. -/
def highTables : PhysMem :=
  let pdpt := highMachine.mem.enter 5 (pml4Index 0) 0x1000000000 (tableEntry 7 0x1000000000)
  let pd := pdpt.enter (frameOf 0x1000000000) (pdptIndex 0) 0x1000001000 (tableEntry 7 0x1000001000)
  let pt := pd.enter (frameOf 0x1000001000) (pdIndex 0) 0x1000002000 (directoryEntry 7 0x1000002000)
  pt.write (frameOf 0x1000002000) (ptIndex 0) (pageEntry 7 0x9000 (pt (frameOf 0x1000002000) (ptIndex 0)))

theorem highMachine_first_page : let next := vmmMapPage highMachine 5 0 0x9000 7
    next.machine.mem = highTables ∧ next.machine.pmm = highPmm 7 ∧
      next.allocated = [0x1000000000, 0x1000001000, 0x1000002000] := by
  have one : pmmAllocPage (highPmm 0) = (0x1000000000, highPmm 1) :=
    @pmmAllocPage_fullBelow _ 0 0 (by decide) (by decide)
  have two : pmmAllocPage (highPmm 1) = (0x1000001000, highPmm 3) :=
    @pmmAllocPage_fullBelow _ 1 1 (by decide) (by decide)
  have three : pmmAllocPage (highPmm 3) = (0x1000002000, highPmm 7) :=
    @pmmAllocPage_fullBelow _ 3 2 (by decide) (by decide)
  have pdpt := (ensurePdpt_at highMachine 5 0 7).made (by decide +kernel) one
  generalize made_pdpt : ensurePdpt highMachine 5 0 7 = e1 at pdpt
  have second_page : pmmAllocPage e1.machine.pmm = (0x1000001000, highPmm 3) := by rw [pdpt.pmm, two]
  have second_free : present (e1.machine.mem (frameOf e1.phys) (pdptIndex 0)) = false := by
    rw [pdpt.mem, pdpt.phys]
    decide +kernel
  have pd := (ensurePd_at _ _ 0 7 0).made second_free second_page
  generalize made_pd : ensurePd e1.machine e1.phys 0 7 = e2 at pd
  have third_page : pmmAllocPage e2.machine.pmm = (0x1000002000, highPmm 7) := by rw [pd.pmm, three]
  have third_free : present (e2.machine.mem (frameOf e2.phys) (pdIndex 0)) = false := by
    rw [pd.mem, pd.phys, pdpt.mem, pdpt.phys]
    decide +kernel
  have pt := (ensurePt_at _ _ 0 7 0 0).made third_free third_page
  generalize made_pt : ensurePt e2.machine e2.phys 0 7 = e3 at pt
  obtain ⟨mem, pmm, allocated⟩ := @vmmMapPage_eq _ _ _ _ 0x9000 _ _ _ made_pdpt made_pd made_pt
  rw [pt.mem, pt.phys, pd.mem, pd.phys, pdpt.mem, pdpt.phys] at mem
  rw [pdpt.allocated, pd.allocated, pt.allocated] at allocated
  exact ⟨mem, pmm.trans pt.pmm, allocated⟩

/-- The second page is entered below frame 1, which no table of the first page points to. -/
theorem highMachine_second_page (mem : m.mem = highTables) (pmm : m.pmm = highPmm 7) :
    let next := vmmMapPage m 5 0x1000 0xA000 7
    next.Succeeded ∧ (vmmGetPhysicalAddress next.machine 5 0x1000).1 = 0 := by
  have four : pmmAllocPage (highPmm 7) = (0x1000003000, highPmm 15) :=
    @pmmAllocPage_fullBelow _ 7 3 (by decide) (by decide)
  have first : present (m.mem (frameOf (addrOf 5)) (pml4Index 0x1000)) = true ∧
      levelAddress [] (m.mem (frameOf (addrOf 5)) (pml4Index 0x1000)) = 0x1000000000 := by
    rw [mem]
    decide +kernel
  obtain ⟨mem1, pmm1, phys1, none1⟩ := (ensurePdpt_at m 5 0x1000 7).found first.1
  generalize pdpt : ensurePdpt m 5 0x1000 7 = e1 at mem1 pmm1 phys1 none1
  rw [mem] at mem1
  rw [first.2] at phys1
  have second : present (e1.machine.mem (frameOf e1.phys) (pdptIndex 0x1000)) = true ∧
      levelAddress [0] (e1.machine.mem (frameOf e1.phys) (pdptIndex 0x1000)) = 0x1000 := by
    rw [mem1, phys1]
    decide +kernel
  obtain ⟨mem2, pmm2, phys2, none2⟩ := (ensurePd_at e1.machine e1.phys 0x1000 7 0).found second.1
  generalize pd : ensurePd e1.machine e1.phys 0x1000 7 = e2 at mem2 pmm2 phys2 none2
  rw [mem1] at mem2
  rw [second.2] at phys2
  have free : present (e2.machine.mem (frameOf e2.phys) (pdIndex 0x1000)) = false := by
    rw [mem2, phys2]
    decide +kernel
  have page : pmmAllocPage e2.machine.pmm = (0x1000003000, highPmm 15) := by rw [pmm2, pmm1, pmm, four]
  have pt := (ensurePt_at _ _ 0x1000 7 0 0).made free page
  generalize made_pt : ensurePt e2.machine e2.phys 0x1000 7 = e at pt
  obtain ⟨written, -, allocated⟩ := @vmmMapPage_eq _ _ _ _ 0xA000 _ _ _ pdpt pd made_pt
  rw [pt.mem, pt.phys, mem2, phys2] at written
  rw [none1, none2, pt.allocated] at allocated
  constructor
  · have only : (vmmMapPage m 5 0x1000 0xA000 7).allocated = [0x1000003000] := allocated
    rw [MapPage.Succeeded, only]
    decide
  · rw [@vmmGetPhysicalAddress_of_mem _ { mem := _, pmm := highPmm 0, windows := fun _ => 0 } _ _ written]
    decide +kernel

/-- With a page directory above 64 GB the second page of a table is mapped and not found. -/
theorem second_page_lost_above_64gb :
    ¬ ∀ (root : Frame) (start m : Machine) (virt : BitVec 64), EmptySpace start root →
      ReflTransGen (VmmStep root) start m → UserPage virt → MapLaw m root virt ∧ UnmapLaw m root virt := by
  intro law
  obtain ⟨mem, pmm, allocated⟩ := highMachine_first_page
  have first : UserPage 0 := ⟨by decide, by decide⟩
  have second : UserPage 0x1000 := ⟨by decide, by decide⟩
  have succeeded : (vmmMapPage highMachine 5 0 0x9000 7).Succeeded := by
    rw [MapPage.Succeeded, allocated]
    decide
  have mapped : VmmStep 5 highMachine (vmmMapPage highMachine 5 0 0x9000 7).machine :=
    .map 0 0x9000 7 first (by decide) (by decide) succeeded
  have again := (law 5 highMachine _ 0x1000 ⟨.inl (by decide), fun _ _ => BitVec.getLsbD_zero⟩ (.single mapped) second).1
  obtain ⟨enough, lost⟩ := highMachine_second_page mem pmm
  obtain ⟨found, -⟩ := again 0xA000 7 (by decide) (by decide) enough
  rw [lost] at found
  revert found
  decide

end Sirius.Memory
