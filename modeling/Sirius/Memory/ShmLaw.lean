import Sirius.Memory.ShmOwnership

/-! Which frames `shm_free` gives back, over every interleaving: as long as no page that is
being removed is mapped the record of foreign frames stays empty, and the removal of a
page that is mapped always ends in it. -/
namespace Sirius.Memory
open Support Relation Option Nat
open BitVec hiding not_or

theorem pageAfter_toNat (small : base.toNat + i * 4096 < 2 ^ 64) :
    (pageAfter base i).toNat = base.toNat + i * 4096 := by
  rw [pageAfter, toNat_add, toNat_ofNat]
  omega

/-- The range that `shm_free` accepted, and a page of it. -/
structure Removing (base : BitVec 64) (numPages i : Nat) : Prop where
  above : userShmVirtualBase ≤ base
  inside : shmStartBit base + numPages ≤ userShmMaxPages
  within : i < numPages

theorem shmRange : userShmVirtualBase.toNat = 0x700000000000 ∧ userShmMaxPages = 2 ^ 26 := by
  decide

theorem ShmPage.of_toNat (value : virt.toNat = 0x700000000000 + k * 4096) (inside : k < 2 ^ 26) : ShmPage virt := by
  obtain ⟨bottom, limit⟩ := shmRange
  refine ⟨⟨?_, ?_⟩, ?_, ?_⟩
  · omega
  · omega
  · rw [le_def, bottom]
    omega
  · rw [bottom, limit]
    omega

theorem ShmPage.ofStart (inside : startBit + numPages ≤ userShmMaxPages) (within : i < numPages) :
    ShmPage (pageAfter (pageAfter userShmVirtualBase startBit) i) := by
  obtain ⟨bottom, limit⟩ := shmRange
  have start : (pageAfter userShmVirtualBase startBit).toNat = 0x700000000000 + startBit * 4096 := by
    rw [pageAfter_toNat (by omega), bottom]
  refine .of_toNat (k := startBit + i) ?_ (by omega)
  rw [pageAfter_toNat (by omega), start]
  omega

theorem Removing.shmPage (removing : Removing base numPages i) : ShmPage (pageOf (pageAfter base i)) := by
  obtain ⟨bottom, limit⟩ := shmRange
  have above := removing.above
  have inside := removing.inside
  have within := removing.within
  rw [le_def, bottom] at above
  have offset : (base - userShmVirtualBase).toNat = base.toNat - 0x700000000000 := by
    rw [toNat_sub, bottom]
    omega
  rw [shmStartBit, offset, limit] at inside
  refine .of_toNat (k := (base.toNat - 0x700000000000) / 4096 + i) ?_ (by omega)
  rw [pageOf, pageMask_toNat, pageAfter_toNat (by omega)]
  omega

/-- What an operation under way relies on. -/
def ShmOp.Sound (root : Frame) (mem : PhysMem) (owner : Frame → Owner) : ShmOp → Prop
  | .idle => True
  | .allocating numPages startBit _ => 0 < numPages ∧ startBit + numPages ≤ userShmMaxPages
  | .mapping numPages startBit phys _ i =>
    i < numPages ∧ startBit + numPages ≤ userShmMaxPages ∧ ∀ j, i ≤ j → j < numPages →
        owner (frameOf (pageAfter phys j)) = .shm (pageAfter (pageAfter userShmVirtualBase startBit) j)
  | .looking base numPages i => Removing base numPages i
  | .unmapping base numPages i pa =>
    Removing base numPages i ∧ pa = 0 ∧ userWalk mem root (indices (pageOf (pageAfter base i))) = none
  | .freeing _ _ _ _ => False

structure ShmInv (root : Frame) (s : ShmState) : Prop where
  owned : ShmOwned root s.machine s.owner
  sound : s.op.Sound root s.machine.mem s.owner
  own_only : s.foreign = []

theorem ShmInv.under_way (inv : ShmInv root s) (at_op : s.op = op) : op.Sound root s.machine.mem s.owner := at_op ▸ inv.sound

/-- The condition on the next step of an operation: a page is mapped when the allocator
has its tables and a page directory on its way lies below 64 GB, and a page that is to be
removed is not mapped. -/
def Clean (root : Frame) (s : ShmState) : Prop :=
  match s.op with
  | .mapping _ startBit _ _ i =>
    let va := pageAfter (pageAfter userShmVirtualBase startBit) i
    Succeeds s.machine root va ∧ DirectoryBelow s.machine root va
  | .looking base _ i => (vmmGetPhysicalAddress s.machine root (pageAfter base i)).1 = 0
  | _ => True

variable {root : Frame} {s next : ShmState}

theorem ShmOp.Sound.transfer {op : ShmOp} {mem changed : PhysMem} {owner later : Frame → Owner}
    (sound : op.Sound root mem owner)
    (walks : ∀ virt, userWalk changed root (indices virt) = userWalk mem root (indices virt))
    (shared : ∀ frame page, owner frame = .shm page → later frame = .shm page) : op.Sound root changed later := by
  cases op with
  | idle => trivial
  | allocating | looking | freeing => exact sound
  | mapping =>
    obtain ⟨within, inside, behind⟩ := sound
    exact ⟨within, inside, fun j low high => shared _ _ (behind j low high)⟩
  | unmapping =>
    obtain ⟨removing, zero, unmapped⟩ := sound
    exact ⟨removing, zero, (walks _).trans unmapped⟩

/-- A page of the window reads 0 exactly when it is not mapped. -/
theorem ShmOwned.address_eq_zero (owned : ShmOwned root m owner) (page : ShmPage (pageOf virt)) :
    (vmmGetPhysicalAddress m root virt).1 = 0 ↔ userWalk m.mem root (indices (pageOf virt)) = none := by
  rw [← vmmGetPhysicalAddress_pageOf, vmmGetPhysicalAddress_eq owned.tables page.user]
  cases reached : userWalk m.mem root (indices (pageOf virt)) with
  | none => exact iff_of_true rfl rfl
  | some frame =>
    refine iff_of_false (fun zero => ?_) (some_ne_none frame)
    have same := congrArg frameOf zero
    rw [walkAddress, map_some, getD_some, frameOf_addrOf] at same
    exact (owned.managed frame _ (owned.mapped _ frame page reached)).1 same

theorem ShmOwned.unmapFrees (owned : ShmOwned root m owner) (page : ShmPage (pageOf virt)) :
    vmmUnmapFrees m root virt = userWalk m.mem root (indices (pageOf virt)) := by
  rw [← vmmUnmapFrees_pageOf, vmmUnmapFrees_eq owned.tables page.user.pml4Index_lt]

theorem ShmOwned.shared_setPmm (owned : ShmOwned root m owner)
    (kept : ∀ frame, owner frame ≠ .other → m.pmm.InUse frame → pmm.InUse frame) (frame : Frame) (page : BitVec 64)
    (mine : owner frame = .shm page) : reown m.pmm pmm new owner frame = .shm page := by
  have used := owned.inUse (by rw [mine]; exact Owner.noConfusion)
  rw [reown_kept used (kept frame (by rw [mine]; exact Owner.noConfusion) used), mine]

theorem reown_self (pmm : Pmm) (new owner : Frame → Owner) : reown pmm pmm new owner = owner := by
  funext frame
  by_cases used : pmm.InUse frame
  · exact reown_kept used used
  · exact reown_unused used used

/-- An allocator call of somebody else. -/
theorem ShmInv.setPmm (inv : ShmInv root s) {pmm : Pmm} (total : pmm.totalPages = s.machine.pmm.totalPages)
    (zero : pmm.InUse 0) (kept : ∀ frame, s.owner frame ≠ .other → s.machine.pmm.InUse frame → pmm.InUse frame) :
    ShmInv root (s.setPmm pmm fun _ => .other) where
  owned := inv.owned.setPmm total zero kept fun _ => Owner.noConfusion
  sound := inv.sound.transfer (fun _ => rfl) (inv.owned.shared_setPmm kept)
  own_only := inv.own_only

theorem setPmm_frame (root : Frame) (s : ShmState) (pmm : Pmm) (new : Frame → Owner) :
    (s.setPmm pmm new).op = s.op ∧ ∀ virt, userWalk (s.setPmm pmm new).machine.mem root (indices virt) =
      userWalk s.machine.mem root (indices virt) :=
  ⟨rfl, fun _ => rfl⟩

/-- Steps of other users keep the translation of every page. -/
theorem OtherUser.inv (inv : ShmInv root s) (user : OtherUser s next) : ShmInv root next ∧ next.op = s.op ∧
      ∀ virt, userWalk next.machine.mem root (indices virt) = userWalk s.machine.mem root (indices virt) := by
  cases user with
  | alloc count =>
    have extended := pmmAllocPages_extends s.machine.pmm count
    exact ⟨inv.setPmm extended.total (extended.used 0 inv.owned.zero) fun frame _ => extended.used frame,
      setPmm_frame root s _ _⟩
  | free frame others =>
    have kept : ∀ other, s.owner other ≠ .other → s.machine.pmm.InUse other →
        (pmmFreePage s.machine.pmm (addrOf frame)).InUse other := by
      intro other mine used
      refine pmmFreePage_inUse s.machine.pmm frame other ?_ used
      rintro rfl
      exact mine others
    have zero : (pmmFreePage s.machine.pmm (addrOf frame)).InUse 0 := by
      by_cases first : frame = 0
      · rw [pmmFreePage_addrOf, if_pos (.inl first)]
        exact inv.owned.zero
      · exact pmmFreePage_inUse _ _ _ (Ne.symm first) inv.owned.zero
    exact ⟨inv.setPmm (pmmFreePage_bit s.machine.pmm frame 0).1 zero kept, setPmm_frame root s _ _⟩
  | write mem only =>
    have walks := fun virt => (inv.owned.keepsTables only).userWalk_eq (indices virt) (le_refl 4)
    exact ⟨⟨inv.owned.write only, inv.sound.transfer walks fun _ _ mine => mine, inv.own_only⟩, rfl, walks⟩

theorem shmAlloc_inv (inv : ShmInv root s) (size flag : BitVec 64) : ShmInv root (shmAlloc s size flag) := by
  rw [shmAlloc]
  split
  · exact inv
  split
  · exact inv
  rename_i fits
  rw [not_or] at fits
  cases found : shmFindFreeRegion s.bitmap (shmPages size) with
  | none => exact inv
  | some startBit =>
    have positive := Nat.pos_of_ne_zero fits.1
    exact ⟨inv.owned, ⟨positive, ((findRun_eq_some positive).mp found).1.1⟩, inv.own_only⟩

theorem sysMunmap_inv (inv : ShmInv root s) (addr length : BitVec 64) : ShmInv root (sysMunmap s addr length) := by
  rw [sysMunmap, shmFree]
  split
  · exact inv
  split
  · exact inv
  rename_i accepted
  split
  · exact inv
  · rename_i inside
    rw [not_or] at accepted
    exact ⟨inv.owned, ⟨BitVec.not_lt.mp accepted.1, Nat.not_lt.mp inside, Nat.pos_of_ne_zero accepted.2⟩,
      inv.own_only⟩

theorem ShmInv.advance (owned : ShmOwned root s.machine s.owner) (own_only : s.foreign = [])
    (removing : Removing base numPages i) : ShmInv root (s.advance base numPages i) := by
  rw [ShmState.advance]
  split
  next more => exact ⟨owned, ⟨removing.above, removing.inside, more⟩, own_only⟩
  · exact ⟨owned, trivial, own_only⟩

/-- The frame of a page of the allocation, and that it was free before. -/
theorem HandsOut.frame {count : Nat} (handed : HandsOut pmm count first later) (within : j < count)
    (is : frameOf (pageAfter (BitVec.ofNat 64 (first * 4096)) j) = page) :
    page.toNat = first + j ∧ ¬ pmm.InUse page ∧ later.InUse page := by
  have inside := handed.inside
  have limit := pmm.addressable
  have base := pageAddress pmm (show first ≤ pmm.totalPages by omega)
  have number : page.toNat = first + j := by
    rw [← is, frameOf_toNat, pageAfter_toNat (by omega), base]
    omega
  have member : first + j ∈ Finset.Ico first (first + count) := Finset.mem_Ico.mpr ⟨by omega, by omega⟩
  refine ⟨number, ?_, ?_⟩
  · rw [Pmm.InUse, number, handed.clear _ member]
    rintro (taken | beyond)
    · cases taken
    · omega
  · rw [handed.inUse, number]
    exact .inl member

section
variable (inv : ShmInv root s)
include inv

theorem allocating_inv (op : s.op = .allocating numPages startBit flag) : ShmInv root (shmStep root s) := by
  obtain ⟨positive, inside⟩ := inv.under_way op
  have limit := shmRange.2
  have size : (BitVec.ofNat 64 numPages).toNat = numPages := by
    rw [toNat_ofNat]
    omega
  rw [shmStep, op]
  dsimp only
  rcases pmmAllocPages_handsOut s.machine.pmm (BitVec.ofNat 64 numPages) with refused | ⟨first, later, found, handed, -⟩
  · rw [refused]
    refine ⟨?_, trivial, inv.own_only⟩
    exact inv.owned.setPmm rfl inv.owned.zero (fun _ _ used => used) fun _ => Owner.noConfusion
  rw [found]
  rw [size] at handed
  have bound := le_trans (le_add_right _ _) handed.inside
  have nonzero : BitVec.ofNat 64 (first * 4096) ≠ 0 := by
    intro zero
    obtain ⟨number, unused, -⟩ := handed.frame positive rfl
    have same : frameOf (pageAfter (BitVec.ofNat 64 (first * 4096)) 0) = 0 := by
      apply eq_of_toNat_eq
      rw [number, (pageAddress_eq_zero s.machine.pmm bound).mp zero]
      rfl
    rw [same] at unused
    exact unused inv.owned.zero
  rw [if_neg nonzero]
  refine ⟨?_, ⟨positive, inside, ?_⟩, inv.own_only⟩
  · exact inv.owned.setPmm handed.total (handed.extends.used 0 inv.owned.zero)
      (fun frame _ => handed.extends.used frame) fun _ => Owner.noConfusion
  intro j _ within
  obtain ⟨number, unused, used⟩ := handed.frame within rfl
  have offset : (BitVec.ofNat 64 (first * 4096)).toNat / 4096 = first := by
    rw [pageAddress s.machine.pmm bound]
    omega
  simp only [ShmState.setPmm]
  rw [reown_new unused used, number, offset, Nat.add_sub_cancel_left]

theorem mapping_inv (op : s.op = .mapping numPages startBit phys flag i) (clean : Clean root s) :
    ShmInv root (shmStep root s) := by
  obtain ⟨within, inside, behind⟩ := inv.under_way op
  rw [Clean, op] at clean
  have owned := @ShmOwned.map s.machine root (pageAfter (pageAfter userShmVirtualBase startBit) i) s.owner inv.owned
    (pageAfter phys i) flag (ShmPage.ofStart inside within) clean.1 clean.2 (behind i (le_refl i) within)
  have extended := vmmMapPage_extends s.machine root (pageAfter (pageAfter userShmVirtualBase startBit) i)
    (pageAfter phys i) flag
  have shared : ∀ frame page, s.owner frame = .shm page → reown s.machine.pmm _ (fun _ => .table) s.owner frame = .shm page :=
    inv.owned.shared_setPmm fun frame _ => extended.used frame
  rw [shmStep, op]
  dsimp only
  split
  · rename_i more
    refine ⟨owned, ⟨more, inside, ?_⟩, inv.own_only⟩
    exact fun j low high => shared _ _ (behind j (le_of_succ_le low) high)
  · exact ⟨owned, trivial, inv.own_only⟩

theorem looking_inv (op : s.op = .looking base numPages i) (clean : Clean root s) : ShmInv root (shmStep root s) := by
  have removing := inv.under_way op
  rw [Clean, op] at clean
  obtain ⟨mem, pmm⟩ := vmmGetPhysicalAddress_keeps s.machine root (pageAfter base i)
  have unmapped := (inv.owned.address_eq_zero removing.shmPage).mp clean
  rw [shmStep, op]
  refine ⟨inv.owned.congr mem pmm, ⟨removing, clean, ?_⟩, inv.own_only⟩
  rw [mem]
  exact unmapped

theorem unmapping_inv (op : s.op = .unmapping base numPages i pa) : ShmInv root (shmStep root s) := by
  obtain ⟨removing, zero, unmapped⟩ := inv.under_way op
  have nothing := (inv.owned.unmapFrees removing.shmPage).trans unmapped
  obtain ⟨pmm, mem⟩ := vmmUnmapPage_frees s.machine root (pageAfter base i)
  rw [nothing] at pmm
  rw [shmStep, op]
  simp only [nothing, if_pos zero]
  refine ShmInv.advance ?_ inv.own_only removing
  simp only [ShmState.setMachine, pmm, reown_self]
  exact inv.owned.congr (mem nothing) pmm

theorem run_inv (clean : Clean root s) : ShmInv root (shmStep root s) := by
  cases op : s.op with
  | idle =>
    rw [shmStep, op]
    exact inv
  | allocating => exact allocating_inv inv op
  | mapping => exact mapping_inv inv op clean
  | looking => exact looking_inv inv op clean
  | unmapping => exact unmapping_inv inv op
  | freeing => exact (inv.under_way op).elim

end

/-- A step of the system; the operation that holds the lock goes on only where it is clean. -/
inductive CleanStep (root : Frame) (s : ShmState) : ShmState → Prop where
  | mmap (length : BitVec 64) (prot flags : BitVec 32) (unlocked : s.op = .idle) :
      CleanStep root s (sysMmap s length prot flags)
  | munmap (addr length : BitVec 64) (unlocked : s.op = .idle) : CleanStep root s (sysMunmap s addr length)
  | run (locked : s.op ≠ .idle) (clean : Clean root s) : CleanStep root s (shmStep root s)
  | other (next : ShmState) (user : OtherUser s next) : CleanStep root s next

theorem CleanStep.inv (step : CleanStep root s next) (inv : ShmInv root s) : ShmInv root next := by
  cases step with
  | mmap length prot flags =>
    rw [sysMmap]
    split
    · exact inv
    · split
      · exact inv
      · exact shmAlloc_inv inv _ _
  | munmap addr length => exact sysMunmap_inv inv addr length
  | run _ clean => exact run_inv inv clean
  | other _ user => exact (user.inv inv).1

theorem CleanStep.shmStep (step : CleanStep root s next) : ShmStep root s next := by
  cases step with
  | mmap length prot flags unlocked => exact .mmap length prot flags unlocked
  | munmap addr length unlocked => exact .munmap addr length unlocked
  | run locked => exact .run locked
  | other _ user => exact .other next user

/-- Before the first call: the window has no pages, and no frame belongs to it. -/
structure ShmReady (root : Frame) (s : ShmState) : Prop where
  owned : ShmOwned root s.machine s.owner
  unlocked : s.op = .idle
  empty : ∀ virt, ShmPage virt → userWalk s.machine.mem root (indices virt) = none
  none_shared : ∀ frame page, s.owner frame ≠ .shm page
  own_only : s.foreign = []

theorem ShmReady.inv (ready : ShmReady root s) : ShmInv root s := by
  refine ⟨ready.owned, ?_, ready.own_only⟩
  rw [ready.unlocked]
  trivial

/-- The state that `shm_init` leaves, in an address space with an empty user half. -/
theorem shmInit_ready (space : EmptySpace m root) (zero : m.pmm.InUse 0)
    (free : ∀ frame, owner frame = .free ↔ ¬ m.pmm.InUse frame) (tables : owner root = .table)
    (none_shared : ∀ frame page, owner frame ≠ .shm page) (done : shmInit m root owner = some s) :
    ShmReady root s := by
  rcases allocated : pmmAllocPage m.pmm with ⟨phys, later⟩
  have result := Machine.alloc_eq allocated
  have entry : present (setField 12 (frameOf phys) (7 : Entry)) = true ∧
      address (setField 12 (frameOf phys) (7 : Entry)) = frameOf phys := by
    rw [present_setField_address, address_setField_address]
    exact ⟨by decide, rfl⟩
  simp only [shmInit, result] at done
  split at done
  · cases done
  rename_i nonzero
  simp only [Machine.scratchMap, Machine.clear, Function.update_self, some.injEq] at done
  obtain ⟨-, unused, total, now⟩ := pmmAllocPage_spec allocated nonzero
  have linked := space.tables.newTable (walk_nil _ _) (by decide) (fun _ => by decide)
    (space.absent sharedSlot (by decide)) _ entry.1 allocated nonzero entry.2 fun two => by cases two
  obtain ⟨-, arrives, -, walks⟩ := space.tables.walk_newTable (walk_nil _ _) (by decide) (fun _ => by decide)
    (space.absent sharedSlot (by decide)) _ entry.1 unused entry.2
  have kept : ∀ frame, m.pmm.InUse frame → later.InUse frame := fun frame used => (now frame).mpr (.inr used)
  have nothing : ∀ frame page, reown m.pmm later (fun _ => .table) owner frame ≠ .shm page := by
    intro frame page
    rw [reown]
    split
    · split
      · exact none_shared frame page
      · exact Owner.noConfusion
    · split
      · exact Owner.noConfusion
      · exact none_shared frame page
  have empty : ∀ virt, userWalk ((m.mem.clear (frameOf phys)).write root sharedSlot (setField 12 (frameOf phys) 7)) root
      (indices virt) = none := fun virt => (linked.pages (indices virt) rfl).trans (space.userWalk_cons _ _)
  subst done
  refine ⟨?_, rfl, fun virt _ => empty virt, nothing, rfl⟩
  constructor
  case tables => exact linked.tables
  case zero => exact kept 0 zero
  case free => exact reown_free free fun _ => Owner.noConfusion
  case table =>
    intro path frame short reached
    dsimp only at reached ⊢
    cases path with
    | nil =>
      rw [← some.inj reached, reown_kept space.used (kept root space.used), tables]
    | cons j rest =>
      by_cases last : j :: rest = [] ++ [sharedSlot]
      · rw [last, arrives] at reached
        rw [← some.inj reached]
        exact reown_new unused ((now _).mpr (.inl rfl))
      · rw [walks _ (by omega) last, space.userWalk_cons] at reached
        cases reached
  case mapped =>
    intro virt frame _ reached
    rw [empty virt] at reached
    cases reached
  case managed => exact fun frame page shared => absurd shared (nothing frame page)

/-- The operation is at work on the page with this number. -/
def OnPage (i : Nat) : ShmOp → Prop
  | .looking _ _ j => j = i
  | .unmapping _ _ j _ => j = i
  | .freeing _ _ j _ => j = i
  | _ => False

/-- The steps from one state on during which one page is removed. -/
def RemovesPage (root : Frame) (i : Nat) : ShmState → ShmState → Prop :=
  ReflTransGen fun before after => OnPage i before.op ∧ ShmStep root before after

abbrev FindsNone (root : Frame) (i : Nat) (s : ShmState) : Prop :=
  ∀ base numPages, s.op = .looking base numPages i → (vmmGetPhysicalAddress s.machine root (pageAfter base i)).1 = 0

/-- At a page that is not mapped the operation goes on cleanly and does not come back to it. -/
theorem onPage_run (inv : ShmInv root s) (here : OnPage i s.op) (zero : FindsNone root i s) :
    Clean root s ∧ ∀ base numPages, (shmStep root s).op ≠ .looking base numPages i := by
  cases op : s.op with
  | looking base numPages j =>
    rw [op] at here
    rw [Clean, shmStep, op]
    cases here
    exact ⟨zero base numPages op, fun _ _ => ShmOp.noConfusion⟩
  | unmapping base numPages j pa =>
    have zero := (inv.under_way op).2.1
    rw [op] at here
    cases here
    rw [Clean, shmStep, op]
    simp only [if_pos zero]
    refine ⟨trivial, fun _ _ => ?_⟩
    rw [ShmState.advance]
    split <;> simp
  | freeing => exact (inv.under_way op).elim
  | idle | allocating | mapping =>
    rw [op] at here
    exact here.elim

theorem removes_unmapped (inv : ShmInv root s) (zero : FindsNone root i s) (removal : RemovesPage root i s last) :
    last.foreign = [] := by
  have quiet : ShmInv root last ∧ FindsNone root i last := by
    induction removal with
    | refl => exact ⟨inv, zero⟩
    | @tail before after _ step ih =>
      obtain ⟨here, step⟩ := step
      obtain ⟨sound, unmapped⟩ := ih
      cases step with
      | mmap _ _ _ unlocked =>
        rw [unlocked] at here
        exact here.elim
      | munmap _ _ unlocked =>
        rw [unlocked] at here
        exact here.elim
      | other _ user =>
        obtain ⟨kept, op, walks⟩ := user.inv sound
        refine ⟨kept, fun base numPages looking => ?_⟩
        have removing := kept.under_way looking
        rw [kept.owned.address_eq_zero removing.shmPage, walks, ← sound.owned.address_eq_zero removing.shmPage]
        exact unmapped base numPages (op.symm.trans looking)
      | run =>
        obtain ⟨clean, moved_on⟩ := onPage_run sound here unmapped
        exact ⟨run_inv sound clean, fun base numPages looking => absurd looking (moved_on base numPages)⟩
  exact quiet.1.own_only

theorem pmmFreePage_unused (pmm : Pmm) (nonzero : frame ≠ 0) (managed : frame.toNat < pmm.totalPages) :
    ¬ (pmmFreePage pmm (addrOf frame)).InUse frame := by
  obtain ⟨total, bits⟩ := pmmFreePage_bit pmm frame frame.toNat
  rw [Pmm.InUse, total, bits, decide_eq_true ⟨rfl, nonzero, managed⟩]
  rintro (taken | beyond)
  · simp at taken
  · omega

/-- The three steps that remove a mapped page, with nobody in between: the second gives the
frame back, the third frees it once more. -/
theorem removes_mapped (inv : ShmInv root s) (looking : s.op = .looking base numPages i)
    (mapped : (vmmGetPhysicalAddress s.machine root (pageAfter base i)).1 ≠ 0) :
    ∃ last, RemovesPage root i s last ∧ last.foreign ≠ [] := by
  have page := (inv.under_way looking).shmPage
  obtain ⟨frame, reached⟩ := ne_none_iff_exists'.mp fun unmapped =>
    mapped ((inv.owned.address_eq_zero page).mpr unmapped)
  have mine := inv.owned.mapped _ frame page reached
  obtain ⟨nonzero, managed⟩ := inv.owned.managed frame _ mine
  have used := inv.owned.inUse (by rw [mine]; exact Owner.noConfusion)
  have address : (vmmGetPhysicalAddress s.machine root (pageAfter base i)).1 = addrOf frame := by
    rw [← vmmGetPhysicalAddress_pageOf, vmmGetPhysicalAddress_eq inv.owned.tables page.user, reached]
    rfl
  obtain ⟨mem, pmm⟩ := vmmGetPhysicalAddress_keeps s.machine root (pageAfter base i)
  rw [address] at mapped
  -- the lookup
  have first : ∃ seen : ShmState, shmStep root s = seen ∧ seen.op = .unmapping base numPages i (addrOf frame) ∧
      seen.machine.mem = s.machine.mem ∧ seen.machine.pmm = s.machine.pmm ∧ seen.owner = s.owner := by
    refine ⟨_, rfl, ?_⟩
    rw [shmStep, looking]
    dsimp only
    rw [address]
    exact ⟨rfl, mem, pmm, rfl⟩
  obtain ⟨seen, first, unmapping, seen_mem, seen_pmm, seen_owner⟩ := first
  -- the removal of the entry
  have frees : vmmUnmapFrees seen.machine root (pageAfter base i) = some frame := by
    rw [(inv.owned.congr seen_mem seen_pmm).unmapFrees page, seen_mem, reached]
  have second : ∃ gone : ShmState, shmStep root seen = gone ∧ gone.op = .freeing base numPages i (addrOf frame) ∧
      gone.machine.pmm = pmmFreePage s.machine.pmm (addrOf frame) ∧ gone.owner frame = .free := by
    have unmap := (vmmUnmapPage_frees seen.machine root (pageAfter base i)).1
    rw [frees, seen_pmm] at unmap
    refine ⟨_, rfl, ?_⟩
    rw [shmStep, unmapping]
    simp only [if_neg mapped, ShmState.setMachine, unmap, seen_pmm, true_and]
    exact reown_freed used (pmmFreePage_unused _ nonzero managed)
  obtain ⟨gone, second, freeing, gone_pmm, gone_owner⟩ := second
  have third : (shmStep root gone).foreign ≠ [] := by
    have total : frame.toNat < gone.machine.pmm.totalPages := by
      rw [gone_pmm, (pmmFreePage_bit s.machine.pmm frame 0).1]
      exact managed
    have foreign : gone.freed (pageOf (pageAfter base i)) (frameOf (addrOf frame)) = frame :: gone.foreign := by
      rw [frameOf_addrOf, ShmState.freed, if_pos ⟨nonzero, total, by rw [gone_owner]; exact Owner.noConfusion⟩]
    rw [shmStep, freeing]
    simp only [foreign, ShmState.advance]
    split
    · simp
    · simp
  refine ⟨shmStep root gone, ?_, third⟩
  have one : ShmStep root s seen := first ▸ .run (by rw [looking]; exact ShmOp.noConfusion)
  have two : ShmStep root seen gone := second ▸ .run (by rw [unmapping]; exact ShmOp.noConfusion)
  have three : ShmStep root gone (shmStep root gone) := .run (by rw [freeing]; exact ShmOp.noConfusion)
  refine .tail (.tail (.single ⟨?_, one⟩) ⟨?_, two⟩) ⟨?_, three⟩
  · rw [looking]
    exact rfl
  · rw [unmapping]
    exact rfl
  · rw [freeing]
    exact rfl

/-- In every interleaving whose steps are clean no foreign frame is freed. When a page is
about to be removed, whatever others do meanwhile, only own frames will be freed exactly
if the page is not mapped. -/
theorem shm_frees_own_frames (ready : ShmReady root start) (run : ReflTransGen (CleanStep root) start s) :
    s.foreign = [] ∧ ∀ base numPages i, s.op = .looking base numPages i →
      ((∀ last, RemovesPage root i s last → last.foreign = []) ↔
        (vmmGetPhysicalAddress s.machine root (pageAfter base i)).1 = 0) := by
  have inv : ShmInv root s := by
    induction run with
    | refl => exact ready.inv
    | tail _ step ih => exact step.inv ih
  refine ⟨inv.own_only, fun base numPages i looking => ⟨fun safe => ?_, fun zero last => ?_⟩⟩
  · by_contra mapped
    obtain ⟨last, removal, foreign⟩ := removes_mapped inv looking mapped
    exact foreign (safe last removal)
  refine removes_unmapped inv ?_
  intro other count same
  rw [looking] at same
  cases same
  exact zero

def smallOwner (frame : Frame) : Owner :=
  if frame = 5 then .table else if smallMachine.pmm.InUse frame then .other else .free

def shmStart : ShmState := (shmInit smallMachine 5 smallOwner).get (by decide +kernel)

theorem shmStart_ready : ShmReady 5 shmStart := by
  have root := smallMachine_empty.used
  refine shmInit_ready smallMachine_empty (.inl (by decide)) ?_ (by decide) ?_ (some_get _).symm
  · intro frame
    rw [smallOwner]
    split
    · rename_i same
      rw [same]
      exact iff_of_false Owner.noConfusion fun unused => unused root
    split
    next used => exact iff_of_false Owner.noConfusion fun unused => unused used
    next unused => exact iff_of_true rfl unused
  · intro frame page
    rw [smallOwner]
    split
    · exact Owner.noConfusion
    · split
      all_goals exact Owner.noConfusion

def shmCalled : ShmState := sysMmap shmStart 4096 3 1
def shmAllocated : ShmState := shmStep 5 shmCalled
def shmShared : ShmState := shmStep 5 shmAllocated

theorem shmShared_run : ReflTransGen (CleanStep 5) shmStart shmShared := by
  have called : shmCalled.op = .allocating 1 0 7 := by decide +kernel
  have allocated : shmAllocated.op = .mapping 1 0 0x2000 7 0 := by decide +kernel
  have first : CleanStep 5 shmStart shmCalled := .mmap 4096 3 1 (by decide +kernel)
  have second : CleanStep 5 shmCalled shmAllocated := by
    refine .run (by rw [called]; exact ShmOp.noConfusion) ?_
    trivial
  have third : CleanStep 5 shmAllocated shmShared := by
    refine .run (by rw [allocated]; exact ShmOp.noConfusion) ?_
    refine ⟨by decide +kernel, ?_⟩
    intro pd reached
    cases reached
  exact .tail (.tail (.single first) second) third

theorem shm_frees_own_frames_second_page :
    shmShared.foreign = [] ∧ (sysMunmap shmShared 0x700000001000 4096).op = .looking 0x700000001000 1 0 ∧
      ((∀ last, RemovesPage 5 0 (sysMunmap shmShared 0x700000001000 4096) last → last.foreign = []) ↔
        (vmmGetPhysicalAddress (sysMunmap shmShared 0x700000001000 4096).machine 5 (pageAfter 0x700000001000 0)).1 = 0) := by
  have looking : (sysMunmap shmShared 0x700000001000 4096).op = .looking 0x700000001000 1 0 := by decide +kernel
  have step : CleanStep 5 shmShared (sysMunmap shmShared 0x700000001000 4096) := .munmap _ _ (by decide +kernel)
  refine ⟨by decide +kernel, looking, ?_⟩
  exact (shm_frees_own_frames shmStart_ready (.tail shmShared_run step)).2 _ _ _ looking

/-- The page is removed, and between the last two steps another user is given its frame. -/
def shmRemoving : ShmState := sysMunmap shmShared 0x700000000000 4096
def shmLooked : ShmState := shmStep 5 shmRemoving
def shmUnmapped : ShmState := shmStep 5 shmLooked
def shmReused : ShmState := shmUnmapped.setPmm (pmmAllocPages shmUnmapped.machine.pmm 1).2 fun _ => .other

/-- Sharing one page and removing it frees a frame that belongs to somebody else by then. -/
theorem munmap_frees_foreign_frame :
    ¬ ∀ (root : Frame) (start s : ShmState), ShmReady root start → ReflTransGen (ShmStep root) start s →
      s.foreign = [] := by
  intro claim
  have shared := ReflTransGen.mono (fun _ _ => CleanStep.shmStep) _ _ shmShared_run
  have removing : ShmStep 5 shmShared shmRemoving := .munmap _ _ (by decide +kernel)
  have looked : ShmStep 5 shmRemoving shmLooked := .run (by decide +kernel)
  have unmapped : ShmStep 5 shmLooked shmUnmapped := .run (by decide +kernel)
  have reused : ShmStep 5 shmUnmapped shmReused := .other _ (.alloc 1)
  have freed : ShmStep 5 shmReused (shmStep 5 shmReused) := .run (by decide +kernel)
  have own_only := claim 5 shmStart _ shmStart_ready
    (.tail (.tail (.tail (.tail (.tail shared removing) looked) unmapped) reused) freed)
  cases own_only

end Sirius.Memory
