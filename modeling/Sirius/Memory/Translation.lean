import Sirius.Memory.Tables

/-! `vmm_map_page` and `vmm_unmap_page` as updates of the translation that
`vmm_get_physical_address` computes. The create path masks the address of an existing
page directory to 36 bits, the other paths do not. -/
namespace Sirius.Memory
open Support Function List Option
open Machine hiding mem pmm read

/-- The tables that have to be made before a page can be mapped. -/
def missingTables (mem : PhysMem) (root : Frame) (virt : BitVec 64) : Nat :=
  if userWalk mem root [pml4Index virt] = none then 3
  else if userWalk mem root [pml4Index virt, pdptIndex virt] = none then 2
  else if userWalk mem root [pml4Index virt, pdptIndex virt, pdIndex virt] = none then 1
  else 0

/-- The allocator has a page for every table that is missing. -/
def Succeeds (m : Machine) (root : Frame) (virt : BitVec 64) : Prop :=
  0 ∉ allocations (missingTables m.mem root virt) m.pmm

instance : Decidable (Succeeds m root virt) := inferInstanceAs (Decidable (_ ∉ _))

/-- An existing page directory on the way lies below 64 GB. -/
def DirectoryBelow (m : Machine) (root : Frame) (virt : BitVec 64) : Prop :=
  ∀ pd, userWalk m.mem root [pml4Index virt, pdptIndex virt] = some pd → pd.toNat < 2 ^ 24

structure UserPage (virt : BitVec 64) : Prop where
  aligned : virt.toNat % 4096 = 0
  user : virt.toNat < 2 ^ 47

theorem UserPage.pml4Index_lt (page : UserPage virt) : (pml4Index virt).val < 256 := by
  have := page.user
  simp only [pml4Index, tableIndex]
  omega

theorem indices_injective (first : UserPage virt) (second : UserPage other)
    (same : indices virt = indices other) : virt = other := by
  have := first.aligned
  have := first.user
  have := second.aligned
  have := second.user
  simp only [indices, pml4Index, pdptIndex, pdIndex, ptIndex, tableIndex, List.cons.injEq, Fin.mk.injEq,
    and_true] at same
  apply BitVec.eq_of_toNat_eq
  omega

variable {m : Machine} {root : Frame} {virt : BitVec 64}

theorem Tables.userWalk_concat (tables : Tables mem pmm root) {path : List (Fin 512)} {i : Fin 512}
    (reached : userWalk mem root path = some node) (within : path.length ≤ 3) (user : path = [] → i.val < 256) :
    userWalk mem root (path ++ [i]) = edge mem node i := by
  rw [userWalk, walk_concat reached, tables.userEdge_eq reached within user]

/-- A table on the way of `virt`, found or made, with the pages as they were and the
tables still missing below it. -/
structure Ready (m : Machine) (root : Frame) (virt : BitVec 64) (path : List (Fin 512)) (e : Ensured) : Prop where
  tables : Tables e.machine.mem e.machine.pmm root
  reached : userWalk e.machine.mem root path = some (frameOf e.phys)
  pages : ∀ other : List (Fin 512), other.length = 4 →
    userWalk e.machine.mem root other = userWalk m.mem root other
  enough : Succeeds e.machine root virt ↔ Succeeds m root virt

/-- A page cleared and entered in its parent. -/
def PhysMem.enter (mem : PhysMem) (node : Frame) (i : Fin 512) (new : BitVec 64) (entry : Entry → Entry) :
    PhysMem :=
  (mem.clear (frameOf new)).write node i (entry (mem.clear (frameOf new) node i))

/-- A table was not there and was made. -/
structure Ensured.Made (e : Ensured) (m : Machine) (node : Frame) (i : Fin 512) (new : BitVec 64) (later : Pmm)
    (entry : Entry → Entry) : Prop where
  mem : e.machine.mem = m.mem.enter node i new entry
  pmm : e.machine.pmm = later
  phys : e.phys = new
  allocated : e.allocated = [new]

/-- The entry for a new table below the end of a path. -/
def levelEntry (flags : BitVec 64) (path : List (Fin 512)) : BitVec 64 → Entry → Entry :=
  if path.length = 2 then directoryEntry flags else tableEntry flags

/-- The address that is taken from an entry which is present. -/
def levelAddress (path : List (Fin 512)) (entry : Entry) : BitVec 64 :=
  if path.length = 1 then addrOf (address entry) &&& 0xFFFFFFFFF else addrOf (address entry)

/-- One level of the way: the table that an entry at the end of the path leads to, found or made. -/
structure Ensured.At (e : Ensured) (m : Machine) (node : Frame) (path : List (Fin 512)) (i : Fin 512)
    (flags : BitVec 64) : Prop where
  found : present (m.mem node i) = true → e.machine.mem = m.mem ∧ e.machine.pmm = m.pmm ∧
    e.phys = levelAddress path (m.mem node i) ∧ e.allocated = []
  made : present (m.mem node i) = false → ∀ {new later}, pmmAllocPage m.pmm = (new, later) →
    e.Made m node i new later (levelEntry flags path new)

theorem ensurePdpt_at (m : Machine) (root : Frame) (virt flags : BitVec 64) :
    (ensurePdpt m root virt flags).At m (frameOf (addrOf root)) [] (pml4Index virt) flags := by
  rw [frameOf_addrOf]
  constructor
  · intro here
    simp [ensurePdpt, here, levelAddress]
  · intro here new later allocated
    constructor <;> simp [ensurePdpt, here, PhysMem.enter, alloc, allocated, scratchMap, clear,
      levelEntry]

theorem ensurePd_at (m : Machine) (parent virt flags : BitVec 64) (a : Fin 512) :
    (ensurePd m parent virt flags).At m (frameOf parent) [a] (pdptIndex virt) flags := by
  constructor
  · intro here
    simp [ensurePd, Machine.read, scratchMap, here, levelAddress]
  · intro here new later allocated
    constructor <;> simp [ensurePd, here, PhysMem.enter, alloc, allocated, scratchMap, clear,
      Machine.read, write, levelEntry]

theorem ensurePt_at (m : Machine) (parent virt flags : BitVec 64) (a b : Fin 512) :
    (ensurePt m parent virt flags).At m (frameOf parent) [a, b] (pdIndex virt) flags := by
  constructor
  · intro here
    simp [ensurePt, Machine.read, scratchMap, here, levelAddress]
  · intro here new later allocated
    constructor <;> simp [ensurePt, here, PhysMem.enter, alloc, allocated, scratchMap, clear,
      Machine.read, write, levelEntry]

theorem levelEntry_spec (flags : BitVec 64) (path : List (Fin 512)) (new : BitVec 64) (old : Entry) :
    present (levelEntry flags path new old) = true ∧ address (levelEntry flags path new old) = frameOf new ∧
      (path.length = 2 → pageSizeBit (levelEntry flags path new old) = false) := by
  unfold levelEntry
  split
  · obtain ⟨here, target, small⟩ := directoryEntry_spec flags new old
    exact ⟨here, target, fun _ => small⟩
  · obtain ⟨here, target⟩ := tableEntry_spec flags new old
    exact ⟨here, target, fun two => absurd two ‹_›⟩

theorem frameOf_masked (small : frame.toNat < 2 ^ 24) : frameOf (addrOf frame &&& 0xFFFFFFFFF) = frame := by
  have masked : addrOf frame &&& 0xFFFFFFFFF = addrOf frame := by
    apply BitVec.eq_of_toNat_eq
    rw [BitVec.toNat_and, addrOf_toNat]
    have mask : (0xFFFFFFFFF : BitVec 64).toNat = 2 ^ 36 - 1 := rfl
    rw [mask, Nat.and_two_pow_sub_one_eq_mod]
    omega
  rw [masked, frameOf_addrOf]

theorem frameOf_levelAddress (small : path.length = 1 → (address entry).toNat < 2 ^ 24) :
    frameOf (levelAddress path entry) = address entry := by
  unfold levelAddress
  split
  · exact frameOf_masked (small ‹_›)
  · exact frameOf_addrOf _

theorem userWalk_front (reached : userWalk mem root (f ++ b) = some node) : userWalk mem root f ≠ none := by
  intro stopped
  exact absurd (reached.symm.trans (walk_dead stopped b)) (some_ne_none _)

/-- At the end of a part of the way no table follows: those below are missing as well. -/
theorem missingTables_absent {path : List (Fin 512)} (way : path ++ i :: rest = indices virt) (within : path.length < 3)
    (reached : userWalk mem root path = some node) (absent : userWalk mem root (path ++ [i]) = none) :
    missingTables mem root virt = 3 - path.length := by
  unfold indices at way
  rcases path with _ | ⟨a, _ | ⟨b, _ | ⟨c, deeper⟩⟩⟩
  · obtain ⟨rfl, -⟩ : i = _ ∧ rest = _ := by simpa using way
    exact if_pos absent
  · obtain ⟨rfl, rfl, -⟩ : a = _ ∧ i = _ ∧ rest = _ := by simpa using way
    exact (if_neg (userWalk_front (b := []) reached)).trans (if_pos absent)
  · obtain ⟨rfl, rfl, rfl, -⟩ : a = _ ∧ b = _ ∧ i = _ ∧ rest = _ := by simpa using way
    exact (if_neg (userWalk_front (f := [_]) reached)).trans ((if_neg (userWalk_front (b := []) reached)).trans (if_pos absent))
  · simp only [length_cons] at within
    omega

theorem missingTables_none (reached : userWalk mem root [pml4Index virt, pdptIndex virt, pdIndex virt] = some node) :
    missingTables mem root virt = 0 := by
  rw [missingTables, if_neg (userWalk_front (f := [_]) reached), if_neg (userWalk_front (f := [_, _]) reached),
    if_neg (userWalk_front (b := []) reached)]

/-- The table is ready if no call of the allocator failed, and none fails if there are enough pages. -/
def Attains (m : Machine) (root : Frame) (virt : BitVec 64) (path : List (Fin 512)) (e : Ensured) : Prop :=
  (Succeeds m root virt → 0 ∉ e.allocated) ∧ (0 ∉ e.allocated → Ready m root virt path e)

/-- One level further: the tables are ready as far as the next one, and nothing is found below it that was not
there before. -/
theorem Ready.next {e next : Ensured} {path : List (Fin 512)} (ready : Ready m root virt path e)
    (level : next.At e.machine (frameOf e.phys) path i flags) (way : path ++ i :: rest = indices virt)
    (within : path.length < 3) (user : path = [] → i.val < 256)
    (below : path.length = 1 → ∀ pd, userWalk e.machine.mem root (path ++ [i]) = some pd → pd.toNat < 2 ^ 24) :
    Attains m root virt (path ++ [i]) next ∧ (0 ∉ next.allocated →
        ∀ j frame, userWalk next.machine.mem root (path ++ [i] ++ [j]) = some frame →
          userWalk e.machine.mem root (path ++ [i] ++ [j]) = some frame) := by
  have step := ready.tables.userWalk_concat ready.reached (by omega) user
  cases here : present (e.machine.mem (frameOf e.phys) i) with
  | true =>
    obtain ⟨mem, pmm, phys, allocated⟩ := level.found here
    rw [edge, here, if_pos rfl] at step
    have target : frameOf next.phys = address (e.machine.mem (frameOf e.phys) i) := by
      rw [phys, frameOf_levelAddress fun one => below one _ step]
    rw [Attains, allocated]
    refine ⟨⟨fun _ => not_mem_nil, fun _ => ⟨?_, ?_, ?_, ?_⟩⟩, fun _ => ?_⟩
    · rw [mem, pmm]
      exact ready.tables
    · rw [mem, target, step]
    · rw [mem]
      exact ready.pages
    · rw [← ready.enough, Succeeds, Succeeds, mem, pmm]
    · rw [mem]
      exact fun _ _ reached => reached
  | false =>
    rw [edge, here] at step
    rcases allocated : pmmAllocPage e.machine.pmm with ⟨new, later⟩
    have made := level.made here allocated
    obtain ⟨shown, target, small⟩ := levelEntry_spec flags path new (e.machine.mem.clear (frameOf new) (frameOf e.phys) i)
    have missing := missingTables_absent way within ready.reached step
    have enough : Succeeds m root virt ↔ new ≠ 0 ∧ 0 ∉ allocations (2 - path.length) later := by
      rw [← ready.enough, Succeeds, missing, show 3 - path.length = 2 - path.length + 1 by omega,
        not_mem_allocations allocated]
    rw [Attains, enough, made.allocated, mem_singleton, eq_comm]
    by_cases zero : new = 0
    · exact ⟨⟨fun both => both.1, fun nonzero => absurd zero nonzero⟩, fun nonzero => absurd zero nonzero⟩
    have linked := ready.tables.newTable ready.reached within user here _ shown allocated zero target small
    rw [← PhysMem.enter, ← made.mem, ← made.pmm, ← made.phys] at linked
    -- the new table is empty, so what is missing now is what is below it
    have left : missingTables next.machine.mem root virt = 2 - path.length := by
      unfold indices at way
      by_cases two : path.length = 2
      · obtain ⟨a, b, rfl⟩ := length_eq_two.mp two
        obtain ⟨rfl, rfl, rfl, -⟩ : a = _ ∧ b = _ ∧ i = _ ∧ rest = _ := by simpa using way
        exact missingTables_none linked.reached
      have length := congrArg List.length way
      simp only [length_append, length_cons, length_nil] at length
      obtain ⟨j, below, rfl⟩ := exists_cons_of_length_pos (show 0 < rest.length by omega)
      rw [missingTables_absent (by rw [← append_cons]; exact way) (by simp; omega) linked.reached (linked.empty j)]
      simp only [length_append, length_singleton]
      omega
    refine ⟨⟨fun both => both.1, fun nonzero => ⟨linked.tables, linked.reached,
      fun other four => (linked.pages other four).trans (ready.pages other four), ?_⟩⟩,
      fun _ j frame reached => absurd ((linked.empty j).symm.trans reached) (some_ne_none _).symm⟩
    rw [enough, Succeeds, left, made.pmm]
    exact ⟨fun left => ⟨nonzero, left⟩, fun both => both.2⟩

theorem Ready.start (tables : Tables m.mem m.pmm root) : Ready m root virt [] { machine := m, phys := addrOf root } :=
  ⟨tables, by rw [frameOf_addrOf]; rfl, fun _ _ => rfl, Iff.rfl⟩

theorem Ready.succeeds {e : Ensured} (ready : Ready m root virt [pml4Index virt, pdptIndex virt, pdIndex virt] e) :
    Succeeds m root virt := by
  rw [← ready.enough, Succeeds, missingTables_none ready.reached]
  exact not_mem_nil

theorem ensurePdpt_ready (tables : Tables m.mem m.pmm root) (user : (pml4Index virt).val < 256)
    (below : DirectoryBelow m root virt) (flags : BitVec 64) :
    Attains m root virt [pml4Index virt] (ensurePdpt m root virt flags) ∧ (0 ∉ (ensurePdpt m root virt flags).allocated →
      DirectoryBelow (ensurePdpt m root virt flags).machine root virt) := by
  obtain ⟨reaches, next⟩ := (Ready.start tables).next (ensurePdpt_at m root virt flags) rfl (by decide) (fun _ => user) nofun
  exact ⟨reaches, fun made pd reached => below pd (next made _ _ reached)⟩

theorem ensurePd_ready {pdpt : Ensured} (ready : Ready m root virt [pml4Index virt] pdpt)
    (below : DirectoryBelow pdpt.machine root virt) (flags : BitVec 64) :
    Attains m root virt [pml4Index virt, pdptIndex virt] (ensurePd pdpt.machine pdpt.phys virt flags) :=
  (ready.next (ensurePd_at _ _ virt flags _) rfl (by simp) (by simp) fun _ => below).1

theorem ensurePt_ready {pd : Ensured} (ready : Ready m root virt [pml4Index virt, pdptIndex virt] pd)
    (flags : BitVec 64) :
    Attains m root virt [pml4Index virt, pdptIndex virt, pdIndex virt] (ensurePt pd.machine pd.phys virt flags) :=
  (ready.next (ensurePt_at _ _ virt flags _ _) rfl (by simp) (by simp) (by simp)).1

/-- No call of `pmm_alloc_page` made on the way returned 0. -/
def MapPage.Succeeded (result : MapPage) : Prop := 0 ∉ result.allocated

instance (result : MapPage) : Decidable result.Succeeded := inferInstanceAs (Decidable (_ ∉ _))

theorem MapPage.succeeded_append {machine : Machine} {first second third : List (BitVec 64)} :
    MapPage.Succeeded { machine, allocated := first ++ second ++ third } ↔
      0 ∉ first ∧ 0 ∉ second ∧ 0 ∉ third := by
  simp only [Succeeded, mem_append, not_or, and_assoc]

theorem vmmMapPage_succeeded (tables : Tables m.mem m.pmm root) (page : UserPage virt)
    (below : DirectoryBelow m root virt) (phys flags : BitVec 64) :
    (vmmMapPage m root virt phys flags).Succeeded ↔ Succeeds m root virt := by
  obtain ⟨pdpt, directory⟩ := ensurePdpt_ready tables page.pml4Index_lt below flags
  rw [vmmMapPage, MapPage.succeeded_append]
  constructor
  · rintro ⟨first, second, third⟩
    exact ((ensurePt_ready ((ensurePd_ready (pdpt.2 first) (directory first) flags).2 second) flags).2 third).succeeds
  intro enough
  have first := pdpt.1 enough
  have pd := ensurePd_ready (pdpt.2 first) (directory first) flags
  have second := pd.1 enough
  exact ⟨first, second, (ensurePt_ready (pd.2 second) flags).1 enough⟩

/-- The page is entered in the table that the three steps lead to. -/
theorem vmmMapPage_eq {pdpt pd pt : Ensured} (first : ensurePdpt m root virt flags = pdpt)
    (second : ensurePd pdpt.machine pdpt.phys virt flags = pd)
    (third : ensurePt pd.machine pd.phys virt flags = pt) :
    (vmmMapPage m root virt phys flags).machine.mem = pt.machine.mem.write (frameOf pt.phys) (ptIndex virt)
          (pageEntry flags phys (pt.machine.mem (frameOf pt.phys) (ptIndex virt))) ∧
      (vmmMapPage m root virt phys flags).machine.pmm = pt.machine.pmm ∧
      (vmmMapPage m root virt phys flags).allocated = pdpt.allocated ++ pd.allocated ++ pt.allocated := by
  simp [vmmMapPage, first, second, third, write, Machine.read, scratchMap]

/-- A table is made on the way to a page. -/
structure MakesTable (root : Frame) (virt flags : BitVec 64) (m next : Machine) (node : Frame) (path : List (Fin 512))
    (i : Fin 512) (new : BitVec 64) : Prop where
  tables : Tables m.mem m.pmm root
  reached : userWalk m.mem root path = some node
  within : path.length < 3
  onWay : path ++ [i] <+: indices virt
  user : path = [] → i.val < 256
  absent : present (m.mem node i) = false
  nonzero : new ≠ 0
  allocated : pmmAllocPage m.pmm = (new, next.pmm)
  mem : next.mem = m.mem.enter node i new (levelEntry flags path new)

/-- The page is entered in its table, on a machine on which nothing but tables is new. -/
structure EntersPage (root : Frame) (virt phys flags : BitVec 64) (m ready next : Machine) (node : Frame) : Prop where
  tables : Tables ready.mem ready.pmm root
  reached : userWalk ready.mem root [pml4Index virt, pdptIndex virt, pdIndex virt] = some node
  pages : ∀ other : List (Fin 512), other.length = 4 → userWalk ready.mem root other = userWalk m.mem root other
  mem : next.mem = ready.mem.write node (ptIndex virt) (pageEntry flags phys (ready.mem node (ptIndex virt)))
  pmm : next.pmm = ready.pmm

section Keeps
variable {P : Machine → Prop}
  (congr : ∀ {m next : Machine}, next.mem = m.mem → next.pmm = m.pmm → P m → P next)
  (table : ∀ {m next node path i new}, MakesTable root virt flags m next node path i new → P m → P next)
include congr table

theorem Ready.keeps {e next : Ensured} {path : List (Fin 512)} (ready : Ready m root virt path e)
    (level : next.At e.machine (frameOf e.phys) path i flags) (onWay : path ++ [i] <+: indices virt)
    (within : path.length < 3) (user : path = [] → i.val < 256) (succeeded : 0 ∉ next.allocated)
    (holds : P e.machine) : P next.machine := by
  cases here : present (e.machine.mem (frameOf e.phys) i) with
  | true =>
    obtain ⟨mem, pmm, -⟩ := level.found here
    exact congr mem pmm holds
  | false =>
    rcases allocated : pmmAllocPage e.machine.pmm with ⟨new, later⟩
    have made := level.made here allocated
    rw [made.allocated, mem_singleton] at succeeded
    exact table ⟨ready.tables, ready.reached, within, onWay, user, here, Ne.symm succeeded, made.pmm ▸ allocated,
      made.mem⟩ holds

/-- What making a table keeps holds when the page is entered. -/
theorem vmmMapPage_keeps (tables : Tables m.mem m.pmm root) (page : UserPage virt) (below : DirectoryBelow m root virt)
    (succeeded : (vmmMapPage m root virt phys flags).Succeeded) (start : P m) :
    ∃ ready node, EntersPage root virt phys flags m ready (vmmMapPage m root virt phys flags).machine node ∧ P ready := by
  obtain ⟨first, second, third⟩ := MapPage.succeeded_append.mp succeeded
  obtain ⟨reaches, directory⟩ := ensurePdpt_ready tables page.pml4Index_lt below flags
  have pdpt := reaches.2 first
  have pd := (ensurePd_ready pdpt (directory first) flags).2 second
  have pt := (ensurePt_ready pd flags).2 third
  obtain ⟨written, pmm, -⟩ := @vmmMapPage_eq m root virt flags phys _ _ _ rfl rfl rfl
  refine ⟨_, _, ⟨pt.tables, pt.reached, pt.pages, written, pmm⟩, ?_⟩
  have one := (Ready.start tables).keeps congr table (ensurePdpt_at m root virt flags) ⟨[_, _, _], rfl⟩ (by decide)
    (fun _ => page.pml4Index_lt) first start
  have two := pdpt.keeps congr table (ensurePd_at _ _ virt flags _) ⟨[_, _], rfl⟩ (by simp) (by simp) second one
  exact pd.keeps congr table (ensurePt_at _ _ virt flags _ _) ⟨[_], rfl⟩ (by simp) (by simp) third two

end Keeps

/-- Mapping changes the walk of the page mapped and no other. -/
theorem vmmMapPage_spec (tables : Tables m.mem m.pmm root) (page : UserPage virt)
    (below : DirectoryBelow m root virt) (succeeded : (vmmMapPage m root virt phys flags).Succeeded) :
    let next := (vmmMapPage m root virt phys flags).machine
    Tables next.mem next.pmm root ∧ userWalk next.mem root (indices virt) = some (frameOf phys) ∧
      ∀ other : List (Fin 512), other.length = 4 → other ≠ indices virt →
        userWalk next.mem root other = userWalk m.mem root other := by
  obtain ⟨ready, node, enters, -⟩ := vmmMapPage_keeps (P := fun _ => True) (fun _ _ _ => trivial) (fun _ _ => trivial)
    tables page below succeeded trivial
  dsimp only
  rw [enters.mem, enters.pmm]
  obtain ⟨after, -, mapped, others⟩ := enters.tables.writePage enters.reached rfl
    (pageEntry flags phys (ready.mem node (ptIndex virt)))
  rw [(pageEntry_spec _ _ _).1, (pageEntry_spec _ _ _).2, if_pos rfl] at mapped
  exact ⟨after, mapped, fun other four differ => (others other four differ).trans (enters.pages other four)⟩

/-- Where the first two steps of a walk lead. -/
theorem descend_spec (tables : Tables m.mem pmm root) (user : (pml4Index virt).val < 256)
    (descended : descend m root virt = (found, seen)) : seen.mem = m.mem ∧ seen.pmm = m.pmm ∧
      userWalk m.mem root [pml4Index virt, pdptIndex virt] = if found then some (seen.windows 0) else none := by
  have first := tables.userWalk_concat (walk_nil _ _) (by decide) fun _ => user
  cases here : present (m.mem root (pml4Index virt)) with
  | false =>
    rw [edge, here] at first
    have stopped := walk_dead first [pdptIndex virt]
    simp only [descend, here, Bool.false_eq_true, if_false] at descended
    cases descended
    exact ⟨rfl, rfl, stopped⟩
  | true =>
    rw [edge, here, if_pos rfl] at first
    have second : userWalk m.mem root [pml4Index virt, pdptIndex virt] =
        edge m.mem (address (m.mem root (pml4Index virt))) (pdptIndex virt) :=
      tables.userWalk_concat first (by simp) (by simp)
    rw [second, edge]
    cases there : present (m.mem (address (m.mem root (pml4Index virt))) (pdptIndex virt))
    all_goals
      simp [descend, here, scratchMap, Machine.read, there] at descended
      obtain ⟨rfl, rfl⟩ := descended
      simp

theorem userWalk_two_of_three (stopped : userWalk mem root [a, b] = none) :
    userWalk mem root [a, b, c, d] = none := walk_dead stopped [c, d]

/-- The walk of a page below its page directory. -/
theorem Tables.page_walk (tables : Tables mem pmm root) {a b c d : Fin 512}
    (reached : userWalk mem root [a, b] = some pd) :
    userWalk mem root [a, b, c] = edge mem pd c ∧
      userWalk mem root [a, b, c, d] = (edge mem pd c).bind (fun pt => edge mem pt d) := by
  have third : userWalk mem root [a, b, c] = edge mem pd c :=
    tables.userWalk_concat reached (by simp) (by simp)
  refine ⟨third, ?_⟩
  cases here : edge mem pd c with
  | none => exact walk_dead (third.trans here) [d]
  | some pt => exact tables.userWalk_concat (third.trans here) (by simp) (by simp)

def walkAddress (frame : Option Frame) : BitVec 64 := (frame.map addrOf).getD 0

theorem vmmGetPhysicalAddress_eq (tables : Tables m.mem pmm root) (page : UserPage virt) :
    (vmmGetPhysicalAddress m root virt).1 = walkAddress (userWalk m.mem root (indices virt)) := by
  simp only [vmmGetPhysicalAddress, indices]
  rcases descended : descend m root virt with ⟨found, seen⟩
  obtain ⟨mem, -, second⟩ := descend_spec tables page.pml4Index_lt descended
  cases found with
  | false =>
    rw [userWalk_two_of_three second]
    rfl
  | true =>
    obtain ⟨third, fourth⟩ := @Tables.page_walk _ _ _ _ tables _ _ (pdIndex virt) (ptIndex virt) second
    rw [fourth]
    simp only [Machine.read, mem, edge, scratchMap, update_self, frameOf_addrOf]
    cases here : present (m.mem (seen.windows 0) (pdIndex virt)) with
    | false => rfl
    | true =>
      have small := tables.small _ _ (pdIndex virt) rfl second here
      simp only [small, if_true, Bool.false_eq_true, if_false, bind_some]
      cases there : present (m.mem (address (m.mem (seen.windows 0) (pdIndex virt))) (ptIndex virt)) <;> rfl

theorem pmmFreePage_inUse (pmm : Pmm) (frame other : Frame) (differ : other ≠ frame) (used : pmm.InUse other) :
    (pmmFreePage pmm (addrOf frame)).InUse other := by
  obtain ⟨total, bits⟩ := pmmFreePage_bit pmm frame other.toNat
  cases used with
  | inl taken =>
    have kept : ¬ (frame.toNat = other.toNat ∧ frame ≠ 0 ∧ other.toNat < pmm.totalPages) :=
      fun same => differ (BitVec.eq_of_toNat_eq same.1.symm)
    exact .inl (by rw [bits, taken, decide_eq_false kept]; rfl)
  | inr beyond => exact .inr (by rwa [total])

/-- The frame that unmapping gives back is no table of the address space. -/
def ReleasesPage (m : Machine) (root : Frame) (virt : BitVec 64) : Prop :=
  ∀ frame, userWalk m.mem root (indices virt) = some frame →
    ∀ path : List (Fin 512), path.length ≤ 3 → userWalk m.mem root path ≠ some frame

theorem vmmUnmapPage_spec (tables : Tables m.mem m.pmm root) (page : UserPage virt) :
    let next := vmmUnmapPage m root virt
    (ReleasesPage m root virt → Tables next.mem next.pmm root) ∧
      (∃ used, Tables next.mem used root) ∧ userWalk next.mem root (indices virt) = none ∧
      ∀ other : List (Fin 512), other.length = 4 → other ≠ indices virt →
        userWalk next.mem root other = userWalk m.mem root other := by
  simp only [vmmUnmapPage, indices]
  rcases descended : descend m root virt with ⟨found, seen⟩
  obtain ⟨mem, pmm, second⟩ := descend_spec tables page.pml4Index_lt descended
  cases found with
  | false =>
    rw [mem, pmm]
    exact ⟨fun _ => tables, ⟨_, tables⟩, userWalk_two_of_three second, fun _ _ _ => rfl⟩
  | true =>
    obtain ⟨third, fourth⟩ := @Tables.page_walk _ _ _ _ tables _ _ (pdIndex virt) (ptIndex virt) second
    simp only [Machine.read, mem, scratchMap, update_self, frameOf_addrOf]
    cases here : present (m.mem (seen.windows 0) (pdIndex virt)) with
    | false =>
      rw [edge, here] at fourth
      simp only [Bool.false_eq_true, if_false, mem, pmm]
      exact ⟨fun _ => tables, ⟨_, tables⟩, fourth, fun _ _ _ => trivial⟩
    | true =>
      rw [edge, here, if_pos rfl] at third fourth
      rw [bind_some] at fourth
      simp only [if_true]
      generalize address (m.mem (seen.windows 0) (pdIndex virt)) = pt at *
      cases there : present (m.mem pt (ptIndex virt)) with
      | false =>
        rw [edge, there] at fourth
        simp only [Bool.false_eq_true, if_false, pmm]
        exact ⟨fun _ => tables, ⟨_, tables⟩, fourth, fun _ _ _ => trivial⟩
      | true =>
        rw [edge, there, if_pos rfl] at fourth
        obtain ⟨after, above, cleared, others⟩ := tables.writePage third rfl
          (setField 12 (0 : Frame) (setField 0 0#1 (m.mem pt (ptIndex virt))))
        rw [present_setField_address, present_setField_present] at cleared
        simp only [if_true, write, update_self, pmm]
        refine ⟨fun releases => after.mono ?_, ⟨_, after⟩, cleared, others⟩
        intro path frame short arrived used
        apply pmmFreePage_inUse _ _ _ _ used
        rintro rfl
        rw [above path short] at arrived
        exact releases _ fourth path short arrived

/-! What `vmm_map_page` leaves alone: a frame that is taken and is no table of the address
space keeps its contents and stays such a frame. -/

structure DataFrame (m : Machine) (root frame : Frame) : Prop where
  used : m.pmm.InUse frame
  apart : ∀ path, path.length ≤ 3 → userWalk m.mem root path ≠ some frame

/-- The frame is data before and after, with the same contents. -/
structure LeavesData (m next : Machine) (root frame : Frame) : Prop where
  data : DataFrame next root frame
  same : next.mem frame = m.mem frame

variable {m next : Machine} {root frame : Frame} {virt : BitVec 64}

theorem LeavesData.trans (first : LeavesData m next root frame) (second : LeavesData next last root frame) :
    LeavesData m last root frame :=
  ⟨second.data, second.same.trans first.same⟩

theorem DataFrame.leaves (data : DataFrame m root frame) (mem : next.mem = m.mem) (pmm : next.pmm = m.pmm) :
    LeavesData m next root frame := by
  refine ⟨⟨?_, ?_⟩, ?_⟩
  · rw [pmm]
    exact data.used
  · rw [mem]
    exact data.apart
  · rw [mem]

theorem MakesTable.leaves (made : MakesTable root virt flags m next node path i new) (data : DataFrame m root frame) :
    LeavesData m next root frame := by
  obtain ⟨-, free, -, now⟩ := pmmAllocPage_spec made.allocated made.nonzero
  have within := made.within
  have fresh : frame ≠ frameOf new := by
    rintro rfl
    exact free data.used
  have other : frame ≠ node := by
    rintro rfl
    exact data.apart path (by omega) made.reached
  obtain ⟨shown, target, -⟩ := levelEntry_spec flags path new (m.mem.clear (frameOf new) node i)
  obtain ⟨-, arrives, -, walks⟩ := made.tables.walk_newTable made.reached within made.user made.absent _ shown free target
  refine ⟨⟨(now frame).mpr (.inr data.used), ?_⟩, ?_⟩
  · intro path' short arrived
    rw [made.mem, PhysMem.enter] at arrived
    by_cases last : path' = path ++ [i]
    · rw [last, arrives] at arrived
      exact fresh (some.inj arrived).symm
    · rw [walks path' (by omega) last] at arrived
      exact data.apart path' short arrived
  · rw [made.mem, PhysMem.enter, PhysMem.write, Function.update_of_ne other, PhysMem.clear, Function.update_of_ne fresh]

theorem vmmMapPage_leaves (tables : Tables m.mem m.pmm root) (page : UserPage virt) (below : DirectoryBelow m root virt)
    (succeeded : (vmmMapPage m root virt phys flags).Succeeded) (data : DataFrame m root frame) :
    LeavesData m (vmmMapPage m root virt phys flags).machine root frame := by
  obtain ⟨ready, node, enters, kept⟩ := vmmMapPage_keeps (P := fun next => LeavesData m next root frame)
    (fun mem pmm leaves => leaves.trans (leaves.data.leaves mem pmm)) (fun made leaves => leaves.trans (made.leaves leaves.data))
    tables page below succeeded (data.leaves rfl rfl)
  refine kept.trans ?_
  have other : frame ≠ node := by
    rintro rfl
    exact kept.data.apart _ (by simp) enters.reached
  refine ⟨⟨?_, ?_⟩, ?_⟩
  · rw [enters.pmm]
    exact kept.data.used
  · intro path short arrived
    rw [enters.mem, (enters.tables.writePage enters.reached rfl _).2.1 path short] at arrived
    exact kept.data.apart path short arrived
  · rw [enters.mem, PhysMem.write, Function.update_of_ne other]

end Sirius.Memory
