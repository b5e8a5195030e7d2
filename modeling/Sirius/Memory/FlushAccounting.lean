import Sirius.Memory.FlushUserSpace
import Sirius.Memory.TranslationLaw

/-! The books of `process_flush_user_space`: which frames it frees, and how often. It
takes an entry of a page directory pointer table with any of the bits 5 to 8 set for
something it must not follow, and the processor sets bit 5 on the first access. -/
namespace Sirius.Memory
open Support Relation List BitVec

/-- A table or a page of the user half outside the shared slot. -/
def Reaches (mem : PhysMem) (root frame : Frame) : Prop :=
  ∃ i path, i ≠ sharedSlot ∧ path.length ≤ 3 ∧ userWalk mem root (i :: path) = some frame

structure ReleasesUserSpace (m : Machine) (root : Frame) : Prop where
  code : (processFlushUserSpace m (addrOf root)).1 = 0
  once : ∀ frame, Reaches m.mem root frame →
    (processFlushUserSpace m (addrOf root)).2.freed.count (addrOf frame) = 1
  only : ∀ phys ∈ (processFlushUserSpace m (addrOf root)).2.freed,
    ∃ frame, phys = addrOf frame ∧ Reaches m.mem root frame
  returned : ∀ frame, Reaches m.mem root frame → frame ≠ 0 → frame.toNat < m.pmm.totalPages →
    (processFlushUserSpace m (addrOf root)).2.machine.pmm.bit frame.toNat = false
  kept : ∀ frame, ¬ Reaches m.mem root frame →
    (processFlushUserSpace m (addrOf root)).2.machine.pmm.bit frame.toNat = m.pmm.bit frame.toNat
  shared : ∀ i : Fin 512, 256 ≤ i.val ∨ i = sharedSlot →
    (processFlushUserSpace m (addrOf root)).2.machine.mem root i = m.mem root i
  tables : ∀ frame, frame ≠ root → (processFlushUserSpace m (addrOf root)).2.machine.mem frame = m.mem frame

theorem UserTree.of_pages (tables : Tables mem pmm root)
    (pages : ∀ path other frame, path.length = 4 → other.length = 4 → userWalk mem root path = some frame →
      userWalk mem root other = some frame → path = other)
    (apart : ∀ path other frame, path.length = 4 → other.length ≤ 3 → userWalk mem root path = some frame →
      userWalk mem root other ≠ some frame) : UserTree mem root := by
  refine ⟨?_, tables.small⟩
  intro front back frame shortFront shortBack first second
  by_cases four : front.length = 4
  · by_cases also : back.length = 4
    · exact pages front back frame four also first second
    · exact absurd second (apart front back frame four (by omega) first)
  · by_cases also : back.length = 4
    · exact absurd first (apart back front frame also (by omega) second)
    · exact tables.owned front back frame (by omega) (by omega) first second

/-- No entry of a page directory pointer table has its Accessed bit or another of the
bits 5 to 8 set. -/
def CleanPdpts (mem : PhysMem) (root : Frame) : Prop :=
  ∀ i pdpt j, i ≠ sharedSlot → userWalk mem root [i] = some pdpt → present (mem pdpt j) = true →
    rs1 (mem pdpt j) = 0

variable {m : Machine} {mem : PhysMem} {root frame : Frame} {path : List (Fin 512)} {i j : Fin 512}

theorem flatMap_filter {slots : List (Fin 512)} {chosen : Fin 512 → Bool} {branch : Fin 512 → List Frame}
    (empty : ∀ i, chosen i = false → branch i = []) :
    (slots.filter chosen).flatMap branch = slots.flatMap branch := by
  induction slots with
  | nil => rfl
  | cons i rest ih =>
    cases here : chosen i with
    | false => rw [filter_cons_of_neg (by simp [here]), ih, flatMap_cons, empty i here, nil_append]
    | true => rw [filter_cons_of_pos here, flatMap_cons, flatMap_cons, ih]

theorem flushed_userSlots (mem : PhysMem) (root : Frame) :
    userSlots.flatMap (flushedSlot mem root 3 root) = flushed mem root 4 root := by
  apply flatMap_filter
  intro i kernel
  have high : 256 ≤ i.val := Nat.not_lt.mp (of_decide_eq_false kernel)
  have closed : userEdge mem root root i = none := if_pos ⟨rfl, high⟩
  rw [flushedSlot_eq, flushEdge, closed]
  simp

theorem userEdge_of_flushEdge {next : Frame} (link : flushEdge mem root levels node i = some next) :
    userEdge mem root node i = some next := by
  unfold flushEdge at link
  split at link
  · cases link
  · split at link
    · cases link
    · exact link

theorem userWalk_of_descent (reached : descent (flushEdge mem root) levels node path = some frame) :
    walk (userEdge mem root) node path = some frame ∧ path.length ≤ levels :=
  walk_of_descent (fun _ _ _ _ => userEdge_of_flushEdge) reached

theorem mem_flushed : frame ∈ flushed mem root 4 root ↔
    ∃ i path, descent (flushEdge mem root) 4 root (i :: path) = some frame := mem_postorder mem_allSlots

theorem nodup_flushed (tree : UserTree mem root) : (flushed mem root 4 root).Nodup := by
  apply nodup_postorder mem_allSlots nodup_allSlots
  intro front back found first second
  obtain ⟨left, short⟩ := userWalk_of_descent first
  obtain ⟨right, brief⟩ := userWalk_of_descent second
  exact tree.owned front back found short brief left right

/-- What is freed is reached, and by a way the loops follow. -/
theorem reaches_of_mem_flushed (freed : frame ∈ flushed mem root 4 root) : Reaches mem root frame := by
  obtain ⟨i, path, reached⟩ := mem_flushed.mp freed
  obtain ⟨walked, short⟩ := userWalk_of_descent reached
  refine ⟨i, path, ?_, Nat.le_of_succ_le_succ short, walked⟩
  rintro rfl
  cases reached

/-- With clean tables the loops follow every walk outside the shared slot. -/
theorem mem_flushed_of_reaches (clean : CleanPdpts mem root) (reaches : Reaches mem root frame) :
    frame ∈ flushed mem root 4 root := by
  obtain ⟨i, path, unshared, short, walked⟩ := reaches
  refine mem_flushed.mpr ⟨i, path, descent_of_walk (Nat.succ_le_succ short) ?_ walked⟩
  intro front j back node split arrived
  rw [flushEdge]
  cases front with
  | nil =>
    cases split
    rw [if_neg fun both => unshared both.2, if_neg fun both => by simp at both]
  | cons first rest =>
    rw [if_neg fun both => by have := both.1; simp only [length_cons] at this; omega]
    cases rest with
    | cons second rest =>
      rw [if_neg fun both => by have := both.1; simp only [length_cons] at this; omega]
    | nil =>
      -- the second link of the walk, out of a page directory pointer table
      cases split
      split
      case isTrue dirty =>
        have absent : present (mem node j) = false := by
          rw [← Bool.not_eq_true]
          exact fun here => dirty.2 (clean _ node j unshared arrived here)
        rw [userEdge, edge, absent]
        simp
      case isFalse => rfl

/-- The second link of a way the loops follow is clean. -/
theorem rs1_of_descent (reached : descent (flushEdge mem root) 4 root (i :: j :: path) = some frame)
    (first : userWalk mem root [i] = some pdpt) : rs1 (mem pdpt j) = 0 := by
  obtain ⟨next, link, reached⟩ := Option.bind_eq_some_iff.mp reached
  obtain ⟨last, second, -⟩ := Option.bind_eq_some_iff.mp reached
  have walked : userWalk mem root [i] = some next := by
    rw [userWalk, walk, userEdge_of_flushEdge link]
    rfl
  rw [first] at walked
  cases walked
  by_contra dirty
  rw [flushEdge, if_neg (by simp), if_pos ⟨rfl, dirty⟩] at second
  cases second

theorem processFlushUserSpace_unlinks (tree : UserTree m.mem root) (nonzero : root ≠ 0) :
    (processFlushUserSpace m (addrOf root)).1 = 0 ∧
      Unlinks root { machine := m } (processFlushUserSpace m (addrOf root)).2 userSlots
        (flushed m.mem root 4 root) := by
  have proceeds : addrOf root ≠ 0 := by
    intro zero
    apply nonzero
    rw [← frameOf_addrOf root, zero]
    rfl
  have distinct : userSlots.Nodup := nodup_allSlots.filter _
  have user : ∀ i ∈ userSlots, i.val < 256 := fun i inside => of_decide_eq_true (mem_filter.mp inside).2
  rw [processFlushUserSpace, if_neg proceeds, ← flushed_userSlots]
  exact ⟨rfl, flushSlots_unlinks tree userSlots distinct (fun _ _ => rfl) (fun _ _ => rfl) user⟩

theorem count_addrOf (tree : UserTree mem root) (freed : frame ∈ flushed mem root 4 root) :
    ((flushed mem root 4 root).map addrOf).count (addrOf frame) = 1 := by
  have injective : Function.Injective addrOf := by
    intro left right same
    rw [← frameOf_addrOf left, same, frameOf_addrOf]
  exact count_eq_one_of_mem ((nodup_flushed tree).map injective) (mem_map_of_mem freed)

/-- Every frame that is freed is freed once, and the rest of the books is in order. -/
theorem releases_of_all (tree : UserTree m.mem root) (nonzero : root ≠ 0)
    (all : ∀ frame, Reaches m.mem root frame → frame ∈ flushed m.mem root 4 root) :
    ReleasesUserSpace m root := by
  obtain ⟨code, done⟩ := processFlushUserSpace_unlinks tree nonzero
  have log := done.freed
  constructor
  case code => exact code
  case once =>
    intro frame reaches
    rw [log]
    exact count_addrOf tree (all frame reaches)
  case only =>
    intro phys freed
    rw [log] at freed
    obtain ⟨frame, inside, rfl⟩ := mem_map.mp freed
    exact ⟨frame, rfl, reaches_of_mem_flushed inside⟩
  case returned =>
    intro frame reaches proper page
    rw [done.pmm, (foldl_pmmFreePage_bit _ _ _).2, decide_eq_true ⟨frame, all frame reaches, rfl, proper, page⟩]
    simp
  case kept =>
    intro frame unreached
    rw [done.pmm, (foldl_pmmFreePage_bit _ _ _).2, decide_eq_false, Bool.not_false, Bool.and_true]
    rintro ⟨other, freed, same, -⟩
    cases eq_of_toNat_eq same
    exact unreached (reaches_of_mem_flushed freed)
  case shared =>
    intro i outside
    apply done.others
    refine outside.imp_left fun high inside => ?_
    have low : i.val < 256 := of_decide_eq_true (mem_filter.mp inside).2
    omega
  case tables => exact done.tables

theorem clean_of_releases (tree : UserTree m.mem root) (nonzero : root ≠ 0)
    (releases : ReleasesUserSpace m root) : CleanPdpts m.mem root := by
  intro i pdpt j unshared first here
  have pd : userWalk m.mem root [i, j] = some (address (m.mem pdpt j)) := by
    have link := tree.userEdge_eq first (by simp) (by simp) j
    rw [userWalk, show [i, j] = [i] ++ [j] from rfl, walk_concat first, link, edge, here]
    rfl
  have once := releases.once _ ⟨i, [j], unshared, by simp, pd⟩
  rw [(processFlushUserSpace_unlinks tree nonzero).2.freed, nil_append] at once
  have freed : addrOf (address (m.mem pdpt j)) ∈ (flushed m.mem root 4 root).map addrOf := by
    rw [← count_pos_iff, once]
    decide
  obtain ⟨frame, inside, same⟩ := mem_map.mp freed
  obtain ⟨i', path, reached⟩ := mem_flushed.mp inside
  obtain ⟨walked, short⟩ := userWalk_of_descent reached
  rw [← frameOf_addrOf frame, same, frameOf_addrOf] at walked
  -- the page directory is reached by one path only, so the loops came this way
  cases tree.owned _ _ _ short (by simp) walked pd
  exact rs1_of_descent reached first

theorem processFlushUserSpace_releases_iff (tree : UserTree m.mem root) (nonzero : root ≠ 0) :
    ReleasesUserSpace m root ↔ CleanPdpts m.mem root := by
  constructor
  · exact clean_of_releases tree nonzero
  · exact fun clean => releases_of_all tree nonzero fun _ => mem_flushed_of_reaches clean

def onePage : Machine := (vmmMapPage smallMachine 5 0x1000 0x9000 7).machine

theorem onePage_spec : Tables onePage.mem onePage.pmm 5 ∧ UserTree onePage.mem 5 ∧
    ∀ path frame, path.length = 4 → userWalk onePage.mem 5 path = some frame → frame = 9 := by
  have page : UserPage 0x1000 := ⟨by decide, by decide⟩
  have below : DirectoryBelow smallMachine 5 0x1000 := by
    intro pd reached
    cases reached
  obtain ⟨tables, -, others⟩ := vmmMapPage_spec smallMachine_empty.tables page below
    (show (vmmMapPage smallMachine 5 0x1000 0x9000 7).Succeeded by decide +kernel)
  have only : ∀ path frame, path.length = 4 → userWalk onePage.mem 5 path = some frame →
      path = indices 0x1000 := by
    intro path frame four reached
    by_contra other
    have empty : userWalk onePage.mem 5 path = none := by
      rw [onePage, others path four other]
      cases path with
      | nil => cases four
      | cons i rest => exact smallMachine_empty.userWalk_cons i rest
    rw [empty] at reached
    cases reached
  have page : ∀ path frame, path.length = 4 → userWalk onePage.mem 5 path = some frame → frame = 9 := by
    intro path frame four reached
    have data : userWalk onePage.mem 5 (indices 0x1000) = some 9 := by decide +kernel
    rw [only path frame four reached, data] at reached
    exact (Option.some.inj reached).symm
  refine ⟨tables, UserTree.of_pages tables ?_ ?_, page⟩
  · intro path other frame four also first second
    rw [only path frame four first, only other frame also second]
  intro path other frame four short first second
  cases page path frame four first
  have used := tables.used other 9 short second
  have free : ¬ onePage.pmm.InUse 9 := by
    unfold Pmm.InUse
    decide +kernel
  exact free used

theorem onePage_clean : CleanPdpts onePage.mem 5 := by
  intro i pdpt j _ reached _
  have first : ∀ i : Fin 512, userWalk onePage.mem 5 [i] = none ∨ userWalk onePage.mem 5 [i] = some 1 := by
    decide +kernel
  have entries : ∀ j : Fin 512, rs1 (onePage.mem 1 j) = 0 := by decide +kernel
  cases first i with
  | inl none =>
    rw [none] at reached
    cases reached
  | inr one =>
    rw [one] at reached
    cases reached
    exact entries j

theorem processFlushUserSpace_releases_one_page : CleanPdpts onePage.mem 5 ∧ ReleasesUserSpace onePage 5 :=
  ⟨onePage_clean, (processFlushUserSpace_releases_iff onePage_spec.2.1 (by decide)).mpr onePage_clean⟩

/-- The processor may set Accessed and Dirty bits, 5 and 6, in any entry. -/
structure Touched (m next : Machine) : Prop where
  pmm : next.pmm = m.pmm
  entries : ∀ frame i, ∃ bits : Entry, next.mem frame i = m.mem frame i ||| (bits &&& 0x60)

theorem getLsbD_touched (entry bits : Entry) (index : Nat) (apart : index ≠ 5 ∧ index ≠ 6) :
    (entry ||| (bits &&& 0x60)).getLsbD index = entry.getLsbD index := by
  have clear : (0x60 : Entry).getLsbD index = false := by
    have table : ∀ place : Fin 64, place.val ≠ 5 → place.val ≠ 6 → (0x60 : Entry).getLsbD place = false := by
      decide
    by_cases small : index < 64
    · exact table ⟨index, small⟩ apart.1 apart.2
    · exact getLsbD_of_ge _ _ (by omega)
  rw [getLsbD_or, getLsbD_and, clear, Bool.and_false, Bool.or_false]

theorem Touched.keepsTables {next : Machine} (touched : Touched m next) (tables : Tables m.mem m.pmm root) :
    KeepsTables root m next := by
  have same : ∀ frame i, present (next.mem frame i) = present (m.mem frame i) ∧
      address (next.mem frame i) = address (m.mem frame i) ∧
      pageSizeBit (next.mem frame i) = pageSizeBit (m.mem frame i) := by
    intro frame i
    obtain ⟨bits, entry⟩ := touched.entries frame i
    rw [entry]
    refine ⟨getLsbD_touched _ _ 0 (by decide), ?_, getLsbD_touched _ _ 7 (by decide)⟩
    apply eq_of_getLsbD_eq
    intro index inside
    simp only [address, field, getLsbD_extractLsb', inside, decide_true, Bool.true_and]
    exact getLsbD_touched _ _ _ (by omega)
  constructor
  · intro path frame short reached
    rw [touched.pmm]
    exact tables.used path frame short reached
  · intro path frame i _ _
    simp only [userEdge, edge, (same frame i).1, (same frame i).2.1]
  · intro path frame i _ _
    exact (same frame i).2.2

theorem UserTree.keeps {next : Machine} (tree : UserTree m.mem root) (kept : KeepsTables root m next)
    (tables : Tables next.mem next.pmm root) : UserTree next.mem root := ⟨tree.owned.of_walks kept.userWalk_eq, tables.small⟩

/-- A call of `vmm_map_page` that gets its pages. -/
def MapsPage (root : Frame) (m next : Machine) : Prop :=
  ∃ virt phys flags : BitVec 64, UserPage virt ∧ phys.toNat % 4096 = 0 ∧ phys.toNat < 2 ^ 52 ∧
    (vmmMapPage m root virt phys flags).Succeeded ∧ next = (vmmMapPage m root virt phys flags).machine

def onePageUsed : Machine := { onePage with mem := onePage.mem.write 1 0 (onePage.mem 1 0 ||| 0x20) }

theorem onePageUsed_touched : Touched onePage onePageUsed := by
  refine ⟨rfl, ?_⟩
  intro frame i
  by_cases here : frame = 1 ∧ i = 0
  · obtain ⟨rfl, rfl⟩ := here
    refine ⟨0x20, ?_⟩
    rfl
  · refine ⟨0, ?_⟩
    rw [show (0 : Entry) &&& 0x60 = 0#64 from rfl, or_zero]
    exact PhysMem.write_apart onePage.mem _ here

/-- A single access to the page keeps its directory, its table and itself from being freed. -/
theorem accessed_directory_leaks :
    ¬ ∀ (root : Frame) (start m next : Machine), EmptySpace start root → ReflTransGen (MapsPage root) start m →
      Touched m next → UserTree next.mem root → root ≠ 0 → ReleasesUserSpace next root := by
  intro releases
  have run : ReflTransGen (MapsPage 5) smallMachine onePage := by
    apply ReflTransGen.single
    exact ⟨0x1000, 0x9000, 7, ⟨by decide, by decide⟩, by decide, by decide, by decide +kernel, rfl⟩
  obtain ⟨tables, tree, -⟩ := onePage_spec
  have kept := onePageUsed_touched.keepsTables tables
  have used := tree.keeps kept (kept.tables tables)
  have released := releases 5 smallMachine onePage onePageUsed smallMachine_empty run onePageUsed_touched used
    (by decide)
  have clean := clean_of_releases used (by decide) released 0 1 0 (by decide) (by decide +kernel)
  revert clean
  decide +kernel

end Sirius.Memory
