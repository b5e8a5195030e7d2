import Sirius.Memory.Shm
import Sirius.Memory.TranslationLaw

/-! Ownership of the frames behind shared memory, in every interleaving with other users of
the page allocator. `vmm_unmap_page` gives the frame of a page back itself, so the call of
`pmm_free_pages` that follows it in `shm_free` frees a frame that belongs to somebody else
by then, or to nobody. -/
namespace Sirius.Memory
open Support Relation

/-- An allocator after some allocations. -/
structure Pmm.Extends (before after : Pmm) : Prop where
  total : after.totalPages = before.totalPages
  used : ∀ frame, before.InUse frame → after.InUse frame

theorem Pmm.Extends.refl (pmm : Pmm) : pmm.Extends pmm := ⟨rfl, fun _ used => used⟩

theorem Pmm.Extends.trans {first second third : Pmm} (one : first.Extends second) (two : second.Extends third) :
    first.Extends third :=
  ⟨two.total.trans one.total, fun frame used => two.used frame (one.used frame used)⟩

theorem HandsOut.inUse (handed : HandsOut pmm count first later) (frame : Frame) :
    later.InUse frame ↔ frame.toNat ∈ Finset.Ico first (first + count) ∨ pmm.InUse frame := by
  rw [Pmm.InUse, Pmm.InUse, handed.bits, handed.total, Bool.or_eq_true, decide_eq_true_eq, or_assoc]

theorem HandsOut.extends (handed : HandsOut pmm count first later) : pmm.Extends later :=
  ⟨handed.total, fun frame used => (handed.inUse frame).mpr (.inr used)⟩

theorem pmmAllocPages_extends (pmm : Pmm) (count : BitVec 64) : pmm.Extends (pmmAllocPages pmm count).2 := by
  rcases pmmAllocPages_handsOut pmm count with refused | ⟨first, later, found, handed, -⟩
  · rw [refused]
    exact .refl pmm
  · rw [found]
    exact handed.extends

theorem pmmAllocPage_extends (pmm : Pmm) : pmm.Extends (pmmAllocPage pmm).2 := by
  rcases pmmAllocPage_cases pmm with ⟨full, -⟩ | ⟨first, later, found, handed⟩
  · rw [full]
    exact .refl pmm
  · rw [found]
    exact handed.extends

variable {m : Machine} {root : Frame} {virt : BitVec 64}

theorem Ensured.At.extends {e : Ensured} (level : e.At m node path i flags) : m.pmm.Extends e.machine.pmm := by
  cases here : present (m.mem node i) with
  | true =>
    rw [(level.found here).2.1]
    exact .refl _
  | false =>
    rw [(level.made here rfl).pmm]
    exact pmmAllocPage_extends m.pmm

theorem vmmMapPage_extends (m : Machine) (root : Frame) (virt phys flags : BitVec 64) :
    m.pmm.Extends (vmmMapPage m root virt phys flags).machine.pmm := by
  exact ((ensurePdpt_at m root virt flags).extends.trans (ensurePd_at _ _ virt flags 0).extends).trans
    (ensurePt_at _ _ virt flags 0 0).extends

theorem descend_keeps (m : Machine) (root : Frame) (virt : BitVec 64) :
    (descend m root virt).2.mem = m.mem ∧ (descend m root virt).2.pmm = m.pmm := by
  rw [descend]
  split
  · dsimp only
    split
    all_goals exact ⟨rfl, rfl⟩
  · exact ⟨rfl, rfl⟩

/-- The frame given back is the one the page is mapped to. -/
theorem vmmUnmapPage_frees (m : Machine) (root : Frame) (virt : BitVec 64) :
    (vmmUnmapPage m root virt).pmm =
      (match vmmUnmapFrees m root virt with
      | some frame => pmmFreePage m.pmm (addrOf frame)
      | none => m.pmm) ∧
      (vmmUnmapFrees m root virt = none → (vmmUnmapPage m root virt).mem = m.mem) := by
  have kept := descend_keeps m root virt
  simp only [vmmUnmapPage, vmmUnmapFrees]
  rcases descended : descend m root virt with ⟨found, seen⟩
  rw [descended] at kept
  cases found with
  | false => exact ⟨kept.2, fun _ => kept.1⟩
  | true =>
    dsimp only
    split
    · split
      · simp only [Machine.write, Machine.scratchMap]
        exact ⟨congrArg (fun pmm => pmmFreePage pmm _) kept.2, by simp⟩
      · exact ⟨kept.2, fun _ => kept.1⟩
    · exact ⟨kept.2, fun _ => kept.1⟩

theorem vmmUnmapFrees_eq (tables : Tables m.mem pmm root) (user : (pml4Index virt).val < 256) :
    vmmUnmapFrees m root virt = userWalk m.mem root (indices virt) := by
  simp only [vmmUnmapFrees, indices]
  rcases descended : descend m root virt with ⟨found, seen⟩
  obtain ⟨mem, -, second⟩ := descend_spec tables user descended
  cases found with
  | false => exact (userWalk_two_of_three second).symm
  | true =>
    obtain ⟨third, fourth⟩ := @Tables.page_walk _ _ _ _ tables _ _ (pdIndex virt) (ptIndex virt) second
    simp only [Machine.read, mem, Machine.scratchMap, Function.update_self, frameOf_addrOf]
    rw [fourth]
    cases here : present (m.mem (seen.windows 0) (pdIndex virt)) with
    | false => simp [edge, here]
    | true => simp [edge, here]

theorem vmmGetPhysicalAddress_keeps (m : Machine) (root : Frame) (virt : BitVec 64) :
    (vmmGetPhysicalAddress m root virt).2.mem = m.mem ∧ (vmmGetPhysicalAddress m root virt).2.pmm = m.pmm := by
  have kept := descend_keeps m root virt
  rw [vmmGetPhysicalAddress]
  rcases descended : descend m root virt with ⟨found, seen⟩
  rw [descended] at kept
  cases found with
  | false => exact kept
  | true =>
    dsimp only
    repeat' split
    all_goals exact kept

/-- The page-table code looks at no bit below the page number. -/
theorem tableIndex_pageOf (virt : BitVec 64) (shift : Nat) (above : 4096 ∣ 2 ^ shift) :
    tableIndex shift (pageOf virt) = tableIndex shift virt := by
  obtain ⟨k, power⟩ := above
  apply Fin.ext
  simp only [tableIndex, pageOf, pageMask_toNat, power]
  rw [← Nat.div_div_eq_div_mul, ← Nat.div_div_eq_div_mul, Nat.mul_div_cancel _ (by decide)]

theorem indices_pageOf (virt : BitVec 64) : pml4Index (pageOf virt) = pml4Index virt ∧
    pdptIndex (pageOf virt) = pdptIndex virt ∧ pdIndex (pageOf virt) = pdIndex virt ∧
    ptIndex (pageOf virt) = ptIndex virt :=
  ⟨tableIndex_pageOf virt 39 (by decide), tableIndex_pageOf virt 30 (by decide), tableIndex_pageOf virt 21 (by decide),
    tableIndex_pageOf virt 12 (by decide)⟩

theorem vmmGetPhysicalAddress_pageOf (m : Machine) (root : Frame) (virt : BitVec 64) :
    vmmGetPhysicalAddress m root (pageOf virt) = vmmGetPhysicalAddress m root virt := by
  obtain ⟨first, second, third, fourth⟩ := indices_pageOf virt
  simp only [vmmGetPhysicalAddress, descend, first, second, third, fourth]

theorem vmmUnmapFrees_pageOf (m : Machine) (root : Frame) (virt : BitVec 64) :
    vmmUnmapFrees m root (pageOf virt) = vmmUnmapFrees m root virt := by
  obtain ⟨first, second, third, fourth⟩ := indices_pageOf virt
  simp only [vmmUnmapFrees, descend, first, second, third, fourth]

section Ownership
variable {before after : Pmm} {new owner : Frame → Owner} {frame : Frame}

theorem reown_kept (was : before.InUse frame) (still : after.InUse frame) :
    reown before after new owner frame = owner frame := by
  rw [reown, if_pos was, if_pos still]

theorem reown_freed (was : before.InUse frame) (no_more : ¬ after.InUse frame) :
    reown before after new owner frame = .free := by
  rw [reown, if_pos was, if_neg no_more]

theorem reown_new (was_not : ¬ before.InUse frame) (now : after.InUse frame) :
    reown before after new owner frame = new frame := by
  rw [reown, if_neg was_not, if_pos now]

theorem reown_unused (was_not : ¬ before.InUse frame) (still : ¬ after.InUse frame) :
    reown before after new owner frame = owner frame := by
  rw [reown, if_neg was_not, if_neg still]

/-- Free frames, and no others, belong to nobody, whatever the allocator has done. -/
theorem reown_free (free : ∀ frame, owner frame = .free ↔ ¬ before.InUse frame) (someone : ∀ frame, new frame ≠ .free)
    (frame : Frame) : reown before after new owner frame = .free ↔ ¬ after.InUse frame := by
  by_cases was : before.InUse frame
  · by_cases still : after.InUse frame
    · rw [reown_kept was still, free]
      exact iff_of_false (fun unused => unused was) fun unused => unused still
    · rw [reown_freed was still]
      exact iff_of_true rfl still
  · by_cases now : after.InUse frame
    · rw [reown_new was now]
      exact iff_of_false (someone frame) fun unused => unused now
    · rw [reown_unused was now]
      exact iff_of_true ((free frame).mpr was) now

end Ownership

structure ShmPage (virt : BitVec 64) : Prop where
  user : UserPage virt
  above : userShmVirtualBase ≤ virt
  below : virt.toNat < userShmVirtualBase.toNat + userShmMaxPages * 4096

/-- Free frames belong to nobody, tables to the page-table code, and the frame behind a
page of shared memory to that page. -/
structure ShmOwned (root : Frame) (m : Machine) (owner : Frame → Owner) : Prop where
  tables : Tables m.mem m.pmm root
  zero : m.pmm.InUse 0
  free : ∀ frame, owner frame = .free ↔ ¬ m.pmm.InUse frame
  table : ∀ path frame, path.length ≤ 3 → userWalk m.mem root path = some frame → owner frame = .table
  mapped : ∀ virt frame, ShmPage virt → userWalk m.mem root (indices virt) = some frame → owner frame = .shm virt
  managed : ∀ frame page, owner frame = .shm page → frame ≠ 0 ∧ frame.toNat < m.pmm.totalPages

namespace ShmOwned
variable {owner : Frame → Owner}

section
variable (owned : ShmOwned root m owner)
include owned

theorem inUse (taken : owner frame ≠ .free) : m.pmm.InUse frame := by
  by_contra unused
  exact taken ((owned.free frame).mpr unused)

/-- A frame of shared memory is page 0 at no time, and one of the allocator's. -/
theorem managed_reown (shared : reown m.pmm pmm new owner frame = .shm page) : frame ≠ 0 ∧ frame.toNat < m.pmm.totalPages := by
  by_cases was : m.pmm.InUse frame
  · by_cases still : pmm.InUse frame
    · rw [reown_kept was still] at shared
      exact owned.managed frame page shared
    · rw [reown_freed was still] at shared
      cases shared
  · refine ⟨fun first => was (first ▸ owned.zero), ?_⟩
    rw [Pmm.InUse, not_or, Nat.not_le] at was
    exact was.2

/-- An allocator call that takes nothing from the tables or from shared memory. -/
theorem setPmm (total : pmm.totalPages = m.pmm.totalPages) (zero : pmm.InUse 0)
    (kept : ∀ frame, owner frame ≠ .other → m.pmm.InUse frame → pmm.InUse frame) (someone : ∀ frame, new frame ≠ .free) :
    ShmOwned root { m with pmm := pmm } (reown m.pmm pmm new owner) := by
  have same : ∀ frame, owner frame ≠ .other → owner frame ≠ .free → reown m.pmm pmm new owner frame = owner frame :=
    fun frame mine taken => reown_kept (owned.inUse taken) (kept frame mine (owned.inUse taken))
  have table : ∀ path frame, path.length ≤ 3 → userWalk m.mem root path = some frame →
      reown m.pmm pmm new owner frame = .table := by
    intro path frame short reached
    have before := owned.table path frame short reached
    rw [same frame (by rw [before]; decide) (by rw [before]; decide), before]
  constructor
  case tables =>
    refine owned.tables.mono fun path frame short reached used => kept frame ?_ used
    rw [owned.table path frame short reached]
    decide
  case zero => exact zero
  case free => exact reown_free owned.free someone
  case table => exact table
  case mapped =>
    intro virt frame page reached
    have before := owned.mapped virt frame page reached
    rw [same frame (by rw [before]; exact Owner.noConfusion) (by rw [before]; exact Owner.noConfusion), before]
  case managed =>
    intro frame page shared
    rw [total]
    exact owned.managed_reown shared

/-- The invariant reads memory and the allocator only. -/
theorem congr (mem : next.mem = m.mem) (pmm : next.pmm = m.pmm) : ShmOwned root next owner := by
  constructor
  case tables => simpa only [mem, pmm] using owned.tables
  case zero => simpa only [pmm] using owned.zero
  case free => simpa only [pmm] using owned.free
  case table => simpa only [mem] using owned.table
  case mapped => simpa only [mem] using owned.mapped
  case managed => simpa only [pmm] using owned.managed

/-- Writes to frames that belong to others leave the tables alone. -/
theorem keepsTables (only : ∀ frame, owner frame ≠ .other → mem frame = m.mem frame) :
    KeepsTables root m { m with mem := mem } := by
  have same : ∀ path frame, path.length ≤ 3 → userWalk m.mem root path = some frame → mem frame = m.mem frame := by
    intro path frame short reached
    apply only
    rw [owned.table path frame short reached]
    decide
  constructor
  case used => exact owned.tables.used
  case links =>
    intro path frame i short reached
    simp only [userEdge, edge, same path frame short reached]
  case sizes =>
    intro path frame i short reached
    dsimp only
    rw [same path frame short reached]

theorem write (only : ∀ frame, owner frame ≠ .other → mem frame = m.mem frame) :
    ShmOwned root { m with mem := mem } owner := by
  have kept := owned.keepsTables only
  constructor
  case tables => exact kept.tables owned.tables
  case zero => exact owned.zero
  case free => exact owned.free
  case table =>
    intro path frame short reached
    rw [kept.userWalk_eq path (by omega)] at reached
    exact owned.table path frame short reached
  case mapped =>
    intro virt frame page reached
    rw [kept.userWalk_eq (indices virt) (Nat.le_refl 4)] at reached
    exact owned.mapped virt frame page reached
  case managed => exact owned.managed

/-- A page is mapped to a frame that already belongs to it; new tables belong to the
page-table code. -/
theorem map (page : ShmPage virt) (succeeds : Succeeds m root virt) (below : DirectoryBelow m root virt)
    (behind : owner (frameOf phys) = .shm virt) : let next := (vmmMapPage m root virt phys flags).machine
    ShmOwned root next (reown m.pmm next.pmm (fun _ => .table) owner) := by
  have succeeded := (vmmMapPage_succeeded owned.tables page.user below phys flags).mpr succeeds
  obtain ⟨tables, here, others⟩ := vmmMapPage_spec owned.tables page.user below succeeded
  have extended := vmmMapPage_extends m root virt phys flags
  have leaves := fun frame => @vmmMapPage_leaves m root frame virt phys flags owned.tables page.user below succeeded
  generalize (vmmMapPage m root virt phys flags).machine = next at *
  have same : ∀ frame, owner frame ≠ .free → reown m.pmm next.pmm (fun _ => .table) owner frame = owner frame :=
    fun frame taken => reown_kept (owned.inUse taken) (extended.used frame (owned.inUse taken))
  have shared : ∀ {frame page}, owner frame = .shm page →
      reown m.pmm next.pmm (fun _ => .table) owner frame = .shm page := by
    intro frame page mine
    rw [same frame (by rw [mine]; exact Owner.noConfusion), mine]
  constructor
  case tables => exact tables
  case zero => exact extended.used 0 owned.zero
  case free => exact reown_free owned.free fun _ => Owner.noConfusion
  case table =>
    intro path frame short reached
    have now := tables.used path frame short reached
    by_cases was : m.pmm.InUse frame
    · -- a frame in use that is a table now was one before, for data stays data
      have before : owner frame = .table := by
        by_contra data
        have apart : DataFrame m root frame :=
          ⟨was, fun other near arrived => data (owned.table other frame near arrived)⟩
        exact (leaves frame apart).data.apart path short reached
      rw [reown_kept was now, before]
    · exact reown_new was now
  case mapped =>
    intro other frame inside reached
    by_cases first : other = virt
    · rw [first, here] at reached
      rw [← Option.some.inj reached, first]
      exact shared behind
    · rw [others (indices other) rfl fun equal => first (indices_injective inside.user page.user equal)] at reached
      exact shared (owned.mapped other frame inside reached)
  case managed =>
    intro frame page mine
    rw [extended.total]
    exact owned.managed_reown mine

end

end ShmOwned

end Sirius.Memory
