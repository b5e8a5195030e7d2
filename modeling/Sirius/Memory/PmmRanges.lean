import Sirius.Memory.Pmm
import Sirius.Support.RunSearch
import Mathlib.Order.Interval.Finset.Nat

/-! Contiguous allocations of `pmm.c`, and what holds of the page allocator over whole
histories: the set bits are the pages reserved at the start and those of the ranges handed
out and not given back. -/
namespace Sirius.Memory
open Support Finset
open Nat (Ico_succ_singleton le_add_right lt_succ_self mod_lt mul_mod_left)
open BitVec hiding not_or
open Finset (mem_Ico)

namespace Pmm

def setRange (pmm : Pmm) (start count : Nat) : Pmm :=
  (List.range count).foldl (fun pmm p => pmm.bitmapSetBit (start + p)) pmm

def clearRange (pmm : Pmm) (start count : Nat) : Pmm :=
  (List.range count).foldl (fun pmm p => pmm.bitmapClearBit (start + p)) pmm

end Pmm

def pmmAllocPages (pmm : Pmm) (count : BitVec 64) : BitVec 64 × Pmm :=
  if count = 0 then (0, pmm)
  else if count = 1 then pmmAllocPage pmm
  else match findRun (fun page => !pmm.bit page) count.toNat pmm.totalPages with
    | none => (0, pmm)
    | some start => (BitVec.ofNat 64 (start * 4096), pmm.setRange start count.toNat)

def pmmFreePages (pmm : Pmm) (phys count : BitVec 64) : Pmm :=
  if count = 0 then pmm
  else if count = 1 then pmmFreePage pmm phys
  else if phys.toNat % 4096 ≠ 0 ∨ phys = 0 then pmm
  -- the end of the range is a 64-bit sum
  else if pmm.totalPages < (phys.toNat / 4096 + count.toNat) % 2 ^ 64 then pmm
  else pmm.clearRange (phys.toNat / 4096) count.toNat

namespace Pmm
variable {pmm : Pmm}

theorem setRange_bit (pmm : Pmm) (start count page : Nat) :
    (pmm.setRange start count).totalPages = pmm.totalPages ∧
      (pmm.setRange start count).bit page = (decide (page ∈ Ico start (start + count)) || pmm.bit page) := by
  induction count with
  | zero => simp [setRange]
  | succ count ih =>
    simp only [setRange, List.range_succ, List.foldl_append, List.foldl_cons, List.foldl_nil] at ih ⊢
    refine ⟨ih.1, ?_⟩
    rw [bit_set, ih.2, ← Bool.or_assoc, ← Bool.decide_or]
    congr 2
    simp only [mem_Ico, eq_iff_iff]
    omega

theorem clearRange_bit (pmm : Pmm) (start count page : Nat) :
    (pmm.clearRange start count).totalPages = pmm.totalPages ∧
      (pmm.clearRange start count).bit page = (!decide (page ∈ Ico start (start + count)) && pmm.bit page) := by
  induction count with
  | zero => simp [clearRange]
  | succ count ih =>
    simp only [clearRange, List.range_succ, List.foldl_append, List.foldl_cons, List.foldl_nil] at ih ⊢
    refine ⟨ih.1, ?_⟩
    rw [bit_clear, ih.2, ← Bool.and_assoc, ← Bool.not_or, ← Bool.decide_or]
    congr 3
    simp only [mem_Ico, eq_iff_iff]
    omega

theorem clearBit_eq_none : clearBit byte = none ↔ ∀ bit < 8, byte.getLsbD bit = true := by
  simp [clearBit]

theorem clearBit_lowest (found : clearBit byte = some low) : low < 8 ∧ ∀ bit < low, byte.getLsbD bit = true := by
  have small := List.mem_range.mp (List.mem_of_find?_eq_some found)
  refine ⟨small, ?_⟩
  intro bit below
  rw [clearBit, List.find?_range_eq_some] at found
  simpa using found.2.2 bit below

/-- A byte that the search passes over has all its bits set. -/
theorem skipped_full (skipped : (if pmm.bitmap i = 0xFF then none
      else (clearBit (pmm.bitmap i)).map fun bit => i * 8 + bit) = none) (inside : page / 8 = i) :
    pmm.bit page = true := by
  rw [bit, inside]
  have low : page % 8 < 8 := mod_lt _ (by decide)
  split at skipped
  · rename_i full
    rw [full]
    exact (by decide : ∀ bit < 8, getLsbD (0xFF : BitVec 8) bit = true) _ low
  · exact clearBit_eq_none.mp (Option.map_eq_none_iff.mp skipped) _ low

theorem firstFree_none (missing : pmm.firstFree = none) (managed : page < pmm.totalPages) :
    pmm.bit page = true := by
  rw [firstFree, List.findSome?_eq_none_iff] at missing
  refine skipped_full (missing (page / 8) (List.mem_range.mpr ?_)) rfl
  rw [bitmapSize]
  split
  · omega
  · omega

/-- The page found is the first whose bit is clear. -/
theorem firstFree_lowest (found : pmm.firstFree = some first) (below : page < first) : pmm.bit page = true := by
  obtain ⟨before, i, after, split, located, skipped⟩ := List.findSome?_eq_some_iff.mp found
  rw [List.range_eq_range', List.range'_eq_append_iff] at split
  obtain ⟨k, -, rfl, following⟩ := split
  obtain ⟨index, -⟩ := List.range'_eq_cons_iff.mp following.symm
  split at located
  · cases located
  obtain ⟨low, clear, rfl⟩ := Option.map_eq_some_iff.mp located
  obtain ⟨small, lower⟩ := clearBit_lowest clear
  by_cases same : page / 8 = i
  · rw [bit, same]
    exact lower _ (by omega)
  refine skipped_full (skipped (page / 8) ?_) rfl
  rw [List.mem_range'_1]
  omega

end Pmm

/-- A successful allocation hands out `count` free pages and takes just their bits. -/
structure HandsOut (pmm : Pmm) (count first : Nat) (later : Pmm) : Prop where
  inside : first + count ≤ pmm.totalPages
  clear : ∀ page ∈ Ico first (first + count), pmm.bit page = false
  total : later.totalPages = pmm.totalPages
  bits : ∀ page, later.bit page = (decide (page ∈ Ico first (first + count)) || pmm.bit page)

theorem pageAddress (pmm : Pmm) (inside : page ≤ pmm.totalPages) :
    (BitVec.ofNat 64 (page * 4096)).toNat = page * 4096 := by
  have := pmm.addressable
  rw [toNat_ofNat]
  omega

theorem pageAddress_eq_zero (pmm : Pmm) (inside : page ≤ pmm.totalPages) :
    BitVec.ofNat 64 (page * 4096) = 0 ↔ page = 0 := by
  have zero : (0 : BitVec 64).toNat = 0 := rfl
  rw [← toNat_inj, pageAddress pmm inside, zero]
  omega

theorem pmmAllocPage_cases (pmm : Pmm) :
    (pmmAllocPage pmm = (0, pmm) ∧ ∀ page < pmm.totalPages, pmm.bit page = true) ∨
      ∃ first later, pmmAllocPage pmm = (BitVec.ofNat 64 (first * 4096), later) ∧ HandsOut pmm 1 first later := by
  unfold pmmAllocPage
  cases found : pmm.firstFree with
  | none => exact .inl ⟨rfl, fun page => Pmm.firstFree_none found⟩
  | some first =>
    dsimp only
    split
    next beyond => exact .inl ⟨rfl, fun page inside => Pmm.firstFree_lowest found (by omega)⟩
    refine .inr ⟨first, _, rfl, ?_⟩
    constructor
    case inside => omega
    case clear =>
      intro page member
      rw [Ico_succ_singleton, mem_singleton] at member
      rw [member, Pmm.firstFree_clear found]
    case total => rfl
    case bits =>
      intro page
      simp only [Pmm.bit_set, Ico_succ_singleton, mem_singleton]

/-- The runs of free pages that `pmm_alloc_pages` looks for. -/
def Pmm.freeRuns (pmm : Pmm) (count : Nat) : Set Nat :=
  Support.freeRuns (fun page => !pmm.bit page) count pmm.totalPages

theorem pmmAllocPages_cases (pmm : Pmm) (several : 2 ≤ count.toNat) :
    (pmmAllocPages pmm count = (0, pmm) ∧ pmm.freeRuns count.toNat = ∅) ∨
      ∃ first later, pmmAllocPages pmm count = (BitVec.ofNat 64 (first * 4096), later) ∧
        IsLeast (pmm.freeRuns count.toNat) first ∧ HandsOut pmm count.toNat first later := by
  have nonzero : count ≠ 0 := by
    rintro rfl
    exact absurd several (by decide)
  have plural : count ≠ 1 := by
    rintro rfl
    exact absurd several (by decide)
  have positive : 0 < count.toNat := by omega
  rw [pmmAllocPages, if_neg nonzero, if_neg plural]
  cases found : findRun (fun page => !pmm.bit page) count.toNat pmm.totalPages with
  | none => exact .inl ⟨rfl, (findRun_eq_none positive).mp found⟩
  | some first =>
    have least := (findRun_eq_some positive).mp found
    refine .inr ⟨first, _, rfl, least, ?_⟩
    constructor
    case inside => exact least.1.1
    case clear =>
      intro page member
      rw [mem_Ico] at member
      simpa using least.1.2 page member.1 member.2
    case total => exact (pmm.setRange_bit first count.toNat 0).1
    case bits => exact fun page => (pmm.setRange_bit first count.toNat page).2

/-- Whatever the count: nothing happens, or that many pages are handed out. -/
theorem pmmAllocPages_handsOut (pmm : Pmm) (count : BitVec 64) : pmmAllocPages pmm count = (0, pmm) ∨
      ∃ first later, pmmAllocPages pmm count = (BitVec.ofNat 64 (first * 4096), later) ∧
        HandsOut pmm count.toNat first later ∧ 0 < count.toNat := by
  by_cases several : 2 ≤ count.toNat
  · rcases pmmAllocPages_cases pmm several with ⟨refused, -⟩ | ⟨first, later, found, -, handed⟩
    · exact .inl refused
    · exact .inr ⟨first, later, found, handed, by omega⟩
  rw [pmmAllocPages]
  split
  · exact .inl rfl
  rename_i nonzero
  have one : count = 1 := by
    rw [← toNat_inj] at nonzero ⊢
    change count.toNat ≠ 0 at nonzero
    change count.toNat = 1
    omega
  rw [if_pos one, one]
  rcases pmmAllocPage_cases pmm with ⟨full, -⟩ | ⟨first, later, found, handed⟩
  · exact .inl full
  · exact .inr ⟨first, later, found, handed, one_pos⟩

/-- Giving back pages of the allocator clears just their bits. -/
theorem pmmFreePages_bit (pmm : Pmm) (positive : 0 < count) (first_pos : first ≠ 0)
    (inside : first + count ≤ pmm.totalPages) (page : Nat) :
    let later := pmmFreePages pmm (BitVec.ofNat 64 (first * 4096)) (BitVec.ofNat 64 count)
    later.totalPages = pmm.totalPages ∧
      later.bit page = (!decide (page ∈ Ico first (first + count)) && pmm.bit page) := by
  have limit := pmm.addressable
  have address : (BitVec.ofNat 64 (first * 4096)).toNat = first * 4096 := pageAddress pmm (by omega)
  have nonzero : BitVec.ofNat 64 (first * 4096) ≠ 0 := fun zero =>
    first_pos ((pageAddress_eq_zero pmm (by omega)).mp zero)
  have size : (BitVec.ofNat 64 count).toNat = count := by
    rw [toNat_ofNat]
    omega
  have some_pages : BitVec.ofNat 64 count ≠ 0 := by
    rw [Ne, ← toNat_inj, size]
    simpa using ne_of_gt positive
  have valid : ¬ (first * 4096 % 4096 ≠ 0 ∨ BitVec.ofNat 64 (first * 4096) = 0) := by
    rintro (unaligned | zero)
    · exact unaligned (mul_mod_left _ _)
    · exact nonzero zero
  have number : first * 4096 / 4096 = first := Nat.mul_div_cancel _ (by decide)
  simp only [pmmFreePages, if_neg some_pages, address, if_neg valid, number, size]
  by_cases single : BitVec.ofNat 64 count = 1
  · have one : count = 1 := by
      rw [← size, single]
      rfl
    rw [if_pos single, pmmFreePage, address, if_neg valid, number, if_neg (by omega), Pmm.bit_clear, one]
    simp only [Ico_succ_singleton, mem_singleton, and_true]
    rfl
  · rw [if_neg single, if_neg (by omega)]
    exact pmm.clearRange_bit first count page

structure PageRange where
  first : Nat
  count : Nat
deriving DecidableEq

namespace PageRange
variable {held part : PageRange}

def pages (range : PageRange) : Finset Nat := Finset.Ico range.first (range.first + range.count)

/-- What is left of a range after a part of it is given back. -/
def without (held part : PageRange) : List PageRange :=
  [⟨held.first, part.first - held.first⟩,
   ⟨part.first + part.count, held.first + held.count - (part.first + part.count)⟩].filter fun left => 0 < left.count

theorem mem_without (some_pages : 0 < part.count) (inside : part.pages ⊆ held.pages) (page : Nat) :
    (∃ left ∈ held.without part, page ∈ left.pages) ↔ page ∈ held.pages ∧ page ∉ part.pages := by
  have first := mem_Ico.mp (inside (mem_Ico.mpr ⟨Nat.le_refl _, Nat.lt_add_of_pos_right some_pages⟩))
  simp only [without, List.mem_filter, List.mem_cons, List.not_mem_nil, or_false, pages, mem_Ico]
  constructor
  · rintro ⟨left, ⟨rfl | rfl, -⟩, low, high⟩
    all_goals
      dsimp only at low high
      omega
  · rintro ⟨within, outside⟩
    by_cases below : page < part.first
    · exact ⟨_, ⟨.inl rfl, by simp; omega⟩, by dsimp only; omega⟩
    · exact ⟨_, ⟨.inr rfl, by simp; omega⟩, by dsimp only; omega⟩

theorem without_disjoint (held part : PageRange) :
    (held.without part).Pairwise (fun a b => Disjoint a.pages b.pages) := by
  apply List.Pairwise.filter
  rw [List.pairwise_pair, disjoint_left]
  intro page low high
  simp only [pages, mem_Ico] at low high
  omega

end PageRange

/-- The allocator and the ranges it has handed out and not got back. -/
structure Ledger where
  pmm : Pmm
  outstanding : List PageRange

namespace Ledger

def handOut (ledger : Ledger) (result : BitVec 64 × Pmm) (count : Nat) : Ledger where
  pmm := result.2
  outstanding := if result.1 = 0 then ledger.outstanding else ⟨result.1.toNat / 4096, count⟩ :: ledger.outstanding

def giveBack (ledger : Ledger) (held part : PageRange) (later : Pmm) : Ledger where
  pmm := later
  outstanding := held.without part ++ ledger.outstanding.erase held

end Ledger

/-- One call. A range is given back as a whole or in parts. -/
inductive PmmStep : Ledger → Ledger → Prop where
  | allocPage (ledger) : PmmStep ledger (ledger.handOut (pmmAllocPage ledger.pmm) 1)
  | allocPages (ledger) (count : BitVec 64) :
      PmmStep ledger (ledger.handOut (pmmAllocPages ledger.pmm count) count.toNat)
  | freePage (ledger) {held : PageRange} (handed : held ∈ ledger.outstanding) {page : Nat}
      (inside : page ∈ held.pages) :
      PmmStep ledger (ledger.giveBack held ⟨page, 1⟩ (pmmFreePage ledger.pmm (BitVec.ofNat 64 (page * 4096))))
  | freePages (ledger) {held part : PageRange} (handed : held ∈ ledger.outstanding) (some_pages : 0 < part.count)
      (inside : part.pages ⊆ held.pages) :
      PmmStep ledger (ledger.giveBack held part
        (pmmFreePages ledger.pmm (BitVec.ofNat 64 (part.first * 4096)) (BitVec.ofNat 64 part.count)))

/-- The set bits are the reserved pages and those of the outstanding ranges, which are disjoint. -/
structure Accounted (reserved : Nat → Bool) (ledger : Ledger) : Prop where
  bits : ∀ page, ledger.pmm.bit page = true ↔
    reserved page = true ∨ ∃ range ∈ ledger.outstanding, page ∈ range.pages
  apart : ledger.outstanding.Pairwise fun a b => Disjoint a.pages b.pages
  unreserved : ∀ range ∈ ledger.outstanding, ∀ page ∈ range.pages, reserved page = false
  managed : ∀ range ∈ ledger.outstanding, ∀ page ∈ range.pages, page < ledger.pmm.totalPages

namespace Accounted
variable {reserved : Nat → Bool} {ledger : Ledger} {later : Pmm} {held part : PageRange}

section
variable (accounted : Accounted reserved ledger)
include accounted

theorem handOut (zero : reserved 0 = true) (handed : HandsOut ledger.pmm count first later) (positive : 0 < count) :
    Accounted reserved (ledger.handOut (BitVec.ofNat 64 (first * 4096), later) count) := by
  have clear : ∀ page ∈ Ico first (first + count),
      ¬ (reserved page = true ∨ ∃ range ∈ ledger.outstanding, page ∈ range.pages) := by
    intro page member taken
    have := (accounted.bits page).mpr taken
    rw [handed.clear page member] at this
    cases this
  have bound : first ≤ ledger.pmm.totalPages := le_trans (le_add_right _ _) handed.inside
  have first_pos : first ≠ 0 := by
    rintro rfl
    exact clear 0 (mem_Ico.mpr ⟨le_refl _, by omega⟩) (.inl zero)
  have nonzero : BitVec.ofNat 64 (first * 4096) ≠ 0 := fun same =>
    first_pos ((pageAddress_eq_zero ledger.pmm bound).mp same)
  have number : first * 4096 / 4096 = first := Nat.mul_div_cancel _ (by decide)
  simp only [Ledger.handOut, if_neg nonzero, pageAddress ledger.pmm bound, number]
  constructor
  case bits =>
    intro page
    simp only [handed.bits, Bool.or_eq_true, decide_eq_true_eq, accounted.bits, List.mem_cons,
      exists_eq_or_imp, PageRange.pages]
    exact or_left_comm
  case apart =>
    refine List.pairwise_cons.mpr ⟨?_, accounted.apart⟩
    intro range held
    rw [disjoint_left]
    intro page member inside
    exact clear page member (.inr ⟨range, held, inside⟩)
  case unreserved =>
    intro range held page member
    cases held with
    | head =>
      have free := clear page member
      rw [not_or] at free
      exact Bool.eq_false_iff.mpr free.1
    | tail _ earlier => exact accounted.unreserved range earlier page member
  case managed =>
    intro range held page member
    rw [handed.total]
    cases held with
    | head => exact lt_of_lt_of_le (mem_Ico.mp member).2 handed.inside
    | tail _ earlier => exact accounted.managed range earlier page member

theorem giveBack (handed : held ∈ ledger.outstanding) (some_pages : 0 < part.count) (inside : part.pages ⊆ held.pages)
    (total : later.totalPages = ledger.pmm.totalPages)
    (bits : ∀ page, later.bit page = (!decide (page ∈ part.pages) && ledger.pmm.bit page)) :
    Accounted reserved (ledger.giveBack held part later) := by
  have parted : ∀ range ∈ held.without part ++ ledger.outstanding.erase held, ∀ page ∈ range.pages,
      ∃ whole ∈ ledger.outstanding, page ∈ whole.pages := by
    intro range member page in_range
    cases List.mem_append.mp member with
    | inl left => exact ⟨held, handed, ((PageRange.mem_without some_pages inside page).mp ⟨range, left, in_range⟩).1⟩
    | inr other => exact ⟨range, List.mem_of_mem_erase other, in_range⟩
  have split := accounted.apart.perm (List.perm_cons_erase handed) fun disjoint => disjoint.symm
  obtain ⟨separate, others⟩ := List.pairwise_cons.mp split
  constructor
  case bits =>
    intro page
    have whole : (∃ range ∈ ledger.outstanding, page ∈ range.pages) ↔
        page ∈ held.pages ∨ ∃ range ∈ ledger.outstanding.erase held, page ∈ range.pages := by
      simp [(List.perm_cons_erase handed).mem_iff, exists_eq_or_imp]
    have left := PageRange.mem_without some_pages inside page
    have unreserved := accounted.unreserved held handed page
    have elsewhere : ∀ range ∈ ledger.outstanding.erase held, page ∈ range.pages → page ∉ held.pages :=
      fun range other member both => disjoint_left.mp (separate range other) both member
    simp only [Ledger.giveBack, bits, Bool.and_eq_true, Bool.not_eq_true', decide_eq_false_iff_not, accounted.bits,
      whole, List.mem_append, or_and_right, exists_or, left]
    have within : page ∈ part.pages → page ∈ held.pages := fun member => inside member
    constructor
    · rintro ⟨outside, kept | whole | other⟩
      · exact .inl kept
      · exact .inr (.inl ⟨whole, outside⟩)
      · exact .inr (.inr other)
    · rintro (kept | remains | ⟨range, other, member⟩)
      · refine ⟨fun member => ?_, .inl kept⟩
        rw [unreserved (within member)] at kept
        cases kept
      · exact ⟨remains.2, .inr (.inl remains.1)⟩
      · exact ⟨fun freed => elsewhere range other member (within freed), .inr (.inr ⟨range, other, member⟩)⟩
  case apart =>
    refine List.pairwise_append.mpr ⟨held.without_disjoint part, others, ?_⟩
    intro left remains range other
    refine (separate range other).mono_left ?_
    exact fun page member => ((PageRange.mem_without some_pages inside page).mp ⟨left, remains, member⟩).1
  case unreserved =>
    intro range member page in_range
    obtain ⟨whole, outstanding, in_whole⟩ := parted range member page in_range
    exact accounted.unreserved whole outstanding page in_whole
  case managed =>
    intro range member page in_range
    obtain ⟨whole, outstanding, in_whole⟩ := parted range member page in_range
    exact lt_of_lt_of_eq (accounted.managed whole outstanding page in_whole) total.symm

theorem refused (count : Nat) : Accounted reserved (ledger.handOut (0, ledger.pmm) count) := by
  simpa only [Ledger.handOut, if_pos] using accounted

theorem step (zero : reserved 0 = true) (call : PmmStep ledger next) : Accounted reserved next := by
  have page_pos : ∀ {range page}, range ∈ ledger.outstanding → page ∈ range.pages → page ≠ 0 := by
    rintro range page handed member rfl
    have free := accounted.unreserved range handed 0 member
    rw [zero] at free
    cases free
  cases call with
  | allocPage =>
    rcases pmmAllocPage_cases ledger.pmm with ⟨full, -⟩ | ⟨first, later, found, handed⟩
    · rw [full]
      exact accounted.refused 1
    · rw [found]
      exact accounted.handOut zero handed one_pos
  | allocPages count =>
    rcases pmmAllocPages_handsOut ledger.pmm count with refused | ⟨first, later, found, handed, positive⟩
    · rw [refused]
      exact accounted.refused _
    · rw [found]
      exact accounted.handOut zero handed positive
  | @freePage held handed page inside =>
    have part : (⟨page, 1⟩ : PageRange).pages ⊆ held.pages := by
      rwa [PageRange.pages, Ico_succ_singleton, singleton_subset_iff]
    have bits := pmmFreePages_bit ledger.pmm one_pos (page_pos handed inside) (accounted.managed held handed page inside)
    exact accounted.giveBack handed one_pos part (bits 0).1 (fun other => (bits other).2)
  | @freePages held part handed some_pages inside =>
    have first : part.first ∈ part.pages := mem_Ico.mpr ⟨le_refl _, by omega⟩
    have last : part.first + part.count - 1 ∈ part.pages := mem_Ico.mpr ⟨by omega, by omega⟩
    have bound := accounted.managed held handed _ (inside last)
    have bits := pmmFreePages_bit ledger.pmm some_pages (page_pos handed (inside first)) (by omega)
    exact accounted.giveBack handed some_pages inside (bits 0).1 fun page => (bits page).2

theorem run (zero : reserved 0 = true) (calls : Relation.ReflTransGen PmmStep ledger last) : Accounted reserved last := by
  induction calls with
  | refl => exact accounted
  | tail _ call ih => exact ih.step zero call

end

end Accounted

theorem pmmAllocPage_eq_zero (pmm : Pmm) (reserved : pmm.bit 0 = true) :
    (pmmAllocPage pmm).1 = 0 ↔ ∀ page < pmm.totalPages, pmm.bit page = true := by
  rcases pmmAllocPage_cases pmm with ⟨full, taken⟩ | ⟨first, later, found, handed⟩
  · simpa only [full, true_iff] using taken
  have member : first ∈ Ico first (first + 1) := mem_Ico.mpr ⟨le_refl _, lt_succ_self _⟩
  have clear := handed.clear first member
  have inside := handed.inside
  rw [found, pageAddress_eq_zero pmm (by omega)]
  constructor
  · rintro rfl
    rw [reserved] at clear
    cases clear
  · intro full
    rw [full first (by omega)] at clear
    cases clear

theorem pmmAllocPages_eq_zero (pmm : Pmm) (reserved : pmm.bit 0 = true)
    (several : 2 ≤ count.toNat) : (pmmAllocPages pmm count).1 = 0 ↔ pmm.freeRuns count.toNat = ∅ := by
  rcases pmmAllocPages_cases pmm several with ⟨refused, empty⟩ | ⟨first, later, found, least, handed⟩
  · simpa only [refused, true_iff] using empty
  have inside := handed.inside
  rw [found, pageAddress_eq_zero pmm (by omega)]
  constructor
  · rintro rfl
    have clear := handed.clear 0 (mem_Ico.mpr ⟨le_refl _, by omega⟩)
    rw [reserved] at clear
    cases clear
  · intro empty
    have member := least.1
    rw [empty] at member
    exact absurd member (Set.notMem_empty first)

theorem pmmAllocPages_lowest (pmm : Pmm) (several : 2 ≤ count.toNat)
    (least : IsLeast (pmm.freeRuns count.toNat) first) :
    (pmmAllocPages pmm count).1 = BitVec.ofNat 64 (first * 4096) := by
  rcases pmmAllocPages_cases pmm several with ⟨-, empty⟩ | ⟨other, later, found, lowest, -⟩
  · have member := least.1
    rw [empty] at member
    exact absurd member (Set.notMem_empty first)
  · rw [found, least.unique lowest]

/-- After any calls, from a bitmap in which page 0 is reserved: the bits say what is handed
out, no page is handed out twice, and no free page or run is missed. -/
theorem pmm_accounts_every_page (initial : Pmm) (reserved : initial.bit 0 = true)
    (calls : Relation.ReflTransGen PmmStep ⟨initial, []⟩ ledger) :
    (∀ page, ledger.pmm.bit page = true ↔
      initial.bit page = true ∨ ∃ range ∈ ledger.outstanding, page ∈ range.pages) ∧
    ledger.outstanding.Pairwise (fun a b => Disjoint a.pages b.pages) ∧
    (∀ range ∈ ledger.outstanding, ∀ page ∈ range.pages, initial.bit page = false) ∧
    (∀ count : BitVec 64, 2 ≤ count.toNat →
      ((pmmAllocPages ledger.pmm count).1 = 0 ↔ ledger.pmm.freeRuns count.toNat = ∅) ∧
      ∀ first, IsLeast (ledger.pmm.freeRuns count.toNat) first →
        (pmmAllocPages ledger.pmm count).1 = BitVec.ofNat 64 (first * 4096)) ∧
    ((pmmAllocPage ledger.pmm).1 = 0 ↔ ∀ page < ledger.pmm.totalPages, ledger.pmm.bit page = true) := by
  have start : Accounted initial.bit ⟨initial, []⟩ := by
    constructor
    case bits => simp
    case apart => exact List.Pairwise.nil
    case unreserved => exact fun range held => absurd held List.not_mem_nil
    case managed => exact fun range held => absurd held List.not_mem_nil
  have accounted := start.run reserved calls
  have zero := (accounted.bits 0).mpr (.inl reserved)
  refine ⟨accounted.bits, accounted.apart, accounted.unreserved, ?_, pmmAllocPage_eq_zero ledger.pmm zero⟩
  intro count several
  exact ⟨pmmAllocPages_eq_zero ledger.pmm zero several, fun first => pmmAllocPages_lowest ledger.pmm several⟩

/-- Ten pages, of which page 0 is reserved. -/
def tenPages : Pmm := ⟨Function.update (fun _ => 0) 0 1, 10, by decide⟩

/-- Pages 1 to 3 are taken, page 2 is given back, and the next page handed out is page 2. -/
def tenPagesLedger : Ledger :=
  let taken := (⟨tenPages, []⟩ : Ledger).handOut (pmmAllocPages tenPages 3) 3
  taken.giveBack ⟨1, 3⟩ ⟨2, 1⟩ (pmmFreePage taken.pmm 0x2000)

theorem pmm_accounts_every_page_ten : tenPages.bit 0 = true ∧ tenPagesLedger.outstanding = [⟨1, 1⟩, ⟨3, 1⟩] ∧
      ((pmmAllocPage tenPagesLedger.pmm).1 = 0 ↔
        ∀ page < tenPagesLedger.pmm.totalPages, tenPagesLedger.pmm.bit page = true) := by
  have first : PmmStep ⟨tenPages, []⟩ ((⟨tenPages, []⟩ : Ledger).handOut (pmmAllocPages tenPages 3) 3) :=
    .allocPages _ 3
  have second : PmmStep ((⟨tenPages, []⟩ : Ledger).handOut (pmmAllocPages tenPages 3) 3) tenPagesLedger :=
    @PmmStep.freePage _ ⟨1, 3⟩ (by decide) 2 (by decide)
  refine ⟨by decide, by decide, ?_⟩
  exact (pmm_accounts_every_page tenPages (by decide) (.tail (.single first) second)).2.2.2.2

end Sirius.Memory
