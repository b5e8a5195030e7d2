import Sirius.Support.BitField
import Mathlib.Data.List.Basic
import Mathlib.Algebra.GroupWithZero.Nat

/-! The page allocator of `pmm.c`, one bit a page. Physical addresses have 52 bits, so
that a page number fits the 40-bit frame fields of the page tables. -/
namespace Sirius.Memory
open Support Function
open List hiding count
open BitVec hiding not_or or_assoc

abbrev Frame := BitVec 40

def frameOf (phys : BitVec 64) : Frame := field 12 40 phys

def addrOf (frame : Frame) : BitVec 64 := frame.setWidth 64 <<< 12

structure Pmm where
  bitmap : Nat → BitVec 8
  totalPages : Nat
  addressable : totalPages ≤ 2 ^ 40

namespace Pmm
variable (pmm : Pmm)

def bitmapSize : Nat := pmm.totalPages / 8 + if pmm.totalPages % 8 ≠ 0 then 1 else 0

def bit (page : Nat) : Bool := (pmm.bitmap (page / 8)).getLsbD (page % 8)

def bitmapSetBit (page : Nat) : Pmm :=
  let byte := pmm.bitmap (page / 8) ||| BitVec.ofNat 8 (1 <<< (page % 8))
  { pmm with bitmap := update pmm.bitmap (page / 8) byte }

def bitmapClearBit (page : Nat) : Pmm :=
  let byte := pmm.bitmap (page / 8) &&& ~~~ BitVec.ofNat 8 (1 <<< (page % 8))
  { pmm with bitmap := update pmm.bitmap (page / 8) byte }

/-- The lowest clear bit of a byte. -/
def clearBit (byte : BitVec 8) : Option Nat := (range 8).find? fun bit => !byte.getLsbD bit

/-- The first page whose bit is clear; full bytes are skipped as a whole. -/
def firstFree : Option Nat :=
  (range pmm.bitmapSize).findSome? fun i =>
    if pmm.bitmap i = 0xFF then none else (clearBit (pmm.bitmap i)).map fun bit => i * 8 + bit

end Pmm

/-- The address of the page and the bitmap in which it is taken, or 0. -/
def pmmAllocPage (pmm : Pmm) : BitVec 64 × Pmm :=
  match pmm.firstFree with
  | none => (0, pmm)
  | some page =>
    -- the last byte may have bits beyond the pages there are
    if pmm.totalPages ≤ page then (0, pmm)
    else (BitVec.ofNat 64 (page * 4096), pmm.bitmapSetBit page)

def pmmFreePage (pmm : Pmm) (phys : BitVec 64) : Pmm :=
  if phys.toNat % 4096 ≠ 0 ∨ phys = 0 then pmm
  else if pmm.totalPages ≤ phys.toNat / 4096 then pmm
  else pmm.bitmapClearBit (phys.toNat / 4096)

theorem addrOf_toNat (frame : Frame) : (addrOf frame).toNat = frame.toNat * 4096 := by
  simp only [addrOf, toNat_shiftLeft, toNat_setWidth, Nat.shiftLeft_eq]
  omega

theorem addrOf_masked (frame : Frame) : addrOf frame &&& ~~~ 0xFFF = addrOf frame := by
  apply eq_of_toNat_eq
  rw [pageMask_toNat, addrOf_toNat]
  omega

theorem frameOf_toNat (phys : BitVec 64) : (frameOf phys).toNat = phys.toNat / 4096 % 2 ^ 40 := by
  simp only [frameOf, field, extractLsb'_toNat, Nat.shiftRight_eq_div_pow]

@[simp] theorem frameOf_addrOf (frame : Frame) : frameOf (addrOf frame) = frame := by
  apply eq_of_toNat_eq
  rw [frameOf_toNat, addrOf_toNat]
  omega

/-- Page-aligned addresses of 52 bits are the addresses of frames. -/
theorem addrOf_frameOf (aligned : phys.toNat % 4096 = 0) (small : phys.toNat < 2 ^ 52) :
    addrOf (frameOf phys) = phys := by
  apply eq_of_toNat_eq
  rw [addrOf_toNat, frameOf_toNat]
  omega

namespace Pmm
variable {pmm : Pmm}

/-- Never handed out as long as it stays so: taken, or not a page of the allocator. -/
def InUse (pmm : Pmm) (frame : Frame) : Prop :=
  pmm.bit frame.toNat = true ∨ pmm.totalPages ≤ frame.toNat

theorem bit_set (pmm : Pmm) (page other : Nat) :
    (pmm.bitmapSetBit page).bit other = (decide (other = page) || pmm.bit other) := by
  have place : other = page ↔ other / 8 = page / 8 ∧ page % 8 = other % 8 := by omega
  simp only [bit, bitmapSetBit, update_apply, place]
  split
  · rename_i same
    rw [getLsbD_or, getLsbD_ofNat, Nat.one_shiftLeft, Nat.testBit_two_pow, same]
    simp [Nat.mod_lt, Bool.or_comm]
  · rename_i apart
    simp [apart]

theorem bit_clear (pmm : Pmm) (page other : Nat) :
    (pmm.bitmapClearBit page).bit other = (!decide (other = page) && pmm.bit other) := by
  have place : other = page ↔ other / 8 = page / 8 ∧ page % 8 = other % 8 := by omega
  simp only [bit, bitmapClearBit, update_apply, place]
  split
  · rename_i same
    rw [getLsbD_and, getLsbD_not, getLsbD_ofNat, Nat.one_shiftLeft, Nat.testBit_two_pow, same]
    simp [Nat.mod_lt, Bool.and_comm]
  · rename_i apart
    simp [apart]

theorem firstFree_clear (found : pmm.firstFree = some page) : pmm.bit page = false := by
  obtain ⟨i, -, located⟩ := exists_of_findSome?_eq_some found
  split at located
  · cases located
  obtain ⟨low, first, rfl⟩ := Option.map_eq_some_iff.mp located
  have clear := find?_some first
  have small := mem_range.mp (mem_of_find?_eq_some first)
  have quotient : (i * 8 + low) / 8 = i := by omega
  have remainder : (i * 8 + low) % 8 = low := by omega
  simpa only [bit, quotient, remainder, Bool.not_eq_true'] using clear

theorem firstFree_of_full (full : ∀ i < n, pmm.bitmap i = 0xFF) (inside : n < pmm.bitmapSize)
    (clear : clearBit (pmm.bitmap n) = some low) : pmm.firstFree = some (n * 8 + low) := by
  have partly : pmm.bitmap n ≠ 0xFF := by
    intro whole
    rw [whole, show clearBit 0xFF = none by decide] at clear
    cases clear
  rw [firstFree, findSome?_eq_some_iff]
  obtain ⟨rest, split⟩ : ∃ rest, range pmm.bitmapSize = range n ++ n :: rest := by
    obtain ⟨k, size⟩ := Nat.exists_eq_add_of_lt inside
    rw [size, Nat.add_assoc, range_add, range_succ_eq_map, map_cons, Nat.add_zero]
    exact ⟨_, rfl⟩
  refine ⟨range n, n, rest, split, ?_, ?_⟩
  · rw [if_neg partly, clear]
    rfl
  · intro i below
    rw [if_pos (full i (mem_range.mp below))]

end Pmm

/-- A page that is handed out was free, is not page 0, and is taken afterwards. -/
theorem pmmAllocPage_spec (allocated : pmmAllocPage pmm = (phys, later)) (nonzero : phys ≠ 0) :
    addrOf (frameOf phys) = phys ∧ ¬ pmm.InUse (frameOf phys) ∧ later.totalPages = pmm.totalPages ∧
      ∀ frame, later.InUse frame ↔ frame = frameOf phys ∨ pmm.InUse frame := by
  unfold pmmAllocPage at allocated
  split at allocated
  · cases allocated
    exact absurd rfl nonzero
  rename_i page found
  split at allocated
  · cases allocated
    exact absurd rfl nonzero
  rename_i managed
  cases allocated
  have limit := pmm.addressable
  have value : (BitVec.ofNat 64 (page * 4096)).toNat = page * 4096 := by
    rw [toNat_ofNat]
    omega
  have number : (frameOf (BitVec.ofNat 64 (page * 4096))).toNat = page := by
    rw [frameOf_toNat, value]
    omega
  refine ⟨addrOf_frameOf (by omega) (by omega), ?_, rfl, ?_⟩
  · rw [Pmm.InUse, number, Pmm.firstFree_clear found]
    simpa using managed
  intro frame
  have same : frame.toNat = page ↔ frame = frameOf (BitVec.ofNat 64 (page * 4096)) := by
    constructor
    · exact fun equal => eq_of_toNat_eq (equal.trans number.symm)
    · rintro rfl
      exact number
  simp only [Pmm.InUse, Pmm.bit_set, Bool.or_eq_true, decide_eq_true_eq, same, or_assoc]
  rfl

theorem pmmAllocPage_keeps (allocated : pmmAllocPage pmm = (phys, later))
    (used : pmm.InUse frame) : later.InUse frame := by
  by_cases zero : phys = 0
  · unfold pmmAllocPage at allocated
    split at allocated
    · cases allocated
      exact used
    split at allocated
    · cases allocated
      exact used
    · cases allocated
      cases used with
      | inl taken => exact .inl (by rw [Pmm.bit_set, taken, Bool.or_true])
      | inr beyond => exact .inr beyond
  · exact ((pmmAllocPage_spec allocated zero).2.2.2 frame).mpr (.inr used)

theorem pmmFreePage_addrOf (pmm : Pmm) (frame : Frame) : pmmFreePage pmm (addrOf frame) =
      if frame = 0 ∨ pmm.totalPages ≤ frame.toNat then pmm else pmm.bitmapClearBit frame.toNat := by
  have zero : addrOf frame = 0 ↔ frame = 0 := by
    constructor
    · intro same
      rw [← frameOf_addrOf frame, same]
      rfl
    · rintro rfl
      rfl
  have aligned : (addrOf frame).toNat % 4096 = 0 := by
    rw [addrOf_toNat]
    exact Nat.mul_mod_left _ _
  have number : (addrOf frame).toNat / 4096 = frame.toNat := by
    rw [addrOf_toNat]
    exact Nat.mul_div_cancel _ (by decide)
  rw [pmmFreePage, number, aligned]
  by_cases first : frame = 0
  · rw [if_pos (.inr (zero.mpr first)), if_pos (.inl first)]
  have passes : ¬ (0 ≠ 0 ∨ addrOf frame = 0) := by
    rintro (differ | same)
    · exact differ rfl
    · exact first (zero.mp same)
  simp only [if_neg passes, first, false_or]

theorem pmmFreePage_bit (pmm : Pmm) (frame : Frame) (page : Nat) :
    (pmmFreePage pmm (addrOf frame)).totalPages = pmm.totalPages ∧ (pmmFreePage pmm (addrOf frame)).bit page =
        (pmm.bit page && !decide (frame.toNat = page ∧ frame ≠ 0 ∧ page < pmm.totalPages)) := by
  rw [pmmFreePage_addrOf]
  by_cases skipped : frame = 0 ∨ pmm.totalPages ≤ frame.toNat
  · have kept : ¬ (frame.toNat = page ∧ frame ≠ 0 ∧ page < pmm.totalPages) := by
      rintro ⟨rfl, nonzero, inside⟩
      cases skipped with
      | inl zero => exact nonzero zero
      | inr beyond => omega
    rw [if_pos skipped, decide_eq_false kept, Bool.not_false, Bool.and_true]
    exact ⟨rfl, rfl⟩
  · rw [if_neg skipped, Pmm.bit_clear]
    rw [not_or, Nat.not_le] at skipped
    refine ⟨rfl, ?_⟩
    have freed : (frame.toNat = page ∧ frame ≠ 0 ∧ page < pmm.totalPages) ↔ page = frame.toNat := by
      constructor
      · rintro ⟨rfl, -⟩
        rfl
      · rintro rfl
        exact ⟨rfl, skipped⟩
    simp only [freed, Bool.and_comm]

/-- Freeing frames clears their bits and no others. -/
theorem foldl_pmmFreePage_bit (pmm : Pmm) (frames : List Frame) (page : Nat) :
    ((frames.map addrOf).foldl pmmFreePage pmm).totalPages = pmm.totalPages ∧
      ((frames.map addrOf).foldl pmmFreePage pmm).bit page =
        (pmm.bit page && !decide (∃ frame ∈ frames, frame.toNat = page ∧ frame ≠ 0 ∧ page < pmm.totalPages)) := by
  induction frames generalizing pmm with
  | nil => simp
  | cons frame rest ih =>
    have head := pmmFreePage_bit pmm frame page
    obtain ⟨total, bits⟩ := ih (pmmFreePage pmm (addrOf frame))
    rw [map_cons, foldl_cons, total, bits, head.1, head.2]
    refine ⟨rfl, ?_⟩
    simp [Bool.and_assoc]

/-- What the next calls of `pmm_alloc_page` return. -/
def allocations : Nat → Pmm → List (BitVec 64)
  | 0, _ => []
  | count + 1, pmm => (pmmAllocPage pmm).1 :: allocations count (pmmAllocPage pmm).2

theorem not_mem_allocations (allocated : pmmAllocPage pmm = (new, later)) :
    0 ∉ allocations (count + 1) pmm ↔ new ≠ 0 ∧ 0 ∉ allocations count later := by
  simp only [allocations, allocated, mem_cons, not_or]
  rw [ne_comm]

end Sirius.Memory
