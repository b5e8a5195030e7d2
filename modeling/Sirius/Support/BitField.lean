import Mathlib.Data.Nat.Basic

/-! Bit fields of a word: a field is read and written by its lowest bit and its width,
as a C compiler lays out packed structures. -/
namespace Sirius.Support
open BitVec List
variable {n len other : Nat}

def field (lo len : Nat) (word : BitVec n) : BitVec len := word.extractLsb' lo len

def fieldMask (n lo len : Nat) : BitVec n := (BitVec.allOnes len).setWidth n <<< lo

def setField (lo : Nat) (value : BitVec len) (word : BitVec n) : BitVec n :=
  (word &&& ~~~ fieldMask n lo len) ||| (value.setWidth n <<< lo &&& fieldMask n lo len)

section
variable (lo : Nat) (value : BitVec len) (word : BitVec n) (inside : lo + len ≤ n)
include lo value word inside

theorem getLsbD_setField (i : Nat) : (setField lo value word).getLsbD i =
      if lo ≤ i ∧ i < lo + len then value.getLsbD (i - lo) else word.getLsbD i := by
  simp only [setField, fieldMask, getLsbD_or, getLsbD_and, getLsbD_not,
    getLsbD_shiftLeft, getLsbD_setWidth, getLsbD_allOnes]
  by_cases within : lo ≤ i ∧ i < lo + len
  · have small : i < n := by omega
    have shifted : i - lo < len := by omega
    have bounded : i - lo < n := by omega
    rw [if_pos within]
    simp [small, shifted, bounded, Nat.not_lt.mpr within.1]
  rw [if_neg within]
  by_cases below : i < lo
  · by_cases small : i < n
    · simp [below, small]
    · simp [small, getLsbD_of_ge word i (by omega)]
  · have beyond : ¬ i - lo < len := by omega
    by_cases small : i < n
    · simp [below, small, beyond]
    · simp [small, getLsbD_of_ge word i (by omega)]

theorem getLsbD_setField_of_disjoint (apart : i < lo ∨ lo + len ≤ i) :
    (setField lo value word).getLsbD i = word.getLsbD i := by
  rw [getLsbD_setField lo value word inside, if_neg (by omega)]

theorem field_setField : field lo len (setField lo value word) = value := by
  apply eq_of_getLsbD_eq
  intro i small
  simp only [field, getLsbD_extractLsb', small, decide_true, Bool.true_and,
    getLsbD_setField lo value word inside]
  rw [if_pos (by omega), Nat.add_sub_cancel_left]

theorem field_setField_of_disjoint (start : Nat) (apart : start + other ≤ lo ∨ lo + len ≤ start) :
    field start other (setField lo value word) = field start other word := by
  apply eq_of_getLsbD_eq
  intro i small
  simp only [field, getLsbD_extractLsb', small, decide_true, Bool.true_and,
    getLsbD_setField lo value word inside]
  rw [if_neg (by omega)]

end

/-- Copy the listed fields of one word into another. -/
def copyFields (layout : List (Nat × Nat)) (source target : BitVec n) : BitVec n :=
  layout.foldl (fun word part => setField part.1 (field part.1 part.2 source) word) target

theorem getLsbD_copyFields (layout : List (Nat × Nat)) (source target : BitVec n)
    (inside : ∀ part ∈ layout, part.1 + part.2 ≤ n) (i : Nat) :
    (copyFields layout source target).getLsbD i =
      if layout.any (fun part => part.1 ≤ i && i < part.1 + part.2) then source.getLsbD i
      else target.getLsbD i := by
  induction layout generalizing target with
  | nil => simp [copyFields]
  | cons part rest ih =>
    have here := inside part mem_cons_self
    have later := ih (setField part.1 (field part.1 part.2 source) target)
      (fun p member => inside p (mem_cons_of_mem _ member))
    simp only [copyFields, foldl_cons] at later ⊢
    rw [later, any_cons, getLsbD_setField _ _ _ here]
    by_cases covered : rest.any (fun p => p.1 ≤ i && i < p.1 + p.2) = true
    · simp [covered]
    by_cases within : part.1 ≤ i ∧ i < part.1 + part.2
    · have shifted : i - part.1 < part.2 := by omega
      simp [covered, within, field, shifted]
    · have outside : (decide (part.1 ≤ i) && decide (i < part.1 + part.2)) = false := by
        rw [← Bool.not_eq_true, Bool.and_eq_true, decide_eq_true_eq, decide_eq_true_eq]
        exact within
      simp [covered, within, outside]

theorem pageMask_toNat (addr : BitVec 64) : (addr &&& ~~~ (0xFFF : BitVec 64)).toNat = addr.toNat / 4096 * 4096 := by
  have mask : ∀ place : Fin 64, (~~~ (0xFFF : BitVec 64)).getLsbD place = decide (12 ≤ place.val) := by decide
  have shifts : addr &&& ~~~ (0xFFF : BitVec 64) = addr >>> 12 <<< 12 := by
    apply eq_of_getLsbD_eq
    intro place small
    rw [getLsbD_and, mask ⟨place, small⟩, getLsbD_shiftLeft, getLsbD_ushiftRight]
    by_cases high : 12 ≤ place
    · have index : 12 + (place - 12) = place := by omega
      simp [high, small, Nat.not_lt.mpr high, index]
    · simp [high, Nat.not_le.mp high]
  rw [shifts, toNat_shiftLeft, toNat_ushiftRight, Nat.shiftLeft_eq, Nat.shiftRight_eq_div_pow]
  omega

end Sirius.Support
