import Mathlib.Order.Bounds.Basic

/-! The search of a bitmap for consecutive free positions, in one ascending pass that
counts the free positions seen last. What it finds is the lowest run. -/
namespace Sirius.Support
variable {free : Nat → Bool} {count limit : Nat}

/-- The positions at which a run of `count` free positions below `limit` starts. -/
def freeRuns (free : Nat → Bool) (count limit : Nat) : Set Nat :=
  {first | first + count ≤ limit ∧ ∀ i, first ≤ i → i < first + count → free i = true}

/-- The pass from position `i` on; `run` free positions end there, the first of them is `start`. -/
def scanRun (free : Nat → Bool) (count : Nat) : (remaining i run start : Nat) → Option Nat
  | 0, _, _, _ => none
  | remaining + 1, i, run, start =>
    if free i then
      let start := if run = 0 then i else start
      if run + 1 = count then some start else scanRun free count remaining (i + 1) (run + 1) start
    else scanRun free count remaining (i + 1) 0 start

def findRun (free : Nat → Bool) (count limit : Nat) : Option Nat := scanRun free count limit 0 0 0

/-- What the pass knows at position `i`: the run that ends there is too short, and no run
starts before it. -/
structure ScanState (free : Nat → Bool) (count limit i run start : Nat) : Prop where
  short : run < count
  starts : run ≠ 0 → start + run = i
  within : run ≤ i
  trailing : ∀ j, i - run ≤ j → j < i → free j = true
  none_before : ∀ first ∈ freeRuns free count limit, i - run ≤ first

section
variable (state : ScanState free count limit i run start)
include state

theorem ScanState.free_step (clear : free i = true) (more : run + 1 ≠ count) :
    ScanState free count limit (i + 1) (run + 1) (if run = 0 then i else start) where
  short := by
    have := state.short
    omega
  starts _ := by
    split
    · omega
    · rename_i nonzero
      have := state.starts nonzero
      omega
  within := Nat.succ_le_succ state.within
  trailing j after before := by
    by_cases last : j = i
    · rw [last, clear]
    · exact state.trailing j (by omega) (by omega)
  none_before first found := by
    have := state.none_before first found
    omega

theorem ScanState.taken_step (taken : free i = false) : ScanState free count limit (i + 1) 0 start where
  short := Nat.zero_lt_of_lt state.short
  starts nonzero := absurd rfl nonzero
  within := Nat.zero_le _
  trailing j after before := by omega
  none_before first found := by
    -- a run that starts at or before the taken position would contain it
    by_contra early
    have length := state.short
    have start := state.none_before first found
    have clear := found.2 i (by omega) (by omega)
    rw [taken] at clear
    cases clear

theorem scanRun_spec (remaining : Nat) (bound : i + remaining = limit) :
    match scanRun free count remaining i run start with
    | some first => IsLeast (freeRuns free count limit) first
    | none => freeRuns free count limit = ∅ := by
  induction remaining generalizing i run start with
  | zero =>
    rw [scanRun, Set.eq_empty_iff_forall_notMem]
    intro first found
    have length := state.short
    have start := state.none_before first found
    have inside := found.1
    omega
  | succ remaining ih =>
    rw [scanRun]
    by_cases clear : free i = true
    · rw [if_pos clear]
      by_cases last : run + 1 = count
      · have first : (if run = 0 then i else start) = i - run := by
          split
          · omega
          · rename_i nonzero
            have := state.starts nonzero
            omega
        have room := state.within
        simp only [if_pos last, first]
        refine ⟨⟨by omega, ?_⟩, state.none_before⟩
        intro j after before
        by_cases final : j = i
        · rw [final, clear]
        · exact state.trailing j after (by omega)
      · simpa only [if_neg last] using ih (state.free_step clear last) (by omega)
    · rw [if_neg clear]
      exact ih (state.taken_step (Bool.eq_false_iff.mpr clear)) (by omega)

end

theorem findRun_spec (free : Nat → Bool) (limit : Nat) (positive : 0 < count) :
    match findRun free count limit with
    | some first => IsLeast (freeRuns free count limit) first
    | none => freeRuns free count limit = ∅ := by
  apply scanRun_spec _ limit (Nat.zero_add limit)
  constructor
  case short => exact positive
  case starts => exact fun nonzero => absurd rfl nonzero
  case within => exact Nat.le_refl 0
  case trailing => exact fun j _ before => absurd before (Nat.not_lt_zero j)
  case none_before => exact fun first _ => Nat.zero_le first

theorem findRun_eq_some (positive : 0 < count) :
    findRun free count limit = some first ↔ IsLeast (freeRuns free count limit) first := by
  have spec := findRun_spec free limit positive
  cases found : findRun free count limit with
  | none =>
    rw [found] at spec
    simp only [reduceCtorEq, false_iff]
    intro least
    have member := least.1
    rw [spec] at member
    exact member
  | some other =>
    rw [found] at spec
    rw [Option.some.injEq]
    constructor
    · rintro rfl
      exact spec
    · exact spec.unique

theorem findRun_eq_none (positive : 0 < count) :
    findRun free count limit = none ↔ freeRuns free count limit = ∅ := by
  have spec := findRun_spec free limit positive
  cases found : findRun free count limit with
  | none =>
    rw [found] at spec
    simp only [spec]
  | some first =>
    rw [found] at spec
    simp only [reduceCtorEq, false_iff]
    intro empty
    have member := spec.1
    rw [empty] at member
    exact member

end Sirius.Support
