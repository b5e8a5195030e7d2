import Mathlib.Data.Finset.Card

/-! Objects that live as long as some slot refers to them, with a count of the slots. -/
namespace Sirius.Support
open Function Finset

variable {Slot : Type*} {Obj : Type*} [DecidableEq Slot] [DecidableEq Obj]
variable {slots : Finset Slot} {table : Slot → Option Obj}

/-- How many of the slots refer to the object. -/
def references (slots : Finset Slot) (table : Slot → Option Obj) (o : Obj) : Nat :=
  (slots.filter fun slot => table slot = some o).card

omit [DecidableEq Slot] in
theorem references_pos : 0 < references slots table o ↔ ∃ slot ∈ slots, table slot = some o := by
  rw [references, card_pos]
  exact ⟨fun ⟨slot, held⟩ => ⟨slot, mem_filter.mp held⟩, fun ⟨slot, held⟩ => ⟨slot, mem_filter.mpr held⟩⟩

omit [DecidableEq Slot] in
theorem references_lt (member : slot ∈ slots) (other : table slot ≠ some o) : references slots table o < slots.card := by
  refine card_lt_card ⟨filter_subset _ _, fun all => ?_⟩
  exact other (mem_filter.mp (all member)).2

/-- Slots that refer to nothing do not count. -/
theorem references_enlarge (part : slots ⊆ more) (empty : ∀ slot ∈ more, slot ∉ slots → table slot = none) (o : Obj) :
    references more table o = references slots table o := by
  rw [references, references]
  congr 1
  ext slot
  rw [mem_filter, mem_filter]
  refine ⟨fun ⟨member, held⟩ => ⟨?_, held⟩, fun ⟨member, held⟩ => ⟨part member, held⟩⟩
  by_contra outside
  cases (empty slot member outside).symm.trans held

omit [DecidableEq Slot] in
theorem references_congr (same : ∀ slot ∈ slots, other slot = table slot) (o : Obj) :
    references slots other o = references slots table o := by
  rw [references, references]
  congr 1
  refine filter_congr fun slot member => ?_
  rw [same slot member]

theorem references_assign (member : slot ∈ slots) (empty : table slot = none) (o x : Obj) :
    references slots (update table slot (some o)) x = references slots table x + if x = o then 1 else 0 := by
  rw [references, references]
  split
  next same =>
    subst same
    have outside : slot ∉ slots.filter (fun slot => table slot = some x) := by
      rw [mem_filter, empty]
      exact fun held => nomatch held.2
    rw [← card_insert_of_notMem outside]
    congr 1
    ext other
    rw [mem_filter, mem_insert, mem_filter]
    by_cases here : other = slot
    · rw [here, update_self]
      exact ⟨fun _ => .inl rfl, fun _ => ⟨member, rfl⟩⟩
    · rw [update_of_ne here]
      exact ⟨.inr, fun held => held.resolve_left here⟩
  next different =>
    congr 1
    refine filter_congr fun other _ => ?_
    by_cases here : other = slot
    · rw [here, update_self, empty]
      exact iff_of_false (fun same => different (Option.some.inj same).symm) nofun
    · rw [update_of_ne here]

theorem references_clear (member : slot ∈ slots) (full : table slot = some o) (x : Obj) :
    references slots table x = references slots (update table slot none) x + if x = o then 1 else 0 := by
  have restored : update (update table slot none) slot (some o) = table := by
    rw [update_idem, ← full, update_eq_self]
  have empty : update table slot none slot = none := update_self ..
  rw [← references_assign member empty o x, restored]

/-- The counts are right, and the living objects are those that some slot refers to. -/
structure Counted (slots : Finset Slot) (table : Slot → Option Obj) (count : Obj → Nat) (live : Finset Obj) : Prop where
  counts : ∀ o ∈ live, count o = references slots table o
  held : ∀ o, o ∈ live ↔ 0 < references slots table o

namespace Counted
variable {count count' : Obj → Nat} {live : Finset Obj}

section
variable (counted : Counted slots table count live)
include counted

omit [DecidableEq Slot] in
theorem points (member : slot ∈ slots) (full : table slot = some o) : o ∈ live :=
  (counted.held o).mpr (references_pos.mpr ⟨slot, member, full⟩)

omit [DecidableEq Slot] in
theorem of_references (same : ∀ o, references others table' o = references slots table o) :
    Counted others table' count live where
  counts := fun o alive => (counted.counts o alive).trans (same o).symm
  held := fun o => by
    rw [same]
    exact counted.held o

section
variable {slot : Slot} {o : Obj} {count' : Obj → Nat} (member : slot ∈ slots) (others : ∀ x, x ≠ o → count' x = count x)
include member others

/-- A slot that was empty refers to a living object, which is counted once more. -/
theorem assign (empty : table slot = none) (alive : o ∈ live) (more : count' o = count o + 1) :
    Counted slots (update table slot (some o)) count' live where
  counts := by
    intro x there
    rw [references_assign member empty]
    by_cases here : x = o
    · rw [if_pos here, here, more, counted.counts o alive]
    · rw [if_neg here, others x here, counted.counts x there, Nat.add_zero]
  held := by
    intro x
    rw [references_assign member empty, counted.held]
    by_cases here : x = o
    · rw [here, if_pos rfl]
      exact iff_of_true ((counted.held o).mp alive) (Nat.succ_pos _)
    · rw [if_neg here, Nat.add_zero]

/-- A slot that was empty refers to a new object. -/
theorem fresh (empty : table slot = none) (new : o ∉ live) (one : count' o = 1) :
    Counted slots (update table slot (some o)) count' (insert o live) where
  counts := by
    intro x there
    rw [references_assign member empty]
    by_cases here : x = o
    · have none := Nat.eq_zero_of_not_pos fun held => new ((counted.held o).mpr held)
      rw [if_pos here, here, one, none]
    · rw [if_neg here, others x here, Nat.add_zero]
      exact counted.counts x ((mem_insert.mp there).resolve_left here)
  held := by
    intro x
    rw [references_assign member empty, mem_insert]
    by_cases here : x = o
    · rw [if_pos here]
      exact iff_of_true (.inl here) (Nat.succ_pos _)
    · rw [if_neg here, Nat.add_zero, ← counted.held]
      exact ⟨fun there => there.resolve_left here, .inr⟩

/-- A slot does not refer to its object any more, which goes with the last slot. -/
theorem clear (full : table slot = some o) (less : count' o + 1 = count o) :
    Counted slots (update table slot none) count' (if count' o = 0 then live.erase o else live) := by
  have alive := counted.points member full
  have left : references slots (update table slot none) o = count' o := by
    have before := references_clear member full o
    rw [if_pos rfl, ← counted.counts o alive, ← less] at before
    exact (Nat.succ.inj before).symm
  have same : ∀ x, x ≠ o → references slots (update table slot none) x = references slots table x := by
    intro x other
    rw [references_clear member full x, if_neg other, Nat.add_zero]
  have member : ∀ x, x ∈ (if count' o = 0 then live.erase o else live) ↔ x ∈ live ∧ (x = o → 0 < count' o) := by
    intro x
    split
    next gone =>
      rw [mem_erase, gone]
      exact ⟨fun ⟨other, there⟩ => ⟨there, fun equal => absurd equal other⟩,
        fun ⟨there, held⟩ => ⟨fun equal => absurd (held equal) (lt_irrefl 0), there⟩⟩
    next stays => exact ⟨fun there => ⟨there, fun _ => Nat.pos_of_ne_zero stays⟩, fun both => both.1⟩
  refine ⟨fun x there => ?_, fun x => ?_⟩
  · have before := ((member x).mp there).1
    by_cases here : x = o
    · rw [here, left]
    · rw [others x here, same x here, counted.counts x before]
  rw [member]
  by_cases here : x = o
  · subst here
    rw [left]
    exact ⟨fun both => both.2 rfl, fun positive => ⟨alive, fun _ => positive⟩⟩
  · rw [same x here, ← counted.held]
    exact ⟨fun both => both.1, fun there => ⟨there, fun equal => absurd equal here⟩⟩

end

end

end Counted

end Sirius.Support
