import Mathlib.Data.List.Chain

/-! Exact tilings of an interval of addresses by a list of segments. The segment
type is arbitrary: only where a segment begins and how much it covers is used. -/
namespace Sirius.Support
open List

/-- The segments cover `[first, last)` in list order, without gap or overlap. -/
def Tiles (start span : α → Nat) : Nat → List α → Nat → Prop
  | first, [], last => first = last
  | first, segment :: rest, last => start segment = first ∧ Tiles start span (first + span segment) rest last

namespace Tiles
variable {start span : α → Nat}

theorem append_iff : Tiles start span first (left ++ right) last ↔
      ∃ middle, Tiles start span first left middle ∧ Tiles start span middle right last := by
  induction left generalizing first with
  | nil => simp [Tiles]
  | cons segment rest ih => simp [Tiles, ih, and_assoc]

section
variable (tiles : Tiles start span first segments last)
include tiles

theorem le : first ≤ last := by
  induction segments generalizing first with
  | nil => exact Nat.le_of_eq tiles
  | cons segment rest ih => exact Nat.le_trans (Nat.le_add_right _ _) (ih tiles.2)

theorem bounds {segment : α} (member : segment ∈ segments) : first ≤ start segment ∧ start segment + span segment ≤ last := by
  obtain ⟨before, after, rfl⟩ := append_of_mem member
  obtain ⟨middle, left, here, right⟩ := append_iff.mp tiles
  have leftBound := left.le
  have rightBound := right.le
  omega

theorem length_le (least : Nat) (each : ∀ segment ∈ segments, least ≤ span segment) :
    first + least * segments.length ≤ last := by
  induction segments generalizing first with
  | nil => exact Nat.le_of_eq tiles
  | cons segment rest ih =>
    have here := each segment mem_cons_self
    have tail := ih tiles.2 fun other member => each other (mem_cons_of_mem _ member)
    rw [length_cons, Nat.mul_succ]
    omega

/-- Earlier segments of a tiling end before later ones begin. -/
theorem disjoint : segments.Pairwise (fun a b => start a + span a ≤ start b) := by
  induction segments generalizing first with
  | nil => exact .nil
  | cons segment rest ih =>
    obtain ⟨here, tail⟩ := tiles
    refine .cons ?_ (ih tail)
    intro other member
    have := (tail.bounds member).1
    omega

theorem apart (insideA : a ∈ segments) (insideB : b ∈ segments) (different : a ≠ b) :
    start a + span a ≤ start b ∨ start b + span b ≤ start a := by
  have order := pairwise_iff_getElem.mp tiles.disjoint
  obtain ⟨i, boundI, rfl⟩ := mem_iff_getElem.mp insideA
  obtain ⟨j, boundJ, rfl⟩ := mem_iff_getElem.mp insideB
  rcases Nat.lt_trichotomy i j with less | equal | greater
  · exact .inl (order i j boundI boundJ less)
  · subst equal
    exact absurd rfl different
  · exact .inr (order j i boundJ boundI greater)

theorem starts_nodup (positive : ∀ segment ∈ segments, 0 < span segment) : (segments.map start).Nodup := by
  refine pairwise_map.mpr ?_
  refine tiles.disjoint.imp_of_mem ?_
  intro a b inside _ ordered same
  have := positive a inside
  omega

end

/-- Segments may be exchanged for others that cover the same interval. -/
theorem exchange {before old new after : List α} (tiles : Tiles start span first (before ++ old ++ after) last)
    (covers : ∀ low high, Tiles start span low old high → Tiles start span low new high) :
    Tiles start span first (before ++ new ++ after) last := by
  obtain ⟨middle, front, back⟩ := append_iff.mp tiles
  obtain ⟨low, left, inside⟩ := append_iff.mp front
  exact append_iff.mpr ⟨middle, append_iff.mpr ⟨low, left, covers low middle inside⟩, back⟩

end Tiles
end Sirius.Support
