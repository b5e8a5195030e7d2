import Mathlib.Data.List.Basic

/-! Ring buffers with one slot kept empty, so that equal indices mean an empty ring.
The indices carry their bound; the view of a ring is the list of what it holds, oldest
first. -/
namespace Sirius.Support
open Function List Nat

structure Ring (α : Type) (capacity : Nat) where
  slots : Nat → α
  head : Nat
  tail : Nat
  head_lt : head < capacity
  tail_lt : tail < capacity

namespace Ring
variable {α : Type} {capacity : Nat}

def empty (slots : Nat → α) (positive : 0 < capacity) : Ring α capacity :=
  ⟨slots, 0, 0, positive, positive⟩

section
variable (count : Nat) (ring : Ring α capacity)

def used : Nat :=
  if ring.tail ≤ ring.head then ring.head - ring.tail
  else capacity - (ring.tail - ring.head)

def free : Nat := capacity - ring.used - 1

def contents : List α :=
  (List.range ring.used).map fun i => ring.slots ((ring.tail + i) % capacity)

def put (x : α) : Ring α capacity where
  slots := update ring.slots ring.head x
  head := (ring.head + 1) % capacity
  tail := ring.tail
  head_lt := mod_lt _ (zero_lt_of_lt ring.head_lt)
  tail_lt := ring.tail_lt

def advance : Ring α capacity where
  slots := ring.slots
  head := ring.head
  tail := (ring.tail + 1) % capacity
  head_lt := ring.head_lt
  tail_lt := mod_lt _ (zero_lt_of_lt ring.tail_lt)

def putAll (xs : List α) : Ring α capacity := xs.foldl put ring

/-- Put elements in until the next head would be the tail; how many went in comes first. -/
def fill : List α → Ring α capacity → Nat × Ring α capacity
  | [], ring => (0, ring)
  | x :: rest, ring =>
    if (ring.head + 1) % capacity = ring.tail then (0, ring)
    else
      let filled := fill rest (ring.put x)
      (filled.1 + 1, filled.2)

/-- Read slots from the tail while the ring is not empty, at most `count` of them. -/
def drain : Nat → Ring α capacity → List α × Ring α capacity
  | 0, ring => ([], ring)
  | count + 1, ring =>
    if ring.head = ring.tail then ([], ring)
    else
      let rest := drain count ring.advance
      (ring.slots ring.tail :: rest.1, rest.2)

/-- Read slots from the tail, whether the ring holds so many or not. -/
def read : Nat → Ring α capacity → List α × Ring α capacity
  | 0, ring => ([], ring)
  | count + 1, ring =>
    let rest := read count ring.advance
    (ring.slots ring.tail :: rest.1, rest.2)

def skip : Ring α capacity where
  slots := ring.slots
  head := ring.head
  tail := (ring.tail + count) % capacity
  head_lt := ring.head_lt
  tail_lt := mod_lt _ (zero_lt_of_lt ring.tail_lt)

end

section
variable (ring : Ring α capacity)
include ring

theorem used_lt : ring.used < capacity := by
  have := ring.head_lt
  unfold used
  split <;> omega

theorem contents_length : ring.contents.length = ring.used := by
  simp [contents]

theorem used_eq_zero : ring.used = 0 ↔ ring.head = ring.tail := by
  have := ring.tail_lt
  unfold used
  split <;> omega

theorem index_eq (bound : i < capacity) :
    (ring.tail + i) % capacity = if ring.tail + i < capacity then ring.tail + i
      else ring.tail + i - capacity := by
  have := ring.tail_lt
  split
  · exact mod_eq_of_lt ‹_›
  · rw [mod_eq_sub_mod (by omega)]
    exact mod_eq_of_lt (by omega)

/-- The head is the slot right behind the last used one. -/
theorem head_eq : (ring.tail + ring.used) % capacity = ring.head := by
  have := ring.head_lt
  have := ring.tail_lt
  rw [ring.index_eq ring.used_lt]
  unfold used
  split <;> split <;> omega

end

theorem succ_mod (bound : i < capacity) : (i + 1) % capacity = if i + 1 < capacity then i + 1 else 0 := by
  split
  · exact mod_eq_of_lt ‹_›
  · rw [show i + 1 = capacity by omega, mod_self]

variable {ring : Ring α capacity} {count : Nat}

theorem put_used (room : ring.used + 1 < capacity) (x : α) :
    (ring.put x).used = ring.used + 1 := by
  have := ring.head_lt
  have := ring.tail_lt
  unfold used at *
  simp only [put, succ_mod ring.head_lt]
  split at room <;> split <;> split <;> omega

theorem put_contents (room : ring.used + 1 < capacity) (x : α) :
    (ring.put x).contents = ring.contents ++ [x] := by
  have older : (List.range ring.used).map
      (fun i => update ring.slots ring.head x ((ring.tail + i) % capacity)) =
      ring.contents := by
    apply map_congr_left
    intro i member
    have small := mem_range.mp member
    -- the written slot is not one of the used ones
    have apart : (ring.tail + i) % capacity ≠ ring.head := by
      rw [← ring.head_eq, ring.index_eq (by omega), ring.index_eq ring.used_lt]
      split <;> split <;> omega
    rw [update_of_ne apart]
  unfold contents at *
  rw [put_used room, range_succ, map_append]
  simp only [put, map_cons, map_nil]
  rw [older, ring.head_eq, update_self]

theorem putAll_contents {xs : List α} (room : ring.used + xs.length < capacity) :
    (ring.putAll xs).contents = ring.contents ++ xs := by
  induction xs generalizing ring with
  | nil => simp [putAll]
  | cons x rest ih =>
    simp only [length_cons] at room
    have one : ring.used + 1 < capacity := by omega
    have later : (ring.put x).used + rest.length < capacity := by
      rw [put_used one]
      omega
    have tail := ih later
    simp only [putAll, foldl_cons] at tail ⊢
    rw [tail, put_contents one, append_assoc, singleton_append]

theorem full_iff : (ring.head + 1) % capacity = ring.tail ↔ ring.used + 1 = capacity := by
  have headLt := ring.head_lt
  have tailLt := ring.tail_lt
  rw [succ_mod headLt]
  unfold used
  split <;> split <;> omega

theorem room_of_head_ne (notFull : (ring.head + 1) % capacity ≠ ring.tail) :
    ring.used + 1 < capacity :=
  Nat.lt_of_le_of_ne ring.used_lt (mt full_iff.mpr notFull)

theorem fill_contents (xs : List α) (ring : Ring α capacity) :
    (fill xs ring).2.contents = ring.contents ++ xs.take (fill xs ring).1 := by
  induction xs generalizing ring with
  | nil => simp only [fill, take_nil, append_nil]
  | cons x rest ih =>
    unfold fill
    split
    · simp [take_zero]
    case isFalse notFull =>
      simp only [take_succ_cons, ih, put_contents (room_of_head_ne notFull), append_assoc, singleton_append]

theorem advance_used (nonempty : ring.head ≠ ring.tail) :
    ring.used = ring.advance.used + 1 := by
  have := ring.head_lt
  have := ring.tail_lt
  unfold used
  simp only [advance, succ_mod ring.tail_lt]
  split <;> split <;> split <;> omega

theorem advance_contents (nonempty : ring.head ≠ ring.tail) :
    ring.contents = ring.slots ring.tail :: ring.advance.contents := by
  unfold contents
  rw [advance_used nonempty, range_succ_eq_map, map_cons, map_map]
  simp only [Nat.add_zero, Nat.mod_eq_of_lt ring.tail_lt, List.cons.injEq, true_and]
  apply map_congr_left
  intro i _
  simp only [Function.comp_apply, advance, mod_add_mod]
  congr 2
  omega

theorem drain_spec (count : Nat) (ring : Ring α capacity) : (drain count ring).1 = ring.contents.take count ∧
      (drain count ring).2.contents = ring.contents.drop count := by
  induction count generalizing ring with
  | zero => simp [drain]
  | succ count ih =>
    unfold drain
    split
    · rename_i drained
      have none := eq_nil_of_length_eq_zero (ring.contents_length.trans (ring.used_eq_zero.mpr drained))
      simp [none]
    · rename_i nonempty
      obtain ⟨front, back⟩ := ih ring.advance
      rw [advance_contents nonempty]
      simp [take_succ_cons, drop_succ_cons, front, back]

theorem used_of_succ_le (enough : count + 1 ≤ ring.used) :
    ring.head ≠ ring.tail ∧ count ≤ ring.advance.used := by
  have nonempty : ring.head ≠ ring.tail := fun same => by
    rw [ring.used_eq_zero.mpr same] at enough
    omega
  have less := advance_used nonempty
  exact ⟨nonempty, by omega⟩

theorem read_spec (enough : count ≤ ring.used) :
    (read count ring).1 = ring.contents.take count ∧ (read count ring).2.contents = ring.contents.drop count := by
  induction count generalizing ring with
  | zero => exact ⟨rfl, rfl⟩
  | succ count ih =>
    obtain ⟨nonempty, fewer⟩ := used_of_succ_le enough
    obtain ⟨front, back⟩ := ih fewer
    rw [advance_contents nonempty, read]
    simp [take_succ_cons, drop_succ_cons, front, back]

theorem skip_succ (count : Nat) (ring : Ring α capacity) : ring.advance.skip count = ring.skip (count + 1) := by
  simp only [skip, advance, mk.injEq, true_and, mod_add_mod]
  congr 1
  omega

theorem skip_contents (enough : count ≤ ring.used) :
    (ring.skip count).contents = ring.contents.drop count := by
  induction count generalizing ring with
  | zero =>
    have same : ring.skip 0 = ring := by
      simp [skip, Nat.mod_eq_of_lt ring.tail_lt]
    rw [same, drop_zero]
  | succ count ih =>
    obtain ⟨nonempty, fewer⟩ := used_of_succ_le enough
    rw [← skip_succ, ih fewer, advance_contents nonempty, drop_succ_cons]

theorem putAll_append (ring : Ring α capacity) (xs ys : List α) : (ring.putAll xs).putAll ys = ring.putAll (xs ++ ys) :=
  foldl_append.symm

theorem length_le_used (parts : ring.contents = front ++ back) : front.length ≤ ring.used := by
  rw [← ring.contents_length, parts, length_append]
  exact le_add_right _ _

/-- What stands first in the ring is read first. -/
theorem read_append (parts : ring.contents = front ++ back) :
    (read front.length ring).1 = front ∧ (read front.length ring).2.contents = back := by
  obtain ⟨first, rest⟩ := read_spec (length_le_used parts)
  rw [first, rest, parts]
  exact ⟨take_left, drop_left⟩

end Ring
end Sirius.Support
