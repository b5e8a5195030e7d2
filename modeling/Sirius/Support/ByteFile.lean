import Mathlib.Data.List.Basic
import Mathlib.Data.List.GetD
import Mathlib.Order.Basic

/-! Files as byte arrays: a size, the bytes below it, and zeros behind. A write past the end
leaves zeros in the gap. -/
namespace Sirius.Support
open List hiding count

/-- Pieces of one length put together. -/
theorem getD_flatten (pieces : List (List α)) (sizes : ∀ piece ∈ pieces, piece.length = width) (here : pieces[i]? = some piece)
    (below : k < width) : pieces.flatten.getD (width * i + k) d = piece.getD k d := by
  induction pieces generalizing i with
  | nil => cases here
  | cons first rest ih =>
    have size := sizes first mem_cons_self
    cases i with
    | zero =>
      cases here
      rw [flatten_cons, Nat.mul_zero, Nat.zero_add, getD_append _ _ _ _ (by omega)]
    | succ i =>
      rw [flatten_cons, getD_append_right _ _ _ _ (by rw [Nat.mul_succ]; omega), size,
        ← ih (fun piece mem => sizes piece (mem_cons_of_mem _ mem)) here]
      congr 1
      rw [Nat.mul_succ]
      omega

section
variable (bytes : Nat → UInt8)

/-- The bytes from an index on. -/
def slice (start count : Nat) : List UInt8 := (range count).map fun i => bytes (start + i)

/-- The bytes after some of them have been written over. -/
def overlay (start : Nat) (data : List UInt8) (i : Nat) : UInt8 :=
  if start ≤ i ∧ i < start + data.length then data.getD (i - start) 0 else bytes i

@[simp] theorem slice_length (start count : Nat) : (slice bytes start count).length = count := by
  rw [slice, length_map, length_range]

theorem slice_getD (bound : i < count) (bytes : Nat → UInt8) (start : Nat) :
    (slice bytes start count).getD i 0 = bytes (start + i) := by
  have here : i < (slice bytes start count).length := by rwa [slice_length]
  rw [getD_eq_getElem _ _ here]
  simp only [slice, getElem_map, getElem_range]

theorem slice_congr (same : ∀ i < count, one (start + i) = other (start' + i)) :
    slice one start count = slice other start' count :=
  map_congr_left fun i mem => same i (mem_range.mp mem)

theorem slice_append (start one two : Nat) :
    slice bytes start (one + two) = slice bytes start one ++ slice bytes (start + one) two := by
  rw [slice, range_add, map_append, map_map, slice, slice]
  congr 1
  refine map_congr_left fun i _ => ?_
  rw [Function.comp_apply, Nat.add_assoc]

theorem overlay_inside (bound : i < data.length) (bytes : Nat → UInt8) (start : Nat) :
    overlay bytes start data (start + i) = data.getD i 0 := by
  rw [overlay, if_pos ⟨Nat.le_add_right _ _, Nat.add_lt_add_left bound _⟩, Nat.add_sub_cancel_left]

theorem overlay_outside (outside : i < start ∨ start + data.length ≤ i)
    (bytes : Nat → UInt8) : overlay bytes start data i = bytes i := by
  rw [overlay, if_neg (by omega)]

theorem overlay_nil (bytes : Nat → UInt8) (start : Nat) : overlay bytes start [] = bytes :=
  funext fun i => overlay_outside (by rw [length_nil]; omega) _

theorem overlay_append (start : Nat) (one two : List UInt8) :
    overlay (overlay bytes start one) (start + one.length) two = overlay bytes start (one ++ two) := by
  funext i
  simp only [overlay, length_append]
  by_cases first : start ≤ i ∧ i < start + one.length
  · rw [if_neg (by omega), if_pos first, if_pos (by omega), getD_append _ _ _ _ (by omega)]
  by_cases second : start + one.length ≤ i ∧ i < start + one.length + two.length
  · rw [if_pos second, if_pos (by omega), getD_append_right _ _ _ _ (by omega)]
    congr 1
    omega
  · rw [if_neg second, if_neg first, if_neg (by omega)]

theorem overlay_slice (start n : Nat) : overlay bytes start (slice bytes start n) = bytes := by
  funext i
  by_cases inside : start ≤ i ∧ i < start + n
  · obtain ⟨k, rfl⟩ := Nat.exists_eq_add_of_le inside.1
    rw [overlay_inside (by rw [slice_length]; omega), slice_getD (by omega)]
  · rw [overlay_outside (by rw [slice_length]; omega)]

theorem slice_overlay (start : Nat) (data : List UInt8) :
    slice (overlay bytes start data) start data.length = data := by
  refine ext_getElem (slice_length _ _ _) fun i bound inside => ?_
  simp only [slice, getElem_map, getElem_range]
  rw [overlay_inside inside, getD_eq_getElem _ _ inside]

end

@[ext] structure ByteFile where
  size : Nat
  byte : Nat → UInt8
  blank : ∀ i, size ≤ i → byte i = 0

namespace ByteFile

def empty : ByteFile := ⟨0, fun _ => 0, fun _ _ => rfl⟩

def write (file : ByteFile) (offset : Nat) (data : List UInt8) : ByteFile where
  size := if data = [] then file.size else max file.size (offset + data.length)
  byte := overlay file.byte offset data
  blank i behind := by
    split at behind
    case isTrue none =>
      rw [overlay_outside (by rw [none, length_nil]; omega)]
      exact file.blank i behind
    case isFalse =>
      rw [overlay_outside (by omega)]
      exact file.blank i (by omega)

/-- At least so long, with zeros. -/
def extend (file : ByteFile) (size : Nat) : ByteFile :=
  ⟨max file.size size, file.byte, fun i behind => file.blank i (by omega)⟩

def read (file : ByteFile) (offset count : Nat) : List UInt8 := slice file.byte offset (min count (file.size - offset))

variable {file : ByteFile} {offset : Nat} {data : List UInt8}

@[simp] theorem read_length (file : ByteFile) (offset count : Nat) :
    (file.read offset count).length = min count (file.size - offset) := slice_length _ _ _

theorem size_write (file : ByteFile) (offset : Nat) (data : List UInt8) :
    (file.write offset data).size = if data = [] then file.size else max file.size (offset + data.length) := rfl

@[simp] theorem write_nil (file : ByteFile) (offset : Nat) : file.write offset [] = file := by
  have sizes : (file.write offset []).size = file.size := by
    rw [size_write, if_pos rfl]
  exact ByteFile.ext sizes (overlay_nil _ _)

theorem size_write_of_ne (some : data ≠ []) : (file.write offset data).size = max file.size (offset + data.length) :=
  (size_write file offset data).trans (if_neg some)

/-- A write that does not start past the end leaves no gap. -/
theorem size_write_of_le (start : offset ≤ file.size) :
    (file.write offset data).size = max file.size (offset + data.length) := by
  by_cases none : data = []
  · rw [none, write_nil, length_nil]
    omega
  · exact size_write_of_ne none

theorem size_le_write (file : ByteFile) (offset : Nat) (data : List UInt8) : file.size ≤ (file.write offset data).size := by
  by_cases none : data = []
  · exact Nat.le_of_eq (by rw [none, write_nil])
  · rw [size_write_of_ne none]
    exact Nat.le_max_left _ _

theorem byte_write_inside (bound : i < data.length) :
    (file.write offset data).byte (offset + i) = data.getD i 0 := overlay_inside bound _ _

theorem byte_write_outside (outside : i < offset ∨ offset + data.length ≤ i) :
    (file.write offset data).byte i = file.byte i := overlay_outside outside _

theorem write_append (file : ByteFile) (offset : Nat) (one two : List UInt8) :
    (file.write offset one).write (offset + one.length) two = file.write offset (one ++ two) := by
  by_cases none : one = []
  · rw [none, write_nil, length_nil, Nat.add_zero, nil_append]
  by_cases last : two = []
  · rw [last, write_nil, append_nil]
  · refine ByteFile.ext ?_ (overlay_append _ _ _ _)
    have some : one ++ two ≠ [] := by simp [append_eq_nil_iff, none]
    rw [size_write_of_ne last, size_write_of_ne none, size_write_of_ne some, length_append]
    omega

end ByteFile

end Sirius.Support
