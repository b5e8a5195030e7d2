import Sirius.Support.LittleEndian

/-! Sums of 16-bit words whose carries are added in again at the bottom. -/
namespace Sirius.Support
open List hiding sum

/-- The sum of the words, lowest byte first; a last odd byte counts by itself. -/
def wordSum : List UInt8 → Nat
  | [] => 0
  | [byte] => byte.toNat
  | low :: high :: rest => low.toNat + 256 * high.toNat + wordSum rest

/-- Add what lies above 16 bits to what lies below until nothing lies above. -/
def foldCarry (sum : Nat) : Nat := if sum < 65536 then sum else foldCarry (sum % 65536 + sum / 65536)
termination_by sum

theorem foldCarry_lt (sum : Nat) : foldCarry sum < 65536 := by
  fun_induction foldCarry sum with
  | case1 sum small => exact small
  | case2 sum large ih => exact ih

theorem foldCarry_pos (some : 0 < sum) : 0 < foldCarry sum := by
  fun_induction foldCarry sum with
  | case1 sum small => exact some
  | case2 sum large ih => exact ih (by omega)

/-- A carry is worth one at the bottom, so nothing is lost modulo 65535. -/
theorem foldCarry_mod (sum : Nat) : foldCarry sum % 65535 = sum % 65535 := by
  fun_induction foldCarry sum with
  | case1 sum small => rfl
  | case2 sum large ih =>
    omega

/-- With the complement of the folded sum added, the sum folds to all ones. -/
theorem foldCarry_complement (sum : Nat) : foldCarry (sum + (65535 - foldCarry sum)) = 65535 := by
  rcases Nat.eq_zero_or_pos sum with rfl | some
  · simp [foldCarry]
  have bound := foldCarry_lt sum
  have same := foldCarry_mod sum
  have bound' := foldCarry_lt (sum + (65535 - foldCarry sum))
  have same' := foldCarry_mod (sum + (65535 - foldCarry sum))
  have some' : 0 < foldCarry (sum + (65535 - foldCarry sum)) := foldCarry_pos (by omega)
  omega

theorem wordSum_append (even : front.length % 2 = 0) (back : List UInt8) :
    wordSum (front ++ back) = wordSum front + wordSum back := by
  fun_induction wordSum front with
  | case1 => rw [nil_append, Nat.zero_add]
  | case2 byte => exact absurd even (by simp)
  | case3 low high rest ih =>
    rw [length_cons, length_cons] at even
    rw [cons_append, cons_append, wordSum, ih (by omega)]
    omega

theorem wordSum_le (bytes : List UInt8) : wordSum bytes ≤ 65535 * bytes.length := by
  fun_induction wordSum bytes with
  | case1 => exact Nat.le_refl _
  | case2 byte =>
    have := byte.toNat_lt
    rw [length_singleton]
    omega
  | case3 low high rest ih =>
    have := low.toNat_lt
    have := high.toNat_lt
    rw [length_cons, length_cons]
    omega

@[simp] theorem wordSum_leBytes (n : BitVec 16) : wordSum (leBytes 2 n.toNat) = n.toNat := by
  simp only [leBytes, wordSum, UInt8.toNat_ofNat']
  omega

/-- A field of 16 bits at an even place is one of the words. -/
theorem wordSum_field (even : front.length % 2 = 0) (field : BitVec 16) (back : List UInt8) :
    wordSum (front ++ (leBytes 2 field.toNat ++ back)) = wordSum (front ++ (leBytes 2 0 ++ back)) + field.toNat := by
  have two (n : Nat) : (leBytes 2 n).length % 2 = 0 := by rw [leBytes_length]
  rw [wordSum_append even, wordSum_append even, wordSum_append (two _), wordSum_append (two _), wordSum_leBytes]
  show _ = wordSum front + (0 + wordSum back) + _
  omega

/-- A last odd byte counts as if a zero followed it. -/
theorem wordSum_padded (bytes : List UInt8) : wordSum (bytes ++ replicate (bytes.length % 2) 0) = wordSum bytes := by
  fun_induction wordSum bytes with
  | case1 => rfl
  | case2 byte => exact Nat.add_zero _
  | case3 low high rest ih =>
    have even : (low :: high :: rest).length % 2 = rest.length % 2 := Nat.add_mod_right _ 2
    rw [even, cons_append, cons_append, wordSum, ih]

end Sirius.Support
