import Mathlib.Tactic.Ring

/-! Numbers in memory: the bytes of a field of a given width, lowest first. -/
namespace Sirius.Support
open UInt8

def leBytes : Nat → Nat → List UInt8
  | 0, _ => []
  | width + 1, n => ofNat n :: leBytes width (n / 256)

def leNat : List UInt8 → Nat
  | [] => 0
  | byte :: rest => byte.toNat + 256 * leNat rest

@[simp] theorem leBytes_length (width n : Nat) : (leBytes width n).length = width := by
  induction width generalizing n with
  | zero => rfl
  | succ width ih => rw [leBytes, List.length_cons, ih]

theorem leNat_leBytes (width n : Nat) : leNat (leBytes width n) = n % 256 ^ width := by
  induction width generalizing n with
  | zero => rw [leBytes, leNat, Nat.pow_zero, Nat.mod_one]
  | succ width ih =>
    have low : (ofNat n).toNat = n % 256 := toNat_ofNat'
    rw [leBytes, leNat, ih, low, Nat.pow_succ']
    exact Nat.mod_mul.symm

theorem leNat_leBytes_of_lt (small : n < 256 ^ width) : leNat (leBytes width n) = n := by
  rw [leNat_leBytes, Nat.mod_eq_of_lt small]

/-- A field is read as it was written. -/
theorem field_leBytes (width : Nat) (n : BitVec (8 * width)) : .ofNat (8 * width) (leNat (leBytes width n.toNat)) = n := by
  have small : n.toNat < 256 ^ width := by
    have := n.isLt
    rwa [pow_mul] at this
  rw [leNat_leBytes_of_lt small, BitVec.ofNat_toNat, BitVec.setWidth_eq]

theorem leNat_lt (bytes : List UInt8) : leNat bytes < 256 ^ bytes.length := by
  induction bytes with
  | nil => exact Nat.one_pos
  | cons byte rest ih =>
    have := byte.toNat_lt
    rw [leNat, List.length_cons, Nat.pow_succ']
    omega

theorem leBytes_leNat (bytes : List UInt8) : leBytes bytes.length (leNat bytes) = bytes := by
  induction bytes with
  | nil => rfl
  | cons byte rest ih =>
    have := byte.toNat_lt
    have low : ofNat (byte.toNat + 256 * leNat rest) = byte := by
      apply UInt8.toNat_inj.mp
      rw [UInt8.toNat_ofNat']
      omega
    have high : (byte.toNat + 256 * leNat rest) / 256 = leNat rest := by omega
    rw [List.length_cons, leNat, leBytes, low, high, ih]

end Sirius.Support
