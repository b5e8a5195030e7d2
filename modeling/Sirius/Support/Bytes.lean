import Mathlib.Data.List.Basic
import Mathlib.Algebra.Group.Nat.Defs

/-! Big-endian 32-bit numbers and length-prefixed strings in a list of bytes. Reading
is total; a reader checks the length first. -/
namespace Sirius.Support
open List UInt8

def ascii (text : List Char) : List UInt8 := text.map fun c => ofNat c.toNat

variable (bytes : List UInt8)

/-- The number in the first four bytes. -/
def be32 : Nat :=
  (bytes.getD 0 0).toNat * 2 ^ 24 + (bytes.getD 1 0).toNat * 2 ^ 16 +
    (bytes.getD 2 0).toNat * 2 ^ 8 + (bytes.getD 3 0).toNat

def be32Bytes (n : Nat) : List UInt8 :=
  [ofNat (n / 2 ^ 24), ofNat (n / 2 ^ 16), ofNat (n / 2 ^ 8), ofNat n]

/-- A string as the wire carries it, behind its length. -/
def lengthPrefixed : List UInt8 := be32Bytes bytes.length ++ bytes

@[simp] theorem be32Bytes_length (n : Nat) : (be32Bytes n).length = 4 := rfl

@[simp] theorem ascii_length (text : List Char) : (ascii text).length = text.length := by
  rw [ascii, length_map]

@[simp] theorem lengthPrefixed_length : (lengthPrefixed bytes).length = 4 + bytes.length := by
  rw [lengthPrefixed, length_append, be32Bytes_length]

theorem be32_be32Bytes (bound : n < 2 ^ 32) (rest : List UInt8) : be32 (be32Bytes n ++ rest) = n := by
  simp only [be32, be32Bytes, cons_append, getD_cons_zero, getD_cons_succ, toNat_ofNat']
  omega

theorem be32Bytes_be32 (length : 4 ≤ bytes.length) : be32Bytes (be32 bytes) = bytes.take 4 := by
  match bytes, length with
  | a :: b :: c :: d :: rest, _ =>
    have := a.toNat_lt
    have := b.toNat_lt
    have := c.toNat_lt
    have := d.toNat_lt
    simp only [be32, be32Bytes, getD_cons_zero, getD_cons_succ, take_succ_cons,
      take_zero, List.cons.injEq, and_true]
    refine ⟨?_, ?_, ?_, ?_⟩ <;> apply UInt8.toNat_inj.mp <;> rw [UInt8.toNat_ofNat'] <;> omega

/-- A reader that finds a known string behind its length has found that string's
encoding. -/
theorem lengthPrefixed_of_be32 {text bytes : List UInt8} (length : 4 ≤ bytes.length)
    (size : be32 bytes = text.length) (found : (bytes.drop 4).take text.length = text) :
    bytes = lengthPrefixed text ++ bytes.drop (4 + text.length) := by
  calc bytes = bytes.take 4 ++ bytes.drop 4 := (take_append_drop 4 bytes).symm
    _ = be32Bytes text.length ++ bytes.drop 4 := by rw [← be32Bytes_be32 bytes length, size]
    _ = be32Bytes text.length ++ (text ++ bytes.drop (4 + text.length)) := by
        conv_lhs => rw [← take_append_drop text.length (bytes.drop 4)]
        rw [found, drop_drop]

end Sirius.Support
