import Sirius.Support.ByteFile
import Sirius.Support.LittleEndian

/-! Unsigned 64-bit arithmetic on natural numbers, with the wrap-around explicit. -/
namespace Sirius.Support

def u64 (n : Nat) : Nat := n % 2 ^ 64

def sub64 (a b : Nat) : Nat := u64 (a + (2 ^ 64 - b % 2 ^ 64))

/-- Clear the low bits of `n`, for a granule that is a power of two. -/
def alignDown (granule n : Nat) : Nat := n / granule * granule

theorem u64_of_lt (small : n < 2 ^ 64) : u64 n = n := Nat.mod_eq_of_lt small

theorem sub64_of_le (ordered : b ≤ a) (small : a < 2 ^ 64) : sub64 a b = a - b := by
  have : b % 2 ^ 64 = b := Nat.mod_eq_of_lt (by omega)
  simp only [sub64, u64, this]
  omega

theorem alignDown_dvd (granule n : Nat) : granule ∣ alignDown granule n := Nat.dvd_mul_left _ _

theorem alignDown_le (granule n : Nat) : alignDown granule n ≤ n := Nat.div_mul_le_self n granule

theorem lt_alignDown_add (positive : 0 < granule) (n : Nat) : n < alignDown granule n + granule := by
  have := Nat.lt_div_mul_add (a := n) positive
  simpa only [alignDown] using this

/-- A size rounded up. -/
theorem roundUp_spec (positive : 0 < granule) (bound : size + granule ≤ 2 ^ 64) :
    ∃ rounded, alignDown granule (u64 (size + granule - 1)) = rounded ∧ granule ∣ rounded ∧
      size ≤ rounded ∧ rounded < size + granule := by
  have upper := alignDown_le granule (size + granule - 1)
  have lower := lt_alignDown_add positive (size + granule - 1)
  rw [u64_of_lt (by omega)]
  exact ⟨_, rfl, alignDown_dvd _ _, by omega, by omega⟩

/-! A memory of bytes with the 64-bit words in it. -/

abbrev ByteMem := Nat → UInt8

def load64 (mem : ByteMem) (addr : Nat) : Nat := leNat (slice mem addr 8)

def store64 (mem : ByteMem) (addr value : Nat) : ByteMem := overlay mem addr (leBytes 8 value)

variable {mem mem' : ByteMem} {addr value : Nat}

theorem load64_lt (mem : ByteMem) (addr : Nat) : load64 mem addr < 2 ^ 64 := by
  have bound := leNat_lt (slice mem addr 8)
  rwa [slice_length] at bound

theorem load64_congr (same : ∀ i < 8, mem (addr + i) = mem' (addr + i)) : load64 mem addr = load64 mem' addr := by
  rw [load64, slice_congr same, load64]

theorem store64_outside (outside : i < addr ∨ addr + 8 ≤ i) (mem : ByteMem) (value : Nat) : store64 mem addr value i = mem i := by
  refine overlay_outside ?_ mem
  rwa [leBytes_length]

theorem load64_store64_self (small : value < 2 ^ 64) (mem : ByteMem) (addr : Nat) :
    load64 (store64 mem addr value) addr = value := by
  have bytes : slice (store64 mem addr value) addr 8 = leBytes 8 value := by
    refine List.ext_getElem (by rw [slice_length, leBytes_length]) fun i bound bound' => ?_
    have inside := bound'
    rw [slice_length] at bound
    have here := slice_getD bound (store64 mem addr value) addr
    rw [List.getD_eq_getElem _ _ (by rwa [slice_length])] at here
    rw [here, store64, overlay_inside inside, List.getD_eq_getElem _ _ inside]
  rw [load64, bytes, leNat_leBytes_of_lt small]

theorem load64_store64_apart (apart : other + 8 ≤ addr ∨ addr + 8 ≤ other) (mem : ByteMem) (value : Nat) :
    load64 (store64 mem addr value) other = load64 mem other :=
  load64_congr fun _ bound => store64_outside (by omega) mem value

end Sirius.Support
