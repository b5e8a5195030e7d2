import Sirius.Support.ByteFile

/-! A memory of bytes and the vector registers of a processor. Registers are moved to and from
memory in vectors of a given width; an instruction that wants an aligned address faults at any
other. Addresses are numbers. -/
namespace Sirius.Support

/-- A register is given by its bytes; an instruction uses as many of them as its width. -/
structure VectorUnit where
  mem : Nat → UInt8
  reg : Nat → Nat → UInt8

/-- A loop over the numbers below a bound, that may fault. -/
def forUp {σ : Type} (step : Nat → σ → Option σ) : Nat → σ → Option σ
  | 0, s => some s
  | count + 1, s => (forUp step count s).bind (step count)

/-- What every round carries on holds after the loop, which does not fault. -/
theorem forUp_spec (holds : Nat → σ → Prop) (start : holds 0 s)
    (round : ∀ i s, i < count → holds i s → ∃ s', step i s = some s' ∧ holds (i + 1) s') :
    ∃ s', forUp step count s = some s' ∧ holds count s' := by
  induction count with
  | zero => exact ⟨s, rfl, start⟩
  | succ count ih =>
    obtain ⟨middle, reached, kept⟩ := ih fun i s bound => round i s (by omega)
    obtain ⟨last, step, done⟩ := round count middle (by omega) kept
    exact ⟨last, by rw [forUp, reached, Option.bind_some, step], done⟩

namespace VectorUnit

section
variable (unit : VectorUnit) (width : Nat)

def setReg (r width : Nat) (bytes : Nat → UInt8) : VectorUnit :=
  { unit with reg := Function.update unit.reg r fun i => if i < width then bytes i else unit.reg r i }

def vector (r width : Nat) : List UInt8 := slice (unit.reg r) 0 width

def load (r addr : Nat) : VectorUnit := unit.setReg r width fun i => unit.mem (addr + i)

def loadAligned (r addr : Nat) : Option VectorUnit :=
  if addr % width = 0 then some (unit.load width r addr) else none

def move (r source : Nat) : VectorUnit := unit.setReg r width (unit.reg source)

def store (r addr : Nat) : VectorUnit :=
  { unit with mem := overlay unit.mem addr (unit.vector r width) }

def storeAligned (r addr : Nat) : Option VectorUnit :=
  if addr % width = 0 then some (unit.store width r addr) else none

end

variable {unit : VectorUnit}

@[simp] theorem vector_length (unit : VectorUnit) (r width : Nat) : (unit.vector r width).length = width := slice_length _ _ _

theorem vector_setReg_self (unit : VectorUnit) (r width : Nat) (bytes : Nat → UInt8) :
    (unit.setReg r width bytes).vector r width = slice bytes 0 width := by
  refine slice_congr fun i bound => ?_
  have self : (unit.setReg r width bytes).reg r = fun i => if i < width then bytes i else unit.reg r i :=
    Function.update_self _ _ _
  rw [self, Nat.zero_add]
  exact if_pos bound

theorem vector_setReg_of_ne (other : s ≠ r) (unit : VectorUnit) (width : Nat) (bytes : Nat → UInt8) :
    (unit.setReg r width bytes).vector s width = unit.vector s width := by
  rw [vector, show (unit.setReg r width bytes).reg s = unit.reg s from Function.update_of_ne other _ _, vector]

def vectors (unit : VectorUnit) (width : Nat) : Nat → List UInt8
  | 0 => []
  | count + 1 => unit.vectors width count ++ unit.vector count width

theorem vectors_length (unit : VectorUnit) (width count : Nat) : (unit.vectors width count).length = width * count := by
  induction count with
  | zero => rfl
  | succ count ih => rw [vectors, List.length_append, ih, vector_length, Nat.mul_succ]

theorem vectors_congr {unit other : VectorUnit} (same : ∀ r < count, unit.vector r width = other.vector r width) :
    unit.vectors width count = other.vectors width count := by
  induction count with
  | zero => rfl
  | succ count ih => rw [vectors, vectors, ih fun r bound => same r (by omega), same count (by omega)]

/-- Registers stored one behind the other to aligned addresses. -/
theorem storeAll_spec (unit : VectorUnit) (aligned : addr % width = 0) (count : Nat) :
    ∃ after, forUp (fun r unit => storeAligned unit width r (addr + width * r)) count unit = some after ∧
      after.reg = unit.reg ∧ after.mem = overlay unit.mem addr (unit.vectors width count) := by
  let stored (k : Nat) (after : VectorUnit) : Prop :=
    after.reg = unit.reg ∧ after.mem = overlay unit.mem addr (unit.vectors width k)
  refine forUp_spec stored ⟨rfl, (overlay_nil _ _).symm⟩ fun k after _ kept => ?_
  have here : (addr + width * k) % width = 0 := by rw [Nat.add_mul_mod_self_left, aligned]
  have same : after.vector k width = unit.vector k width := by rw [vector, vector, kept.1]
  refine ⟨_, if_pos here, kept.1, ?_⟩
  rw [store, kept.2, same, vectors, ← overlay_append, vectors_length]

theorem vectors_eq_slice (same : ∀ r < count, unit.vector r width = slice bytes (addr + width * r) width) :
    unit.vectors width count = slice bytes addr (width * count) := by
  induction count with
  | zero => rfl
  | succ count ih =>
    rw [vectors, ih fun r bound => same r (by omega), same count (by omega), Nat.mul_succ, slice_append]

/-- Registers loaded from consecutive places, whatever the instruction. -/
theorem loadAll_spec (unit : VectorUnit) {load : Nat → VectorUnit → Option VectorUnit}
    (loads : ∀ r unit, load r unit = some (unit.load width r (addr + width * r))) (count : Nat) :
    ∃ after, forUp load count unit = some after ∧ after.mem = unit.mem ∧
      after.vectors width count = slice unit.mem addr (width * count) := by
  let loaded (k : Nat) (after : VectorUnit) : Prop :=
    after.mem = unit.mem ∧ ∀ r < k, after.vector r width = slice unit.mem (addr + width * r) width
  have start : loaded 0 unit := ⟨rfl, fun r bound => absurd bound (Nat.not_lt_zero r)⟩
  obtain ⟨after, run, mem, regs⟩ : ∃ after, forUp load count unit = some after ∧ loaded count after := by
    refine forUp_spec loaded start fun k middle _ kept => ⟨_, loads k middle, kept.1, fun r bound => ?_⟩
    by_cases last : r = k
    · subst last
      rw [VectorUnit.load, vector_setReg_self, kept.1]
      exact slice_congr fun i _ => by rw [Nat.zero_add]
    · rw [VectorUnit.load, vector_setReg_of_ne last]
      exact kept.2 r (by omega)
  exact ⟨after, run, mem, vectors_eq_slice regs⟩

end VectorUnit

end Sirius.Support
