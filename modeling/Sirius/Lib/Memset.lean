import Sirius.Support.VectorUnit
import Sirius.Support.LittleEndian

/-! `sse_memset.c`: memory filled with a byte or with a double word, in steps of an element up to an
aligned address, in blocks of eight vectors, in single vectors, and in elements again. The arrays
that the registers are loaded from are on the stack and not part of the memory. -/
namespace Sirius.Lib
open Support VectorUnit Option
open Nat hiding min_eq_right
open List hiding count after

/-- A pattern so many times. -/
def rep (pattern : List UInt8) (count : Nat) : List UInt8 := (replicate count pattern).flatten

/-- Elements are stored until the address is aligned or all are; address and count come back. -/
def alignFill (width : Nat) (element : List UInt8) : Nat → Nat → (Nat → UInt8) → Nat × Nat × (Nat → UInt8)
  | 0, ptr, mem => (ptr, 0, mem)
  | count + 1, ptr, mem =>
    if ptr % width ≠ 0 then alignFill width element count (ptr + element.length) (overlay mem ptr element)
    else (ptr, count + 1, mem)

def fillElements (element : List UInt8) : Nat → Nat → (Nat → UInt8) → Nat → UInt8
  | 0, _, mem => mem
  | count + 1, ptr, mem => fillElements element count (ptr + element.length) (overlay mem ptr element)

/-- The first register is copied to the next ones. -/
def broadcast (width : Nat) : Nat → VectorUnit → VectorUnit
  | 0, unit => unit
  | r + 1, unit => (broadcast width r unit).move width (r + 1) 0

section
variable (avx2 : Bool) (unit : VectorUnit)

def loadPattern (width : Nat) (pattern : List UInt8) : VectorUnit :=
  broadcast width 7 (unit.setReg 0 width fun i => pattern.getD i 0)

def storeEight (width ptr : Nat) (unit : VectorUnit) : Option VectorUnit :=
  forUp (fun r unit => unit.storeAligned width r (ptr + width * r)) 8 unit

/-- The body that the four functions share. The registers are loaded only if there are blocks. -/
def vectorFill (width : Nat) (element : List UInt8) (unit : VectorUnit) (dst count : Nat) : Option VectorUnit := do
  let per := width / element.length
  let (ptr, count, mem) := alignFill width element count dst unit.mem
  let unit := { unit with mem := mem }
  let blocks := count / (8 * per)
  let unit := if 0 < blocks then loadPattern unit width (rep element per) else unit
  let unit ← forUp (fun i unit => storeEight width (ptr + i * (8 * width)) unit) blocks unit
  let ptr := ptr + blocks * (8 * width)
  let remBlocks := count % (8 * per) / per
  let unit ← forUp (fun i unit => unit.storeAligned width 0 (ptr + i * width)) remBlocks unit
  let ptr := ptr + remBlocks * width
  return { unit with mem := fillElements element (count % per) ptr unit.mem }

def sseMmregSize : Nat := 16
def avx2MmregSize : Nat := 32

variable (dst : Nat) (value : BitVec 32)

/-- The low byte of an `int`. -/
def lowByte : UInt8 := ⟨value.setWidth 8⟩

def dword : List UInt8 := leBytes 4 value.toNat

def sseMemset (len : Nat) : Option VectorUnit :=
  vectorFill sseMmregSize [lowByte value] unit dst len

def sseMemsetDword (count : Nat) : Option VectorUnit :=
  vectorFill sseMmregSize (dword value) unit dst count

def avx2Memset (len : Nat) : Option VectorUnit :=
  vectorFill avx2MmregSize [lowByte value] unit dst len

def avx2MemsetDword (count : Nat) : Option VectorUnit :=
  vectorFill avx2MmregSize (dword value) unit dst count

/-- `avx2` is `g_cpu_has_avx2`. Short ranges are filled by a plain loop. -/
def optimizedMemset (bytes : Nat) : Option VectorUnit :=
  if dst = 0 ∨ bytes = 0 then some unit
  else if bytes < 64 then some { unit with mem := fillElements [lowByte value] bytes dst unit.mem }
  else if avx2 then avx2Memset unit dst value bytes
  else sseMemset unit dst value bytes

def optimizedMemsetDword (count : Nat) : Option VectorUnit :=
  if dst = 0 ∨ count = 0 then some unit
  else if count < 16 then some { unit with mem := fillElements (dword value) count dst unit.mem }
  else if avx2 then avx2MemsetDword unit dst value count
  else sseMemsetDword unit dst value count

end

/-! ### Patterns -/

section
variable (pattern : List UInt8) (count per : Nat)

theorem rep_succ : rep pattern (count + 1) = pattern ++ rep pattern count := by
  rw [rep, replicate_succ, flatten_cons, rep]

theorem rep_add (one two : Nat) : rep pattern (one + two) = rep pattern one ++ rep pattern two := by
  rw [rep, replicate_add, flatten_append, rep, rep]

theorem rep_succ_last : rep pattern (count + 1) = rep pattern count ++ pattern := by
  rw [rep, replicate_succ', flatten_concat, rep]

@[simp] theorem rep_length : (rep pattern count).length = count * pattern.length := by
  induction count with
  | zero => rw [zero_mul]; rfl
  | succ count ih => rw [rep_succ, length_append, ih, succ_mul, add_comm]

theorem rep_mul : rep (rep pattern per) count = rep pattern (count * per) := by
  induction count with
  | zero => rw [zero_mul]; rfl
  | succ count ih => rw [rep_succ, ih, succ_mul, add_comm, rep_add]

end

variable {count : Nat}

theorem rep_inj (length : one.length = two.length) : rep one count = rep two count ↔ count = 0 ∨ one = two := by
  cases count with
  | zero => simp [rep]
  | succ count =>
    constructor
    · exact fun same => .inr (append_inj_left same length)
    · rintro (zero | rfl)
      · exact absurd zero (succ_ne_zero count)
      · rfl

/-- The range holds the element everywhere, and nothing else has changed. -/
def Filled (element : List UInt8) (dst count : Nat) (before after : Nat → UInt8) : Prop :=
  (∀ i < count, slice after (dst + i * element.length) element.length = element) ∧
    ∀ a, a < dst ∨ dst + count * element.length ≤ a → after a = before a

theorem slice_eq_rep (bytes : Nat → UInt8) (element : List UInt8) (dst count : Nat) :
    (∀ i < count, slice bytes (dst + i * element.length) element.length = element) ↔
      slice bytes dst (count * element.length) = rep element count := by
  induction count with
  | zero =>
    rw [zero_mul]
    exact ⟨fun _ => rfl, fun _ i bound => absurd bound (not_lt_zero i)⟩
  | succ count ih =>
    rw [succ_mul, slice_append, rep_succ_last]
    constructor
    · intro all
      rw [ih.mp fun i bound => all i (by omega), all count (by omega)]
    intro same i bound
    obtain ⟨front, last⟩ := append_inj same (by rw [slice_length, rep_length])
    rcases Nat.lt_succ_iff_lt_or_eq.mp bound with early | rfl
    · exact ih.mpr front i early
    · exact last

theorem filled_iff : Filled element dst count before after ↔ after = overlay before dst (rep element count) := by
  rw [Filled, slice_eq_rep]
  constructor
  · rintro ⟨inside, outside⟩
    funext a
    by_cases here : dst ≤ a ∧ a < dst + count * element.length
    · obtain ⟨k, rfl⟩ := Nat.exists_eq_add_of_le here.1
      have bound : k < count * element.length := by omega
      rw [overlay_inside (by rw [rep_length]; exact bound), ← inside, slice_getD bound]
    · rw [overlay_outside (by rw [rep_length]; omega)]
      exact outside a (by omega)
  · rintro rfl
    refine ⟨?_, fun a away => overlay_outside (by rw [rep_length]; exact away) _⟩
    rw [← rep_length, slice_overlay]

theorem overlay_inj (length : one.length = two.length) (bytes : Nat → UInt8) (start : Nat) :
    overlay bytes start one = overlay bytes start two ↔ one = two := by
  constructor
  · intro same
    rw [← slice_overlay bytes start one, same, length, slice_overlay]
  · rintro rfl
    rfl

/-! ### The loops -/

theorem fillElements_eq (element : List UInt8) (count ptr : Nat) (mem : Nat → UInt8) :
    fillElements element count ptr mem = overlay mem ptr (rep element count) := by
  induction count generalizing ptr mem with
  | zero => exact (overlay_nil mem ptr).symm
  | succ count ih => rw [fillElements, ih, overlay_append, ← rep_succ]

/-- How many elements go in before an address is aligned; addresses are counted in elements, of
which there are `per` in a vector. -/
def lead (per index count : Nat) : Nat := min count ((per - index % per) % per)

theorem lead_le (per index count : Nat) : lead per index count ≤ count := min_le_left _ _

theorem lead_succ (positive : 0 < per) (unaligned : index % per ≠ 0) :
    lead per index (count + 1) = lead per (index + 1) count + 1 := by
  have bound := mod_lt index positive
  have one : 1 % per = 1 := mod_eq_of_lt (by omega)
  have gap : (per - index % per) % per = per - index % per := mod_eq_of_lt (by omega)
  have next : (per - (index + 1) % per) % per = per - index % per - 1 := by
    rw [add_mod_eq_ite, one]
    split
    · rw [show index % per + 1 - per = 0 by omega, Nat.sub_zero, Nat.mod_self]
      omega
    · rw [mod_eq_of_lt (by omega)]
      omega
  rw [lead, lead, gap, next]
  omega

/-- Behind the first loop the address is aligned, unless everything has been stored. -/
theorem aligned_of_lead (positive : 0 < per) (more : lead per index count < count) :
    (index + lead per index count) % per = 0 := by
  rw [lead] at more ⊢
  have bound := mod_lt index positive
  rw [Nat.min_eq_right (by omega)]
  by_cases zero : index % per = 0
  · rw [zero, Nat.sub_zero, Nat.mod_self, Nat.add_zero, zero]
  · rw [mod_eq_of_lt (show per - index % per < per by omega), add_mod,
      mod_eq_of_lt (show per - index % per < per by omega), show index % per + (per - index % per) = per by omega, mod_self]

theorem alignFill_eq (some : 0 < element.length) (positive : 0 < per) (count index : Nat) (mem : Nat → UInt8) :
    alignFill (element.length * per) element count (element.length * index) mem =
      (element.length * (index + lead per index count), count - lead per index count,
        overlay mem (element.length * index) (rep element (lead per index count))) := by
  induction count generalizing index mem with
  | zero =>
    rw [alignFill, le_zero.mp (lead_le per index 0)]
    exact congrArg _ (congrArg _ (overlay_nil _ _).symm)
  | succ count ih =>
    rw [alignFill, mul_mod_mul_left]
    by_cases aligned : index % per = 0
    · rw [if_neg (by simp [aligned]), lead, aligned, Nat.sub_zero, Nat.mod_self, Nat.min_zero]
      exact congrArg _ (congrArg _ (overlay_nil _ _).symm)
    have gap : element.length * (index % per) ≠ 0 := mul_ne_zero (by omega) aligned
    rw [if_pos gap, ← mul_succ, ih, lead_succ positive aligned, mul_succ, overlay_append, ← rep_succ,
      show index.succ = index + 1 from rfl]
    simp only [Prod.mk.injEq, and_true]
    exact ⟨congrArg _ (by omega), by omega⟩

/-! ### The registers -/

theorem broadcast_spec (width r : Nat) (unit : VectorUnit) :
    (broadcast width r unit).mem = unit.mem ∧ ∀ s ≤ r, (broadcast width r unit).vector s width = unit.vector 0 width := by
  induction r with
  | zero =>
    refine ⟨rfl, fun s bound => ?_⟩
    rw [le_zero.mp bound]
    rfl
  | succ r ih =>
    obtain ⟨mem, vectors⟩ := ih
    refine ⟨mem, fun s bound => ?_⟩
    rw [broadcast, move]
    rcases le_succ_iff.mp bound with early | rfl
    · rw [vector_setReg_of_ne (by omega)]
      exact vectors s early
    · rw [vector_setReg_self]
      exact vectors 0 (zero_le r)

theorem slice_getD_self (pattern : List UInt8) : slice (fun i => pattern.getD i 0) 0 pattern.length = pattern := by
  refine ext_getElem (slice_length _ _ _) fun i bound inside => ?_
  simp only [slice, getElem_map, getElem_range, zero_add]
  exact getD_eq_getElem _ _ inside

section
variable (unit : VectorUnit) (element : List UInt8)

theorem loadPattern_spec (length : pattern.length = width) :
    (loadPattern unit width pattern).mem = unit.mem ∧ (loadPattern unit width pattern).vector 0 width = pattern ∧
      (loadPattern unit width pattern).vectors width 8 = rep pattern 8 := by
  obtain ⟨mem, vectors⟩ := broadcast_spec width 7 (unit.setReg 0 width fun i => pattern.getD i 0)
  have first : (unit.setReg 0 width fun i => pattern.getD i 0).vector 0 width = pattern := by
    rw [vector_setReg_self, ← length, slice_getD_self]
  have each : ∀ s ≤ 7, (loadPattern unit width pattern).vector s width = pattern := fun s bound => (vectors s bound).trans first
  refine ⟨mem, each 0 (by omega), ?_⟩
  have all (count : Nat) (few : count ≤ 8) : (loadPattern unit width pattern).vectors width count = rep pattern count := by
    induction count with
    | zero => rfl
    | succ count ih =>
      rw [VectorUnit.vectors, ih (by omega), each count (by omega), rep_succ_last]
  exact all 8 (le_refl 8)

/-- Vectors stored one after the other, in blocks or by themselves. -/
theorem storeLoop_spec {step : Nat → VectorUnit → Option VectorUnit} {unit : VectorUnit} {data : List UInt8}
    (round : ∀ i unit', i < count → unit'.reg = unit.reg → ∃ after, step i unit' = some after ∧ after.reg = unit'.reg ∧
      after.mem = overlay unit'.mem (ptr + i * data.length) data) :
    ∃ after, forUp step count unit = some after ∧ after.reg = unit.reg ∧ after.mem = overlay unit.mem ptr (rep data count) := by
  let stored (k : Nat) (after : VectorUnit) : Prop := after.reg = unit.reg ∧ after.mem = overlay unit.mem ptr (rep data k)
  refine forUp_spec stored ⟨rfl, (overlay_nil _ _).symm⟩ fun k middle bound kept => ?_
  obtain ⟨after, run, reg, mem⟩ := round k middle bound kept.1
  refine ⟨after, run, reg.trans kept.1, ?_⟩
  rw [mem, kept.2, ← rep_length, overlay_append, rep_succ_last]

/-- What the single vectors behind the blocks hold: the pattern, if a block has been stored, and else
what was in the first register when the function was called. -/
def lastVector (per left : Nat) : List UInt8 :=
  if 0 < left / (8 * per) then rep element per else unit.vector 0 (element.length * per)

def fillBytes (per index count : Nat) : List UInt8 :=
  let left := count - lead per index count
  rep element (lead per index count) ++ rep (rep (rep element per) 8) (left / (8 * per)) ++
    rep (lastVector unit element per left) (left % (8 * per) / per) ++ rep element (left % per)

/-- The blocks: eight registers with the pattern each time. -/
theorem storeBlocks_spec {unit : VectorUnit} {pattern : List UInt8} (ptr : Nat) (length : pattern.length = width)
    (loaded : 0 < blocks → unit.vectors width 8 = rep pattern 8) (aligned : 0 < blocks → ptr % width = 0) :
    ∃ after, forUp (fun i unit => storeEight width (ptr + i * (8 * width)) unit) blocks unit = some after ∧
      after.reg = unit.reg ∧ after.mem = overlay unit.mem ptr (rep (rep pattern 8) blocks) := by
  refine storeLoop_spec fun i unit' bound regs => ?_
  have here : (ptr + i * (8 * width)) % width = 0 := by
    rw [← mul_assoc, add_mul_mod_self_right]
    exact aligned (by omega)
  obtain ⟨after, run, reg, mem⟩ := storeAll_spec unit' here 8
  refine ⟨after, run, reg, ?_⟩
  have same : unit'.vectors width 8 = rep pattern 8 := by
    rw [← loaded (by omega)]
    exact vectors_congr fun r _ => by rw [vector, vector, regs]
  rw [mem, same, rep_length, length]

/-- Single vectors, all from the first register. -/
theorem storeVectors_spec (ptr width count : Nat) (aligned : 0 < count → ptr % width = 0) :
    ∃ after, forUp (fun i unit => storeAligned unit width 0 (ptr + i * width)) count unit = some after ∧
      after.reg = unit.reg ∧ after.mem = overlay unit.mem ptr (rep (unit.vector 0 width) count) := by
  refine storeLoop_spec fun i unit' bound regs => ?_
  have here : (ptr + i * width) % width = 0 := by
    rw [add_mul_mod_self_right]
    exact aligned (by omega)
  have same : unit'.vector 0 width = unit.vector 0 width := by rw [vector, vector, regs]
  refine ⟨_, if_pos here, rfl, ?_⟩
  rw [store, same, vector_length]

end

theorem vectorFill_spec (some : 0 < element.length) (positive : 0 < per) (unit : VectorUnit) (index count : Nat) :
    ∃ after, vectorFill (element.length * per) element unit (element.length * index) count = Option.some after ∧
      after.mem = overlay unit.mem (element.length * index) (fillBytes unit element per index count) := by
  have per_eq : element.length * per / element.length = per := Nat.mul_div_cancel_left per some
  have length : (rep element per).length = element.length * per := by rw [rep_length, mul_comm]
  simp only [vectorFill, per_eq, alignFill_eq some positive, fillBytes]
  generalize left_eq : count - lead per index count = left
  -- an address with something still to store behind it is aligned
  let width := element.length * per
  have aligned (more : 0 < left) : (element.length * (index + lead per index count)) % width = 0 := by
    rw [mul_mod_mul_left, aligned_of_lead positive (by omega), mul_zero]
  have first : element.length * (index + lead per index count) =
      element.length * index + (rep element (lead per index count)).length := by
    rw [rep_length, mul_add, mul_comm (lead per index count)]
  generalize element.length * (index + lead per index count) = ptr at aligned first
  generalize rep element (lead per index count) = front at first
  generalize start : ({ unit with mem := overlay unit.mem (element.length * index) front } : VectorUnit) = unit1
  have mem1 : unit1.mem = overlay unit.mem (element.length * index) front := start ▸ rfl
  -- the registers
  generalize ready : (if 0 < left / (8 * per) then loadPattern unit1 width (rep element per) else unit1) = unit2
  obtain ⟨mem2, last, all⟩ : unit2.mem = unit1.mem ∧ unit2.vector 0 width = lastVector unit element per left ∧
      (0 < left / (8 * per) → unit2.vectors width 8 = rep (rep element per) 8) := by
    rw [lastVector]
    by_cases blocks : 0 < left / (8 * per)
    · rw [if_pos blocks] at ready ⊢
      obtain ⟨mem, first, eight⟩ := loadPattern_spec unit1 length
      exact ready ▸ ⟨mem, first, fun _ => eight⟩
    · rw [if_neg blocks] at ready ⊢
      exact ready ▸ start ▸ ⟨rfl, rfl, fun more => absurd more blocks⟩
  obtain ⟨unit3, run3, reg3, mem3⟩ := storeBlocks_spec ptr length all fun more => aligned (pos_of_div_pos more)
  have last3 : unit3.vector 0 width = lastVector unit element per left := by
    rw [← last, vector, vector, reg3]
  have second : left / (8 * per) * (8 * width) = (rep (rep (rep element per) 8) (left / (8 * per))).length := by
    rw [rep_length, rep_length, length]
  obtain ⟨unit4, run4, -, mem4⟩ := storeVectors_spec unit3 (ptr + left / (8 * per) * (8 * width))
    width (left % (8 * per) / per) fun more => by
      rw [← mul_assoc, add_mul_mod_self_right]
      exact aligned (pos_of_ne_zero fun zero => by rw [zero] at more; simp at more)
  have third : left % (8 * per) / per * width =
      (rep (lastVector unit element per left) (left % (8 * per) / per)).length := by
    rw [rep_length, ← last, vector_length]
  rw [run3, bind_eq_bind, bind_some, run4, bind_some]
  refine ⟨_, rfl, ?_⟩
  rw [fillElements_eq, mem4, mem3, mem2, mem1, last3, first, second, third, overlay_append, overlay_append, overlay_append]
  simp

/-- There is a single vector to store but no block, so nothing has been loaded into the registers. -/
def Unloaded (per index count : Nat) : Prop :=
  per ≤ count - lead per index count ∧ count - lead per index count < 8 * per

instance (per index count : Nat) : Decidable (Unloaded per index count) := inferInstanceAs (Decidable (_ ∧ _))

theorem lastVector_length (unit : VectorUnit) (element : List UInt8) (per left : Nat) :
    (lastVector unit element per left).length = (rep element per).length := by
  rw [lastVector, rep_length]
  split
  · exact rep_length element per
  · rw [vector_length, mul_comm]

theorem rep_parts (element : List UInt8) (per index count : Nat) : rep element count =
      let left := count - lead per index count
      rep element (lead per index count) ++ rep (rep (rep element per) 8) (left / (8 * per)) ++
        rep (rep element per) (left % (8 * per) / per) ++ rep element (left % per) := by
  have few := lead_le per index count
  have blocks := div_add_mod' (count - lead per index count) (8 * per)
  have vectors := div_add_mod' ((count - lead per index count) % (8 * per)) per
  rw [mod_mul_left_mod] at vectors
  simp only [rep_mul, ← rep_add]
  refine congrArg (rep element) ?_
  omega

/-- A fill stores the pattern everywhere except, if the registers have not been loaded, in the single
vectors. -/
theorem fillBytes_eq_iff (positive : 0 < per) (unit : VectorUnit) (index count : Nat) :
    fillBytes unit element per index count = rep element count ↔
      (Unloaded per index count → unit.vector 0 (element.length * per) = rep element per) := by
  rw [rep_parts element per index count, fillBytes, append_cancel_right_eq, append_cancel_left_eq,
    rep_inj (lastVector_length _ _ _ _), lastVector, Unloaded]
  generalize count - lead per index count = left
  by_cases blocks : 8 * per ≤ left
  · have some := div_pos blocks (by omega)
    rw [if_pos some]
    exact ⟨fun _ few => absurd few.2 (by omega), fun _ => .inr rfl⟩
  rw [if_neg (by rw [Nat.div_eq_of_lt (by omega)]; omega), Nat.mod_eq_of_lt (by omega), Nat.div_eq_zero_iff]
  constructor
  · rintro (none | same) few
    · omega
    · exact same
  · intro loaded
    by_cases some : per ≤ left
    · exact .inr (loaded ⟨some, by omega⟩)
    · exact .inl (.inr (by omega))

theorem vectorFill_filled_iff (some : 0 < element.length) (positive : 0 < per) (unit : VectorUnit)
    (index count : Nat) :
    ∃ after, vectorFill (element.length * per) element unit (element.length * index) count = Option.some after ∧
      (Filled element (element.length * index) count unit.mem after.mem ↔
        (Unloaded per index count → unit.vector 0 (element.length * per) = rep element per)) := by
  obtain ⟨after, run, mem⟩ := vectorFill_spec some positive unit index count
  refine ⟨after, run, ?_⟩
  have length : (fillBytes unit element per index count).length = (rep element count).length := by
    rw [rep_parts element per index count, fillBytes]
    simp [rep_length, lastVector_length]
  rw [filled_iff, mem, overlay_inj length, fillBytes_eq_iff positive]

/-! ### The functions -/

def Fills (result : Option VectorUnit) (element : List UInt8) (dst count : Nat) (before : Nat → UInt8) : Prop :=
  ∃ after, result = some after ∧ Filled element dst count before after.mem

/-- Where nothing is stored at all: a range at the null pointer, unless it holds the value already. Where
something else is stored: more elements than the plain loop takes, at least one vector of them behind
the aligned address but fewer than eight, and something else in the first register. -/
def Sets (unit : VectorUnit) (element : List UInt8) (per small dst count : Nat) : Prop :=
  if dst = 0 then ∀ i < count, slice unit.mem (i * element.length) element.length = element
  else small ≤ count → Unloaded per (dst / element.length) count → unit.vector 0 (element.length * per) = rep element per

/-- The two dispatching functions, and the four they call, differ only in numbers. -/
theorem fills_iff_sets (per : Nat) (some : 0 < element.length) (positive : 0 < per) (large : 0 < small)
    (unit : VectorUnit) (whole : dst % element.length = 0) (count : Nat) :
    Fills (if dst = 0 ∨ count = 0 then Option.some unit
      else if count < small then Option.some { unit with mem := fillElements element count dst unit.mem }
      else vectorFill (element.length * per) element unit dst count) element dst count unit.mem ↔
      Sets unit element per small dst count := by
  obtain ⟨index, rfl⟩ := dvd_of_mod_eq_zero whole
  rw [Sets, Nat.mul_div_cancel_left index some]
  by_cases null : element.length * index = 0
  · rw [if_pos null, if_pos (.inl null), null]
    constructor
    · rintro ⟨after, same, inside, -⟩
      cases same
      simpa only [zero_add] using inside
    · intro already
      exact ⟨unit, rfl, by simpa only [zero_add] using already, fun _ _ => rfl⟩
  · rw [if_neg null]
    by_cases few : count < small
    · -- nothing at all, or the plain loop
      refine iff_of_true ?_ fun many => absurd few (by omega)
      by_cases zero : count = 0
      · rw [if_pos (.inr zero), zero]
        exact ⟨unit, rfl, fun i bound => absurd bound (not_lt_zero i), fun _ _ => rfl⟩
      · rw [if_neg (by simp [null, zero]), if_pos few]
        exact ⟨_, rfl, filled_iff.mpr (fillElements_eq _ _ _ _)⟩
    · rw [if_neg (by simp [null]; omega), if_neg few]
      obtain ⟨after, run, iff⟩ := vectorFill_filled_iff some positive unit index count
      rw [run]
      constructor
      · rintro ⟨_, same, filled⟩
        cases same
        exact fun _ => iff.mp filled
      · exact fun loaded => ⟨after, rfl, iff.mpr (loaded (by omega))⟩

def vectorSize (avx2 : Bool) : Nat := if avx2 then avx2MmregSize else sseMmregSize

/-- Both fills do what they are called for exactly if the vector registers are not used before they are
loaded, or hold the value by chance. -/
theorem memset_fills_iff (avx2 : Bool) (unit : VectorUnit) (dst : Nat) (value : BitVec 32) (count : Nat) :
    (Fills (optimizedMemset avx2 unit dst value count) [lowByte value] dst count unit.mem ↔
      Sets unit [lowByte value] (vectorSize avx2) 64 dst count) ∧
    (dst % 4 = 0 → (Fills (optimizedMemsetDword avx2 unit dst value count) (dword value) dst count unit.mem ↔
      Sets unit (dword value) (vectorSize avx2 / 4) 16 dst count)) := by
  constructor
  · have one : 0 < [lowByte value].length := one_pos
    cases avx2 with
    | true => exact fills_iff_sets 32 one (by decide) (by decide) unit (mod_one dst) count
    | false => exact fills_iff_sets 16 one (by decide) (by decide) unit (mod_one dst) count
  · intro aligned
    have length : (dword value).length = 4 := leBytes_length _ _
    cases avx2 with
    | true => exact fills_iff_sets 8 (by omega) (by decide) (by decide) unit aligned count
    | false => exact fills_iff_sets 4 (by omega) (by decide) (by decide) unit aligned count

def zeroUnit : VectorUnit := { mem := fun _ => 0, reg := fun _ _ => 0 }

/-- A page of double words is filled in blocks. -/
theorem memset_fills_page : Fills (optimizedMemsetDword true zeroUnit 4100 7 1024) (dword 7) 4100 1024 zeroUnit.mem :=
  ((memset_fills_iff true zeroUnit 4100 7 1024).2 (by decide)).mpr fun _ unloaded => absurd unloaded (by decide)

/-- 64 bytes at an aligned address: four vectors, all of them from a register that was never loaded. -/
theorem memset_of_four_vectors : ¬ Fills (optimizedMemset false zeroUnit 4096 0xAA 64) [0xAA] 4096 64 zeroUnit.mem := by
  rintro ⟨after, run, inside, -⟩
  have byte : (optimizedMemset false zeroUnit 4096 0xAA 64).map (fun unit => slice unit.mem 4096 1) =
    some [0] := by decide +kernel
  rw [run] at byte
  cases (inside 0 (by decide)).symm.trans (some.inj byte)

end Sirius.Lib
