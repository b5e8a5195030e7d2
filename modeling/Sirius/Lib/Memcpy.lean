import Sirius.Support.VectorUnit

/-! `sse_memcpy.c`: memory copied in blocks of 256 bytes, in single vectors and in bytes, or, if an
address is not aligned, in words of eight bytes and in bytes. The direction flag is clear. -/
namespace Sirius.Lib
open Support Nat

/-- `rep movs`, with elements of so many bytes. -/
def repMovs (size dst src : Nat) : Nat → (Nat → UInt8) → Nat → UInt8
  | 0, mem => mem
  | count + 1, mem =>
    let mem := repMovs size dst src count mem
    overlay mem (dst + count * size) (slice mem (src + count * size) size)

section
variable (dst src : Nat)

def smallMemcpy (n : Nat) (unit : VectorUnit) : VectorUnit := { unit with mem := repMovs 1 dst src n unit.mem }

variable (len : Nat) (unit : VectorUnit)

/-- What both functions do with addresses that are not aligned. -/
def unalignedCopy : VectorUnit :=
  let qwords := len / 8
  let bytes := len % 8
  let unit := { unit with mem := repMovs 8 dst src qwords unit.mem }
  if bytes ≠ 0 then smallMemcpy (dst + qwords * 8) (src + qwords * 8) bytes unit else unit

/-- Eight vectors into the registers with the streaming load, and from them with the streaming store. -/
def sseHalf : Option VectorUnit := do
  let unit ← forUp (fun r unit => unit.loadAligned 16 r (src + 16 * r)) 8 unit
  forUp (fun r unit => unit.storeAligned 16 r (dst + 16 * r)) 8 unit

def sseBlock : Option VectorUnit := do
  let unit ← sseHalf dst src unit
  sseHalf (dst + 128) (src + 128) unit

def sseVector : Option VectorUnit := do
  let unit ← unit.loadAligned 16 0 src
  unit.storeAligned 16 0 dst

/-- Loads of any address, and streaming stores. -/
def avx2Block : Option VectorUnit := do
  let unit ← forUp (fun r unit => some (unit.load 32 r (src + 32 * r))) 8 unit
  forUp (fun r unit => unit.storeAligned 32 r (dst + 32 * r)) 8 unit

def avx2Vector : Option VectorUnit :=
  let unit := unit.load 32 0 src
  some (unit.store 32 0 dst)

end

/-- The body that the two functions share: `block` copies 256 bytes and `vector` as many as are in a
register. -/
def vectorCopy (width : Nat) (block vector : Nat → Nat → VectorUnit → Option VectorUnit) (unit : VectorUnit)
    (dst src len : Nat) : Option VectorUnit :=
  if dst % width ≠ 0 ∨ src % width ≠ 0 then some (unalignedCopy dst src len unit)
  else do
    let blocks := len / 256
    let unit ← forUp (fun i unit => block (dst + i * 256) (src + i * 256) unit) blocks unit
    let dst := dst + blocks * 256
    let src := src + blocks * 256
    let remBlocks := len % 256 / width
    let unit ← forUp (fun i unit => vector (dst + i * width) (src + i * width) unit) remBlocks unit
    let dst := dst + remBlocks * width
    let src := src + remBlocks * width
    return if len % width ≠ 0 then smallMemcpy dst src (len % width) unit else unit

def sseMemcpy (unit : VectorUnit) (dst src len : Nat) : Option VectorUnit := vectorCopy 16 sseBlock sseVector unit dst src len

def avx2Memcpy (unit : VectorUnit) (dst src len : Nat) : Option VectorUnit := vectorCopy 32 avx2Block avx2Vector unit dst src len

/-- `avx2` is `g_cpu_has_avx2`. The loop for short ranges goes byte by byte. -/
def optimizedMemcpy (avx2 : Bool) (unit : VectorUnit) (dst src bytes : Nat) : Option VectorUnit :=
  if dst = 0 ∨ src = 0 ∨ bytes = 0 then some unit
  else if bytes < 64 then some (smallMemcpy dst src bytes unit)
  else if avx2 then avx2Memcpy unit dst src bytes
  else sseMemcpy unit dst src bytes

/-! ### Copies in parts -/

/-- Two ranges of the same length have no byte in common. -/
def Apart (dst src len : Nat) : Prop := dst + len ≤ src ∨ src + len ≤ dst

def copied (dst src len : Nat) (mem : Nat → UInt8) : Nat → UInt8 := overlay mem dst (slice mem src len)

/-- Two copies behind each other are one, if the first does not touch what the second reads. -/
theorem copied_copied (apart : Apart dst src (one + two)) (mem : Nat → UInt8) :
    copied (dst + one) (src + one) two (copied dst src one mem) = copied dst src (one + two) mem := by
  have kept : slice (copied dst src one mem) (src + one) two = slice mem (src + one) two := by
    refine slice_congr fun i bound => overlay_outside ?_ _
    rw [slice_length]
    unfold Apart at apart
    omega
  rw [copied, kept, copied, copied, slice_append, ← overlay_append, slice_length]

/-- A step copies a number of bytes between ranges that are apart, and does not fault. -/
def CopiesAt (step : VectorUnit → Option VectorUnit) (dst src len : Nat) : Prop :=
  ∀ unit, ∃ after, step unit = some after ∧ after.mem = copied dst src len unit.mem

theorem Apart.inside (apart : Apart dst src len) (fits : skip + part ≤ len) : Apart (dst + skip) (src + skip) part := by
  unfold Apart at apart ⊢
  omega

theorem Apart.front (apart : Apart dst src len) (fits : part ≤ len) : Apart dst src part := by
  unfold Apart at apart ⊢
  omega

theorem CopiesAt.then (apart : Apart dst src (one + two))
    (copies : CopiesAt first dst src one) (more : CopiesAt second (dst + one) (src + one) two) :
    CopiesAt (fun unit => (first unit).bind second) dst src (one + two) := by
  intro unit
  obtain ⟨middle, run, mem⟩ := copies unit
  obtain ⟨after, run', mem'⟩ := more middle
  refine ⟨after, (congrArg (Option.bind · second) run).trans run', ?_⟩
  rw [mem', mem, copied_copied apart]

theorem CopiesAt.nil (dst src : Nat) : CopiesAt some dst src 0 := fun unit => ⟨unit, rfl, (overlay_nil unit.mem dst).symm⟩

theorem repMovs_eq {count size : Nat} (apart : Apart dst src (count * size)) (mem : Nat → UInt8) :
    repMovs size dst src count mem = copied dst src (count * size) mem := by
  induction count with
  | zero =>
    rw [Nat.zero_mul]
    exact (overlay_nil mem dst).symm
  | succ count ih =>
    rw [succ_mul] at apart ⊢
    rw [← copied_copied apart, repMovs, ih (apart.front (le_add_right _ _))]
    rfl

theorem smallMemcpy_copies (apart : Apart dst src n) : CopiesAt (fun unit => some (smallMemcpy dst src n unit)) dst src n := by
  rw [← Nat.mul_one n] at apart
  intro unit
  refine ⟨_, rfl, ?_⟩
  rw [smallMemcpy, repMovs_eq apart, Nat.mul_one]

/-- The last bytes are left out if there are none. -/
theorem tail_copies (apart : Apart dst src n) :
    CopiesAt (fun unit => some (if n ≠ 0 then smallMemcpy dst src n unit else unit)) dst src n := by
  by_cases zero : n = 0
  · subst zero
    exact .nil dst src
  · simp only [if_pos zero]
    exact smallMemcpy_copies apart

theorem unalignedCopy_copies (apart : Apart dst src len) :
    CopiesAt (fun unit => some (unalignedCopy dst src len unit)) dst src len := by
  have parts := div_add_mod' len 8
  rw [← parts] at apart
  have words : CopiesAt (fun unit => some { unit with mem := repMovs 8 dst src (len / 8) unit.mem }) dst src (len / 8 * 8) :=
    fun unit => ⟨_, rfl, repMovs_eq (apart.front (le_add_right _ _)) unit.mem⟩
  have both := words.then apart (tail_copies (apart.inside (Nat.le_refl _)))
  rwa [parts] at both

/-- A loop of copies of the same length. -/
theorem forUp_copies {step : Nat → Nat → VectorUnit → Option VectorUnit} {dst src size count : Nat}
    (apart : Apart dst src (count * size))
    (copies : ∀ i < count, CopiesAt (step (dst + i * size) (src + i * size)) (dst + i * size) (src + i * size) size) :
    CopiesAt (forUp (fun i unit => step (dst + i * size) (src + i * size) unit) count) dst src (count * size) := by
  induction count with
  | zero =>
    rw [Nat.zero_mul]
    exact .nil dst src
  | succ count ih =>
    rw [succ_mul] at apart ⊢
    exact (ih (apart.front (le_add_right _ _)) fun i bound => copies i (by omega)).then apart (copies count (by omega))

/-! ### Vectors -/

theorem add_mul_aligned (aligned : addr % width = 0) (k : Nat) : (addr + width * k) % width = 0 := by
  rw [add_mul_mod_self_left, aligned]

/-- All that is stored has been loaded before. -/
theorem vectors_copy
    (loads : ∀ r unit, load r unit = some (unit.load width r (src + width * r))) (aligned : dst % width = 0) (count : Nat) :
    CopiesAt (fun unit => (forUp load count unit).bind
      (forUp (fun r unit => VectorUnit.storeAligned unit width r (dst + width * r)) count))
      dst src (width * count) := by
  intro unit
  obtain ⟨loaded, run, mem, regs⟩ := VectorUnit.loadAll_spec unit loads count
  obtain ⟨after, run', -, mem'⟩ := VectorUnit.storeAll_spec loaded aligned count
  refine ⟨after, (congrArg (Option.bind · _) run).trans run', ?_⟩
  rw [mem', mem, regs, copied]

theorem sseHalf_copies (toAligned : dst % 16 = 0) (fromAligned : src % 16 = 0) : CopiesAt (sseHalf dst src) dst src 128 :=
  vectors_copy (fun r _ => if_pos (add_mul_aligned fromAligned r)) toAligned 8

theorem sseBlock_copies (toAligned : dst % 16 = 0) (fromAligned : src % 16 = 0) (apart : Apart dst src 256) :
    CopiesAt (sseBlock dst src) dst src 256 :=
  (sseHalf_copies toAligned fromAligned).then apart
    (sseHalf_copies (add_mul_aligned toAligned 8) (add_mul_aligned fromAligned 8))

/-! ### The functions -/

/-- Blocks, vectors and bytes together copy the whole range. -/
theorem vectorCopy_copies (divides : width ∣ 256)
    (blocks : ∀ dst src, dst % width = 0 → src % width = 0 → Apart dst src 256 → CopiesAt (block dst src) dst src 256)
    (vectors : ∀ dst src, dst % width = 0 → src % width = 0 → CopiesAt (vector dst src) dst src width)
    (apart : Apart dst src len) : CopiesAt (fun unit => vectorCopy width block vector unit dst src len) dst src len := by
  unfold vectorCopy
  by_cases aligned : dst % width ≠ 0 ∨ src % width ≠ 0
  · simp only [if_pos aligned]
    exact unalignedCopy_copies apart
  simp only [if_neg aligned]
  obtain ⟨toAligned, fromAligned⟩ : dst % width = 0 ∧ src % width = 0 := by omega
  obtain ⟨per, whole⟩ := divides
  have parts := div_add_mod' len 256
  have parts' := div_add_mod' (len % 256) width
  have last : len % 256 % width = len % width := by rw [whole, mod_mul_right_mod]
  have skipped (addr : Nat) (aligned : addr % width = 0) (i : Nat) : (addr + i * 256) % width = 0 := by
    rw [whole, Nat.mul_left_comm]
    exact add_mul_aligned aligned _
  have shifted (addr : Nat) (aligned : addr % width = 0) (i : Nat) : (addr + i * width) % width = 0 := by
    rw [Nat.mul_comm]
    exact add_mul_aligned aligned _
  rw [last] at parts'
  rw [← parts, ← parts'] at apart
  have first : CopiesAt (forUp (fun i unit => block (dst + i * 256) (src + i * 256) unit) (len / 256)) dst src
    (len / 256 * 256) :=
    forUp_copies (apart.front (le_add_right _ _)) fun i bound =>
      blocks _ _ (skipped dst toAligned i) (skipped src fromAligned i) (apart.inside (by omega))
  have behind := apart.inside (Nat.le_refl _)
  have second := forUp_copies (behind.front (le_add_right _ _)) fun i _ =>
    vectors _ _ (shifted _ (skipped dst toAligned _) i) (shifted _ (skipped src fromAligned _) i)
  have third := tail_copies (behind.inside (Nat.le_refl _))
  have all := first.then apart (second.then behind third)
  rw [parts', parts] at all
  exact all

def Copied (dst src n : Nat) (before after : Nat → UInt8) : Prop :=
  (∀ i < n, after (dst + i) = before (src + i)) ∧ ∀ a, a < dst ∨ dst + n ≤ a → after a = before a

theorem copied_spec (dst src n : Nat) (mem : Nat → UInt8) : Copied dst src n mem (copied dst src n mem) := by
  refine ⟨fun i bound => ?_, fun a away => overlay_outside (by rwa [slice_length]) _⟩
  rw [copied, overlay_inside (by rwa [slice_length]), slice_getD bound]

/-- Between ranges that are apart the copy is made whatever the alignment, and no instruction faults for
want of it. -/
theorem memcpy_copies (avx2 : Bool) (unit : VectorUnit) (dst src n : Nat) (target : dst ≠ 0) (source : src ≠ 0)
    (apart : Apart dst src n) :
    ∃ after, optimizedMemcpy avx2 unit dst src n = some after ∧ Copied dst src n unit.mem after.mem := by
  have copies : CopiesAt (fun unit => optimizedMemcpy avx2 unit dst src n) dst src n := by
    unfold optimizedMemcpy
    by_cases zero : n = 0
    · subst zero
      simp only [or_true, if_true]
      exact .nil dst src
    simp only [target, source, zero, or_self, if_false]
    by_cases few : n < 64
    · simp only [if_pos few]
      exact smallMemcpy_copies apart
    simp only [if_neg few]
    cases avx2 with
    | true =>
      exact vectorCopy_copies (by decide) (fun _ _ aligned _ _ => vectors_copy (fun _ _ => rfl) aligned 8)
        (fun _ _ _ _ _ => ⟨_, rfl, rfl⟩) apart
    | false =>
      exact vectorCopy_copies (by decide) (fun _ _ => sseBlock_copies)
        (fun _ _ toAligned fromAligned => vectors_copy (fun r _ => if_pos (add_mul_aligned fromAligned r)) toAligned 1) apart
  obtain ⟨after, run, mem⟩ := copies unit
  exact ⟨after, run, mem ▸ copied_spec dst src n unit.mem⟩

def countingUnit : VectorUnit := { mem := fun a => UInt8.ofNat a, reg := fun _ _ => 255 }

theorem memcpy_copies_page :
    ∃ after, optimizedMemcpy true countingUnit 8192 4096 300 = some after ∧ Copied 8192 4096 300 countingUnit.mem after.mem :=
  memcpy_copies true countingUnit 8192 4096 300 (by decide) (by decide) (.inr (by decide))

end Sirius.Lib
