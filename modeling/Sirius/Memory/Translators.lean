import Sirius.Memory.ShmOwnership

/-! The two functions of `vmm.c` that look an address up in the kernel's tables, against the
processor's own translation with its pages of 4 KB, 2 MB and 1 GB. -/
namespace Sirius.Memory
open Support BitVec

/-- The base in an entry with the `bits` low bits of an address. -/
def within (bits : Nat) (entry : Entry) (virt : BitVec 64) : BitVec 64 :=
  setField 0 (field 0 bits virt) (addrOf (address entry))

/-- The processor refuses more: addresses that are not canonical, entries with reserved bits set. -/
def processorAddress (mem : PhysMem) (root : Frame) (virt : BitVec 64) : Option (BitVec 64) :=
  let pml4e := mem root (pml4Index virt)
  let pdpte := mem (address pml4e) (pdptIndex virt)
  let pde := mem (address pdpte) (pdIndex virt)
  let pte := mem (address pde) (ptIndex virt)
  if ¬present pml4e ∨ ¬present pdpte then none
  else if pageSizeBit pdpte then some (within 30 pdpte virt)
  else if ¬present pde then none
  else if pageSizeBit pde then some (within 21 pde virt)
  else if present pte then some (within 12 pte virt)
  else none

/-- A page of 4 KB; or one of 2 MB whose entry has, below the base, the bits of the address; or one of
1 GB, with no bit there that the address has not, in which two words happen to hold the same frame: the first
with the size bit, or without it and the second. -/
def TranslatedAlike (mem : PhysMem) (root : Frame) (virt : BitVec 64) : Prop :=
  let pdpte := mem (address (mem root (pml4Index virt))) (pdptIndex virt)
  let pde := mem (address pdpte) (pdIndex virt)
  let pte := mem (address pde) (ptIndex virt)
  if pageSizeBit pdpte then
    (∀ i, 12 ≤ i → i < 30 → pdpte.getLsbD i → virt.getLsbD i) ∧
      ∀ i, 12 ≤ i → i < 52 → (if i < 30 then virt.getLsbD i else pdpte.getLsbD i) =
        (present pde && (pageSizeBit pde && pde.getLsbD i || !pageSizeBit pde && present pte && pte.getLsbD i))
  else pageSizeBit pde → ∀ i, 12 ≤ i → i < 21 → pde.getLsbD i = virt.getLsbD i

theorem getLsbD_base (entry : Entry) (i : Nat) :
    (addrOf (address entry)).getLsbD i = (decide (12 ≤ i ∧ i < 52) && entry.getLsbD i) := by
  simp only [addrOf, address, field, getLsbD_shiftLeft, getLsbD_setWidth, getLsbD_extractLsb']
  by_cases low : 12 ≤ i
  · rw [show 12 + (i - 12) = i by omega]
    grind
  · simp [low, show i < 12 by omega]

theorem base_mask (entry : Entry) : entry &&& 0x000FFFFFFFFFF000 = addrOf (address entry) := by
  rw [show (0x000FFFFFFFFFF000 : BitVec 64) = addrOf (address (allOnes 64)) by decide]
  apply eq_of_getLsbD_eq
  intro i small
  simp only [getLsbD_and, getLsbD_base, getLsbD_allOnes, small]
  grind

section
variable (fits : 12 ≤ bits ∧ bits ≤ 52) (entry : Entry) (virt : BitVec 64)
include fits

theorem getLsbD_within (i : Nat) : (within bits entry virt).getLsbD i =
    if i < bits then virt.getLsbD i else decide (i < 52) && entry.getLsbD i := by
  rw [within, getLsbD_setField _ _ _ (by omega), getLsbD_base]
  by_cases inside : i < bits
  · simp [inside, field]
  · simp [inside, show 12 ≤ i by omega]

/-- Both translators keep the bits that an entry has below its base, and `vmm_get_physical_address` leaves those of
the address out. -/
theorem base_eq_within (low : 12 ≤ n ∧ n ≤ bits) (ones : mask = BitVec.ofNat 64 (2 ^ n - 1)) :
    addrOf (address entry) ||| (virt &&& mask) = within bits entry virt ↔
      ∀ i, 12 ≤ i → i < bits → if i < n then entry.getLsbD i → virt.getLsbD i else entry.getLsbD i = virt.getLsbD i := by
  simp only [ones, eq_of_getLsbD_eq_iff, getLsbD_or, getLsbD_and, getLsbD_ofNat,
    Nat.testBit_two_pow_sub_one, getLsbD_base, getLsbD_within fits]
  grind

end

theorem addrOf_add (frame : Frame) (virt : BitVec 64) :
    addrOf frame + (virt &&& 0xFFF) = addrOf frame ||| (virt &&& 0xFFF) := by
  apply add_eq_or_of_and_eq_zero
  rw [← addrOf_masked, BitVec.and_comm virt, ← BitVec.and_assoc, BitVec.and_assoc (addrOf frame),
    show (~~~0xFFF &&& 0xFFF : BitVec 64) = 0 by decide]
  simp

/-- What two words say of an address if they are read as entries of a page directory and a page table. -/
def directoryFrame (pde pte : Entry) : Frame :=
  if present pde then if pageSizeBit pde then address pde else if present pte then address pte else 0 else 0

theorem directoryFrame_eq_within (pde pte entry : Entry) (virt : BitVec 64) :
    addrOf (directoryFrame pde pte) ||| (virt &&& 0xFFF) = within 30 entry virt ↔
      ∀ i, 12 ≤ i → i < 52 → (if i < 30 then virt.getLsbD i else entry.getLsbD i) =
        (present pde && (pageSizeBit pde && pde.getLsbD i || !pageSizeBit pde && present pte && pte.getLsbD i)) := by
  have bit : ∀ i, (addrOf (directoryFrame pde pte)).getLsbD i = (decide (12 ≤ i ∧ i < 52) &&
      (present pde && (pageSizeBit pde && pde.getLsbD i || !pageSizeBit pde && present pte && pte.getLsbD i))) := by
    intro i
    have zero : (addrOf (0 : Frame)).getLsbD i = false := by simp [addrOf]
    unfold directoryFrame
    split_ifs <;> simp_all [getLsbD_base]
  rw [show (0xFFF : BitVec 64) = BitVec.ofNat 64 (2 ^ 12 - 1) from rfl]
  simp only [eq_of_getLsbD_eq_iff, getLsbD_or, getLsbD_and, getLsbD_ofNat, Nat.testBit_two_pow_sub_one, bit,
    getLsbD_within (show 12 ≤ 30 ∧ 30 ≤ 52 by decide)]
  grind

theorem vmmGetPhysicalAddress_directory (m : Machine) (root : Frame) (virt : BitVec 64)
    (first : present (m.mem root (pml4Index virt)))
    (second : present (m.mem (address (m.mem root (pml4Index virt))) (pdptIndex virt))) :
    let pde := m.mem (address (m.mem (address (m.mem root (pml4Index virt))) (pdptIndex virt))) (pdIndex virt)
    (vmmGetPhysicalAddress m root virt).1 = addrOf (directoryFrame pde (m.mem (address pde) (ptIndex virt))) := by
  simp only [vmmGetPhysicalAddress, descend, Machine.read, Machine.scratchMap, Function.update_self, frameOf_addrOf, first,
    second, directoryFrame, if_true]
  repeat' split
  all_goals rfl

theorem translators_agree_iff (m : Machine) (root : Frame) (virt phys : BitVec 64)
    (mapped : processorAddress m.mem root virt = some phys) :
    vmmGetPhysical m.mem root virt = phys ∧
        vmmGetPhysical m.mem root virt = (vmmGetPhysicalAddress m root (pageOf virt)).1 + (virt &&& 0xFFF) ↔
      TranslatedAlike m.mem root virt := by
  rw [vmmGetPhysicalAddress_pageOf]
  simp only [processorAddress] at mapped
  split at mapped
  · cases mapped
  rename_i tables
  obtain ⟨first, second⟩ : present _ = true ∧ present _ = true := by simpa using tables
  rw [vmmGetPhysicalAddress_directory m root virt first second, addrOf_add]
  simp only [vmmGetPhysical, TranslatedAlike, ← directoryFrame_eq_within, first, second, not_true, if_false, base_mask]
  simp only [directoryFrame]
  generalize m.mem (address (m.mem root (pml4Index virt))) (pdptIndex virt) = pdpte at *
  generalize m.mem (address pdpte) (pdIndex virt) = pde at *
  have huge := @base_eq_within 30 (by decide) pdpte virt 30 _ (by decide) rfl
  have large := @base_eq_within 21 (by decide) pde virt 21 _ (by decide) rfl
  have largeBase := @base_eq_within 21 (by decide) pde virt 12 _ (by decide) rfl
  have small := @base_eq_within 12 (by decide) (m.mem (address pde) (ptIndex virt)) virt 12 _ (by decide) rfl
  grind

theorem translators_agree_small_page : TranslatedAlike (fun _ _ => 0x1003) 0 0x2345 :=
  (translators_agree_iff ⟨fun _ _ => 0x1003, ⟨fun _ => 0, 0, by decide⟩, fun _ => 0⟩ 0 0x2345 0x1345 (by decide)).mp (by decide)

/-- A page of 2 MB at 0x200000, looked up at its fourth 4 KB. -/
theorem large_page_loses_offset :
    let mem : PhysMem := fun frame _ => if frame = 0 then 0x1003 else if frame = 1 then 0x2003 else 0x200083
    processorAddress mem 0 0x3000 = some 0x203000 ∧ vmmGetPhysical mem 0 0x3000 = 0x203000 ∧
      (vmmGetPhysicalAddress ⟨mem, ⟨fun _ => 0, 0, by decide⟩, fun _ => 0⟩ 0 (pageOf 0x3000)).1 = 0x200000 := by
  decide

end Sirius.Memory
