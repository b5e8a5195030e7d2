import Sirius.Memory.Paging

/-! Disk transfers of `ahci.c`. A command carries the sectors it asks for in the bytes of
its register frame, and the memory they go to as a table of physical ranges. The port's
registers matter only through the slots that they show as busy; how a command ends is the
disk's business. -/
namespace Sirius.Drivers.Ahci
open Memory BitVec
open Nat (add_one_mul and_lt_two_pow mod_eq_of_lt or_lt_two_pow shiftRight_eq_div_pow)
open List hiding count

/-- An entry of the range table: the address in two halves and the length less one. -/
structure PrdtEntry where
  dba : BitVec 32
  dbau : BitVec 32
  dbc : BitVec 22
  i : Bool
  deriving DecidableEq

structure Command where
  slot : Nat
  w : Bool
  prdt : List PrdtEntry
  lba0 : BitVec 8
  lba1 : BitVec 8
  lba2 : BitVec 8
  lba3 : BitVec 8
  lba4 : BitVec 8
  lba5 : BitVec 8
  countl : BitVec 8
  counth : BitVec 8

def prdtPerCmd : Nat := 8

def chunkSize (bytesLeft : BitVec 32) : BitVec 32 := if bytesLeft > 0x400000 then 0x400000 else bytesLeft

/-- The loop that fills the table; what is left when the table is full comes back with it. -/
def fillPrdt : Nat → BitVec 32 → BitVec 64 → List PrdtEntry × BitVec 32
  | 0, bytesLeft, _ => ([], bytesLeft)
  | room + 1, bytesLeft, currentPhys =>
    if bytesLeft > 0 then
      let chunk := chunkSize bytesLeft
      let (entries, left) := fillPrdt room (bytesLeft - chunk) (currentPhys + chunk.setWidth 64)
      ({ dba := currentPhys.setWidth 32, dbau := (currentPhys >>> 32).setWidth 32, dbc := (chunk - 1).setWidth 22
         i := bytesLeft ≤ 0x400000 } :: entries, left)
    else ([], bytesLeft)

/-- The header and the register frame of the command. -/
def fillCfis (slot : Nat) (writeFlag : Bool) (prdt : List PrdtEntry) (lba : BitVec 64) (sectorCount : BitVec 32) : Command where
  slot := slot
  w := writeFlag
  prdt := prdt
  lba0 := lba.setWidth 8
  lba1 := (lba >>> 8).setWidth 8
  lba2 := (lba >>> 16).setWidth 8
  lba3 := (lba >>> 24).setWidth 8
  lba4 := (lba >>> 32).setWidth 8
  lba5 := (lba >>> 40).setWidth 8
  countl := sectorCount.setWidth 8
  counth := (sectorCount >>> 8).setWidth 8

structure Device where
  present : Bool
  ci : BitVec 32
  sact : BitVec 32

def ahciFindFreeSlot (device : Device) : Option Nat :=
  (range 32).find? fun i => !(device.ci ||| device.sact).getLsbD i

def ahciDmaIo (device : Device) (lba : BitVec 64) (sectorCount : BitVec 32) (physBuffer : BitVec 64) (writeFlag : Bool) :
    Except Int Command :=
  match ahciFindFreeSlot device with
  | none => .error (-1)
  | some slot =>
    let (prdt, bytesLeft) := fillPrdt prdtPerCmd (sectorCount * 512) physBuffer
    if bytesLeft > 0 then .error (-2) else .ok (fillCfis slot writeFlag prdt lba sectorCount)

/-- `ahci_block_read` and `ahci_block_write`, with the flag that each of them passes on. -/
def ahciBlockIo (devices : List Device) (deviceId : Nat) (lba : BitVec 64) (count : BitVec 32) (physBuffer : BitVec 64)
    (writeFlag : Bool) : Except Int Command :=
  match devices[deviceId]? with
  | none => .error (-1)
  | some device => if device.present then ahciDmaIo device lba count physBuffer writeFlag else .error (-1)

/-- `ahci_backend_read_blocks` and `ahci_backend_write_blocks`: only the first byte of the
buffer is translated. -/
def ahciBackendBlocks (mem : PhysMem) (root : Frame) (devices : List Device) (portId : Nat) (lba : BitVec 64) (count : BitVec 32)
    (buffer : BitVec 64) (writeFlag : Bool) : Except Int Command :=
  if buffer = 0 then .error (-1) else
    let physBuf := vmmGetPhysical mem root buffer
    if physBuf = 0 then .error (-3) else ahciBlockIo devices portId lba count physBuf writeFlag

/-! ### What the disk makes of a command -/

def PrdtEntry.bytes (entry : PrdtEntry) : List Nat :=
  (range (entry.dbc.toNat + 1)).map fun i => entry.dba.toNat + entry.dbau.toNat * 2 ^ 32 + i

namespace Command

def lba (command : Command) : Nat :=
  command.lba0.toNat + command.lba1.toNat * 2 ^ 8 + command.lba2.toNat * 2 ^ 16 + command.lba3.toNat * 2 ^ 24 +
    command.lba4.toNat * 2 ^ 32 + command.lba5.toNat * 2 ^ 40

/-- A count of zero stands for all 65536 sectors. -/
def count (command : Command) : Nat :=
  let sectors := command.countl.toNat + command.counth.toNat * 2 ^ 8
  if sectors = 0 then 2 ^ 16 else sectors

/-- The command moves these sectors to or from these bytes of memory. -/
structure Covers (command : Command) (lba count : Nat) (phys : Nat → Nat) : Prop where
  bytes : command.prdt.flatMap PrdtEntry.bytes = (range (512 * count)).map phys
  entries : ∀ entry ∈ command.prdt, entry.bytes.length ≤ 0x400000
  lba : command.lba = lba
  count : command.count = count

end Command

theorem chunkSize_toNat (bytesLeft : BitVec 32) : (chunkSize bytesLeft).toNat = min bytesLeft.toNat 0x400000 := by
  unfold chunkSize
  split
  · have : 0x400000#32 < bytesLeft := by assumption
    bv_omega
  · have : ¬0x400000#32 < bytesLeft := by assumption
    bv_omega

theorem PrdtEntry.bytes_eq (phys : BitVec 64) (chunk : BitVec 32) (i : Bool) (positive : 0 < chunk.toNat)
    (small : chunk.toNat ≤ 0x400000) :
    PrdtEntry.bytes ⟨phys.setWidth 32, (phys >>> 32).setWidth 32, (chunk - 1).setWidth 22, i⟩ =
      (range chunk.toNat).map (phys.toNat + ·) := by
  have length : ((chunk - 1).setWidth 22).toNat + 1 = chunk.toNat := by
    bv_omega
  have base : (phys.setWidth 32).toNat + ((phys >>> 32).setWidth 32).toNat * 2 ^ 32 = phys.toNat := by
    simp only [toNat_setWidth, toNat_ushiftRight, shiftRight_eq_div_pow]
    omega
  simp only [PrdtEntry.bytes, length, base]

/-- The entries name consecutive bytes, from the first byte on. -/
theorem fillPrdt_spec (room : Nat) (left : BitVec 32) (phys : BitVec 64) (fits : phys.toNat + left.toNat < 2 ^ 64) :
    (fillPrdt room left phys).1.flatMap PrdtEntry.bytes =
        (range (min left.toNat (room * 0x400000))).map (phys.toNat + ·) ∧
      (fillPrdt room left phys).2.toNat = left.toNat - room * 0x400000 := by
  induction room generalizing left phys with
  | zero => simp [fillPrdt]
  | succ room ih =>
    rw [fillPrdt]
    split
    · have size := chunkSize_toNat left
      have positive : 0 < left.toNat := by bv_omega
      generalize chunkSize left = chunk at size
      have rest : (left - chunk).toNat = left.toNat - chunk.toNat := by bv_omega
      have next : (phys + chunk.setWidth 64).toNat = phys.toNat + chunk.toNat := by bv_omega
      obtain ⟨entries, more⟩ := ih (left - chunk) (phys + chunk.setWidth 64) (by omega)
      refine ⟨?_, by rw [more, rest, size, add_one_mul]; omega⟩
      rw [flatMap_cons, entries, PrdtEntry.bytes_eq phys chunk _ (by omega) (by omega), next, rest]
      rw [show min left.toNat ((room + 1) * 0x400000) = chunk.toNat + min (left.toNat - chunk.toNat) (room * 0x400000) by
        rw [size, add_one_mul]; omega, range_add, map_append, map_map]
      simp only [Function.comp_def, Nat.add_assoc]
    · have none : left.toNat = 0 := by bv_omega
      simp [none]

theorem vmmGetPhysical_lt (mem : PhysMem) (root : Frame) (virt : BitVec 64) : (vmmGetPhysical mem root virt).toNat < 2 ^ 52 := by
  have page (frame : Frame) : (addrOf frame).toNat < 2 ^ 52 := by
    rw [addrOf_toNat]
    omega
  have offset (mask : BitVec 64) (small : mask.toNat < 2 ^ 52) (word : BitVec 64) : (word &&& mask).toNat < 2 ^ 52 := by
    exact and_lt_two_pow _ small
  simp only [vmmGetPhysical]
  repeat' split
  all_goals first
    | decide
    | rw [toNat_or]
      refine or_lt_two_pow ?_ (offset _ (by decide) _)
      first | exact page _ | exact offset _ (by decide) _

theorem ahciDmaIo_ok (issued : ahciDmaIo device lba sectorCount physBuffer writeFlag = .ok command) :
    ∃ slot, (fillPrdt prdtPerCmd (sectorCount * 512) physBuffer).2 = 0 ∧
      command = fillCfis slot writeFlag (fillPrdt prdtPerCmd (sectorCount * 512) physBuffer).1 lba sectorCount := by
  unfold ahciDmaIo at issued
  split at issued
  · cases issued
  by_cases more : (fillPrdt prdtPerCmd (sectorCount * 512) physBuffer).2 > 0
  · simp only [if_pos more] at issued
    cases issued
  · simp only [if_neg more] at issued
    cases issued
    exact ⟨_, by bv_omega, rfl⟩

theorem fillCfis_lba : (fillCfis slot writeFlag prdt lba sectorCount).lba = lba.toNat % 2 ^ 48 := by
  simp only [Command.lba, fillCfis, toNat_setWidth, toNat_ushiftRight, shiftRight_eq_div_pow]
  omega

theorem fillCfis_count : (fillCfis slot writeFlag prdt lba sectorCount).count =
    if sectorCount.toNat % 2 ^ 16 = 0 then 2 ^ 16 else sectorCount.toNat % 2 ^ 16 := by
  have both : sectorCount.toNat % 2 ^ 8 + sectorCount.toNat / 2 ^ 8 % 2 ^ 8 * 2 ^ 8 = sectorCount.toNat % 2 ^ 16 := by omega
  simp only [Command.count, fillCfis, toNat_setWidth, toNat_ushiftRight, shiftRight_eq_div_pow, both]

theorem PrdtEntry.length_le (entry : PrdtEntry) : entry.bytes.length ≤ 0x400000 := by
  rw [PrdtEntry.bytes, length_map, length_range]
  omega

theorem ahciBackendBlocks_ok (issued : ahciBackendBlocks mem root devices portId lba count buffer writeFlag = .ok command) :
    ∃ device, ahciDmaIo device lba count (vmmGetPhysical mem root buffer) writeFlag = .ok command := by
  simp only [ahciBackendBlocks, ahciBlockIo] at issued
  repeat' split at issued
  all_goals first | exact ⟨_, issued⟩ | cases issued

/-- A buffer whose pages lie behind one another in memory as well. -/
def Contiguous (mem : PhysMem) (root : Frame) (buffer : BitVec 64) (length : Nat) : Prop :=
  ∀ i < length, (vmmGetPhysical mem root (buffer + BitVec.ofNat 64 i)).toNat = (vmmGetPhysical mem root buffer).toNat + i

theorem dma_covers_buffer_iff (issued : ahciBackendBlocks mem root devices portId lba count buffer writeFlag = .ok command) :
    command.Covers lba.toNat count.toNat (fun i => (vmmGetPhysical mem root (buffer + BitVec.ofNat 64 i)).toNat) ↔
      lba.toNat < 2 ^ 48 ∧ 1 ≤ count.toNat ∧ count.toNat ≤ 2 ^ 16 ∧ Contiguous mem root buffer (512 * count.toNat) := by
  obtain ⟨device, issued⟩ := ahciBackendBlocks_ok issued
  obtain ⟨slot, all, rfl⟩ := ahciDmaIo_ok issued
  have bound := vmmGetPhysical_lt mem root buffer
  obtain ⟨ranges, left⟩ := fillPrdt_spec prdtPerCmd (count * 512) (vmmGetPhysical mem root buffer) (by bv_omega)
  have size : (count * 512).toNat = 512 * count.toNat % 2 ^ 32 := by
    rw [toNat_mul, Nat.mul_comm]
    rfl
  have whole := Nat.sub_eq_zero_iff_le.mp (by rw [← left, all]; rfl)
  rw [min_eq_left whole, size] at ranges
  constructor
  · intro covers
    have lbaField := covers.lba
    have countField := covers.count
    have bytes := covers.bytes
    rw [fillCfis_lba] at lbaField
    rw [fillCfis_count] at countField
    have bounds : 1 ≤ count.toNat ∧ count.toNat ≤ 2 ^ 16 := by
      split at countField
      · omega
      · omega
    rw [fillCfis, ranges, mod_eq_of_lt (by omega), map_inj_left] at bytes
    exact ⟨by omega, bounds.1, bounds.2, fun i inside => (bytes i (mem_range.mpr inside)).symm⟩
  · rintro ⟨lbaSmall, positive, small, contiguous⟩
    refine ⟨?_, fun entry _ => entry.length_le, ?_, ?_⟩
    · rw [fillCfis, ranges, mod_eq_of_lt (by omega), map_inj_left]
      exact fun i inside => (contiguous i (mem_range.mp inside)).symm
    · rw [fillCfis_lba, mod_eq_of_lt lbaSmall]
    · rw [fillCfis_count]
      split
      · omega
      · omega

/-- A gigabyte of memory at its own addresses. -/
def identityTables : PhysMem := fun frame _ => if frame = 1 then 0x2001 else 0x81

theorem dma_covers_buffer_one_sector :
    ∃ command, ahciBackendBlocks identityTables 1 [⟨true, 0, 0⟩] 0 7 1 0x1000 false = .ok command ∧
      command.Covers 7 1 (fun i => (vmmGetPhysical identityTables 1 (0x1000 + BitVec.ofNat 64 i)).toNat) :=
  ⟨_, rfl, (dma_covers_buffer_iff
      (show ahciBackendBlocks identityTables 1 [⟨true, 0, 0⟩] 0 7 1 0x1000 false = .ok _ from rfl)).mpr
    ⟨by decide, by decide, by decide, by unfold Contiguous; decide +kernel⟩⟩

/-- Two pages behind one another whose frames are not. -/
def splitTables : PhysMem := fun frame i =>
  if frame = 1 then 0x2001 else if frame = 2 then 0x3001 else if frame = 3 then 0x4001 else if i = 1 then 0x10001 else 0x20001

/-- The second sector lies in another frame, and the disk gets the bytes behind the first. -/
theorem dma_leaves_buffer :
    ∃ command, ahciBackendBlocks splitTables 1 [⟨true, 0, 0⟩] 0 0 2 0x1E00 false = .ok command ∧
      ¬command.Covers 0 2 (fun i => (vmmGetPhysical splitTables 1 (0x1E00 + BitVec.ofNat 64 i)).toNat) := by
  refine ⟨_, rfl, fun covers => ?_⟩
  have second := congrArg (fun bytes => bytes[512]?) covers.bytes
  exact absurd second (by decide +kernel)

end Sirius.Drivers.Ahci
