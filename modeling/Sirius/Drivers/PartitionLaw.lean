import Sirius.Drivers.Partitions

/-! What a partition table has to say for the devices made from it to stay within the disk,
and what a request has to be for a device to stay within its partition. -/
namespace Sirius.Drivers
open Support List BitVec

section Scan
variable {used : Nat → Bool} {accesses : Nat → List Access} {make : Nat → Nat → Partition} {granted : Nat → Bool}

theorem mem_accesses : a ∈ (scanTable used accesses make granted indices partIndex).accesses ↔ ∃ i ∈ indices, a ∈ accesses i := by
  induction indices generalizing partIndex with
  | nil => exact iff_of_false not_mem_nil (fun ⟨_, member, _⟩ => not_mem_nil member)
  | cons i rest ih =>
    rw [scanTable]
    split <;> simp [ih]

/-- The entries in use are numbered in order. -/
theorem mem_partitions : p ∈ (scanTable used accesses make granted indices partIndex).partitions ↔
      ∃ k i, (indices.filter used)[k]? = some i ∧ granted (partIndex + k) = true ∧ p = make i (partIndex + k) := by
  induction indices generalizing partIndex with
  | nil => exact iff_of_false not_mem_nil (fun ⟨k, i, found, _⟩ => nomatch found)
  | cons i rest ih =>
    have shift : ∀ k, partIndex + 1 + k = partIndex + (k + 1) := fun k => by omega
    have later := @ih (partIndex + 1)
    simp only [shift] at later
    rw [scanTable]
    by_cases taken : used i = true
    · -- the first of the used entries is this one, the others are those of the rest
      rw [if_pos taken, filter_cons_of_pos taken, ← Nat.or_exists_add_one]
      simp only [getElem?_cons_zero, getElem?_cons_succ, ← later]
      split <;> simp [*]
    · rw [if_neg taken, filter_cons_of_neg taken]
      exact ih

end Scan

/-- The table is read inside its buffer, the devices lie on the disk, and a request that
the one with this place in the list accepts stays within it. -/
structure Confined (dev : BlockDevice) (alloc granted : Nat → Bool) (k : Nat) (r : Request) : Prop where
  inside : ∀ a ∈ (partitionScanDevice dev alloc granted).accesses, a.Inside
  onDisk : ∀ p ∈ (partitionScanDevice dev alloc granted).partitions,
    p.startLba.toNat + p.totalSectors.toNat ≤ dev.totalSectors.toNat
  forwarded : ∀ p, (partitionScanDevice dev alloc granted).partitions[k]? = some p →
    ∀ out, partitionReadBlocks p r = some out ∨ partitionWriteBlocks p r = some out →
      p.startLba.toNat ≤ out.lba.toNat ∧ out.lba.toNat + out.count.toNat ≤ p.startLba.toNat + p.totalSectors.toNat

/-- The devices of a scan lie on the disk. -/
abbrev AllOnDisk (dev : BlockDevice) (scan : Scan) : Prop :=
  ∀ p ∈ scan.partitions, p.startLba.toNat + p.totalSectors.toNat ≤ dev.totalSectors.toNat

abbrev AllInside (scan : Scan) : Prop := ∀ a ∈ scan.accesses, a.Inside

def mbrInUse (buffer : Memory) : List Nat := (range 4).filter (mbrUsed buffer)

def gptInUse (gpt : GptHeader) (entries : Memory) : List Nat :=
  (range gpt.totalEntries.toNat).filter (gptUsed gpt entries)

section
variable (dev : BlockDevice)

/-- The entries for which a device is made end on the disk. -/
def MbrSound (buffer : Memory) (granted : Nat → Bool) : Prop :=
  ∀ k i, (mbrInUse buffer)[k]? = some i → granted (1 + k) = true →
    mbrStart buffer i + mbrSectors buffer i ≤ dev.totalSectors.toNat

/-- Each entry, as far as it is looked at, lies within the sectors of the table; those for
which a device is made are in order and end on the disk, or are empty. -/
structure GptSound (dev : BlockDevice) (gpt : GptHeader) (entries : Memory) (granted : Nat → Bool) : Prop where
  fits : ∀ i < gpt.totalEntries.toNat,
    gptEntry gpt i + (if gptUsed gpt entries i then 48 else 16) ≤ (entriesAllocSize dev gpt).toNat
  ordered : ∀ k i, (gptInUse gpt entries)[k]? = some i → granted (1 + k) = true →
    startingLba gpt entries i ≤ endingLba gpt entries i ∧ endingLba gpt entries i < dev.totalSectors ∨
      endingLba gpt entries i + 1 = startingLba gpt entries i ∧ startingLba gpt entries i ≤ dev.totalSectors

inductive Table where
  | mbr (buffer : Memory)
  | gpt (gpt : GptHeader) (entries : Memory)

/-- The table whose entries are gone through, if the disk has one that can be read. -/
def tableOf (alloc : Nat → Bool) : Option Table :=
  if !alloc 0 then none
  else (dev.readBlocks 0 1).bind fun buffer =>
    if buffer 510 != 0x55 || buffer 511 != 0xAA then none
    else if !(findProtective dev buffer (range 4)).1 then some (.mbr buffer)
    else (dev.readBlocks 1 1).bind fun header =>
      if bytesAt header 0 8 != efiPart || !alloc 1 then none
      else (dev.readBlocks (gptHeader header).entriesLba (entriesSectors dev (gptHeader header))).map
        (fun entries => .gpt (gptHeader header) entries)

variable (alloc granted : Nat → Bool)

def SoundTable : Prop :=
  match tableOf dev alloc with
  | none => True
  | some (.mbr buffer) => MbrSound dev buffer granted
  | some (.gpt gpt entries) => GptSound dev gpt entries granted

/-- The last sector of the request can be counted in 64 bits, or the sum that is left of it
is still too large for the device. -/
def SoundRequest (k : Nat) (r : Request) : Prop :=
  ∀ p, (partitionScanDevice dev alloc granted).partitions[k]? = some p →
    r.lba.toNat + r.count.toNat < 2 ^ 64 ∨ p.totalSectors < r.lba + r.count.setWidth 64

def scanFound : Option Table → Scan
  | none => {}
  | some (.mbr buffer) => scanMbr dev buffer granted
  | some (.gpt gpt entries) => scanGpt dev gpt entries granted

end

section
variable {used : Nat → Bool} {accesses : Nat → List Access} {make : Nat → Nat → Partition} {granted : Nat → Bool}

theorem allInside_iff : AllInside (scanTable used accesses make granted indices partIndex) ↔
    ∀ i ∈ indices, ∀ a ∈ accesses i, a.Inside := by
  simp only [AllInside, mem_accesses]
  exact ⟨fun all i listed a access => all a ⟨i, listed, access⟩, fun all a ⟨i, listed, access⟩ => all i listed a access⟩

theorem allOnDisk_iff {dev : BlockDevice} : AllOnDisk dev (scanTable used accesses make granted indices 1) ↔
    ∀ k i, (indices.filter used)[k]? = some i → granted (1 + k) = true →
      (make i (1 + k)).startLba.toNat + (make i (1 + k)).totalSectors.toNat ≤ dev.totalSectors.toNat := by
  simp only [AllOnDisk, mem_partitions]
  exact ⟨fun all k i found yes => all _ ⟨k, i, found, yes, rfl⟩,
    fun sound p ⟨k, i, found, yes, same⟩ => same ▸ sound k i found yes⟩

end

variable (dev : BlockDevice) (buffer : Memory) (alloc granted : Nat → Bool)

theorem mbrAccesses_inside (small : i < 4) (member : a ∈ mbrAccesses dev i) : a.Inside := by
  have whole := dev.wholeSector
  rw [mbrAccesses, mem_singleton] at member
  rw [member, Access.Inside]
  simp only [mbrEntry]
  omega

theorem findProtective_inside (small : ∀ i ∈ indices, i < 4) :
    ∀ a ∈ (findProtective dev buffer indices).2, a.Inside := by
  induction indices with
  | nil => exact nofun
  | cons i rest ih =>
    have here := small i mem_cons_self
    rw [findProtective]
    intro a member
    split at member
    · exact mbrAccesses_inside dev here member
    · rcases mem_append.mp member with first | later
      · exact mbrAccesses_inside dev here first
      · exact ih (fun j listed => small j (mem_cons_of_mem _ listed)) a later

theorem scanGptDevice_eq :
    scanGptDevice dev alloc granted = scanFound dev granted ((dev.readBlocks 1 1).bind fun header =>
      if bytesAt header 0 8 != efiPart || !alloc 1 then none
      else (dev.readBlocks (gptHeader header).entriesLba (entriesSectors dev (gptHeader header))).map
        (fun entries => .gpt (gptHeader header) entries)) := by
  rw [scanGptDevice]
  cases dev.readBlocks 1 1 with
  | none => rfl
  | some header =>
    dsimp only [Option.bind]
    cases bytesAt header 0 8 != efiPart with
    | true => rfl
    | false =>
      cases alloc 1 with
      | false => rfl
      | true =>
        cases dev.readBlocks (gptHeader header).entriesLba (entriesSectors dev (gptHeader header)) <;> rfl

/-- What is scanned is the table found, after some accesses to the first sector. -/
theorem partitionScanDevice_eq :
    (partitionScanDevice dev alloc granted).partitions = (scanFound dev granted (tableOf dev alloc)).partitions ∧
      ∃ looked, (∀ a ∈ looked, a.Inside) ∧
        (partitionScanDevice dev alloc granted).accesses = looked ++ (scanFound dev granted (tableOf dev alloc)).accesses := by
  rw [partitionScanDevice, tableOf]
  cases alloc 0 with
  | false => exact ⟨rfl, [], nofun, rfl⟩
  | true =>
    cases dev.readBlocks 0 1 with
    | none => exact ⟨rfl, [], nofun, rfl⟩
    | some buffer =>
      dsimp only [Option.bind]
      cases buffer 510 != 0x55 || buffer 511 != 0xAA with
      | true => exact ⟨rfl, [], nofun, rfl⟩
      | false =>
        have looked := findProtective_inside dev buffer fun i listed => mem_range.mp listed
        generalize findProtective dev buffer (range 4) = found at looked
        obtain ⟨isGptProtective, accesses⟩ := found
        cases isGptProtective with
        | false => exact ⟨rfl, accesses, looked, rfl⟩
        | true =>
          rw [scanGptDevice_eq]
          exact ⟨rfl, accesses, looked, rfl⟩

theorem field_lt (memory : Memory) (offset width : Nat) : field memory offset width < 256 ^ width := by
  have bound := leNat_lt ((range width).map fun i => memory (offset + i))
  rwa [length_map, length_range] at bound

theorem scanMbr_inside : AllInside (scanMbr dev buffer granted) :=
  allInside_iff.mpr fun _ listed _ => mbrAccesses_inside dev (mem_range.mp listed)

theorem scanMbr_onDisk : AllOnDisk dev (scanMbr dev buffer granted) ↔ MbrSound dev buffer granted := by
  refine allOnDisk_iff.trans (forall₄_congr fun k i _ _ => ?_)
  have start := field_lt buffer (mbrEntry i + 8) 4
  have sectors := field_lt buffer (mbrEntry i + 12) 4
  simp only [mbrPartition, mbrStart, mbrSectors, toNat_ofNat]
  omega

theorem scanGpt_inside (gpt : GptHeader) (entries : Memory) (granted : Nat → Bool) :
    AllInside (scanGpt dev gpt entries granted) ↔ ∀ i < gpt.totalEntries.toNat,
        gptEntry gpt i + (if gptUsed gpt entries i then 48 else 16) ≤ (entriesAllocSize dev gpt).toNat := by
  refine allInside_iff.trans (forall_congr' fun i => imp_congr mem_range ?_)
  rw [gptAccesses]
  split
  · simp only [forall_mem_cons, Access.Inside, not_mem_nil, false_implies, implies_true, and_true]
    omega
  · simp only [forall_mem_cons, Access.Inside, not_mem_nil, false_implies, implies_true, and_true]

/-- A length computed from the first and the last sector. -/
theorem gpt_onDisk_iff (first last total : BitVec 64) : first.toNat + (last - first + 1).toNat ≤ total.toNat ↔
      first ≤ last ∧ last < total ∨ last + 1 = first ∧ first ≤ total := by
  bv_omega

theorem scanGpt_onDisk (gpt : GptHeader) (entries : Memory) (granted : Nat → Bool) :
    AllOnDisk dev (scanGpt dev gpt entries granted) ↔ ∀ k i, (gptInUse gpt entries)[k]? = some i → granted (1 + k) = true →
        startingLba gpt entries i ≤ endingLba gpt entries i ∧ endingLba gpt entries i < dev.totalSectors ∨
          endingLba gpt entries i + 1 = startingLba gpt entries i ∧ startingLba gpt entries i ≤ dev.totalSectors :=
  allOnDisk_iff.trans (forall₄_congr fun _ _ _ _ => gpt_onDisk_iff _ _ _)

theorem soundTable_iff : SoundTable dev alloc granted ↔
      AllInside (partitionScanDevice dev alloc granted) ∧ AllOnDisk dev (partitionScanDevice dev alloc granted) := by
  obtain ⟨partitions, looked, inside, accesses⟩ := partitionScanDevice_eq dev alloc granted
  have split : AllInside (partitionScanDevice dev alloc granted) ↔ AllInside (scanFound dev granted (tableOf dev alloc)) := by
    rw [AllInside, accesses]
    exact ⟨fun all a member => all a (mem_append_right _ member),
      fun all a member => (mem_append.mp member).elim (inside a) (all a)⟩
  rw [split, AllOnDisk, partitions, SoundTable]
  cases tableOf dev alloc with
  | none => exact iff_of_true trivial ⟨nofun, nofun⟩
  | some table =>
    cases table with
    | mbr buffer => exact ⟨fun sound => ⟨scanMbr_inside dev buffer granted, (scanMbr_onDisk dev buffer granted).mpr sound⟩,
        fun both => (scanMbr_onDisk dev buffer granted).mp both.2⟩
    | gpt gpt entries =>
      exact ⟨fun sound => ⟨(scanGpt_inside dev gpt entries granted).mpr sound.fits,
          (scanGpt_onDisk dev gpt entries granted).mpr sound.ordered⟩,
        fun both => ⟨(scanGpt_inside dev gpt entries granted).mp both.1, (scanGpt_onDisk dev gpt entries granted).mp both.2⟩⟩

/-- On a device that ends on the disk a request goes astray only if its end wraps round. -/
theorem forward_inside_iff (onDisk : p.startLba.toNat + p.totalSectors.toNat < 2 ^ 64) (r : Request) :
    (∀ out, partitionForward p r = some out → p.startLba.toNat ≤ out.lba.toNat ∧
        out.lba.toNat + out.count.toNat ≤ p.startLba.toNat + p.totalSectors.toNat) ↔
      r.lba.toNat + r.count.toNat < 2 ^ 64 ∨ p.totalSectors < r.lba + r.count.setWidth 64 := by
  have wide : (r.count.setWidth 64).toNat = r.count.toNat := by
    rw [toNat_setWidth]
    omega
  rw [partitionForward]
  split
  next refused => exact iff_of_true nofun (.inr refused)
  next accepted =>
    constructor
    · intro all
      obtain ⟨low, high⟩ := all _ rfl
      simp only [toNat_add, lt_def, gt_iff_lt, wide] at low high accepted
      omega
    · rintro (small | large) out same
      · cases same
        simp only [toNat_add, lt_def, gt_iff_lt, wide] at accepted ⊢
        omega
      · exact absurd large accepted

/-- Tables and requests for which all accesses stay where they belong. -/
theorem partitions_confine_iff (k : Nat) (r : Request) :
    Confined dev alloc granted k r ↔ SoundTable dev alloc granted ∧ SoundRequest dev alloc granted k r := by
  constructor
  · intro confined
    refine ⟨(soundTable_iff dev alloc granted).mpr ⟨confined.inside, confined.onDisk⟩, fun p found => ?_⟩
    have onDisk := confined.onDisk p (mem_of_getElem? found)
    exact (forward_inside_iff (by omega) r).mp fun out accepted => confined.forwarded p found out (.inl accepted)
  · rintro ⟨table, asked⟩
    obtain ⟨inside, onDisk⟩ := (soundTable_iff dev alloc granted).mp table
    refine ⟨inside, onDisk, fun p found out accepted => ?_⟩
    have here := onDisk p (mem_of_getElem? found)
    exact (forward_inside_iff (by omega) r).mpr (asked p found) out (accepted.elim id id)

/-- A first sector with one partition, from sector 900 on, of 200 sectors. -/
def overlongSector : Memory := fun i =>
  if i = 450 then 0x0C else if i = 454 then 0x84 else if i = 455 then 0x03 else if i = 458 then 200
  else if i = 510 then 0x55 else if i = 511 then 0xAA else 0

def overlongDisk : BlockDevice where
  name := "ahci0"
  totalSectors := 1000
  sectorSize := 512
  readBlocks := fun _ _ => some overlongSector
  wholeSector := by decide

/-- Nothing compares the end of a partition with the end of the disk. -/
theorem overlong_partition_leaves_disk :
    ¬ Confined overlongDisk (fun _ => true) (fun _ => true) 0 { lba := 0, count := 1 } := by
  intro confined
  have sound := (soundTable_iff overlongDisk (fun _ => true) fun _ => true).mpr ⟨confined.inside, confined.onDisk⟩
  have bound := sound 0 0 (by decide) rfl
  revert bound
  decide

end Sirius.Drivers
