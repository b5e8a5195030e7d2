import Sirius.Fs.PageCache
import Mathlib.Tactic.Ring

/-! The cache and the driver's file together hold the bytes of one file: a page where there is
one, the driver's file elsewhere. Every step of the page cache keeps it so, if the driver loses
nothing and no write starts past the end. -/
namespace Sirius.Fs.PageCache
open Support Nat
open List hiding count

variable {s s' : State} {env : Env} {ideal : ByteFile} {count : Nat}

def Stored (ideal disk : ByteFile) (j : Nat) : Prop := j < disk.size ∧ disk.byte j = ideal.byte j

structure Mirrors (ideal : ByteFile) (s : State) : Prop where
  word : s.blockSize < 2 ^ 32
  small : ideal.size < 2 ^ 63
  size : s.size = ideal.size
  shorter : s.disk.size ≤ ideal.size
  ids : (s.pages.map Page.blockId).Nodup
  plain : s.blockSize = 0 → s.pages = []
  fill : ∀ p ∈ s.pages, p.size = min s.blockSize (ideal.size - p.blockId * s.blockSize)
  content : ∀ p ∈ s.pages, ∀ i < p.size, p.buffer i = ideal.byte (p.blockId * s.blockSize + i)
  stored : ∀ j < ideal.size, (∀ p ∈ s.pages, p.blockId = j / s.blockSize → p.dirty = false) → Stored ideal s.disk j

def Part (ideal : ByteFile) (offset : Nat) (data : List UInt8) : Prop :=
  offset + data.length ≤ ideal.size ∧ ∀ i < data.length, data.getD i 0 = ideal.byte (offset + i)

theorem Part.take (part : Part ideal offset data) (count : Nat) : Part ideal offset (data.take count) := by
  refine ⟨?_, fun i bound => ?_⟩
  · have := part.1
    rw [length_take]
    omega
  · rw [length_take] at bound
    rw [← part.2 i (by omega), getD_eq_getElem?_getD, getD_eq_getElem?_getD, getElem?_take_of_lt (by omega)]

theorem part_slice (bytes : Nat → UInt8) (inside : offset + count ≤ ideal.size)
    (same : ∀ i < count, bytes i = ideal.byte (offset + i)) : Part ideal offset (slice bytes 0 count) := by
  refine ⟨by rwa [slice_length], fun i bound => ?_⟩
  rw [slice_length] at bound
  rw [slice_getD bound, zero_add]
  exact same i bound

/-- A part of the file has been written over the driver's file. -/
theorem Stored.write (old : Stored ideal disk j) (part : Part ideal offset data) : Stored ideal (disk.write offset data) j := by
  refine ⟨lt_of_lt_of_le old.1 (ByteFile.size_le_write _ _ _), ?_⟩
  by_cases inside : offset ≤ j ∧ j < offset + data.length
  · obtain ⟨i, rfl⟩ := Nat.exists_eq_add_of_le inside.1
    rw [ByteFile.byte_write_inside (by omega)]
    exact part.2 i (by omega)
  · rw [ByteFile.byte_write_outside (by omega)]
    exact old.2

theorem Stored.of_part (disk : ByteFile) (part : Part ideal offset data) (low : offset ≤ j) (high : j < offset + data.length) :
    Stored ideal (disk.write offset data) j := by
  obtain ⟨i, rfl⟩ := Nat.exists_eq_add_of_le low
  have bound : i < data.length := by omega
  refine ⟨?_, ?_⟩
  · have some : data ≠ [] := ne_nil_of_length_pos (by omega)
    rw [ByteFile.size_write_of_ne some]
    omega
  · rw [ByteFile.byte_write_inside bound]
    exact part.2 i bound

theorem driverWrite_disk (env : Env) (s : State) (offset : Nat) (data : List UInt8) :
    (driverWrite env s offset data).2.disk = s.disk.write offset (data.take (env.driver s.calls data.length).stored) := rfl

/-- What the driver stores is in the file already: nothing changes but that there is more on the
disk. -/
theorem Mirrors.driverWrite (mirrors : Mirrors ideal s)
    (part : Part ideal offset (data.take (env.driver s.calls data.length).stored)) :
    Mirrors ideal (driverWrite env s offset data).2 := by
  have inside := part.1
  refine { mirrors with size := ?_, shorter := ?_, stored := fun j bound clean => ?_ }
  · have same := mirrors.size
    rw [length_take] at inside
    simp only [PageCache.driverWrite]
    split <;> omega
  · rw [driverWrite_disk]
    have shorter := mirrors.shorter
    by_cases none : data.take (env.driver s.calls data.length).stored = []
    · rwa [none, ByteFile.write_nil]
    · rw [ByteFile.size_write_of_ne none]
      omega
  · exact (mirrors.stored j bound clean).write part

theorem block_div {size : Nat} (positive : 0 < size) : j / size = block ↔ block * size ≤ j ∧ j < block * size + size := by
  rw [Nat.div_eq_iff positive]
  omega

theorem block_before (before : one < other) (size : Nat) : one * size + size ≤ other * size := by
  rw [← succ_mul]
  exact mul_le_mul_right size before

theorem mem_of_page? (found : s.page? block = some page) : page ∈ s.pages ∧ page.blockId = block :=
  ⟨mem_of_find?_eq_some found, of_decide_eq_true (find?_some found :)⟩

theorem page?_none (missing : s.page? block = none) (mem : p ∈ s.pages) : p.blockId ≠ block := by
  have other := find?_eq_none.mp missing p mem
  simpa only [decide_eq_true_eq] using other

theorem blockFill_eq (low : block * s.blockSize + s.blockSize < 2 ^ 64) :
    blockFill s block = min s.blockSize (s.size - block * s.blockSize) := by
  unfold blockFill uint64
  split
  · split <;> omega
  · omega

theorem page_unique (ids : (s.pages.map Page.blockId).Nodup) (one : p ∈ s.pages) (other : q ∈ s.pages)
    (same : p.blockId = q.blockId) : p = q := inj_on_of_nodup_map ids one other same

section GetPage

variable {block : Nat} {fromDisk : Bool}

/-- A page that is made on the way matches the file like the others. -/
theorem newPage_mirrors (mirrors : Mirrors ideal s) (positive : 0 < s.blockSize) (missing : s.page? block = none)
    (low : block * s.blockSize < 2 ^ 63) (fresh : fromDisk = false → ideal.size ≤ block * s.blockSize) :
    Mirrors ideal { s with pages := newPage env s block fromDisk :: s.pages } := by
  have low : block * s.blockSize + s.blockSize < 2 ^ 64 := by
    have := mirrors.word
    omega
  have fill : (newPage env s block fromDisk).size = min s.blockSize (ideal.size - block * s.blockSize) := by
    unfold newPage
    dsimp only
    split
    · rw [blockFill_eq low, mirrors.size]
    case isFalse new =>
      have := fresh (Bool.not_eq_true _ ▸ new)
      omega
  refine { mirrors with
    ids := ?_, plain := fun none => absurd none positive.ne', fill := fun p mem => ?_,
    content := fun p mem i bound => ?_, stored := fun j bound clean => ?_ }
  · rw [map_cons, nodup_cons]
    refine ⟨fun mem => ?_, mirrors.ids⟩
    obtain ⟨p, there, same⟩ := mem_map.mp mem
    exact page?_none missing there same
  · rcases mem_cons.mp mem with rfl | mem
    · exact fill
    · exact mirrors.fill p mem
  · rcases mem_cons.mp mem with rfl | mem
    · rw [fill] at bound
      have loaded : fromDisk = true := by
        by_contra new
        have := fresh (Bool.not_eq_true _ ▸ new)
        omega
      -- No page of the block: the driver has all of it.
      have there : Stored ideal s.disk (block * s.blockSize + i) := by
        refine mirrors.stored _ (by omega) fun p mem same => ?_
        have here : (block * s.blockSize + i) / s.blockSize = block := (block_div positive).mpr (by omega)
        exact absurd (same.trans here) (page?_none missing mem)
      have read : i < (s.disk.read (block * s.blockSize) (blockFill s block)).length := by
        have := there.1
        rw [ByteFile.read_length, blockFill_eq low, mirrors.size]
        omega
      have byte := overlay_inside read (env.junk block) 0
      rw [zero_add] at byte
      have value : (newPage env s block fromDisk).buffer i = s.disk.byte (block * s.blockSize + i) := by
        simp only [newPage, loaded, if_true]
        rw [byte]
        rw [ByteFile.read_length] at read
        exact slice_getD read _ _
      rw [value]
      exact there.2
    · exact mirrors.content p mem i bound
  · exact mirrors.stored j bound fun p mem same => clean p (mem_cons_of_mem _ mem) same

theorem vfsGetOrCreatePage_none (missing : vfsGetOrCreatePage env s block fromDisk = none) : env.grant block = false := by
  unfold vfsGetOrCreatePage at missing
  split at missing
  · cases missing
  · split at missing
    · cases missing
    case isFalse refused => exact Bool.not_eq_true _ ▸ refused

/-- No pages of other blocks are made. -/
theorem vfsGetOrCreatePage_mirrors (mirrors : Mirrors ideal s) (positive : 0 < s.blockSize)
    (result : vfsGetOrCreatePage env s block fromDisk = some (page, s'))
    (low : block * s.blockSize < 2 ^ 63) (fresh : fromDisk = false → ideal.size ≤ block * s.blockSize) :
    Mirrors ideal s' ∧ page ∈ s'.pages ∧ page.blockId = block ∧ s'.blockSize = s.blockSize ∧
      ∀ p ∈ s'.pages, p.blockId ≠ block → p ∈ s.pages := by
  unfold vfsGetOrCreatePage at result
  split at result
  case h_1 found =>
    cases result
    obtain ⟨mem, isBlock⟩ := mem_of_page? found
    exact ⟨mirrors, mem, isBlock, rfl, fun p mem _ => mem⟩
  case h_2 missing =>
  split at result
  · cases result
    refine ⟨newPage_mirrors mirrors positive missing low fresh, mem_cons_self, rfl, rfl, fun p mem other => ?_⟩
    exact (mem_cons.mp mem).resolve_left fun same => other (same ▸ rfl)
  · cases result

end GetPage

/-- The driver stores all it is given, whatever it answers. -/
def Env.StoresAll (env : Env) : Prop := ∀ n length, length ≤ (env.driver n length).stored

section WriteBack

variable {block : Nat}

/-- Pages of which the driver has everything can be dropped. -/
theorem Mirrors.dropPages (mirrors : Mirrors ideal s) (keep : Nat → Bool)
    (stored : ∀ j < ideal.size, keep (j / s.blockSize) = false → Stored ideal s.disk j) :
    Mirrors ideal { s with pages := s.pages.filter fun p => keep p.blockId } := by
  have part : (s.pages.filter fun p => keep p.blockId).Sublist s.pages := filter_sublist
  refine { mirrors with
    ids := mirrors.ids.sublist (part.map _), plain := fun none => ?_, fill := fun p mem => mirrors.fill p (part.subset mem),
    content := fun p mem => mirrors.content p (part.subset mem), stored := fun j bound clean => ?_ }
  · exact sublist_nil.mp (mirrors.plain none ▸ part)
  by_cases here : keep (j / s.blockSize) = false
  · exact stored j bound here
  · refine mirrors.stored j bound fun p mem same => clean p (mem_filter.mpr ⟨mem, ?_⟩) same
    rw [same]
    exact Bool.not_eq_false _ ▸ here

theorem Mirrors.invalidate (mirrors : Mirrors ideal s)
    (stored : ∀ j < ideal.size, j / s.blockSize = block → Stored ideal s.disk j) : Mirrors ideal (s.invalidate block) :=
  mirrors.dropPages (fun id => id ≠ block) fun j bound here => stored j bound (not_not.mp (of_decide_eq_false here))

/-- The first half of `writeBack`. -/
def pageToDisk (env : Env) (s : State) (block : Nat) : State :=
  match s.page? block with
  | some page =>
    if page.dirty then (driverWrite env s (block * s.blockSize) (slice page.buffer 0 s.blockSize)).2 else s
  | none => s

theorem writeBack_eq (env : Env) (s : State) (block : Nat) :
    writeBack env s block = (pageToDisk env s block).invalidate block := rfl

theorem pageToDisk_keeps : (pageToDisk env s block).pages = s.pages ∧ (pageToDisk env s block).blockSize = s.blockSize := by
  unfold pageToDisk
  split
  · split <;> exact ⟨rfl, rfl⟩
  · exact ⟨rfl, rfl⟩

/-- A block that is all in the file is on the disk before its page is dropped. -/
theorem writeBack_mirrors (mirrors : Mirrors ideal s) (positive : 0 < s.blockSize)
    (inside : block * s.blockSize + s.blockSize ≤ ideal.size) (storesAll : env.StoresAll) :
    Mirrors ideal (writeBack env s block) := by
  rw [writeBack_eq]
  unfold pageToDisk
  split
  case h_1 page found =>
    obtain ⟨mem, isBlock⟩ := mem_of_page? found
    have full : page.size = s.blockSize := by
      have := mirrors.fill page mem
      rw [isBlock] at this
      omega
    have part : Part ideal (block * s.blockSize) (slice page.buffer 0 s.blockSize) := by
      refine part_slice _ inside fun i bound => ?_
      rw [← isBlock]
      exact mirrors.content page mem i (full ▸ bound)
    split
    case isTrue dirty =>
      refine (mirrors.driverWrite (part.take _)).invalidate fun j bound here => ?_
      obtain ⟨low, high⟩ := (block_div positive).mp here
      rw [driverWrite_disk, take_of_length_le (storesAll _ _)]
      exact .of_part s.disk part low (by rwa [slice_length])
    case isFalse clean =>
      refine mirrors.invalidate fun j bound here => mirrors.stored j bound fun p there same => ?_
      rw [page_unique mirrors.ids there mem (same.trans (here.trans isBlock.symm))]
      exact Bool.not_eq_true _ ▸ clean
  case h_2 missing =>
    refine mirrors.invalidate fun j bound here => mirrors.stored j bound fun p there same => ?_
    exact absurd (same.trans here) (page?_none missing there)

theorem writeBackAll_mirrors (mirrors : Mirrors ideal s) (positive : 0 < s.blockSize)
    (inside : block * s.blockSize + count * s.blockSize ≤ ideal.size) (storesAll : env.StoresAll) :
    Mirrors ideal (writeBackAll env s block count) ∧ (writeBackAll env s block count).blockSize = s.blockSize ∧
      ∀ p ∈ (writeBackAll env s block count).pages, p ∈ s.pages ∧ ¬(block ≤ p.blockId ∧ p.blockId < block + count) := by
  induction count generalizing s block with
  | zero => exact ⟨mirrors, rfl, fun p mem => ⟨mem, by omega⟩⟩
  | succ count ih =>
    have size : (writeBack env s block).blockSize = s.blockSize := pageToDisk_keeps.2
    rw [succ_mul] at inside
    have rest : (block + 1) * s.blockSize + count * s.blockSize ≤ ideal.size := by
      rw [succ_mul]
      omega
    have one : Mirrors ideal (writeBack env s block) := writeBack_mirrors mirrors positive (by omega) storesAll
    obtain ⟨all, same, pages⟩ := ih one (size ▸ positive) (size ▸ rest)
    refine ⟨all, same.trans size, fun p mem => ?_⟩
    obtain ⟨there, outside⟩ := pages p mem
    rw [writeBack_eq] at there
    obtain ⟨old, other⟩ := mem_filter.mp there
    rw [pageToDisk_keeps.1] at old
    have ne := of_decide_eq_true other
    exact ⟨old, by omega⟩

end WriteBack

section Read

variable {offset size : Nat} {bytes : List UInt8}

theorem cInt_of_lt (small : n < 2 ^ 31) : cInt n = n := by
  have value : (BitVec.ofNat 32 n).toNat = n := by
    rw [BitVec.toNat_ofNat]
    omega
  rw [cInt, BitVec.toInt_eq_toNat_of_lt (by omega), value]

theorem read_stored (stored : ∀ i < count, Stored ideal disk (offset + i)) :
    disk.read offset count = slice ideal.byte offset count := by
  have long : count ≤ disk.size - offset := by
    by_contra short
    have := (stored (count - 1) (by omega)).1
    omega
  rw [ByteFile.read, min_eq_left long]
  exact slice_congr fun i bound => (stored i bound).2

/-- What the rounds of `vfs_read` keep: the bytes so far are those of the file. -/
structure Reading (ideal : ByteFile) (offset size : Nat) (bytes : List UInt8) (s : State) : Prop where
  mirrors : Mirrors ideal s
  positive : 0 < s.blockSize
  fits : bytes.length ≤ size
  soFar : bytes = slice ideal.byte offset bytes.length

/-- What is known after a round. It is the last one too early only without memory, or where the
driver's count is not an `int`. -/
def ReadOn (ideal : ByteFile) (env : Env) (offset size : Nat) (bytes : List UInt8) :
    (ReadResult ⊕ List UInt8) × State → Prop
  | (.inl result, s) => Mirrors ideal s ∧
      (result = ⟨cInt size, slice ideal.byte offset size⟩ ∨ 2 ^ 31 ≤ size ∨ ∃ block, env.grant block = false)
  | (.inr bytes', s) => Reading ideal offset size bytes' s ∧ bytes.length < bytes'.length

/-- Some more of the bytes have been read. -/
theorem Reading.more {next : List UInt8} (reading : Reading ideal offset size bytes s)
    (mirrors : Mirrors ideal s') (positive : 0 < s'.blockSize)
    (fits : bytes.length + count ≤ size) (some : 0 < count) (same : next = slice ideal.byte (offset + bytes.length) count) :
    ReadOn ideal env offset size bytes (.inr (bytes ++ next), s') := by
  have length : (bytes ++ next).length = bytes.length + count := by
    rw [length_append, same, slice_length]
  refine ⟨⟨mirrors, positive, by omega, ?_⟩, by omega⟩
  rw [length, slice_append, ← reading.soFar, same]

theorem Reading.round (reading : Reading ideal offset size bytes s) (inside : offset + size ≤ ideal.size)
    (storesAll : env.StoresAll) : ReadOn ideal env offset size bytes (readRound env offset size bytes s) := by
  obtain ⟨mirrors, positive, fits, soFar⟩ := reading
  have small := mirrors.small
  have here : uint64 (offset + bytes.length) = offset + bytes.length := mod_eq_of_lt (by omega)
  unfold readRound
  split
  case isTrue all =>
    have same : bytes.length = size := by omega
    refine ⟨mirrors, .inl ?_⟩
    rw [same] at soFar ⊢
    rw [soFar]
  case isFalse left =>
  dsimp only
  rw [here]
  split
  case isTrue direct =>
    have start := Nat.div_mul_cancel (Nat.dvd_of_mod_eq_zero direct.1)
    generalize blocksEq : (size - bytes.length) / s.blockSize = blocks
    generalize (offset + bytes.length) / s.blockSize = block at start ⊢
    have length := blocksEq ▸ div_mul_le_self _ _
    have some := mul_pos (blocksEq ▸ div_pos direct.2 positive) positive
    have room : block * s.blockSize + blocks * s.blockSize ≤ ideal.size := by omega
    obtain ⟨after, same, gone⟩ := writeBackAll_mirrors mirrors positive room storesAll
    have read : (writeBackAll env s block blocks).disk.read (offset + bytes.length) (blocks * s.blockSize) =
        slice ideal.byte (offset + bytes.length) (blocks * s.blockSize) := by
      refine read_stored fun i bound => after.stored _ (by omega) fun p mem here => ?_
      refine absurd ?_ (gone p mem).2
      rw [here, same]
      refine ⟨(le_div_iff_mul_le positive).mpr (by omega), (div_lt_iff_lt_mul positive).mpr ?_⟩
      rw [add_mul]
      omega
    rw [same, read, slice_length]
    split
    case isTrue negative =>
      refine ⟨after, .inr (.inl ?_)⟩
      by_contra short
      rw [cInt_of_lt (by omega)] at negative
      omega
    case isFalse => exact Reading.more ⟨mirrors, positive, fits, soFar⟩ after (same ▸ positive) (by omega) some rfl
  case isFalse cached =>
    have whole := div_add_mod' (offset + bytes.length) s.blockSize
    split
    case h_1 missing => exact ⟨mirrors, .inr (.inr ⟨_, vfsGetOrCreatePage_none missing⟩)⟩
    case h_2 page after found =>
    obtain ⟨kept, mem, isBlock, same, -⟩ := vfsGetOrCreatePage_mirrors mirrors positive found (by omega) nofun
    have fill := kept.fill page mem
    have modulo := mod_lt (offset + bytes.length) positive
    rw [isBlock, same] at fill
    rw [if_neg (by omega)]
    refine Reading.more ⟨mirrors, positive, fits, soFar⟩ kept (same ▸ positive) ?_ ?_ (slice_congr fun i bound => ?_)
    · omega
    · omega
    · rw [kept.content page mem _ (by omega), isBlock, same, ← add_assoc, whole]

section
variable (mirrors : Mirrors ideal s)
include mirrors

theorem Mirrors.disk_eq (plain : s.blockSize = 0) : s.disk = ideal := by
  have stored : ∀ j < ideal.size, Stored ideal s.disk j := by
    intro j bound
    refine mirrors.stored j bound fun p mem => ?_
    rw [mirrors.plain plain] at mem
    cases mem
  have size : s.disk.size = ideal.size := by
    refine le_antisymm mirrors.shorter ?_
    by_contra short
    have := (stored (ideal.size - 1) (by omega)).1
    omega
  refine ByteFile.ext size (funext fun j => ?_)
  by_cases bound : j < ideal.size
  · exact (stored j bound).2
  · rw [ideal.blank j (by omega), s.disk.blank j (by omega)]

/-- The bytes of the ideal file, unless there is no memory or the count is not an `int`. -/
def ReadRight (ideal : ByteFile) (env : Env) (offset size : Nat) (result : ReadResult) : Prop :=
  result = ⟨cInt (min size (ideal.size - offset)), ideal.read offset size⟩ ∨
    2 ^ 31 ≤ min size (ideal.size - offset) ∨ ∃ block, env.grant block = false

/-- Where the loop of `vfs_read` is reached. -/
theorem vfsRead_cases (rounds offset : Nat) (word : size < 2 ^ 32) :
    (∃ result, vfsRead env rounds s offset size = some (result, s) ∧ ReadRight ideal env offset size result) ∨
      0 < s.blockSize ∧ offset + min size (ideal.size - offset) ≤ ideal.size ∧
        vfsRead env rounds s offset size = loop (readRound env offset (min size (ideal.size - offset))) rounds [] s := by
  have small := mirrors.small
  unfold vfsRead
  split
  case isTrue none =>
    refine .inl ⟨_, rfl, .inl ?_⟩
    rw [none, zero_min, ByteFile.read, zero_min]
    rfl
  split
  case isTrue plain =>
    refine .inl ⟨_, rfl, .inl ?_⟩
    rw [mirrors.disk_eq plain, ByteFile.read_length]
  split
  case isTrue behind =>
    have none : min size (ideal.size - offset) = 0 := by
      rw [mirrors.size] at behind
      omega
    refine .inl ⟨_, rfl, .inl ?_⟩
    rw [ByteFile.read, none]
    rfl
  case isFalse before =>
    rw [mirrors.size] at before ⊢
    have cut : (if ideal.size < uint64 (offset + size) then (ideal.size - offset) % 2 ^ 32 else size) =
        min size (ideal.size - offset) := by
      have sum : uint64 (offset + size) = offset + size := mod_eq_of_lt (by omega)
      split
      · rw [mod_eq_of_lt (by omega)]
        omega
      · omega
    rw [cut]
    exact .inr ⟨by omega, by omega, rfl⟩

theorem Reading.start (positive : 0 < s.blockSize) : Reading ideal offset size [] s :=
  ⟨mirrors, positive, zero_le _, rfl⟩

theorem vfsRead_mirrors (word : size < 2 ^ 32) (storesAll : env.StoresAll)
    (result : vfsRead env rounds s offset size = some (r, s')) :
    Mirrors ideal s' ∧ ReadRight ideal env offset size r := by
  obtain ⟨r', same, right⟩ | ⟨positive, inside, same⟩ := vfsRead_cases mirrors rounds offset word
  · rw [same] at result
    cases result
    exact ⟨mirrors, right⟩
  rw [same] at result
  refine loop_result (Reading ideal offset (min size (ideal.size - offset)))
    (fun r s' => Mirrors ideal s' ∧ ReadRight ideal env offset size r)
    (fun bytes s1 r s2 reading round => ?_) (fun bytes s1 bytes' s2 reading round => ?_) (.start mirrors positive) result
  · have last := reading.round inside storesAll
    rw [round] at last
    exact last
  · have next := reading.round inside storesAll
    rw [round] at next
    exact next.1

theorem vfsRead_ends (word : size < 2 ^ 32) (storesAll : env.StoresAll) (enough : size < rounds) :
    ∃ r s', vfsRead env rounds s offset size = some (r, s') := by
  obtain ⟨r', same, right⟩ | ⟨positive, inside, same⟩ := vfsRead_cases mirrors rounds offset word
  · exact ⟨_, _, same⟩
  rw [same]
  refine loop_ends (Reading ideal offset (min size (ideal.size - offset))) (fun bytes => size - bytes.length)
    (fun bytes s1 bytes' s2 reading round => ?_) (.start mirrors positive) (by omega)
  have next := reading.round inside storesAll
  rw [round] at next
  have fits := next.1.fits
  exact ⟨next.1, by have := next.2; omega⟩

end

end Read

end Sirius.Fs.PageCache
