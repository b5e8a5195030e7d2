import Sirius.Fs.CacheMirror

/-! Writes through the cache and around it, and the flush: each keeps the cache and the driver's
file the same file, with what the write has put into it. -/
namespace Sirius.Fs.PageCache
open Nat hiding div_mul_cancel dvd_of_mod_eq_zero exists_eq_add_of_le
open Support List
open ByteFile (byte_write_outside size_write_of_ne size_write_of_le write_nil)

variable {s s' : State} {env : Env} {ideal : ByteFile} {block count : Nat} {chunk : List UInt8}

/-- All of the pages of some blocks are dropped. -/
def State.drop (s : State) (block count : Nat) : State :=
  { s with pages := s.pages.filter fun p => ¬(block ≤ p.blockId ∧ p.blockId < block + count) }

theorem mem_drop : p ∈ (s.drop block count).pages ↔ p ∈ s.pages ∧ ¬(block ≤ p.blockId ∧ p.blockId < block + count) := by
  rw [State.drop, mem_filter, decide_eq_true_eq]

theorem foldl_invalidate (s : State) (block count : Nat) :
    (List.range' block count).foldl State.invalidate s = s.drop block count := by
  induction count generalizing s block with
  | zero =>
    have all : s.pages.filter (fun p => ¬(block ≤ p.blockId ∧ p.blockId < block + 0)) = s.pages :=
      filter_eq_self.mpr fun p _ => decide_eq_true (by omega)
    rw [State.drop, all]
    rfl
  | succ count ih =>
    have both : (s.pages.filter fun p => p.blockId ≠ block).filter
        (fun p => ¬(block + 1 ≤ p.blockId ∧ p.blockId < block + 1 + count)) =
        s.pages.filter fun p => ¬(block ≤ p.blockId ∧ p.blockId < block + (count + 1)) := by
      rw [filter_filter]
      refine filter_congr fun p _ => ?_
      rw [← Bool.decide_and, decide_eq_decide]
      omega
    rw [List.range'_succ, foldl_cons, ih, State.drop, State.drop, ← both]
    rfl

theorem outside_blocks (outside : ¬(block ≤ other ∧ other < block + count)) (size : Nat) :
    other * size + size ≤ block * size ∨ block * size + count * size ≤ other * size := by
  by_cases before : other < block
  · exact .inl (block_before before size)
  · rw [← add_mul]
    exact .inr (mul_le_mul_right size (by omega))

/-- The driver's file after more of it has been written. -/
theorem Stored.write_outside (old : Stored ideal disk j) (outside : j < offset ∨ offset + data.length ≤ j) :
    Stored (ideal.write offset data) (disk.write offset data) j := by
  refine ⟨lt_of_lt_of_le old.1 (ByteFile.size_le_write _ _ _), ?_⟩
  rw [byte_write_outside outside, byte_write_outside outside]
  exact old.2

theorem driverWrite_complete (s : State) (offset : Nat) (some : data ≠ [])
    (complete : data.length ≤ (env.driver s.calls data.length).stored) :
    (driverWrite env s offset data).2.size = max s.size (offset + data.length) ∧
      (driverWrite env s offset data).2.disk = s.disk.write offset data := by
  have positive : 0 < data.length := length_pos_iff.mpr some
  refine ⟨?_, ?_⟩
  · simp only [driverWrite]
    rw [if_neg (by omega), min_eq_right complete]
  · rw [driverWrite_disk, take_of_length_le complete]

/-- Whole blocks are written around the cache, and the driver stores all of them. -/
theorem Mirrors.direct (mirrors : Mirrors ideal s) (positive : 0 < s.blockSize) (start : block * s.blockSize ≤ ideal.size)
    (length : chunk.length = count * s.blockSize) (some : chunk ≠ []) (small : block * s.blockSize + chunk.length < 2 ^ 63)
    (blockSize : s'.blockSize = s.blockSize) (pages : s'.pages = (s.drop block count).pages)
    (disk : s'.disk = s.disk.write (block * s.blockSize) chunk)
    (size : s'.size = max s.size (block * s.blockSize + chunk.length)) :
    Mirrors (ideal.write (block * s.blockSize) chunk) s' := by
  have newSize : (ideal.write (block * s.blockSize) chunk).size = max ideal.size (block * s.blockSize + chunk.length) :=
    size_write_of_le start
  have idealSmall := mirrors.small
  have shorter := mirrors.shorter
  refine ⟨blockSize ▸ mirrors.word, by omega, by rw [size, newSize, mirrors.size], ?_, ?_,
    fun none => absurd (blockSize.symm.trans none) positive.ne', fun p mem => ?_, fun p mem i bound => ?_,
      fun j bound clean => ?_⟩
  · rw [disk, newSize, size_write_of_ne some]
    omega
  · rw [pages]
    exact mirrors.ids.sublist (filter_sublist.map _)
  · obtain ⟨mem, outside⟩ := mem_drop.mp (pages ▸ mem)
    have far := outside_blocks outside s.blockSize
    have fill := mirrors.fill p mem
    rw [newSize, blockSize]
    omega
  · obtain ⟨mem, outside⟩ := mem_drop.mp (pages ▸ mem)
    have far := outside_blocks outside s.blockSize
    have fill := mirrors.fill p mem
    rw [blockSize, byte_write_outside (by omega)]
    exact mirrors.content p mem i bound
  · rw [disk]
    by_cases inside : block * s.blockSize ≤ j ∧ j < block * s.blockSize + chunk.length
    · refine .of_part s.disk ⟨?_, fun i bound => (ByteFile.byte_write_inside bound).symm⟩ inside.1 inside.2
      rw [size_write_of_ne some]
      omega
    refine Stored.write_outside (mirrors.stored j (by omega) fun p mem same => ?_) (by omega)
    have kept : p ∈ s'.pages := by
      rw [pages, mem_drop, same]
      refine ⟨mem, fun between => inside ?_⟩
      have low := (le_div_iff_mul_le positive).mp between.1
      have high := (div_lt_iff_lt_mul positive).mp between.2
      rw [add_mul] at high
      omega
    exact clean p kept (blockSize ▸ same)

theorem mem_setPage (mem : p ∈ (s.setPage new).pages) : p = new ∨ p ∈ s.pages ∧ p.blockId ≠ new.blockId := by
  obtain ⟨q, there, rfl⟩ := mem_map.mp mem
  split
  · exact .inl rfl
  case isFalse other => exact .inr ⟨there, other⟩

theorem setPage_ids (s : State) (new : Page) : (s.setPage new).pages.map Page.blockId = s.pages.map Page.blockId := by
  rw [State.setPage, map_map]
  refine map_congr_left fun p _ => ?_
  rw [Function.comp_apply]
  split
  case isTrue same => exact same.symm
  · rfl

/-- A chunk within one block is written to its page. -/
theorem Mirrors.cached (mirrors : Mirrors ideal s) (positive : 0 < s.blockSize) (mem : page ∈ s.pages)
    (place : page.blockId * s.blockSize + inBlock = here) (start : here ≤ ideal.size)
    (fits : inBlock + chunk.length ≤ s.blockSize) (_ : chunk ≠ []) (small : here + chunk.length < 2 ^ 63) :
    Mirrors (ideal.write here chunk) ((s.setPage (page.put inBlock chunk)).extend (here + chunk.length)) := by
  subst place
  have newSize : (ideal.write (page.blockId * s.blockSize + inBlock) chunk).size =
      max ideal.size (page.blockId * s.blockSize + inBlock + chunk.length) := size_write_of_le start
  have idealSmall := mirrors.small
  have shorter := mirrors.shorter
  have fill := mirrors.fill page mem
  have blockSize : ((s.setPage (page.put inBlock chunk)).extend
      (page.blockId * s.blockSize + inBlock + chunk.length)).blockSize = s.blockSize := rfl
  have disk : ((s.setPage (page.put inBlock chunk)).extend
      (page.blockId * s.blockSize + inBlock + chunk.length)).disk = s.disk := rfl
  -- A page of another block is before the chunk, or behind it.
  have far : ∀ p : Page, p.blockId ≠ page.blockId → p.blockId * s.blockSize + s.blockSize ≤ page.blockId * s.blockSize ∨
      page.blockId * s.blockSize + s.blockSize ≤ p.blockId * s.blockSize := by
    intro p other
    rcases lt_or_gt_of_ne other with before | behind
    · exact .inl (block_before before _)
    · exact .inr (block_before behind _)
  refine ⟨mirrors.word, by omega, ?_, by rw [newSize, disk]; omega, ?_, fun none => absurd none positive.ne', fun p there => ?_,
    fun p there i bound => ?_, fun j bound clean => ?_⟩
  · rw [newSize, ← mirrors.size]
    rfl
  · exact (setPage_ids s _) ▸ mirrors.ids
  · rw [newSize, blockSize]
    rcases mem_setPage there with rfl | ⟨old, other⟩
    · simp only [Page.put]
      omega
    · have := mirrors.fill p old
      have := far p other
      omega
  · rw [blockSize]
    rcases mem_setPage there with rfl | ⟨old, other⟩
    · simp only [Page.put] at bound ⊢
      by_cases inside : inBlock ≤ i ∧ i < inBlock + chunk.length
      · obtain ⟨k, rfl⟩ := Nat.exists_eq_add_of_le inside.1
        rw [← add_assoc, ByteFile.byte_write_inside (by omega), overlay_inside (by omega)]
      · rw [byte_write_outside (by omega), overlay_outside (by omega)]
        exact mirrors.content page mem i (by omega)
    · have := mirrors.fill p old
      have := far p other
      rw [byte_write_outside (by omega)]
      exact mirrors.content p old i bound
  · -- The page written to is dirty: the byte is in another block.
    have elsewhere : j / s.blockSize ≠ page.blockId := fun here =>
      nomatch (clean (page.put inBlock chunk) (mem_map.mpr ⟨page, mem, if_pos rfl⟩) here.symm : true = false)
    have outside : j < page.blockId * s.blockSize ∨ page.blockId * s.blockSize + s.blockSize ≤ j := by
      have := mt (block_div positive).mpr elsewhere
      omega
    have old : Stored ideal s.disk j := by
      refine mirrors.stored j (by omega) fun p there same => clean p
        (mem_map.mpr ⟨p, there, if_neg fun same' => elsewhere ?_⟩) same
      exact same.symm.trans same'
    refine ⟨old.1, ?_⟩
    rw [byte_write_outside (by omega)]
    exact old.2

section Write

variable {before : State} {offset done here original : Nat} {data : List UInt8}

def Outcome.Complete (outcome : Outcome) (length : Nat) : Prop := outcome.ret = length ∧ length ≤ outcome.stored

def Outcome.Refused (outcome : Outcome) : Prop := outcome.ret < 0 ∧ outcome.stored = 0

/-- The write replaces all of a block that has a dirty page. -/
def Replaces (s : State) (offset length : Nat) : Prop :=
  ∃ p ∈ s.pages, p.dirty = true ∧ offset ≤ p.blockId * s.blockSize ∧ p.blockId * s.blockSize + s.blockSize ≤ offset + length

/-- The driver writes all, or nothing where that leaves no dirty page unwritten. -/
def FairWrite (env : Env) (s : State) (offset length : Nat) : Prop :=
  ∀ n, ∀ count ≤ length, (env.driver n count).Complete count ∨ (env.driver n count).Refused ∧ ¬Replaces s offset length

/-- What the rounds of `vfs_write` keep: so much is in the file, and the pages further on are as
they were before. A later round starts with a block. -/
structure Writing (ideal : ByteFile) (before : State) (offset : Nat) (data : List UInt8) (done : Nat) (s : State) : Prop where
  mirrors : Mirrors (ideal.write offset (data.take done)) s
  blockSize : s.blockSize = before.blockSize
  fits : done ≤ data.length
  aligned : done = 0 ∨ done = data.length ∨ (offset + done) % s.blockSize = 0
  further : ∀ p ∈ s.pages, offset + done ≤ p.blockId * s.blockSize → p ∈ before.pages

/-- A write that stops early says how much is in the file, or fails with nothing in it. -/
structure Stopped (ideal : ByteFile) (env : Env) (offset : Nat) (data : List UInt8) (done : Nat) (ret : Int)
    (s : State) : Prop where
  mirrors : Mirrors (ideal.write offset (data.take done)) s
  fits : done ≤ data.length
  value : ret = cInt done ∨ done = 0 ∧ ret < 0
  why : done = data.length ∨ (∃ block, env.grant block = false) ∨ ∃ n, ∃ count ≤ data.length, (env.driver n count).ret < 0

def WrittenOn (ideal : ByteFile) (env : Env) (before : State) (offset : Nat) (data : List UInt8) (done : Nat) :
    (Int ⊕ Nat) × State → Prop
  | (.inl ret, s) => Stopped ideal env offset data done ret s
  | (.inr done', s) => Writing ideal before offset data done' s ∧ done < done'

theorem take_write (ideal : ByteFile) (offset : Nat) (data : List UInt8) (fits : done ≤ data.length) (count : Nat) :
    (ideal.write offset (data.take done)).write (offset + done) ((data.drop done).take count) =
      ideal.write offset (data.take (done + count)) := by
  have length : (data.take done).length = done := by
    rw [length_take]
    omega
  rw [take_add, ← ByteFile.write_append, length]

theorem part_nothing {outcome : Outcome} (start : offset ≤ ideal.size) (refused : outcome.Refused) (data : List UInt8) :
    Part ideal offset (data.take outcome.stored) := by
  rw [refused.2, take_zero]
  exact ⟨start, nofun⟩

namespace Writing
variable (writing : Writing ideal before offset data done s)
include writing

/-- The pages are dropped and nothing is written: none of them has been dirty. -/
theorem refused (here : block * s.blockSize = offset + done) (inside : done + count * s.blockSize ≤ data.length)
    (keeps : ¬Replaces before offset data.length) : Mirrors (ideal.write offset (data.take done)) (s.drop block count) := by
  refine writing.mirrors.dropPages (fun id => ¬(block ≤ id ∧ id < block + count)) fun j bound dropped => ?_
  refine writing.mirrors.stored j bound fun p mem same => ?_
  have between := not_not.mp (of_decide_eq_false dropped)
  rw [← same] at between
  have low : block * s.blockSize ≤ p.blockId * s.blockSize := mul_le_mul_right _ between.1
  have high : p.blockId * s.blockSize + s.blockSize ≤ (block + count) * s.blockSize := block_before between.2 _
  rw [add_mul] at high
  by_contra dirty
  refine keeps ⟨p, writing.further p mem (by omega), Bool.not_eq_false _ ▸ dirty, ?_⟩
  rw [← writing.blockSize]
  omega

theorem size (start : offset ≤ ideal.size) : (ideal.write offset (data.take done)).size = max ideal.size (offset + done) := by
  rw [size_write_of_le start, length_take, min_eq_left writing.fits]

section
variable (start : offset ≤ ideal.size) (small : offset + data.length < 2 ^ 63)
include start small

theorem direct (positive : 0 < s.blockSize)
    (int : data.length < 2 ^ 31) (aligned : (offset + done) % s.blockSize = 0) (enough : s.blockSize ≤ data.length - done)
    (fair : FairWrite env before offset data.length) :
    WrittenOn ideal env before offset data done (writeDirect env data done (offset + done) s) := by
  have fits := writing.fits
  have here := Nat.div_mul_cancel (Nat.dvd_of_mod_eq_zero aligned)
  simp only [writeDirect, foldl_invalidate]
  generalize blocksEq : (data.length - done) / s.blockSize = blocks
  generalize (offset + done) / s.blockSize = block at here ⊢
  generalize chunkEq : (data.drop done).take (blocks * s.blockSize) = chunk
  have inside : blocks * s.blockSize ≤ data.length - done := blocksEq ▸ div_mul_le_self _ _
  have some : 0 < blocks * s.blockSize := mul_pos (blocksEq ▸ div_pos enough positive) positive
  have length : chunk.length = blocks * s.blockSize := by
    rw [← chunkEq, length_take, length_drop]
    omega
  have size := writing.size start
  have value : (driverWrite env (s.drop block blocks) (offset + done) chunk).1 = (env.driver s.calls chunk.length).ret := rfl
  rw [value]
  obtain ⟨count, complete⟩ | ⟨refused, keeps⟩ := fair s.calls chunk.length (by omega)
  · have next : (done + (env.driver s.calls chunk.length).ret.toNat) % 2 ^ 32 = done + blocks * s.blockSize := by
      rw [count, Int.toNat_natCast, length]
      exact mod_eq_of_lt (by omega)
    have behind : uint64 (offset + done + (env.driver s.calls chunk.length).ret.toNat) = offset + done + chunk.length := by
      rw [count, Int.toNat_natCast]
      exact mod_eq_of_lt (by omega)
    rw [if_neg (by omega), next, behind]
    refine ⟨⟨?_, writing.blockSize, by omega, .inr (.inr ?_), fun p mem far => ?_⟩, by omega⟩
    · rw [← take_write ideal offset data fits, chunkEq, ← here]
      have nonempty : chunk ≠ [] := length_pos_iff.mp (by omega)
      obtain ⟨nodeSize, disk⟩ := driverWrite_complete (s.drop block blocks) (block * s.blockSize) nonempty complete
      refine writing.mirrors.direct positive (by omega) length nonempty (by omega) rfl rfl disk ?_
      rw [State.extend, nodeSize]
      simp only [State.drop]
      omega
    · exact (congrArg (· % s.blockSize) (add_assoc offset done _).symm).trans
        ((add_mul_mod_self_right _ _ _).trans aligned)
    · replace far : offset + (done + blocks * s.blockSize) ≤ p.blockId * s.blockSize := far
      exact writing.further p (mem_drop.mp mem).1 (by omega)
  · rw [if_pos refused.1]
    refine ⟨?_, fits, ?_, .inr (.inr ⟨_, _, by omega, refused.1⟩)⟩
    · exact (writing.refused here (by omega) keeps).driverWrite (part_nothing (by omega) refused chunk)
    · split
      · exact .inl rfl
      · exact .inr ⟨by omega, refused.1⟩

theorem cached (positive : 0 < s.blockSize)
    (left : done < data.length) (partly : ¬((offset + done) % s.blockSize = 0 ∧ s.blockSize ≤ data.length - done)) :
    WrittenOn ideal env before offset data done (writeCached env data ideal.size done (offset + done) s) := by
  have fits := writing.fits
  have size := writing.size start
  have whole := div_add_mod' (offset + done) s.blockSize
  have modulo := mod_lt (offset + done) positive
  unfold writeCached
  dsimp only
  split
  case h_1 missing =>
    refine ⟨writing.mirrors, fits, ?_, .inr (.inl ⟨_, vfsGetOrCreatePage_none missing⟩)⟩
    split
    · exact .inl rfl
    · exact .inr ⟨by omega, by decide⟩
  case h_2 page after found =>
    -- A page that is not read from the disk is all behind the end of the file.
    have fresh : decide (¬((offset + done) % s.blockSize = 0 ∧
        min (s.blockSize - (offset + done) % s.blockSize) (data.length - done) = s.blockSize) ∧
        (offset + done) / s.blockSize * s.blockSize < ideal.size) = false →
        (ideal.write offset (data.take done)).size ≤ (offset + done) / s.blockSize * s.blockSize := by
      intro new
      have := of_decide_eq_false new
      have := writing.aligned
      omega
    obtain ⟨kept, mem, isBlock, same, others⟩ := vfsGetOrCreatePage_mirrors writing.mirrors positive found (by omega) fresh
    generalize chunkEq : (data.drop done).take (min (s.blockSize - (offset + done) % s.blockSize) (data.length - done)) = chunk
    have length : chunk.length = min (s.blockSize - (offset + done) % s.blockSize) (data.length - done) := by
      rw [← chunkEq, length_take, length_drop]
      omega
    have here : page.blockId * after.blockSize + (offset + done) % s.blockSize = offset + done := by
      rw [isBlock, same, whole]
    have behind : uint64 (offset + done + chunk.length) = offset + done + chunk.length := mod_eq_of_lt (by omega)
    have nonempty : chunk ≠ [] := length_pos_iff.mp (by omega)
    have written := kept.cached (same ▸ positive) mem here (by omega) (by omega) nonempty (by omega)
    rw [← chunkEq, take_write ideal offset data fits, chunkEq] at written
    rw [← length, behind]
    refine ⟨⟨length ▸ written, same.trans writing.blockSize, by omega, ?_, fun p there far => ?_⟩, by omega⟩
    · by_cases all : done + chunk.length = data.length
      · exact .inr (.inl all)
      -- The chunk goes up to the end of the block.
      have next : offset + (done + chunk.length) = ((offset + done) / s.blockSize + 1) * s.blockSize := by
        rw [succ_mul]
        omega
      refine .inr (.inr ?_)
      simp only [State.extend, State.setPage, same, next]
      exact mul_mod_left _ _
    · -- The page written to is not further on.
      replace far : offset + (done + chunk.length) ≤ p.blockId * after.blockSize := far
      rcases mem_setPage there with rfl | ⟨old, other⟩
      · simp only [Page.put] at far
        omega
      · rw [same] at far
        exact writing.further p (others p old (isBlock ▸ other)) (by omega)

theorem round (positive : 0 < before.blockSize)
    (int : data.length < 2 ^ 31) (fair : FairWrite env before offset data.length) :
    WrittenOn ideal env before offset data done (writeRound env offset data ideal.size done s) := by
  have fits := writing.fits
  rw [← writing.blockSize] at positive
  unfold writeRound
  split
  case isTrue all => exact ⟨writing.mirrors, fits, .inl rfl, .inl (by omega)⟩
  case isFalse left =>
  have here : uint64 (offset + done) = offset + done := mod_eq_of_lt (by omega)
  dsimp only
  rw [here]
  split
  case isTrue whole => exact writing.direct start small positive int whole.1 whole.2 fair
  case isFalse partly => exact writing.cached start small positive (by omega) partly

end

end Writing

theorem Writing.start (mirrors : Mirrors ideal s) : Writing ideal s offset data 0 s := by
  refine ⟨?_, rfl, zero_le _, .inl rfl, fun p mem _ => mem⟩
  rw [take_zero, write_nil]
  exact mirrors

section
variable (mirrors : Mirrors ideal s) (start : offset ≤ ideal.size) (small : offset + data.length < 2 ^ 63)
    (int : data.length < 2 ^ 31) (fair : FairWrite env s offset data.length)
include mirrors start small int fair

/-- Without a block size every write goes to the driver. -/
theorem plain_write (plain : s.blockSize = 0) (some : data ≠ []) :
    ∃ done, Stopped ideal env offset data done (driverWrite env s offset data).1 (driverWrite env s offset data).2 := by
  have pages := mirrors.plain plain
  obtain ⟨count, complete⟩ | ⟨refused, -⟩ := fair s.calls data.length (le_refl _)
  · refine ⟨data.length, ?_, le_refl _, .inl (count.trans (cInt_of_lt int).symm), .inl rfl⟩
    obtain ⟨nodeSize, disk⟩ := driverWrite_complete s offset some complete
    have size : (ideal.write offset data).size = max ideal.size (offset + data.length) := size_write_of_le start
    have idealSmall := mirrors.small
    rw [mirrors.disk_eq plain] at disk
    rw [take_length]
    have none : ∀ p, p ∉ s.pages := fun p mem => nomatch (pages ▸ mem : p ∈ [])
    exact { mirrors with
      small := by omega, size := by rw [nodeSize, size, mirrors.size], shorter := by rw [disk]
      fill := fun p mem => absurd mem (none p), content := fun p mem => absurd mem (none p)
      stored := fun j bound _ => ⟨by rwa [disk], by rw [disk]⟩ }
  · refine ⟨0, ?_, zero_le _, .inr ⟨rfl, refused.1⟩, .inr (.inr ⟨_, _, le_refl _, refused.1⟩)⟩
    rw [take_zero, write_nil]
    exact mirrors.driverWrite (part_nothing start refused data)

theorem vfsWrite_mirrors
    (result : vfsWrite env rounds s offset data = some (ret, s')) : ∃ done, Stopped ideal env offset data done ret s' := by
  unfold vfsWrite at result
  split at result
  case isTrue none =>
    cases result
    refine ⟨0, ?_, zero_le _, .inl rfl, .inl (by rw [none]; rfl)⟩
    rw [none, take_nil, write_nil]
    exact mirrors
  case isFalse nonempty =>
  split at result
  case isTrue plain =>
    cases result
    exact plain_write mirrors start small int fair plain nonempty
  case isFalse positive =>
  rw [mirrors.size] at result
  refine loop_result (Writing ideal s offset data) (fun ret s' => ∃ done, Stopped ideal env offset data done ret s')
    (fun done s1 ret s2 writing round => ?_) (fun done s1 done' s2 writing round => ?_) (.start mirrors) result
  · have last := writing.round start small (pos_of_ne_zero positive) int fair
    rw [round] at last
    exact ⟨done, last⟩
  · have next := writing.round start small (pos_of_ne_zero positive) int fair
    rw [round] at next
    exact next.1

theorem vfsWrite_ends (enough : data.length < rounds) :
    ∃ ret s', vfsWrite env rounds s offset data = some (ret, s') := by
  unfold vfsWrite
  split
  · exact ⟨_, _, rfl⟩
  split
  · exact ⟨_, _, rfl⟩
  case isFalse positive =>
  rw [mirrors.size]
  refine loop_ends (Writing ideal s offset data) (fun done => data.length - done)
    (fun done s1 done' s2 writing round => ?_) (.start mirrors) (by omega)
  have next := writing.round start small (pos_of_ne_zero positive) int fair
  rw [round] at next
  have fits := next.1.fits
  exact ⟨next.1, by have := next.2; omega⟩

end

end Write

section Flush
variable {size : Nat}

/-- The driver stores all, or says that it has not. -/
def FairFlush (env : Env) : Prop := ∀ n length, (env.driver n length).ret < 0 ∨ length ≤ (env.driver n length).stored

def State.withPages (s : State) (pages : List Page) : State := { s with pages := pages }

theorem Mirrors.clean (mirrors : Mirrors ideal (s.withPages (front ++ page :: rest)))
    (stored : ∀ j < ideal.size, j / s.blockSize = page.blockId → Stored ideal s.disk j) :
    Mirrors ideal (s.withPages (front ++ page.clean :: rest)) := by
  -- Every page is one of the old ones, but for the mark.
  have old : ∀ p ∈ front ++ page.clean :: rest, ∃ q ∈ front ++ page :: rest,
      q.blockId = p.blockId ∧ q.size = p.size ∧ q.buffer = p.buffer := by
    intro p mem
    simp only [mem_append, mem_cons] at mem ⊢
    rcases mem with mem | rfl | mem
    · exact ⟨p, .inl mem, rfl, rfl, rfl⟩
    · exact ⟨page, .inr (.inl rfl), rfl, rfl, rfl⟩
    · exact ⟨p, .inr (.inr mem), rfl, rfl, rfl⟩
  refine { mirrors with
    ids := ?_, plain := fun none => ?_, fill := fun p mem => ?_, content := fun p mem i bound => ?_
    stored := fun j bound clean => ?_ }
  · have ids := mirrors.ids
    rw [State.withPages, map_append, map_cons] at ids ⊢
    exact ids
  · have empty := mirrors.plain none
    rw [State.withPages, append_eq_nil_iff] at empty
    cases empty.2
  · obtain ⟨q, there, id, size, -⟩ := old p mem
    rw [← size, ← id]
    exact mirrors.fill q there
  · obtain ⟨q, there, id, size, buffer⟩ := old p mem
    rw [← buffer, ← id]
    exact mirrors.content q there i (size ▸ bound)
  · by_cases here : j / s.blockSize = page.blockId
    · exact stored j bound here
    refine mirrors.stored j bound fun p mem same => ?_
    rcases mem_append.mp mem with mem | mem
    · exact clean p (mem_append_left _ mem) same
    rcases mem_cons.mp mem with rfl | mem
    · exact absurd same.symm here
    · exact clean p (mem_append_right _ (mem_cons_of_mem _ mem)) same

theorem flushPage_error (fine : 0 ≤ (flushPage env size page error s).1) :
    0 ≤ error ∧ (flushPage env size page error s).2.1.dirty = false := by
  simp only [flushPage] at fine ⊢
  split_ifs at fine ⊢
  · dsimp only at fine
    omega
  · exact ⟨fine, rfl⟩
  · exact ⟨fine, rfl⟩

theorem flushPage_mirrors (mirrors : Mirrors ideal (s.withPages (front ++ page :: rest))) (positive : 0 < s.blockSize)
    (fair : FairFlush env) :
    Mirrors ideal ((flushPage env s.blockSize page error s).2.2.withPages
      (front ++ (flushPage env s.blockSize page error s).2.1 :: rest)) := by
  have mem : page ∈ (s.withPages (front ++ page :: rest)).pages := mem_append_right _ mem_cons_self
  have fill := mirrors.fill page mem
  replace fill : page.size = min s.blockSize (ideal.size - page.blockId * s.blockSize) := fill
  unfold flushPage
  split
  case isTrue dirty =>
    dsimp only
    have part : Part ideal (page.blockId * s.blockSize) (slice page.buffer 0 page.size) :=
      part_slice _ (by omega) fun i bound => mirrors.content page mem i bound
    have driven : Mirrors ideal ((driverWrite env s (page.blockId * s.blockSize)
        (slice page.buffer 0 page.size)).2.withPages (front ++ page :: rest)) := mirrors.driverWrite (part.take _)
    split
    case isTrue => exact driven
    case isFalse written =>
    refine driven.clean fun j bound here => ?_
    have complete := (fair s.calls (slice page.buffer 0 page.size).length).resolve_left written
    obtain ⟨low, high⟩ := (block_div positive).mp here
    rw [driverWrite_disk, take_of_length_le complete]
    refine .of_part s.disk part low ?_
    rw [slice_length]
    omega
  case isFalse done =>
    refine mirrors.clean fun j bound here => ?_
    obtain ⟨low, high⟩ := (block_div positive).mp here
    -- A page without a byte of the file is behind its end.
    have notDirty : page.dirty = false := by
      by_contra dirty
      have empty : ¬0 < page.size := fun some => done ⟨Bool.not_eq_false _ ▸ dirty, some⟩
      omega
    refine mirrors.stored j bound fun p there same => ?_
    rw [page_unique mirrors.ids there mem (same.trans here)]
    exact notDirty

theorem flushPages_error (fine : 0 ≤ (flushPages env size pages error s).1) :
    0 ≤ error ∧ ∀ p ∈ (flushPages env size pages error s).2.1, p.dirty = false := by
  induction pages generalizing s error with
  | nil => exact ⟨fine, nofun⟩
  | cons page rest ih =>
    obtain ⟨fine, others⟩ := ih fine
    obtain ⟨fine, this⟩ := flushPage_error fine
    refine ⟨fine, fun p mem => ?_⟩
    exact (mem_cons.mp mem).elim (· ▸ this) (others p)

theorem flushPage_blockSize : (flushPage env size page error s).2.2.blockSize = s.blockSize := by
  unfold flushPage
  split
  · dsimp only
    split <;> rfl
  · rfl

theorem flushPages_mirrors (error : Int) (mirrors : Mirrors ideal (s.withPages (front ++ pages))) (same : s.blockSize = size)
    (positive : 0 < size) (fair : FairFlush env) :
    Mirrors ideal ((flushPages env size pages error s).2.2.withPages (front ++ (flushPages env size pages error s).2.1)) := by
  induction pages generalizing s error front with
  | nil => exact mirrors
  | cons page rest ih =>
    have first : Mirrors ideal ((flushPage env size page error s).2.2.withPages
        (front ++ (flushPage env size page error s).2.1 :: rest)) := by
      subst same
      exact flushPage_mirrors mirrors positive fair
    rw [append_cons] at first
    have others := ih (flushPage env size page error s).1 first (flushPage_blockSize.trans same)
    rw [append_assoc] at others
    exact others

/-- A flush keeps the file; with the result 0 no page is dirty. -/
theorem vfsFlush_mirrors (mirrors : Mirrors ideal s) (fair : FairFlush env) :
    Mirrors ideal (vfsFlush env s).2 ∧ ((vfsFlush env s).1 = 0 → ∀ p ∈ (vfsFlush env s).2.pages, p.dirty = false) := by
  unfold vfsFlush
  split
  case isTrue plain =>
    refine ⟨mirrors, fun _ p mem => ?_⟩
    rw [mirrors.plain plain] at mem
    cases mem
  case isFalse positive =>
    have start : Mirrors ideal (s.withPages ([] ++ s.pages)) := mirrors
    have all := flushPages_mirrors 0 start rfl (pos_of_ne_zero positive) fair
    dsimp only
    split
    case isTrue negative => exact ⟨all, fun zero => absurd zero negative.ne⟩
    case isFalse fine => exact ⟨all, fun _ => (flushPages_error (Int.not_lt.mp fine)).2⟩

end Flush

end Sirius.Fs.PageCache
