import Sirius.Memory.HeapBlocks

/-! Contracts of `kmalloc` and `kfree` on a well-formed heap: both keep it so, and
the used blocks gain or lose exactly the block behind the pointer. -/
namespace Sirius.Memory
open Support List

variable {heap : Heap} {tables : Nat → Nat}

/-- A block is taken out of the list of free ones: the heap stays well formed and
its used blocks gain exactly the one behind the returned pointer. -/
theorem take_wellFormed (wf : heap.WellFormed) (member : best ∈ heap.blocks)
    (free : best.isFree = true) (fits : size ≤ best.size) (rounded : 16 ∣ size) :
    let after : Heap := { heap with blocks := splice best.addr (carve size) heap.blocks }
    after.WellFormed ∧ ∃ before behind block,
      used heap.blocks = before ++ behind ∧ used after.blocks = before ++ block :: behind ∧
      block.addr = best.addr ∧ size ≤ block.size := by
  have inRange := (wf.placed member).inRange
  obtain ⟨before, behind, block, split, replaced, tiles, aligned, old, new, addr, large⟩ :=
    take_blocks wf.tiles wf.aligned member inRange free fits rounded
  obtain ⟨head, tail, shape, -⟩ := carve_head fits inRange
  have separated := wf.separated
  rw [split] at separated
  rw [replaced]
  refine ⟨⟨tiles, aligned, carve_separated fits inRange free separated, ?_, wf.limit⟩, used before, used behind, block, old, new,
    addr, large⟩
  simp [shape]

/-- No sum over the size wraps, also when it is rounded up. -/
def NoWrap (size : Nat) : Prop := size + sizeofHeapHeader + pageSize ≤ 2 ^ 64

theorem NoWrap.of_le (small : size ≤ 2 ^ 32) : NoWrap size := by
  simp only [NoWrap, sizeofHeapHeader, pageSize]
  omega

theorem expansionSize_spec (bound : NoWrap size) : pageSize ∣ expansionSize size ∧
    size + sizeofHeapHeader ≤ expansionSize size ∧ 1024 * 1024 ≤ expansionSize size ∧ expansionSize size < 2 ^ 64 := by
  have sum : u64 (size + sizeofHeapHeader) = size + sizeofHeapHeader := u64_of_lt (Nat.lt_of_lt_of_le (by simp [pageSize]) bound)
  unfold expansionSize
  split
  · obtain ⟨total, same, pages, lower, upper⟩ := roundUp_spec (by decide) bound
    rw [same]
    simp only [NoWrap, sizeofHeapHeader, pageSize] at *
    omega
  · simp only [sizeofHeapHeader, pageSize] at *
    omega

theorem expand_wellFormed (wf : heap.WellFormed) (bound : NoWrap size)
    (limit : heap.currentEnd + expansionSize size ≤ heapLimit) :
    (expand heap size).WellFormed ∧ (expand heap size).currentEnd = heap.currentEnd + expansionSize size ∧
      used (expand heap size).blocks = used heap.blocks ∧
      ∃ b ∈ (expand heap size).blocks, b.isFree = true ∧ size ≤ b.size := by
  obtain ⟨pages, covers, large, small⟩ := expansionSize_spec bound
  have top := heapLimit_lt
  have stop : u64 (heap.currentEnd + expansionSize size) = heap.currentEnd + expansionSize size :=
    u64_of_lt (by omega)
  have room : sub64 (expansionSize size) sizeofHeapHeader = expansionSize size - sizeofHeapHeader :=
    sub64_of_le (by omega) (by omega)
  let space : HeapHeader :=
    { addr := heap.currentEnd, size := expansionSize size - sizeofHeapHeader, isFree := true }
  obtain ⟨front, last, split⟩ : ∃ front last, heap.blocks = front ++ [last] := ⟨_, _, (dropLast_append_getLast wf.nonempty).symm⟩
  have shape : expand heap size = { blocks := appendSpace space (front ++ [last])
                                    currentEnd := heap.currentEnd + expansionSize size } := by
    simp only [expand, stop, room, space, split]
  have spanned : space.addr + space.span = heap.currentEnd + expansionSize size := by
    simp only [space, HeapHeader.span]
    omega
  have fits : space.addr + space.span < 2 ^ 64 := by omega
  obtain ⟨tiles, aligned, separated, -, -⟩ := wf
  rw [split] at tiles aligned separated ⊢
  rw [shape]
  obtain ⟨b, member, free, size⟩ := appendSpace_room rfl tiles fits
  refine ⟨⟨?_, ?_, appendSpace_separated separated, List.ne_nil_of_mem member, limit⟩, rfl,
    appendSpace_used rfl, b, member, free, ?_⟩
  · simpa only [spanned] using appendSpace_tiles tiles fits
  · refine appendSpace_aligned aligned ?_
    simp only [space, sizeofHeapHeader, pageSize] at *
    omega
  · simp only [space] at size
    omega

/-- The used blocks gained one block, behind `ptr` and at least `size` bytes large. -/
def Gains (old new : List HeapHeader) (ptr size : Nat) : Prop :=
  ∃ before behind block, used old = before ++ behind ∧ used new = before ++ block :: behind ∧
    block.addr + sizeofHeapHeader = ptr ∧ size ≤ block.size

theorem Gains.mono (gains : Gains old new ptr size) (less : least ≤ size) (same : used old = used old') :
    Gains old' new ptr least := by
  obtain ⟨before, behind, block, was, now, addr, large⟩ := gains
  exact ⟨before, behind, block, same ▸ was, now, addr, less.trans large⟩

theorem kmallocRetry_found (wf : heap.WellFormed) (rounded : 16 ∣ size)
    (found : searchBestFit size heap.blocks = some best) (fuel frames : Nat) :
    ∃ result, kmallocRetry tables (fuel + 1) heap size frames = some result ∧ result.heap.WellFormed ∧
      result.ptr ≠ 0 ∧ Gains heap.blocks result.heap.blocks result.ptr size := by
  obtain ⟨member, free, fits⟩ := searchBestFit_some found
  obtain ⟨above, below⟩ := wf.placed member
  obtain ⟨after, before, behind, block, old, new, addr, large⟩ :=
    take_wellFormed wf member free fits rounded
  have ptr : u64 (best.addr + sizeofHeapHeader) = best.addr + sizeofHeapHeader :=
    u64_of_lt (by omega)
  refine ⟨{ heap := { heap with blocks := splice best.addr (carve size) heap.blocks }
            frames := frames
            ptr := u64 (best.addr + sizeofHeapHeader) }, ?_, after, ?_, ?_⟩
  · simp only [kmallocRetry, found]
  · rw [ptr]
    simp [sizeofHeapHeader]
  · exact ⟨before, behind, block, old, new, by rw [ptr, addr], large⟩

def roundedSize (size : Nat) : Nat := alignDown 16 (u64 (size + 15))

theorem roundedSize_spec (bound : NoWrap size) : 16 ∣ roundedSize size ∧ size ≤ roundedSize size ∧ NoWrap (roundedSize size) := by
  simp only [NoWrap, sizeofHeapHeader, pageSize] at bound ⊢
  obtain ⟨rounded, same, aligned, covers, upper⟩ := roundUp_spec (by decide) (show size + 16 ≤ 2 ^ 64 by omega)
  rw [show roundedSize size = rounded from same]
  exact ⟨aligned, covers, by omega⟩

/-- A free block is large enough, or there are frames for an expansion. -/
def Served (tables : Nat → Nat) (heap : Heap) (size frames : Nat) : Prop :=
  (searchBestFit (roundedSize size) heap.blocks).isSome = true ∨
    framesNeeded tables heap.currentEnd (expansionSize (roundedSize size) / pageSize) ≤ frames

/-- `kmalloc` always returns: the second search after a growth cannot fail. Either
nothing changes and the pointer is null, or one block was handed out. -/
theorem kmalloc_spec (wf : heap.WellFormed) (positive : 1 ≤ size) (bound : NoWrap size)
    (supply : heap.currentEnd + pageSize * frames ≤ heapLimit) :
    ∃ result, kmalloc tables heap size frames = some result ∧ result.heap.WellFormed ∧
      (result.ptr = 0 ∧ result.heap = heap ∧ result.frames = 0 ∧ ¬Served tables heap size frames ∨
        result.ptr ≠ 0 ∧ Gains heap.blocks result.heap.blocks result.ptr size ∧ Served tables heap size frames) := by
  obtain ⟨aligned, covers', small⟩ := roundedSize_spec bound
  have unfolded : kmalloc tables heap size frames = kmallocRetry tables (frames + 2) heap (roundedSize size) frames :=
    if_neg (by omega)
  rw [Served, unfolded]
  generalize roundedSize size = rounded at *
  cases search : searchBestFit rounded heap.blocks with
  | some best =>
    obtain ⟨result, same, after, nonnull, gains⟩ :=
      kmallocRetry_found wf aligned search (frames + 1) frames
    exact ⟨result, same, after, .inr ⟨nonnull, gains.mono covers' rfl, .inl rfl⟩⟩
  | none =>
    have enough := @mapExpansion_iff tables heap.currentEnd (expansionSize rounded / pageSize) frames
    cases mapped : mapExpansion tables heap.currentEnd (expansionSize rounded / pageSize) frames with
    | mk ok left =>
      rw [mapped] at enough
      cases ok with
      | false =>
        obtain rfl := mapExpansion_false mapped
        refine ⟨{ heap := heap, frames := 0, ptr := 0 }, ?_, wf, .inl ⟨rfl, rfl, rfl, ?_⟩⟩
        · simp only [kmallocRetry, search, mapped]
        · rintro (found | served)
          · cases found
          · exact absurd (enough.mpr served) Bool.false_ne_true
      | true =>
        obtain ⟨pages, covers, large, tiny⟩ := expansionSize_spec small
        have taken := mapExpansion_true mapped
        have within : heap.currentEnd + expansionSize rounded ≤ heapLimit := by
          simp only [pageSize] at *
          omega
        obtain ⟨grown, -, sameUsed, b, member, free, fits⟩ := expand_wellFormed wf small within
        have bounded : b.size < 0xFFFFFFFFFFFFFFFF := by
          obtain ⟨above, below⟩ := grown.placed member
          simp only [kernelHeapVirtualBase] at above
          omega
        obtain ⟨best, again⟩ := searchBestFit_isSome member free fits bounded
        obtain ⟨result, same, after, nonnull, gains⟩ :=
          kmallocRetry_found grown aligned again frames left
        refine ⟨result, ?_, after, .inr ⟨nonnull, gains.mono covers' sameUsed, .inr (enough.mp rfl)⟩⟩
        rw [kmallocRetry, search]
        simp only [mapped]
        exact same

/-- The call fails and changes nothing, or there is a block of the size in the heap behind the pointer. -/
def AllOrNothing (tables : Nat → Nat) (heap : Heap) (size frames : Nat) : Prop :=
  ∃ result, kmalloc tables heap size frames = some result ∧
    (result.ptr = 0 → result.heap = heap ∧ result.frames = frames) ∧
    (result.ptr ≠ 0 → ∃ block ∈ result.heap.blocks, block.addr + sizeofHeapHeader = result.ptr ∧ size ≤ block.size ∧
      kernelHeapVirtualBase ≤ block.addr ∧ block.addr + block.span ≤ result.heap.currentEnd)

/-! Sizes so large that a sum over them wraps: rounded up, they are 0, or the expansion for them may be 0. -/

theorem kmallocRetry_bounds (returned : kmallocRetry tables fuel heap size frames = some result)
    (low : heap.currentEnd < 2 ^ 64) : result.heap.currentEnd < 2 ^ 64 ∧ result.frames ≤ frames := by
  induction fuel generalizing heap frames with
  | zero => cases returned
  | succ fuel ih =>
    rw [kmallocRetry] at returned
    split at returned
    · cases returned
      exact ⟨low, Nat.le_refl _⟩
    split at returned
    case h_1 left mapped =>
      obtain rfl := mapExpansion_false mapped
      cases returned
      exact ⟨low, Nat.zero_le _⟩
    case h_2 left mapped =>
      obtain ⟨high, fewer⟩ := ih returned (Nat.mod_lt _ (by decide))
      exact ⟨high, fewer.trans ((Nat.le_add_left _ _).trans (mapExpansion_true mapped))⟩

theorem expansionSize_pages (some : expansionSize size ≠ 0) : ∃ pages, expansionSize size / pageSize = pages + 1 := by
  have whole : pageSize ∣ expansionSize size := by
    unfold expansionSize
    split
    · exact alignDown_dvd _ _
    · decide
  refine Nat.exists_eq_add_one_of_ne_zero fun none => some ?_
  rw [← Nat.div_mul_cancel whole, none, Nat.zero_mul]

theorem appendSpace_low (old : ∀ b ∈ blocks, b.addr ≤ limit) (new : space.addr ≤ limit) :
    ∀ b ∈ appendSpace space blocks, b.addr ≤ limit := by
  fun_induction appendSpace space blocks with
  | case1 => exact old
  | case2 => simpa using old
  | case3 => simpa [new] using old
  | case4 block next rest ih =>
    obtain ⟨first, others⟩ := forall_mem_cons.mp old
    exact forall_mem_cons.mpr ⟨first, ih others⟩

/-- An empty expansion cannot fail, so that a call that returns has found a block. -/
theorem kmallocRetry_empty_expansion (blocks : ∀ b ∈ heap.blocks, b.addr ≤ heapLimit) (limit : heap.currentEnd ≤ heapLimit)
    (empty : expansionSize size = 0) (returned : kmallocRetry tables fuel heap size frames = some result) : result.ptr ≠ 0 := by
  have top : heapLimit + sizeofHeapHeader < 2 ^ 64 := by decide
  induction fuel generalizing heap with
  | zero => cases returned
  | succ fuel ih =>
    rw [kmallocRetry, empty] at returned
    split at returned
    case h_1 best found =>
      have low := blocks best (searchBestFit_some found).1
      cases returned
      dsimp only
      rw [u64_of_lt (by omega)]
      simp [sizeofHeapHeader]
    case h_2 =>
      have same : u64 (heap.currentEnd + expansionSize size) = heap.currentEnd := by
        rw [empty]
        exact u64_of_lt (by omega)
      exact ih (appendSpace_low blocks limit) (same.trans_le limit) returned

/-- Once a sum wraps, a call is all or nothing exactly if it fails at the first frame. -/
theorem wide_all_or_nothing_iff (wf : heap.WellFormed) (wide : ¬NoWrap size) :
    AllOrNothing tables heap size frames ↔
      frames = 0 ∧ searchBestFit (roundedSize size) heap.blocks = none ∧ expansionSize (roundedSize size) ≠ 0 := by
  have top := wf.limit.trans_lt heapLimit_lt
  simp only [NoWrap, sizeofHeapHeader, pageSize, Nat.not_le] at wide
  have unfolded : kmalloc tables heap size frames = kmallocRetry tables (frames + 2) heap (roundedSize size) frames :=
    if_neg (by omega)
  rw [AllOrNothing, unfolded]
  constructor
  · rintro ⟨result, returned, failed, found⟩
    obtain ⟨high, fewer⟩ := kmallocRetry_bounds returned top
    -- no block in the heap is that large
    have null : result.ptr = 0 := by
      by_contra nonnull
      obtain ⟨block, -, -, large, low, within⟩ := found nonnull
      simp only [HeapHeader.span, kernelHeapVirtualBase] at low within
      omega
    cases search : searchBestFit (roundedSize size) heap.blocks with
    | some best =>
      obtain ⟨_, same, -, nonnull, -⟩ := kmallocRetry_found wf (alignDown_dvd _ _) search (frames + 1) frames
      cases returned.symm.trans same
      exact absurd null nonnull
    | none =>
      have low : ∀ b ∈ heap.blocks, b.addr ≤ heapLimit := fun b member =>
        (Nat.le_add_right _ _).trans ((wf.tiles.bounds member).2.trans wf.limit)
      have grows : expansionSize (roundedSize size) ≠ 0 := fun empty =>
        kmallocRetry_empty_expansion low wf.limit empty returned null
      refine ⟨?_, rfl, grows⟩
      rw [kmallocRetry, search] at returned
      dsimp only at returned
      split at returned
      case h_1 left mapped =>
        obtain rfl := mapExpansion_false mapped
        cases returned
        exact (failed rfl).2.symm
      case h_2 left mapped =>
        obtain ⟨pages, count⟩ := expansionSize_pages grows
        have taken := mapExpansion_true mapped
        have rest := (kmallocRetry_bounds returned (Nat.mod_lt _ (by decide))).2
        have same := (failed null).2
        omega
  · rintro ⟨rfl, search, grows⟩
    obtain ⟨pages, count⟩ := expansionSize_pages grows
    refine ⟨⟨heap, 0, 0⟩, ?_, fun _ => ⟨rfl, rfl⟩, fun nonnull => absurd rfl nonnull⟩
    rw [kmallocRetry, search, count]
    rfl

/-- A call is all or nothing exactly if it can be served, or finds no frame at all for an expansion that is not empty: the
frames it has mapped when it fails half way are not given back. -/
theorem kmalloc_all_or_nothing_iff (wf : heap.WellFormed) (positive : 1 ≤ size)
    (supply : heap.currentEnd + pageSize * frames ≤ heapLimit) :
    AllOrNothing tables heap size frames ↔ NoWrap size ∧ Served tables heap size frames ∨
      frames = 0 ∧ searchBestFit (roundedSize size) heap.blocks = none ∧ expansionSize (roundedSize size) ≠ 0 := by
  by_cases bound : NoWrap size
  case neg => rw [wide_all_or_nothing_iff wf bound, or_iff_right fun served => bound served.1]
  obtain ⟨result, returned, after, ⟨null, same, left, short⟩ | ⟨nonnull, gains, served⟩⟩ := kmalloc_spec wf positive bound supply
  · obtain ⟨missed, -⟩ := not_or.mp short
    rw [or_iff_right fun served => short served.2]
    constructor
    · rintro ⟨_, again, failed, -⟩
      cases returned.symm.trans again
      refine ⟨(failed null).2.symm.trans left, by simpa using missed, ?_⟩
      have large := (expansionSize_spec (roundedSize_spec bound).2.2).2.2.1
      omega
    · rintro ⟨rfl, -⟩
      exact ⟨result, returned, fun _ => ⟨same, left⟩, fun some => absurd null some⟩
  · obtain ⟨before, behind, block, -, new, addr, large⟩ := gains
    have member := (mem_used.mp (new ▸ mem_append_right before mem_cons_self)).1
    obtain ⟨low, within⟩ := after.tiles.bounds member
    exact iff_of_true ⟨result, returned, fun null => absurd null nonnull, fun _ => ⟨block, member, addr, large, low, within⟩⟩
      (.inl ⟨bound, served⟩)

theorem kheapInit_wellFormed : kheapInit.WellFormed where
  tiles := ⟨rfl, rfl⟩
  aligned := by decide
  separated := isChain_singleton _
  nonempty := by decide
  limit := by decide

/-- Behind the initial heap a page table is missing for every two megabytes. -/
def heapTables (addr : Nat) : Nat := if addr % (512 * pageSize) = 0 then 1 else 0

theorem kmalloc_all_or_nothing_first : AllOrNothing heapTables kheapInit 100 0 :=
  (kmalloc_all_or_nothing_iff kheapInit_wellFormed (by decide) (by decide)).mpr
    (.inl ⟨.of_le (by decide), .inl (by decide +kernel)⟩)

/-- Eight megabytes are asked for when one frame is left, which is lost; and for all of the address space there is a block
without a byte. -/
theorem kmalloc_loses_frame_or_size : kmalloc heapTables kheapInit (2 ^ 23) 1 = some ⟨kheapInit, 0, 0⟩ ∧
    (kmalloc heapTables kheapInit (2 ^ 64 - 1) 0).map (fun result => (result.ptr, result.heap.blocks.map HeapHeader.size)) =
      some (kernelHeapVirtualBase + sizeofHeapHeader, [0, kernelHeapInitialSize - 2 * sizeofHeapHeader]) := by
  decide +kernel

theorem kfree_spec (wf : heap.WellFormed) (member : block ∈ heap.blocks) (busy : block.isFree = false) :
    (kfree heap (block.addr + sizeofHeapHeader)).WellFormed ∧
      ∃ before behind, used heap.blocks = before ++ block :: behind ∧
        used (kfree heap (block.addr + sizeofHeapHeader)).blocks = before ++ behind := by
  obtain ⟨above, below⟩ := wf.placed member
  have header : sub64 (block.addr + sizeofHeapHeader) sizeofHeapHeader = block.addr := by
    rw [sub64_of_le (by omega) (by omega)]
    omega
  obtain ⟨before, behind, split, replaced⟩ :=
    splice_of_mem (wf.tiles.starts_nodup fun b _ => span_pos b) member
      (fun header => [{ header with isFree := true }])
  obtain ⟨first, rest, released⟩ : ∃ first rest,
      before ++ [{ block with isFree := true }] ++ behind = first :: rest :=
    exists_cons_of_ne_nil (by simp)
  have shape : kfree heap (block.addr + sizeofHeapHeader) =
      { heap with blocks := coalesceFrom first rest } := by
    simp only [kfree, header, replaced, released, coalesce]
    rw [if_neg (by simp [sizeofHeapHeader])]
  have wellTiled := wf.tiles
  have wellAligned := wf.aligned
  rw [split] at wellTiled wellAligned
  obtain ⟨tiles, aligned, old, new⟩ :=
    release_blocks wellTiled (wf.limit.trans_lt heapLimit_lt) wellAligned busy rfl released
  rw [shape]
  refine ⟨⟨tiles, aligned, coalesceFrom_separated first rest, ?_, wf.limit⟩, used before, used behind, split ▸ old, new⟩
  obtain ⟨head, tail, same, -⟩ := coalesceFrom_head first rest
  simp [same]

end Sirius.Memory
