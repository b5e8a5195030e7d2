import Sirius.Memory.Heap
import Mathlib.Data.List.Nodup

/-! What the list operations of the kernel heap do to the tiling, to the sizes, to
free neighbours and to the used blocks. -/
namespace Sirius.Memory
open Support
open List hiding after head

def HeapHeader.span (block : HeapHeader) : Nat := sizeofHeapHeader + block.size

/-- The blocks tile `[first, last)`: the `next` of each is its own end. -/
def Blocks (first : Nat) (blocks : List HeapHeader) (last : Nat) : Prop :=
  Tiles HeapHeader.addr HeapHeader.span first blocks last

/-- No two neighbours are both free. -/
def Separated (blocks : List HeapHeader) : Prop :=
  blocks.IsChain fun a b => ¬ (a.isFree = true ∧ b.isFree = true)

def used (blocks : List HeapHeader) : List HeapHeader := blocks.filter fun b => !b.isFree

def heapLimit : Nat := kernelHeapVirtualBase + pageSize * pmmMaxPages

/-- A block inside the kernel's address range, so that no sum over it can wrap. -/
def HeapHeader.Placed (block : HeapHeader) : Prop :=
  kernelHeapVirtualBase ≤ block.addr ∧ block.addr + (sizeofHeapHeader + block.size) < 2 ^ 64

/-- No sum over the block wraps. -/
def HeapHeader.InRange (block : HeapHeader) : Prop :=
  16 ≤ block.addr ∧ block.addr + (sizeofHeapHeader + block.size) < 2 ^ 64

theorem HeapHeader.Placed.inRange {block : HeapHeader} (placed : block.Placed) : block.InRange := by
  refine ⟨?_, placed.2⟩
  have := placed.1
  simp only [kernelHeapVirtualBase] at this
  omega

structure Heap.WellFormed (heap : Heap) : Prop where
  tiles : Blocks kernelHeapVirtualBase heap.blocks heap.currentEnd
  aligned : ∀ b ∈ heap.blocks, 16 ∣ b.size
  separated : Separated heap.blocks
  nonempty : heap.blocks ≠ []
  limit : heap.currentEnd ≤ heapLimit

theorem heapLimit_lt : heapLimit < 2 ^ 64 := by decide

theorem span_pos (block : HeapHeader) : 0 < block.span := by
  simp only [HeapHeader.span, sizeofHeapHeader]
  omega

@[simp] theorem used_nil : used [] = [] := rfl

@[simp] theorem used_append (left right : List HeapHeader) :
    used (left ++ right) = used left ++ used right := filter_append ..

theorem used_cons_free (free : block.isFree = true) (rest : List HeapHeader) :
    used (block :: rest) = used rest := by simp [used, free]

theorem used_cons_busy (busy : block.isFree = false) (rest : List HeapHeader) :
    used (block :: rest) = block :: used rest := by simp [used, busy]

theorem mem_used : block ∈ used blocks ↔ block ∈ blocks ∧ block.isFree = false := by
  simp [used, mem_filter]

theorem used_split (tiles : Blocks first blocks last)
    (split : used blocks = before ++ block :: behind) : ∀ b ∈ before ++ behind, b.addr ≠ block.addr := by
  have unique : ((used blocks).map HeapHeader.addr).Nodup :=
    (tiles.starts_nodup fun b _ => span_pos b).sublist (filter_sublist.map _)
  rw [split, map_append, map_cons] at unique
  obtain ⟨-, tail, apart⟩ := nodup_append.mp unique
  have notBehind := (nodup_cons.mp tail).1
  intro b member same
  rcases mem_append.mp member with left | right
  · exact apart _ (mem_map.mpr ⟨b, left, rfl⟩) _ mem_cons_self same
  · exact notBehind (mem_map.mpr ⟨b, right, same⟩)

/-- The address of a block is the base plus the spans before it, all multiples of 16. -/
theorem tiles_aligned (start : 16 ∣ first) (sizes : ∀ b ∈ blocks, 16 ∣ b.size)
    (tiles : Blocks first blocks last) : 16 ∣ last := by
  induction blocks generalizing first with
  | nil => exact tiles ▸ start
  | cons b rest ih =>
    have size := sizes b (by simp)
    refine ih ?_ (fun c inside => sizes c (by simp [inside])) tiles.2
    simp only [HeapHeader.span, sizeofHeapHeader]
    omega

namespace Heap.WellFormed
variable {heap : Heap}

section
variable (wf : heap.WellFormed) (member : block ∈ heap.blocks)
include wf member

theorem placed : block.Placed := by
  obtain ⟨above, below⟩ := wf.tiles.bounds member
  exact ⟨above, (below.trans wf.limit).trans_lt heapLimit_lt⟩

theorem addr_aligned : 16 ∣ block.addr := by
  obtain ⟨before, after, split⟩ := append_of_mem member
  have tiles := wf.tiles
  have aligned : ∀ b ∈ before, 16 ∣ b.size := by
    intro b inside
    exact wf.aligned b (by simp [split, inside])
  rw [split] at tiles
  obtain ⟨middle, left, here, -⟩ := Tiles.append_iff.mp tiles
  rw [here]
  exact tiles_aligned (by decide) aligned left

end

end Heap.WellFormed

theorem splice_of_mem (unique : (blocks.map HeapHeader.addr).Nodup)
    (member : block ∈ blocks) (new : HeapHeader → List HeapHeader) :
    ∃ before after, blocks = before ++ [block] ++ after ∧
      splice block.addr new blocks = before ++ new block ++ after := by
  induction blocks with
  | nil => simp at member
  | cons head rest ih =>
    simp only [map_cons, nodup_cons] at unique
    by_cases here : head.addr = block.addr
    · rcases mem_cons.mp member with rfl | later
      · exact ⟨[], rest, by simp, by simp [splice]⟩
      · exact absurd (mem_map.mpr ⟨block, later, here.symm⟩) unique.1
    have later : block ∈ rest := by
      rcases mem_cons.mp member with rfl | later
      · exact absurd rfl here
      · exact later
    obtain ⟨before, after, split, replaced⟩ := ih unique.2 later
    refine ⟨head :: before, after, ?_, ?_⟩
    · simp [split]
    · simp [splice, here, replaced]

theorem searchStep_some (size : Nat) (blocks : List HeapHeader) (found : Option HeapHeader × Nat)
    (h : (blocks.foldl (searchStep size) found).1 = some best) :
    found.1 = some best ∨ best ∈ blocks ∧ best.isFree = true ∧ size ≤ best.size := by
  induction blocks generalizing found with
  | nil => exact .inl h
  | cons block rest ih =>
    rcases ih _ h with earlier | ⟨member, free, large⟩
    · simp only [searchStep, Bool.and_eq_true, decide_eq_true_eq] at earlier
      split_ifs at earlier with fits
      · cases earlier
        exact .inr ⟨mem_cons_self, fits⟩
      · exact .inl earlier
      · exact .inl earlier
    · exact .inr ⟨mem_cons_of_mem _ member, free, large⟩

theorem searchBestFit_some (h : searchBestFit size blocks = some best) :
    best ∈ blocks ∧ best.isFree = true ∧ size ≤ best.size := by
  rcases searchStep_some size blocks _ h with none | found
  · cases none
  · exact found

/-- A fitting free block is never overlooked: the search keeps whatever it has found. -/
theorem searchStep_finds (size : Nat) (blocks : List HeapHeader) (found : Option HeapHeader × Nat)
    (h : found.1.isSome ∨ found.2 = 0xFFFFFFFFFFFFFFFF ∧ ∃ b ∈ blocks, b.isFree = true ∧
      size ≤ b.size ∧ b.size < 0xFFFFFFFFFFFFFFFF) :
    (blocks.foldl (searchStep size) found).1.isSome := by
  induction blocks generalizing found with
  | nil => simpa using h
  | cons block rest ih =>
    apply ih
    rcases h with some | ⟨start, b, member, free, large, small⟩
    · left
      unfold searchStep
      dsimp only
      split_ifs <;> simp [some]
    by_cases taken : block.isFree = true ∧ size ≤ block.size ∧ block.size - size < found.2
    · left
      simp [searchStep, taken]
    right
    have skipped : searchStep size found block = found := by
      simp only [searchStep, Bool.and_eq_true, decide_eq_true_eq]
      split_ifs <;> tauto
    rw [skipped]
    refine ⟨start, b, ?_, free, large, small⟩
    rcases mem_cons.mp member with rfl | later
    · exact absurd ⟨free, large, by omega⟩ taken
    · exact later

theorem searchBestFit_isSome (member : b ∈ blocks) (free : b.isFree = true) (large : size ≤ b.size)
    (small : b.size < 0xFFFFFFFFFFFFFFFF) : ∃ best, searchBestFit size blocks = some best :=
  Option.isSome_iff_exists.mp
    (searchStep_finds size blocks _ (.inr ⟨rfl, b, member, free, large, small⟩))

section
variable {tables : Nat → Nat}

/-- The frames that are taken up to the last page, and one for that page. -/
def framesNeeded (tables : Nat → Nat) : Nat → Nat → Nat
  | _, 0 => 0
  | _, 1 => 1
  | addr, pages + 2 => 1 + tables addr + framesNeeded tables (addr + pageSize) (pages + 1)

theorem mapExpansion_false (h : mapExpansion tables addr pages frames = (false, left)) : left = 0 := by
  induction pages generalizing addr frames with
  | zero => cases h
  | succ pages ih =>
    cases frames with
    | zero => exact (congrArg Prod.snd h).symm
    | succ frames => exact ih h

theorem mapExpansion_true (h : mapExpansion tables addr pages frames = (true, left)) : pages + left ≤ frames := by
  induction pages generalizing addr frames with
  | zero => exact (Nat.zero_add left).trans_le (congrArg Prod.snd h).ge
  | succ pages ih =>
    cases frames with
    | zero => cases h
    | succ frames =>
      have := ih h
      omega

theorem mapExpansion_iff (addr pages frames : Nat) :
    (mapExpansion tables addr pages frames).1 = true ↔ framesNeeded tables addr pages ≤ frames := by
  induction pages generalizing addr frames with
  | zero => simp [mapExpansion, framesNeeded]
  | succ pages ih =>
    cases frames with
    | zero =>
      refine iff_of_false nofun ?_
      cases pages <;> simp [framesNeeded]
    | succ frames =>
      refine (ih (addr + pageSize) (frames - tables addr)).trans ?_
      cases pages with
      | zero => simp [framesNeeded]
      | succ pages =>
        have : 0 < framesNeeded tables (addr + pageSize) (pages + 1) := by
          cases pages <;> simp [framesNeeded]
        rw [framesNeeded]
        omega

end

section
variable {size : Nat} {best : HeapHeader} (fits : size ≤ best.size) (inRange : best.InRange)
include fits inRange

/-- What the split writes, once no sum can wrap: the block itself, or the block and
the remainder behind it. -/
theorem carve_eq :
    carve size best = [{ best with isFree := false }] ∨ size + sizeofHeapHeader + 16 ≤ best.size ∧
      carve size best = [{ best with size := size, isFree := false },
        { addr := best.addr + (sizeofHeapHeader + size)
          size := best.size - size - sizeofHeapHeader
          isFree := true }] := by
  obtain ⟨above, below⟩ := inRange
  simp only [sizeofHeapHeader] at *
  have noWrap : size + 32 + 16 < 2 ^ 64 := by omega
  by_cases split : size + 32 + 16 ≤ best.size
  · right
    refine ⟨split, ?_⟩
    simp only [carve, sizeofHeapHeader, u64_of_lt noWrap, split, if_true]
    rw [sub64_of_le fits (by omega), sub64_of_le (by omega) (by omega), u64_of_lt (by omega), Nat.add_assoc]
  · left
    simp only [carve, sizeofHeapHeader, u64_of_lt noWrap, split, if_false]

theorem carve_covers (low high : Nat)
    (tiles : Blocks low [best] high) : Blocks low (carve size best) high := by
  obtain ⟨start, stop⟩ := tiles
  rcases carve_eq fits inRange with whole | ⟨room, split⟩
  · rw [whole]
    exact ⟨start, by simpa [Tiles, HeapHeader.span] using stop⟩
  · rw [split]
    refine ⟨start, by simp [HeapHeader.span, start], ?_⟩
    simp only [Tiles, HeapHeader.span, sizeofHeapHeader] at *
    omega

theorem carve_head :
    ∃ block tail, carve size best = block :: tail ∧ used (carve size best) = [block] ∧
      block.isFree = false ∧ block.addr = best.addr ∧ size ≤ block.size := by
  rcases carve_eq fits inRange with whole | ⟨room, split⟩
  · exact ⟨_, _, whole, by simp [whole, used], rfl, rfl, fits⟩
  · exact ⟨_, _, split, by simp [split, used], rfl, rfl, Nat.le_refl _⟩

theorem carve_aligned
    (rounded : 16 ∣ size) (aligned : 16 ∣ best.size) : ∀ b ∈ carve size best, 16 ∣ b.size := by
  intro b member
  rcases carve_eq fits inRange with whole | ⟨room, split⟩
  · rw [whole, mem_singleton] at member
    simpa [member] using aligned
  rw [split] at member
  simp only [sizeofHeapHeader] at *
  rcases mem_cons.mp member with rfl | last
  · exact rounded
  · rw [mem_singleton] at last
    subst last
    dsimp only
    omega

/-- A used block in place of a free one separates its surroundings; the remainder
of a split has only a used block before it and the old successor behind. -/
theorem carve_separated (free : best.isFree = true)
    (separated : Separated (before ++ [best] ++ after)) :
    Separated (before ++ carve size best ++ after) := by
  unfold Separated at *
  rw [append_assoc, singleton_append, isChain_append, isChain_cons] at separated
  obtain ⟨left, ⟨next, right⟩, -⟩ := separated
  rw [append_assoc, isChain_append]
  rcases carve_eq fits inRange with whole | ⟨room, split⟩
  · rw [whole, singleton_append, isChain_cons]
    exact ⟨left, ⟨by simp, right⟩, by simp⟩
  · rw [split, cons_append, singleton_append, isChain_cons_cons, isChain_cons]
    exact ⟨left, ⟨by simp, by simpa [free] using next, right⟩, by simp⟩

end

/-- A free block is taken for a request: the list covers what it did, and the used blocks gain
exactly this one. -/
theorem take_blocks (tiles : Blocks first blocks last)
    (aligned : ∀ b ∈ blocks, 16 ∣ b.size) (member : best ∈ blocks) (inRange : best.InRange)
    (free : best.isFree = true) (fits : size ≤ best.size) (rounded : 16 ∣ size) :
    ∃ before behind block, blocks = before ++ [best] ++ behind ∧
      splice best.addr (carve size) blocks = before ++ carve size best ++ behind ∧
      Blocks first (before ++ carve size best ++ behind) last ∧
      (∀ b ∈ before ++ carve size best ++ behind, 16 ∣ b.size) ∧
      used blocks = used before ++ used behind ∧
      used (before ++ carve size best ++ behind) = used before ++ block :: used behind ∧
      block.addr = best.addr ∧ size ≤ block.size := by
  obtain ⟨before, behind, split, replaced⟩ :=
    splice_of_mem (tiles.starts_nodup fun b _ => span_pos b) member (carve size)
  rw [split] at tiles aligned
  obtain ⟨block, tail, shape, only, busy, addr, large⟩ := carve_head fits inRange
  refine ⟨before, behind, block, split, replaced, ?_, ?_, ?_, ?_, addr, large⟩
  · exact tiles.exchange fun low high => carve_covers fits inRange low high
  · intro b inside
    simp only [mem_append] at inside aligned
    rcases inside with (left | new) | right
    · exact aligned b (.inl (.inl left))
    · exact carve_aligned fits inRange rounded (aligned best (by simp)) b new
    · exact aligned b (.inr right)
  · rw [split, used_append, used_append, used_cons_free free]
    simp
  · rw [used_append, used_append, only]
    simp

section
variable {front : List HeapHeader} {last space : HeapHeader}

/-- Only the end of the list changes. -/
theorem appendSpace_concat (space : HeapHeader) (front : List HeapHeader) (last : HeapHeader) :
    appendSpace space (front ++ [last]) = front ++ appendSpace space [last] := by
  induction front with
  | nil => rfl
  | cons b front ih =>
    cases front with
    | nil => rfl
    | cons c rest => exact congrArg (b :: ·) ih

theorem appendSpace_tiles (tiles : Blocks first (front ++ [last]) space.addr) (small : space.addr + space.span < 2 ^ 64) :
    Blocks first (appendSpace space (front ++ [last])) (space.addr + space.span) := by
  obtain ⟨middle, left, here, ends⟩ := Tiles.append_iff.mp tiles
  rw [appendSpace_concat, appendSpace]
  refine Tiles.append_iff.mpr ⟨middle, left, ?_⟩
  split
  · refine ⟨here, ?_⟩
    simp only [Tiles, HeapHeader.span] at *
    rw [u64_of_lt (by omega)]
    omega
  · simp only [Tiles] at ends ⊢
    exact ⟨here, ends.symm, by rw [ends]⟩

/-- Growing the heap does not change the used blocks. -/
theorem appendSpace_used (free : space.isFree = true) : used (appendSpace space (front ++ [last])) = used (front ++ [last]) := by
  rw [appendSpace_concat, used_append, used_append, appendSpace]
  split
  · simp [used, *]
  · simp [used, *]

theorem appendSpace_separated (separated : Separated (front ++ [last])) : Separated (appendSpace space (front ++ [last])) := by
  rw [appendSpace_concat, appendSpace]
  rw [Separated, isChain_append] at separated ⊢
  obtain ⟨left, -, link⟩ := separated
  split
  · exact ⟨left, by simp, by simpa using link⟩
  case isFalse busy => exact ⟨left, by simp [busy], by simpa using link⟩

theorem appendSpace_aligned (aligned : ∀ b ∈ front ++ [last], 16 ∣ b.size) (new : 16 ∣ space.size) :
    ∀ b ∈ appendSpace space (front ++ [last]), 16 ∣ b.size := by
  intro b member
  have here := aligned last (by simp)
  rw [appendSpace_concat, appendSpace] at member
  rcases mem_append.mp member with early | late
  · exact aligned b (mem_append_left _ early)
  split at late
  · rw [mem_singleton] at late
    simp only [late, u64, sizeofHeapHeader]
    omega
  · rcases mem_cons.mp late with rfl | late
    · exact here
    · exact mem_singleton.mp late ▸ new

/-- After the growth some free block has at least the size of the new space. -/
theorem appendSpace_room (free : space.isFree = true) (tiles : Blocks first (front ++ [last]) space.addr)
    (small : space.addr + space.span < 2 ^ 64) : ∃ b ∈ appendSpace space (front ++ [last]), b.isFree = true ∧
      space.size ≤ b.size := by
  obtain ⟨middle, -, -, ends⟩ := Tiles.append_iff.mp tiles
  rw [appendSpace_concat, appendSpace]
  split
  case isTrue joined =>
    refine ⟨_, mem_append_right _ (mem_singleton.mpr rfl), joined, ?_⟩
    simp only [Tiles, HeapHeader.span] at *
    rw [u64_of_lt (by omega)]
    omega
  · exact ⟨space, by simp, free, Nat.le_refl _⟩

end

theorem merge_tiles {next : HeapHeader} (tiles : Blocks first (current :: next :: rest) last) (small : last < 2 ^ 64) :
    Blocks first ({ current with size := u64 (current.size + (sizeofHeapHeader + next.size)) } :: rest) last := by
  obtain ⟨here, there, tail⟩ := tiles
  have bound := tail.le
  refine ⟨here, ?_⟩
  simp only [HeapHeader.span] at *
  rw [u64_of_lt (by omega)]
  rwa [Nat.add_assoc first, Nat.add_assoc sizeofHeapHeader] at tail

section
variable (current : HeapHeader) (rest : List HeapHeader)
include current rest

theorem coalesceFrom_tiles (tiles : Blocks first (current :: rest) last) (small : last < 2 ^ 64) :
    Blocks first (coalesceFrom current rest) last := by
  fun_induction coalesceFrom current rest generalizing first with
  | case1 => exact tiles
  | case2 _ _ _ _ ih => exact ih (merge_tiles tiles small)
  | case3 _ _ _ _ ih => exact ⟨tiles.1, ih tiles.2⟩

theorem coalesceFrom_aligned (aligned : ∀ b ∈ current :: rest, 16 ∣ b.size) : ∀ b ∈ coalesceFrom current rest, 16 ∣ b.size := by
  fun_induction coalesceFrom current rest with
  | case1 => exact aligned
  | case2 current next rest both ih =>
    have here := aligned current (by simp)
    have there := aligned next (by simp)
    refine ih fun b member => ?_
    rcases mem_cons.mp member with rfl | later
    · simp only [u64, sizeofHeapHeader]
      omega
    · exact aligned b (by simp [later])
  | case3 current next rest apart ih =>
    obtain ⟨here, later⟩ := forall_mem_cons.mp aligned
    exact forall_mem_cons.mpr ⟨here, ih later⟩

theorem coalesceFrom_head :
    ∃ head tail, coalesceFrom current rest = head :: tail ∧ head.isFree = current.isFree ∧ head.addr = current.addr := by
  fun_induction coalesceFrom current rest with
  | case1 => exact ⟨_, _, rfl, rfl, rfl⟩
  | case2 _ _ _ _ ih => exact ih
  | case3 => exact ⟨_, _, rfl, rfl, rfl⟩

/-- The walk leaves no free pair behind, whatever the list was before. -/
theorem coalesceFrom_separated : Separated (coalesceFrom current rest) := by
  unfold Separated
  fun_induction coalesceFrom current rest with
  | case1 => exact isChain_singleton _
  | case2 _ _ _ _ ih => exact ih
  | case3 current next rest apart ih =>
    obtain ⟨head, tail, same, flag, -⟩ := coalesceFrom_head next rest
    rw [same] at ih ⊢
    exact isChain_cons_cons.mpr ⟨by simpa [flag] using apart, ih⟩

theorem coalesceFrom_used : used (coalesceFrom current rest) = used (current :: rest) := by
  fun_induction coalesceFrom current rest with
  | case1 => rfl
  | case2 current next rest both ih =>
    rw [Bool.and_eq_true] at both
    rw [ih, used_cons_free (by exact both.1), used_cons_free both.1, used_cons_free both.2]
  | case3 current next rest apart ih =>
    cases busy : current.isFree with
    | true => rw [used_cons_free busy, used_cons_free busy, ih]
    | false => rw [used_cons_busy busy, used_cons_busy busy, ih]

end

/-- A used block is released and the list merged. -/
theorem release_blocks {block freed : HeapHeader} {before behind : List HeapHeader}
    (tiles : Blocks first (before ++ [block] ++ behind) last) (small : last < 2 ^ 64)
    (aligned : ∀ b ∈ before ++ [block] ++ behind, 16 ∣ b.size) (busy : block.isFree = false)
    (isFreed : freed = { block with isFree := true }) (released : before ++ [freed] ++ behind = head :: rest) :
    Blocks first (coalesceFrom head rest) last ∧ (∀ b ∈ coalesceFrom head rest, 16 ∣ b.size) ∧
      used (before ++ [block] ++ behind) = used before ++ block :: used behind ∧
      used (coalesceFrom head rest) = used before ++ used behind := by
  subst isFreed
  refine ⟨?_, ?_, ?_, ?_⟩
  · refine coalesceFrom_tiles head rest ?_ small
    rw [← released]
    exact tiles.exchange fun low high covers => covers
  · apply coalesceFrom_aligned
    rw [← released]
    intro b inside
    simp only [mem_append, mem_singleton] at inside aligned
    rcases inside with (left | rfl) | right
    · exact aligned b (.inl (.inl left))
    · exact aligned block (.inl (.inr rfl))
    · exact aligned b (.inr right)
  · rw [used_append, used_append, used_cons_busy busy]
    simp
  · rw [coalesceFrom_used, ← released, used_append, used_append, used_cons_free rfl]
    simp

end Sirius.Memory
