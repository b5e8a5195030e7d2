import Sirius.User.HeapList
import Sirius.Memory.HeapProofs

/-! Contracts of `umalloc`, `ufree` and the copying loops on a heap whose list tiles its region:
they come back, keep it so, and leave every byte of the blocks in use. -/
namespace Sirius.User
open Support List Memory Option
open Memory (HeapHeader Blocks used searchStep searchBestFit carve appendSpace coalesceFrom sizeofHeapHeader Separated Gains)

variable {s s' : UHeap} {mem mem' : ByteMem} {b block best : HeapHeader} {blocks blocks' : List HeapHeader}
  {grant : Nat → Bool} {size : Nat}

/-- The heap with its list of blocks, after the first call. -/
structure Ready (s : UHeap) (blocks : List HeapHeader) : Prop where
  listed : Listed s.mem blocks 0
  start : s.start = headAddr 0 blocks
  tiles : Blocks s.start blocks s.currentEnd
  nonempty : blocks ≠ []
  aligned : ∀ b ∈ blocks, 16 ∣ b.size
  base : userHeapVirtualBase ≤ s.start ∧ 16 ∣ s.start
  brk : s.brk = s.currentEnd
  limit : s.currentEnd < userStackVirtualTop

/-- A byte of a block in use. -/
def Data (blocks : List HeapHeader) (i : Nat) : Prop :=
  ∃ b ∈ used blocks, b.addr + headerSize ≤ i ∧ i < b.addr + b.span

theorem Data.of_used (same : used blocks' = used blocks) (data : Data blocks i) : Data blocks' i := by
  unfold Data
  rwa [same]

namespace Ready

variable (ready : Ready s blocks)
include ready

theorem bounds (member : b ∈ blocks) : userHeapVirtualBase ≤ b.addr ∧ b.addr + (headerSize + b.size) ≤ s.currentEnd := by
  have inside := ready.tiles.bounds member
  have base := ready.base.1
  simp only [HeapHeader.span, sizeofHeapHeader] at inside
  simp only [headerSize]
  omega

theorem inRange (member : b ∈ blocks) : b.InRange := by
  have inside := ready.bounds member
  have limit := ready.limit
  simp only [HeapHeader.InRange, userHeapVirtualBase, userStackVirtualTop, headerSize, sizeofHeapHeader] at *
  omega

theorem nonzero : ∀ b ∈ blocks, b.addr ≠ 0 := by
  intro b member
  have inside := ready.bounds member
  simp only [userHeapVirtualBase] at inside
  omega

theorem start_ne : s.start ≠ 0 := by
  have base := ready.base.1
  simp only [userHeapVirtualBase] at base
  omega

/-- The walks have steps enough. -/
theorem length_lt : blocks.length + 1 < s.currentEnd := by
  have long := Tiles.length_le ready.tiles 32 fun b _ => Nat.le_add_right 32 b.size
  have base := ready.base.1
  simp only [userHeapVirtualBase] at base
  omega

/-- A block in use and any other are apart. -/
theorem apart (one : b ∈ blocks) (other : block ∈ blocks) (different : b ≠ block) :
    b.addr + (headerSize + b.size) ≤ block.addr ∨ block.addr + (headerSize + block.size) ≤ b.addr :=
  ready.tiles.apart one other different

theorem addr_aligned (member : b ∈ blocks) : 16 ∣ b.addr := by
  obtain ⟨before, behind, rfl⟩ := append_of_mem member
  obtain ⟨middle, left, here, -⟩ := Tiles.append_iff.mp ready.tiles
  rw [here]
  exact tiles_aligned ready.base.2 (fun c inside => ready.aligned c (mem_append_left _ inside)) left

/-- Bytes behind a header are not its bytes, nor those of another. -/
theorem keepData (member : b ∈ blocks) (within : Within s.mem mem' (b.addr + headerSize) (b.addr + (headerSize + b.size))) :
    Ready { s with mem := mem' } blocks := by
  refine { ready with listed := ready.listed.keep within fun c other => ?_ }
  by_cases same : c = b
  · subst same
    simp only [headerSize]
    omega
  · have := ready.apart other member same
    simp only [headerSize] at *
    omega

end Ready

section Break

/-- The break is moved by as much, or nothing is. -/
theorem sbrkUser_cases (grant : Nat → Bool) (high : s.brk < userStackVirtualTop) (positive : 0 < increment)
    (small : increment < 2 ^ 34) :
    sbrkUser grant s increment = (noMemory, s) ∨
      sbrkUser grant s increment = (s.brk, { s with brk := s.brk + increment }) ∧ s.brk + increment < userStackVirtualTop := by
  have sum : u64 (s.brk + increment) = s.brk + increment := u64_of_lt (by simp only [userStackVirtualTop] at high; omega)
  unfold sbrkUser
  simp only [sysBrk, true_or, if_true, positive.ne', if_false, sum]
  split
  · simp
  case isFalse fits =>
  split
  · rw [if_neg (by omega)]
    exact .inr ⟨rfl, by omega⟩
  · simp

theorem sbrkUser_zero (grant : Nat → Bool) (s : UHeap) : sbrkUser grant s 0 = (s.brk, s) := by
  simp [sbrkUser, sysBrk]

end Break

section Umalloc

theorem expansionSize_spec (bound : size ≤ 2 ^ 33) :
    16 ∣ expansionSize size ∧ size + headerSize ≤ expansionSize size ∧ expansionSize size < 2 ^ 34 := by
  have sum : u64 (size + headerSize) = size + headerSize := u64_of_lt (by simp only [headerSize]; omega)
  unfold expansionSize
  split
  · obtain ⟨total, same, pages, lower, upper⟩ := @roundUp_spec pageSize (size + headerSize) (by decide)
      (by simp only [headerSize, pageSize]; omega)
    rw [same]
    simp only [headerSize, pageSize] at *
    exact ⟨by omega, by omega, by omega⟩
  · simp only [headerSize, initialSize] at *
    exact ⟨by omega, by omega, by omega⟩

/-- What an allocation finds or makes: a free block that is large enough. -/
structure Offers (s s' : UHeap) (blocks blocks' : List HeapHeader) (size : Nat) (best : HeapHeader) : Prop where
  ready : Ready s' blocks'
  member : best ∈ blocks'
  free : best.isFree = true
  fits : size ≤ best.size
  inUse : used blocks' = used blocks
  data : ∀ i, Data blocks i → s'.mem i = s.mem i

theorem Data.lt (ready : Ready s blocks) (data : Data blocks i) : i < s.currentEnd := by
  obtain ⟨b, member, -, high⟩ := data
  have inside := ready.tiles.bounds (mem_used.mp member).1
  omega

/-- Bytes of a header are no data. -/
theorem Data.outside (ready : Ready s blocks) (data : Data blocks i) (member : b ∈ blocks) :
    i < b.addr ∨ b.addr + headerSize ≤ i := by
  obtain ⟨c, used, low, high⟩ := data
  replace high : i < c.addr + (headerSize + c.size) := high
  by_cases same : b = c
  · exact .inr (same ▸ low)
  · have := ready.apart member (mem_used.mp used).1 same
    omega

theorem headAddr_of_tiles (tiles : Blocks first blocks last) (nonempty : blocks ≠ []) : headAddr 0 blocks = first := by
  cases blocks with
  | nil => exact absurd rfl nonempty
  | cons b rest => exact tiles.1

/-- The heap once the new space has been linked behind its last block. -/
def UHeap.grow (s : UHeap) (mem : ByteMem) (stop : Nat) : UHeap := ⟨mem, s.start, stop, stop⟩

theorem appendBlock_offers (ready : Ready s (front ++ [last])) (space : HeapHeader) (addr : space.addr = s.currentEnd)
    (free : space.isFree = true) (fits : space.addr + space.span < userStackVirtualTop) (aligned : 16 ∣ space.size)
    (appended : appendBlock (freeHeader s.mem space.addr space.size) last.addr space.addr = (bestBlock, mem')) :
    ∃ best blocks', best.addr = bestBlock ∧
      Offers s (s.grow mem' (space.addr + space.span)) (front ++ [last]) blocks' space.size best := by
  have member : last ∈ front ++ [last] := mem_append_right _ mem_cons_self
  have sumSmall : space.addr + space.span < 2 ^ 64 := fits.trans (by decide)
  have spanned : space.span = 32 + space.size := rfl
  have tiles : Blocks s.start (front ++ [last]) space.addr := addr ▸ ready.tiles
  have within := freeHeader_within s.mem space.addr space.size
  have listed := ready.listed.keep within fun b member => .inl (by
    have := ready.bounds member
    simp only [headerSize] at this
    omega)
  have header : Header (freeHeader s.mem space.addr space.size) space.addr space.size true 0 :=
    Header.new s.mem space.addr (by omega) (by decide)
  have joined := appendBlock_listed listed space free header tiles sumSmall
  rw [appended] at joined
  obtain ⟨listed', ⟨best, inside, bestAddr, bestFree, large⟩, within'⟩ := joined
  have tiles' := appendSpace_tiles tiles sumSmall
  have nonempty' : appendSpace space (front ++ [last]) ≠ [] := ne_nil_of_mem inside
  refine ⟨best, appendSpace space (front ++ [last]), bestAddr, ?_, inside, bestFree, large,
    appendSpace_used free, fun i data => ?_⟩
  · exact ⟨listed', (headAddr_of_tiles tiles' nonempty').symm, tiles', nonempty',
      appendSpace_aligned ready.aligned aligned, ready.base, rfl, fits⟩
  · have low := data.lt ready
    have outside := data.outside ready member
    simp only [headerSize] at outside
    exact (within' i (by omega)).trans (within i (by omega))

/-- The header of the new space is behind all of the list: the walk finds the last block. -/
theorem Ready.lastBlock (ready : Ready s (front ++ [last])) (size : Nat) (more : s.currentEnd ≤ stop) :
    lastBlock (freeHeader s.mem s.currentEnd size) stop s.start = some last.addr := by
  have enough := ready.length_lt
  rw [length_append] at enough
  rw [ready.start]
  refine lastBlock_eq (ready.listed.keep (freeHeader_within s.mem s.currentEnd size) fun b member => .inl ?_) ready.nonzero
    (by omega)
  have := ready.bounds member
  simp only [headerSize] at this
  omega

theorem expandHeap_cases (ready : Ready s blocks) (bound : size ≤ 2 ^ 33) :
    expandHeap grant size s = some (0, s) ∨
      ∃ best s' blocks', expandHeap grant size s = some (best.addr, s') ∧ Offers s s' blocks blocks' size best := by
  obtain ⟨multiple, covers, small⟩ := expansionSize_spec bound
  have headed : headerSize = 32 := rfl
  have limit := ready.limit
  have positive : 0 < expansionSize size := by omega
  unfold expandHeap
  rcases sbrkUser_cases grant (ready.brk ▸ limit) positive small with refused | ⟨moved, fits⟩
  · rw [refused]
    exact .inl rfl
  right
  rw [moved, ready.brk]
  rw [ready.brk] at fits
  have notFull : s.currentEnd ≠ noMemory := (limit.trans (by decide)).ne
  have stop := u64_of_lt (fits.trans (by decide))
  have room : sub64 (expansionSize size) headerSize = expansionSize size - headerSize := by
    refine sub64_of_le ?_ ?_ <;> omega
  have spanned : s.currentEnd + expansionSize size =
      s.currentEnd + HeapHeader.span ⟨s.currentEnd, expansionSize size - headerSize, true⟩ := by
    simp only [HeapHeader.span, sizeofHeapHeader]
    omega
  obtain ⟨front, last, rfl⟩ := (eq_nil_or_concat' blocks).resolve_left ready.nonempty
  dsimp only
  rw [if_neg notFull, stop, room, ready.lastBlock _ (by omega), map_some]
  rcases appended : appendBlock (freeHeader s.mem s.currentEnd (expansionSize size - headerSize)) last.addr s.currentEnd with
    ⟨bestBlock, mem'⟩
  obtain ⟨best, blocks', addr, offers⟩ :=
    appendBlock_offers ready ⟨s.currentEnd, expansionSize size - headerSize, true⟩ rfl rfl (spanned ▸ fits)
      (by dsimp only; omega) appended
  rw [← spanned] at offers
  refine ⟨best, _, blocks', congrArg (fun p => some (p, s.grow mem' (s.currentEnd + expansionSize size))) addr.symm,
    { offers with fits := ?_ }⟩
  have large := offers.fits
  dsimp only at large
  omega

/-- Before the first call. -/
structure Fresh (s : UHeap) : Prop where
  start : s.start = 0
  currentEnd : s.currentEnd = 0
  brk : s.brk = userHeapVirtualBase

/-- The heap and its list, which is empty before the first call. -/
def Good (s : UHeap) (blocks : List HeapHeader) : Prop := Fresh s ∧ blocks = [] ∨ Ready s blocks

/-- The heap is set up, with nothing in use yet, if that has not been done. -/
theorem lateInit_cases (good : Good s blocks) (rounded : 16 ∣ size) (bound : size ≤ 2 ^ 33) :
    lateInit grant size s = (false, s) ∨ ∃ s' first, lateInit grant size s = (true, s') ∧ Ready s' first ∧
      used first = used blocks ∧ ∀ i, Data blocks i → s'.mem i = s.mem i := by
  rcases good with ⟨fresh, rfl⟩ | ready
  case inr => exact .inr ⟨s, blocks, if_pos ready.start_ne, ready, rfl, fun _ _ => rfl⟩
  have headed : headerSize = 32 := rfl
  obtain ⟨expansion, expansionEq⟩ : ∃ n, n =
    if initialSize - headerSize < size then alignDown 16 (u64 (size + headerSize + 15)) else initialSize := ⟨_, rfl⟩
  have spec : 16 ∣ expansion ∧ headerSize ≤ expansion ∧ expansion < 2 ^ 34 := by
    rw [expansionEq]
    split
    · have sum : u64 (size + headerSize + 15) = size + headerSize + 15 := u64_of_lt (by omega)
      have upper := alignDown_le 16 (size + headerSize + 15)
      have lower := lt_alignDown_add (by decide : 0 < 16) (size + headerSize + 15)
      have multiple := alignDown_dvd 16 (size + headerSize + 15)
      rw [sum]
      exact ⟨multiple, by omega, by omega⟩
    · exact ⟨by decide, by decide, by decide⟩
  obtain ⟨multiple, covers, small⟩ := spec
  have low : s.brk < userStackVirtualTop := fresh.brk ▸ (by decide)
  unfold lateInit
  rw [if_neg (not_not.mpr fresh.start), sbrkUser_zero, fresh.brk, ← expansionEq]
  dsimp only
  rcases sbrkUser_cases grant low (by omega : 0 < expansion) small with refused | ⟨moved, fits⟩
  · rw [refused]
    exact .inl rfl
  right
  rw [moved, fresh.brk]
  rw [fresh.brk] at fits
  have stop := u64_of_lt (fits.trans (by decide))
  have room : sub64 expansion headerSize = expansion - headerSize := by
    refine sub64_of_le ?_ ?_ <;> omega
  rw [if_neg (by decide), stop, room]
  refine ⟨_, [⟨userHeapVirtualBase, expansion - headerSize, true⟩], rfl, ?_, used_cons_free rfl [],
    fun _ ⟨_, mem, _⟩ => nomatch mem⟩
  refine ⟨⟨Header.new s.mem _ (by omega) (by decide), trivial⟩, rfl, ⟨rfl, ?_⟩, nofun, ?_,
    ⟨Nat.le_refl _, (by decide : 16 ∣ userHeapVirtualBase)⟩, rfl, fits⟩
  · simp only [Tiles, HeapHeader.span, sizeofHeapHeader]
    omega
  · intro b member
    rw [mem_singleton.mp member]
    dsimp only
    omega

/-- The block that is offered is taken. -/
theorem Offers.take (offers : Offers s s' blocks blocks' size best) (rounded : 16 ∣ size) :
    ∃ taken, Ready { s' with mem := splitBlock s'.mem best.addr size } taken ∧
      (∀ i, Data blocks i → splitBlock s'.mem best.addr size i = s.mem i) ∧
      u64 (best.addr + headerSize) ≠ 0 ∧ Gains blocks taken (u64 (best.addr + headerSize)) size := by
  have ready := offers.ready
  have inRange := ready.inRange offers.member
  have bounds := ready.bounds offers.member
  have limit := ready.limit
  have ptr : u64 (best.addr + headerSize) = best.addr + headerSize :=
    u64_of_lt (by simp only [userStackVirtualTop] at limit; omega)
  obtain ⟨before, behind, block, split, -, tiles, aligned, old, new, addr, large⟩ :=
    take_blocks ready.tiles ready.aligned offers.member inRange offers.free offers.fits rounded
  have listed := ready.listed
  have wellTiled := ready.tiles
  rw [split] at listed wellTiled
  obtain ⟨listed', within⟩ := splitBlock_listed listed wellTiled inRange offers.fits
  have nonempty : before ++ carve size best ++ behind ≠ [] := by
    obtain ⟨head, tail, shape, -⟩ := carve_head offers.fits inRange
    simp [shape]
  have positive : 0 < headerSize := by decide
  refine ⟨before ++ carve size best ++ behind, ?_,
    fun i data => ?_, by omega, used before, used behind, block, ?_, new, ?_, large⟩
  · exact ⟨listed', (headAddr_of_tiles tiles nonempty).symm, tiles, nonempty, aligned, ready.base, ready.brk, ready.limit⟩
  · rw [← offers.data i data]
    refine within i ?_
    obtain ⟨c, isUsed, low, high⟩ := data.of_used offers.inUse
    obtain ⟨member, busy⟩ := mem_used.mp isUsed
    have different : c ≠ best := by
      rintro rfl
      cases busy.symm.trans offers.free
    have apart := ready.apart member offers.member different
    simp only [HeapHeader.span, sizeofHeapHeader, headerSize] at *
    omega
  · rw [← offers.inUse, old]
  · rw [addr, ptr]
    rfl

theorem Ready.searchBlock (ready : Ready s blocks) (size : Nat) :
    searchBlock s.mem size s.currentEnd s.start 0 0xFFFFFFFFFFFFFFFF =
      some ((searchBestFit size blocks).elim 0 HeapHeader.addr) := by
  have enough := ready.length_lt
  rw [ready.start]
  exact searchBlock_eq ready.listed ready.nonzero (by omega) size (none, 0xFFFFFFFFFFFFFFFF)

theorem takeBlock_spec (ready : Ready s blocks) (rounded : 16 ∣ size) (bound : size ≤ 2 ^ 33) :
    ∃ ptr s' blocks', takeBlock grant size s = some (ptr, s') ∧ Ready s' blocks' ∧
      (∀ i, Data blocks i → s'.mem i = s.mem i) ∧
      (ptr = 0 ∧ used blocks' = used blocks ∨ ptr ≠ 0 ∧ Gains blocks blocks' ptr size) := by
  unfold takeBlock
  rw [ready.searchBlock]
  dsimp [bind_eq_bind]
  cases found : searchBestFit size blocks with
  | some best =>
    obtain ⟨member, free, fits⟩ := searchBestFit_some found
    have nonzero := ready.nonzero best member
    have offers : Offers s s blocks blocks size best := ⟨ready, member, free, fits, rfl, fun _ _ => rfl⟩
    obtain ⟨taken, ready', data, gains⟩ := offers.take rounded
    refine ⟨_, _, taken, ?_, ready', data, .inr gains⟩
    rw [elim_some, if_neg nonzero]
    exact if_neg nonzero
  | none =>
    rw [elim_none, if_pos rfl]
    rcases expandHeap_cases ready bound with refused | ⟨best, s', blocks', result, offers⟩
    · refine ⟨0, s, blocks, ?_, ready, fun _ _ => rfl, .inl ⟨rfl, rfl⟩⟩
      rw [refused]
      rfl
    · have nonzero := offers.ready.nonzero best offers.member
      obtain ⟨taken, ready', data, gains⟩ := offers.take rounded
      refine ⟨_, _, taken, ?_, ready', data, .inr gains⟩
      simp [result, if_neg nonzero]

theorem umalloc_spec (good : Good s blocks) (bound : size < 2 ^ 32) :
    ∃ ptr s' blocks', umalloc grant size s = some (ptr, s') ∧ Good s' blocks' ∧
      (∀ i, Data blocks i → s'.mem i = s.mem i) ∧
      (ptr = 0 ∧ used blocks' = used blocks ∨ ptr ≠ 0 ∧ Ready s' blocks' ∧ Gains blocks blocks' ptr size) := by
  unfold umalloc
  split
  · exact ⟨0, s, blocks, rfl, good, fun _ _ => rfl, .inl ⟨rfl, rfl⟩⟩
  case isFalse positive =>
  obtain ⟨rounded, roundedEq, aligned, enough, small⟩ := @roundUp_spec 16 size (by decide) (by omega)
  dsimp only
  rw [show alignDown 16 (u64 (size + 15)) = rounded from roundedEq]
  rcases lateInit_cases good aligned (by omega) with refused | ⟨s', first, started, ready, same, data⟩
  · rw [refused]
    exact ⟨0, s, blocks, rfl, good, fun _ _ => rfl, .inl ⟨rfl, rfl⟩⟩
  rw [started]
  obtain ⟨ptr, s2, blocks', result, ready', data', outcome⟩ := takeBlock_spec ready aligned (by omega)
  refine ⟨ptr, s2, blocks', result, .inr ready', fun i inside => ?_, ?_⟩
  · exact (data' i (inside.of_used same)).trans (data i inside)
  · rcases outcome with ⟨null, none⟩ | ⟨nonnull, gains⟩
    · exact .inl ⟨null, none.trans same⟩
    · exact .inr ⟨nonnull, ready', gains.mono enough same⟩

end Umalloc

section Ufree

theorem Ready.setFree (ready : Ready s (before ++ [block] ++ behind)) :
    Listed (setFree s.mem block.addr 1) (before ++ [{ block with isFree := true }] ++ behind) 0 := by
  have tiles := ready.tiles
  have listed := ready.listed
  rw [append_assoc] at listed tiles ⊢
  obtain ⟨front, header, back⟩ := listed_append.mp listed
  have sorted := pairwise_append.mp tiles.disjoint
  have within := setFree_within s.mem block.addr 1
  refine listed_append.mpr ⟨front.keep within fun b member => .inl ?_, header.setFree true,
    back.keep within fun b member => .inr ?_⟩
  · have := sorted.2.2 b member block mem_cons_self
    simp only [HeapHeader.span, sizeofHeapHeader] at this
    omega
  · have := (pairwise_cons.mp sorted.2.1).1 b member
    simp only [HeapHeader.span, sizeofHeapHeader] at this
    omega

theorem ufree_spec (ready : Ready s blocks) (inUse : block ∈ used blocks) :
    ∃ s' blocks' before behind, ufree (block.addr + headerSize) s = some s' ∧ Ready s' blocks' ∧ Separated blocks' ∧
      used blocks = before ++ block :: behind ∧ used blocks' = before ++ behind ∧ ∀ i, Data blocks i → s'.mem i = s.mem i := by
  obtain ⟨member, busy⟩ := mem_used.mp inUse
  have bounds := ready.bounds member
  have limit := ready.limit
  have enough := ready.length_lt
  have top : s.currentEnd < 2 ^ 64 := limit.trans (by decide)
  have headed : headerSize = 32 := rfl
  have header : sub64 (block.addr + headerSize) headerSize = block.addr := by
    rw [sub64_of_le (by omega) (by omega)]
    omega
  obtain ⟨before, behind, rfl⟩ := append_of_mem member
  rw [append_cons] at *
  have listed := ready.setFree
  obtain ⟨first, rest, released⟩ : ∃ first rest, before ++ [{ block with isFree := true }] ++ behind = first :: rest :=
    exists_cons_of_ne_nil (by simp)
  obtain ⟨tiles, aligned, old, new⟩ := release_blocks ready.tiles top ready.aligned busy rfl released
  have tiled : Blocks s.start (first :: rest) s.currentEnd := by
    rw [← released]
    exact ready.tiles.exchange fun low high covers => covers
  have length : rest.length + 1 < s.currentEnd := by
    have same := congrArg List.length released
    simp only [length_append, length_cons, length_nil] at same enough
    omega
  rw [released] at listed
  obtain ⟨mem', result, listed', frame⟩ := coalesceBlocks_listed first rest listed tiled
    (Nat.pos_of_ne_zero ready.start_ne) top length
  refine ⟨{ s with mem := mem' }, coalesceFrom first rest, used before, used behind, ?_, ?_,
    coalesceFrom_separated first rest, old, new, fun i data => ?_⟩
  · rw [ufree, if_neg (by omega), header, ← tiled.1, result, map_some]
  · obtain ⟨head, tail, same, -⟩ := coalesceFrom_head first rest
    have nonempty : coalesceFrom first rest ≠ [] := same ▸ cons_ne_nil _ _
    exact ⟨listed', (headAddr_of_tiles tiles nonempty).symm, tiles, nonempty, aligned, ready.base, ready.brk, limit⟩
  -- A byte of a block in use is in no header, also not in the one just marked.
  have outside : ∀ b ∈ first :: rest, i < b.addr ∨ b.addr + 24 ≤ i := by
    intro b inside
    rw [← released] at inside
    have header : ∀ c ∈ before ++ [block] ++ behind, i < c.addr ∨ c.addr + 24 ≤ i := fun c inside => by
      have := data.outside ready inside
      omega
    simp only [mem_append, mem_singleton] at inside header
    rcases inside with (left | rfl) | right
    · exact header b (.inl (.inl left))
    · exact header block (.inl (.inr rfl))
    · exact header b (.inr right)
  refine (frame i outside).trans (setFree_within s.mem block.addr 1 i ?_)
  have := data.outside ready member
  omega

end Ufree

section Copy

theorem uMemset_apply (val : UInt8) (len dest : Nat) (mem : ByteMem) (i : Nat) :
    uMemset val len dest mem i = if dest ≤ i ∧ i < dest + len then val else mem i := by
  induction len generalizing dest mem with
  | zero => rw [uMemset, if_neg (by omega)]
  | succ len ih =>
    rw [uMemset, ih, Function.update_apply]
    split_ifs
    all_goals first | rfl | omega

theorem uMemcpy_apply (apart : dest + len ≤ src ∨ src + len ≤ dest) (mem : ByteMem) (i : Nat) :
    uMemcpy len dest src mem i = if dest ≤ i ∧ i < dest + len then mem (src + (i - dest)) else mem i := by
  induction len generalizing dest src mem with
  | zero => rw [uMemcpy, if_neg (by omega)]
  | succ len ih =>
    rw [uMemcpy, ih (by omega), Function.update_apply, Function.update_apply]
    by_cases here : i = dest
    · rw [if_neg (by omega), if_pos here, if_pos (by omega), here, Nat.sub_self, Nat.add_zero]
    by_cases later : dest + 1 ≤ i ∧ i < dest + 1 + len
    · rw [if_pos later, if_neg (by omega), if_pos (by omega)]
      congr 1
      omega
    · rw [if_neg later, if_neg here, if_neg (by omega)]

end Copy

end Sirius.User
