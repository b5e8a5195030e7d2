import Sirius.User.Heap
import Sirius.Memory.HeapBlocks

/-! The list of headers as it stands in the memory of the program, and the walks and edits of
`uheap.c` as operations on it: the ones that the kernel's heap has on its own list. -/
namespace Sirius.User
open Support List Nat
open Memory (HeapHeader Blocks used searchStep searchBestFit carve appendSpace coalesceFrom sizeofHeapHeader)

variable {mem mem' : ByteMem} {b block last best : HeapHeader} {blocks front before behind rest : List HeapHeader}

/-- Only bytes from `low` up to `high` are different. -/
def Within (mem mem' : ByteMem) (low high : Nat) : Prop := ∀ i, i < low ∨ high ≤ i → mem' i = mem i

theorem Within.trans (first : Within mem mem' low high) (second : Within mem' mem'' low high) : Within mem mem'' low high :=
  fun i outside => (second i outside).trans (first i outside)

theorem Within.wider (within : Within mem mem' low high) (below : low' ≤ low) (above : high ≤ high') :
    Within mem mem' low' high' := fun i outside => within i (by omega)

theorem setSize_within (mem : ByteMem) (header value : Nat) : Within mem (setSize mem header value) header (header + 24) :=
  fun _ outside => store64_outside (by omega) mem value

theorem setFree_within (mem : ByteMem) (header value : Nat) : Within mem (setFree mem header value) header (header + 24) :=
  fun _ outside => store64_outside (by omega) mem value

theorem setNext_within (mem : ByteMem) (header value : Nat) : Within mem (setNext mem header value) header (header + 24) :=
  fun _ outside => store64_outside (by omega) mem value

theorem freeHeader_within (mem : ByteMem) (header size : Nat) : Within mem (freeHeader mem header size) header (header + 24) :=
  ((setSize_within mem header size).trans (setFree_within _ header 1)).trans (setNext_within _ header 0)

def flag (free : Bool) : Nat := if free then 1 else 0

theorem flag_ne_zero (free : Bool) : flag free ≠ 0 ↔ free = true := by
  cases free <;> decide

/-- The header at an address, as the memory has it. -/
structure Header (mem : ByteMem) (addr size : Nat) (free : Bool) (link : Nat) : Prop where
  size : sizeOf mem addr = size
  free : isFree mem addr = flag free
  next : next mem addr = link

section Header

variable {addr size link : Nat} {free : Bool}

section
variable (header : Header mem addr size free link)
include header

theorem Header.congr (same : ∀ i, addr ≤ i → i < addr + 24 → mem' i = mem i) : Header mem' addr size free link := by
  refine ⟨?_, ?_, ?_⟩
  · exact (load64_congr fun i bound => same _ (by omega) (by omega)).trans header.size
  · exact (load64_congr fun i bound => same _ (by omega) (by omega)).trans header.free
  · exact (load64_congr fun i bound => same _ (by omega) (by omega)).trans header.next

theorem Header.keep (within : Within mem mem' low high) (apart : addr + 24 ≤ low ∨ high ≤ addr) :
    Header mem' addr size free link :=
  header.congr fun i _ _ => within i (by omega)

theorem Header.link_lt : link < 2 ^ 64 := header.next ▸ load64_lt _ _

theorem Header.setSize (value : Nat) (small : value < 2 ^ 64) : Header (setSize mem addr value) addr value free link := by
  refine ⟨load64_store64_self small mem addr, ?_, ?_⟩
  · exact (load64_store64_apart (by omega) mem value).trans header.free
  · exact (load64_store64_apart (by omega) mem value).trans header.next

theorem Header.setFree (value : Bool) : Header (setFree mem addr (flag value)) addr size value link := by
  refine ⟨?_, load64_store64_self ?_ mem _, ?_⟩
  · exact (load64_store64_apart (by omega) mem _).trans header.size
  · cases value <;> decide
  · exact (load64_store64_apart (by omega) mem _).trans header.next

theorem Header.setNext (value : Nat) (small : value < 2 ^ 64) : Header (setNext mem addr value) addr size free value := by
  refine ⟨?_, ?_, load64_store64_self small mem _⟩
  · exact (load64_store64_apart (by omega) mem _).trans header.size
  · exact (load64_store64_apart (by omega) mem _).trans header.free

end

/-- All three fields have been written. -/
theorem Header.new (mem : ByteMem) (addr : Nat) (small : size < 2 ^ 64) (smallLink : link < 2 ^ 64) :
    Header (User.setNext (User.setFree (User.setSize mem addr size) addr 1) addr link) addr size true link := by
  refine ⟨?_, ?_, load64_store64_self smallLink _ _⟩
  · refine (load64_store64_apart (by omega) _ _).trans ?_
    exact (load64_store64_apart (by omega) _ _).trans (load64_store64_self small _ _)
  · exact (load64_store64_apart (by omega) _ _).trans (load64_store64_self (by decide) _ _)

end Header

def headAddr (stop : Nat) : List HeapHeader → Nat
  | [] => stop
  | b :: _ => b.addr

/-- The headers are in the memory, each with the address of the next. -/
def Listed (mem : ByteMem) : List HeapHeader → Nat → Prop
  | [], _ => True
  | b :: rest, stop => Header mem b.addr b.size b.isFree (headAddr stop rest) ∧ Listed mem rest stop

theorem headAddr_append (stop : Nat) (front back : List HeapHeader) :
    headAddr stop (front ++ back) = headAddr (headAddr stop back) front := by
  cases front <;> rfl

theorem listed_append :
    Listed mem (front ++ rest) stop ↔ Listed mem front (headAddr stop rest) ∧ Listed mem rest stop := by
  induction front with
  | nil => exact ⟨fun listed => ⟨trivial, listed⟩, fun listed => listed.2⟩
  | cons b front ih =>
    rw [cons_append, Listed, Listed, ih, headAddr_append]
    exact and_assoc.symm

theorem Listed.keep (listed : Listed mem blocks stop) (within : Within mem mem' low high)
    (apart : ∀ b ∈ blocks, b.addr + 24 ≤ low ∨ high ≤ b.addr) : Listed mem' blocks stop := by
  induction blocks with
  | nil => trivial
  | cons b rest ih =>
    exact ⟨listed.1.keep within (apart b mem_cons_self), ih listed.2 fun c mem => apart c (mem_cons_of_mem _ mem)⟩

section Walks

theorem searchBlock_eq (listed : Listed mem blocks 0) (nonzero : ∀ b ∈ blocks, b.addr ≠ 0) (enough : blocks.length < steps)
    (size : Nat) (found : Option HeapHeader × Nat) :
    searchBlock mem size steps (headAddr 0 blocks) (found.1.elim 0 HeapHeader.addr) found.2 =
      some ((blocks.foldl (searchStep size) found).1.elim 0 HeapHeader.addr) := by
  induction blocks generalizing steps found with
  | nil =>
    obtain ⟨steps, rfl⟩ := exists_eq_succ_of_ne_zero (ne_zero_of_lt enough)
    rfl
  | cons b rest ih =>
    obtain ⟨steps, rfl⟩ := exists_eq_succ_of_ne_zero (ne_zero_of_lt enough)
    obtain ⟨header, listed⟩ := listed
    have go := ih listed (fun c mem => nonzero c (mem_cons_of_mem _ mem)) (lt_of_succ_lt_succ enough)
    have step : searchStep size found b = if flag b.isFree ≠ 0 ∧ size ≤ b.size then
        if b.size - size < found.2 then (some b, b.size - size) else found else found := by
      simp [searchStep, flag_ne_zero]
    rw [foldl_cons, step, headAddr, searchBlock, if_neg (nonzero b mem_cons_self), header.size, header.free,
      header.next]
    dsimp only
    split
    · split
      · exact go (some b, b.size - size)
      · exact go found
    · exact go found

theorem lastBlock_eq (listed : Listed mem (front ++ [last]) 0) (nonzero : ∀ b ∈ front ++ [last], b.addr ≠ 0)
    (enough : front.length < steps) : lastBlock mem steps (headAddr 0 (front ++ [last])) = some last.addr := by
  induction front generalizing steps with
  | nil =>
    obtain ⟨steps, rfl⟩ := exists_eq_succ_of_ne_zero (ne_zero_of_lt enough)
    rw [nil_append, headAddr, lastBlock, listed.1.next]
    rfl
  | cons b front ih =>
    obtain ⟨steps, rfl⟩ := exists_eq_succ_of_ne_zero (ne_zero_of_lt enough)
    rw [cons_append] at listed
    obtain ⟨header, listed⟩ := listed
    have more : headAddr 0 (front ++ [last]) ≠ 0 := by
      cases front with
      | nil => exact nonzero last (by simp)
      | cons c rest => exact nonzero c (by simp)
    rw [cons_append, headAddr, lastBlock, header.next, if_neg more]
    exact ih listed (fun c mem => nonzero c (mem_cons_of_mem _ mem)) (lt_of_succ_lt_succ enough)

end Walks

section Edits

variable {first stop size : Nat}

theorem headers_apart (tiles : Blocks first blocks stop) : blocks.Pairwise fun b c => b.addr + 24 ≤ c.addr := by
  refine tiles.disjoint.imp fun {b c} order => ?_
  simp only [HeapHeader.span, sizeofHeapHeader] at order
  omega

/-- The new space joins the list, and is the best block then, alone or with the last one. -/
theorem appendBlock_listed (listed : Listed mem (front ++ [last]) 0) (space : HeapHeader) (free : space.isFree = true)
    (header : Header mem space.addr space.size true 0) (tiles : Blocks first (front ++ [last]) space.addr)
    (small : space.addr + space.span < 2 ^ 64) :
    Listed (appendBlock mem last.addr space.addr).2 (appendSpace space (front ++ [last])) 0 ∧
      (∃ best ∈ appendSpace space (front ++ [last]),
        best.addr = (appendBlock mem last.addr space.addr).1 ∧ best.isFree = true ∧ space.size ≤ best.size) ∧
      Within mem (appendBlock mem last.addr space.addr).2 last.addr (last.addr + 24) := by
  obtain ⟨listedFront, lastHeader, -⟩ := listed_append.mp listed
  have bounds := tiles.bounds (mem_append_right _ mem_cons_self : last ∈ front ++ [last])
  simp only [HeapHeader.span, sizeofHeapHeader] at bounds small
  have spaceSmall : space.addr < 2 ^ 64 := by omega
  have linked := lastHeader.setNext _ spaceSmall
  have within := setNext_within mem last.addr space.addr
  have kept := header.keep within (by omega)
  have frontApart : ∀ b ∈ front, b.addr + 24 ≤ last.addr ∨ last.addr + 24 ≤ b.addr := fun b mem =>
    .inl ((pairwise_append.mp (headers_apart tiles)).2.2 b mem last mem_cons_self)
  rw [Memory.appendSpace_concat]
  unfold appendBlock
  dsimp only
  rw [linked.free, linked.size, kept.size]
  cases lastFree : last.isFree with
  | true =>
    have total : last.size + (headerSize + space.size) < 2 ^ 64 := by
      simp only [headerSize]
      omega
    have within' := setSize_within (setNext mem last.addr space.addr) last.addr (u64 (last.size + (headerSize + space.size)))
    have kept' := kept.keep within' (by omega)
    have sized := linked.setSize (u64 (last.size + (headerSize + space.size))) (mod_lt _ (by decide))
    have all := (within.trans within').trans (setNext_within _ last.addr 0)
    rw [if_pos (by decide), kept'.next, appendSpace, if_pos lastFree]
    have done := sized.setNext 0 (by decide)
    refine ⟨listed_append.mpr ⟨listedFront.keep all frontApart, done, trivial⟩, ?_, all⟩
    refine ⟨_, mem_append_right _ mem_cons_self, rfl, lastFree, ?_⟩
    simp only [sizeofHeapHeader, headerSize] at total ⊢
    rw [u64_of_lt total]
    omega
  | false =>
    rw [if_neg (by decide), appendSpace, if_neg (by rw [lastFree]; decide)]
    refine ⟨listed_append.mpr ⟨listedFront.keep within frontApart, ?_, ?_, trivial⟩, ?_, within⟩
    · exact linked
    · rw [free]
      exact kept
    · exact ⟨space, mem_append_right _ (mem_cons_of_mem _ mem_cons_self), rfl, free, le_refl _⟩

theorem splitBlock_listed (listed : Listed mem (before ++ [best] ++ behind) 0)
    (tiles : Blocks first (before ++ [best] ++ behind) stop) (inRange : best.InRange) (fits : size ≤ best.size) :
    Listed (splitBlock mem best.addr size) (before ++ carve size best ++ behind) 0 ∧
      Within mem (splitBlock mem best.addr size) best.addr (best.addr + best.span) := by
  rw [append_assoc] at listed tiles ⊢
  obtain ⟨listedBefore, header, listedBehind⟩ := listed_append.mp listed
  obtain ⟨above, range⟩ := inRange
  have sorted := pairwise_append.mp tiles.disjoint
  have beforeApart : ∀ b ∈ before, b.addr + 24 ≤ best.addr := fun b mem =>
    (pairwise_append.mp (headers_apart tiles)).2.2 b mem best mem_cons_self
  have behindApart : ∀ b ∈ behind, best.addr + best.span ≤ b.addr := fun b mem =>
    (pairwise_cons.mp sorted.2.1).1 b mem
  -- All of it happens in the block itself; the rest of the list is read as before.
  have around : ∀ mem', Within mem mem' best.addr (best.addr + best.span) →
      Listed mem' (carve size best) (headAddr 0 behind) → headAddr 0 (carve size best ++ behind) = best.addr →
      Listed mem' (before ++ (carve size best ++ behind)) 0 := by
    intro mem' within carved start
    refine listed_append.mpr ⟨?_, listed_append.mpr ⟨carved, listedBehind.keep within fun b mem => .inr (behindApart b mem)⟩⟩
    rw [start]
    exact listedBefore.keep within fun b mem => .inl (beforeApart b mem)
  have spanned : best.span = 32 + best.size := rfl
  simp only [sizeofHeapHeader] at range
  have noWrap : u64 (size + 32 + 16) = size + 32 + 16 := u64_of_lt (by omega)
  have newAddr : u64 (best.addr + 32 + size) = best.addr + 32 + size := u64_of_lt (by omega)
  unfold splitBlock
  unfold carve at around ⊢
  simp only [sizeofHeapHeader, headerSize, noWrap, newAddr, header.size] at around ⊢
  split
  case isTrue room =>
    rw [if_pos room] at around
    have leftSmall : sub64 (sub64 best.size size) 32 < 2 ^ 64 := mod_lt _ (by decide)
    generalize sub64 (sub64 best.size size) 32 = left at around leftSmall ⊢
    generalize newEq : best.addr + 32 + size = new at around ⊢
    -- The header behind is written while the one in front is as it was.
    have front : Within mem (setFree (setSize mem new left) new 1) new (new + 24) :=
      (setSize_within mem new left).trans (setFree_within _ new 1)
    have link := (header.keep front (by omega)).next
    rw [link]
    have newHeader := Header.new mem new leftSmall header.link_lt
    have written : Within mem (setNext (setFree (setSize mem new left) new 1) new (headAddr 0 behind)) new (new + 24) :=
      front.trans (setNext_within _ new _)
    have bestHeader := (((header.keep written (by omega)).setSize size (by omega)).setNext new (by omega)).setFree false
    have edited := ((setSize_within (setNext (setFree (setSize mem new left) new 1) new (headAddr 0 behind)) best.addr size).trans
      (setNext_within _ best.addr new)).trans (setFree_within _ best.addr (flag false))
    refine ⟨around _ ?_ ⟨bestHeader, newHeader.keep edited (by omega), trivial⟩ rfl, ?_⟩
    all_goals exact (written.wider (by omega) (by omega)).trans (edited.wider (by omega) (by omega))
  case isFalse small =>
    rw [if_neg small] at around
    have within := (setFree_within mem best.addr (flag false)).wider (le_refl _) (by omega : _ ≤ best.addr + best.span)
    exact ⟨around _ within ⟨header.setFree false, trivial⟩ rfl, within⟩

theorem coalesceBlocks_listed (current : HeapHeader) (rest : List HeapHeader) (listed : Listed mem (current :: rest) 0)
    (tiles : Blocks first (current :: rest) stop) (positive : 0 < first) (small : stop < 2 ^ 64)
    (enough : rest.length + 1 < steps) :
    ∃ mem', coalesceBlocks steps current.addr mem = some mem' ∧ Listed mem' (coalesceFrom current rest) 0 ∧
      ∀ i, (∀ b ∈ current :: rest, i < b.addr ∨ b.addr + 24 ≤ i) → mem' i = mem i := by
  induction rest generalizing current mem steps first with
  | nil =>
    obtain ⟨steps, rfl⟩ : ∃ n, steps = n + 1 + 1 := ⟨steps - 2, by simp only [length_nil] at enough; omega⟩
    have nonzero : current.addr ≠ 0 := by
      have := tiles.1
      omega
    refine ⟨mem, ?_, listed, fun _ _ => rfl⟩
    rw [coalesceBlocks, if_neg nonzero, listed.1.next, if_neg fun both => both.2.1 rfl]
    rfl
  | cons nxt rest ih =>
    obtain ⟨steps, rfl⟩ : ∃ n, steps = n + 1 := ⟨steps - 1, by omega⟩
    have left : rest.length + 1 < steps := by
      rw [length_cons] at enough
      omega
    obtain ⟨header, nextHeader, listedRest⟩ := listed
    have here := tiles.1
    have restApart := (pairwise_cons.mp (headers_apart tiles)).1
    have nextNonzero : nxt.addr ≠ 0 := by
      have := restApart nxt mem_cons_self
      omega
    replace header : Header mem current.addr current.size current.isFree nxt.addr := header
    rw [coalesceBlocks, if_neg (by omega), header.free, header.next, header.size, nextHeader.free, nextHeader.size]
    rw [coalesceFrom]
    by_cases both : current.isFree = true ∧ nxt.isFree = true
    · have total : u64 (current.size + (headerSize + nxt.size)) < 2 ^ 64 := mod_lt _ (by decide)
      have within := setSize_within mem current.addr (u64 (current.size + (headerSize + nxt.size)))
      have sized := header.setSize (u64 (current.size + (headerSize + nxt.size))) total
      have kept := nextHeader.keep within (.inr (restApart nxt mem_cons_self))
      have linked := sized.setNext _ nextHeader.link_lt
      have all := within.trans (setNext_within _ current.addr (headAddr 0 rest))
      rw [if_pos ⟨(flag_ne_zero _).mpr both.1, nextNonzero, (flag_ne_zero _).mpr both.2⟩]
      dsimp only
      rw [sized.next, kept.next, if_pos (by rw [both.1, both.2]; rfl)]
      have listed' : Listed _ ({ current with size := u64 (current.size + (sizeofHeapHeader + nxt.size)) } :: rest) 0 :=
        ⟨linked, listedRest.keep all fun b mem => .inr (restApart b (mem_cons_of_mem _ mem))⟩
      obtain ⟨mem', result, merged, frame⟩ :=
        ih _ listed' (Memory.merge_tiles tiles small) positive left
      refine ⟨mem', result, merged, fun i outside => ?_⟩
      rw [frame i ?_]
      · exact all i (outside current mem_cons_self)
      · intro b mem
        rcases mem_cons.mp mem with rfl | mem
        · exact outside current mem_cons_self
        · exact outside b (mem_cons_of_mem _ (mem_cons_of_mem _ mem))
    · have notBoth : ¬(flag current.isFree ≠ 0 ∧ nxt.addr ≠ 0 ∧ flag nxt.isFree ≠ 0) := fun all =>
        both ⟨(flag_ne_zero _).mp all.1, (flag_ne_zero _).mp all.2.2⟩
      rw [if_neg notBoth, if_neg (by simpa only [Bool.and_eq_true] using both)]
      obtain ⟨mem', result, merged, frame⟩ :=
        ih nxt ⟨nextHeader, listedRest⟩ tiles.2 (by omega) left
      refine ⟨mem', result, ⟨?_, merged⟩, fun i outside => frame i fun b mem => outside b (mem_cons_of_mem _ mem)⟩
      obtain ⟨head, tail, same, -, addr⟩ := Memory.coalesceFrom_head nxt _
      rw [same, headAddr, addr]
      exact header.congr fun i low high => frame i fun b mem => .inl (by have := restApart b mem; omega)

end Edits

end Sirius.User
