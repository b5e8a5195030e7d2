import Sirius.User.HeapContracts
import Sirius.Memory.HeapRuns
import Sirius.Support.Runs

/-! Runs of the user heap's calls, with the program's own writes to its blocks between them. Live
pointers stand for blocks in use in every state, and each call leaves the blocks it does not name. -/
namespace Sirius.User
open Support Function List
open Memory (HeapHeader Blocks used Separated Gains Allocation sizeofHeapHeader)

variable {s s' : UHeap} {blocks blocks' : List HeapHeader} {b block : HeapHeader}

/-- `store` is a write of the program to a block of its own. -/
inductive Call
  | umalloc (grant : Nat → Bool) (size : Nat)
  | ucalloc (grant : Nat → Bool) (num size : Nat)
  | urealloc (grant : Nat → Bool) (ptr size : Nat)
  | ufree (ptr : Nat)
  | store (ptr index : Nat) (value : UInt8)

structure Run where
  heap : UHeap
  live : List Allocation

def booted (mem : ByteMem) : Run := ⟨⟨mem, 0, 0, userHeapVirtualBase⟩, []⟩

def Call.exec (call : Call) (s : UHeap) : Option (Nat × UHeap) :=
  match call with
  | .umalloc grant size => User.umalloc grant size s
  | .ucalloc grant num size => User.ucalloc grant num size s
  | .urealloc grant ptr size => User.urealloc grant ptr size s
  | .ufree ptr => (User.ufree ptr s).map fun s => (0, s)
  | .store ptr index value => some (0, { s with mem := update s.mem (ptr + index) value })

def gain (ptr size : Nat) (live : List Allocation) : List Allocation := if ptr = 0 then live else ⟨ptr, size⟩ :: live

def without (ptr : Nat) (live : List Allocation) : List Allocation := live.filter fun a => a.ptr ≠ ptr

def Call.live (call : Call) (result : Nat) (live : List Allocation) : List Allocation :=
  match call with
  | .umalloc _ size => gain result size live
  | .ucalloc _ num size => gain result (num * size) live
  | .urealloc _ ptr size =>
    if size = 0 then without ptr live else if result = 0 then live else gain result size (without ptr live)
  | .ufree ptr => without ptr live
  | .store _ _ _ => live

def Call.apply (call : Call) (r : Run) : Run :=
  match call.exec r.heap with
  | some (result, heap) => ⟨heap, call.live result r.live⟩
  | none => r

def Live (r : Run) (ptr : Nat) : Prop := ∃ a ∈ r.live, a.ptr = ptr

/-- Sizes and products are below 2^32 and pointers are live; a write stays within what has been asked
for. -/
def Call.Possible (call : Call) (r : Run) : Prop :=
  match call with
  | .umalloc _ size => size < 2 ^ 32
  | .ucalloc _ num size => num < 2 ^ 32 ∧ size < 2 ^ 32 ∧ num * size < 2 ^ 32
  | .urealloc _ ptr size => Live r ptr ∧ size < 2 ^ 32
  | .ufree ptr => Live r ptr
  | .store ptr index _ => ∃ a ∈ r.live, a.ptr = ptr ∧ index < a.size

instance (call : Call) (r : Run) : Decidable (call.Possible r) := by
  cases call <;> unfold Call.Possible <;> unfold Live <;> infer_instance

/-- The list as it stands in the memory. -/
def Lists (s : UHeap) (blocks : List HeapHeader) : Prop := s.start = headAddr 0 blocks ∧ Listed s.mem blocks 0

def blockSize (s : UHeap) (ptr : Nat) : Nat := sizeOf s.mem (ptr - headerSize)

/-- The list tiles the region; live blocks are apart, aligned and large enough. -/
structure Run.Right (r : Run) : Prop where
  tiled : ∃ blocks, Lists r.heap blocks ∧ Blocks r.heap.start blocks r.heap.currentEnd
  aligned : ∀ a ∈ r.live, 16 ∣ a.ptr
  large : ∀ a ∈ r.live, a.size ≤ blockSize r.heap a.ptr
  apart : r.live.Pairwise fun a c => a.ptr + blockSize r.heap a.ptr ≤ c.ptr ∨ c.ptr + blockSize r.heap c.ptr ≤ a.ptr

/-- What the block has in it is what it was. -/
def Kept (s s' : UHeap) (a : Allocation) : Prop := ∀ i < a.size, s'.mem (a.ptr + i) = s.mem (a.ptr + i)

/-- No two neighbours in the list are free. -/
def Merged (s : UHeap) : Prop := ∃ blocks, Lists s blocks ∧ Separated blocks

/-- What a call does for its caller and leaves to the other blocks. -/
def Call.Right (call : Call) (r : Run) (result : Nat) (s' : UHeap) : Prop :=
  match call with
  | .umalloc _ _ => ∀ a ∈ r.live, Kept r.heap s' a
  | .ucalloc _ num size =>
    (∀ a ∈ r.live, Kept r.heap s' a) ∧ (result ≠ 0 → ∀ i < num * size, s'.mem (result + i) = 0)
  | .urealloc _ ptr size =>
    (∀ a ∈ r.live, a.ptr ≠ ptr → Kept r.heap s' a) ∧ (result = 0 ∧ size ≠ 0 → ∀ a ∈ r.live, Kept r.heap s' a) ∧
      (result ≠ 0 → ∀ a ∈ r.live, a.ptr = ptr → ∀ i < min a.size size, s'.mem (result + i) = r.heap.mem (ptr + i)) ∧
      (size = 0 ∨ result ≠ 0 ∧ result ≠ ptr → Merged s')
  | .ufree ptr => (∀ a ∈ r.live, a.ptr ≠ ptr → Kept r.heap s' a) ∧ Merged s'
  | .store ptr _ _ => ∀ a ∈ r.live, a.ptr ≠ ptr → Kept r.heap s' a

theorem Ready.sizeOf_eq (ready : Ready s blocks) (member : b ∈ blocks) : sizeOf s.mem b.addr = b.size := by
  obtain ⟨before, behind, rfl⟩ := append_of_mem member
  exact (listed_append.mp ready.listed).2.1.size

theorem Ready.lists (ready : Ready s blocks) : Lists s blocks := ⟨ready.start, ready.listed⟩

/-- Live pointers stand for blocks in use. -/
structure Accounts (r : Run) (blocks : List HeapHeader) : Prop where
  good : Good r.heap blocks
  backed : ∀ a ∈ r.live, ∃ b ∈ used blocks, b.addr + headerSize = a.ptr ∧ a.size ≤ b.size
  distinct : (r.live.map Allocation.ptr).Nodup

namespace Accounts

variable {r : Run} {live : List Allocation} {a : Allocation}

section
variable (accounts : Accounts r blocks)
include accounts

theorem data (member : a ∈ r.live) (bound : i < a.size) : Data blocks (a.ptr + i) := by
  obtain ⟨b, inUse, ptr, large⟩ := accounts.backed a member
  refine ⟨b, inUse, by omega, ?_⟩
  simp only [HeapHeader.span, sizeofHeapHeader, headerSize] at *
  omega

theorem kept (same : ∀ i, Data blocks i → s'.mem i = r.heap.mem i) : ∀ a ∈ r.live, Kept r.heap s' a :=
  fun _ member _ bound => same _ (accounts.data member bound)

/-- With a live block the heap has been set up. -/
theorem ready (member : a ∈ r.live) : Ready r.heap blocks := by
  rcases accounts.good with ⟨-, rfl⟩ | ready
  · obtain ⟨b, inUse, -⟩ := accounts.backed a member
    cases inUse
  · exact ready

theorem gained (good : Good s' blocks')
    (outcome : ptr = 0 ∧ used blocks' = used blocks ∨ ptr ≠ 0 ∧ Ready s' blocks' ∧ Gains blocks blocks' ptr size) :
    Accounts ⟨s', gain ptr size r.live⟩ blocks' := by
  rcases outcome with ⟨null, same⟩ | ⟨nonnull, ready, before, behind, block, old, new, addr, large⟩
  · rw [gain, if_pos null]
    exact ⟨good, same ▸ accounts.backed, accounts.distinct⟩
  have backed := accounts.backed
  rw [old] at backed
  have fresh := Memory.used_split ready.tiles new
  rw [gain, if_neg nonnull]
  refine ⟨good, fun a member => ?_, nodup_cons.mpr ⟨fun again => ?_, accounts.distinct⟩⟩
  · rw [new]
    rcases mem_cons.mp member with rfl | earlier
    · exact ⟨block, by simp, addr, large⟩
    obtain ⟨b, inside, rest⟩ := backed a earlier
    refine ⟨b, ?_, rest⟩
    rw [mem_append] at inside
    rw [mem_append, mem_cons]
    exact inside.imp_right .inr
  · obtain ⟨a, member, equal⟩ := mem_map.mp again
    obtain ⟨b, inside, points, -⟩ := backed a member
    refine fresh b inside ?_
    simp only [headerSize, sizeofHeapHeader] at *
    omega

theorem release (ready : Ready s' blocks') (old : used blocks = before ++ block :: behind)
    (new : used blocks' = before ++ behind) (ptr : block.addr + headerSize = p) : Accounts ⟨s', without p r.live⟩ blocks' := by
  have backed := accounts.backed
  rw [old] at backed
  refine ⟨.inr ready, fun a member => ?_, accounts.distinct.sublist (filter_sublist.map _)⟩
  obtain ⟨known, other⟩ := mem_filter.mp member
  obtain ⟨b, inside, points, large⟩ := backed a known
  have different : b ≠ block := by
    rintro rfl
    exact of_decide_eq_true other (points.symm.trans ptr)
  refine ⟨b, ?_, points, large⟩
  rw [new, mem_append]
  rw [mem_append, mem_cons] at inside
  exact inside.imp_right fun here => here.resolve_left different

/-- The bytes of a block in use are written. -/
theorem write (inUse : b ∈ used blocks) (ready : Ready r.heap blocks)
    (within : Within r.heap.mem mem' (b.addr + headerSize) (b.addr + (headerSize + b.size))) :
    Accounts ⟨{ r.heap with mem := mem' }, r.live⟩ blocks :=
  ⟨.inr (ready.keepData (Memory.mem_used.mp inUse).1 within), accounts.backed, accounts.distinct⟩

/-- The other blocks do not notice. -/
theorem kept_write (inUse : b ∈ used blocks) (ready : Ready r.heap blocks)
    (within : Within r.heap.mem s'.mem (b.addr + headerSize) (b.addr + (headerSize + b.size))) (member : a ∈ r.live)
    (other : a.ptr ≠ b.addr + headerSize) : Kept r.heap s' a := by
  intro i bound
  obtain ⟨c, isUsed, ptr, large⟩ := accounts.backed a member
  have different : c ≠ b := by
    rintro rfl
    exact other ptr.symm
  have apart := ready.apart (Memory.mem_used.mp isUsed).1 (Memory.mem_used.mp inUse).1 different
  exact within _ (by omega)

theorem right : r.Right := by
  rcases accounts.good with ⟨fresh, rfl⟩ | ready
  · have none : r.live = [] := eq_nil_iff_forall_not_mem.mpr fun a member => by
      obtain ⟨b, inUse, -⟩ := accounts.backed a member
      cases inUse
    refine ⟨⟨[], ⟨fresh.start, trivial⟩, fresh.start.trans fresh.currentEnd.symm⟩, ?_, ?_, ?_⟩
    all_goals rw [none]
    · exact nofun
    · exact nofun
    · exact .nil
  · -- The block behind a live pointer, and its size as the code reads it.
    have behind : ∀ a ∈ r.live, ∃ b ∈ blocks, b.addr + headerSize = a.ptr ∧ a.size ≤ b.size ∧
      blockSize r.heap a.ptr = b.size := by
      intro a member
      obtain ⟨b, inUse, ptr, large⟩ := accounts.backed a member
      have inside := (Memory.mem_used.mp inUse).1
      refine ⟨b, inside, ptr, large, ?_⟩
      rw [blockSize, ← ptr, Nat.add_sub_cancel]
      exact ready.sizeOf_eq inside
    refine ⟨⟨blocks, ready.lists, ready.tiles⟩, fun a member => ?_, fun a member => ?_, ?_⟩
    · obtain ⟨b, inside, ptr, -⟩ := behind a member
      have aligned := ready.addr_aligned inside
      simp only [headerSize] at ptr
      omega
    · obtain ⟨b, -, -, large, size⟩ := behind a member
      omega
    · have distinct := pairwise_map.mp accounts.distinct
      refine distinct.imp_of_mem fun {a c} memberA memberC different => ?_
      obtain ⟨b, insideB, ptrB, -, sizeB⟩ := behind a memberA
      obtain ⟨d, insideD, ptrD, -, sizeD⟩ := behind c memberC
      have apart := ready.apart insideB insideD (by rintro rfl; exact different (ptrB.symm.trans ptrD))
      omega

end

section Steps

variable {size num ptr : Nat}

theorem umalloc_step (grant : Nat → Bool) (accounts : Accounts r blocks) (bound : size < 2 ^ 32) :
    ∃ result s' blocks', umalloc grant size r.heap = some (result, s') ∧ Accounts ⟨s', gain result size r.live⟩ blocks' ∧
      (∀ i, Data blocks i → s'.mem i = r.heap.mem i) ∧
      (result ≠ 0 → Ready s' blocks' ∧ (∀ c ∈ used blocks, c ∈ used blocks') ∧
        ∃ b ∈ used blocks', b.addr + headerSize = result ∧ size ≤ b.size) := by
  obtain ⟨result, s', blocks', same, good, data, outcome⟩ := umalloc_spec accounts.good bound
  refine ⟨result, s', blocks', same, accounts.gained good outcome, data, fun nonnull => ?_⟩
  rcases outcome with ⟨null, -⟩ | ⟨-, ready, before, behind, block, old, new, addr, large⟩
  · exact absurd null nonnull
  · refine ⟨ready, fun c inUse => ?_, block, new ▸ mem_append_right _ mem_cons_self, addr, large⟩
    rw [old, mem_append] at inUse
    rw [new, mem_append, mem_cons]
    exact inUse.imp_right .inr

/-- What is written to the block just handed out is not in the older ones. -/
theorem kept_new (after : Accounts ⟨s, ⟨result, size⟩ :: live⟩ blocks) (ready : Ready s blocks) (inUse : b ∈ used blocks)
    (addr : b.addr + headerSize = result) (within : Within s.mem s'.mem (b.addr + headerSize) (b.addr + (headerSize + b.size))) :
    ∀ a ∈ live, a.ptr ≠ result ∧ Kept s s' a := by
  intro a member
  have different : a.ptr ≠ result := fun equal => (nodup_cons.mp after.distinct).1 (mem_map.mpr ⟨a, member, equal⟩)
  exact ⟨different, after.kept_write inUse ready within (mem_cons_of_mem _ member) (addr ▸ different)⟩

section
variable (accounts : Accounts r blocks)
include accounts

theorem ucalloc_step (grant : Nat → Bool) (bound : num * size < 2 ^ 32) :
    ∃ result s' blocks', ucalloc grant num size r.heap = some (result, s') ∧
      Accounts ⟨s', gain result (num * size) r.live⟩ blocks' ∧ (∀ a ∈ r.live, Kept r.heap s' a) ∧
      (result ≠ 0 → ∀ i < num * size, s'.mem (result + i) = 0) := by
  have total : u64 (num * size) = num * size := u64_of_lt (by omega)
  obtain ⟨result, s', blocks', same, after, data, nonnull⟩ := accounts.umalloc_step grant bound
  unfold ucalloc
  simp only [total, same, Option.bind_eq_bind, Option.bind_some]
  by_cases null : result = 0
  · rw [if_pos null]
    exact ⟨0, s', blocks', rfl, null ▸ after, accounts.kept data, fun absurd => (absurd rfl).elim⟩
  rw [gain, if_neg null] at after
  rw [if_neg null]
  obtain ⟨ready, -, b, inUse, addr, large⟩ := nonnull null
  have bytes := uMemset_apply 0 (num * size) result s'.mem
  generalize uMemset 0 (num * size) result s'.mem = mem' at bytes ⊢
  have within : Within s'.mem mem' (b.addr + headerSize) (b.addr + (headerSize + b.size)) := by
    intro i outside
    rw [bytes, if_neg (by omega)]
  refine ⟨result, { s' with mem := mem' }, blocks', rfl, ?_, fun a member i inside => ?_, fun _ i inside => ?_⟩
  · rw [gain, if_neg null]
    exact after.write inUse ready within
  · exact ((after.kept_new ready inUse addr within a member).2 i inside).trans (accounts.kept data a member i inside)
  · exact (bytes _).trans (if_pos (by omega))

theorem ufree_step (live : Live r ptr) :
    ∃ s' blocks', ufree ptr r.heap = some s' ∧ Accounts ⟨s', without ptr r.live⟩ blocks' ∧
      (∀ a ∈ r.live, Kept r.heap s' a) ∧ Merged s' := by
  obtain ⟨a, member, rfl⟩ := live
  have ready := accounts.ready member
  obtain ⟨b, inUse, addr, -⟩ := accounts.backed a member
  obtain ⟨s', blocks', before, behind, result, ready', separated, old, new, data⟩ := ufree_spec ready inUse
  rw [addr] at result
  exact ⟨s', blocks', result, accounts.release ready' old new addr, accounts.kept data, blocks', ready'.lists, separated⟩

theorem resize (inUse : b ∈ used blocks) (addr : b.addr + headerSize = ptr) (fits : size ≤ b.size) :
    Accounts ⟨r.heap, ⟨ptr, size⟩ :: without ptr r.live⟩ blocks := by
  refine ⟨accounts.good, fun a member => ?_, ?_⟩
  · rcases mem_cons.mp member with rfl | member
    · exact ⟨b, inUse, addr, fits⟩
    · exact accounts.backed a (mem_filter.mp member).1
  · rw [map_cons, nodup_cons]
    refine ⟨fun again => ?_, accounts.distinct.sublist (filter_sublist.map _)⟩
    obtain ⟨a, member, same⟩ := mem_map.mp again
    exact of_decide_eq_true (mem_filter.mp member).2 same

/-- A block is handed out, filled from the old one, and the old one released. -/
theorem move_step (grant : Nat → Bool) (member : a ∈ r.live) (inUse : b ∈ used blocks) (addr : b.addr + headerSize = a.ptr)
    (bound : size < 2 ^ 32) (grows : b.size < size) :
    ∃ newPtr s1, umalloc grant size r.heap = some (newPtr, s1) ∧
      (newPtr = 0 ∧ (∃ blocks', Accounts ⟨s1, r.live⟩ blocks') ∧ (∀ c ∈ r.live, Kept r.heap s1 c) ∨
        newPtr ≠ 0 ∧ ∃ s' blocks', ufree a.ptr { s1 with mem := uMemcpy b.size newPtr a.ptr s1.mem } = some s' ∧
          Accounts ⟨s', gain newPtr size (without a.ptr r.live)⟩ blocks' ∧ Merged s' ∧
          (∀ c ∈ r.live, Kept r.heap s' c) ∧ ∀ i < b.size, s'.mem (newPtr + i) = r.heap.mem (a.ptr + i)) := by
  obtain ⟨newPtr, s1, blocks1, result, after, data, nonnull⟩ := accounts.umalloc_step grant bound
  refine ⟨newPtr, s1, result, ?_⟩
  rw [gain] at after ⊢
  by_cases null : newPtr = 0
  · rw [if_pos null] at after
    exact .inl ⟨null, ⟨blocks1, after⟩, accounts.kept data⟩
  rw [if_neg null] at after ⊢
  obtain ⟨ready, older, new, newUse, newAddr, large⟩ := nonnull null
  have different := (after.kept_new ready newUse newAddr (fun _ _ => rfl) a member).1
  have apart := ready.apart (Memory.mem_used.mp (older b inUse)).1 (Memory.mem_used.mp newUse).1
    (by rintro rfl; exact different (addr.symm.trans newAddr))
  have clear : newPtr + b.size ≤ a.ptr ∨ a.ptr + b.size ≤ newPtr := by omega
  have bytes := uMemcpy_apply clear s1.mem
  generalize uMemcpy b.size newPtr a.ptr s1.mem = mem' at bytes ⊢
  have within : Within s1.mem mem' (new.addr + headerSize) (new.addr + (headerSize + new.size)) := by
    intro i outside
    rw [bytes, if_neg (by omega)]
  obtain ⟨s', blocks', freed, released, kept, merged⟩ :=
    (after.write newUse ready within).ufree_step ⟨a, mem_cons_of_mem _ member, rfl⟩
  have live : without a.ptr (⟨newPtr, size⟩ :: r.live) = ⟨newPtr, size⟩ :: without a.ptr r.live :=
    filter_cons_of_pos (decide_eq_true different.symm)
  refine .inr ⟨null, s', blocks', freed, live ▸ released, merged, fun c known i inside => ?_, fun i inside => ?_⟩
  · have copy : Kept s1 { s1 with mem := mem' } c := (after.kept_new ready newUse newAddr within c known).2
    exact (kept c (mem_cons_of_mem _ known) i inside).trans ((copy i inside).trans (accounts.kept data c known i inside))
  have copied := kept _ mem_cons_self i (by dsimp only; omega)
  dsimp only at copied
  rw [copied, bytes, if_pos (by omega), Nat.add_sub_cancel_left]
  refine data _ ⟨b, inUse, by omega, ?_⟩
  simp only [HeapHeader.span, sizeofHeapHeader, headerSize] at *
  omega

theorem urealloc_step (grant : Nat → Bool) (live : Live r ptr) (bound : size < 2 ^ 32) :
    ∃ result s' blocks', urealloc grant ptr size r.heap = some (result, s') ∧
      Accounts ⟨s', Call.live (.urealloc grant ptr size) result r.live⟩ blocks' ∧
      Call.Right (.urealloc grant ptr size) r result s' := by
  obtain ⟨a, member, rfl⟩ := live
  have ready := accounts.ready member
  obtain ⟨b, inUse, addr, large⟩ := accounts.backed a member
  have inside := (Memory.mem_used.mp inUse).1
  have only : ∀ c ∈ r.live, c.ptr = a.ptr → c = a := fun c known same =>
    inj_on_of_nodup_map accounts.distinct known member same
  have headed : headerSize = 32 := rfl
  have header : sub64 a.ptr headerSize = b.addr := by
    have bounds := ready.bounds inside
    have top : r.heap.currentEnd < 2 ^ 64 := ready.limit.trans (by decide)
    rw [sub64_of_le (by omega) (by omega)]
    omega
  have nonnull : a.ptr ≠ 0 := by omega
  unfold urealloc
  rw [if_neg nonnull, header, ready.sizeOf_eq inside]
  by_cases none : size = 0
  · obtain ⟨s', blocks', result, after, kept, merged⟩ := accounts.ufree_step ⟨a, member, rfl⟩
    rw [if_pos none, result]
    refine ⟨0, s', blocks', rfl, ?_, fun c known _ => kept c known, fun failed => absurd none failed.2,
      fun nonnull => absurd rfl nonnull, fun _ => merged⟩
    rwa [Call.live, if_pos none]
  rw [if_neg none]
  by_cases fits : size ≤ b.size
  · rw [if_pos fits]
    refine ⟨a.ptr, r.heap, blocks, rfl, ?_, fun _ _ _ _ _ => rfl, fun failed => absurd failed.1 nonnull,
      fun _ _ _ _ _ _ => rfl, fun moved => moved.elim (absurd · none) fun moved => absurd rfl moved.2⟩
    rw [Call.live, if_neg none, if_neg nonnull, gain, if_neg nonnull]
    exact accounts.resize inUse addr fits
  rw [if_neg fits]
  obtain ⟨newPtr, s1, result, outcome⟩ := accounts.move_step grant member inUse addr bound (by omega)
  simp only [result, Option.bind_eq_bind, Option.bind_some]
  rcases outcome with ⟨null, ⟨blocks', after⟩, kept⟩ | ⟨moved, s', blocks', freed, after, merged, kept, copied⟩
  · rw [if_pos null]
    refine ⟨0, s1, blocks', rfl, ?_, fun c known _ => kept c known, fun _ => kept, fun nonnull => absurd rfl nonnull,
      fun failed => failed.elim (absurd · none) fun failed => absurd rfl failed.1⟩
    rwa [Call.live, if_neg none, if_pos rfl]
  · rw [if_neg moved, freed]
    refine ⟨newPtr, s', blocks', rfl, ?_, fun c known _ => kept c known, fun failed => absurd failed.1 moved,
      fun _ c known same i inside => ?_, fun _ => merged⟩
    · rwa [Call.live, if_neg none, if_neg moved]
    · obtain rfl := only c known same
      exact copied i (by omega)

end

end Steps

end Accounts

theorem Call.step (call : Call) (accounts : Accounts r blocks) (possible : call.Possible r) :
    ∃ result s' blocks', call.exec r.heap = some (result, s') ∧ Accounts ⟨s', call.live result r.live⟩ blocks' ∧
      call.Right r result s' := by
  cases call with
  | umalloc grant size =>
    obtain ⟨result, s', blocks', same, after, data, -⟩ := accounts.umalloc_step grant possible
    exact ⟨result, s', blocks', same, after, accounts.kept data⟩
  | ucalloc grant num size => exact accounts.ucalloc_step grant possible.2.2
  | urealloc grant ptr size => exact accounts.urealloc_step grant possible.1 possible.2
  | ufree ptr =>
    obtain ⟨s', blocks', same, after, kept, merged⟩ := accounts.ufree_step possible
    refine ⟨0, s', blocks', ?_, after, fun a member _ => kept a member, merged⟩
    rw [Call.exec, same, Option.map_some]
  | store ptr index value =>
    obtain ⟨a, member, rfl, bound⟩ := possible
    have ready := accounts.ready member
    obtain ⟨b, inUse, addr, large⟩ := accounts.backed a member
    have within : Within r.heap.mem (update r.heap.mem (a.ptr + index) value) (b.addr + headerSize)
        (b.addr + (headerSize + b.size)) := fun i outside => update_of_ne (by omega) _ _
    refine ⟨0, { r.heap with mem := update r.heap.mem (a.ptr + index) value }, blocks, rfl,
      accounts.write inUse ready within, fun c known other => ?_⟩
    exact accounts.kept_write inUse ready within known (addr ▸ other)

def Accounted (r : Run) : Prop := ∃ blocks, Accounts r blocks

theorem run_accounted (mem : ByteMem) (calls : List Call) (meet : AllMeet Call.apply Call.Possible calls (booted mem)) :
    Accounted (runAll Call.apply calls (booted mem)) := by
  refine meet.preserves ?_ fun call r possible ⟨blocks, accounts⟩ => ?_
  · exact ⟨[], .inl ⟨⟨rfl, rfl, rfl⟩, rfl⟩, nofun, nodup_nil⟩
  · obtain ⟨result, s', blocks', same, after, -⟩ := call.step accounts possible
    refine ⟨blocks', ?_⟩
    rw [Call.apply, same]
    exact after

/-- In every state of a run the blocks are right, and every call comes back and does what it is for. -/
theorem user_heap_serves_blocks (mem : ByteMem) (calls : List Call)
    (meet : AllMeet Call.apply Call.Possible calls (booted mem)) :
    (runAll Call.apply calls (booted mem)).Right ∧
      ∀ call : Call, call.Possible (runAll Call.apply calls (booted mem)) →
        ∃ result s', call.exec (runAll Call.apply calls (booted mem)).heap = some (result, s') ∧
          call.Right (runAll Call.apply calls (booted mem)) result s' := by
  obtain ⟨blocks, accounts⟩ := run_accounted mem calls meet
  refine ⟨accounts.right, fun call possible => ?_⟩
  obtain ⟨result, s', -, same, -, right⟩ := call.step accounts possible
  exact ⟨result, s', same, right⟩

def twoBlocks : List Call :=
  [.umalloc (fun _ => true) 10, .store 0x8000020 3 7, .ucalloc (fun _ => false) 2 3]

theorem user_heap_serves_blocks_realloc :
    (runAll Call.apply twoBlocks (booted fun _ => 9)).live = [⟨0x8000050, 6⟩, ⟨0x8000020, 10⟩] ∧
      (runAll Call.apply twoBlocks (booted fun _ => 9)).Right ∧
      ∃ result s', (Call.urealloc (fun _ => true) 0x8000020 40000).exec
          (runAll Call.apply twoBlocks (booted fun _ => 9)).heap = some (result, s') ∧
        (Call.urealloc (fun _ => true) 0x8000020 40000).Right (runAll Call.apply twoBlocks (booted fun _ => 9)) result s' := by
  have all := user_heap_serves_blocks (fun _ => 9) twoBlocks (by decide +kernel)
  exact ⟨by decide +kernel, all.1, all.2 (.urealloc (fun _ => true) 0x8000020 40000) (by decide +kernel)⟩

end Sirius.User
