import Sirius.Memory.HeapProofs

/-! Runs of `kmalloc` and `kfree` from `kheap_init`, for every outcome of the page
allocator. The live pointers and the used blocks correspond in every state. -/
namespace Sirius.Memory
open Support List

variable {heap : Heap}

structure Allocation where
  ptr : Nat
  size : Nat
deriving DecidableEq, Repr

structure HeapState where
  heap : Heap
  live : List Allocation
deriving DecidableEq, Repr

/-- A call of `kmalloc` sees whatever number of frames the page allocator has at that
moment, as far as these and the frames behind the heap are frames it manages, and whatever
tables are missing. A call
of `kfree` takes a pointer that was returned earlier and not freed since. -/
inductive HeapStep : HeapState → HeapState → Prop
  | kmalloc (positive : 1 ≤ size) (bound : size ≤ 2 ^ 32)
      (supply : s.heap.currentEnd + pageSize * frames ≤ heapLimit)
      (returned : Memory.kmalloc tables s.heap size frames = some result) :
      HeapStep s { heap := result.heap
                   live := if result.ptr = 0 then s.live else ⟨result.ptr, size⟩ :: s.live }
  | kfree (member : a ∈ s.live) : HeapStep s { heap := Memory.kfree s.heap a.ptr, live := s.live.erase a }

/-- Live pointers and used blocks correspond one to one. -/
structure HeapState.Accounts (s : HeapState) : Prop where
  heap : s.heap.WellFormed
  backed : ∀ a ∈ s.live, ∃ b ∈ used s.heap.blocks, b.addr + sizeofHeapHeader = a.ptr ∧ a.size ≤ b.size
  owned : ∀ b ∈ used s.heap.blocks, ∃ a ∈ s.live, a.ptr = b.addr + sizeofHeapHeader
  distinct : (s.live.map Allocation.ptr).Nodup

theorem HeapState.init_accounts : HeapState.Accounts ⟨kheapInit, []⟩ where
  heap := kheapInit_wellFormed
  backed := by simp
  owned := by decide
  distinct := nodup_nil

theorem HeapState.Accounts.kmalloc_step {s : HeapState} (accounts : s.Accounts)
    (positive : 1 ≤ size) (bound : size ≤ 2 ^ 32)
    (supply : s.heap.currentEnd + pageSize * frames ≤ heapLimit)
    (returned : kmalloc tables s.heap size frames = some result) :
    HeapState.Accounts { heap := result.heap
                         live := if result.ptr = 0 then s.live else ⟨result.ptr, size⟩ :: s.live } := by
  obtain ⟨actual, same, wf, outcome⟩ := kmalloc_spec accounts.heap positive (NoWrap.of_le bound) supply
  cases Option.some.inj (returned.symm.trans same)
  rcases outcome with ⟨null, unchanged, -⟩ | ⟨nonnull, ⟨before, behind, block, old, new, ptr, large⟩, -⟩
  · rw [if_pos null, unchanged]
    exact accounts
  rw [if_neg nonnull]
  have apart := used_split wf.tiles new
  have backed := accounts.backed
  have owned := accounts.owned
  rw [old] at backed owned
  refine ⟨wf, ?_, ?_, ?_⟩
  · intro a member
    rw [new]
    rcases mem_cons.mp member with rfl | earlier
    · exact ⟨block, by simp, ptr, large⟩
    obtain ⟨b, inside, behindPtr⟩ := backed a earlier
    refine ⟨b, ?_, behindPtr⟩
    rw [mem_append] at inside
    rw [mem_append, mem_cons]
    exact inside.imp_right .inr
  · intro b inside
    rw [new, mem_append, mem_cons] at inside
    by_cases here : b = block
    · exact ⟨_, mem_cons_self, by rw [here, ptr]⟩
    have earlier : b ∈ before ++ behind := by
      rw [mem_append]
      tauto
    obtain ⟨a, member, points⟩ := owned b earlier
    exact ⟨a, mem_cons_of_mem _ member, points⟩
  · rw [map_cons, nodup_cons]
    refine ⟨?_, accounts.distinct⟩
    -- an older pointer with this value would be backed by a block at the same address
    intro again
    obtain ⟨a, member, equal⟩ := mem_map.mp again
    obtain ⟨b, inside, points, -⟩ := backed a member
    refine apart b inside ?_
    simp only at equal
    omega

theorem HeapState.Accounts.kfree_step {s : HeapState} (accounts : s.Accounts) (member : a ∈ s.live) :
    HeapState.Accounts { heap := kfree s.heap a.ptr, live := s.live.erase a } := by
  obtain ⟨block, inside, ptr, large⟩ := accounts.backed a member
  obtain ⟨present, busy⟩ := mem_used.mp inside
  obtain ⟨wf, before, behind, old, new⟩ := kfree_spec accounts.heap present busy
  rw [ptr] at wf new
  have apart := used_split accounts.heap.tiles old
  have unique := accounts.distinct
  have injective : ∀ c ∈ s.live, c.ptr = a.ptr → c = a := fun c known same =>
    inj_on_of_nodup_map unique known member same
  refine ⟨wf, ?_, ?_, ?_⟩
  · intro c known
    have other := (mem_of_mem_erase known)
    obtain ⟨b, used, points, size⟩ := accounts.backed c other
    refine ⟨b, ?_, points, size⟩
    rw [old, mem_append, mem_cons] at used
    rw [new, mem_append]
    rcases used with left | rfl | right
    · exact .inl left
    · have equal := injective c other (points.symm.trans ptr)
      subst equal
      exact absurd known (unique.of_map _ |>.not_mem_erase)
    · exact .inr right
  · intro b used
    rw [new] at used
    have elsewhere := apart b used
    obtain ⟨c, known, points⟩ := accounts.owned b (by
      rw [old]
      simp only [mem_append, mem_cons] at used ⊢
      tauto)
    refine ⟨c, ?_, points⟩
    refine (mem_erase_of_ne ?_).mpr known
    rintro rfl
    omega
  · exact unique.sublist (erase_sublist.map _)

theorem HeapStep.accounts (step : HeapStep s t) (before : s.Accounts) : t.Accounts := by
  cases step with
  | kmalloc positive bound supply returned =>
    exact before.kmalloc_step positive bound supply returned
  | kfree member => exact before.kfree_step member

theorem reachable_accounts (run : Relation.ReflTransGen HeapStep ⟨kheapInit, []⟩ s) : s.Accounts := by
  induction run with
  | refl => exact HeapState.init_accounts
  | tail _ step ih => exact step.accounts ih

/-- What the heap promises in every state of a run. -/
structure HeapState.Sound (s : HeapState) : Prop where
  tiles : Blocks kernelHeapVirtualBase s.heap.blocks s.heap.currentEnd
  sizes : ∀ b ∈ s.heap.blocks, 16 ∣ b.size
  separated : Separated s.heap.blocks
  aligned : ∀ a ∈ s.live, 16 ∣ a.ptr
  backed : ∀ a ∈ s.live, ∃ b ∈ s.heap.blocks,
    b.isFree = false ∧ a.ptr = b.addr + sizeofHeapHeader ∧ a.size ≤ b.size
  disjoint : s.live.Pairwise fun a c => ∀ x ∈ s.heap.blocks, ∀ y ∈ s.heap.blocks,
    a.ptr = x.addr + sizeofHeapHeader → c.ptr = y.addr + sizeofHeapHeader →
      x.addr + x.span ≤ y.addr ∨ y.addr + y.span ≤ x.addr
  emptied : s.live = [] → ∃ b, s.heap.blocks = [b] ∧ b.isFree = true

theorem HeapState.Accounts.emptied {s : HeapState} (accounts : s.Accounts) (none : s.live = []) :
    ∃ b, s.heap.blocks = [b] ∧ b.isFree = true := by
  have free : ∀ b ∈ s.heap.blocks, b.isFree = true := by
    intro b member
    cases busy : b.isFree with
    | true => rfl
    | false =>
      obtain ⟨a, live, -⟩ := accounts.owned b (mem_used.mpr ⟨member, busy⟩)
      rw [none] at live
      cases live
  have separated := accounts.heap.separated
  unfold Separated at separated
  cases blocks : s.heap.blocks with
  | nil => exact absurd blocks accounts.heap.nonempty
  | cons first rest =>
    rw [blocks] at separated free
    cases rest with
    | nil => exact ⟨first, rfl, free first (by simp)⟩
    | cons next rest =>
      rw [isChain_cons_cons] at separated
      exact absurd ⟨free first (by simp), free next (by simp)⟩ separated.1

theorem HeapState.Accounts.disjoint {s : HeapState} (accounts : s.Accounts) :
    s.live.Pairwise (fun a c => ∀ x ∈ s.heap.blocks, ∀ y ∈ s.heap.blocks,
      a.ptr = x.addr + sizeofHeapHeader → c.ptr = y.addr + sizeofHeapHeader →
        x.addr + x.span ≤ y.addr ∨ y.addr + y.span ≤ x.addr) := by
  have apart := pairwise_map.mp accounts.distinct
  refine apart.imp ?_
  intro a c different x insideX y insideY behindA behindC
  refine accounts.heap.tiles.apart insideX insideY ?_
  rintro rfl
  exact different (behindA.trans behindC.symm)

theorem HeapState.Accounts.sound {s : HeapState} (accounts : s.Accounts) : s.Sound where
  tiles := accounts.heap.tiles
  sizes := accounts.heap.aligned
  separated := accounts.heap.separated
  aligned := by
    intro a live
    obtain ⟨b, inside, ptr, -⟩ := accounts.backed a live
    have := accounts.heap.addr_aligned (mem_used.mp inside).1
    simp only [sizeofHeapHeader] at ptr
    omega
  backed := by
    intro a live
    obtain ⟨b, inside, ptr, large⟩ := accounts.backed a live
    obtain ⟨member, busy⟩ := mem_used.mp inside
    exact ⟨b, member, busy, ptr.symm, large⟩
  disjoint := accounts.disjoint
  emptied := accounts.emptied

/-- Every run from `kheap_init` keeps the heap sound, and no call of `kmalloc` fails
to return: it either hands out a block or reports exhaustion. -/
theorem kheap_runs_sound (run : Relation.ReflTransGen HeapStep ⟨kheapInit, []⟩ s) :
    s.Sound ∧ ∀ tables size frames, 1 ≤ size → size ≤ 2 ^ 32 → s.heap.currentEnd + pageSize * frames ≤ heapLimit →
      ∃ result, kmalloc tables s.heap size frames = some result := by
  have accounts := reachable_accounts run
  refine ⟨accounts.sound, ?_⟩
  intro tables size frames positive bound supply
  obtain ⟨result, returned, -⟩ := kmalloc_spec accounts.heap positive (NoWrap.of_le bound) supply
  exact ⟨result, returned⟩

/-- The state after a call that finds no frame. -/
def HeapState.request (s : HeapState) (size : Nat) : HeapState :=
  match kmalloc heapTables s.heap size 0 with
  | none => s
  | some result => ⟨result.heap, if result.ptr = 0 then s.live else ⟨result.ptr, size⟩ :: s.live⟩

theorem HeapState.request_step {s : HeapState} (positive : 1 ≤ size) (bound : size ≤ 2 ^ 32)
    (supply : s.heap.currentEnd + pageSize * 0 ≤ heapLimit) (returns : kmalloc heapTables s.heap size 0 ≠ none) :
    HeapStep s (s.request size) := by
  obtain ⟨result, returned⟩ := Option.ne_none_iff_exists'.mp returns
  rw [request, returned]
  exact .kmalloc positive bound supply returned

/-- Three blocks are requested and the middle one is freed; it lies between two that are in use. -/
theorem kheap_runs_sound_after_kmalloc : ∃ s, Relation.ReflTransGen HeapStep ⟨kheapInit, []⟩ s ∧
    s.live.map Allocation.size = [300, 100] ∧ s.heap.blocks.map HeapHeader.isFree = [false, true, false, true] ∧ s.Sound := by
  let first := HeapState.request ⟨kheapInit, []⟩ 100
  let second := first.request 200
  let third := second.request 300
  have one : HeapStep ⟨kheapInit, []⟩ first := HeapState.request_step (by decide) (by decide) (by decide) (by decide +kernel)
  have two : HeapStep first second := HeapState.request_step (by decide) (by decide) (by decide +kernel) (by decide +kernel)
  have three : HeapStep second third := HeapState.request_step (by decide) (by decide) (by decide +kernel) (by decide +kernel)
  have freed : HeapStep third _ := .kfree (a := ⟨kernelHeapVirtualBase + 176, 200⟩) (by decide +kernel)
  have run := (((Relation.ReflTransGen.single one).tail two).tail three).tail freed
  exact ⟨_, run, by decide +kernel, by decide +kernel, (kheap_runs_sound run).1⟩

end Sirius.Memory
