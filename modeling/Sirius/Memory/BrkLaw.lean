import Sirius.Memory.Brk
import Sirius.Memory.TranslationLaw

/-! The frames of a heap over whole histories of `brk` calls. Every call keeps the account
as long as no page it adds is still mapped from before the break was last lowered, or from
a call that ran out of memory. -/
namespace Sirius.Memory
open Support Relation Nat
open List hiding after
open BitVec hiding not_or

theorem pageUp_toNat (user : addr.toNat ≤ 2 ^ 47) :
    (pageUp addr).toNat = (addr.toNat + 4095) / 4096 * 4096 := by
  have sum : (addr + 4095).toNat = addr.toNat + 4095 := by
    change (addr.toNat + 4095) % 2 ^ 64 = _
    omega
  rw [pageUp, pageMask_toNat, sum]

/-- The pages added are those that start at or above the old break and below the new one. -/
theorem mem_pagesBetween_pageUp (user : high.toNat ≤ 2 ^ 47) (ordered : low ≤ high) :
    virt ∈ pagesBetween (pageUp low) (pageUp high) ↔ virt.toNat % 4096 = 0 ∧ low ≤ virt ∧ virt < high := by
  simp only [le_def] at ordered
  have start := @pageUp_toNat low (by omega)
  have stop := pageUp_toNat user
  rw [mem_pagesBetween (by omega) (by omega)]
  simp only [le_def, lt_def]
  omega

/-- Page by page: when its turn comes either the allocator is empty, and the call ends, or
the page is not mapped, the allocator affords it and its tables, and a page directory
already on its way lies below 64 GB. -/
def GrowsCleanly (cr3 : BitVec 64) : List (BitVec 64) → Machine → Prop
  | [], _ => True
  | virt :: rest, m =>
    m.alloc.1 = 0 ∨ userWalk m.mem (frameOf cr3) (indices virt) = none ∧ Affords m (frameOf cr3) virt ∧
        DirectoryBelow m (frameOf cr3) virt ∧ GrowsCleanly cr3 rest (brkPage m.alloc.2 cr3 virt m.alloc.1)

variable {m next : Machine} {root : Frame} {virt cr3 : BitVec 64}

theorem mappedIn_finite (mem : PhysMem) (root : Frame) (low high : BitVec 64) : (mappedIn mem root low high).Finite := by
  have finite : Finite (BitVec 64) := Finite.of_injective toFin fun _ _ same => eq_of_toFin_eq same
  exact Set.toFinite _

theorem Growth.mappedIn_insert (growth : Growth root m next [virt]) (page : UserPage virt)
    (above : low ≤ virt) (below : virt < high) :
    mappedIn next.mem root low high = insert virt (mappedIn m.mem root low high) := by
  ext other
  by_cases same : other = virt
  · rw [same]
    obtain ⟨frame, reached, -⟩ := growth.zeroed virt (mem_singleton_self virt)
    have mapped : userWalk next.mem root (indices virt) ≠ none := by
      rw [reached]
      exact Option.some_ne_none frame
    exact iff_of_true ⟨page, above, below, mapped⟩ (Set.mem_insert _ _)
  · simp only [mappedIn, Set.mem_ofPred_eq, Set.mem_insert_iff, same, false_or]
    refine and_congr_right fun user => ?_
    rw [growth.others (indices other) rfl]
    intro only member equal
    rw [mem_singleton.mp member] at equal
    exact same (indices_injective user page equal)

/-- A refused allocation touches nothing that counts. -/
theorem Growth.refused (tables : Tables m.mem m.pmm root) : Growth root m m.alloc.2 [] := by
  rcases allocated : pmmAllocPage m.pmm with ⟨phys, later⟩
  have result := Machine.alloc_eq allocated
  rw [result]
  constructor
  case tables => exact tables.mono fun _ _ _ _ used => pmmAllocPage_keeps allocated used
  case zeroed => exact fun _ member => absurd member not_mem_nil
  case others => exact fun _ _ _ => rfl
  case data => exact fun frame data => ⟨⟨pmmAllocPage_keeps allocated data.used, data.apart⟩, rfl⟩

/-- The loop maps a first part of the pages, all of them if it gets to its end, and takes
one frame for each. -/
structure LoopSpec (root : Frame) (pages : List (BitVec 64)) (m : Machine) (grown : Grown) (done : List (BitVec 64)) :
    Prop where
  growth : Growth root m grown.machine done
  fresh : ∀ virt ∈ done, userWalk m.mem root (indices virt) = none
  part : ∀ virt ∈ done, virt ∈ pages
  all : grown.complete = true → done = pages
  counted : ∀ low high : BitVec 64, (∀ virt ∈ pages, low ≤ virt ∧ virt < high) →
    (mappedIn grown.machine.mem root low high).ncard = (mappedIn m.mem root low high).ncard + grown.taken.length

theorem brkGrow_cons (cr3 virt : BitVec 64) (rest : List (BitVec 64)) (m : Machine) :
    brkGrow cr3 (virt :: rest) m = if m.alloc.1 = 0 then ⟨m.alloc.2, [], false⟩
      else
        let grown := brkGrow cr3 rest (brkPage m.alloc.2 cr3 virt m.alloc.1)
        { grown with taken := m.alloc.1 :: grown.taken } := rfl

theorem brkGrow_spec (pages : List (BitVec 64)) (user : ∀ virt ∈ pages, UserPage virt)
    (tables : Tables m.mem m.pmm (frameOf cr3)) (clean : GrowsCleanly cr3 pages m) :
    ∃ done, LoopSpec (frameOf cr3) pages m (brkGrow cr3 pages m) done := by
  induction pages generalizing m with
  | nil => exact ⟨[], Growth.refl tables, fun _ member => absurd member not_mem_nil, fun _ member => member,
      fun _ => rfl, fun _ _ _ => rfl⟩
  | cons virt rest ih =>
    have page := user virt mem_cons_self
    by_cases refused : m.alloc.1 = 0
    · rw [brkGrow_cons, if_pos refused]
      refine ⟨[], Growth.refused tables, fun _ member => absurd member not_mem_nil,
        fun _ member => absurd member not_mem_nil, fun complete => Bool.noConfusion complete, fun _ _ _ => rfl⟩
    obtain ⟨unmapped, affords, below, later⟩ := clean.resolve_left refused
    have first := (brkPage_growth tables page affords below).2
    obtain ⟨done, loop⟩ := ih (fun other member => user other (mem_cons_of_mem _ member)) first.tables later
    rw [brkGrow_cons, if_neg refused]
    -- a page that a later round finds unmapped is not the one mapped in this round
    have differ : ∀ other ∈ done, indices other ≠ indices virt := by
      intro other member same
      obtain ⟨frame, reached, -⟩ := first.zeroed virt (mem_singleton_self virt)
      have missing := loop.fresh other member
      rw [same, reached] at missing
      cases missing
    refine ⟨virt :: done, first.cons loop.growth differ, ?_, ?_, ?_, ?_⟩
    · intro other member
      cases member with
      | head => exact unmapped
      | tail _ mem =>
        have before := first.others (indices other) rfl fun only single => by
          rw [mem_singleton.mp single]
          exact differ other mem
        exact before.symm.trans (loop.fresh other mem)
    · intro other member
      cases member with
      | head => exact mem_cons_self
      | tail _ mem => exact mem_cons_of_mem _ (loop.part other mem)
    · intro complete
      rw [loop.all complete]
    · intro low high inside
      have here := inside virt mem_cons_self
      have absent : virt ∉ mappedIn m.mem (frameOf cr3) low high := fun mapped => mapped.2.2.2 unmapped
      rw [loop.counted low high fun other member => inside other (mem_cons_of_mem _ member),
        first.mappedIn_insert page here.1 here.2, Set.ncard_insert_of_notMem absent (mappedIn_finite _ _ _ _),
        length_cons]
      omega

/-- The frames taken for the heap are as many as the pages mapped in its region, and the
heap itself is mapped. -/
structure Conserves (s : BrkState) : Prop where
  counted : (mappedIn s.machine.mem (frameOf s.proc.cr3) s.proc.heapStart s.proc.stackLimit).ncard = s.taken.length
  mapped : ∀ virt, UserPage virt → s.proc.heapStart ≤ virt → virt < s.proc.heapEnd →
    userWalk s.machine.mem (frameOf s.proc.cr3) (indices virt) ≠ none

/-- Every page that a call adds to the heap reads as zeros. -/
def AddsZeros (s after : BrkState) : Prop :=
  ∀ virt, UserPage virt → s.proc.heapEnd ≤ virt → virt < after.proc.heapEnd →
    ReadsZero after.machine (frameOf after.proc.cr3) virt

/-- The bounds of the heap and the tables it is mapped in. -/
structure HeapBounds (s : BrkState) : Prop where
  tables : Tables s.machine.mem s.machine.pmm (frameOf s.proc.cr3)
  start : s.proc.heapStart = userHeapVirtualBase
  above : s.proc.heapStart ≤ s.proc.heapEnd
  user : s.proc.heapEnd.toNat ≤ 2 ^ 47
  limit : s.proc.stackLimit.toNat ≤ 2 ^ 47

structure FreshHeap (s : BrkState) : Prop where
  bounds : HeapBounds s
  empty : s.proc.heapEnd = s.proc.heapStart
  unmapped : mappedIn s.machine.mem (frameOf s.proc.cr3) s.proc.heapStart s.proc.stackLimit = ∅
  untaken : s.taken = []

def CleanCall (s : BrkState) (newBreak : BitVec 64) : Prop :=
  s.proc.heapEnd < newBreak → newBreak < s.proc.stackLimit →
    GrowsCleanly s.proc.cr3 (pagesBetween (pageUp s.proc.heapEnd) (pageUp newBreak)) s.machine

theorem FreshHeap.conserves (fresh : FreshHeap s) : Conserves s := by
  constructor
  · rw [fresh.unmapped, fresh.untaken, Set.ncard_empty, length_nil]
  · intro virt _ above below
    rw [fresh.empty] at below
    exact absurd below (BitVec.not_lt.mpr above)

structure Accepted (s : BrkState) (newBreak : BitVec 64) : Prop where
  nonzero : newBreak ≠ 0
  differs : newBreak ≠ s.proc.heapEnd
  above : userHeapVirtualBase ≤ newBreak
  below : newBreak < s.proc.stackLimit

abbrev Accounts (s after : BrkState) : Prop := HeapBounds after ∧ Conserves after ∧ AddsZeros s after

theorem brk_refused (refused : ¬ Accepted s newBreak) : (brk s newBreak).2 = s := by
  rw [brk]
  by_cases query : newBreak = 0 ∨ newBreak = s.proc.heapEnd
  · rw [if_pos query]
  · by_cases outside : newBreak < userHeapVirtualBase ∨ s.proc.stackLimit ≤ newBreak
    · rw [if_neg query, if_pos outside]
    · rw [not_or] at query outside
      exact absurd ⟨query.1, query.2, BitVec.not_lt.mp outside.1, BitVec.not_le.mp outside.2⟩ refused

theorem brk_accepted (accepted : Accepted s newBreak) : (brk s newBreak).2 =
      if s.proc.heapEnd < newBreak then
        let grown := brkGrow s.proc.cr3 (pagesBetween (pageUp s.proc.heapEnd) (pageUp newBreak)) s.machine
        if grown.complete then ⟨grown.machine, { s.proc with heapEnd := newBreak }, grown.taken ++ s.taken⟩
        else ⟨grown.machine, s.proc, grown.taken ++ s.taken⟩
      else { s with proc := { s.proc with heapEnd := newBreak } } := by
  have moves := not_or.mpr ⟨accepted.nonzero, accepted.differs⟩
  have inside := not_or.mpr ⟨BitVec.not_lt.mpr accepted.above, BitVec.not_le.mpr accepted.below⟩
  simp only [brk, if_neg moves, if_neg inside]
  split
  · split
    · rfl
    · rfl
  · rfl

section
variable (bounds : HeapBounds s) (accepted : Accepted s newBreak)
include bounds accepted

theorem HeapBounds.start_le : s.proc.heapStart ≤ newBreak := by
  rw [bounds.start]
  exact accepted.above

theorem HeapBounds.user_break : newBreak.toNat ≤ 2 ^ 47 :=
  le_trans (le_of_lt accepted.below) bounds.limit

theorem brk_lowers (conserves : Conserves s) (lower : newBreak ≤ s.proc.heapEnd) : Accounts s (brk s newBreak).2 := by
  rw [brk_accepted accepted, if_neg (BitVec.not_lt.mpr lower)]
  refine ⟨⟨bounds.tables, bounds.start, bounds.start_le accepted, bounds.user_break accepted, bounds.limit⟩,
    ⟨conserves.counted, ?_⟩, ?_⟩
  · exact fun virt page low high => conserves.mapped virt page low (Nat.lt_of_lt_of_le high lower)
  · exact fun virt _ low high => absurd (Nat.lt_of_lt_of_le high lower) (not_lt.mpr low)

theorem brk_raises (conserves : Conserves s) (higher : s.proc.heapEnd < newBreak) (clean : CleanCall s newBreak) :
    Accounts s (brk s newBreak).2 := by
  have user := bounds.user_break accepted
  have pages := fun virt => @mem_pagesBetween_pageUp s.proc.heapEnd newBreak virt user (Nat.le_of_lt higher)
  obtain ⟨done, loop⟩ := brkGrow_spec _ (fun virt member => by
    obtain ⟨aligned, -, inside⟩ := (pages virt).mp member
    exact ⟨aligned, lt_of_lt_of_le inside user⟩) bounds.tables (clean higher accepted.below)
  have counted := loop.counted s.proc.heapStart s.proc.stackLimit fun virt member => by
    obtain ⟨-, low, high⟩ := (pages virt).mp member
    exact ⟨Nat.le_trans bounds.above low, Nat.lt_trans high accepted.below⟩
  rw [brk_accepted accepted, if_pos higher]
  generalize brkGrow s.proc.cr3 (pagesBetween (pageUp s.proc.heapEnd) (pageUp newBreak)) s.machine = grown at *
  have total : (mappedIn grown.machine.mem (frameOf s.proc.cr3) s.proc.heapStart s.proc.stackLimit).ncard =
      (grown.taken ++ s.taken).length := by
    rw [counted, conserves.counted, length_append, add_comm]
  have still : ∀ virt, UserPage virt → s.proc.heapStart ≤ virt → virt < s.proc.heapEnd →
      userWalk grown.machine.mem (frameOf s.proc.cr3) (indices virt) ≠ none := by
    intro virt page low high
    have mapped := conserves.mapped virt page low high
    rw [loop.growth.others (indices virt) rfl]
    · exact mapped
    · intro other member same
      exact mapped (same ▸ loop.fresh other member)
  by_cases complete : grown.complete = true
  · rw [if_pos complete]
    have added : ∀ virt, UserPage virt → s.proc.heapEnd ≤ virt → virt < newBreak →
        ReadsZero grown.machine (frameOf s.proc.cr3) virt := by
      intro virt page low high
      obtain ⟨frame, reached, -, zero⟩ := loop.growth.zeroed virt (by
        rw [loop.all complete]
        exact (pages virt).mpr ⟨page.aligned, low, high⟩)
      exact ⟨frame, reached, zero⟩
    refine ⟨⟨loop.growth.tables, bounds.start, bounds.start_le accepted, user, bounds.limit⟩, ⟨total, ?_⟩, added⟩
    intro virt page low high
    by_cases old : virt < s.proc.heapEnd
    · exact still virt page low old
    · obtain ⟨frame, reached, -⟩ := added virt page (BitVec.not_lt.mp old) high
      rw [reached]
      exact Option.some_ne_none frame
  · rw [if_neg complete]
    refine ⟨{ bounds with tables := loop.growth.tables }, ⟨total, still⟩, ?_⟩
    exact fun virt _ low high => absurd high (BitVec.not_lt.mpr low)

end

/-- One call, whatever it asks for, keeps the account if it grows the heap cleanly. -/
theorem brk_conserves (bounds : HeapBounds s) (conserves : Conserves s) (clean : CleanCall s newBreak) :
    Accounts s (brk s newBreak).2 := by
  by_cases accepted : Accepted s newBreak
  · by_cases higher : s.proc.heapEnd < newBreak
    · exact brk_raises bounds accepted conserves higher clean
    · exact brk_lowers bounds accepted conserves (BitVec.not_lt.mp higher)
  · rw [brk_refused accepted]
    exact ⟨bounds, conserves, fun virt _ low high => absurd high (BitVec.not_lt.mpr low)⟩

/-- Calls of `brk`, clean where they grow the heap, between steps of the rest of the kernel
and of the process itself, which leave its tables alone. -/
inductive BrkStep : BrkState → BrkState → Prop where
  | call (s) (newBreak : BitVec 64) (clean : CleanCall s newBreak) : BrkStep s (brk s newBreak).2
  | other (s) (machine : Machine) (kept : KeepsTables (frameOf s.proc.cr3) s.machine machine) :
      BrkStep s { s with machine := machine }

theorem BrkStep.conserves (step : BrkStep s after) (bounds : HeapBounds s) (conserves : Conserves s) :
    HeapBounds after ∧ Conserves after := by
  cases step with
  | call newBreak clean =>
    obtain ⟨kept, still, -⟩ := brk_conserves bounds conserves clean
    exact ⟨kept, still⟩
  | other machine kept =>
    have walks : ∀ virt, userWalk machine.mem (frameOf s.proc.cr3) (indices virt) =
        userWalk s.machine.mem (frameOf s.proc.cr3) (indices virt) :=
      fun virt => kept.userWalk_eq (indices virt) (le_refl 4)
    refine ⟨{ bounds with tables := kept.tables bounds.tables }, ?_, ?_⟩
    · simpa only [mappedIn, walks] using conserves.counted
    · simpa only [walks] using conserves.mapped

/-- From an empty heap on, and in every state that such steps lead to: frames taken and
pages mapped agree, the heap is mapped, and the next clean call adds zeroed pages only. -/
theorem brk_conserves_frames (fresh : FreshHeap start) (run : ReflTransGen BrkStep start s) :
    Conserves s ∧ ∀ newBreak, CleanCall s newBreak → AddsZeros s (brk s newBreak).2 := by
  have account : HeapBounds s ∧ Conserves s := by
    induction run with
    | refl => exact ⟨fresh.bounds, fresh.conserves⟩
    | tail _ step ih => exact step.conserves ih.1 ih.2
  refine ⟨account.2, ?_⟩
  intro newBreak clean
  exact (brk_conserves account.1 account.2 clean).2.2

def smallProcess : BrkState where
  machine := smallMachine
  proc := { cr3 := 0x5000, codeBase := 0x400000, heapStart := 0x8000000, heapEnd := 0x8000000,
            stackTop := 0x7FFFFFFFF000, stackLimit := 0x7FFFFFFFE000 }
  taken := []

theorem smallProcess_fresh : FreshHeap smallProcess where
  bounds := ⟨smallMachine_empty.tables, rfl, Nat.le_refl _, by decide, by decide⟩
  empty := rfl
  unmapped := by
    rw [Set.eq_empty_iff_forall_notMem]
    intro virt mapped
    exact mapped.2.2.2 (smallMachine_empty.userWalk_cons _ _)
  untaken := rfl

/-- A call that adds one page to an empty heap. -/
theorem brk_first_page (bottom : s.proc.heapEnd = userHeapVirtualBase) (room : 0x8001000 < s.proc.stackLimit)
    (nonzero : s.machine.alloc.1 ≠ 0) :
    (brk s 0x8001000).2 = ⟨brkPage s.machine.alloc.2 s.proc.cr3 0x8000000 s.machine.alloc.1,
      { s.proc with heapEnd := 0x8001000 }, s.machine.alloc.1 :: s.taken⟩ := by
  have accepted : Accepted s 0x8001000 := by
    refine ⟨by decide, ?_, by decide, room⟩
    rw [bottom]
    decide
  have higher : s.proc.heapEnd < 0x8001000 := by
    rw [bottom]
    decide
  have pages : pagesBetween (pageUp s.proc.heapEnd) (pageUp 0x8001000) = [0x8000000] := by
    rw [bottom]
    decide
  rw [brk_accepted accepted, if_pos higher, pages, brkGrow_cons, if_neg nonzero]
  rfl

theorem smallProcess_affords : Affords smallMachine 5 0x8000000 ∧ DirectoryBelow smallMachine 5 0x8000000 := by
  constructor
  · rw [Affords]
    decide +kernel
  · intro pd reached
    cases reached

theorem smallProcess_clean : CleanCall smallProcess 0x8001000 := by
  intro _ _
  exact .inr ⟨smallMachine_empty.userWalk_cons _ _, smallProcess_affords.1, smallProcess_affords.2, trivial⟩

theorem brk_conserves_frames_one_page :
    (brk smallProcess 0x8001000).2.taken = [0x1000] ∧ Conserves (brk smallProcess 0x8001000).2 := by
  refine ⟨by decide +kernel, ?_⟩
  exact (brk_conserves_frames smallProcess_fresh (.single (.call smallProcess 0x8001000 smallProcess_clean))).1

def grownMachine : Machine := brkPage smallMachine.alloc.2 0x5000 0x8000000 smallMachine.alloc.1

theorem grownMachine_affords : Affords grownMachine 5 0x8000000 ∧ DirectoryBelow grownMachine 5 0x8000000 := by
  constructor
  · rw [Affords]
    decide +kernel
  · intro pd reached
    cases reached
    decide

/-- Mapping the page once more leaves it the only page mapped. -/
theorem remapped_only_page (low high : BitVec 64) :
    mappedIn (brkPage grownMachine.alloc.2 0x5000 0x8000000 grownMachine.alloc.1).mem 5 low high ⊆ {0x8000000} := by
  intro virt mapped
  have page : UserPage 0x8000000 := ⟨by decide, by decide⟩
  have first : Growth 5 smallMachine grownMachine [0x8000000] :=
    (@brkPage_growth smallMachine 0x8000000 0x5000 smallMachine_empty.tables page smallProcess_affords.1
      smallProcess_affords.2).2
  have second : Growth 5 grownMachine _ [0x8000000] :=
    (@brkPage_growth grownMachine 0x8000000 0x5000 first.tables page grownMachine_affords.1 grownMachine_affords.2).2
  by_contra differs
  have apart : ∀ other ∈ [(0x8000000 : BitVec 64)], indices virt ≠ indices other := by
    intro other member same
    rw [mem_singleton.mp member] at same
    exact differs (indices_injective mapped.1 page same)
  apply mapped.2.2.2
  rw [second.others (indices virt) rfl apart, first.others (indices virt) rfl apart]
  exact smallMachine_empty.userWalk_cons _ _

def raisedProcess : BrkState := ⟨grownMachine, { smallProcess.proc with heapEnd := 0x8001000 }, [0x1000]⟩
def loweredProcess : BrkState := ⟨grownMachine, smallProcess.proc, [0x1000]⟩

/-- Growing by a page, shrinking by it and growing again takes two frames for one page. -/
theorem regrown_page_leaks_frame : ¬ ∀ start s : BrkState, FreshHeap start →
      ReflTransGen (fun s after => ∃ newBreak, after = (brk s newBreak).2) start s →
      Conserves s ∧ ∀ newBreak, AddsZeros s (brk s newBreak).2 := by
  intro claim
  have grown : (brk smallProcess 0x8001000).2 = raisedProcess := brk_first_page rfl (by decide) (by decide +kernel)
  have lowered : (brk raisedProcess 0x8000000).2 = loweredProcess := by
    rfl
  have again : (brk loweredProcess 0x8001000).2 = ⟨brkPage grownMachine.alloc.2 0x5000 0x8000000 grownMachine.alloc.1,
      raisedProcess.proc, [grownMachine.alloc.1, 0x1000]⟩ := brk_first_page rfl (by decide) (by decide +kernel)
  have counted : (mappedIn (brkPage grownMachine.alloc.2 0x5000 0x8000000 grownMachine.alloc.1).mem 5 0x8000000
      0x7FFFFFFFE000).ncard = 2 := (claim smallProcess _ smallProcess_fresh
    (.tail (.tail (.single ⟨0x8001000, grown.symm⟩) ⟨0x8000000, lowered.symm⟩) ⟨0x8001000, again.symm⟩)).1.counted
  have single := Set.ncard_le_ncard (remapped_only_page 0x8000000 0x7FFFFFFFE000) (Set.finite_singleton _)
  rw [Set.ncard_singleton, counted] at single
  exact absurd single (by decide)

end Sirius.Memory
