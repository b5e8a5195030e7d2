import Sirius.Memory.Tables

/-! `process_flush_user_space`: four nested loops that give the pages and the tables of
the user half back. The state keeps the calls of `pmm_free_page` in order. -/
namespace Sirius.Memory
open Support Function List Machine

structure Flush where
  machine : Machine
  freed : List (BitVec 64) := []

namespace Flush

def map (s : Flush) (phys : BitVec 64) (window : Nat) : Flush :=
  { s with machine := s.machine.scratchMap phys window }

def free (s : Flush) (phys : BitVec 64) : Flush where
  machine := { s.machine with pmm := pmmFreePage s.machine.pmm phys }
  freed := s.freed ++ [phys]

end Flush

/-- Bits 5 to 8 of an entry of the upper two levels; the processor keeps its Accessed
bit there. -/
def rs1 (entry : Entry) : BitVec 4 := field 5 4 entry

def flushPt (s : Flush) (ptPhys : BitVec 64) : Flush :=
  allSlots.foldl (fun s l =>
    let pte := s.machine.read 5 l
    if present pte then s.free (addrOf (address pte)) else s) (s.map ptPhys 5)

def flushPd (s : Flush) (pdPhys : BitVec 64) : Flush :=
  allSlots.foldl (fun s k =>
    let s := s.map pdPhys 4
    let pde := s.machine.read 4 k
    if present pde && !pageSizeBit pde then
      let ptPhys := addrOf (address pde)
      (flushPt s ptPhys).free ptPhys
    else if present pde && pageSizeBit pde then s.free (addrOf (address pde))
    else s) s

def flushPdpt (s : Flush) (pdptPhys : BitVec 64) : Flush :=
  allSlots.foldl (fun s j =>
    let s := s.map pdptPhys 3
    let pdpte := s.machine.read 3 j
    if present pdpte && rs1 pdpte == 0 then
      let pdPhys := addrOf (address pdpte)
      (flushPd s pdPhys).free pdPhys
    else s) s

def flushSlot (pml4Phys : BitVec 64) (s : Flush) (i : Fin 512) : Flush :=
  if i = sharedSlot then s
  else
    let s := s.map pml4Phys 2
    let pml4e := s.machine.read 2 i
    if present pml4e then
      let pdptPhys := addrOf (address pml4e)
      let s := (flushPdpt s pdptPhys).free pdptPhys
      { s with machine := s.machine.write 2 i (setField 12 (0 : Frame) (setField 0 0#1 (s.machine.read 2 i))) }
    else s

def processFlushUserSpace (m : Machine) (pml4Phys : BitVec 64) : Int × Flush :=
  if pml4Phys = 0 then (-1, { machine := m })
  else (0, userSlots.foldl (flushSlot pml4Phys) { machine := m })

section
variable (mem : PhysMem) (root : Frame)

variable (levels : Nat) (node : Frame)

/-- The links that the loops follow. -/
def flushEdge (i : Fin 512) : Option Frame :=
  if levels = 3 ∧ i = sharedSlot then none
  else if levels = 2 ∧ rs1 (mem node i) ≠ 0 then none
  else userEdge mem root node i

def flushed : Nat → Frame → List Frame :=
  postorder (flushEdge mem root) allSlots

/-- The frames freed for one slot of a table. -/
def flushedSlot : Nat → Frame → Fin 512 → List Frame :=
  visits (flushEdge mem root) allSlots

theorem flushed_succ : flushed mem root (levels + 1) node = allSlots.flatMap (flushedSlot mem root levels node) :=
  postorder_succ _ _ _ _

theorem flushedSlot_eq (i : Fin 512) :
    flushedSlot mem root levels node i = match flushEdge mem root levels node i with
      | none => []
      | some next => flushed mem root levels next ++ [next] := by
  rw [flushedSlot, visits]
  cases flushEdge mem root levels node i <;> rfl

end

variable {mem : PhysMem} {root node frame : Frame} {path : List (Fin 512)} {s next last : Flush}
  {frames more : List Frame}

/-- What a loop did: it freed these frames in this order, and nothing else changed but
the windows of its own level and below. -/
structure Frees (s next : Flush) (frames : List Frame) : Prop where
  mem : next.machine.mem = s.machine.mem
  window : next.machine.windows 2 = s.machine.windows 2
  freed : next.freed = s.freed ++ frames.map addrOf
  pmm : next.machine.pmm = (frames.map addrOf).foldl pmmFreePage s.machine.pmm

namespace Frees

theorem refl (s : Flush) : Frees s s [] :=
  ⟨rfl, rfl, by rw [map_nil, append_nil], rfl⟩

theorem trans (first : Frees s next frames) (second : Frees next last more) : Frees s last (frames ++ more) := by
  constructor
  · rw [second.mem, first.mem]
  · rw [second.window, first.window]
  · rw [second.freed, first.freed, map_append, append_assoc]
  · rw [second.pmm, first.pmm, map_append, foldl_append]

theorem map (s : Flush) (phys : BitVec 64) (other : slot ≠ 2) : Frees s (s.map phys slot) [] := by
  refine ⟨rfl, update_of_ne other.symm _ _, ?_, rfl⟩
  rw [map_nil, append_nil]
  rfl

theorem free (s : Flush) (frame : Frame) : Frees s (s.free (addrOf frame)) [frame] := by
  constructor <;> simp [Flush.free, foldl_cons, foldl_nil]

theorem foldl (inv : Flush → Prop)
    (body : ∀ s i, inv s → Frees s (step s i) (branch i) ∧ inv (step s i)) (slots : List (Fin 512))
    (holds : inv s) : Frees s (slots.foldl step s) (slots.flatMap branch) := by
  induction slots generalizing s with
  | nil => exact refl s
  | cons i rest ih =>
    obtain ⟨now, kept⟩ := body s i holds
    exact now.trans (ih kept)

end Frees

/-- The tables below the root are as they were when the flush began. -/
def Agrees (mem : PhysMem) (root : Frame) (s : Flush) : Prop :=
  ∀ frame, frame ≠ root → s.machine.mem frame = mem frame

theorem Agrees.frees (agrees : Agrees mem root s) (done : Frees s next frames) : Agrees mem root next := by
  intro frame apart
  rw [done.mem, agrees frame apart]

section
variable (tree : UserTree mem root)
include tree

section
variable (agrees : Agrees mem root s) (reached : userWalk mem root path = some node)
include agrees reached

theorem flushPt_frees (three : path.length = 3) : Frees s (flushPt s (addrOf node)) (flushed mem root 1 node) := by
  have proper := ne_nil_of_length_eq_add_one three
  have apart := tree.ne_root reached (by omega) proper
  rw [flushed_succ, ← nil_append (List.flatMap _ _)]
  refine (Frees.map s (addrOf node) (show 5 ≠ 2 by decide)).trans ?_
  refine Frees.foldl (fun s => s.machine.windows 5 = node ∧ s.machine.mem node = mem node) ?_ _ ?_
  · rintro s l ⟨window, same⟩
    have link : flushEdge mem root 0 node l = edge mem node l := tree.userEdge_eq reached (by omega) proper l
    simp only [Machine.read, window, same, flushedSlot_eq, link, edge]
    cases present (mem node l) with
    | false => exact ⟨Frees.refl s, window, same⟩
    | true => exact ⟨Frees.free s _, window, same⟩
  · constructor
    · simp [Flush.map, scratchMap, frameOf_addrOf]
    · exact agrees node apart

theorem flushPd_frees (two : path.length = 2) : Frees s (flushPd s (addrOf node)) (flushed mem root 2 node) := by
  have proper := ne_nil_of_length_eq_add_one two
  have apart := tree.ne_root reached (by omega) proper
  refine Frees.foldl (Agrees mem root) ?_ _ agrees
  intro s k agrees
  have link : flushEdge mem root 1 node k = edge mem node k := tree.userEdge_eq reached (by omega) proper k
  have read : (s.map (addrOf node) 4).machine.read 4 k = mem node k := by
    simp [Flush.map, Machine.read, Machine.scratchMap, frameOf_addrOf, agrees node apart]
  have mapped := Frees.map s (addrOf node) (show 4 ≠ 2 by decide)
  simp only [read, link, edge]
  cases here : present (mem node k) with
  | false => exact ⟨mapped, agrees.frees mapped⟩
  | true =>
    have down : userWalk mem root (path ++ [k]) = some (address (mem node k)) := by
      rw [userWalk, walk_concat reached, tree.userEdge_eq reached (by omega) proper, edge, here]
      rfl
    have below := flushPt_frees tree (agrees.frees mapped) down (by simp [two])
    have all := mapped.trans (below.trans (Frees.free _ (address (mem node k))))
    simp only [tree.small path node k two reached here, Bool.not_false, Bool.and_self, if_true]
    exact ⟨all, agrees.frees all⟩

theorem flushPdpt_frees (one : path.length = 1) : Frees s (flushPdpt s (addrOf node)) (flushed mem root 3 node) := by
  have proper := ne_nil_of_length_eq_add_one one
  have apart := tree.ne_root reached (by omega) proper
  refine Frees.foldl (Agrees mem root) ?_ _ agrees
  intro s j agrees
  have plain := tree.userEdge_eq reached (by omega) proper j
  have read : (s.map (addrOf node) 3).machine.read 3 j = mem node j := by
    simp [Flush.map, Machine.read, Machine.scratchMap, frameOf_addrOf, agrees node apart]
  have mapped := Frees.map s (addrOf node) (show 3 ≠ 2 by decide)
  have followed : flushEdge mem root 2 node j =
      if present (mem node j) && rs1 (mem node j) == 0 then some (address (mem node j)) else none := by
    rw [flushEdge, if_neg (by simp), plain, edge]
    by_cases clean : rs1 (mem node j) = 0
    · rw [clean]
      simp
    · rw [if_pos ⟨rfl, clean⟩, beq_false_of_ne clean, Bool.and_false]
      rfl
  simp only [read, followed]
  cases taken : present (mem node j) && rs1 (mem node j) == 0 with
  | false => exact ⟨mapped, agrees.frees mapped⟩
  | true =>
    have here : present (mem node j) = true := (Bool.and_eq_true_iff.mp taken).1
    have down : userWalk mem root (path ++ [j]) = some (address (mem node j)) := by
      rw [userWalk, walk_concat reached, plain, edge, here]
      rfl
    have below := flushPd_frees tree (agrees.frees mapped) down (by simp [one])
    have all := mapped.trans (below.trans (Frees.free _ (address (mem node j))))
    exact ⟨all, agrees.frees all⟩

end

end

structure Unlinks (root : Frame) (s next : Flush) (slots : List (Fin 512)) (frames : List Frame) : Prop where
  tables : ∀ frame, frame ≠ root → next.machine.mem frame = s.machine.mem frame
  others : ∀ i, i ∉ slots ∨ i = sharedSlot → next.machine.mem root i = s.machine.mem root i
  gone : ∀ i ∈ slots, i ≠ sharedSlot → present (next.machine.mem root i) = false
  freed : next.freed = s.freed ++ frames.map addrOf
  pmm : next.machine.pmm = (frames.map addrOf).foldl pmmFreePage s.machine.pmm

theorem Unlinks.refl (root : Frame) (s : Flush) : Unlinks root s s [] [] where
  tables := fun _ _ => rfl
  others := fun _ _ => rfl
  gone := fun _ inside => nomatch inside
  freed := (append_nil _).symm
  pmm := rfl

theorem Unlinks.cons (first : Unlinks root s next [i] frames) (second : Unlinks root next last slots more)
    (fresh : i ∉ slots) : Unlinks root s last (i :: slots) (frames ++ more) := by
  constructor
  · intro frame apart
    rw [second.tables frame apart, first.tables frame apart]
  · intro j outside
    rw [second.others j, first.others j]
    · exact outside.imp_left fun absent single => absent (by rw [mem_singleton.mp single]; exact .head _)
    · exact outside.imp_left fun absent inside => absent (.tail _ inside)
  · intro j inside unshared
    cases inside with
    | head => rw [second.others i (.inl fresh), first.gone i (.head _) unshared]
    | tail _ later => exact second.gone j later unshared
  · rw [second.freed, first.freed, map_append, append_assoc]
  · rw [second.pmm, first.pmm, map_append, foldl_append]

section
variable (tree : UserTree mem root)
include tree

theorem flushSlot_unlinks (agrees : Agrees mem root s) (same : s.machine.mem root i = mem root i)
    (user : i.val < 256) :
    Unlinks root s (flushSlot (addrOf root) s i) [i] (flushedSlot mem root 3 root i) := by
  rw [flushSlot, flushedSlot_eq, flushEdge]
  by_cases shared : i = sharedSlot
  · rw [if_pos shared, if_pos ⟨rfl, shared⟩]
    exact {
      tables := fun _ _ => rfl
      others := fun _ _ => rfl
      gone := fun j inside unshared => absurd ((mem_singleton.mp inside).trans shared) unshared
      freed := (append_nil _).symm
      pmm := rfl }
  · have low : ¬ (root = root ∧ 256 ≤ i.val) := by omega
    have read : (s.map (addrOf root) 2).machine.read 2 i = mem root i := by
      simp [Flush.map, Machine.read, Machine.scratchMap, frameOf_addrOf, same]
    have link : userEdge mem root root i = edge mem root i := if_neg low
    simp only [shared, and_false, if_false, link, read, edge, Nat.reduceEqDiff, false_and]
    cases here : present (mem root i) with
    | false =>
      refine ⟨fun _ _ => rfl, fun _ _ => rfl, ?_, (append_nil _).symm, rfl⟩
      intro j inside _
      rw [mem_singleton.mp inside]
      exact (congrArg present same).trans here
    | true =>
      have down : userWalk mem root [i] = some (address (mem root i)) := by
        rw [userWalk, walk, link, edge, here]
        rfl
      have mapped : Agrees mem root (s.map (addrOf root) 2) := agrees
      have below := (flushPdpt_frees tree mapped down rfl).trans (Frees.free _ (address (mem root i)))
      have window : (s.map (addrOf root) 2).machine.windows 2 = root := by
        simp only [Flush.map, scratchMap, update_self, frameOf_addrOf]
      simp only [if_true]
      generalize (flushPdpt (s.map (addrOf root) 2) (addrOf (address (mem root i)))).free
        (addrOf (address (mem root i))) = after at below
      have here2 : after.machine.windows 2 = root := below.window.trans window
      constructor
      · intro frame apart
        simp only [write, PhysMem.write, here2, update_of_ne apart, below.mem]
        rfl
      · intro j outside
        have differ : j ≠ i := by
          rintro rfl
          cases outside with
          | inl absent => exact absent (.head _)
          | inr same => exact shared same
        simp only [write, PhysMem.write, here2, update_self, update_of_ne differ, below.mem]
        rfl
      · intro j inside _
        rw [mem_singleton.mp inside]
        simp only [write, PhysMem.write, here2, update_self, present_setField_address, present_setField_present]
        rfl
      · exact below.freed
      · exact below.pmm

theorem flushSlots_unlinks (slots : List (Fin 512)) (distinct : slots.Nodup) (agrees : Agrees mem root s)
    (same : ∀ i ∈ slots, s.machine.mem root i = mem root i) (user : ∀ i ∈ slots, i.val < 256) :
    Unlinks root s (slots.foldl (flushSlot (addrOf root)) s) slots
      (slots.flatMap (flushedSlot mem root 3 root)) := by
  induction slots generalizing s with
  | nil => exact Unlinks.refl root s
  | cons i rest ih =>
    obtain ⟨fresh, apart⟩ := nodup_cons.mp distinct
    have first := flushSlot_unlinks tree agrees (same i (.head _)) (user i (.head _))
    refine first.cons (ih apart ?_ ?_ fun j inside => user j (.tail _ inside)) fresh
    · intro frame differ
      rw [first.tables frame differ, agrees frame differ]
    intro j inside
    rw [first.others j, same j (.tail _ inside)]
    refine .inl fun single => fresh ?_
    rw [← mem_singleton.mp single]
    exact inside

end

end Sirius.Memory
