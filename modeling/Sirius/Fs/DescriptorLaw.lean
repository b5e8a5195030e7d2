import Sirius.Fs.Descriptors

/-! The counts of the files are right in every run in which no process goes on after its
exit and no fork that shares files fails for want of a thread. -/
namespace Sirius.Fs
open Support Sched Relation Function List Finset Counted
open Descriptors hiding count slots

/-- The counts are right for the slots given, which may go beyond those of the processes. -/
def CountedIn (slots : Finset Slot) (s : Descriptors) : Prop := Counted slots s.table s.count s.live

section Frames
variable (s : Descriptors)

section
variable (file : FileAddr)

@[simp] theorem dropReference_table : (dropReference s file).table = s.table := by
  simp only [dropReference]
  split <;> rfl

@[simp] theorem dropReference_alive : (dropReference s file).alive = s.alive := by
  simp only [dropReference]
  split <;> rfl

@[simp] theorem dropReference_files :
    (dropReference s file).files = update s.files file { s.files file with refCount := (s.files file).refCount - 1 } := by
  simp only [dropReference]
  split <;> rfl

theorem dropReference_live :
    (dropReference s file).live = if (s.files file).refCount - 1 = 0 then s.live.erase file else s.live := by
  simp only [dropReference, setCount, update_self]
  split <;> rfl

theorem setCount_self (count : BitVec 32) : (s.setCount file count).count file = count.toNat := by
  simp [Descriptors.count, setCount]

end

theorem setCount_of_ne (count : BitVec 32) (other : x ≠ file) : (s.setCount file count).count x = s.count x := by
  simp only [Descriptors.count, setCount, update_of_ne other]

end Frames

theorem mem_slots {s : Descriptors} {slot : Slot} : slot ∈ s.slots ↔ slot.1 ∈ s.alive := by
  rw [Descriptors.slots, Finset.mem_product]
  exact ⟨fun both => both.1, fun member => ⟨member, Finset.mem_univ _⟩⟩

theorem card_slots (procs : Finset Pcb) :
    (procs ×ˢ (univ : Finset (Fin maxFilesPerProcess))).card = maxFilesPerProcess * procs.card := by
  rw [card_product, card_univ, Fintype.card_fin, Nat.mul_comm]

namespace CountedIn
variable {s : Descriptors} {slots : Finset Slot}

/-- A slot is cleared. -/
theorem release (counted : CountedIn slots s) (member : slot ∈ slots) (full : s.table slot = some file) :
    CountedIn slots ((dropReference s file).setSlot slot none) := by
  have alive := points counted member full
  have positive : 0 < s.count file := by
    rw [counts counted file alive]
    exact (held counted file).mp alive
  have lower : (dropReference s file).count file = ((s.files file).refCount - 1).toNat := by
    rw [Descriptors.count, dropReference_files, update_self]
  have less : (dropReference s file).count file + 1 = s.count file := by
    rw [lower]
    simp only [Descriptors.count] at positive ⊢
    bv_omega
  have others : ∀ x, x ≠ file → (dropReference s file).count x = s.count x := by
    intro x other
    rw [Descriptors.count, dropReference_files, update_of_ne other, Descriptors.count]
  have gone : ((dropReference s file).count file = 0) = ((s.files file).refCount - 1 = 0) := by
    rw [lower, BitVec.toNat_eq]
    rfl
  have cleared := clear counted member others full less
  simp only [gone, ← dropReference_live, ← dropReference_table s file] at cleared
  exact cleared

/-- A slot that was empty is filled; the count has room, as there is a slot that does not
refer to the file. -/
theorem acquire (counted : CountedIn slots s) (member : slot ∈ slots) (empty : s.table slot = none) (alive : file ∈ s.live)
    (room : slots.card < 2 ^ 32) :
    CountedIn slots ((s.setSlot slot (some file)).setCount file ((s.files file).refCount + 1)) := by
  have below : s.count file < slots.card := by
    rw [counts counted file alive]
    exact references_lt member (by rw [empty]; nofun)
  refine assign counted member (fun x other => setCount_of_ne (s.setSlot slot (some file)) _ other) empty alive ?_
  rw [setCount_self]
  simp only [Descriptors.count] at below ⊢
  bv_omega

theorem destroyFile (counted : CountedIn slots s) (p : Pcb) (i : Fin maxFilesPerProcess) (member : (p, i) ∈ slots) :
    CountedIn slots (destroyFile p s i) := by
  rw [Fs.destroyFile]
  split
  · exact counted
  next file full => exact counted.release member full

end CountedIn

/-- Slots are cleared and not filled, and the slots of the list end up empty. -/
theorem destroyFiles_spec (counted : CountedIn slots s) (p : Pcb) (indices : List (Fin maxFilesPerProcess))
    (members : ∀ i, (p, i) ∈ slots) :
    let after := indices.foldl (destroyFile p) s
    CountedIn slots after ∧ after.alive = s.alive ∧ (∀ slot, s.table slot = none → after.table slot = none) ∧
      ∀ i ∈ indices, after.table (p, i) = none := by
  induction indices generalizing s with
  | nil => exact ⟨counted, rfl, fun _ empty => empty, nofun⟩
  | cons i rest ih =>
    obtain ⟨done, alive, kept, cleared⟩ := ih (counted.destroyFile p i (members i))
    have effect : (destroyFile p s i).alive = s.alive ∧ (destroyFile p s i).table = update s.table (p, i) none := by
      rw [destroyFile]
      split
      next empty => exact ⟨rfl, by rw [← empty, update_eq_self]⟩
      next file full => exact ⟨dropReference_alive s file, by rw [setSlot, dropReference_table]⟩
    obtain ⟨sameAlive, sameTable⟩ := effect
    refine ⟨done, alive.trans sameAlive, fun slot empty => kept slot ?_, fun j listed => ?_⟩
    · rw [sameTable]
      by_cases here : slot = (p, i)
      · rw [here, update_self]
      · rw [update_of_ne here, empty]
    · rcases mem_cons.mp listed with rfl | later
      · exact kept _ (by rw [sameTable, update_self])
      · exact cleared j later

/-- The files of the parent are referred to once more each, in slots that were empty. -/
theorem copyFiles_spec (counted : CountedIn slots s) (parent child : Pcb)
    (indices : List (Fin maxFilesPerProcess)) (once : indices.Nodup) (empty : ∀ i ∈ indices, s.table (child, i) = none)
    (parents : ∀ i, (parent, i) ∈ slots) (children : ∀ i, (child, i) ∈ slots) (room : slots.card < 2 ^ 32) :
    let after := indices.foldl (copyFile parent child) s
    CountedIn slots after ∧ after.alive = s.alive := by
  induction indices generalizing s with
  | nil => exact ⟨counted, rfl⟩
  | cons i rest ih =>
    have first := empty i mem_cons_self
    obtain ⟨fresh, restOnce⟩ := nodup_cons.mp once
    rw [foldl_cons]
    cases full : s.table (parent, i) with
    | none =>
      have same : copyFile parent child s i = s := by rw [copyFile, full]
      rw [same]
      exact ih counted restOnce (fun j listed => empty j (mem_cons_of_mem _ listed))
    | some file =>
      have copied : copyFile parent child s i =
          (s.setSlot (child, i) (some file)).setCount file ((s.files file).refCount + 1) := by
        rw [copyFile, full]
        rfl
      rw [copied]
      have alive := points counted (parents i) full
      refine ih (counted.acquire (children i) first alive room) restOnce fun j listed => ?_
      have other : (child, j) ≠ (child, i) := by
        rintro ⟨⟩
        exact fresh listed
      exact (update_of_ne other _ _).trans (empty j (mem_cons_of_mem _ listed))

theorem copyFiles_of_empty (empty : ∀ i, s.table (parent, i) = none) : copyFiles s parent child = s := by
  have same : ∀ i, copyFile parent child s i = s := by
    intro i
    rw [copyFile, empty]
  exact foldl_fixed' same _

namespace CountedIn
variable {s : Descriptors}

section
variable (counted : CountedIn s.slots s)
include counted

theorem sysOpen (calls : p ∈ s.alive) (flags : BitVec 32) (node : Option NodeAddr) (fresh : ∀ f, block = some f → f ∉ s.live) :
    CountedIn (sysOpen s p flags node block).2.slots (sysOpen s p flags node block).2 := by
  cases node with
  | none => exact counted
  | some node =>
    rw [Fs.sysOpen]
    split
    · exact counted
    next fd found =>
      cases block with
      | none => exact counted
      | some file =>
        have empty := of_decide_eq_true (List.find?_some found :)
        refine Counted.fresh counted (mem_slots.mpr calls) (fun x other => ?_) empty (fresh file rfl) ?_
        · rw [setCount_of_ne _ _ other]
          simp only [Descriptors.count, setSlot, update_of_ne other]
        · rw [setCount_self]
          simp only [setSlot, update_self]
          rfl

theorem sysClose (calls : p ∈ s.alive) (fd : Int) : CountedIn (sysClose s p fd).2.slots (sysClose s p fd).2 := by
  rw [Fs.sysClose]
  split
  · exact counted
  next i _ =>
    split
    · exact counted
    next file full =>
      have released := counted.release (mem_slots.mpr calls) full
      rwa [Descriptors.slots, ← dropReference_alive s file] at released

theorem kDup2 (calls : p ∈ s.alive) (room : s.slots.card < 2 ^ 32) (oldfd newfd : Int) :
    CountedIn (kDup2 s p oldfd newfd).2.slots (kDup2 s p oldfd newfd).2 := by
  rw [Fs.kDup2]
  split
  next old new _ _ =>
    split
    · split <;> exact counted
    next different =>
      split
      · exact counted
      next oldFile full =>
        have apart : (p, old) ≠ (p, new) := fun same => different (Prod.mk.inj same).2
        -- after the old file of the slot is gone, as after nothing, the slot is empty
        have target : ∀ s' : Descriptors, CountedIn s.slots s' → s'.alive = s.alive → s'.table (p, new) = none →
            s'.table (p, old) = some oldFile →
            let after := (s'.setSlot (p, new) (some oldFile)).setCount oldFile ((s'.files oldFile).refCount + 1)
            CountedIn after.slots after := by
          intro s' counted' alive empty held after
          have live := points counted' (mem_slots.mpr calls) held
          have acquired := counted'.acquire (mem_slots.mpr calls) empty live room
          rwa [Descriptors.slots, ← alive] at acquired
        split
        next empty => exact target s counted rfl empty full
        next file taken =>
          refine target _ (counted.release (mem_slots.mpr calls) taken) (dropReference_alive s file) (update_self ..) ?_
          rw [setSlot, dropReference_table]
          exact (update_of_ne apart _ _).trans full
  · exact counted

theorem exitDescriptors (calls : p ∈ s.alive) : CountedIn (exitDescriptors s p).slots (exitDescriptors s p) := by
  obtain ⟨destroyed, alive, -, cleared⟩ :=
    destroyFiles_spec counted p (List.finRange maxFilesPerProcess) fun _ => mem_slots.mpr calls
  have smaller : (Fs.exitDescriptors s p).alive = s.alive.erase p := congrArg (erase · p) alive
  refine of_references destroyed fun o => (references_enlarge (fun slot member => ?_) (fun slot member outside => ?_) o).symm
  · rw [mem_slots, smaller] at member
    exact mem_slots.mpr (mem_of_mem_erase member)
  rw [mem_slots] at member
  rw [mem_slots, smaller, mem_erase] at outside
  obtain ⟨q, i⟩ := slot
  obtain rfl : q = p := by
    by_contra other
    exact outside ⟨other, member⟩
  exact cleared i (mem_finRange i)

/-- The table of a control block that no process has may be cleared. -/
theorem clearTable (unused : child ∉ s.alive) : CountedIn s.slots (clearTable s child) := by
  refine of_references counted (references_congr fun slot member => if_neg ?_)
  rintro rfl
  exact unused (mem_slots.mp member)

/-- The slots of a new process, all empty, are counted with the others. -/
theorem enlarge (empty : ∀ i, s.table (child, i) = none) : CountedIn (insert child s.alive ×ˢ Finset.univ) s := by
  refine of_references counted (references_enlarge (fun slot member => ?_) fun slot member outside => ?_)
  · exact mem_product.mpr ⟨mem_insert_of_mem (mem_slots.mp member), mem_univ _⟩
  · obtain ⟨q, i⟩ := slot
    rcases mem_insert.mp (mem_product.mp member).1 with rfl | old
    · exact empty i
    · exact absurd (mem_slots.mpr old) outside

theorem cloneDescriptors (calls : p ∈ s.alive) (room : maxFilesPerProcess * (s.alive.card + 1) < 2 ^ 32)
    (fresh : ∀ child, grants.pcb = some child → child ∉ s.procs)
    (clean : flags &&& cloneVm = 0 → flags &&& cloneFiles ≠ 0 → grants.pcb ≠ none → grants.space = true →
      grants.tcb = none → ∀ i, s.table (p, i) = none) :
    CountedIn (cloneDescriptors s p flags grants).slots (cloneDescriptors s p flags grants) := by
  obtain ⟨pcb, space, tcb⟩ := grants
  rw [Fs.cloneDescriptors]
  by_cases shares : flags &&& cloneVm ≠ 0
  · rw [if_pos shares]
    cases tcb <;> exact counted
  rw [if_neg shares]
  cases pcb with
  | none => exact counted
  | some child =>
    have unused : child ∉ s.alive := fun member => fresh child rfl (s.used member)
    have apart : p ≠ child := by
      rintro rfl
      exact unused calls
    have cleared := counted.clearTable unused
    have empty : ∀ i, (Fs.clearTable s child).table (child, i) = none := fun i => if_pos rfl
    have enlarged := CountedIn.enlarge (s := Fs.clearTable s child) cleared empty
    have bound : (insert child s.alive ×ˢ (univ : Finset (Fin maxFilesPerProcess))).card < 2 ^ 32 := by
      rw [card_slots, card_insert_of_notMem unused]
      exact room
    cases space with
    | false => exact cleared
    | true =>
      cases tcb with
      | none =>
        dsimp only
        rw [childTable]
        split
        next files =>
          -- the table of the parent is empty, so that nothing has been copied
          have nothing := clean (not_not.mp shares) files nofun rfl rfl
          have parents : ∀ i, (Fs.clearTable s child).table (p, i) = none := fun i => (if_neg apart).trans (nothing i)
          rw [copyFiles_of_empty parents]
          exact cleared
        next => exact cleared
      | some t =>
        have made : CountedIn (insert child s.alive ×ˢ univ) (childTable s p child flags) ∧
            (childTable s p child flags).alive = s.alive := by
          rw [childTable]
          split
          · exact copyFiles_spec enlarged p child (List.finRange maxFilesPerProcess) (nodup_finRange _)
              (fun i _ => empty i) (fun i => mem_product.mpr ⟨mem_insert_of_mem calls, mem_univ _⟩)
              (fun i => mem_product.mpr ⟨mem_insert_self _ _, mem_univ _⟩) bound
          · exact ⟨enlarged, rfl⟩
        obtain ⟨counts, alive⟩ := made
        have slots : (startTable (childTable s p child flags) child).slots = insert child s.alive ×ˢ univ :=
          congrArg (fun procs => insert child procs ×ˢ univ) alive
        rw [slots]
        exact counts

end

end CountedIn

theorem FileCall.apply_counted (call : FileCall) (counted : CountedIn s.slots s) (possible : call.Possible s)
    (clean : call.Clean s) : CountedIn (call.apply s).slots (call.apply s) := by
  obtain ⟨-, -, fresh⟩ := possible
  obtain ⟨calls, room, sound⟩ := clean
  have few : s.slots.card < 2 ^ 32 := by
    rw [Descriptors.slots, card_slots]
    exact lt_of_le_of_lt (Nat.mul_le_mul_left _ (Nat.le_succ _)) room
  cases call with
  | «open» p flags node block => exact counted.sysOpen calls flags node fresh
  | close p fd => exact counted.sysClose calls fd
  | dup2 p oldfd newfd => exact counted.kDup2 calls few oldfd newfd
  | clone p flags grants => exact counted.cloneDescriptors calls room fresh sound
  | exit p => exact counted.exitDescriptors calls

theorem exact_iff_counted : Exact s ↔ CountedIn s.slots s := by
  constructor
  · intro exact
    refine ⟨exact.counts, fun f => ⟨exact.held f, fun positive => ?_⟩⟩
    obtain ⟨slot, member, full⟩ := references_pos.mp positive
    exact exact.points slot member f full
  · intro counted
    exact ⟨counted.counts, fun slot member f full => points counted member full, fun f live => (counted.held f).mp live⟩

/-- The counts stay right, and a file is freed in the step that clears its last slot. -/
theorem ref_counts_are_exact (start : Descriptors) (begins : Exact start) (run : ReflTransGen CleanFileStep start s) :
    Exact s ∧ ∀ s', CleanFileStep s s' → ∀ f ∈ s.live, f ∉ s'.live ↔ references s'.slots s'.table f = 0 := by
  have step : ∀ {a b : Descriptors}, CleanFileStep a b → CountedIn a.slots a → CountedIn b.slots b := by
    rintro a b ⟨call, possible, clean, rfl⟩ counted
    exact call.apply_counted counted possible clean
  have counted : CountedIn s.slots s := by
    induction run with
    | refl => exact exact_iff_counted.mp begins
    | tail _ last ih => exact step last ih
  refine ⟨exact_iff_counted.mpr counted, fun s' next f _ => ?_⟩
  rw [held (step next counted), Nat.pos_iff_ne_zero, not_not]

def oneTable : Descriptors where
  files := fun _ => { node := 0, offset := 0, flags := 0, fdFlags := 0, refCount := 0 }
  live := ∅
  table := fun _ => none
  procs := {1}
  alive := {1}
  threads := fun p => if p = 1 then 1 else 0
  closed := []
  used := Finset.Subset.refl _

theorem oneTable_exact : Exact oneTable := ⟨nofun, nofun, nofun⟩

def sharesFile : List FileCall :=
  [.open 1 0 (some 5) (some 8), .clone 1 cloneFiles { pcb := some 2, space := true, tcb := some 3 }]

theorem sharesFile_possible : AllMeet FileCall.apply (fun call s => call.Possible s ∧ call.Clean s) sharesFile oneTable := by
  refine ⟨⟨⟨by decide, by decide, fun f _ => ?_⟩, by decide, by decide, trivial⟩, ⟨⟨by decide, by decide, fun child given => ?_⟩,
    by decide, by decide, fun _ _ _ _ => nofun⟩, trivial⟩
  · exact notMem_empty f
  · cases given
    decide

theorem ref_counts_are_exact_shared :
    Exact oneTable ∧ ∃ s, ReflTransGen CleanFileStep oneTable s ∧ Exact s ∧ s.live = {8} ∧ s.count 8 = 2 := by
  have run : ReflTransGen CleanFileStep oneTable (runAll FileCall.apply sharesFile oneTable) := sharesFile_possible.run_both
  exact ⟨oneTable_exact, _, run, (ref_counts_are_exact oneTable oneTable_exact run).1, by decide +kernel, by decide +kernel⟩

/-- The process opens a file, and its fork with `CLONE_FILES` gets no thread. -/
def forkWithoutThread : List FileCall :=
  [.open 1 0 (some 5) (some 8), .clone 1 cloneFiles { pcb := some 2, space := true, tcb := none }]

/-- The count of the file is two, though only one slot points to it. -/
theorem failed_clone_keeps_reference : Exact oneTable ∧ ∃ s, ReflTransGen FileStep oneTable s ∧ ¬ Exact s := by
  have meet : AllMeet FileCall.apply FileCall.Possible forkWithoutThread oneTable := by
    refine ⟨⟨by decide, by decide, fun f _ => notMem_empty f⟩, ⟨by decide, by decide, fun child given => ?_⟩, trivial⟩
    cases given
    decide
  refine ⟨oneTable_exact, _, meet.run, fun exact => ?_⟩
  have counted := exact.counts 8 (by decide +kernel)
  revert counted
  decide +kernel

end Sirius.Fs
