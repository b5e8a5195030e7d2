import Sirius.Memory.CloneAddressSpace

/-! What a loop of the clone makes of a table: a deep copy in pages that were free. The
copy is described together with the list of its pages in the order of their allocation,
so that distinct places have distinct pages as soon as the list has no duplicates. -/
namespace Sirius.Memory
open Support Function List PhysMem
open Machine hiding clear copy mem pmm read scratchMap write

/-- An entry, its copy and the pages of the copy; a missing entry is copied as 0. -/
def SlotCopied (below : Frame → Frame → List Frame → Prop) (entry copy : Entry) (frames : List Frame) : Prop :=
  if present entry then
    ∃ frame rest, frames = frame :: rest ∧ copy = setField 12 frame entry ∧ below (address entry) frame rest
  else frames = [] ∧ copy = 0

/-- With so many levels of tables above the data, `copy` is a copy of `table` in `after`
as it was in `mem`. -/
def Copied (mem after : PhysMem) : Nat → Frame → Frame → List Frame → Prop
  | 0, page, copy, frames => after copy = mem page ∧ frames = []
  | levels + 1, table, copy, frames =>
    ∃ parts : Fin 512 → List Frame, frames = allSlots.flatMap parts ∧
      ∀ i, SlotCopied (Copied mem after levels) (mem table i) (after copy i) (parts i)

variable {mem after later : PhysMem} {level levels : Nat} {table copy : Frame} {frames : List Frame}
  {inner : Machine → Fin 512 → Cloning}
  {slots rest : List (Fin 512)} {i : Fin 512} {m next last : Machine} {parts more : Fin 512 → List Frame}

theorem SlotCopied.imp (copied : SlotCopied below entry target frames)
    (step : ∀ a frame rest, frames = frame :: rest → below a frame rest → deeper a frame rest) :
    SlotCopied deeper entry target frames := by
  unfold SlotCopied at *
  split
  case isTrue here =>
    rw [if_pos here] at copied
    obtain ⟨frame, rest, split, value, down⟩ := copied
    exact ⟨frame, rest, split, value, step _ _ _ split down⟩
  case isFalse absent =>
    rw [if_neg absent] at copied
    exact copied

/-- A copy stays one as long as its pages are left alone. -/
theorem Copied.congr (copied : Copied mem after levels table copy frames) (root : later copy = after copy)
    (same : ∀ frame ∈ frames, later frame = after frame) : Copied mem later levels table copy frames := by
  induction levels generalizing table copy frames with
  | zero => exact ⟨root.trans copied.1, copied.2⟩
  | succ levels ih =>
    obtain ⟨parts, split, slots⟩ := copied
    refine ⟨parts, split, ?_⟩
    intro i
    rw [root]
    apply (slots i).imp
    intro a frame rest part down
    have inside : ∀ f ∈ parts i, f ∈ frames := by
      intro f member
      rw [split]
      exact mem_flatMap.mpr ⟨i, mem_allSlots i, member⟩
    rw [part] at inside
    exact ih down (same frame (inside frame (.head _))) fun f member => same f (inside f (.tail _ member))

/-- The tables and pages to be read: as they were at the start, taken, and not the table
that is written. -/
def Source (mem : PhysMem) (levels : Nat) (copy : Frame) (m : Machine) (node : Frame) : Prop :=
  ∀ path frame, path.length ≤ levels → walk (edge mem) node path = some frame →
    m.mem frame = mem frame ∧ m.pmm.InUse frame ∧ frame ≠ copy

/-- The state in which a loop over some slots starts. -/
structure Cloneable (mem : PhysMem) (level levels : Nat) (table copy : Frame) (slots : List (Fin 512))
    (m : Machine) : Prop where
  parentWindow : m.windows (2 * level) = table
  childWindow : m.windows (2 * level + 1) = copy
  unchanged : m.mem table = mem table
  tableUsed : m.pmm.InUse table
  copyUsed : m.pmm.InUse copy
  apart : table ≠ copy
  blank : ∀ i ∈ slots, m.mem copy i = 0
  source : ∀ i ∈ slots, present (mem table i) = true → Source mem levels copy m (address (mem table i))

structure Cloned (mem : PhysMem) (level levels : Nat) (table copy : Frame) (slots : List (Fin 512))
    (parts : Fin 512 → List Frame) (m next : Machine) : Prop where
  windows : ∀ w < 2 * level + 2, next.windows w = m.windows w
  used : ∀ frame, next.pmm.InUse frame ↔ frame ∈ slots.flatMap parts ∨ m.pmm.InUse frame
  fresh : ∀ frame ∈ slots.flatMap parts, ¬ m.pmm.InUse frame
  distinct : (slots.flatMap parts).Nodup
  kept : ∀ frame, m.pmm.InUse frame → frame ≠ copy → next.mem frame = m.mem frame
  others : ∀ i, i ∉ slots → next.mem copy i = m.mem copy i
  copied : ∀ i ∈ slots, SlotCopied (Copied mem next.mem levels) (mem table i) (next.mem copy i) (parts i)

/-- Nothing has happened. -/
theorem Cloned.still (copied : ∀ i ∈ slots, SlotCopied (Copied mem m.mem levels) (mem table i) (m.mem copy i) []) :
    Cloned mem level levels table copy slots (fun _ => []) m m where
  windows := fun _ _ => rfl
  used := fun frame => by simp
  fresh := fun _ inside => by simp at inside
  distinct := by rw [flatMap_eq_nil_iff.mpr fun _ _ => rfl]; exact nodup_nil
  kept := fun _ _ _ => rfl
  others := fun _ _ => rfl
  copied := copied

/-- After the first slot the loop is ready for the others. -/
theorem Cloneable.tail (ready : Cloneable mem level levels table copy (i :: rest) m)
    (first : Cloned mem level levels table copy [i] parts m next) (fresh : i ∉ rest) :
    Cloneable mem level levels table copy rest next := by
  have still : ∀ frame, m.pmm.InUse frame → next.pmm.InUse frame := fun frame taken => (first.used frame).mpr (.inr taken)
  constructor
  case parentWindow => rw [first.windows _ (by omega), ready.parentWindow]
  case childWindow => rw [first.windows _ (by omega), ready.childWindow]
  case unchanged => rw [first.kept table ready.tableUsed ready.apart, ready.unchanged]
  case tableUsed => exact still table ready.tableUsed
  case copyUsed => exact still copy ready.copyUsed
  case apart => exact ready.apart
  case blank =>
    intro j inside
    rw [first.others j, ready.blank j (.tail _ inside)]
    rintro single
    rw [mem_singleton.mp single] at inside
    exact fresh inside
  case source =>
    intro j inside here path frame short reached
    obtain ⟨same, taken, differ⟩ := ready.source j (.tail _ inside) here path frame short reached
    exact ⟨(first.kept frame taken differ).trans same, still frame taken, differ⟩

theorem Cloned.cons (first : Cloned mem level levels table copy [i] parts m next)
    (second : Cloned mem level levels table copy rest more next last) (fresh : i ∉ rest)
    (copyUsed : m.pmm.InUse copy) :
    Cloned mem level levels table copy (i :: rest) (fun j => if j = i then parts j else more j) m last := by
  have head := flatMap_singleton parts i
  have frames : ((i :: rest).flatMap fun j => if j = i then parts j else more j) =
      parts i ++ rest.flatMap more := by
    rw [flatMap_cons, if_pos rfl]
    congr 1
    apply flatMap_congr
    intro j inside
    rw [if_neg]
    rintro rfl
    exact fresh inside
  have firstUsed := first.used
  have firstFresh := first.fresh
  rw [head] at firstUsed firstFresh
  constructor
  case windows => exact fun w low => (second.windows w low).trans (first.windows w low)
  case used =>
    intro frame
    rw [frames, mem_append, second.used, firstUsed]
    tauto
  case fresh =>
    intro frame inside
    rw [frames, mem_append] at inside
    cases inside with
    | inl early => exact firstFresh frame early
    | inr late => exact fun taken => second.fresh frame late ((firstUsed frame).mpr (.inr taken))
  case distinct =>
    rw [frames, nodup_append]
    refine ⟨head ▸ first.distinct, second.distinct, ?_⟩
    rintro frame early other late rfl
    exact second.fresh frame late ((firstUsed frame).mpr (.inl early))
  case kept =>
    intro frame taken differ
    rw [second.kept frame ((firstUsed frame).mpr (.inr taken)) differ, first.kept frame taken differ]
  case others =>
    intro j outside
    rw [mem_cons, not_or] at outside
    rw [second.others j outside.2, first.others j (by simpa using outside.1)]
  case copied =>
    intro j inside
    cases inside with
    | tail _ later =>
      rw [if_neg]
      · exact second.copied j later
      · rintro rfl
        exact fresh later
    | head =>
      rw [if_pos rfl, second.others i fresh]
      apply (first.copied i (.head _)).imp
      intro a frame below part down
      -- pages taken for this slot are in use for the later ones, and none is the table
      have kept : ∀ f ∈ parts i, last.mem f = next.mem f := by
        intro f member
        apply second.kept f ((firstUsed f).mpr (.inl member))
        rintro rfl
        exact firstFresh f member copyUsed
      rw [part] at kept
      exact down.congr (kept frame (.head _)) fun f member => kept f (.tail _ member)

/-- A round of a loop that copies its slot, whenever it succeeds. -/
def Clones (body : Machine → Fin 512 → Cloning) (level levels : Nat) : Prop :=
  ∀ mem table copy i m next, Cloneable mem level levels table copy [i] m → body m i = .ok next →
    ∃ parts, Cloned mem level levels table copy [i] parts m next

theorem Cloneable.head (ready : Cloneable mem level levels table copy (i :: rest) m) :
    Cloneable mem level levels table copy [i] m :=
  { ready with
    blank := fun j single => ready.blank j (by rw [mem_singleton.mp single]; exact .head _)
    source := fun j single => ready.source j (by rw [mem_singleton.mp single]; exact .head _) }

/-- The whole loop copies what its rounds copy. -/
theorem Clones.loop (clones : Clones body level levels) (distinct : slots.Nodup)
    (ready : Cloneable mem level levels table copy slots m) (done : slots.foldlM body m = .ok next) :
    ∃ parts, Cloned mem level levels table copy slots parts m next := by
  induction slots generalizing m with
  | nil =>
    cases done
    exact ⟨_, Cloned.still nofun⟩
  | cons i rest ih =>
    rw [foldlM_cons] at done
    obtain ⟨fresh, apart⟩ := nodup_cons.mp distinct
    cases round : body m i with
    | error stopped =>
      rw [round] at done
      cases done
    | ok middle =>
      rw [round] at done
      obtain ⟨parts, first⟩ := clones mem table copy i m middle ready.head round
      obtain ⟨more, second⟩ := ih apart (ready.tail first fresh) done
      exact ⟨_, first.cons second fresh ready.copyUsed⟩

theorem Cloned.skipped (ready : Cloneable mem level levels table copy [i] m)
    (absent : present (mem table i) = false) :
    Cloned mem level levels table copy [i] (fun _ => []) m m := by
  refine Cloned.still fun j single => ?_
  rw [mem_singleton.mp single, SlotCopied, absent, if_neg Bool.false_ne_true]
  exact ⟨rfl, ready.blank i (.head _)⟩

/-- A slot for which one page was taken, and more below it. -/
theorem Cloned.entered (here : present (mem table i) = true)
    (windows : ∀ w < 2 * level + 2, next.windows w = m.windows w)
    (used : ∀ f, next.pmm.InUse f ↔ f ∈ frame :: below ∨ m.pmm.InUse f)
    (fresh : ∀ f ∈ frame :: below, ¬ m.pmm.InUse f) (distinct : (frame :: below).Nodup)
    (kept : ∀ f, m.pmm.InUse f → f ≠ copy → next.mem f = m.mem f)
    (others : ∀ j, j ≠ i → next.mem copy j = m.mem copy j)
    (entered : next.mem copy i = setField 12 frame (mem table i))
    (down : Copied mem next.mem levels (address (mem table i)) frame below) :
    Cloned mem level levels table copy [i] (fun _ => frame :: below) m next := by
  have pages : [i].flatMap (fun _ => frame :: below) = frame :: below := flatMap_singleton _ i
  constructor
  case windows => exact windows
  case used => rw [pages]; exact used
  case fresh => rw [pages]; exact fresh
  case distinct => rw [pages]; exact distinct
  case kept => exact kept
  case others => exact fun j outside => others j fun same => outside (mem_singleton.mpr same)
  case copied =>
    intro j single
    rw [mem_singleton.mp single, SlotCopied, if_pos here]
    exact ⟨frame, below, rfl, entered, down⟩

theorem Cloneable.read (ready : Cloneable mem level levels table copy [i] m) :
    m.read (2 * level) i = mem table i := by
  rw [Machine.read, ready.parentWindow, ready.unchanged]

theorem Cloneable.page (ready : Cloneable mem level levels table copy [i] m) (here : present (mem table i) = true) :
    m.mem (address (mem table i)) = mem (address (mem table i)) ∧ m.pmm.InUse (address (mem table i)) ∧
      address (mem table i) ≠ copy :=
  ready.source i (.head _) here [] _ (Nat.zero_le _) rfl

theorem clonePage_clones : Clones clonePage 3 0 := by
  intro mem table copy i m next ready done
  have read := ready.read
  have child := ready.childWindow
  simp only [clonePage, read] at done
  cases here : present (mem table i) with
  | false =>
    rw [here] at done
    cases done
    exact ⟨_, Cloned.skipped ready here⟩
  | true =>
    obtain ⟨source, -, sourceApart⟩ := ready.page here
    rcases allocated : pmmAllocPage m.pmm with ⟨page, pmm⟩
    simp only [here, if_true, alloc, allocated] at done
    split at done
    case isTrue => cases done
    case isFalse nonzero =>
    obtain ⟨-, free, -, taken⟩ := pmmAllocPage_spec allocated nonzero
    cases done
    have copyApart : copy ≠ frameOf page := fun same => free (same ▸ ready.copyUsed)
    refine ⟨_, @Cloned.entered _ _ _ _ _ _ _ _ (frameOf page) [] here ?_ ?_ ?_ ?_ ?_ ?_ ?_ ?_⟩
    · intro w low
      simp only [Machine.copy, Machine.scratchMap, Machine.write]
      rw [update_of_ne (by omega), update_of_ne (by omega)]
    · intro f
      rw [mem_singleton]
      exact taken f
    · intro f member
      rw [mem_singleton.mp member]
      exact free
    · exact nodup_singleton _
    · intro f used differ
      have apart : f ≠ frameOf page := fun same => free (same ▸ used)
      simp [Machine.copy, Machine.scratchMap, Machine.write, child, write, update_of_ne apart, update_of_ne differ]
    · intro j differ
      simp [Machine.copy, Machine.scratchMap, Machine.write, child, write, update_of_ne copyApart, update_of_ne differ]
    · simp [Machine.copy, Machine.scratchMap, Machine.write, child, write, update_of_ne copyApart, clonedPage_eq _ _ _ here]
    · refine ⟨?_, rfl⟩
      simp only [Machine.copy, Machine.scratchMap, Machine.write, update_self, child, write]
      rw [update_of_ne (by decide : (8 : Nat) ≠ 9), update_self, frameOf_addrOf,
        update_of_ne sourceApart, source]

/-- The machine in which an inner loop starts: the frame `new` has been taken, cleared
and entered in the child's table. -/
structure NewTable (level : Nat) (copy : Frame) (i : Fin 512) (entry : Entry) (new : Frame)
    (m start : Machine) : Prop where
  free : ¬ m.pmm.InUse new
  taken : ∀ frame, start.pmm.InUse frame ↔ frame = new ∨ m.pmm.InUse frame
  windows : ∀ w < 2 * level + 2, start.windows w = m.windows w
  parentWindow : start.windows (2 * (level + 1)) = address entry
  childWindow : start.windows (2 * (level + 1) + 1) = new
  mem : start.mem = (m.mem.clear new).write copy i (setField 12 new entry)

theorem NewTable.untouched (made : NewTable level copy i entry new m start) (used : m.pmm.InUse frame)
    (differ : frame ≠ copy) : start.mem frame = m.mem frame := by
  have apart : frame ≠ new := fun same => made.free (same ▸ used)
  rw [made.mem, write, update_of_ne differ, clear, update_of_ne apart]

section
variable {entry : Entry → BitVec 64 → Entry → Entry} (copies : Copies entry)
    (ready : Cloneable mem level levels table copy [i] m) (here : present (mem table i) = true)
include copies ready here

theorem cloneTable_start (inner : Machine → Fin 512 → Cloning)
    (allocated : pmmAllocPage m.pmm = (new, pmm)) (nonzero : new ≠ 0) :
    ∃ start, NewTable level copy i (mem table i) (frameOf new) m start ∧ start.pmm = pmm ∧
      cloneTable level entry inner m i = allSlots.foldlM inner start := by
  obtain ⟨-, free, -, taken⟩ := pmmAllocPage_spec allocated nonzero
  simp only [cloneTable, ready.read, here, if_true, alloc, allocated, if_neg nonzero]
  refine ⟨_, ⟨free, taken, ?_, ?_, ?_, ?_⟩, rfl, rfl⟩
  · intro w low
    simp only [Machine.scratchMap, Machine.write, Machine.clear]
    rw [update_of_ne (by omega), update_of_ne (by omega)]
  · simp [Machine.scratchMap, Nat.mul_add, frameOf_addrOf]
  · simp only [Machine.scratchMap, Machine.write, Machine.clear, Nat.mul_add, Nat.mul_one, Nat.add_assoc,
      Nat.reduceAdd]
    rw [update_of_ne (by omega), update_self]
  · simp only [Machine.scratchMap, Machine.write, Machine.clear, update_self, copies _ _ _ here]
    rw [update_of_ne (by omega), ready.childWindow]

theorem cloneTable_ok {next : Machine} (done : cloneTable level entry inner m i = .ok next) :
    ∃ new start, NewTable level copy i (mem table i) new m start ∧ allSlots.foldlM inner start = .ok next := by
  rcases allocated : pmmAllocPage m.pmm with ⟨new, pmm⟩
  by_cases zero : new = 0
  · simp only [cloneTable, ready.read, here, if_true, alloc, allocated, zero] at done
    cases done
  · obtain ⟨start, made, -, same⟩ := cloneTable_start copies ready here inner allocated zero
    exact ⟨frameOf new, start, made, same.symm.trans done⟩

end

/-- The inner loop finds what the outer loop found, one level below. -/
theorem Cloneable.below (ready : Cloneable mem level (levels + 1) table copy [i] m)
    (here : present (mem table i) = true) (made : NewTable level copy i (mem table i) new m start) :
    Cloneable mem (level + 1) levels (address (mem table i)) new allSlots start := by
  obtain ⟨source, sourceUsed, sourceApart⟩ := ready.page here
  have copyApart : new ≠ copy := fun same => made.free (same ▸ ready.copyUsed)
  constructor
  case parentWindow => exact made.parentWindow
  case childWindow => exact made.childWindow
  case unchanged => rw [made.untouched sourceUsed sourceApart, source]
  case tableUsed => exact (made.taken _).mpr (.inr sourceUsed)
  case copyUsed => exact (made.taken _).mpr (.inl rfl)
  case apart => exact fun same => made.free (same ▸ sourceUsed)
  case blank =>
    intro j _
    rw [made.mem, write, update_of_ne copyApart, clear, update_self]
  case source =>
    intro j _ present path frame short reached
    have deeper : walk (edge mem) (address (mem table i)) (j :: path) = some frame := by
      rw [walk, edge, if_pos present]
      exact reached
    obtain ⟨same, used, differ⟩ := ready.source i (.head _) here (j :: path) frame (Nat.succ_le_succ short) deeper
    exact ⟨(made.untouched used differ).trans same, (made.taken frame).mpr (.inr used),
      fun equal => made.free (equal ▸ used)⟩

theorem cloneTable_clones (copies : Copies entry)
    (clones : Clones inner (level + 1) levels) : Clones (cloneTable level entry inner) level (levels + 1) := by
  intro mem table copy i m next ready done
  cases here : present (mem table i) with
  | false =>
    simp only [cloneTable, ready.read, here] at done
    cases done
    exact ⟨_, Cloned.skipped ready here⟩
  | true =>
    obtain ⟨new, start, made, inside⟩ := cloneTable_ok copies ready here done
    obtain ⟨parts, below⟩ := clones.loop nodup_allSlots (ready.below here made) inside
    have copyApart : copy ≠ new := fun same => made.free (same ▸ ready.copyUsed)
    have copyKept := below.kept copy ((made.taken copy).mpr (.inr ready.copyUsed)) copyApart
    refine ⟨_, @Cloned.entered _ _ _ _ _ _ _ _ new (allSlots.flatMap parts) here ?_ ?_ ?_ ?_ ?_ ?_ ?_ ?_⟩
    · intro w low
      rw [below.windows w (by omega), made.windows w low]
    · intro f
      rw [below.used, made.taken, mem_cons]
      tauto
    · intro f member used
      cases member with
      | head => exact made.free used
      | tail _ deeper => exact below.fresh f deeper ((made.taken f).mpr (.inr used))
    · refine nodup_cons.mpr ⟨?_, below.distinct⟩
      exact fun deeper => below.fresh _ deeper ((made.taken _).mpr (.inl rfl))
    · intro f used differ
      have apart : f ≠ new := fun same => made.free (same ▸ used)
      rw [below.kept f ((made.taken f).mpr (.inr used)) apart, made.untouched used differ]
    · intro j differ
      rw [copyKept, made.mem, write, update_self, update_of_ne differ, clear, update_of_ne copyApart]
    · rw [copyKept, made.mem, write, update_self, update_self]
    · exact ⟨parts, rfl, fun j => below.copied j (mem_allSlots j)⟩

theorem clonePt_clones : Clones clonePt 2 1 :=
  cloneTable_clones clonedDirectory_eq clonePage_clones

theorem clonePd_clones : Clones clonePd 1 2 :=
  cloneTable_clones clonedTable_eq clonePt_clones

/-! How many pages a clone takes, and that it comes to its end when they can be had. -/

/-- The pages taken for an entry with so many levels of tables below it. -/
def slotPages (mem : PhysMem) : Nat → Entry → Nat
  | 0, entry => if present entry then 1 else 0
  | levels + 1, entry =>
    if present entry then 1 + (allSlots.map fun i => slotPages mem levels (mem (address entry) i)).sum else 0

def slotsPages (mem : PhysMem) (levels : Nat) (table : Frame) (slots : List (Fin 512)) : Nat :=
  (slots.map fun i => slotPages mem levels (mem table i)).sum

/-- A round of a loop that ends well if its pages can be had, with the rest of them left. -/
def Completes (body : Machine → Fin 512 → Cloning) (level levels : Nat) : Prop :=
  ∀ mem table copy i m left, Cloneable mem level levels table copy [i] m →
    0 ∉ allocations (slotPages mem levels (mem table i) + left) m.pmm →
    ∃ next, body m i = .ok next ∧ 0 ∉ allocations left next.pmm

variable {mem : PhysMem} {level levels left : Nat} {table copy : Frame} {slots : List (Fin 512)} {m : Machine}

theorem Completes.loop (completes : Completes body level levels)
    (clones : Clones body level levels) (distinct : slots.Nodup)
    (ready : Cloneable mem level levels table copy slots m)
    (enough : 0 ∉ allocations (slotsPages mem levels table slots + left) m.pmm) :
    ∃ next, slots.foldlM body m = .ok next ∧ 0 ∉ allocations left next.pmm := by
  induction slots generalizing m with
  | nil =>
    refine ⟨m, rfl, ?_⟩
    simpa only [slotsPages, map_nil, sum_nil, Nat.zero_add] using enough
  | cons i rest ih =>
    obtain ⟨fresh, apart⟩ := nodup_cons.mp distinct
    rw [slotsPages, map_cons, sum_cons, Nat.add_assoc] at enough
    obtain ⟨middle, round, remaining⟩ := completes mem table copy i m _ ready.head enough
    obtain ⟨parts, first⟩ := clones mem table copy i m middle ready.head round
    obtain ⟨next, done, last⟩ := ih apart (ready.tail first fresh) remaining
    refine ⟨next, ?_, last⟩
    rw [foldlM_cons, round]
    exact done

theorem clonePage_completes : Completes clonePage 3 0 := by
  intro mem table copy i m left ready enough
  have read := ready.read
  simp only [clonePage, read]
  cases here : present (mem table i) with
  | false =>
    simp only [slotPages, here, Bool.false_eq_true, if_false, Nat.zero_add] at enough
    exact ⟨m, rfl, enough⟩
  | true =>
    rcases allocated : pmmAllocPage m.pmm with ⟨page, pmm⟩
    simp only [slotPages, here, if_true, Nat.add_comm 1 left] at enough
    obtain ⟨nonzero, remaining⟩ := (not_mem_allocations allocated).mp enough
    simp only [if_true, alloc, allocated, if_neg nonzero]
    exact ⟨_, rfl, remaining⟩

theorem cloneTable_completes (copies : Copies entry) (clones : Clones inner (level + 1) levels)
    (completes : Completes inner (level + 1) levels) :
    Completes (cloneTable level entry inner) level (levels + 1) := by
  intro mem table copy i m left ready enough
  cases here : present (mem table i) with
  | false =>
    simp only [slotPages, here, Bool.false_eq_true, if_false, Nat.zero_add] at enough
    simp only [cloneTable, ready.read, here]
    exact ⟨m, rfl, enough⟩
  | true =>
    rcases allocated : pmmAllocPage m.pmm with ⟨new, pmm⟩
    rw [slotPages, if_pos here, Nat.add_assoc, Nat.add_comm 1] at enough
    obtain ⟨nonzero, remaining⟩ := (not_mem_allocations allocated).mp enough
    obtain ⟨start, made, rfl, same⟩ := cloneTable_start copies ready here inner allocated nonzero
    rw [same]
    exact completes.loop clones nodup_allSlots (ready.below here made) remaining

theorem clonePt_completes : Completes clonePt 2 1 :=
  cloneTable_completes clonedDirectory_eq clonePage_clones clonePage_completes

theorem clonePd_completes : Completes clonePd 1 2 :=
  cloneTable_completes clonedTable_eq clonePt_clones clonePt_completes

end Sirius.Memory
