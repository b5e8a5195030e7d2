import Sirius.Memory.TranslationLaw
import Sirius.Support.Runs

/-! What a page allows: the four entries on its way, taken together. `vmm_map_page` gives a table
that it makes the permissions of the page it is made for, and leaves a table that it finds as it
is. The whole address space counts here, not only its user half. -/
namespace Sirius.Memory
open Support Function List PhysMem Option

@[ext] structure Permission where
  write : Bool
  user : Bool
  noExecute : Bool
deriving DecidableEq, Repr

/-- The bits of an entry. The flags of `vmm_map_page` have theirs in the same places. -/
def granted (entry : Entry) : Permission where
  write := entry.getLsbD 1
  user := entry.getLsbD 2
  noExecute := entry.getLsbD 63

def Permission.meet (one other : Permission) : Permission where
  write := one.write && other.write
  user := one.user && other.user
  noExecute := one.noExecute || other.noExecute

/-- What the entries on a path allow together, if they are all present. -/
def effective (mem : PhysMem) : Frame → List (Fin 512) → Option Permission
  | _, [] => some ⟨true, true, false⟩
  | frame, i :: rest =>
    if present (mem frame i) then (effective mem (address (mem frame i)) rest).map (granted (mem frame i)).meet
    else none

def spaceWalk (mem : PhysMem) (root : Frame) (path : List (Fin 512)) : Option Frame := walk (edge mem) root path

/-- Tables reached by one path only, which the page allocator does not hand out. -/
structure Space (mem : PhysMem) (pmm : Pmm) (root : Frame) : Prop where
  owned : Owned (edge mem) root 3
  used : ∀ path frame, path.length ≤ 3 → spaceWalk mem root path = some frame → pmm.InUse frame

/-- The tables on a path allow what the flags ask for. Of an entry that is not present only the
no-execute bit counts, which a new table keeps. -/
def Permits (mem : PhysMem) (flags : BitVec 64) : Frame → List (Fin 512) → Prop
  | _, [] => True
  | frame, i :: rest =>
    if present (mem frame i) then
      (granted (mem frame i)).meet (granted flags) = granted flags ∧ Permits mem flags (address (mem frame i)) rest
    else (granted (mem frame i)).noExecute = true → (granted flags).noExecute = true

instance decidablePermits (mem : PhysMem) (flags : BitVec 64) :
    ∀ frame path, Decidable (Permits mem flags frame path)
  | _, [] => isTrue trivial
  | frame, i :: rest => by
    unfold Permits
    haveI := decidablePermits mem flags (address (mem frame i)) rest
    infer_instance

variable {mem : PhysMem} {pmm later : Pmm} {root node : Frame} {m : Machine} {flags virt phys : BitVec 64}

theorem Permission.meet_assoc (one two three : Permission) : (one.meet two).meet three = one.meet (two.meet three) := by
  simp only [meet, Bool.and_assoc, Bool.or_assoc]

theorem effective_concat (reached : spaceWalk mem root path = some node) : effective mem root (path ++ [i]) =
      if present (mem node i) then (effective mem root path).map (fun above => above.meet (granted (mem node i))) else none := by
  induction path generalizing root with
  | nil =>
    obtain rfl := some.inj reached
    simp only [nil_append, effective, map_some]
    simp only [Permission.meet, Bool.and_true, Bool.or_false, Bool.true_and, Bool.false_or]
  | cons j rest ih =>
    simp only [spaceWalk, walk, edge] at reached
    rw [cons_append, effective, effective]
    split at reached
    next here =>
      rw [if_pos here, if_pos here, ih reached]
      split
      · simp only [Option.map_map, Function.comp_def, Permission.meet_assoc]
      · rfl
    next => cases reached

/-- What a path allows depends on the entries on its way. -/
theorem effective_congr (path : List (Fin 512))
    (agree : ∀ front i back node, path = front ++ i :: back → path.length = front.length + (back.length + 1) →
      spaceWalk mem root front = some node → mem' node i = mem node i) : effective mem' root path = effective mem root path := by
  induction path generalizing root with
  | nil => rfl
  | cons i rest ih =>
    have first := agree [] i rest root rfl (Nat.zero_add _).symm rfl
    rw [effective, effective, first]
    split
    next here =>
      refine congrArg _ (ih fun front j back node split length reached =>
        agree (i :: front) j back node (by rw [split]; rfl) (by simp only [length_cons]; omega) ?_)
      simpa only [spaceWalk, walk, edge, if_pos here, bind_some] using reached
    next => rfl

theorem effective_of_walk_none (stopped : spaceWalk mem root path = none) : effective mem root path = none := by
  fun_induction effective mem root path with
  | case1 => cases stopped
  | case2 frame i rest here ih =>
    simp only [spaceWalk, walk, edge, if_pos here, bind_some] at stopped
    rw [ih stopped, map_none]
  | case3 => rfl

/-! ### A table entered -/

/-- A new, empty table linked to a slot without one. -/
structure Entered (mem changed : PhysMem) (later : Pmm) (root node : Frame) (path : List (Fin 512)) (i : Fin 512)
    (fresh : Frame) (entry : Entry) : Prop where
  space : Space changed later root
  reached : spaceWalk changed root (path ++ [i]) = some fresh
  blank : ∀ j, changed fresh j = 0
  parent : spaceWalk changed root path = some node
  written : changed node i = entry
  above : effective changed root path = effective mem root path
  pages : ∀ other : List (Fin 512), other.length = 4 → effective changed root other = effective mem root other

theorem Space.enter (space : Space mem pmm root) (allocated : pmmAllocPage pmm = (new, later)) (nonzero : new ≠ 0)
    (reached : spaceWalk mem root path = some node) (within : path.length < 3) (absent : present (mem node i) = false)
    (entry : Entry → Entry) (here : ∀ old, present (entry old) = true)
    (target : ∀ old, address (entry old) = frameOf new) :
    Entered mem (mem.enter node i new entry) later root node path i (frameOf new) (entry (mem node i)) := by
  obtain ⟨-, free, -, now⟩ := pmmAllocPage_spec allocated nonzero
  have unreached : ∀ front : List (Fin 512), front.length ≤ 3 → spaceWalk mem root front ≠ some (frameOf new) :=
    fun front short arrived => free (space.used front _ short arrived)
  have differs : node ≠ frameOf new := fun same => unreached path within.le (same ▸ reached)
  have changed : mem.enter node i new entry = (mem.clear (frameOf new)).write node i (entry (mem node i)) := by
    rw [PhysMem.enter, clear, update_of_ne differs]
  have cells : ∀ front n j, front.length ≤ 3 → spaceWalk mem root front = some n → ¬(n = node ∧ j = i) →
      mem.enter node i new entry n j = mem n j := fun front n j short arrived off => by
    have other : n ≠ frameOf new := fun same => unreached front short (same ▸ arrived)
    rw [changed, mem.write_clear_apart _ other off]
  have written : mem.enter node i new entry node i = entry (mem node i) := by
    rw [changed, write, update_self, update_self]
  have blank : ∀ j, mem.enter node i new entry (frameOf new) j = 0 := fun j => by
    rw [changed, write_apart _ _ fun both => differs both.1.symm, clear, update_self]
  have kept : ∀ front n j, front.length ≤ 3 → spaceWalk mem root front = some n → ¬(n = node ∧ j = i) →
      edge (mem.enter node i new entry) n j = edge mem n j := fun front n j short arrived off => by
    rw [edge, cells front n j short arrived off, edge]
  have vacant : edge mem node i = none := by
    rw [edge, absent]
    rfl
  have linked : edge (mem.enter node i new entry) node i = some (frameOf new) := by
    rw [edge, written, if_pos (here _), target]
  have empty : ∀ j, edge (mem.enter node i new entry) (frameOf new) j = none := fun j => by
    rw [edge, blank]
    rfl
  obtain ⟨owned, arrives, behind, apart⟩ := space.owned.link_fresh reached kept within vacant unreached linked empty
  -- off the new edge a path has its old entries; behind it there is nothing to find
  have effects : ∀ other : List (Fin 512), other.length ≤ 4 → ¬ (path ++ [i]) <+: other →
      effective (mem.enter node i new entry) root other = effective mem root other := fun other short off => by
    refine effective_congr other fun front j back n split length arrived => ?_
    refine cells front n j (by omega) arrived ?_
    rintro ⟨rfl, rfl⟩
    have same := space.owned front path n (by omega) (by omega) arrived reached
    exact off ⟨back, by rw [split, same, append_assoc]; rfl⟩
  have longer : ¬ (path ++ [i]) <+: path := fun extended => by
    have := extended.length_le
    simp only [length_append, length_singleton] at this
    omega
  refine ⟨⟨owned, ?_⟩, arrives, blank, (apart path (by omega) ?_).trans reached, written, effects path (by omega) longer, ?_⟩
  · intro other frame short arrived
    by_cases taken : other = path ++ [i]
    · rw [taken] at arrived
      exact (now frame).mpr (.inl (some.inj (arrives.symm.trans arrived)).symm)
    · exact (now frame).mpr (.inr (space.used other frame short ((apart other (by omega) taken).symm.trans arrived)))
  · exact fun same => longer (same ▸ prefix_rfl)
  · intro other four
    by_cases extended : (path ++ [i]) <+: other
    · obtain ⟨rest, rfl⟩ := extended
      cases rest with
      | nil =>
        simp at four
        omega
      | cons j rest =>
        have before := (walk_concat reached i).trans vacant
        rw [effective_of_walk_none (behind j rest), effective_of_walk_none (walk_dead before (j :: rest))]
    · exact effects other (by omega) extended

/-! ### The way to a page -/

/-- How many tables have to be made on the way; below one that is not there, there is none. -/
def missing (mem : PhysMem) : Frame → List (Fin 512) → Nat
  | _, [] => 0
  | frame, i :: rest => if present (mem frame i) then missing mem (address (mem frame i)) rest else rest.length + 1

/-- A page directory that is found lies below 64 GB. -/
def SpaceBelow (m : Machine) (root : Frame) (virt : BitVec 64) : Prop :=
  ∀ pd, spaceWalk m.mem root [pml4Index virt, pdptIndex virt] = some pd → pd.toNat < 2 ^ 24

/-- A table on the way to a page: what is asked for is allowed down to it and by what is found below
it, and every page is as it was in `base`. -/
structure Opened (base mem : PhysMem) (pmm : Pmm) (root : Frame) (flags : BitVec 64) (path rest : List (Fin 512))
    (node : Frame) : Prop where
  space : Space mem pmm root
  reached : spaceWalk mem root path = some node
  allowed : ∃ above, effective mem root path = some above ∧ above.meet (granted flags) = granted flags
  permits : Permits mem flags node rest
  pages : ∀ other : List (Fin 512), other.length = 4 → effective mem root other = effective base root other
  enough : 0 ∉ allocations (missing mem node rest) pmm

theorem granted_setField_address (entry : Entry) (frame : Frame) : granted (setField 12 frame entry) = granted entry := by
  simp (disch := decide) only [granted, getLsbD_setField_of_disjoint]

theorem getLsbD_setField_flag (lo : Nat) (small : lo < 64) (flag : BitVec 1) (entry : Entry) (i : Nat) :
    (setField lo flag entry).getLsbD i = if i = lo then flag.getLsbD 0 else entry.getLsbD i := by
  rw [getLsbD_setField lo flag entry (by omega)]
  by_cases here : i = lo
  · rw [if_pos (by omega), if_pos here, here, Nat.sub_self]
  · rw [if_neg (by omega), if_neg here]

theorem granted_levelEntry (flags : BitVec 64) (path : List (Fin 512)) (phys : BitVec 64) (old : Entry) :
    granted (levelEntry flags path phys old) = ⟨flags.getLsbD 1, flags.getLsbD 2, old.getLsbD 63⟩ := by
  unfold levelEntry
  split
  all_goals
    simp only [directoryEntry, tableEntry, granted_setField_address]
    simp (disch := decide) only [granted, getLsbD_setField_flag]
    simp

theorem granted_pageEntry (flags phys : BitVec 64) (old : Entry) : granted (pageEntry flags phys old) = granted flags := by
  simp (disch := decide) only [pageEntry, granted, getLsbD_setField_flag, getLsbD_setField_of_disjoint]
  simp

theorem missing_of_blank (blank : ∀ i, mem node i = 0) (rest : List (Fin 512)) : missing mem node rest = rest.length := by
  cases rest with
  | nil => rfl
  | cons i rest => rw [missing, blank, if_neg (by decide), length_cons]

theorem Opened.found (opened : Opened base mem pmm root flags path (i :: rest) node)
    (here : present (mem node i) = true) :
    Opened base mem pmm root flags (path ++ [i]) rest (address (mem node i)) := by
  obtain ⟨above, known, allows⟩ := opened.allowed
  have permits := opened.permits
  rw [Permits, if_pos here] at permits
  refine ⟨opened.space, ?_, ⟨above.meet (granted (mem node i)), ?_, ?_⟩, permits.2, opened.pages, ?_⟩
  · rw [spaceWalk, walk_concat opened.reached, edge, if_pos here]
  · rw [effective_concat opened.reached, if_pos here, known, map_some]
  · rw [Permission.meet_assoc, permits.1, allows]
  · have enough := opened.enough
    rw [missing, if_pos here] at enough
    exact enough

theorem Opened.made (opened : Opened base mem pmm root flags path (i :: rest) node) (absent : present (mem node i) = false)
    (entered : Entered mem changed later root node path i fresh entry) (here : present entry = true)
    (grants : granted entry = ⟨flags.getLsbD 1, flags.getLsbD 2, (mem node i).getLsbD 63⟩)
    (remaining : 0 ∉ allocations rest.length later) : Opened base changed later root flags (path ++ [i]) rest fresh := by
  obtain ⟨above, known, allows⟩ := opened.allowed
  have permits := opened.permits
  rw [Permits, if_neg (by rw [absent]; decide)] at permits
  refine ⟨entered.space, entered.reached, ⟨above.meet (granted entry), ?_, ?_⟩, ?_,
    fun other four => (entered.pages other four).trans (opened.pages other four),
    missing_of_blank entered.blank rest ▸ remaining⟩
  · rw [effective_concat entered.parent, entered.written, if_pos here, entered.above, known, map_some]
  · have own : (granted entry).meet (granted flags) = granted flags := by
      rw [grants]
      simp only [Permission.meet, granted, Bool.and_self, Permission.mk.injEq, true_and]
      cases old : (mem node i).getLsbD 63 with
      | false => rfl
      | true => exact (permits old).symm
    rw [Permission.meet_assoc, own, allows]
  · cases rest with
    | nil => trivial
    | cons j rest =>
      rw [Permits, entered.blank, if_neg (by decide)]
      exact fun set => absurd set (by decide)

/-- One level further, with no directory below that was not there before. -/
theorem Opened.level {e : Ensured} (opened : Opened base m.mem m.pmm root flags path (i :: rest) node)
    (level : e.At m node path i flags) (within : path.length < 3)
    (below : path.length = 1 → ∀ pd, spaceWalk m.mem root (path ++ [i]) = some pd → pd.toNat < 2 ^ 24) :
    Opened base e.machine.mem e.machine.pmm root flags (path ++ [i]) rest (frameOf e.phys) ∧
      ∀ j frame, spaceWalk e.machine.mem root (path ++ [i] ++ [j]) = some frame →
        spaceWalk m.mem root (path ++ [i] ++ [j]) = some frame := by
  cases here : present (m.mem node i) with
  | true =>
    have next := opened.found here
    obtain ⟨mem, pmm, phys, -⟩ := level.found here
    rw [mem, pmm, phys, frameOf_levelAddress fun one => below one _ next.reached]
    exact ⟨next, fun _ _ reached => reached⟩
  | false =>
    rcases allocated : pmmAllocPage m.pmm with ⟨new, later⟩
    have made := level.made here allocated
    have shown : ∀ old, present (levelEntry flags path new old) = true := fun old => (levelEntry_spec flags path new old).1
    have target : ∀ old, address (levelEntry flags path new old) = frameOf new :=
      fun old => (levelEntry_spec flags path new old).2.1
    have enough := opened.enough
    rw [missing, if_neg (by rw [here]; decide), not_mem_allocations allocated] at enough
    have entered := opened.space.enter allocated enough.1 opened.reached within here _ shown target
    rw [made.mem, made.pmm, made.phys]
    refine ⟨opened.made here entered (shown _) (granted_levelEntry _ _ _ _) enough.2, fun j frame reached => ?_⟩
    have dead := walk_concat entered.reached j
    rw [edge, entered.blank] at dead
    exact absurd (reached.symm.trans dead) (some_ne_none _)

theorem Opened.start (space : Space m.mem m.pmm root) (permits : Permits m.mem flags root rest)
    (enough : 0 ∉ allocations (missing m.mem root rest) m.pmm) : Opened m.mem m.mem m.pmm root flags [] rest root := by
  refine ⟨space, rfl, ⟨_, rfl, ?_⟩, permits, fun _ _ => rfl, enough⟩
  simp [Permission.meet]

theorem Space.writePage (space : Space mem pmm root) (reached : spaceWalk mem root path = some node)
    (three : path.length = 3) (entry : Entry) :
    Space (mem.write node i entry) pmm root ∧ effective (mem.write node i entry) root (path ++ [i]) =
        (if present entry then (effective mem root path).map (fun above => above.meet (granted entry)) else none) ∧
      ∀ other : List (Fin 512), other.length ≤ 4 → other ≠ path ++ [i] →
        effective (mem.write node i entry) root other = effective mem root other := by
  have kept : ∀ front n j, front.length ≤ 3 → spaceWalk mem root front = some n → ¬(n = node ∧ j = i) →
      edge (mem.write node i entry) n j = edge mem n j := fun _ n j _ _ off => by
    rw [edge, mem.write_apart entry off, edge]
  have tables := walk_last space.owned reached kept three
  have others : ∀ other : List (Fin 512), other.length ≤ 4 → other ≠ path ++ [i] →
      effective (mem.write node i entry) root other = effective mem root other := fun other short differ => by
    refine effective_congr other fun front j back n split length arrived => write_apart _ _ ?_
    rintro ⟨rfl, rfl⟩
    have same := space.owned front path n (by omega) (by omega) arrived reached
    subst same
    obtain rfl : back = [] := eq_nil_of_length_eq_zero (by omega)
    exact differ split
  have longer : path ≠ path ++ [i] := fun same => by
    have := congrArg length same
    rw [length_append, length_singleton] at this
    omega
  refine ⟨⟨space.owned.of_walks tables, fun front frame short arrived => ?_⟩, ?_, others⟩
  · exact space.used front frame short ((tables front short).symm.trans arrived)
  · rw [effective_concat ((tables path three.le).trans reached), others path (by omega) longer, write,
      update_self, update_self]

/-! ### Calls -/

structure MapCall where
  virt : BitVec 64
  phys : BitVec 64
  flags : BitVec 64

def MapCall.apply (root : Frame) (call : MapCall) (m : Machine) : Machine :=
  (vmmMapPage m root call.virt call.phys call.flags).machine

/-- The indices of the three tables below the root. -/
def MapCall.way (call : MapCall) : List (Fin 512) := [pml4Index call.virt, pdptIndex call.virt, pdIndex call.virt]

/-- The tables found on the way allow what the call asks for; there is a page for each that is not
found, and no page directory above 64 GB. -/
structure MapCall.Granted (root : Frame) (call : MapCall) (m : Machine) : Prop where
  permits : Permits m.mem call.flags root call.way
  enough : 0 ∉ allocations (missing m.mem root call.way) m.pmm
  below : SpaceBelow m root call.virt

/-- One call gives its page what is asked for and leaves every other page as it is. -/
theorem MapCall.Granted.step {call : MapCall} (can : call.Granted root m) (space : Space m.mem m.pmm root) :
    Space (call.apply root m).mem (call.apply root m).pmm root ∧
      effective (call.apply root m).mem root (indices call.virt) = some (granted call.flags) ∧
      ∀ other : List (Fin 512), other.length = 4 → other ≠ indices call.virt →
        effective (call.apply root m).mem root other = effective m.mem root other := by
  have first := ensurePdpt_at m root call.virt call.flags
  rw [frameOf_addrOf] at first
  obtain ⟨pdpt, old⟩ := (Opened.start space can.permits can.enough).level first (by decide) nofun
  obtain ⟨pd, -⟩ := pdpt.level (ensurePd_at _ _ call.virt call.flags _) (by simp)
    fun _ pd arrived => can.below pd (old _ pd arrived)
  obtain ⟨pt, -⟩ := pd.level (ensurePt_at _ _ call.virt call.flags _ _) (by simp) (by simp)
  obtain ⟨written, same, -⟩ := @vmmMapPage_eq m root call.virt call.flags call.phys _ _ _ rfl rfl rfl
  rw [MapCall.apply, written, same]
  let pdpt := ensurePdpt m root call.virt call.flags
  generalize ensurePt (ensurePd pdpt.machine
    pdpt.phys call.virt call.flags).machine
    (ensurePd pdpt.machine
    pdpt.phys call.virt call.flags).phys call.virt call.flags = e at pt
  obtain ⟨after, mapped, others⟩ := pt.space.writePage pt.reached rfl
    (pageEntry call.flags call.phys (e.machine.mem (frameOf e.phys) (ptIndex call.virt)))
  obtain ⟨above, known, allows⟩ := pt.allowed
  refine ⟨after, ?_, fun other four differ => (others other (by omega) differ).trans (pt.pages other four)⟩
  rw [if_pos (pageEntry_spec _ _ _).1, granted_pageEntry, known, map_some, allows] at mapped
  exact mapped

def latestFlags (calls : List MapCall) (page : List (Fin 512)) : Option (BitVec 64) :=
  (calls.reverse.find? fun call => indices call.virt = page).map MapCall.flags

theorem latestFlags_cons (call : MapCall) (rest : List MapCall) (page : List (Fin 512)) :
    latestFlags (call :: rest) page =
      (latestFlags rest page).or (if indices call.virt = page then some call.flags else none) := by
  rw [latestFlags, reverse_cons, find?_append, latestFlags, map_or]
  by_cases own : indices call.virt = page <;> simp [own]

/-- After any number of calls each page allows what its last call asked for. -/
theorem mapped_pages_allow_what_was_asked (space : Space start.mem start.pmm root)
    (meet : AllMeet (MapCall.apply root) (MapCall.Granted root) calls start) (page : BitVec 64) :
    effective (runAll (MapCall.apply root) calls start).mem root (indices page) =
      match latestFlags calls (indices page) with
      | some flags => some (granted flags)
      | none => effective start.mem root (indices page) := by
  induction calls generalizing start with
  | nil => rfl
  | cons call rest ih =>
    obtain ⟨after, own, others⟩ := meet.1.step space
    have run : effective (runAll (MapCall.apply root) (call :: rest) start).mem root (indices page) = _ := ih after meet.2
    rw [run, latestFlags_cons]
    cases later : latestFlags rest (indices page) with
    | some flags => rfl
    | none =>
      by_cases same : indices call.virt = indices page
      · rw [if_pos same, ← same]
        exact own
      · rw [if_neg same]
        exact others _ rfl (Ne.symm same)

theorem Space.of_blank (used : pmm.InUse root) (blank : ∀ i, present (mem root i) = false) : Space mem pmm root := by
  have only_root : ∀ path frame, spaceWalk mem root path = some frame → path = [] ∧ frame = root := fun _ _ =>
    walk_of_blank fun i => by
      rw [edge, blank]
      rfl
  constructor
  · intro front back frame _ _ first second
    rw [(only_root front frame first).1, (only_root back frame second).1]
  · intro path frame _ reached
    rw [(only_root path frame reached).2]
    exact used

/-- A writable page, and then a page in the same tables that may only be read. -/
theorem mapped_pages_allow_what_was_asked_read_only :
    effective (runAll (MapCall.apply 5) [⟨0x1000, 0x9000, 7⟩, ⟨0x2000, 0xA000, 5⟩] smallMachine).mem 5 (indices 0x2000) =
      some ⟨false, true, false⟩ := by
  have space : Space smallMachine.mem smallMachine.pmm 5 := Space.of_blank (.inl (by decide)) fun _ => BitVec.getLsbD_zero
  have meet : AllMeet (MapCall.apply 5) (MapCall.Granted 5) [⟨0x1000, 0x9000, 7⟩, ⟨0x2000, 0xA000, 5⟩] smallMachine := by
    refine ⟨⟨by decide +kernel, by decide +kernel, ?_⟩, ⟨by decide +kernel, by decide +kernel, ?_⟩, trivial⟩
    · intro pd reached
      cases reached
    · intro pd reached
      cases reached
      decide
  exact mapped_pages_allow_what_was_asked space meet 0x2000

/-- A page that may only be read, and then a writable one in the same tables: it is not writable. -/
theorem writable_page_below_read_only_tables :
    effective (runAll (MapCall.apply 5) [⟨0x1000, 0x9000, 5⟩, ⟨0x2000, 0xA000, 7⟩] smallMachine).mem 5 (indices 0x2000) =
        some ⟨false, true, false⟩ ∧
      latestFlags [⟨0x1000, 0x9000, 5⟩, ⟨0x2000, 0xA000, 7⟩] (indices 0x2000) = some 7 ∧
      granted 7 = ⟨true, true, false⟩ := by
  decide +kernel

end Sirius.Memory
