import Sirius.Fs.FatSteps

/-! What the calls that work on one name leave of the entries with other names. The slot that they change is found by the
8.3 alias of the name, which other entries may have as well. -/
namespace Sirius.Fs.Fat32
open Support Function List Option
open Volume hiding attr

variable {count : Nat} {vol vol' : Volume} {p q s : Place}

/-! ### Listings around slots that change -/

/-- The long name that is pending behind a slot. -/
def pendingAfter (vol : Volume) (q : Place) (pending : Option LongName) : Option LongName :=
  if vol.mark q ≠ 0xE5 ∧ vol.attr q = 0x0F then longStep (vol.slot q) pending else none

theorem mem_scan_cons : entry ∈ scan vol pending (q :: rest) ↔ vol.mark q ≠ 0 ∧
    (vol.IsShort q ∧ entry = (q, entryName (vol.shortName q) pending) ∨ entry ∈ scan vol (pendingAfter vol q pending) rest) := by
  rw [scan, pendingAfter, Volume.IsShort]
  by_cases stop : vol.mark q = 0
  · simp [stop]
  by_cases deleted : vol.mark q = 0xE5
  · simp only [deleted, if_true, ne_eq, not_true, false_and, if_false, false_or]
    simp only [show ¬(0xE5 : UInt8) = 0 by decide, if_false, not_false_iff, true_and]
  by_cases fragment : vol.attr q = 0x0F
  · simp [stop, deleted, fragment]
  by_cases label : vol.attr q &&& 0x08 = 0
  · simp [stop, deleted, fragment, label]
  · simp [stop, deleted, fragment, label]

/-- Each slot of the run but its last is followed by another one of it. -/
def Followed (run : Place → Prop) (s : Place) (ps : List Place) : Prop :=
  ∀ k q, ps[k]? = some q → run q → q ≠ s → ∃ r, ps[k + 1]? = some r ∧ run r

/-- A run of slots of one entry in which nothing is listed but its last slot. When the slots of the run are written over,
and again nothing is listed but the last, the rest of the listing stays. -/
theorem mem_scan_of_run (run : Place → Prop) (same : ∀ q, ¬run q → vol'.slot q = vol.slot q)
    (before : ∀ q, run q → q ≠ s → ¬(vol.mark q ≠ 0 ∧ vol.IsShort q)) (last : vol.mark s ≠ 0 → pendingAfter vol s = fun _ => none)
    (going : ∀ q, run q → vol'.mark q ≠ 0) (last' : pendingAfter vol' s = fun _ => none)
    (followed : Followed run s ps)
    (pending : one = two ∨ ∃ q, ps[0]? = some q ∧ run q) (mem : entry ∈ scan vol one ps) (other : entry.1 ≠ s) :
    entry ∈ scan vol' two ps := by
  induction ps generalizing one two with
  | nil => cases mem
  | cons q rest ih =>
    have later : Followed run s rest := fun k r here => followed (k + 1) r here
    obtain ⟨mark, found⟩ := mem_scan_cons.mp mem
    by_cases inside : run q
    · have tail : entry ∈ scan vol (pendingAfter vol q one) rest := by
        refine found.resolve_left fun ⟨short, here⟩ => ?_
        by_cases ends : q = s
        · exact other (here ▸ ends)
        · exact before q inside ends ⟨mark, short⟩
      refine mem_scan_cons.mpr ⟨going q inside, .inr (ih later ?_ tail)⟩
      by_cases ends : q = s
      · subst ends
        rw [last mark, last']
        exact .inl rfl
      · exact .inr (followed 0 q rfl inside ends)
    · have slot := same q inside
      have equal : one = two := pending.resolve_right fun ⟨r, head, there⟩ => inside (some.inj head ▸ there)
      subst equal
      have short : vol'.IsShort q ↔ vol.IsShort q := by
        rw [Volume.IsShort, Volume.IsShort, mark_congr slot, attr_congr slot]
      have name : vol'.shortName q = vol.shortName q := by rw [shortName, shortName, slot]
      have after : pendingAfter vol' q one = pendingAfter vol q one := by
        rw [pendingAfter, pendingAfter, mark_congr slot, attr_congr slot, slot]
      rw [mem_scan_cons, mark_congr slot, short, name, after]
      exact ⟨mark, found.imp_right (ih later (.inl rfl))⟩

/-- The slots of a cluster follow each other. -/
theorem places_next (here : (vol.places cells)[k]? = some q) (bound : q.2 + 1 < vol.slotCount) :
    (vol.places cells)[k + 1]? = some (q.1, q.2 + 1) := by
  have length : ∀ cluster, (vol.placesIn cluster).length = vol.slotCount := fun cluster => by
    rw [placesIn, length_map, length_range]
  induction cells generalizing k with
  | nil => cases here
  | cons cluster rest ih =>
    rw [places, flatMap_cons, ← places] at here ⊢
    by_cases inside : k < vol.slotCount
    · rw [getElem?_append_left (by rw [length]; exact inside), placesIn, getElem?_map,
        getElem?_range inside] at here
      cases here
      rw [getElem?_append_left (by rw [length]; exact bound), placesIn, getElem?_map, getElem?_range bound]
      rfl
    · rw [getElem?_append_right (by rw [length]; omega), length] at here
      rw [getElem?_append_right (by rw [length]; omega), length, Nat.sub_add_comm (by omega)]
      exact ih here

theorem pendingAfter_eq_none (kind : vol.mark q = 0xE5 ∨ vol.attr q ≠ 0x0F) : pendingAfter vol q = fun _ => none :=
  funext fun _ => if_neg fun ⟨mark, attr⟩ => kind.elim mark fun other => other attr

theorem Erased.fragment (erased : Erased vol p q) (other : q ≠ p) : vol.attr q = 0x0F ∧ q.2 < p.2 := by
  obtain ⟨same, first, le⟩ := erased
  have early : q.2 < p.2 := Nat.lt_of_le_of_ne le fun index => other (Prod.ext same index)
  have attr := attr_of_longRun first early
  rw [← same] at attr
  exact ⟨attr, early⟩

/-- A deleted entry takes no other one with it. -/
theorem Found.mem_scan (found : Found vol cells short t) (mem : (q, name) ∈ scan vol none (vol.places cells)) (other : q ≠ t) :
    (q, name) ∈ scan (eraseEntry vol t) none ((eraseEntry vol t).places cells) := by
  have mark : ∀ r, Erased vol t r → (eraseEntry vol t).mark r = 0xE5 := fun r erased => by
    rw [mark, slot_eraseEntry, if_pos erased]
    exact overlay_mark _
  have self : Erased vol t t := ⟨rfl, Nat.sub_le _ _, Nat.le_refl _⟩
  have bound := (mem_places.mp found.place).2
  rw [places_congr (only_eraseEntry vol t).clusterBytes]
  refine mem_scan_of_run (Erased vol t) (fun r kept => ?_) (fun r erased early short => ?_)
    (fun _ => pendingAfter_eq_none (.inr found.fragment)) (fun r erased => ?_) (pendingAfter_eq_none (.inl (mark t self)))
    (fun k r here erased early => ?_) (.inl rfl) mem other
  · rw [slot_eraseEntry, if_neg kept]
  · exact short.2.2.1 (erased.fragment early).1
  · rw [mark r erased]
    decide
  · have before := (erased.fragment early).2
    obtain ⟨same, first, -⟩ := erased
    exact ⟨_, places_next here (by omega), same, Nat.le_succ_of_le first, before⟩

/-- An entry added takes nothing from the listing. -/
theorem mem_scan_added {after : Volume} (added : vol.put p 0 (entrySlots name attr start size) = after)
    (ok : NameOk name) (clear : ∀ r, InRun name p r → isFree vol r = true)
    (fits : p.2 + (longCount name + 1) ≤ vol.slotCount) (kind : attr ≠ 0x0F)
    (mem : entry ∈ scan vol none (vol.places cells)) : entry ∈ scan after none (after.places cells) := by
  have free : ∀ r, InRun name p r → ¬(vol.mark r ≠ 0 ∧ vol.IsShort r) := fun r inside ⟨going, short⟩ =>
    (isFree_iff.mp (clear r inside)).elim going short.1
  have last := inRun_shortPlace name p
  have short := (shortAdded added).attr
  have bytes : after.clusterBytes = vol.clusterBytes := by
    rw [← added, (only_put vol p 0 _).clusterBytes]
  rw [places_congr bytes]
  refine mem_scan_of_run (InRun name p) (fun r outside => slot_added added outside) (fun r inside _ => free r inside)
    (fun going => pendingAfter_eq_none (.inl ((isFree_iff.mp (clear _ last)).resolve_left going)))
    (fun r inside => mark_added added ok inside) (pendingAfter_eq_none (.inr (by rwa [short])))
    (fun k r here inside early => ?_) (.inl rfl) mem fun same => ?_
  · obtain ⟨cluster, low, high⟩ := inside
    have before : r.2 ≠ p.2 + longCount name := fun index => early (Prod.ext cluster index)
    exact ⟨_, places_next here (by omega), cluster, Nat.le_succ_of_le low, show r.2 + 1 < _ by omega⟩
  · have listed := shorts_of_scan mem
    rw [same] at listed
    obtain ⟨live, short⟩ := mem_shorts.mp listed
    exact free _ last ⟨mark_of_mem_live live, short⟩

theorem scan_append_left (mem : entry ∈ scan vol pending ps) (more : List Place) : entry ∈ scan vol pending (ps ++ more) := by
  induction ps generalizing pending with
  | nil => cases mem
  | cons q rest ih =>
    obtain ⟨going, found⟩ := mem_scan_cons.mp mem
    exact mem_scan_cons.mpr ⟨going, found.imp_right ih⟩

theorem scan_of_slots (same : ∀ q ∈ ps, vol'.slot q = vol.slot q) : scan vol' pending ps = scan vol pending ps :=
  scan_congr fun q mem => ⟨mark_congr (same q mem), attr_congr (same q mem),
    by rw [shortName, same q mem, shortName], fun _ => same q mem⟩

theorem Grown.mem_scan (grown : Grown count dir cells new vol vol') (mem : entry ∈ scan vol none (vol.places cells)) :
    entry ∈ scan vol' none (vol'.places (cells ++ new)) := by
  rw [places_append, places_congr grown.only.clusterBytes]
  refine scan_append_left ?_ _
  rwa [scan_of_slots fun q place => grown.slot_old (mem_places.mp place).1]

/-! ### What is kept -/

def SameName (one two : List UInt8) : Prop := one.map toLower = two.map toLower
deriving Decidable

structure SameFields (vol vol' : Volume) (q : Place) : Prop where
  attr : vol'.attr q = vol.attr q
  fileSize : vol'.fileSize q = vol.fileSize q
  firstCluster : vol'.firstCluster q = vol.firstCluster q

theorem SameFields.of_slot (same : vol'.slot q = vol.slot q) : SameFields vol vol' q where
  attr := attr_congr same
  fileSize := by rw [Volume.fileSize, same, Volume.fileSize]
  firstCluster := by rw [Volume.firstCluster, same, Volume.firstCluster]

/-- An entry is in its directory under its name, with its attributes, size and first cluster; and a file has the clusters it
had, with the same bytes. -/
structure KeptEntry (count : Nat) (vol vol' : Volume) (dir : Nat) (q : Place) (name : List UInt8) : Prop where
  listed : ∃ entries, listing vol' dir = some entries ∧ (q, name) ∈ entries
  fields : SameFields vol vol' q
  contents : isDirectory vol q = false → ∀ cells, Owns count vol (vol.firstCluster q) cells →
    Owns count vol' (vol.firstCluster q) cells ∧ ∀ cluster ∈ cells, vol'.data cluster = vol.data cluster

/-- All entries of the volume but those with this name are kept. -/
def Kept (count : Nat) (vol vol' : Volume) (name : List UInt8) : Prop :=
  ∀ owner dir cells, Holds count vol owner true dir → Owns count vol dir cells →
    ∀ q other, (q, other) ∈ scan vol none (vol.places cells) → ¬SameName other name → KeptEntry count vol vol' dir q other

/-! ### Entries carried over -/

/-- The entries of a directory that are not lost are in the listing with the same fields. -/
def Carried (vol vol' : Volume) (cells cells' : List Nat) (lost : Place → Prop) : Prop :=
  ∀ q name, (q, name) ∈ scan vol none (vol.places cells) → ¬lost q →
    (q, name) ∈ scan vol' none (vol'.places cells') ∧ SameFields vol vol' q

theorem Carried.trans (first : Carried vol vol' cells cells' lost) (second : Carried vol' vol'' cells' cells'' lost) :
    Carried vol vol'' cells cells'' lost := by
  intro q name mem left
  obtain ⟨listed, one⟩ := first q name mem left
  obtain ⟨listed', two⟩ := second q name listed left
  exact ⟨listed', two.attr.trans one.attr, two.fileSize.trans one.fileSize, two.firstCluster.trans one.firstCluster⟩

theorem Only.carried (only : Only changed vol vol') (apart : ∀ cluster ∈ cells, cluster ∉ changed) (lost : Place → Prop) :
    Carried vol vol' cells cells lost := fun q name mem _ => by
  refine ⟨?_, .of_slot (only.slot (apart q.1 (shorts_places (shorts_of_scan mem)).1))⟩
  rwa [only.scan apart]

theorem Grown.carried (grown : Grown count dir cells new vol vol') (lost : Place → Prop) :
    Carried vol vol' cells (cells ++ new) lost :=
  fun _ _ mem _ => ⟨grown.mem_scan mem, .of_slot (grown.slot_old (shorts_places (shorts_of_scan mem)).1)⟩

theorem Found.carried (found : Found vol cells short t) (lose : lost t) : Carried vol (eraseEntry vol t) cells cells lost := by
  intro q name mem left
  have apart : q ≠ t := fun same => left (same ▸ lose)
  refine ⟨found.mem_scan mem apart, .of_slot ?_⟩
  rw [slot_eraseEntry, if_neg]
  exact fun erased => (mem_shorts.mp (shorts_of_scan mem)).2.2.1 (erased.fragment apart).1

theorem carried_added (ok : NameOk name) (clear : ∀ r, InRun name p r → isFree vol r = true)
    (fits : p.2 + (longCount name + 1) ≤ vol.slotCount) (kind : attr ≠ 0x0F) (firstCluster size : Nat) (lost : Place → Prop) :
    Carried vol (vol.put p 0 (entrySlots name attr firstCluster size)) cells cells lost := by
  intro q other mem _
  refine ⟨mem_scan_added rfl ok clear fits kind mem, .of_slot (slot_added rfl fun inside => ?_)⟩
  obtain ⟨live, short⟩ := mem_shorts.mp (shorts_of_scan mem)
  exact (isFree_iff.mp (clear q inside)).elim (mark_of_mem_live live) short.1

/-- The directories have kept their entries. -/
def Carry (count : Nat) (vol vol' : Volume) (parts parts' : Parts) (lost : Place → Prop) : Prop :=
  ∀ owner dir cells, parts owner = some ⟨true, dir, cells⟩ →
    ∃ cells', parts' owner = some ⟨true, dir, cells'⟩ ∧ Owns count vol' dir cells' ∧ Carried vol vol' cells cells' lost

theorem Carry.trans (first : Carry count vol vol' parts parts' lost) (second : Carry count vol' vol'' parts' parts'' lost) :
    Carry count vol vol'' parts parts'' lost := by
  intro owner dir cells here
  obtain ⟨cells', there, -, one⟩ := first owner dir cells here
  obtain ⟨cells'', there', owns, two⟩ := second owner dir cells' there
  exact ⟨cells'', there', owns, one.trans two⟩

/-- Changes in one directory. -/
theorem Layout.carry (layout : Layout count vol gone parts) (here : parts owner = some ⟨true, dir, cells⟩)
    (only : Only cells vol vol') (words : ∀ cluster, getNextCluster vol' cluster = getNextCluster vol cluster)
    (carried : Carried vol vol' cells cells lost) : Carry count vol vol' parts parts lost := by
  intro holder dir' cells' held
  have owns := (layout.owns held).congr fun cluster _ => words cluster
  by_cases same : holder = owner
  · subst same
    cases here.symm.trans held
    exact ⟨cells, held, owns, carried⟩
  · exact ⟨cells', held, owns, only.carried (layout.disjoint held here same) lost⟩

/-- A directory that grows. -/
theorem Layout.carry_grow (layout : Layout count vol gone parts) (here : parts owner = some ⟨true, dir, cells⟩)
    (grown : Grown count dir cells new vol vol') (lost : Place → Prop) :
    Carry count vol vol' parts (parts.grow owner ⟨true, dir, cells⟩ new) lost := by
  intro holder dir' cells' held
  have there := Parts.grow_dir here held new
  refine ⟨_, there, (layout.grow here rfl grown).owns there, ?_⟩
  by_cases same : holder = owner
  · subst same
    cases here.symm.trans held
    rw [if_pos rfl]
    exact grown.carried lost
  · rw [if_neg same]
    exact grown.only.carried (layout.apart_append held grown.free (layout.disjoint held here same)) lost

/-- The slot stands in one directory only. -/
theorem Layout.name_of (layout : Layout count vol gone parts) (here : parts owner = some part) (place : t.1 ∈ part.cells)
    (held : parts holder = some part') (listed : (t, name) ∈ scan vol none (vol.places part'.cells)) :
    (t, name) ∈ scan vol none (vol.places part.cells) := by
  by_cases same : holder = owner
  · subst same
    cases here.symm.trans held
    exact listed
  · exact absurd place (layout.disjoint held here same t.1 (shorts_places (shorts_of_scan listed)).1)

/-- The entries that are lost have the name, and the others keep their clusters. -/
theorem Exact.kept (exact : Exact count vol parts) (numbers : count + 2 ≤ badCluster)
    (carry : Carry count vol vol' parts parts' lost)
    (only : Only changed vol vol')
    (files : ∀ q start chain, parts (some q) = some ⟨false, start, chain⟩ → ¬lost q → ∀ cluster ∈ chain, cluster ∉ changed)
    (named : ∀ owner dir cells q other, parts owner = some ⟨true, dir, cells⟩ →
      (q, other) ∈ scan vol none (vol.places cells) → lost q → SameName other name) : Kept count vol vol' name := by
  intro owner dir cells holds owns q other listed different
  obtain ⟨others, here, owns'⟩ := exact.part_of holds
  obtain rfl := owns.unique owns'
  have left : ¬lost q := fun gone => different (named owner dir cells q other here listed gone)
  obtain ⟨cells', -, after, carried⟩ := carry owner dir cells here
  obtain ⟨mem, fields⟩ := carried q other listed left
  refine ⟨⟨_, listing_of_owns numbers after, mem⟩, fields, fun file chain ownsFile => ?_⟩
  have held : Holds count vol (some q) false (vol.firstCluster q) := file ▸
    .entry holds owns ⟨shorts_of_scan listed, fun dot => Bool.false_ne_true (file.symm.trans dot.1), ownsFile.positive⟩
  obtain ⟨chain', there, ownsFile'⟩ := exact.part_of held
  obtain rfl := ownsFile.unique ownsFile'
  have apart := files q _ chain there left
  exact ⟨only.owns ownsFile apart, fun cluster mem => only.data cluster (apart cluster mem)⟩

section
variable {parts : Parts} (here : parts owner = some ⟨true, dir, cells⟩)
include here

/-- Files have no clusters of directories. -/
theorem Layout.file_apart (layout : Layout count vol gone parts)
    (file : parts (some q) = some ⟨false, start, chain⟩) : ∀ cluster ∈ chain, cluster ∉ cells := by
  refine layout.disjoint file here ?_
  rintro rfl
  cases here.symm.trans file

/-- Changes in one slot of a directory, which stays what it is. -/
theorem Exact.kept_slot (exact : Exact count vol parts) (place : t ∈ vol.places cells)
    (only : Only [t.1] vol vol') (words : ∀ cluster, getNextCluster vol' cluster = getNextCluster vol cluster)
    (same : ∀ q, q ≠ t → vol'.slot q = vol.slot q) (going : vol'.mark t ≠ 0)
    (plain : vol.mark t = 0xE5 ∨ vol.attr t ≠ 0x0F) (plain' : vol'.mark t = 0xE5 ∨ vol'.attr t ≠ 0x0F)
    (named : ∀ other, (t, other) ∈ scan vol none (vol.places cells) → SameName other name ∨ vol'.slot t = vol.slot t) :
    Kept count vol vol' name := by
  have member := (mem_places.mp place).1
  let lost : Place → Prop := fun q => q = t ∧ vol'.slot t ≠ vol.slot t
  have carried : Carried vol vol' cells cells lost := fun q other mem left => by
    rw [places_congr only.clusterBytes]
    by_cases unchanged : vol'.slot t = vol.slot t
    · have slots : ∀ r, vol'.slot r = vol.slot r := fun r => by
        by_cases here : r = t
        · exact here ▸ unchanged
        · exact same r here
      rw [scan_of_slots fun r _ => slots r]
      exact ⟨mem, .of_slot (slots q)⟩
    · have other : q ≠ t := fun here => left ⟨here, unchanged⟩
      exact ⟨mem_scan_of_run (· = t) same (fun r here early => absurd here early) (fun _ => pendingAfter_eq_none plain)
        (fun r here => here ▸ going) (pendingAfter_eq_none plain') (fun _ r _ here early => absurd here early)
          (.inl rfl) mem other,
        .of_slot (same q other)⟩
  refine exact.kept exact.layout.mounted.numbers (exact.layout.carry here (Layout.only_of_mem member only) words carried) only
    (fun q start chain file _ cluster mem changed => ?_) fun holder dir' cells' q other held listed gone => ?_
  · exact exact.layout.file_apart here file cluster mem (mem_singleton.mp changed ▸ member)
  · obtain ⟨rfl, changed⟩ := gone
    exact (named other (exact.layout.name_of here member held listed)).resolve_right changed

/-- The clusters of a file are freed. -/
theorem Exact.free_file (exact : Exact count vol parts) (listed : p ∈ vol.shorts cells)
    (file : isDirectory vol p = false) : ∃ vol1 chain, freeClusterChain vol (vol.firstCluster p) = some vol1 ∧
      Only chain vol vol1 ∧ vol1.data = vol.data ∧ Layout count vol1 (some p) (update parts (some p) none) ∧
      ∀ q start others, parts (some q) = some ⟨false, start, others⟩ → q ≠ p → ∀ cluster ∈ others, cluster ∉ chain := by
  by_cases empty : vol.firstCluster p = 0
  · have nothing : freeClusterChain vol (vol.firstCluster p) = some vol := if_pos (.inl (by omega))
    exact ⟨vol, [], nothing, Only.refl _ _, rfl, exact.layout.take p, fun _ _ _ _ _ _ _ => not_mem_nil⟩
  obtain ⟨chain, there⟩ := exact.layout.closed here rfl
    ⟨listed, fun dot => Bool.false_ne_true (file.symm.trans dot.1), empty⟩ nofun
  obtain ⟨vol1, done, freed, layout⟩ := exact.release there
  exact ⟨vol1, chain, done, freed.only, freed.data, layout, fun q start others held other =>
    exact.layout.disjoint held there fun same => other (some.inj same)⟩

end

theorem Exact.take_dir (exact : Exact count vol parts) (file : isDirectory vol p = false)
    (held : parts holder = some ⟨true, dir, cells⟩) :
    update parts (some p) none holder = some ⟨true, dir, cells⟩ := by
  refine (update_of_ne ?_ _ _).trans held
  rintro rfl
  exact Bool.false_ne_true (file.symm.trans (exact.held _ _ held).slot.1.symm)

/-- The directories when a file has lost its part. -/
theorem Exact.carry_take (exact : Exact count vol parts) (file : isDirectory vol p = false)
    (layout : Layout count vol' (some p) (update parts (some p) none)) (data : vol'.data = vol.data)
    (bytes : vol'.clusterBytes = vol.clusterBytes) (lost : Place → Prop) :
    Carry count vol vol' parts (update parts (some p) none) lost := by
  intro holder dir cells held
  have kept := exact.take_dir file held
  have slots : ∀ q, vol'.slot q = vol.slot q := fun q => slot_congr (congrFun data q.1)
  refine ⟨cells, kept, layout.owns kept, fun q name mem _ => ⟨?_, .of_slot (slots q)⟩⟩
  rwa [places_congr bytes, scan_of_slots fun q _ => slots q]

/-! ### The calls -/

def modeAttr (attr : UInt8) (mode : Nat) : UInt8 := if mode.testBit 7 then attr &&& 0xFE else attr ||| 0x01

/-- The calls that are made for a name. -/
inductive NamedCall
  | unlink (parent : Nat) (name : List UInt8)
  | rename (oldParent : Nat) (oldName : List UInt8) (newParent : Nat) (newName : List UInt8)
  | chmod (node : Node) (mode : Nat)
  | close (node : Node)

namespace NamedCall

def name : NamedCall → List UInt8
  | .unlink _ name => name
  | .rename _ oldName _ _ => oldName
  | .chmod node _ => node.name
  | .close node => node.name

def run (vol : Volume) : NamedCall → Option Volume
  | .unlink parent name => (fat32Unlink vol parent name).map Prod.snd
  | .rename oldParent oldName newParent newName => (fat32Rename vol oldParent oldName newParent newName).map Prod.snd
  | .chmod node mode => (fat32Chmod vol node mode).map fun result => result.2.2
  | .close node => (fat32Close vol node).map Prod.snd

def dir (vol : Volume) : NamedCall → Nat
  | .unlink parent _ => parent
  | .rename oldParent _ _ _ => oldParent
  | .chmod _ _ => vol.rootCluster
  | .close node => parentOf vol node

/-- The slot that a rename deletes. The alias is looked for when the new entry is there. -/
def renameTarget (vol : Volume) (oldParent : Nat) (oldName : List UInt8) (newParent : Nat) (newName : List UInt8) :
    Option Place := do
  if (← fat32Finddir vol newParent newName).isSome then none
  else
    let node ← ← fat32Finddir vol oldParent oldName
    let (ret, vol) ← addEntry vol newParent newName (if node.isDirectory then 0x10 else 0x20) node.inode node.size
    if ret ≠ 0 then none else aliasTarget vol (← clusters vol (chainLimit + 1) oldParent) (to83Name oldName)

def target (vol : Volume) (cells : List Nat) : NamedCall → Option Place
  | .rename oldParent oldName newParent newName => renameTarget vol oldParent oldName newParent newName
  | .close node => sizeTarget vol cells (to83Name node.name)
  | call => aliasTarget vol cells (to83Name call.name)

/-- The call has nothing to change in its slot. -/
def Idle (vol : Volume) (t : Place) : NamedCall → Prop
  | .unlink parent name => ∃ p, findPlace vol parent name = some (some p) ∧ isDirectory vol p = true
  | .rename _ _ _ _ => False
  | .chmod _ mode => modeAttr (vol.attr t) mode = vol.attr t
  | .close node => node.isDirectory = true ∨ vol.fileSize t = node.size % 2 ^ 32

/-- The slot that the alias leads to is no entry, or has the name, or stays as it is. -/
def Named (vol : Volume) (call : NamedCall) : Prop :=
  ∀ cells t other, clusters vol (chainLimit + 1) (call.dir vol) = some cells → call.target vol cells = some t →
    (t, other) ∈ scan vol none (vol.places cells) → SameName other call.name ∨ call.Idle vol t

/-- The name is one of a directory of the volume. -/
def Applies (count : Nat) (vol : Volume) : NamedCall → Prop
  | .chmod node _ => ∃ owner dir p, Holds count vol owner true dir ∧ findPlace vol dir node.name = some (some p)
  | call => ∃ owner p, Holds count vol owner true (call.dir vol) ∧ findPlace vol (call.dir vol) call.name = some (some p)

/-- The slot that a mode or a size is written to is no fragment of a long name and does not become one. A new name is there
already, or is one that the directory can take. -/
def Plain (count : Nat) (vol : Volume) (call : NamedCall) : Prop :=
  match call with
  | .unlink _ _ => True
  | .rename _ _ newParent newName =>
    (∃ p, findPlace vol newParent newName = some (some p)) ∨ Receives count vol newParent newName 1 ∧ NameOk newName
  | .chmod _ _ => ∀ cells t, clusters vol (chainLimit + 1) (call.dir vol) = some cells → call.target vol cells = some t →
      vol.attr t ≠ 0x0E
  | .close _ => ∀ cells t, clusters vol (chainLimit + 1) (call.dir vol) = some cells → call.target vol cells = some t →
      vol.mark t = 0xE5 ∨ vol.attr t ≠ 0x0F

/-- The call returns, and no entry with another name has changed. -/
def Keeps (count : Nat) (vol : Volume) (call : NamedCall) : Prop :=
  ∃ vol', call.run vol = some vol' ∧ Kept count vol vol' call.name

end NamedCall

/-! ### Sizes and modes -/

theorem fileSize_put (vol : Volume) (t : Place) (size : Nat) : (vol.put t 28 (leBytes 4 size)).fileSize t = size % 2 ^ 32 := by
  have bytes : slice (overlay (vol.slot t) 28 (leBytes 4 size)) 28 4 = leBytes 4 size := by
    simpa only [leBytes_length] using slice_overlay (vol.slot t) 28 (leBytes 4 size)
  rw [fileSize, slot_put_self (by rw [leBytes_length]), bytes, leNat_leBytes]
  rfl

/-- The size that is there already. -/
theorem slot_put_size (same : vol.fileSize t = size % 2 ^ 32) : (vol.put t 28 (leBytes 4 size)).slot t = vol.slot t := by
  have bytes : leBytes 4 size = slice (vol.slot t) 28 4 := by
    have one := leBytes_leNat (leBytes 4 size)
    have two := leBytes_leNat (slice (vol.slot t) 28 4)
    rw [leBytes_length, leNat_leBytes] at one
    rw [← one, ← two]
    exact congrArg (leBytes 4) same.symm
  rw [slot_put_self (by rw [leBytes_length]), bytes, overlay_slice]

theorem modeAttr_ne_fragment (attr : UInt8) (mode : Nat) (kind : attr ≠ 0x0E) (fragment : attr ≠ 0x0F) :
    modeAttr attr mode ≠ 0x0F := by
  have locked : ∀ bits : BitVec 8, bits ≠ 14#8 → bits ≠ 15#8 → bits &&& 254#8 ≠ 15#8 ∧ bits ||| 1#8 ≠ 15#8 := by decide
  obtain ⟨one, two⟩ := locked attr.toBitVec (fun same => kind (UInt8.toBitVec_inj.mp same))
    fun same => fragment (UInt8.toBitVec_inj.mp same)
  rw [modeAttr]
  split
  · exact fun same => one (congrArg UInt8.toBitVec same)
  · exact fun same => two (congrArg UInt8.toBitVec same)

theorem slot_put_attr (vol : Volume) (t : Place) (attr : UInt8) : (vol.put t 11 [attr]).slot t = overlay (vol.slot t) 11 [attr] :=
  slot_put_self (show 11 + 1 ≤ 32 by decide)

theorem attr_put (vol : Volume) (t : Place) (attr : UInt8) : (vol.put t 11 [attr]).attr t = attr := by
  rw [Volume.attr, slot_put_attr]
  rfl

theorem fat32Chmod_of_owns (numbers : count + 2 ≤ badCluster) (owns : Owns count vol vol.rootCluster cells) (node : Node)
    (mode : Nat) : (fat32Chmod vol node mode).map (fun result => result.2.2) =
      some (match aliasTarget vol cells (to83Name node.name) with
        | none => vol
        | some t => vol.put t 11 [modeAttr (vol.attr t) mode]) := by
  rw [fat32Chmod, owns.clusters numbers, map_some, map_some]
  cases aliasTarget vol cells (to83Name node.name) with
  | none => rfl
  | some t =>
    dsimp only
    rw [modeAttr]
    split <;> rfl

theorem Kept.refl (consistent : Consistent count vol) (name : List UInt8) : Kept count vol vol name :=
  fun _ _ _ _ owns _ _ listed _ => ⟨⟨_, listing_of_owns consistent.mounted.numbers owns, listed⟩, .of_slot rfl,
    fun _ _ chain => ⟨chain, fun _ _ => rfl⟩⟩

namespace NamedCall

theorem named_iff (numbers : count + 2 ≤ badCluster) (owns : Owns count vol (dir vol call) cells) :
    Named vol call ↔ ∀ t, target vol cells call = some t →
      ∀ other, (t, other) ∈ scan vol none (vol.places cells) → SameName other call.name ∨ Idle vol t call := by
  refine ⟨fun named t found other => named cells t other (owns.clusters numbers) found, fun named cells' t other same => ?_⟩
  cases (owns.clusters numbers).symm.trans same
  exact fun found => named t found other

section
variable (consistent : Consistent count vol)
include consistent

theorem close_keeps_iff (applies : Applies count vol (.close node))
    (plain : Plain count vol (.close node)) : Keeps count vol (.close node) ↔ Named vol (.close node) := by
  obtain ⟨owner, -, holds, -⟩ := applies
  obtain ⟨parts, exact⟩ := consistent.exact
  obtain ⟨cells, here, owns⟩ := exact.part_of holds
  have numbers := consistent.mounted.numbers
  rw [named_iff numbers owns]
  by_cases dir : node.isDirectory = true
  · have done : run vol (.close node) = some vol := by
      rw [run, fat32Close, if_pos dir]
      rfl
    exact ⟨fun _ _ _ _ _ => .inr (.inl dir), fun _ => ⟨vol, done, .refl consistent _⟩⟩
  have ends : clusters vol (chainLimit + 1) (parentOf vol node) = some cells := owns.clusters numbers
  rw [Keeps, run, fat32Close, if_neg dir, updateEntrySize, ends, map_some, map_some, map_some]
  show _ ↔ ∀ t, sizeTarget vol cells (to83Name node.name) = some t → _
  cases found : sizeTarget vol cells (to83Name node.name) with
  | none => exact ⟨fun _ => by simp, fun _ => ⟨vol, rfl, .refl consistent _⟩⟩
  | some t =>
    have inside := mem_of_find?_eq_some found
    have place := (takeWhile_sublist _).subset inside
    have going := mark_of_mem_live inside
    have alike := Alike.put_size vol t t node.size
    have kind := plain cells t ends found
    constructor
    · rintro ⟨vol', done, kept⟩ r same other listed
      cases done
      cases same
      refine or_iff_not_imp_left.mpr fun different => .inr ?_
      have fields := (kept owner _ cells holds owns t other listed different).fields
      exact fields.fileSize.symm.trans (fileSize_put vol t node.size)
    · intro named
      refine ⟨_, rfl, exact.kept_slot here place (only_put vol t 28 _) (fun _ => rfl)
        (fun q other => slot_put_of_ne other (by rw [leBytes_length])) (by rwa [alike.mark]) kind
        (by rwa [alike.mark, alike.attr]) fun other listed => ?_⟩
      exact (named t rfl other listed).imp_right fun idle => slot_put_size (idle.resolve_left dir)

theorem chmod_keeps_iff (plain : Plain count vol (.chmod node mode)) :
    Keeps count vol (.chmod node mode) ↔ Named vol (.chmod node mode) := by
  have holds : Holds count vol none true vol.rootCluster := .root
  obtain ⟨parts, exact⟩ := consistent.exact
  obtain ⟨cells, here, owns⟩ := exact.part_of holds
  have numbers := consistent.mounted.numbers
  rw [named_iff numbers owns, Keeps, run, fat32Chmod_of_owns numbers owns]
  show _ ↔ ∀ t, aliasTarget vol cells (to83Name node.name) = some t → _
  cases search : aliasTarget vol cells (to83Name node.name) with
  | none => exact ⟨fun _ => nofun, fun _ => ⟨vol, rfl, .refl consistent _⟩⟩
  | some t =>
    have found := aliasTarget_found search
    have fragment := modeAttr_ne_fragment (vol.attr t) mode (plain cells t (owns.clusters numbers) search) found.fragment
    have mark : (vol.put t 11 [modeAttr (vol.attr t) mode]).mark t = vol.mark t := by
      rw [mark, slot_put_attr]
      rfl
    constructor
    · rintro ⟨vol', done, kept⟩ r same other listed
      cases done
      cases same
      refine or_iff_not_imp_left.mpr fun different => ?_
      have fields := (kept none _ cells holds owns t other listed different).fields
      exact (attr_put vol t _).symm.trans fields.attr
    · intro named
      refine ⟨_, rfl, exact.kept_slot here found.place (only_put vol t 11 _) (fun _ => rfl)
        (fun q other => slot_put_of_ne other (show 11 + 1 ≤ 32 by decide)) ?_ (.inr found.fragment)
        (.inr (by rwa [attr_put])) fun other listed => ?_⟩
      · rw [mark]
        exact found.before t.2 (Nat.le_refl _)
      · refine (named t rfl other listed).imp_right fun idle => ?_
        rw [slot_put_attr, show modeAttr (vol.attr t) mode = vol.attr t from idle]
        exact overlay_slice (vol.slot t) 11 1

theorem unlink_keeps_iff {name : List UInt8} (applies : Applies count vol (.unlink parent name)) :
    Keeps count vol (.unlink parent name) ↔ Named vol (.unlink parent name) := by
  obtain ⟨owner, p, holds, found⟩ := applies
  replace holds : Holds count vol owner true parent := holds
  replace found : findPlace vol parent name = some (some p) := found
  obtain ⟨parts, exact⟩ := consistent.exact
  obtain ⟨cells, here, owns⟩ := exact.part_of holds
  have numbers := consistent.mounted.numbers
  obtain ⟨listed, present⟩ := findPlace_spec numbers owns found
  rw [named_iff numbers (show Owns count vol (dir vol (.unlink parent name)) cells from owns)]
  by_cases kind : isDirectory vol p = true
  · have done : run vol (.unlink parent name) = some vol := by
      rw [run, fat32Unlink, present]
      exact congrArg (Option.map Prod.snd) (if_pos kind)
    exact ⟨fun _ _ _ _ _ => .inr ⟨p, found, kind⟩, fun _ => ⟨vol, done, .refl consistent _⟩⟩
  have file := eq_false_of_ne_true kind
  obtain ⟨vol1, chain, released, only, data, layout, files⟩ := exact.free_file here (shorts_of_scan listed) file
  have freed := exact.take_dir file here
  have done : run vol (.unlink parent name) = some (match aliasTarget vol cells (to83Name name) with
      | none => vol1
      | some t => eraseEntry vol1 t) := by
    have result : fat32Unlink vol parent name = invalidateEntries vol1 parent name := by
      rw [fat32Unlink, present]
      refine (if_neg kind).trans ?_
      exact congrArg (Option.bind · fun vol => invalidateEntries vol parent name) released
    rw [run, result, invalidateEntries, (layout.owns freed).clusters numbers, map_some, map_some,
      aliasTarget_congr data only.clusterBytes]
    cases aliasTarget vol cells (to83Name name) <;> rfl
  have own : ∀ holder dir cells' other, parts holder = some ⟨true, dir, cells'⟩ → (p, other) ∈ scan vol none (vol.places cells') →
      SameName other name := fun holder dir cells' other held mem =>
    congrArg (map toLower) (scan_name_unique owns.nodup
      (exact.layout.name_of here (shorts_places (shorts_of_scan listed)).1 held mem) listed)
  rw [Keeps, done]
  show _ ↔ ∀ t, aliasTarget vol cells (to83Name name) = some t → _
  cases search : aliasTarget vol cells (to83Name name) with
  | none =>
    refine ⟨fun _ => by simp, fun _ => ⟨vol1, rfl, ?_⟩⟩
    refine exact.kept numbers (exact.carry_take file layout data only.clusterBytes (· = p)) only files ?_
    rintro holder dir cells' q other held mem rfl
    exact own holder dir cells' other held mem
  | some t =>
    have hit := aliasTarget_found ((aliasTarget_congr data only.clusterBytes).trans search)
    have member := (mem_places.mp hit.place).1
    have words := getNextCluster_eraseEntry vol1 t
    constructor
    · rintro ⟨vol', done, kept⟩ r same other listed'
      cases done
      cases same
      refine or_iff_not_imp_left.mpr fun different => ?_
      obtain ⟨entries, result, mem⟩ := (kept owner _ cells holds owns t other listed' different).listed
      cases (listing_of_owns numbers ((layout.owns freed).congr fun cluster _ => words cluster)).symm.trans result
      exact absurd rfl (hit.shorts (shorts_of_scan mem)).2.1
    · intro named
      let lost : Place → Prop := fun q => q = p ∨ q = t
      have carry := (exact.carry_take file layout data only.clusterBytes lost).trans
        (layout.carry freed (Layout.only_of_mem member (only_eraseEntry vol1 t)) words (hit.carried (.inr rfl)))
      have change := (only.mono (subset_append_left _ _)).trans ((only_eraseEntry vol1 t).mono (subset_append_right _ _))
      refine ⟨_, rfl, exact.kept numbers carry change (fun q start others held left cluster mem changed => ?_) ?_⟩
      · rcases mem_append.mp changed with freed | slot
        · exact files q start others held (fun same => left (.inl same)) cluster mem freed
        · exact exact.layout.file_apart here held cluster mem (mem_singleton.mp slot ▸ member)
      rintro holder dir cells' q other held mem (rfl | rfl)
      · exact own holder dir cells' other held mem
      · refine (named q rfl other (exact.layout.name_of here member held mem)).resolve_right fun moved => ?_
        obtain ⟨p', found', dir⟩ := moved
        cases found.symm.trans found'
        exact kind dir

/-- What a rename does when the new entry is there. -/
theorem renamed_kept_iff (exact : Exact count vol parts) (source : Holds count vol owner true oldParent)
    (old : parts owner = some ⟨true, oldParent, oldCells⟩) (new : parts receiver = some ⟨true, newParent, newCells⟩)
    (clean : Clean vol newCells) (ok : NameOk newName)
    (grown : Grown count newParent newCells young vol vol1) (member : s.1 ∈ newCells ++ young)
    (fits : s.2 + (longCount newName + 1) ≤ vol1.slotCount) (clear : ∀ q, InRun newName s q → isFree vol1 q = true)
    (kind : attr ≠ 0x0F) (start size : Nat) :
    ∃ cells result, clusters (vol1.put s 0 (entrySlots newName attr start size)) (chainLimit + 1) oldParent = some cells ∧
      invalidateEntries (vol1.put s 0 (entrySlots newName attr start size)) oldParent oldName = some result ∧
      (Kept count vol result.2 oldName ↔
        ∀ t, aliasTarget (vol1.put s 0 (entrySlots newName attr start size)) cells (to83Name oldName) = some t →
          ∀ other, (t, other) ∈ scan vol none (vol.places oldCells) → SameName other oldName ∨ False) := by
  have numbers := consistent.mounted.numbers
  have layout := exact.layout.grow new rfl grown
  have after := Parts.grow_dir new old young
  generalize (if owner = receiver then newCells ++ young else oldCells) = others at after
  let slots := entrySlots newName attr start size
  let lost : Place → Prop := fun q => aliasTarget (vol1.put s 0 slots) others (to83Name oldName) = some q
  have added : Layout count (vol1.put s 0 slots) (some (shortPlace newName s)) _ :=
    layout.added (update_self ..) rfl (grown.clean clean) member _ (.inr ⟨rfl, rfl⟩) fun left => absurd rfl left
  have here : parts.grow receiver ⟨true, newParent, newCells⟩ young receiver = some ⟨true, newParent, newCells ++ young⟩ :=
    update_self ..
  have put := only_put vol1 s 0 slots
  have carry := (exact.layout.carry_grow new grown lost).trans
    (layout.carry here (Layout.only_of_mem member put) (fun _ => rfl) (carried_added ok clear fits kind start size lost))
  have only := grown.only.trans (Layout.only_of_mem member put)
  have files : ∀ q start chain, parts (some q) = some ⟨false, start, chain⟩ → ∀ cluster ∈ chain, cluster ∉ newCells ++ young :=
    fun q start chain file => exact.layout.apart_append file grown.free (exact.layout.file_apart new file)
  have ends := (added.owns after).clusters numbers
  refine ⟨others, _, ends, by rw [invalidateEntries, ends, map_some], ?_⟩
  cases search : aliasTarget (vol1.put s 0 slots) others (to83Name oldName) with
  | none =>
    refine iff_of_true (exact.kept numbers carry only (fun q start chain file _ => files q start chain file) ?_) (by simp)
    intro holder dir cells q other held listed gone
    cases search.symm.trans gone
  | some t =>
    have hit := aliasTarget_found search
    have inside := (mem_places.mp hit.place).1
    have words := getNextCluster_eraseEntry (vol1.put s 0 slots) t
    constructor
    · intro kept r same other listed
      cases same
      refine .inl (by_contra fun different => ?_)
      obtain ⟨entries, result, mem⟩ := (kept owner _ oldCells source (exact.layout.owns old) t other listed different).listed
      cases (listing_of_owns numbers ((added.owns after).congr fun cluster _ => words cluster)).symm.trans result
      exact absurd rfl (hit.shorts (shorts_of_scan mem)).2.1
    intro named
    have erase := only_eraseEntry (vol1.put s 0 slots) t
    have both := carry.trans (added.carry after (Layout.only_of_mem inside erase) words (hit.carried search))
    have change := (only.mono (subset_append_left _ [t.1])).trans (erase.mono (subset_append_right _ _))
    refine exact.kept numbers both change (fun q start chain file _ cluster mem changed => ?_)
      fun holder dir cells q other held listed gone => ?_
    · rcases mem_append.mp changed with early | late
      · exact files q start chain file cluster mem early
      · have different : some q ≠ receiver := by
          rintro rfl
          cases new.symm.trans file
        exact layout.file_apart after ((update_of_ne different _ _).trans file) cluster mem (mem_singleton.mp late ▸ inside)
    -- the slot is where the alias was before, or that of the new entry
    obtain rfl := some.inj (search.symm.trans gone)
    rcases exact.aliasTarget_moved old new clean grown member ok clear (to83Name oldName) attr start size after with same | taken
    · have place := (mem_places.mp (aliasTarget_found (same.symm.trans search)).place).1
      exact (named t rfl other (exact.layout.name_of old place held listed)).resolve_right id
    · obtain rfl := some.inj (search.symm.trans taken)
      exact absurd (shorts_of_scan listed)
        (grown.unlisted member (clear _ (inRun_shortPlace newName s)) (exact.layout.owns held))

theorem rename_keeps_iff (applies : Applies count vol (.rename oldParent oldName newParent newName))
    (plain : Plain count vol (.rename oldParent oldName newParent newName)) :
    Keeps count vol (.rename oldParent oldName newParent newName) ↔ Named vol (.rename oldParent oldName newParent newName) := by
  obtain ⟨owner, p, source, found⟩ := applies
  replace source : Holds count vol owner true oldParent := source
  replace found : findPlace vol oldParent oldName = some (some p) := found
  obtain ⟨parts, exact⟩ := consistent.exact
  obtain ⟨oldCells, old, oldOwns⟩ := exact.part_of source
  have numbers := consistent.mounted.numbers
  obtain ⟨-, present⟩ := findPlace_spec numbers oldOwns found
  rw [named_iff numbers (show Owns count vol (dir vol (.rename oldParent oldName newParent newName)) oldCells from oldOwns)]
  have unchanged : ∀ node, fat32Finddir vol newParent newName = some (some node) →
      (Keeps count vol (.rename oldParent oldName newParent newName) ↔ ∀ t,
        renameTarget vol oldParent oldName newParent newName = some t →
          ∀ other, (t, other) ∈ scan vol none (vol.places oldCells) →
          SameName other oldName ∨ False) := by
    intro node taken
    have none : renameTarget vol oldParent oldName newParent newName = none := by
      rw [renameTarget, taken]
      rfl
    have done : run vol (.rename oldParent oldName newParent newName) = some vol := by
      rw [run, fat32Rename, taken]
      rfl
    rw [none]
    exact iff_of_true ⟨vol, done, .refl consistent _⟩ (by simp)
  rcases plain with ⟨q, taken⟩ | ⟨receives, ok⟩
  · exact unchanged (nodeAt vol q newName) (by rw [fat32Finddir, taken]; rfl)
  obtain ⟨receiver, dest⟩ := receives.holds
  obtain ⟨newCells, new, newOwns⟩ := exact.part_of dest
  rcases fat32Finddir_of_owns numbers newOwns newName with absent | ⟨q, -, -, taken⟩
  case inr => exact unchanged _ taken
  obtain ⟨result, done, adding, step⟩ := fat32Rename_adds consistent.mounted newOwns receives.room absent present
  have hit : renameTarget vol oldParent oldName newParent newName = if result.1 ≠ 0 then none
      else (clusters result.2 (chainLimit + 1) oldParent).bind fun cells => aliasTarget result.2 cells (to83Name oldName) := by
    rw [renameTarget, absent, present]
    show (addEntry vol newParent newName (if isDirectory vol p then 0x10 else 0x20) (vol.firstCluster p)
      (vol.fileSize p)).bind _ = _
    rw [done]
    rfl
  rw [Keeps, run, step]
  show _ ↔ ∀ t, renameTarget vol oldParent oldName newParent newName = some t → _
  rw [hit]
  cases adding with
  | @full young vol1 grown =>
    refine iff_of_true ⟨vol1, rfl, exact.kept numbers
      (exact.layout.carry_grow new grown fun _ => False) grown.only
        (fun q start chain file _ => ?_) fun _ _ _ _ _ _ _ => False.elim⟩ (by simp)
    exact exact.layout.apart_append file grown.free (exact.layout.file_apart new file)
  | put grown member fits clear =>
    have kind : (if isDirectory vol p then 0x10 else 0x20 : UInt8) ≠ 0x0F := by
      split <;> decide
    obtain ⟨cells, erased, ends, result, same⟩ := renamed_kept_iff consistent exact source old new
      (receives.clean newCells newOwns) ok grown member fits clear kind (vol.firstCluster p) (vol.fileSize p)
    rw [if_neg (not_not.mpr rfl), if_neg (not_not.mpr rfl), ends, result]
    refine ⟨?_, fun named => ⟨erased.2, rfl, same.mpr named⟩⟩
    rintro ⟨vol', done, kept⟩
    cases done
    exact same.mp kept

end

end NamedCall

def twoFiles (one two : List UInt8) : Option Volume :=
  (fat32Create formatted 2 one).bind fun first => (fat32Create first.2 2 two).map Prod.snd

/-- A root of one cluster that takes entries. -/
def RootTakes (vol : Volume) : Prop :=
  vol.rootCluster = 2 ∧ vol.fatWords = 128 ∧ eof ≤ getNextCluster vol 2 ∧
    ∀ q ∈ vol.places [2], q ∈ vol.live (vol.places [2]) ∨ isFree vol q = true
deriving Decidable

theorem RootTakes.receives (root : RootTakes vol) (name : List UInt8) (searches : Nat) : Receives 126 vol 2 name searches := by
  obtain ⟨first, words, last, clean⟩ := root
  have owns : Owns 126 vol 2 [2] := owns_one last (by decide)
  refine ⟨⟨none, first ▸ .root⟩, fun cells owns' => owns.unique owns' ▸ clean, .inl fun cluster behind bound => ?_⟩
  omega

theorem twoFiles_consistent (one two : List UInt8)
    (root : (fat32Create formatted 2 one).all (fun first => RootTakes first.2) = true) :
    ∃ vol, twoFiles one two = some vol ∧ Consistent 126 vol := by
  obtain ⟨first, created, consistent⟩ := formatted_consistent.create (formatted_receives one)
  rw [created, all_some, decide_eq_true_iff] at root
  obtain ⟨second, created', consistent'⟩ := consistent.create (root.receives two 2)
  refine ⟨second.2, ?_, consistent'⟩
  rw [twoFiles, created, bind_some, created']
  rfl

/-- The second of two files with one alias, as it is when five bytes have been written. -/
def secondFile : Node := ⟨longName 50, false, 5, 4, 0, 0x01FF⟩

/-- Calls for the second file. -/
def secondCalls : List NamedCall :=
  [.unlink 2 (longName 50), .rename 2 (longName 50) 2 [120], .chmod secondFile 0, .close secondFile]

end Sirius.Fs.Fat32
