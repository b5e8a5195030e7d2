import Sirius.Fs.FatSlots

/-! Volumes on which nothing is shared: every entry that is reached from the root has a chain of its own. Steps are
followed on a layout, which says for each entry which clusters it has. -/
namespace Sirius.Fs.Fat32
open Support Function Volume

variable {count : Nat} {vol vol' : Volume} {p q : Place}

/-- The directories `.` and `..`, which lead back to clusters of other entries. -/
def IsDot (vol : Volume) (p : Place) : Prop :=
  isDirectory vol p = true ∧ (vol.shortName p = [46].rightpad 11 32 ∨ vol.shortName p = [46, 46].rightpad 11 32)

instance : Decidable (IsDot vol p) := inferInstanceAs (Decidable (_ ∧ _))

/-- An entry of the directory with these clusters that has clusters itself. -/
structure Entry (vol : Volume) (cells : List Nat) (p : Place) : Prop where
  listed : p ∈ vol.shorts cells
  proper : ¬IsDot vol p
  chained : vol.firstCluster p ≠ 0

/-- The root, which has no slot, and the entries reached from it: whether each is a directory, and its
first cluster. -/
inductive Holds (count : Nat) (vol : Volume) : Option Place → Bool → Nat → Prop
  | root : Holds count vol none true vol.rootCluster
  | entry {p : Place} (dir : Holds count vol owner true start) (owns : Owns count vol start cells) (entry : Entry vol cells p) :
      Holds count vol (some p) (isDirectory vol p) (vol.firstCluster p)

structure Consistent (count : Nat) (vol : Volume) : Prop where
  mounted : Mounted count vol
  owned : ∀ {owner isDir start}, Holds count vol owner isDir start → ∃ cells, Owns count vol start cells
  disjoint : ∀ {one two oneDir twoDir start start' cells cells'}, Holds count vol one oneDir start →
    Holds count vol two twoDir start' → one ≠ two → Owns count vol start cells → Owns count vol start' cells' →
    ∀ cluster ∈ cells, cluster ∉ cells'

/-- Two short slots with the same name, kind and first cluster. -/
structure Alike (vol vol' : Volume) (p : Place) : Prop where
  mark : vol'.mark p = vol.mark p
  attr : vol'.attr p = vol.attr p
  shortName : vol'.shortName p = vol.shortName p
  firstCluster : vol'.firstCluster p = vol.firstCluster p

namespace Alike

theorem of_slot (same : vol'.slot p = vol.slot p) : Alike vol vol' p where
  mark := mark_congr same
  attr := attr_congr same
  shortName := by rw [Volume.shortName, same, Volume.shortName]
  firstCluster := by rw [Volume.firstCluster, same, Volume.firstCluster]

theorem isDirectory (alike : Alike vol vol' p) : isDirectory vol' p = isDirectory vol p := by
  rw [Fat32.isDirectory, alike.attr, Fat32.isDirectory]

theorem isDot (alike : Alike vol vol' p) : IsDot vol' p ↔ IsDot vol p := by
  rw [IsDot, alike.isDirectory, alike.shortName, IsDot]

/-- An entry that was listed before. -/
theorem entry (alike : Alike vol vol' p) (entry : Entry vol' cells' p) (listed : p ∈ vol.shorts cells) : Entry vol cells p where
  listed := listed
  proper dot := entry.proper (alike.isDot.mpr dot)
  chained := alike.firstCluster ▸ entry.chained

end Alike

/-! ### Layouts -/

/-- What an entry has. -/
structure Part where
  isDir : Bool
  start : Nat
  cells : List Nat

abbrev Parts := Option Place → Option Part

/-- No part has any of the clusters. -/
abbrev Parts.Avoid (parts : Parts) (cells : List Nat) : Prop :=
  ∀ owner part, parts owner = some part → ∀ cluster ∈ part.cells, cluster ∉ cells

/-- Every entry has a part, but for one whose part has been taken away. A part may be left whose entry is
gone. -/
structure Layout (count : Nat) (vol : Volume) (gone : Option Place) (parts : Parts) : Prop where
  mounted : Mounted count vol
  root : ∃ cells, parts none = some ⟨true, vol.rootCluster, cells⟩
  owns : ∀ {owner part}, parts owner = some part → Owns count vol part.start part.cells
  disjoint : ∀ {one two part part'}, parts one = some part → parts two = some part' → one ≠ two →
    ∀ cluster ∈ part.cells, cluster ∉ part'.cells
  closed : ∀ {owner part p}, parts owner = some part → part.isDir = true → Entry vol part.cells p → gone ≠ some p →
    ∃ cells, parts (some p) = some ⟨isDirectory vol p, vol.firstCluster p, cells⟩

theorem Holds.kind (one : Holds count vol owner isDir start) (two : Holds count vol owner isDir' start') :
    isDir = isDir' ∧ start = start' := by
  cases one with
  | root | entry =>
    cases two
    exact ⟨rfl, rfl⟩

theorem Layout.part_of_holds (layout : Layout count vol none parts) (holds : Holds count vol owner isDir start) :
    ∃ cells, parts owner = some ⟨isDir, start, cells⟩ := by
  induction holds with
  | root => exact layout.root
  | entry _ owns entry ih =>
    obtain ⟨cells, part⟩ := ih
    obtain rfl := (layout.owns part).unique owns
    exact layout.closed part rfl entry nofun

theorem Layout.consistent (layout : Layout count vol none parts) : Consistent count vol where
  mounted := layout.mounted
  owned holds := by
    obtain ⟨cells, part⟩ := layout.part_of_holds holds
    exact ⟨cells, layout.owns part⟩
  disjoint one two apart owns owns' := by
    obtain ⟨cells, part⟩ := layout.part_of_holds one
    obtain ⟨cells', part'⟩ := layout.part_of_holds two
    obtain rfl := (layout.owns part).unique owns
    obtain rfl := (layout.owns part').unique owns'
    exact layout.disjoint part part' apart

theorem Holds.slot (holds : Holds count vol (some p) isDir start) : isDir = isDirectory vol p ∧ start = vol.firstCluster p := by
  cases holds
  exact ⟨rfl, rfl⟩

/-- Where an entry stands. -/
theorem Holds.inside (holds : Holds count vol (some p) isDir start) : ∃ owner dir cells, Holds count vol owner true dir ∧
    Owns count vol dir cells ∧ Entry vol cells p := by
  cases holds with
  | entry dir owns entry => exact ⟨_, _, _, dir, owns, entry⟩

/-- No directory has its own entry. -/
theorem Consistent.outside (consistent : Consistent count vol) (holds : Holds count vol owner isDir start)
    (owns : Owns count vol start cells) : ∀ p, owner = some p → p.1 ∉ cells := by
  induction holds generalizing cells with
  | root => nofun
  | @entry owner _ _ p dir owns' entry ih =>
    intro p same mem
    cases same
    have listed := (shorts_places entry.listed).1
    by_cases own : owner = some p
    · exact ih owns' p own listed
    · exact consistent.disjoint dir (.entry dir owns' entry) own owns' owns p.1 listed mem

open Classical in
/-- A consistent volume has a layout. -/
theorem Consistent.layout (consistent : Consistent count vol) : ∃ parts, Layout count vol none parts ∧
    ∀ owner part, parts owner = some part → Holds count vol owner part.isDir part.start := by
  let parts : Parts := fun owner =>
    if held : ∃ part : Part, Holds count vol owner part.isDir part.start ∧
      Owns count vol part.start part.cells then some held.choose
    else none
  have known : ∀ owner part, parts owner = some part →
      Holds count vol owner part.isDir part.start ∧ Owns count vol part.start part.cells := by
    intro owner part found
    dsimp only [parts] at found
    split at found
    next held => exact Option.some.inj found ▸ held.choose_spec
    next => cases found
  have found : ∀ owner isDir start, Holds count vol owner isDir start → ∃ cells, parts owner = some ⟨isDir, start, cells⟩ := by
    intro owner isDir start holds
    obtain ⟨cells, owns⟩ := consistent.owned holds
    have held : ∃ part : Part, Holds count vol owner part.isDir part.start ∧ Owns count vol part.start part.cells :=
      ⟨⟨isDir, start, cells⟩, holds, owns⟩
    have here : parts owner = some held.choose := dif_pos held
    obtain ⟨same, same'⟩ := held.choose_spec.1.kind holds
    exact ⟨held.choose.cells, here.trans (congrArg some
      (by cases part : held.choose; rw [part] at same same'; cases same; cases same'; rfl))⟩
  refine ⟨parts, ⟨consistent.mounted, found none true _ .root, fun part => (known _ _ part).2, ?_, ?_⟩,
    fun owner part here => (known owner part here).1⟩
  · intro one two part part' here there apart
    obtain ⟨holds, owns⟩ := known one part here
    obtain ⟨holds', owns'⟩ := known two part' there
    exact consistent.disjoint holds holds' apart owns owns'
  · intro owner part p here dir entry _
    obtain ⟨holds, owns⟩ := known owner part here
    exact found _ _ _ (.entry (dir ▸ holds) owns entry)

theorem update_eq_some {parts : Parts} (there : update parts owner (some part) other = some part') :
    (other = owner ∧ part' = part) ∨ (other ≠ owner ∧ parts other = some part') := by
  by_cases same : other = owner
  · subst same
    rw [update_self] at there
    exact .inl ⟨rfl, (Option.some.inj there).symm⟩
  · rw [update_of_ne same] at there
    exact .inr ⟨same, there⟩

theorem of_take {parts : Parts} (there : update parts owner none other = some part) :
    other ≠ owner ∧ parts other = some part := by
  by_cases same : other = owner
  · rw [same, update_self] at there
    cases there
  · rw [update_of_ne same] at there
    exact ⟨same, there⟩

namespace Layout
variable {gone : Option Place} {parts : Parts}

section
variable (layout : Layout count vol gone parts)
include layout

/-- Clusters that are free belong to no part. -/
theorem free_apart (free : getNextCluster vol cluster = 0) (here : parts owner = some part) :
    cluster ∉ part.cells := fun mem => (layout.owns here).allocated mem free

/-- What a part has nothing of, with free clusters behind it. -/
theorem apart_append {cells new : List Nat} (here : parts owner = some part)
    (free : ∀ cluster ∈ new, getNextCluster vol cluster = 0) (apart : ∀ cluster ∈ part.cells, cluster ∉ cells) :
    ∀ cluster ∈ part.cells, cluster ∉ cells ++ new := by
  intro cluster mem changed
  rcases List.mem_append.mp changed with old | young
  · exact apart cluster mem old
  · exact layout.free_apart (free cluster young) here mem

/-- A part in an owner's place that has nothing of the other parts. -/
theorem disjoint_update (apart : ∀ other part', parts other = some part' → other ≠ owner →
    ∀ cluster ∈ part'.cells, cluster ∉ part.cells)
    (there : update parts owner (some part) one = some part') (there' : update parts owner (some part) two = some part'')
    (different : one ≠ two) : ∀ cluster ∈ part'.cells, cluster ∉ part''.cells := by
  rcases update_eq_some there with ⟨rfl, rfl⟩ | ⟨other, first⟩
  · rcases update_eq_some there' with ⟨rfl, rfl⟩ | ⟨other', second⟩
    · exact absurd rfl different
    · exact fun cluster mem shared => apart two part'' second other' cluster shared mem
  · rcases update_eq_some there' with ⟨rfl, rfl⟩ | ⟨-, second⟩
    · exact apart one part' first other
    · exact layout.disjoint first second different

/-- Changes outside of all parts. -/
theorem frame (only : Only changed vol vol')
    (apart : parts.Avoid changed) : Layout count vol' gone parts where
  mounted := only.mounted layout.mounted
  root := only.rootCluster ▸ layout.root
  owns here := only.owns (layout.owns here) (apart _ _ here)
  disjoint := layout.disjoint
  closed {owner part p} here dir entry other := by
    have listed := entry.listed
    rw [only.shorts (apart _ _ here)] at listed
    have alike := Alike.of_slot (only.slot (apart _ _ here p.1 (shorts_places listed).1))
    rw [alike.isDirectory, alike.firstCluster]
    exact layout.closed here dir (alike.entry entry listed) other

/-- Changes in one part, which may get free clusters behind its own. The entries that a directory then has are
known, and an entry that was without a part and is no more was in this directory. -/
theorem extend (here : parts owner = some part) (new : List Nat)
    (only : Only (part.cells ++ new) vol vol') (owns : Owns count vol' part.start (part.cells ++ new))
    (free : ∀ cluster ∈ new, getNextCluster vol cluster = 0) (gone' : Option Place)
    (back : ∀ t, gone = some t → gone' ≠ some t → t.1 ∈ part.cells ++ new)
    (entries : part.isDir = true → ∀ p, Entry vol' (part.cells ++ new) p → gone' ≠ some p →
      ∃ cells, parts (some p) = some ⟨isDirectory vol' p, vol'.firstCluster p, cells⟩) :
    Layout count vol' gone' (update parts owner (some { part with cells := part.cells ++ new })) := by
  -- other parts have neither the old clusters of this one nor the new ones
  have apart : ∀ other part', parts other = some part' → other ≠ owner → ∀ cluster ∈ part'.cells, cluster ∉ part.cells ++ new :=
    fun other part' there different => layout.apart_append there free (layout.disjoint there here different)
  have kept : ∀ other isDir start cells, parts other = some ⟨isDir, start, cells⟩ →
      ∃ cells', update parts owner (some { part with cells := part.cells ++ new }) other = some ⟨isDir, start, cells'⟩ := by
    intro other isDir start cells there
    by_cases same : other = owner
    · subst same
      obtain rfl := Option.some.inj (here.symm.trans there)
      exact ⟨_, update_self ..⟩
    · exact ⟨cells, (update_of_ne same _ _).trans there⟩
  refine ⟨only.mounted layout.mounted, ?_, fun {other part'} there => ?_, layout.disjoint_update apart,
    fun {other part' p} there dir entry left => ?_⟩
  · obtain ⟨cells, root⟩ := layout.root
    exact kept none true _ cells (only.rootCluster ▸ root)
  · rcases update_eq_some there with ⟨rfl, rfl⟩ | ⟨different, there⟩
    · exact owns
    · exact only.owns (layout.owns there) (apart other part' there different)
  · rcases update_eq_some there with ⟨rfl, rfl⟩ | ⟨different, there⟩
    · obtain ⟨cells, known⟩ := entries dir p entry left
      exact kept _ _ _ cells known
    have away := apart other part' there different
    have listed := entry.listed
    rw [only.shorts away] at listed
    have place := (shorts_places listed).1
    have alike := Alike.of_slot (only.slot (away p.1 place))
    rw [alike.isDirectory, alike.firstCluster]
    obtain ⟨cells, known⟩ := layout.closed there dir (alike.entry entry listed)
      fun taken => away p.1 place (back p taken left)
    exact kept _ _ _ cells known

end

/-- An entry's part is taken away. -/
theorem take (layout : Layout count vol none parts) (p : Place) : Layout count vol (some p) (update parts (some p) none) := by
  refine ⟨layout.mounted, ?_, fun there => layout.owns (of_take there).2, 
    fun there there' => layout.disjoint (of_take there).2 (of_take there').2,
    fun {owner part q} there dir entry other => ?_⟩
  · obtain ⟨cells, root⟩ := layout.root
    exact ⟨cells, (update_of_ne (show none ≠ some p from nofun) _ _).trans root⟩
  · obtain ⟨cells, known⟩ := layout.closed (of_take there).2 dir entry nofun
    have different : some q ≠ some p := fun same => other (same ▸ rfl)
    exact ⟨cells, (update_of_ne different _ _).trans known⟩

/-- A chain that belongs to nobody becomes the part of a place that is no entry yet. -/
theorem give (layout : Layout count vol gone parts) (p : Place) (part : Part) (owns : Owns count vol part.start part.cells)
    (alone : parts.Avoid part.cells)
    (unlisted : ∀ owner part', parts owner = some part' → part'.isDir = true → ¬Entry vol part'.cells p)
    (inner : part.isDir = true → ∀ q, Entry vol part.cells q → gone ≠ some q → q ≠ p ∧
      ∃ cells, parts (some q) = some ⟨isDirectory vol q, vol.firstCluster q, cells⟩) :
    Layout count vol gone (update parts (some p) (some part)) := by
  refine ⟨layout.mounted, ?_, fun {owner part'} there => ?_,
    layout.disjoint_update fun other part' there _ => alone other part' there, fun {owner part' q} there dir entry left => ?_⟩
  · obtain ⟨cells, root⟩ := layout.root
    exact ⟨cells, (update_of_ne (show none ≠ some p from nofun) _ _).trans root⟩
  · rcases update_eq_some there with ⟨-, rfl⟩ | ⟨-, there⟩
    · exact owns
    · exact layout.owns there
  · have known : q ≠ p ∧ ∃ cells, parts (some q) = some ⟨isDirectory vol q, vol.firstCluster q, cells⟩ := by
      rcases update_eq_some there with ⟨-, rfl⟩ | ⟨-, there⟩
      · exact inner dir q entry left
      · refine ⟨fun same => unlisted owner part' there dir (same ▸ entry), layout.closed there dir entry left⟩
    obtain ⟨different, cells, known⟩ := known
    exact ⟨cells, (update_of_ne (fun same => different (Option.some.inj same)) _ _).trans known⟩

end Layout

end Sirius.Fs.Fat32
