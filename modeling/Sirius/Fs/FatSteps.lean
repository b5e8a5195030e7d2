import Sirius.Fs.FatFree
import Sirius.Fs.FatEntry

/-! What the calls on a FAT32 volume do to its layout: each keeps the chains of the entries apart, under conditions on
the volume before the call. -/
namespace Sirius.Fs.Fat32
open Support Function List Option
open Volume hiding attr data

variable {count : Nat} {vol vol' vol1 : Volume} {p q : Place} {parts : Parts}

/-- The call returns and leaves the volume consistent. -/
abbrev Sound (count : Nat) (call : Option (Int × Volume)) : Prop := ∃ result, call = some result ∧ Consistent count result.2

/-! ### Lookups -/

/-- What a lookup has found. -/
theorem findPlace_spec (numbers : count + 2 ≤ badCluster) (owns : Owns count vol dir cells)
    (found : findPlace vol dir name = some (some p)) :
    (p, name) ∈ scan vol none (vol.places cells) ∧ fat32Finddir vol dir name = some (some (nodeAt vol p name)) := by
  refine ⟨?_, by rw [fat32Finddir, found]; rfl⟩
  rw [findPlace, listing_of_owns numbers owns, map_some, some_inj, map_eq_some_iff] at found
  obtain ⟨entry, search, rfl⟩ := found
  have same : entry.2 = name := of_decide_eq_true (List.find?_some search :)
  exact same ▸ mem_of_find?_eq_some search

/-- A lookup in a directory of the volume ends. -/
theorem fat32Finddir_of_owns (numbers : count + 2 ≤ badCluster) (owns : Owns count vol dir cells) (name : List UInt8) :
    fat32Finddir vol dir name = some none ∨
      ∃ p, findPlace vol dir name = some (some p) ∧ (p, name) ∈ scan vol none (vol.places cells) ∧
        fat32Finddir vol dir name = some (some (nodeAt vol p name)) := by
  have ends : ∃ result, findPlace vol dir name = some result := by
    rw [findPlace, listing_of_owns numbers owns]
    exact ⟨_, rfl⟩
  obtain ⟨result, found⟩ := ends
  cases result with
  | none => exact .inl (by rw [fat32Finddir, found]; rfl)
  | some p => exact .inr ⟨p, found, findPlace_spec numbers owns found⟩

/-! ### Layouts of what is held -/

/-- A layout without parts left over. -/
structure Exact (count : Nat) (vol : Volume) (parts : Parts) : Prop where
  layout : Layout count vol none parts
  held : ∀ owner part, parts owner = some part → Holds count vol owner part.isDir part.start

theorem Consistent.exact (consistent : Consistent count vol) : ∃ parts, Exact count vol parts := by
  obtain ⟨parts, layout, held⟩ := consistent.layout
  exact ⟨parts, layout, held⟩

namespace Exact

theorem part_of (exact : Exact count vol parts) (holds : Holds count vol owner isDir start) :
    ∃ cells, parts owner = some ⟨isDir, start, cells⟩ ∧ Owns count vol start cells := by
  obtain ⟨cells, here⟩ := exact.layout.part_of_holds holds
  exact ⟨cells, here, exact.layout.owns here⟩

/-- A free slot of a directory, also of its new clusters, has no part. -/
theorem fresh (exact : Exact count vol parts) (grown : Grown count dir cells new vol vol') (member : q.1 ∈ cells ++ new)
    (free : isFree vol' q = true) : parts (some q) = none := by
  by_contra there
  obtain ⟨part, there⟩ := ne_none_iff_exists'.mp there
  obtain ⟨_, _, _, -, owns, entry⟩ := (exact.held _ _ there).inside
  exact grown.unlisted member free owns entry.listed

/-- Changes outside of all parts. -/
theorem frame (exact : Exact count vol parts) (only : Only changed vol vol')
    (apart : parts.Avoid changed) : Exact count vol' parts := by
  have kept : ∀ owner isDir start, Holds count vol owner isDir start → Holds count vol' owner isDir start := by
    intro owner isDir start holds
    induction holds with
    | root => exact only.rootCluster ▸ Holds.root
    | @entry _ _ cells p dir owns entry ih =>
      obtain ⟨others, here, owns'⟩ := exact.part_of dir
      obtain rfl := owns.unique owns'
      have alike := Alike.of_slot (only.slot (apart _ _ here p.1 (shorts_places entry.listed).1))
      rw [← alike.isDirectory, ← alike.firstCluster]
      refine .entry ih (only.owns owns (apart _ _ here)) ⟨?_, fun dot => entry.proper (alike.isDot.mp dot), ?_⟩
      · rw [only.shorts (apart _ _ here)]
        exact entry.listed
      · rw [alike.firstCluster]
        exact entry.chained
  exact ⟨exact.layout.frame only apart, fun owner part here => kept _ _ _ (exact.held owner part here)⟩

end Exact

def Private (count : Nat) (vol : Volume) (cells : List Nat) : Prop :=
  ∀ owner isDir start others, Holds count vol owner isDir start → Owns count vol start others →
    ∀ cluster ∈ others, cluster ∉ cells

theorem Exact.apart (exact : Exact count vol parts) (alone : Private count vol cells) :
    parts.Avoid cells :=
  fun owner part here => alone owner part.isDir part.start part.cells (exact.held owner part here) (exact.layout.owns here)

/-! ### Sizes -/

theorem Layout.resize (layout : Layout count vol none parts) (here : parts owner = some part) (dir : part.isDir = true)
    (name : List UInt8) (size : Nat) : ∃ result, updateEntrySize vol part.start name size = some result ∧
      Layout count result.2 none parts := by
  rw [updateEntrySize, (layout.owns here).clusters layout.mounted.numbers, map_some]
  refine ⟨_, rfl, ?_⟩
  split
  next => exact layout
  next p found =>
    have place := (takeWhile_sublist _).subset (mem_of_find?_eq_some found)
    refine layout.edit here (Layout.only_of_mem (mem_places.mp place).1 (only_put vol p 28 _)) (fun _ => rfl) none
      nofun fun _ q entry left => ?_
    have listed := entry.listed
    rw [shorts_put_size] at listed
    exact layout.known here dir (.put_size vol p q size) entry listed left

/-! ### Writes -/

theorem Layout.written (layout : Layout count vol none parts)
    (whose : (∃ owner, parts owner = some ⟨false, start, cells⟩) ∨
      parts.Avoid cells)
    (written : Extended count start cells new vol vol') : Consistent count vol' := by
  rcases whose with ⟨owner, here⟩ | alone
  · exact (layout.extend here new written.only written.owns written.free none nofun nofun).consistent
  · exact (layout.frame written.only fun owner part here => layout.apart_append here written.free
      (alone owner part here)).consistent

theorem Layout.apart_free (layout : Layout count vol gone parts) (free : getNextCluster vol new = 0) :
    parts.Avoid [new] :=
  fun _ _ here _ listed same => layout.free_apart free here (mem_singleton.mp same ▸ listed)

theorem owns_mark (mem : new ∈ freeClusters count vol) : Owns count (setCluster vol new eof) new [new] := by
  obtain ⟨bounds, -⟩ := mem_freeClusters.mp mem
  refine ⟨⟨rfl, ?_⟩, fun cluster listed => mem_singleton.mp listed ▸ bounds⟩
  rw [Volume.next, getNextCluster_mark]
  rfl

/-- The chain of a node that is written to is a file's or nobody's, and the write finds clusters of the volume for all it
needs, or none. -/
inductive Writable (count : Nat) (vol : Volume) (node : Node) (size : Nat) : Prop
  | refused (dir : node.isDirectory = true)
  | empty (none : node.inode = 0) (room : Room count vol (clustersFor vol size))
  | file {p : Place} (holds : Holds count vol (some p) false node.inode) (owns : Owns count vol node.inode cells)
      (room : Room count vol (clustersFor vol size - cells.length))
  | alone (owns : Owns count vol node.inode cells) (alone : Private count vol cells)
      (room : Room count vol (clustersFor vol size - cells.length))

theorem writeChain_consistent (layout : Layout count vol none parts) (owns : Owns count vol node.inode cells)
    (whose : (∃ owner, parts owner = some ⟨false, node.inode, cells⟩) ∨
      parts.Avoid cells)
    (room : Room count vol (clustersFor vol (offset + data.length) - cells.length)) :
    Consistent count (writeChain vol node offset data).2.2 := by
  obtain ⟨new, written⟩ := writeChain_spec layout.mounted owns room rfl
  exact layout.written whose written

theorem ne_badCluster (mounted : Mounted count vol) (mem : new ∈ freeClusters count vol) : new ≠ badCluster := by
  have := (mem_freeClusters.mp mem).1
  have := mounted.numbers
  omega

theorem setData_self (vol : Volume) (cluster : Nat) : setData vol cluster (vol.data cluster) = vol := by
  rw [setData, update_eq_self]

theorem Owns.positive (owns : Owns count vol start cells) : start ≠ 0 := by
  have := owns.range start owns.start_mem
  omega

theorem Consistent.write (consistent : Consistent count vol) (writable : Writable count vol node (offset + data.length)) :
    Consistent count (fat32Write vol node offset data).2.2 := by
  obtain ⟨parts, exact⟩ := consistent.exact
  rw [fat32Write]
  split
  next => exact consistent
  next file =>
    cases writable with
    | refused dir => exact absurd dir file
    | file holds owns room =>
      obtain ⟨cells, here, owns'⟩ := exact.part_of holds
      obtain rfl := owns.unique owns'
      rw [if_neg owns.positive]
      exact writeChain_consistent exact.layout owns (.inl ⟨_, here⟩) room
    | alone owns alone room =>
      rw [if_neg owns.positive]
      exact writeChain_consistent exact.layout owns (.inr (exact.apart alone)) room
    | empty none room =>
      rw [if_pos none]
      rcases taken : allocateCluster vol with ⟨new, vol1⟩
      dsimp only
      have searches : Room count vol (clustersFor vol (offset + data.length) - 1 + 1) := room
      rcases allocateCluster_spec consistent.mounted searches taken with ⟨rfl, rfl, -⟩ | ⟨mem, rfl⟩
      · exact consistent
      · have apart := exact.layout.apart_free (mem_freeClusters.mp mem).2
        have layout := exact.layout.frame (Only.setCluster (mem_singleton.mpr rfl) eof) apart
        rw [if_neg (ne_badCluster consistent.mounted mem)]
        exact writeChain_consistent layout (owns_mark mem) (.inr apart) (searches.taken mem)

/-! ### New entries -/

theorem not_entry_of_free (free : isFree vol q = true) : ¬Entry vol cells q := fun entry => by
  obtain ⟨live, deleted, -, -⟩ := mem_shorts.mp entry.listed
  exact (isFree_iff.mp free).elim (mark_of_mem_live live) deleted

theorem Parts.apart {a b : Option Place} (here : parts a = some part) (fresh : parts b = none) : a ≠ b := by
  rintro rfl
  cases fresh.symm.trans here

/-- An entry is made for a chain that belongs to nobody. -/
theorem Layout.enter (layout : Layout count vol gone parts) (here : parts owner = some part) (dir : part.isDir = true)
    (clean : Clean vol part.cells) (member : p.1 ∈ part.cells) (clear : ∀ q, InRun name p q → isFree vol q = true)
    (fresh : parts (some (shortPlace name p)) = none) (number : start < 2 ^ 32)
    (owns : Owns count vol start cells)
    (alone : parts.Avoid cells)
    (inner : attr &&& 0x10 ≠ 0 → ∀ q, Entry vol cells q → gone ≠ some q →
      ∃ cells, parts (some q) = some ⟨isDirectory vol q, vol.firstCluster q, cells⟩) :
    Layout count (vol.put p 0 (entrySlots name attr start size)) gone
      (update parts (some (shortPlace name p)) (some ⟨decide (attr &&& 0x10 ≠ 0), start, cells⟩)) := by
  have free := clear _ (inRun_shortPlace name p)
  have given := layout.give (shortPlace name p) ⟨decide (attr &&& 0x10 ≠ 0), start, cells⟩ owns alone
    (fun _ _ _ _ => not_entry_of_free free) fun isDir q entry other =>
      ⟨fun same => not_entry_of_free free (same ▸ entry), inner (of_decide_eq_true isDir) q entry other⟩
  have different := Parts.apart here fresh
  refine given.added ((update_of_ne different _ _).trans here) dir clean member gone (.inl rfl) fun _ _ => ⟨cells, ?_⟩
  rw [update_self, Nat.mod_eq_of_lt number]

theorem Only.clean (only : Only changed vol vol') (apart : ∀ cluster ∈ cells, cluster ∉ changed) (clean : Clean vol cells) :
    Clean vol' cells := by
  have marks : ∀ q ∈ vol.places cells, vol'.mark q = vol.mark q := fun q mem =>
    mark_congr (only.slot (apart q.1 (mem_places.mp mem).1))
  intro q mem
  rw [places_congr only.clusterBytes] at mem ⊢
  refine (clean q mem).imp (fun live => ?_) fun free => ?_
  · rwa [live_congr fun r listed => iff_of_eq (congrArg (· = 0) (marks r listed))]
  · rwa [isFree_iff, marks q mem, ← isFree_iff]

/-- A new cluster gets an entry; or it has none if there is no room. -/
theorem Exact.enter (exact : Exact count vol parts) (here : parts owner = some part) (dir : part.isDir = true)
    (clean : Clean vol part.cells) (owns : Owns count vol new [new])
    (alone : parts.Avoid [new])
    (inner : attr &&& 0x10 ≠ 0 → ∀ q ∈ vol.shorts [new], IsDot vol q)
    (adding : Adding count part.start part.cells name (entrySlots name attr new 0) vol result) :
    Consistent count result.2 := by
  have bounds := owns.range new owns.start_mem
  have numbers := exact.layout.mounted.numbers
  simp only [badCluster] at numbers
  cases adding with
  | full grown => exact (exact.layout.grow here dir grown).consistent
  | @put young vol2 p grown member fits clear =>
    have fresh := exact.fresh grown (q := shortPlace name p) member (clear _ (inRun_shortPlace name p))
    have different := (Parts.apart here fresh).symm
    have away : new ∉ part.cells ++ young := fun listed => (mem_append.mp listed).elim
      (fun old => alone _ _ here new old (mem_singleton.mpr rfl))
      fun free => owns.allocated owns.start_mem (grown.free new free)
    have apart : ∀ cluster ∈ [new], cluster ∉ part.cells ++ young := fun cluster listed => mem_singleton.mp listed ▸ away
    refine ((exact.layout.grow here dir grown).enter (update_self ..) dir (grown.clean clean) member clear
      ((update_of_ne different _ _).trans fresh) (by omega) (grown.only.owns owns apart) ?_ ?_).consistent
    · intro other part' there cluster listed same
      rcases update_eq_some there with ⟨rfl, rfl⟩ | ⟨-, there⟩
      · exact apart cluster same listed
      · exact alone other part' there cluster listed same
    · intro isDir q entry _
      have listed := entry.listed
      rw [grown.only.shorts apart] at listed
      have alike := Alike.of_slot (grown.only.slot (apart q.1 (shorts_places listed).1))
      exact absurd (alike.isDot.mpr (inner isDir q listed)) entry.proper

/-- A directory that is a held one of the volume, has no old slots behind its end mark, and finds clusters of the volume if
it needs more. -/
structure Receives (count : Nat) (vol : Volume) (dir : Nat) (name : List UInt8) (searches : Nat) : Prop where
  holds : ∃ owner, Holds count vol owner true dir
  clean : ∀ cells, Owns count vol dir cells → Clean vol cells
  room : EntryRoom count vol name searches

theorem EntryRoom.taken (room : EntryRoom count vol name (searches + 1)) (mem : new ∈ freeClusters count vol) :
    EntryRoom count (setCluster vol new eof) name searches := by
  refine room.imp (fun tight => tight.setCluster (by decide)) fun ⟨enough, fits⟩ => ⟨?_, fits⟩
  have : (freeClusters count (setCluster vol new eof)).card + 1 = _ := card_freeClusters_setCluster mem (by decide)
  omega

theorem EntryRoom.free (room : EntryRoom count vol name (more + 1)) : Room count vol (more + 1) :=
  room.symm.imp_left And.left

/-- What `fat32_create` and `fat32_mkdir` do with the cluster that they have found. -/
theorem Consistent.make (consistent : Consistent count vol) (receives : Receives count vol parent name 2)
    (mem : new ∈ freeClusters count vol) (bytes : Nat → UInt8) (attr : UInt8)
    (inner : attr &&& 0x10 ≠ 0 → ∀ q ∈ (setData (setCluster vol new eof) new bytes).shorts [new],
      IsDot (setData (setCluster vol new eof) new bytes) q) :
    Sound count (addEntry (setData (setCluster vol new eof) new bytes) parent name attr new 0) := by
  obtain ⟨parts, exact⟩ := consistent.exact
  obtain ⟨owner, holds⟩ := receives.holds
  obtain ⟨cells, here, owns⟩ := exact.part_of holds
  have apart := exact.layout.apart_free (mem_freeClusters.mp mem).2
  have only : Only [new] vol (setData (setCluster vol new eof) new bytes) :=
    (Only.setCluster mem_cons_self eof).trans (Only.setData mem_cons_self bytes)
  have framed := exact.frame only apart
  obtain ⟨result, added, adding⟩ := addEntry_adding framed.layout.mounted (framed.layout.owns here)
    (receives.room.taken mem) attr new 0
  have own : Owns count (setData (setCluster vol new eof) new bytes) new [new] := (owns_mark mem).congr fun _ _ => rfl
  exact ⟨result, added, framed.enter here rfl (only.clean (apart owner _ here)
    (receives.clean cells owns)) own apart inner adding⟩

theorem Consistent.create (consistent : Consistent count vol) (receives : Receives count vol parent name 2) :
    Sound count (fat32Create vol parent name) := by
  obtain ⟨owner, holds⟩ := receives.holds
  obtain ⟨cells, owns⟩ := consistent.owned holds
  rcases fat32Finddir_of_owns consistent.mounted.numbers owns name with absent | ⟨p, -, -, present⟩
  case inr => exact ⟨(-1, vol), by rw [fat32Create, present]; rfl, consistent⟩
  rw [fat32Create, absent]
  dsimp only [bind_eq_bind, bind_some, isSome_none]
  rcases taken : allocateCluster vol with ⟨new, vol1⟩
  rcases allocateCluster_spec consistent.mounted receives.room.free taken with ⟨rfl, rfl, -⟩ | ⟨mem, rfl⟩
  · exact ⟨_, rfl, consistent⟩
  have made := consistent.make receives mem (vol.data new) 0x20 fun dir => absurd rfl dir
  have same : setData (setCluster vol new eof) new (vol.data new) = setCluster vol new eof := setData_self _ _
  rw [same] at made
  rw [if_neg Bool.false_ne_true, if_neg (ne_badCluster consistent.mounted mem)]
  exact made

theorem dotSlot_length (dots : List UInt8) (short : dots.length ≤ 11) (cluster : Nat) : (dotSlot dots cluster).length = 32 :=
  shortSlot_length _ (by rw [length_rightpad]; omega) _ _ _

/-- A new directory lists nothing but `.` and `..`. -/
theorem isDot_of_new (is : setData vol new (overlay (fun _ => 0) 0 (dotSlot [46] new ++ dotSlot [46, 46] parent)) = made)
    (mem : q ∈ made.shorts [new]) : IsDot made q := by
  let slots := [dotSlot [46] new, dotSlot [46, 46] parent]
  have sizes : ∀ slot ∈ slots, slot.length = 32 := by
    intro slot listed
    rcases mem_pair.mp listed with rfl | rfl
    · exact dotSlot_length [46] (by decide) new
    · exact dotSlot_length [46, 46] (by decide) parent
  have built : (setData vol new fun _ => 0).put (new, 0) 0 slots.flatten = made := by
    rw [← is, put, setData, setData, setData]
    simp [update_idem, slots, flatten_cons, flatten_nil]
  have run := slot_put_run (setData vol new fun _ => 0) (new, 0) q slots.flatten (flatten_length slots sizes)
  rw [built] at run
  have place := mem_singleton.mp (shorts_places mem).1
  have bytes : ∀ dots cluster, slots[q.2]? = some (dotSlot dots cluster) → ∀ k < 32,
      made.slot q k = (dotSlot dots cluster).getD k 0 := by
    intro dots cluster here k below
    have early := (List.getElem?_eq_some_iff.mp here).1
    rw [if_pos ⟨place, Nat.zero_le _, by rw [Nat.zero_add]; exact early⟩] at run
    rw [run]
    exact (if_pos below).trans (getD_flatten slots sizes here below)
  have dot : ∀ dots : List UInt8, dots.length ≤ 11 → ∀ cluster, slots[q.2]? = some (dotSlot dots cluster) →
      isDirectory made q = true ∧ made.shortName q = dots.rightpad 11 32 := by
    intro dots short cluster here
    obtain ⟨attr, name, -⟩ := shortSlot_slice (dots.rightpad 11 32) (by rw [length_rightpad]; omega) 0x10 cluster 0
    refine ⟨?_, (slice_congr fun i bound => bytes dots cluster here _ (by omega)).trans name⟩
    rw [isDirectory, Volume.attr, bytes dots cluster here 11 (by decide), dotSlot, attr]
    rfl
  rcases index : q.2 with _ | _ | n
  · exact (dot [46] (by decide) new (by rw [index]; rfl)).imp_right .inl
  · exact (dot [46, 46] (by decide) parent (by rw [index]; rfl)).imp_right .inr
  · rw [if_neg (by rintro ⟨-, -, early⟩; have : q.2 < 0 + 2 := early; omega)] at run
    have going := mark_of_mem_live (mem_shorts.mp mem).1
    rw [mark, run, slot, setData_data, place, update_self] at going
    exact absurd rfl going

theorem Consistent.mkdir (consistent : Consistent count vol) (receives : Receives count vol parent name 2) :
    Sound count (fat32Mkdir vol parent name) := by
  obtain ⟨owner, holds⟩ := receives.holds
  obtain ⟨cells, owns⟩ := consistent.owned holds
  rcases fat32Finddir_of_owns consistent.mounted.numbers owns name with absent | ⟨p, -, -, present⟩
  case inr => exact ⟨(-1, vol), by rw [fat32Mkdir, present]; rfl, consistent⟩
  rw [fat32Mkdir, absent]
  dsimp only [bind_eq_bind, bind_some, isSome_none]
  rcases taken : allocateCluster vol with ⟨new, vol1⟩
  rcases allocateCluster_spec consistent.mounted receives.room.free taken with ⟨rfl, rfl, -⟩ | ⟨mem, rfl⟩
  · exact ⟨_, rfl, consistent⟩
  · dsimp only
    rw [if_neg Bool.false_ne_true, if_neg (ne_badCluster consistent.mounted mem)]
    exact consistent.make receives mem _ 0x10 fun _ _ listed => isDot_of_new rfl listed

/-! ### Entries removed -/

theorem aliasTarget_congr (data : vol'.data = vol.data) (bytes : vol'.clusterBytes = vol.clusterBytes) :
    aliasTarget vol' cells short = aliasTarget vol cells short := by
  have slot : vol'.slot = vol.slot := funext fun p => slot_congr (congrFun data p.1)
  unfold aliasTarget placesIn slotCount mark Volume.attr shortName
  rw [slot, bytes]

/-- The alias of the name leads to the slot that the name was found at, which is not `.` or `..`. -/
def OwnSlot (vol : Volume) (dir : Nat) (name : List UInt8) (p : Place) : Prop :=
  ¬IsDot vol p ∧ ∃ cells, clusters vol (chainLimit + 1) dir = some cells ∧ aliasTarget vol cells (to83Name name) = some p

theorem Layout.invalidate (layout : Layout count vol none parts) (here : parts owner = some part) (dir : part.isDir = true)
    (name : List UInt8) : ∃ result, invalidateEntries vol part.start name = some result ∧ Layout count result.2 none parts := by
  rw [invalidateEntries, (layout.owns here).clusters layout.mounted.numbers, map_some]
  refine ⟨_, rfl, ?_⟩
  split
  next => exact layout
  next t found => exact layout.erase here dir (aliasTarget_found found) none (.inl rfl)

/-- The slot of the only entry without a chain is deleted. -/
theorem Layout.invalidate_left (layout : Layout count vol (some p) parts) (here : parts owner = some ⟨true, dir, cells⟩)
    (found : aliasTarget vol cells (to83Name name) = some p) : Sound count (invalidateEntries vol dir name) := by
  rw [invalidateEntries, (layout.owns here).clusters layout.mounted.numbers, map_some, found]
  exact ⟨_, rfl, (layout.erase here rfl (aliasTarget_found found) none (.inr ⟨rfl, rfl⟩)).consistent⟩

/-- The chain of an entry is freed. -/
theorem Exact.release (exact : Exact count vol parts) (there : parts (some p) = some ⟨isDir, start, chain⟩) :
    ∃ vol', freeClusterChain vol start = some vol' ∧ Freed chain vol vol' ∧
      Layout count vol' (some p) (update parts (some p) none) := by
  obtain ⟨vol', done, freed⟩ := freeClusterChain_of_owns exact.layout.mounted.numbers (exact.layout.owns there)
  refine ⟨vol', done, freed, (exact.layout.take p).frame freed.only fun other part' held => ?_⟩
  obtain ⟨different, held⟩ := of_take held
  exact exact.layout.disjoint held there different

section
variable (consistent : Consistent count vol)
include consistent

section
variable (holds : Holds count vol owner true parent)
include holds

/-- The chain of an entry is freed, and its slot deleted. -/
theorem Consistent.remove (owns : Owns count vol parent cells) (listed : p ∈ vol.shorts cells) (chained : vol.firstCluster p ≠ 0)
    (own : OwnSlot vol parent name p) :
    Sound count ((freeClusterChain vol (vol.firstCluster p)).bind fun vol => invalidateEntries vol parent name) := by
  have numbers := consistent.mounted.numbers
  obtain ⟨parts, exact⟩ := consistent.exact
  obtain ⟨others, here, owns'⟩ := exact.part_of holds
  obtain rfl := owns.unique owns'
  obtain ⟨proper, cells', same, target⟩ := own
  obtain rfl := some.inj ((owns.clusters numbers).symm.trans same)
  have entry : Entry vol cells p := ⟨listed, proper, chained⟩
  obtain ⟨own, there⟩ := exact.layout.closed here rfl entry nofun
  obtain ⟨vol', done, freed, layout⟩ := exact.release there
  have different : owner ≠ some p := fun same =>
    consistent.outside holds owns p same (shorts_places entry.listed).1
  have kept : update parts (some p) none owner = some ⟨true, parent, cells⟩ :=
    (update_of_ne different _ _).trans here
  have found : aliasTarget vol' cells (to83Name name) = some p :=
    (aliasTarget_congr freed.data freed.only.clusterBytes).trans target
  rw [done]
  exact layout.invalidate_left kept found

theorem Consistent.unlink (own : ∀ p, findPlace vol parent name = some (some p) → vol.firstCluster p = 0 ∨
    OwnSlot vol parent name p) :
    Sound count (fat32Unlink vol parent name) := by
  obtain ⟨cells, owns⟩ := consistent.owned holds
  rcases fat32Finddir_of_owns consistent.mounted.numbers owns name with absent | ⟨p, found, listed, present⟩
  · exact ⟨(-1, vol), by rw [fat32Unlink, absent]; rfl, consistent⟩
  rw [fat32Unlink, present]
  dsimp [bind_eq_bind]
  split
  next => exact ⟨_, rfl, consistent⟩
  next file =>
    by_cases empty : vol.firstCluster p = 0
    · obtain ⟨parts, exact⟩ := consistent.exact
      obtain ⟨others, here, -⟩ := exact.part_of holds
      obtain ⟨result, erased, layout⟩ := exact.layout.invalidate here rfl name
      have nothing : freeClusterChain vol (nodeAt vol p name).inode = some vol :=
        if_pos (.inl (by show vol.firstCluster p < 2; omega))
      rw [nothing]
      exact ⟨result, erased, layout.consistent⟩
    · exact consistent.remove holds owns (shorts_of_scan listed) empty ((own p found).resolve_left empty)

theorem Consistent.rmdir (own : ∀ p, findPlace vol parent name = some (some p) → isDirectory vol p = true →
    name ≠ [46] → name ≠ [46, 46] →
      vol.firstCluster p ≠ 0 ∧ OwnSlot vol parent name p) :
    Sound count (fat32Rmdir vol parent name) := by
  obtain ⟨cells, owns⟩ := consistent.owned holds
  rcases fat32Finddir_of_owns consistent.mounted.numbers owns name with absent | ⟨p, found, listed, present⟩
  · exact ⟨(-1, vol), by rw [fat32Rmdir, absent]; rfl, consistent⟩
  rw [fat32Rmdir, present]
  dsimp [bind_eq_bind]
  split
  next => exact ⟨_, rfl, consistent⟩
  next dir =>
    split
    next => exact ⟨_, rfl, consistent⟩
    next named =>
      obtain ⟨one, two⟩ := not_or.mp named
      obtain ⟨chained, slot⟩ := own p found (not_not.mp dir) one two
      obtain ⟨inner, ends⟩ := consistent.owned (.entry holds owns ⟨shorts_of_scan listed, slot.1, chained⟩)
      have empty : ∃ answer, isDirEmpty vol (nodeAt vol p name).inode = some answer :=
        ⟨_, congrArg (Option.map _) (ends.clusters consistent.mounted.numbers)⟩
      obtain ⟨answer, empty⟩ := empty
      rw [empty]
      dsimp
      split
      next => exact ⟨_, rfl, consistent⟩
      next => exact consistent.remove holds owns (shorts_of_scan listed) chained slot

end

end

/-! ### Entries renamed -/

abbrev Parts.grow (parts : Parts) (owner : Option Place) (part : Part) (new : List Nat) : Parts :=
  update parts owner (some { part with cells := part.cells ++ new })

/-- Another slot gets the chain of an entry. -/
theorem Exact.move (exact : Exact count vol parts) (here : parts owner = some part) (dir : part.isDir = true)
    (clean : Clean vol part.cells) (there : parts (some p) = some ⟨isDir, start, own⟩) (other : owner ≠ some p)
    (grown : Grown count part.start part.cells new vol vol1) (member : s.1 ∈ part.cells ++ new)
    (clear : ∀ q, InRun name s q → isFree vol1 q = true) (kind : decide (attr &&& 0x10 ≠ 0) = isDir) (size : Nat) :
    ∃ parts', Layout count (vol1.put s 0 (entrySlots name attr start size)) (some p) parts' ∧
      ∀ holder part', parts.grow owner part new holder = some part' → holder ≠ some p → parts' holder = some part' := by
  have fresh := exact.fresh grown (q := shortPlace name s) member (clear _ (inRun_shortPlace name s))
  have layout := exact.layout.grow here dir grown
  have moved : parts.grow owner part new (some p) = some ⟨isDir, start, own⟩ := (update_of_ne other.symm _ _).trans there
  have absent : parts.grow owner part new (some (shortPlace name s)) = none :=
    (update_of_ne (Parts.apart here fresh).symm _ _).trans fresh
  have number : start < 2 ^ 32 := by
    have := (layout.owns moved).range start (layout.owns moved).start_mem
    have := layout.mounted.numbers
    simp only [badCluster] at this
    omega
  refine ⟨_, (layout.take p).enter ((update_of_ne other _ _).trans (update_self ..)) dir (grown.clean clean)
    member clear ?_ number (layout.owns moved) ?_ ?_, fun holder part' held different => ?_⟩
  · by_cases same : some (shortPlace name s) = some p
    · rw [same, update_self]
    · exact (update_of_ne same _ _).trans absent
  · intro holder part' held
    obtain ⟨different, held⟩ := of_take held
    exact layout.disjoint held moved different
  · intro nested q entry left
    obtain ⟨cells, known⟩ := layout.closed moved (kind ▸ decide_eq_true nested) entry (some_ne_none q).symm
    exact ⟨cells, (update_of_ne left.symm _ _).trans known⟩
  · exact (update_of_ne (Parts.apart held absent) _ _).trans ((update_of_ne different _ _).trans held)

theorem Only.target (only : Only changed vol vol') (apart : ∀ cluster ∈ cells, cluster ∉ changed) (short : List UInt8) :
    aliasTarget vol' cells short = aliasTarget vol cells short := by
  rw [aliasTarget_eq, aliasTarget_eq, places_congr only.clusterBytes]
  refine List.find?_congr fun q mem => ?_
  rw [Bool.eq_iff_iff, decide_eq_true_iff, decide_eq_true_iff]
  exact Candidate.congr fun j _ => only.slot (apart q.1 (mem_places.mp mem).1)

/-- A directory after another, or itself, has grown. -/
theorem Parts.grow_dir (here : parts owner = some ⟨true, newParent, newCells⟩)
    (old : parts holder = some ⟨true, oldParent, oldCells⟩) (young : List Nat) :
    parts.grow owner ⟨true, newParent, newCells⟩ young holder =
      some ⟨true, oldParent, if holder = owner then newCells ++ young else oldCells⟩ := by
  by_cases same : holder = owner
  · subst same
    cases here.symm.trans old
    rw [if_pos rfl]
    exact update_self ..
  · rw [if_neg same]
    exact (update_of_ne same _ _).trans old

section
variable {s : Place} (exact : Exact count vol parts) (old : parts owner = some ⟨true, oldParent, oldCells⟩)
    (new : parts receiver = some ⟨true, newParent, newCells⟩) (clean : Clean vol newCells)
    (grown : Grown count newParent newCells young vol vol1) (member : s.1 ∈ newCells ++ young)
include exact old new clean grown member

/-- Where the alias of the old name leads when the new entry is there. -/
theorem Exact.aliasTarget_moved (ok : NameOk name)
    (clear : ∀ q, InRun name s q → isFree vol1 q = true) (short : List UInt8) (attr : UInt8) (start size : Nat)
    (after : parts.grow receiver ⟨true, newParent, newCells⟩ young owner = some ⟨true, oldParent, others⟩) :
    aliasTarget (vol1.put s 0 (entrySlots name attr start size)) others short = aliasTarget vol oldCells short ∨
      aliasTarget (vol1.put s 0 (entrySlots name attr start size)) others short = some (shortPlace name s) := by
  rw [Parts.grow_dir new old young] at after
  cases after
  by_cases same : owner = receiver
  · subst same
    cases old.symm.trans new
    rw [if_pos rfl, ← grown.target short]
    exact aliasTarget_added rfl ok (grown.clean clean) clear short
  · rw [if_neg same]
    have apart := exact.layout.apart_append old grown.free (exact.layout.disjoint old new same)
    have only := grown.only.trans (Layout.only_of_mem member (only_put vol1 s 0 (entrySlots name attr start size)))
    exact .inl (only.target apart short)

/-- What `fat32_rename` does after it has added the new entry. -/
theorem Exact.renamed (consistent : Consistent count vol) (ok : NameOk newName) (listed : p ∈ vol.shorts oldCells)
    (own : vol.firstCluster p = 0 ∨ OwnSlot vol oldParent oldName p)
    (clear : ∀ q, InRun newName s q → isFree vol1 q = true) (kind : decide (attr &&& 0x10 ≠ 0) = isDirectory vol p) (size : Nat) :
    Sound count (invalidateEntries (vol1.put s 0 (entrySlots newName attr (vol.firstCluster p) size)) oldParent oldName) := by
  have numbers := consistent.mounted.numbers
  have layout := exact.layout.grow new rfl grown
  have after := Parts.grow_dir new old young
  generalize (if owner = receiver then newCells ++ young else oldCells) = others at after
  by_cases empty : vol.firstCluster p = 0
  · -- both slots are without clusters, whichever is deleted
    have added : Layout count (vol1.put s 0 (entrySlots newName attr (vol.firstCluster p) size)) none _ :=
      layout.added (update_self ..) rfl (grown.clean clean) member none (.inl rfl) fun _ chained =>
        absurd (by rw [empty, Nat.zero_mod]) chained
    obtain ⟨result, erased, layout⟩ := added.invalidate after rfl oldName
    exact ⟨result, erased, layout.consistent⟩
  obtain ⟨proper, cells, same, found⟩ := own.resolve_left empty
  obtain rfl := some.inj (((exact.layout.owns old).clusters numbers).symm.trans same)
  obtain ⟨chain, there⟩ := exact.layout.closed old rfl ⟨listed, proper, empty⟩ nofun
  have outside : owner ≠ some p := fun here =>
    consistent.outside (exact.held _ _ old) (exact.layout.owns old) p here (shorts_places listed).1
  rcases exact.aliasTarget_moved old new clean grown member ok clear _ attr (vol.firstCluster p) size after with kept | taken
  · rw [found] at kept
    by_cases own : receiver = some p
    · -- a directory moved into itself is reached no more
      subst own
      have only := grown.only.trans
        (Layout.only_of_mem member (only_put vol1 s 0 (entrySlots newName attr (vol.firstCluster p) size)))
      have layout := (exact.layout.take p).frame only fun other part held => by
        obtain ⟨different, held⟩ := of_take held
        exact exact.layout.apart_append held grown.free (exact.layout.disjoint held new different)
      have holder : update parts (some p) none owner = some ⟨true, oldParent, others⟩ :=
        (update_of_ne outside _ _).trans ((update_of_ne outside _ _).symm.trans after)
      exact layout.invalidate_left holder kept
    · obtain ⟨parts', moved, rest⟩ := exact.move new rfl clean there own grown member clear kind size
      exact moved.invalidate_left (rest owner _ after outside) kept
  · -- the new slot has the alias too, and it is the one that is deleted
    have added : Layout count (vol1.put s 0 (entrySlots newName attr (vol.firstCluster p) size))
      (some (shortPlace newName s)) _ :=
      layout.added (update_self ..) rfl (grown.clean clean) member _ (.inr ⟨rfl, rfl⟩) fun left => absurd rfl left
    exact added.invalidate_left after taken

end

/-- A rename to a new name adds an entry and then deletes one. -/
theorem fat32Rename_adds (mounted : Mounted count vol) (newOwns : Owns count vol newParent newCells)
    (room : EntryRoom count vol newName 1) (absent : fat32Finddir vol newParent newName = some none)
    (present : fat32Finddir vol oldParent oldName = some (some (nodeAt vol p oldName))) :
    ∃ result, addEntry vol newParent newName (if isDirectory vol p then 0x10 else 0x20) (vol.firstCluster p) (vol.fileSize p) =
        some result ∧
      Adding count newParent newCells newName
        (entrySlots newName (if isDirectory vol p then 0x10 else 0x20) (vol.firstCluster p) (vol.fileSize p)) vol result ∧
      fat32Rename vol oldParent oldName newParent newName = if result.1 ≠ 0 then some (-2, result.2)
        else (invalidateEntries result.2 oldParent oldName).map fun erased => (0, erased.2) := by
  obtain ⟨result, added, adding⟩ := addEntry_adding mounted newOwns room (if isDirectory vol p then 0x10 else 0x20)
    (vol.firstCluster p) (vol.fileSize p)
  refine ⟨result, added, adding, ?_⟩
  rw [fat32Rename, absent, present]
  show (addEntry vol newParent newName (if isDirectory vol p then 0x10 else 0x20) (vol.firstCluster p)
    (vol.fileSize p)).bind _ = _
  rw [added, bind_some]
  obtain ⟨ret, vol1⟩ := result
  show (if ret ≠ 0 then some (-2, vol1) else (invalidateEntries vol1 oldParent oldName).bind _) = _
  cases invalidateEntries vol1 oldParent oldName <;> rfl

theorem fat32Rename_spec (mounted : Mounted count vol) (oldOwns : Owns count vol oldParent oldCells)
    (newOwns : Owns count vol newParent newCells) (room : EntryRoom count vol newName 1) :
    (∃ ret, fat32Rename vol oldParent oldName newParent newName = some (ret, vol)) ∨
      ∃ p result, findPlace vol oldParent oldName = some (some p) ∧ (p, oldName) ∈ scan vol none (vol.places oldCells) ∧
        Adding count newParent newCells newName
          (entrySlots newName (if isDirectory vol p then 0x10 else 0x20) (vol.firstCluster p) (vol.fileSize p)) vol result ∧
        (result.1 ≠ 0 → fat32Rename vol oldParent oldName newParent newName = some (-2, result.2)) ∧
        (result.1 = 0 → ∀ erased, invalidateEntries result.2 oldParent oldName = some erased →
          fat32Rename vol oldParent oldName newParent newName = some (0, erased.2)) := by
  have numbers := mounted.numbers
  rcases fat32Finddir_of_owns numbers newOwns newName with absent | ⟨p, -, -, present⟩
  case inr => exact .inl ⟨-3, by rw [fat32Rename, present]; rfl⟩
  rcases fat32Finddir_of_owns numbers oldOwns oldName with missing | ⟨p, found, listed, present⟩
  · exact .inl ⟨-1, by rw [fat32Rename, absent, missing]; rfl⟩
  obtain ⟨result, -, adding, step⟩ := fat32Rename_adds mounted newOwns room absent present
  refine .inr ⟨p, result, found, listed, adding, fun failed => step.trans (if_pos failed), fun done erased after => ?_⟩
  rw [step, if_neg (not_not.mpr done), after]
  rfl

theorem Consistent.rename (consistent : Consistent count vol) (source : Holds count vol owner true oldParent)
    (receives : Receives count vol newParent newName 1) (ok : NameOk newName)
    (own : ∀ p, findPlace vol oldParent oldName = some (some p) → vol.firstCluster p = 0 ∨ OwnSlot vol oldParent oldName p) :
    Sound count (fat32Rename vol oldParent oldName newParent newName) := by
  obtain ⟨receiver, dest⟩ := receives.holds
  obtain ⟨parts, exact⟩ := consistent.exact
  obtain ⟨oldCells, old, oldOwns⟩ := exact.part_of source
  obtain ⟨newCells, new, newOwns⟩ := exact.part_of dest
  rcases fat32Rename_spec consistent.mounted oldOwns newOwns receives.room with ⟨ret, same⟩ |
    ⟨p, _, found, listed, adding, failed, done⟩
  · exact ⟨_, same, consistent⟩
  have kind : decide ((if isDirectory vol p then 0x10 else 0x20 : UInt8) &&& 0x10 ≠ 0) = isDirectory vol p := by
    cases isDirectory vol p <;> rfl
  cases adding with
  | full grown => exact ⟨_, failed (show (-1 : Int) ≠ 0 by decide), (exact.layout.grow new rfl grown).consistent⟩
  | put grown member fits clear =>
    obtain ⟨result, erased, after⟩ := exact.renamed old new (receives.clean newCells newOwns) grown member consistent ok
      (shorts_of_scan listed) (own p found) clear kind (vol.fileSize p)
    exact ⟨_, done rfl result erased, after⟩

/-! ### Files opened and closed -/

theorem Consistent.close (consistent : Consistent count vol)
    (holds : node.isDirectory = false → ∃ owner, Holds count vol owner true (parentOf vol node)) :
    Sound count (fat32Close vol node) := by
  rw [fat32Close]
  split
  next => exact ⟨_, rfl, consistent⟩
  next file =>
    obtain ⟨parts, exact⟩ := consistent.exact
    obtain ⟨owner, dir⟩ := holds (eq_false_of_ne_true file)
    obtain ⟨cells, here, -⟩ := exact.part_of dir
    obtain ⟨result, updated, layout⟩ := exact.layout.resize here rfl node.name node.size
    rw [updated]
    exact ⟨_, rfl, layout.consistent⟩

def Truncates (node : Node) (flags : Nat) : Prop :=
  flags.testBit 0 = true ∧ flags.testBit 10 = true ∧ 2 ≤ node.inode ∧ node.isDirectory = false ∧ node.permissions ≠ 0x0155

theorem Consistent.opened (consistent : Consistent count vol)
    (spared : Truncates node flags → ∃ owner cells, Holds count vol owner true (parentOf vol node) ∧
      Owns count vol node.inode cells ∧ Private count vol cells) :
    ∃ result, fat32Open vol node flags = some result ∧ Consistent count result.2.2 := by
  rw [fat32Open]
  split
  next => exact ⟨_, rfl, consistent⟩
  next dir =>
    split
    next => exact ⟨_, rfl, consistent⟩
    next readOnly =>
      split
      next truncates =>
        have file := eq_false_of_ne_true fun isDir => dir ⟨truncates.1, isDir⟩
        obtain ⟨owner, chain, holds, owns, alone⟩ :=
          spared ⟨truncates.1, truncates.2.1, truncates.2.2, file, fun locked => readOnly ⟨truncates.1, locked⟩⟩
        obtain ⟨parts, exact⟩ := consistent.exact
        obtain ⟨cells, here, -⟩ := exact.part_of holds
        obtain ⟨vol', done, freed⟩ := freeClusterChain_of_owns consistent.mounted.numbers owns
        obtain ⟨result, updated, layout⟩ :=
          (exact.layout.frame freed.only (exact.apart alone)).resize here rfl node.name 0
        have parent : parentOf vol' node = parentOf vol node := by rw [parentOf, freed.only.rootCluster, parentOf]
        rw [done]
        dsimp [bind_eq_bind]
        rw [parent, updated]
        exact ⟨_, rfl, layout.consistent⟩
      next => exact ⟨_, rfl, consistent⟩

/-! ### A small volume -/

/-- A chain of one cluster. -/
theorem owns_one (last : eof ≤ getNextCluster vol cluster) (inside : 2 ≤ cluster ∧ cluster < count + 2) :
    Owns count vol cluster [cluster] :=
  ⟨⟨rfl, linkOf_eq_none.mpr last⟩, fun _ mem => mem_singleton.mp mem ▸ inside⟩

/-- A volume of 126 clusters with nothing but an empty root. -/
def formatted : Volume where
  fat cluster := if cluster = 0 then eof else if cluster ≤ 2 then 0x0FFFFFFF else 0
  fatWords := 128
  data _ _ := 0
  clusterBytes := 512
  rootCluster := 2

theorem formatted_consistent : Consistent 126 formatted := by
  have owns : Owns 126 formatted 2 [2] := owns_one (by decide) (by decide)
  have empty : formatted.shorts [2] = [] := by decide +kernel
  have root : ∀ owner isDir start, Holds 126 formatted owner isDir start → owner = none ∧ start = 2 := by
    intro owner isDir start holds
    induction holds with
    | root => exact ⟨rfl, rfl⟩
    | entry _ owns' entry ih =>
      obtain ⟨-, rfl⟩ := ih
      have listed := entry.listed
      rw [owns'.unique owns, empty] at listed
      cases listed
  refine ⟨⟨by decide, by decide, by decide⟩, fun holds => ?_, fun one two apart => ?_⟩
  · obtain ⟨-, rfl⟩ := root _ _ _ holds
    exact ⟨[2], owns⟩
  · exact absurd ((root _ _ _ one).1.trans (root _ _ _ two).1.symm) apart

theorem formatted_receives (name : List UInt8) : Receives 126 formatted 2 name 2 where
  holds := ⟨none, .root⟩
  clean _ _ _ _ := .inr rfl
  room := .inl fun cluster behind (bound : cluster < 128) => absurd behind (by omega)

/-- `longname1.txt`, `longname2.txt` and so on, whose aliases are the same. -/
def longName (digit : UInt8) : List UInt8 := [108, 111, 110, 103, 110, 97, 109, 101, digit, 46, 116, 120, 116]

end Sirius.Fs.Fat32
