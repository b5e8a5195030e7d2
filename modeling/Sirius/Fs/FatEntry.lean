import Sirius.Fs.FatVolume
import Mathlib.Data.List.Find

/-! Entries that come, go and change: the slots that `fat32_add_entry`, `fat32_invalidate_entries` and
`fat32_update_entry_size` write, and which entries a directory has afterwards. -/
namespace Sirius.Fs.Fat32
open Support Function List
open Nat (le_add_right le_of_lt_succ lt_succ_of_le lt_succ_self not_lt_zero sub_le succ_pos)
open Volume hiding attr slot firstCluster

variable {count : Nat} {vol vol' : Volume} {p q : Place}

/-! ### Listings of a directory that has changed -/

namespace Volume

theorem live_congr (bytes : ∀ q ∈ ps, vol'.mark q = 0 ↔ vol.mark q = 0) : vol'.live ps = vol.live ps := by
  induction ps with
  | nil => rfl
  | cons p rest ih =>
    have first := bytes p mem_cons_self
    rw [live_cons, live_cons, ih fun q mem => bytes q (mem_cons_of_mem _ mem)]
    by_cases stop : vol.mark p = 0
    · rw [if_pos stop, if_pos (first.mpr stop)]
    · rw [if_neg stop, if_neg fun stop' => stop (first.mp stop')]

theorem mem_live_append (mem : q ∈ vol.live (front ++ back)) : q ∈ vol.live front ∨ q ∈ vol.live back := by
  rw [live, takeWhile_append] at mem
  split at mem
  next whole =>
    rw [← ( takeWhile_prefix _).eq_of_length whole] at mem
    exact mem_append.mp mem
  next => exact .inl mem

theorem live_append (mem : q ∈ vol.live front) (back : List Place) : q ∈ vol.live (front ++ back) := by
  rw [live, takeWhile_append]
  split
  next => exact mem_append_left _ ((takeWhile_sublist _).subset mem)
  next => exact mem

theorem places_append (vol : Volume) (cells new : List Nat) : vol.places (cells ++ new) = vol.places cells ++ vol.places new :=
  flatMap_append

end Volume

/-- Behind the end mark of the directory all slots are free. -/
def Clean (vol : Volume) (cells : List Nat) : Prop :=
  ∀ q ∈ vol.places cells, q ∈ vol.live (vol.places cells) ∨ isFree vol q = true

theorem isFree_iff : isFree vol q = true ↔ vol.mark q = 0 ∨ vol.mark q = 0xE5 := decide_eq_true_iff

/-! ### An entry deleted -/

theorem getNextCluster_eraseBack (vol : Volume) (dir i cluster : Nat) :
    getNextCluster (eraseBack dir i vol) cluster = getNextCluster vol cluster := by
  fun_induction eraseBack dir i vol with
  | case1 => rfl
  | case2 _ _ _ ih => exact ih.trans rfl
  | case3 => rfl

theorem getNextCluster_eraseEntry (vol : Volume) (t : Place) (cluster : Nat) :
    getNextCluster (eraseEntry vol t) cluster = getNextCluster vol cluster := getNextCluster_eraseBack vol t.1 t.2 cluster

theorem mem_takeWhile_placesIn (mem : q ∈ (vol.placesIn cluster).takeWhile test) (early : j ≤ q.2) :
    test (cluster, j) = true := by
  have at_place : ∀ i (bound : i < ((vol.placesIn cluster).takeWhile test).length),
      ((vol.placesIn cluster).takeWhile test)[i] = (cluster, i) := fun i bound => by
    rw [( takeWhile_prefix test).getElem bound]
    simp [placesIn]
  obtain ⟨i, bound, rfl⟩ := mem_iff_getElem.mp mem
  rw [at_place] at early
  exact at_place j (lt_of_le_of_lt early bound) ▸ mem_takeWhile_imp (getElem_mem _)

structure Found (vol : Volume) (cells : List Nat) (short : List UInt8) (t : Place) : Prop where
  place : t ∈ vol.places cells
  deleted : vol.mark t ≠ 0xE5
  fragment : vol.attr t ≠ 0x0F
  shortName : vol.shortName t = short
  before : ∀ j ≤ t.2, vol.mark (t.1, j) ≠ 0

theorem aliasTarget_found (result : aliasTarget vol cells short = some t) : Found vol cells short t := by
  obtain ⟨cluster, member, found⟩ := exists_of_findSome?_eq_some result
  obtain ⟨deleted, fragment, name⟩ := of_decide_eq_true (find?_some found :)
  have inside := mem_of_find?_eq_some found
  have place := (takeWhile_sublist _).subset inside
  obtain ⟨same, bound⟩ := mem_placesIn.mp place
  refine ⟨mem_places.mpr ⟨same ▸ member, bound⟩, deleted, fragment, name, fun j early => ?_⟩
  have going := mem_takeWhile_placesIn inside early
  rw [decide_eq_true_eq] at going
  rwa [same]

theorem overlay_mark (slot : Nat → UInt8) : overlay slot 0 [0xE5] 0 = 0xE5 := rfl

/-- To delete an entry takes its short slot from the listing and nothing else. -/
theorem Found.shorts (found : Found vol cells short t) (mem : q ∈ (eraseEntry vol t).shorts cells) :
    q ∈ vol.shorts cells ∧ q ≠ t ∧ (eraseEntry vol t).slot q = vol.slot q := by
  have marks : ∀ r, (eraseEntry vol t).mark r = 0 ↔ vol.mark r = 0 := by
    intro r
    rw [mark, slot_eraseEntry, mark]
    split
    next erased =>
      have there := found.before r.2 erased.2.2
      rw [← erased.1] at there
      exact ⟨fun none => absurd none (by rw [overlay_mark]; decide), fun none => absurd none there⟩
    next => rfl
  obtain ⟨live, deleted, fragment, label⟩ := mem_shorts.mp mem
  have kept : ¬Erased vol t q := by
    intro erased
    rw [mark, slot_eraseEntry, if_pos erased] at deleted
    exact deleted (overlay_mark _)
  have same : (eraseEntry vol t).slot q = vol.slot q := by rw [slot_eraseEntry, if_neg kept]
  refine ⟨mem_shorts.mpr ⟨?_, ?_⟩, ?_, same⟩
  · rwa [live_congr fun r _ => marks r, places_congr (only_eraseEntry vol t).clusterBytes] at live
  · rw [mark_congr same] at deleted
    rw [attr_congr same] at fragment label
    exact ⟨deleted, fragment, label⟩
  · rintro rfl
    exact kept ⟨rfl, sub_le _ _, le_refl _⟩

/-! ### A size changed -/

theorem Alike.put_size (vol : Volume) (p q : Place) (size : Nat) : Alike vol (vol.put p 28 (leBytes 4 size)) q := by
  have fits : 28 + (leBytes 4 size).length ≤ 32 := by rw [leBytes_length]
  by_cases here : q = p
  · subst here
    have low : ∀ k < 28, (vol.put q 28 (leBytes 4 size)).slot q k = vol.slot q k := by
      intro k below
      rw [slot_put_self fits, overlay_outside (.inl below)]
    refine ⟨low 0 (by decide), low 11 (by decide), ?_, ?_⟩
    · exact slice_congr fun i bound => low _ (by omega)
    · rw [Volume.firstCluster, Volume.firstCluster, slice_congr fun i bound => low (20 + i) (by omega),
        slice_congr fun i bound => low (26 + i) (by omega)]
  · exact .of_slot (slot_put_of_ne here fits)

theorem shorts_put_size (vol : Volume) (p : Place) (size : Nat) (cells : List Nat) :
    (vol.put p 28 (leBytes 4 size)).shorts cells = vol.shorts cells := by
  have alike := fun q => Alike.put_size vol p q size
  have live : ∀ ps, (vol.put p 28 (leBytes 4 size)).live ps = vol.live ps := fun ps =>
    live_congr fun q _ => by rw [(alike q).mark]
  rw [shorts, shorts, live, places_congr (only_put vol p 28 _).clusterBytes]
  refine filter_congr fun q _ => ?_
  exact decide_eq_decide.mpr (by rw [Volume.IsShort, (alike q).mark, (alike q).attr, Volume.IsShort])

/-! ### An entry added -/

/-- Slots that follow each other in a cluster written at once. -/
theorem slot_put_run (vol : Volume) (p q : Place) (bytes : List UInt8) (size : bytes.length = 32 * n) :
    (vol.put p 0 bytes).slot q =
      if q.1 = p.1 ∧ p.2 ≤ q.2 ∧ q.2 < p.2 + n then fun k => if k < 32 then bytes.getD (32 * (q.2 - p.2) + k) 0 else 0
      else vol.slot q := by
  funext k
  by_cases inside : q.1 = p.1 ∧ p.2 ≤ q.2 ∧ q.2 < p.2 + n
  · obtain ⟨same, low, high⟩ := id inside
    rw [if_pos inside, Volume.slot, put, setData_data, same, update_self]
    by_cases below : k < 32
    · rw [if_pos below, if_pos below, overlay, if_pos (by omega)]
      congr 1
      omega
    · rw [if_neg below, if_neg below]
  · rw [if_neg inside, Volume.slot, Volume.slot]
    by_cases below : k < 32
    · rw [if_pos below, if_pos below, put, setData_data]
      by_cases same : q.1 = p.1
      · rw [same, update_self, overlay_outside (by omega)]
      · rw [update_of_ne same]
    · rw [if_neg below, if_neg below]

section
variable (name : List UInt8) (attr : UInt8)

theorem unitsOf_length (start count : Nat) : (unitsOf name start count).length = 2 * count := by
  have two : ∀ i, (unitOf name i).length = 2 := by
    intro i
    rw [unitOf]
    split
    · rfl
    · split <;> rfl
  rw [unitsOf, length_flatMap, map_congr_left fun k _ => two (start + k), map_const', sum_replicate_nat,
    length_range, mul_comm]

theorem longSlot_attr (index : Nat) : (longSlot name index).getD 11 0 = 0x0F := by
  have units := unitsOf_length name (index * 13) 5
  simp only [longSlot, append_assoc]
  rw [getD_append_right _ _ _ _ (by rw [length_singleton]; decide), length_singleton,
    getD_append_right _ _ _ _ (by rw [units]), units]
  rfl

variable (firstCluster size : Nat)

def slotList : List (List UInt8) :=
  (range (longCount name)).reverse.map (longSlot name) ++ [shortSlot (to83Name name) attr firstCluster size]

theorem entrySlots_eq : entrySlots name attr firstCluster size = (slotList name attr firstCluster size).flatten := by
  rw [entrySlots, slotList, flatten_append, flatMap_def, flatten_singleton]

theorem to83Name_length : (to83Name name).length = 11 := by
  simp only [to83Name, length_append, length_rightpad, length_map, length_take]
  omega

theorem shortSlot_length (short : List UInt8) (length : short.length = 11) (attr : UInt8) (firstCluster size : Nat) :
    (shortSlot short attr firstCluster size).length = 32 := by
  simp [shortSlot, leBytes_length, length]

theorem slotList_sizes : ∀ slot ∈ slotList name attr firstCluster size, slot.length = 32 := by
  intro slot mem
  rcases mem_append.mp mem with long | short
  · obtain ⟨index, -, rfl⟩ := mem_map.mp long
    simp [longSlot, unitsOf_length]
  · rw [mem_singleton.mp short]
    exact shortSlot_length _ (to83Name_length name) attr firstCluster size

theorem flatten_length (slots : List (List UInt8)) (sizes : ∀ slot ∈ slots, slot.length = 32) :
    slots.flatten.length = 32 * slots.length := by
  rw [length_flatten, map_congr_left sizes, map_const', sum_replicate_nat, mul_comm]

theorem entrySlots_length : (entrySlots name attr firstCluster size).length = 32 * (longCount name + 1) := by
  rw [entrySlots_eq, flatten_length _ (slotList_sizes name attr firstCluster size), slotList,
    length_append, length_map, length_reverse, length_range, length_singleton]

def shortPlace (p : Place) : Place := (p.1, p.2 + longCount name)

def InRun (p q : Place) : Prop := q.1 = p.1 ∧ p.2 ≤ q.2 ∧ q.2 < p.2 + (longCount name + 1)

end

theorem inRun_shortPlace (name : List UInt8) (p : Place) : InRun name p (shortPlace name p) :=
  ⟨rfl, le_add_right _ _, lt_succ_self _⟩

/-- The fields of a short slot, at their offsets. -/
theorem shortSlot_slice (short : List UInt8) (length : short.length = 11) (attr : UInt8) (firstCluster size : Nat) :
    (shortSlot short attr firstCluster size).getD 11 0 = attr ∧
    slice ((shortSlot short attr firstCluster size).getD · 0) 0 11 = short ∧
    slice ((shortSlot short attr firstCluster size).getD · 0) 20 2 = leBytes 2 (firstCluster / 2 ^ 16) ∧
    slice ((shortSlot short attr firstCluster size).getD · 0) 26 2 = leBytes 2 firstCluster ∧
    slice ((shortSlot short attr firstCluster size).getD · 0) 28 4 = leBytes 4 size := by
  match short, length with
  | [a, b, c, d, e, f, g, h, i, j, k], _ => exact ⟨rfl, rfl, rfl, rfl, rfl⟩

structure ShortAdded (vol : Volume) (p : Place) (name : List UInt8) (attr : UInt8) (firstCluster size : Nat) : Prop where
  attr : vol.attr p = attr
  shortName : vol.shortName p = to83Name name
  firstCluster : vol.firstCluster p = firstCluster % 2 ^ 32
  fileSize : vol.fileSize p = size % 2 ^ 32

/-- Names as they come from paths. -/
def NameOk (name : List UInt8) : Prop := name.length ≤ 255 ∧ 0 ∉ name

theorem toUpper_ne_zero (real : c ≠ 0) : toUpper c ≠ 0 := by
  rw [toUpper]
  split
  next small =>
    intro none
    have : c = 32 := by
      rw [← UInt8.sub_add_cancel c 32, none]
      rfl
    rw [this] at small
    exact absurd small.1 (by decide)
  next => exact real

theorem longSlot_mark (short : index < 20) (name : List UInt8) : (longSlot name index).getD 0 0 ≠ 0 := by
  have marks : ∀ i < 20, UInt8.ofNat ((i + 1) ||| 0x40) ≠ 0 ∧ UInt8.ofNat (i + 1) ≠ 0 := by decide
  rw [longSlot]
  split
  · exact (marks index short).1
  · exact (marks index short).2

theorem to83Name_mark (ok : NameOk name) : (to83Name name).getD 0 0 ≠ 0 := by
  rw [to83Name]
  cases base : name.takeWhile fun c => c ≠ 46 with
  | nil => exact show (32 : UInt8) ≠ 0 by decide
  | cons c rest =>
    have mem : c ∈ name := (takeWhile_sublist _).subset (base ▸ mem_cons_self)
    exact toUpper_ne_zero fun zero => ok.2 (zero ▸ mem)

section
variable {after : Volume} (added : vol.put p 0 (entrySlots name attr firstCluster size) = after)
include added

theorem slot_added (outside : ¬InRun name p q) : after.slot q = vol.slot q := by
  rw [← added, slot_put_run vol p q _ (entrySlots_length name attr firstCluster size)]
  exact if_neg outside

theorem slot_added_run (inside : InRun name p q) (here : (slotList name attr firstCluster size)[q.2 - p.2]? = some slot)
    (below : k < 32) : after.slot q k = slot.getD k 0 := by
  rw [← added, slot_put_run vol p q _ (entrySlots_length name attr firstCluster size), entrySlots_eq]
  rw [if_pos (show _ ∧ _ from inside), if_pos below, getD_flatten _ (slotList_sizes name attr firstCluster size) here below]

/-- All slots of the new entry but the last are fragments. -/
theorem slot_fragment (inside : InRun name p q) (fragment : q ≠ shortPlace name p) :
    ∃ index < longCount name, ∀ k < 32, after.slot q k = (longSlot name index).getD k 0 := by
  have early : q.2 - p.2 < longCount name := by
    obtain ⟨same, low, high⟩ := inside
    by_contra last
    exact fragment (Prod.ext same (show q.2 = p.2 + longCount name by omega))
  have here : (slotList name attr firstCluster size)[q.2 - p.2]? =
      some (longSlot name (longCount name - 1 - (q.2 - p.2))) := by
    have length : (range (longCount name)).reverse.length = longCount name := by rw [length_reverse, length_range]
    rw [slotList, getElem?_append_left (by rw [length_map, length]; exact early), getElem?_map,
      getElem?_eq_getElem (by rw [length]; exact early), getElem_reverse, getElem_range]
    simp [length_range]
  exact ⟨_, by omega, fun k below => slot_added_run added inside here below⟩

theorem attr_added (inside : InRun name p q) (fragment : q ≠ shortPlace name p) : after.attr q = 0x0F := by
  obtain ⟨index, -, bytes⟩ := slot_fragment added inside fragment
  rw [Volume.attr, bytes 11 (by decide), longSlot_attr]

theorem slot_shortPlace (below : k < 32) :
    after.slot (shortPlace name p) k = (shortSlot (to83Name name) attr firstCluster size).getD k 0 := by
  refine slot_added_run added (inRun_shortPlace name p) ?_ below
  have length : ((range (longCount name)).reverse.map (longSlot name)).length = longCount name := by
    rw [length_map, length_reverse, length_range]
  rw [slotList, shortPlace, Nat.add_sub_cancel_left, getElem?_append_right (Nat.le_of_eq length), length, Nat.sub_self]
  rfl

theorem shortAdded : ShortAdded after (shortPlace name p) name attr firstCluster size := by
  obtain ⟨kind, short, high, low, length⟩ := shortSlot_slice (to83Name name) (to83Name_length name) attr firstCluster size
  have field : ∀ start width, start + width ≤ 32 →
      slice (after.slot (shortPlace name p)) start width =
        slice ((shortSlot (to83Name name) attr firstCluster size).getD · 0) start width :=
    fun start width fits => slice_congr fun i bound => slot_shortPlace added (by omega)
  refine ⟨(slot_shortPlace added (by decide)).trans kind, (field 0 11 (by decide)).trans short, ?_, ?_⟩
  · rw [Volume.firstCluster, field 20 2 (by decide), field 26 2 (by decide), high, low, leNat_leBytes, leNat_leBytes]
    omega
  · rw [fileSize, field 28 4 (by decide), length, leNat_leBytes]
    rfl

/-- No slot of the new entry has the end mark. -/
theorem mark_added (ok : NameOk name) (inside : InRun name p q) : after.mark q ≠ 0 := by
  by_cases last : q = shortPlace name p
  · subst last
    rw [mark, slot_shortPlace added (by decide), shortSlot]
    simp only [append_assoc]
    rw [getD_append _ _ _ _ (by rw [to83Name_length]; decide)]
    exact to83Name_mark ok
  · obtain ⟨index, early, bytes⟩ := slot_fragment added inside last
    rw [mark, bytes 0 (by decide)]
    have := ok.1
    rw [longCount] at early
    exact longSlot_mark (by omega) name

end

/-! ### The search for room -/

/-- A directory that may have got empty clusters. -/
structure Grown (count dir : Nat) (cells new : List Nat) (vol vol' : Volume) : Prop extends
    Extended count dir cells new vol vol' where
  old : ∀ cluster ∈ cells, vol'.data cluster = vol.data cluster
  blank : ∀ cluster ∈ new, vol'.data cluster = fun _ => 0

/-- So many searches, and then no more because the entry fits in an empty cluster. -/
def EntryRoom (count : Nat) (vol : Volume) (name : List UInt8) (searches : Nat) : Prop :=
  Sealed count vol ∨ searches ≤ (freeClusters count vol).card ∧ longCount name + 1 ≤ vol.slotCount

/-- What `fat32_add_entry` has done when it returns. -/
inductive Adding (count dir : Nat) (cells : List Nat) (name bytes : List UInt8) (vol : Volume) : Int × Volume → Prop
  | full (grown : Grown count dir cells new vol vol1) : Adding count dir cells name bytes vol (-1, vol1)
  | put {p : Place} (grown : Grown count dir cells new vol vol1) (member : p.1 ∈ cells ++ new)
      (fits : p.2 + (longCount name + 1) ≤ vol1.slotCount) (clear : ∀ q, InRun name p q → isFree vol1 q = true) :
      Adding count dir cells name bytes vol (0, vol1.put p 0 bytes)

theorem Grown.refl (owns : Owns count vol dir cells) : Grown count dir cells [] vol vol where
  toExtended := .refl owns
  old _ _ := rfl
  blank _ mem := absurd mem not_mem_nil

theorem Grown.trans (first : Grown count dir cells new vol vol') (second : Grown count dir (cells ++ new) new' vol' vol'') :
    Grown count dir cells (new ++ new') vol vol'' := by
  refine ⟨first.toExtended.trans second.toExtended, fun cluster mem => ?_, fun cluster mem => ?_⟩
  · exact (second.old cluster (mem_append_left _ mem)).trans (first.old cluster mem)
  · rcases mem_append.mp mem with old | young
    · exact (second.old cluster (mem_append_right _ old)).trans (first.blank cluster old)
    · exact second.blank cluster young

theorem Adding.after (second : Adding count dir (cells ++ new) name bytes vol' result)
    (first : Grown count dir cells new vol vol') :
    Adding count dir cells name bytes vol result := by
  cases second with
  | full grown => exact .full (first.trans grown)
  | put grown member fits clear =>
    rw [append_assoc] at member
    exact .put (first.trans grown) member fits clear

section
variable (mounted : Mounted count vol) (owns : Owns count vol dir cells)
include mounted owns

/-- A cluster put behind the last of a directory and filled with zeros. -/
theorem Grown.append (here : cells[i]? = some cluster) (last : cells[i + 1]? = none) (mem : new ∈ freeClusters count vol) :
    Grown count dir cells [new] vol (setData (setCluster (setCluster vol new eof) cluster new) new fun _ => 0) := by
  have young : new ∉ cells := fun old => owns.allocated old (mem_freeClusters.mp mem).2
  have back : new ∈ cells ++ [new] := mem_append_right _ (mem_singleton.mpr rfl)
  refine ⟨(Extended.append mounted owns here last mem).setData back _, fun other listed => ?_, fun other listed => ?_⟩
  · have different : other ≠ new := fun same => young (same ▸ listed)
    exact update_of_ne different _ _
  · rw [mem_singleton.mp listed]
    exact update_self ..

theorem addLoop_spec (here : cells[i]? = some cluster)
    (room : Sealed count vol ∨ longCount name + 1 ≤ vol.slotCount ∧
      (1 ≤ (freeClusters count vol).card ∨ vol.data cluster = fun _ => 0))
    (enough : count < i + steps) : ∃ result, addLoop name bytes steps cluster vol = some result ∧
      Adding count dir cells name bytes vol result := by
  have numbers := mounted.numbers
  induction steps generalizing i cluster vol cells with
  | zero =>
    have := owns.length_le
    obtain ⟨inside, -⟩ := List.getElem?_eq_some_iff.mp here
    omega
  | succ steps ih =>
    have bounds := owns.range cluster (mem_of_getElem? here)
    rw [addLoop, if_neg (not_endOfChain (by omega))]
    cases search : findRun (fun i => isFree vol (cluster, i)) (longCount name + 1) vol.slotCount with
    | some start =>
      obtain ⟨fits, clear⟩ := ((findRun_eq_some (succ_pos _)).mp search).1
      refine ⟨_, rfl, .put (p := (cluster, start)) (Grown.refl owns) ?_ fits fun q within => ?_⟩
      · exact mem_append_left _ (mem_of_getElem? here)
      · have place : q = (cluster, q.2) := Prod.ext within.1 rfl
        rw [place]
        exact clear q.2 within.2.1 within.2.2
    | none =>
      -- an empty cluster would have had room
      have room : Sealed count vol ∨ longCount name + 1 ≤ vol.slotCount ∧ 1 ≤ (freeClusters count vol).card := by
        refine room.imp_right fun both => ⟨both.1, both.2.resolve_right fun blank => ?_⟩
        have clear : 0 ∈ freeRuns (fun i => isFree vol (cluster, i)) (longCount name + 1) vol.slotCount := by
          refine ⟨by omega, fun j _ _ => isFree_iff.mpr (.inl ?_)⟩
          rw [mark, Volume.slot, blank]
          rfl
        rw [(findRun_eq_none (succ_pos _)).mp search] at clear
        exact clear
      have link := owns.link here
      dsimp only
      cases following : cells[i + 1]? with
      | some next =>
        rw [following] at link
        have inside := owns.range next (mem_of_getElem? following)
        rw [eq_of_linkOf link, if_neg (not_endOfChain (by omega))]
        exact ih mounted owns following (room.imp_right (And.imp_right .inl)) (by omega)
      | none =>
        rw [following, linkOf_eq_none] at link
        rw [if_pos (.inl link)]
        rcases taken : allocateCluster vol with ⟨new, vol1⟩
        have searches : Room count vol (0 + 1) := room.symm.imp_left And.right
        rcases allocateCluster_spec mounted searches taken with ⟨rfl, rfl, -⟩ | ⟨mem, rfl⟩
        · exact ⟨_, if_pos rfl, .full (Grown.refl owns)⟩
        have free := mem_freeClusters.mp mem
        rw [if_neg (by omega)]
        have grown := Grown.append mounted owns here following mem
        have place : (cells ++ [new])[i + 1]? = some new := by
          rw [length_of_last here following]
          exact getElem?_concat_length
        have tight : Sealed count vol → Sealed count (setCluster (setCluster vol new eof) cluster new) := fun tight => by
          have marked : Sealed count (setCluster vol new eof) := tight.setCluster (by decide)
          exact marked.setCluster (mounted.word_ne_zero mem)
        obtain ⟨result, added, adding⟩ := ih (grown.only.mounted mounted) grown.owns place
          (room.imp tight fun both => ⟨both.1, .inr (update_self ..)⟩) (by omega)
        exact ⟨result, added, adding.after grown⟩

theorem addEntry_adding (room : EntryRoom count vol name 1) (attr : UInt8) (firstCluster size : Nat) :
    ∃ result, addEntry vol dir name attr firstCluster size = some result ∧
      Adding count dir cells name (entrySlots name attr firstCluster size) vol result := by
  have numbers := mounted.numbers
  refine addLoop_spec mounted owns owns.getElem_zero (room.imp_right fun ⟨left, fits⟩ => ⟨fits, .inl left⟩) ?_
  simp only [badCluster, chainLimit] at numbers ⊢
  omega

end

/-! ### The entries afterwards -/

namespace Grown

variable (grown : Grown count dir cells new vol vol')
include grown

theorem slot_old (member : q.1 ∈ cells) : vol'.slot q = vol.slot q :=
  slot_congr (grown.old q.1 member)

theorem mark_new (member : q.1 ∈ new) : vol'.mark q = 0 := by
  rw [mark, Volume.slot, grown.blank q.1 member]
  rfl

theorem live : vol'.live (vol'.places cells) = vol.live (vol.places cells) := by
  rw [places_congr grown.only.clusterBytes]
  exact live_congr fun q mem => by rw [mark_congr (grown.slot_old (mem_places.mp mem).1)]

/-- A directory that has grown has the entries it had. -/
theorem shorts (mem : q ∈ vol'.shorts (cells ++ new)) : q ∈ vol.shorts cells ∧ vol'.slot q = vol.slot q := by
  obtain ⟨live, short⟩ := mem_shorts.mp mem
  have going := mark_of_mem_live live
  rw [places_append] at live
  have old : q ∈ vol'.live (vol'.places cells) := (mem_live_append live).resolve_right fun young =>
    going (grown.mark_new (mem_places.mp ((takeWhile_sublist _).subset young)).1)
  have member := (mem_places.mp ((takeWhile_sublist _).subset old)).1
  have same := grown.slot_old member
  rw [grown.live] at old
  refine ⟨mem_shorts.mpr ⟨old, ?_⟩, same⟩
  rwa [Volume.IsShort, mark_congr same, attr_congr same] at short

theorem clean (clean : Clean vol cells) : Clean vol' (cells ++ new) := by
  intro q mem
  rw [places_append] at mem ⊢
  rcases mem_append.mp mem with old | young
  · have member := (mem_places.mp old).1
    rw [places_congr grown.only.clusterBytes] at old
    refine (clean q old).imp (fun live => ?_) fun free => ?_
    · rw [← grown.live] at live
      exact live_append live _
    · rwa [isFree_iff, mark_congr (grown.slot_old member), ← isFree_iff]
  · exact .inr (isFree_iff.mpr (.inl (grown.mark_new (mem_places.mp young).1)))

/-- A slot that is free in a directory that has grown was not listed before. -/
theorem unlisted (member : q.1 ∈ cells ++ new) (free : isFree vol' q = true) (owns : Owns count vol start others) :
    q ∉ vol.shorts others := fun listed => by
  have place := (shorts_places listed).1
  obtain ⟨live, deleted, -, -⟩ := mem_shorts.mp listed
  have old : q.1 ∈ cells := (mem_append.mp member).resolve_right fun young =>
    owns.allocated place (grown.free q.1 young)
  rw [isFree_iff, mark_congr (grown.slot_old old)] at free
  exact free.elim (mark_of_mem_live live) deleted

end Grown

/-- With an entry in free slots of a directory without old slots behind its end, only this entry is new. -/
theorem shorts_added {after : Volume} (added : vol.put p 0 (entrySlots name attr firstCluster size) = after)
    (clean : Clean vol cells)
    (mem : q ∈ after.shorts cells) (other : q ≠ shortPlace name p) : q ∈ vol.shorts cells ∧ after.slot q = vol.slot q := by
  obtain ⟨live, deleted, fragment, label⟩ := mem_shorts.mp mem
  have outside : ¬InRun name p q := fun inside => fragment (attr_added added inside other)
  have same := slot_added added outside
  have going := mark_of_mem_live live
  have place : q ∈ vol.places cells := by
    have there := (takeWhile_sublist _).subset live
    rwa [← added, places_congr (only_put vol p 0 _).clusterBytes] at there
  rw [mark_congr same] at deleted going
  rw [attr_congr same] at fragment label
  refine ⟨mem_shorts.mpr ⟨(clean q place).resolve_right fun free => ?_, deleted, fragment, label⟩, same⟩
  rcases isFree_iff.mp free with none | gone
  · exact going none
  · exact deleted gone

/-! ### The alias after an entry was added -/

/-- The slots that a search for an alias would stop at. -/
def Candidate (vol : Volume) (short : List UInt8) (q : Place) : Prop :=
  (∀ j ≤ q.2, vol.mark (q.1, j) ≠ 0) ∧ vol.mark q ≠ 0xE5 ∧ vol.attr q ≠ 0x0F ∧ vol.shortName q = short

instance : DecidablePred (Candidate vol short) := fun _ => inferInstanceAs (Decidable (_ ∧ _))

/-- A search that stops early is one for a place with none of the stops before it. -/
theorem find?_takeWhile_range (cluster : Nat) (going test : Place → Bool)
    (before : ∀ j < start, going (cluster, j) = true) (n : Nat) :
    (((range' start n).map fun i => (cluster, i)).takeWhile going).find? test =
      ((range' start n).map fun i => (cluster, i)).find? fun q => decide (∀ j ≤ q.2, going (cluster, j) = true) && test q := by
  induction n generalizing start with
  | zero => rfl
  | succ n ih =>
    rw [range'_succ, map_cons]
    by_cases here : going (cluster, start) = true
    · have all : ∀ j < start + 1, going (cluster, j) = true := fun j bound =>
        (lt_or_eq_of_le (le_of_lt_succ bound)).elim (before j) fun same => same ▸ here
      rw [takeWhile_cons_of_pos here, find?_cons, find?_cons, ih all,
        decide_eq_true fun j early => all j (lt_succ_of_le early), Bool.true_and]
    · rw [takeWhile_cons_of_neg here, find?_nil, eq_comm, find?_eq_none, ← map_cons, ← range'_succ]
      intro q mem passed
      obtain ⟨i, place, rfl⟩ := mem_map.mp mem
      exact here (of_decide_eq_true (Bool.and_eq_true_iff.mp passed).1 start (mem_range'_1.mp place).1)

theorem aliasTarget_eq (vol : Volume) (cells : List Nat) (short : List UInt8) :
    aliasTarget vol cells short = (vol.places cells).find? fun q => decide (Candidate vol short q) := by
  rw [aliasTarget, places, find?_flatMap]
  refine congrArg (findSome? · cells) (funext fun cluster => ?_)
  rw [placesIn, range_eq_range', find?_takeWhile_range _ _ _ fun _ none => absurd none (not_lt_zero _)]
  refine find?_congr fun q mem => ?_
  obtain ⟨i, -, rfl⟩ := mem_map.mp mem
  rw [Bool.eq_iff_iff, decide_eq_true_iff]
  simp [Candidate]

/-- Another test holds where the search ended and at no more than one place where the first does not. -/
theorem find?_either {test test' : Place → Bool} {places : List Place} {s : Place}
    (still : ∀ p, places.find? test = some p → test' p = true) (only : ∀ q ∈ places, test' q = true → test q = true ∨ q = s) :
    places.find? test' = places.find? test ∨ places.find? test' = some s := by
  induction places with
  | nil => exact .inl rfl
  | cons first rest ih =>
    cases here : test' first with
    | true =>
      rw [find?_cons_of_pos here]
      refine (only first mem_cons_self here).imp (fun passed => ?_) (congrArg some)
      rw [find?_cons_of_pos passed]
    | false =>
      have failed : ¬test first = true := fun passed => by
        rw [still first (find?_cons_of_pos passed)] at here
        cases here
      rw [find?_cons_of_neg failed] at still ⊢
      rw [find?_cons_of_neg (by rw [here]; exact Bool.false_ne_true)]
      exact ih still fun q mem => only q (mem_cons_of_mem _ mem)

/-- Before a slot that is listed there is no end mark. -/
theorem mark_before (live : q ∈ vol.live (vol.places cells)) : ∀ j ≤ q.2, vol.mark (q.1, j) ≠ 0 := by
  induction cells with
  | nil => cases live
  | cons cluster rest ih =>
    rcases mem_live_append live with first | later
    · have place := mem_placesIn.mp ((takeWhile_sublist _).subset first)
      intro j early
      have going := mem_takeWhile_placesIn first early
      rw [decide_eq_true_eq] at going
      rwa [place.1]
    · exact ih later

theorem Candidate.congr (same : ∀ j ≤ q.2, vol'.slot (q.1, j) = vol.slot (q.1, j)) :
    Candidate vol' short q ↔ Candidate vol short q := by
  have slot := same q.2 (le_refl _)
  rw [Candidate, Candidate, mark_congr slot, attr_congr slot, shortName, shortName, slot]
  refine and_congr_left fun _ => forall₂_congr fun j early => ?_
  rw [mark_congr (same j early)]

/-- The new clusters of a directory have no alias yet. -/
theorem Grown.target (grown : Grown count dir cells new vol vol') (short : List UInt8) :
    aliasTarget vol' (cells ++ new) short = aliasTarget vol cells short := by
  have none : (vol.places new).find? (fun q => decide (Candidate vol' short q)) = none :=
    find?_eq_none.mpr fun q mem candidate => (of_decide_eq_true candidate).1 q.2 (le_refl _)
      (grown.mark_new (mem_places.mp mem).1)
  rw [aliasTarget_eq, aliasTarget_eq, places_append, places_congr grown.only.clusterBytes, find?_append, none,
    Option.or_none]
  refine find?_congr fun q mem => ?_
  rw [Bool.eq_iff_iff, decide_eq_true_iff, decide_eq_true_iff]
  exact Candidate.congr fun j _ => grown.slot_old (mem_places.mp mem).1

/-- An alias leads where it led after an entry was added, or it leads to the new one. -/
theorem aliasTarget_added {after : Volume} (added : vol.put s 0 (entrySlots name attr firstCluster size) = after)
    (ok : NameOk name) (clean : Clean vol cells) (clear : ∀ q, InRun name s q → isFree vol q = true) (short : List UInt8) :
    aliasTarget after cells short = aliasTarget vol cells short ∨ aliasTarget after cells short = some (shortPlace name s) := by
  have bytes : after.clusterBytes = vol.clusterBytes := by
    rw [← added, (only_put vol s 0 _).clusterBytes]
  rw [aliasTarget_eq, aliasTarget_eq, places_congr bytes]
  refine find?_either (fun p search => decide_eq_true ?_) fun q mem candidate => ?_
  · rw [← aliasTarget_eq] at search
    have found := aliasTarget_found search
    have outside : ¬InRun name s p := fun inside =>
      (isFree_iff.mp (clear p inside)).elim (found.before p.2 (le_refl _)) found.deleted
    have same := slot_added added outside
    refine ⟨fun j early => ?_, ?_⟩
    · by_cases inside : InRun name s (p.1, j)
      · exact mark_added added ok inside
      · rw [mark_congr (slot_added added inside)]
        exact found.before j early
    · rw [mark_congr same, attr_congr same, shortName, same]
      exact ⟨found.deleted, found.fragment, found.shortName⟩
  · by_cases last : q = shortPlace name s
    · exact .inr last
    obtain ⟨going, deleted, fragment, same⟩ := of_decide_eq_true candidate
    have outside : ¬InRun name s q := fun inside => fragment (attr_added added inside last)
    have slot := slot_added added outside
    rw [mark_congr slot] at deleted
    rw [attr_congr slot] at fragment
    rw [shortName, slot, ← shortName] at same
    have mark := going q.2 (le_refl _)
    rw [mark_congr slot] at mark
    have live := (clean q mem).resolve_right fun free => (isFree_iff.mp free).elim mark deleted
    exact .inl (decide_eq_true ⟨mark_before live, deleted, fragment, same⟩)

namespace Layout
variable {gone : Option Place} {parts : Parts}

section
variable (layout : Layout count vol gone parts) (here : parts owner = some part)
include layout here

/-- The entries of a directory that were there and have their parts. -/
theorem known (dir : part.isDir = true) (alike : Alike vol vol' p) (entry : Entry vol' cells' p)
    (listed : p ∈ vol.shorts part.cells) (left : gone ≠ some p) :
    ∃ cells, parts (some p) = some ⟨isDirectory vol' p, vol'.firstCluster p, cells⟩ := by
  rw [alike.isDirectory, alike.firstCluster]
  exact layout.closed here dir (alike.entry entry listed) left

theorem grow (dir : part.isDir = true) (grown : Grown count part.start part.cells new vol vol') :
    Layout count vol' gone (update parts owner (some { part with cells := part.cells ++ new })) := by
  refine layout.extend here new grown.only grown.owns grown.free gone
    (fun t same other => absurd same other) fun _ p entry left => ?_
  obtain ⟨listed, same⟩ := grown.shorts entry.listed
  exact layout.known here dir (.of_slot same) entry listed left

/-- Slots of a directory written. -/
theorem edit (only : Only part.cells vol vol') (words : ∀ cluster, getNextCluster vol' cluster = getNextCluster vol cluster)
    (gone' : Option Place) (back : ∀ t, gone = some t → gone' ≠ some t → t.1 ∈ part.cells)
    (entries : part.isDir = true → ∀ p, Entry vol' part.cells p → gone' ≠ some p →
      ∃ cells, parts (some p) = some ⟨isDirectory vol' p, vol'.firstCluster p, cells⟩) : Layout count vol' gone' parts := by
  have same : update parts owner (some { part with cells := part.cells ++ [] }) = parts := by
    rw [append_nil, ← here]
    exact update_eq_self owner parts
  rw [← same]
  refine layout.extend here [] ?_ ?_ (fun _ mem => absurd mem not_mem_nil) gone' ?_ ?_
  · rwa [append_nil]
  · rw [append_nil]
    exact (layout.owns here).congr fun cluster _ => words cluster
  all_goals rwa [append_nil]

end

theorem only_of_mem (member : p.1 ∈ cells) (only : Only [p.1] vol vol') : Only cells vol vol' :=
  only.mono fun _ mem => mem_singleton.mp mem ▸ member

/-- A new entry that has been given its part, or is to be deleted again. -/
theorem added (layout : Layout count vol gone parts) (here : parts owner = some part) (dir : part.isDir = true)
    (clean : Clean vol part.cells) (member : p.1 ∈ part.cells) (gone' : Option Place)
    (same : gone' = gone ∨ gone = none ∧ gone' = some (shortPlace name p))
    (given : gone' ≠ some (shortPlace name p) → firstCluster % 2 ^ 32 ≠ 0 →
      ∃ cells, parts (some (shortPlace name p)) = some ⟨decide (attr &&& 0x10 ≠ 0), firstCluster % 2 ^ 32, cells⟩) :
    Layout count (vol.put p 0 (entrySlots name attr firstCluster size)) gone' parts := by
  refine layout.edit here (only_of_mem member (only_put vol p 0 _)) (fun _ => rfl) gone' ?_ fun _ q entry left => ?_
  · intro t taken different
    rcases same with rfl | ⟨none, -⟩
    · exact absurd taken different
    · rw [none] at taken
      cases taken
  by_cases new : q = shortPlace name p
  · subst new
    have short := shortAdded (rfl : vol.put p 0 (entrySlots name attr firstCluster size) = _)
    have chained := entry.chained
    rw [short.firstCluster] at chained
    rw [isDirectory, short.attr, short.firstCluster]
    exact given left chained
  · obtain ⟨listed, unchanged⟩ := shorts_added rfl clean entry.listed new
    refine layout.known here dir (.of_slot unchanged) entry listed fun taken => ?_
    rcases same with rfl | ⟨none, -⟩
    · exact left taken
    · rw [none] at taken
      cases taken

/-- An entry deleted. -/
theorem erase (layout : Layout count vol gone parts) (here : parts owner = some part) (dir : part.isDir = true)
    (found : Found vol part.cells short t) (gone' : Option Place) (same : gone' = gone ∨ gone = some t ∧ gone' = none) :
    Layout count (eraseEntry vol t) gone' parts := by
  have member := (mem_places.mp found.place).1
  refine layout.edit here (only_of_mem member (only_eraseEntry vol t))
    (getNextCluster_eraseEntry vol t) gone' ?_ fun _ q entry left => ?_
  · intro r taken different
    rcases same with rfl | ⟨was, -⟩
    · exact absurd taken different
    · obtain rfl := Option.some.inj (was.symm.trans taken)
      exact member
  · obtain ⟨listed, other, unchanged⟩ := found.shorts entry.listed
    refine layout.known here dir (.of_slot unchanged) entry listed fun taken => ?_
    rcases same with rfl | ⟨was, -⟩
    · exact left taken
    · exact other (Option.some.inj (taken.symm.trans was))

end Layout

end Sirius.Fs.Fat32
