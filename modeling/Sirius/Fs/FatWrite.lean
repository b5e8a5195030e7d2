import Sirius.Fs.FatChain
import Mathlib.Order.Bounds.Basic

/-! The clusters of a volume that change hands: what the search for a free cluster gives, and a chain
that is made longer while its file is written. -/
namespace Sirius.Fs.Fat32
open Support Function List Prod Nat

variable {count : Nat} {vol vol' vol'' : Volume}

@[simp] theorem getNextCluster_setCluster (vol : Volume) (cluster value other : Nat) :
    getNextCluster (setCluster vol cluster value) other =
      if other = cluster then value % 2 ^ 28 else getNextCluster vol other := by
  by_cases same : other = cluster
  · subst same
    simp only [getNextCluster, setCluster, update_self, if_true]
    omega
  · simp only [getNextCluster, setCluster, update_of_ne same, if_neg same]

@[simp] theorem setData_data (vol : Volume) (cluster : Nat) (bytes : Nat → UInt8) :
    (setData vol cluster bytes).data = update vol.data cluster bytes := rfl

/-- Nothing outside these clusters has changed. -/
structure Only (cells : List Nat) (vol vol' : Volume) : Prop where
  fatWords : vol'.fatWords = vol.fatWords
  clusterBytes : vol'.clusterBytes = vol.clusterBytes
  rootCluster : vol'.rootCluster = vol.rootCluster
  fat : ∀ cluster ∉ cells, getNextCluster vol' cluster = getNextCluster vol cluster
  data : ∀ cluster ∉ cells, vol'.data cluster = vol.data cluster

namespace Only

theorem refl (cells : List Nat) (vol : Volume) : Only cells vol vol :=
  ⟨rfl, rfl, rfl, fun _ _ => rfl, fun _ _ => rfl⟩

theorem mono (only : Only cells vol vol') (more : cells ⊆ cells') : Only cells' vol vol' where
  fatWords := only.fatWords
  clusterBytes := only.clusterBytes
  rootCluster := only.rootCluster
  fat cluster away := only.fat cluster fun mem => away (more mem)
  data cluster away := only.data cluster fun mem => away (more mem)

theorem trans (first : Only cells vol vol') (second : Only cells vol' vol'') : Only cells vol vol'' where
  fatWords := second.fatWords.trans first.fatWords
  clusterBytes := second.clusterBytes.trans first.clusterBytes
  rootCluster := second.rootCluster.trans first.rootCluster
  fat cluster away := (second.fat cluster away).trans (first.fat cluster away)
  data cluster away := (second.data cluster away).trans (first.data cluster away)

theorem setCluster (mem : cluster ∈ cells) (value : Nat) : Only cells vol (setCluster vol cluster value) where
  fatWords := rfl
  clusterBytes := rfl
  rootCluster := rfl
  fat other away := by
    have apart : other ≠ cluster := fun same => away (same ▸ mem)
    rw [getNextCluster_setCluster, if_neg apart]
  data _ _ := rfl

theorem setData (mem : cluster ∈ cells) (bytes : Nat → UInt8) : Only cells vol (setData vol cluster bytes) where
  fatWords := rfl
  clusterBytes := rfl
  rootCluster := rfl
  fat _ _ := rfl
  data other away := update_of_ne (fun same : other = cluster => away (same ▸ mem)) _ _

theorem mounted (only : Only cells vol vol') (mounted : Mounted count vol) : Mounted count vol' where
  bytes := only.clusterBytes ▸ mounted.bytes
  words := only.fatWords ▸ mounted.words
  numbers := mounted.numbers

/-- A chain somewhere else is as it was. -/
theorem owns (only : Only cells vol vol') (owns : Owns count vol start others) (apart : ∀ cluster ∈ others, cluster ∉ cells) :
    Owns count vol' start others := owns.congr fun cluster mem => only.fat cluster (apart cluster mem)

end Only

/-! ### The search for a free cluster -/

def freeClusters (count : Nat) (vol : Volume) : Finset Nat :=
  (Finset.range (count + 2)).filter fun cluster => 2 ≤ cluster ∧ getNextCluster vol cluster = 0

/-- The words behind the last cluster's are in use, so that the search does not come upon them. -/
def Sealed (count : Nat) (vol : Volume) : Prop :=
  ∀ cluster, count + 2 ≤ cluster → cluster < vol.fatWords → getNextCluster vol cluster ≠ 0

/-- So many searches give clusters of the volume, or none. -/
def Room (count : Nat) (vol : Volume) (searches : Nat) : Prop :=
  searches ≤ (freeClusters count vol).card ∨ Sealed count vol

theorem mem_freeClusters :
    cluster ∈ freeClusters count vol ↔ (2 ≤ cluster ∧ cluster < count + 2) ∧ getNextCluster vol cluster = 0 := by
  simp only [freeClusters, Finset.mem_filter, Finset.mem_range]
  omega

theorem getNextCluster_mark (vol : Volume) (cluster : Nat) :
    getNextCluster (setCluster vol cluster eof) cluster = eof := by
  rw [getNextCluster_setCluster, if_pos rfl]
  rfl

theorem freeClusters_setCluster (vol : Volume) (word : value % 2 ^ 28 ≠ 0) :
    freeClusters count (setCluster vol cluster value) = (freeClusters count vol).erase cluster := by
  ext other
  rw [Finset.mem_erase, mem_freeClusters, mem_freeClusters, getNextCluster_setCluster]
  by_cases same : other = cluster
  · simp only [same, if_true, word, not_true, and_false, false_and, ne_eq]
  · simp [same]

theorem Sealed.setCluster (tight : Sealed count vol) (word : value % 2 ^ 28 ≠ 0) :
    Sealed count (setCluster vol cluster value) := fun other behind bound => by
  rw [getNextCluster_setCluster]
  split
  · exact word
  · exact tight other behind bound

/-- The first free word, or none. -/
theorem allocateCluster_cases (vol : Volume) :
    (∀ i, 2 ≤ i → i < vol.fatWords → getNextCluster vol i ≠ 0) ∧ allocateCluster vol = (badCluster, vol) ∨
      ∃ i, (2 ≤ i ∧ i < vol.fatWords ∧ getNextCluster vol i = 0) ∧ (∀ j, 2 ≤ j → j < i → getNextCluster vol j ≠ 0) ∧
        allocateCluster vol = (i, setCluster vol i eof) := by
  unfold allocateCluster
  split
  case h_2 none =>
    exact .inl ⟨fun i low bound free => find?_eq_none.mp none i (mem_range.mpr bound) (decide_eq_true ⟨low, free⟩), rfl⟩
  case h_1 i found =>
  obtain ⟨test, bound, first⟩ := find?_range_eq_some.mp found
  obtain ⟨low, free⟩ := of_decide_eq_true test
  refine .inr ⟨i, ⟨low, mem_range.mp bound, free⟩, fun j least before clear => ?_, rfl⟩
  have taken := first j before
  rw [Bool.not_eq_true', decide_eq_false_iff_not] at taken
  exact taken ⟨least, clear⟩

/-- A cluster handed out, or none because there is none left. -/
theorem allocateCluster_spec (mounted : Mounted count vol) (room : Room count vol (searches + 1))
    (result : allocateCluster vol = (new, vol')) :
    (new = badCluster ∧ vol' = vol ∧ freeClusters count vol = ∅) ∨
      (new ∈ freeClusters count vol ∧ vol' = setCluster vol new eof) := by
  obtain ⟨full, same⟩ | ⟨i, ⟨low, bound, free⟩, first, same⟩ := allocateCluster_cases vol
  · obtain ⟨rfl, rfl⟩ := mk.inj (same.symm.trans result)
    refine .inl ⟨rfl, rfl, Finset.eq_empty_of_forall_notMem fun cluster mem => ?_⟩
    obtain ⟨bounds, free⟩ := mem_freeClusters.mp mem
    exact full cluster bounds.1 (bounds.2.trans_le mounted.words) free
  obtain ⟨rfl, rfl⟩ := mk.inj (same.symm.trans result)
  refine .inr ⟨mem_freeClusters.mpr ⟨⟨low, ?_⟩, free⟩, rfl⟩
  by_contra behind
  rcases room with enough | tight
  · -- the search would have come upon a free cluster of the volume first
    obtain ⟨other, mem⟩ := Finset.card_pos.mp (lt_of_lt_of_le (succ_pos _) enough)
    obtain ⟨bounds, clear⟩ := mem_freeClusters.mp mem
    exact first other bounds.1 (by omega) clear
  · exact tight i (by omega) bound free

/-! ### Copies of the table -/

/-- How the accesses of a call turn out: all well, no buffer for a sector, or a sector that cannot be read or written. -/
inductive Service
  | served | noBuffer | diskFailed

/-- Without a buffer, or when an access fails, the table is as it was. -/
def fat32AllocateCluster (service : Service) (vol : Volume) : Nat × Volume :=
  match service with
  | .served => allocateCluster vol
  | _ => (badCluster, vol)

def CopiesAgree (copies words : Nat) (vol : Volume) : Prop := ∀ k < copies, ∀ i < words, vol.fat (k * words + i) = vol.fat i

/-- A free cluster of the volume has been marked, in all copies of the table alike. -/
structure Handed (count copies words : Nat) (vol : Volume) (new : Nat) (vol' : Volume) : Prop where
  range : 2 ≤ new ∧ new < count + 2
  free : getNextCluster vol new = 0
  marked : eof ≤ getNextCluster vol' new
  others : ∀ i, (∀ k < copies, i ≠ k * words + new) → vol'.fat i = vol.fat i
  data : vol'.data = vol.data
  agree : CopiesAgree copies words vol'

def AllocationSound (count copies words : Nat) (service : Service) (vol : Volume) (result : Nat × Volume) : Prop :=
  (result.1 ≠ badCluster → Handed count copies words vol result.1 result.2) ∧
    ((freeClusters count vol).Nonempty → service ≠ .diskFailed → result.1 ≠ badCluster)

/-- If a cluster is free, there are a buffer and one copy of the table. If none is, no word behind the last cluster's is
free, or the first such word has the number that stands for no cluster. -/
def Allocatable (count copies : Nat) (service : Service) (vol : Volume) : Prop :=
  match service with
  | .served => if (freeClusters count vol).Nonempty then copies = 1 else
      ∀ i, IsLeast { i | count + 2 ≤ i ∧ i < vol.fatWords ∧ getNextCluster vol i = 0 } i → i = badCluster
  | .noBuffer => ¬(freeClusters count vol).Nonempty
  | .diskFailed => True

/-- Only the first copy is marked. -/
theorem handed_iff (words : count + 2 ≤ width) (some : 0 < copies) (agree : CopiesAgree copies width vol)
    (mem : new ∈ freeClusters count vol) : Handed count copies width vol new (setCluster vol new eof) ↔ copies = 1 := by
  obtain ⟨range, free⟩ := mem_freeClusters.mp mem
  have marked := getNextCluster_mark vol new
  have others : ∀ i, i ≠ new → (setCluster vol new eof).fat i = vol.fat i := fun i other => update_of_ne other _ _
  refine ⟨fun handed => ?_, ?_⟩
  · by_contra several
    have mirror := handed.agree 1 (by omega) new (by omega)
    rw [others _ (by omega), agree 1 (by omega) new (by omega)] at mirror
    rw [getNextCluster, ← mirror, ← getNextCluster, free] at marked
    cases marked
  · rintro rfl
    refine ⟨range, free, marked.ge, fun i apart => others i ?_, rfl, fun k one i _ => ?_⟩
    · simpa using apart 0 Nat.one_pos
    rw [Nat.lt_one_iff.mp one, Nat.zero_mul, Nat.zero_add]

theorem allocation_sound_iff (numbers : count + 2 ≤ badCluster) (words : count + 2 ≤ width)
    (whole : vol.fatWords = copies * width)
    (some : 0 < copies) (agree : CopiesAgree copies width vol) (service : Service) :
    AllocationSound count copies width service vol (fat32AllocateCluster service vol) ↔ Allocatable count copies service vol := by
  cases service with
  | diskFailed => exact iff_of_true ⟨fun other => absurd rfl other, fun _ well => absurd rfl well⟩ trivial
  | noBuffer => exact ⟨fun sound free => sound.2 free nofun rfl,
    fun none => ⟨fun other => absurd rfl other, fun free => absurd free none⟩⟩
  | served =>
    have inside := whole ▸ words.trans (Nat.le_mul_of_pos_left _ some)
    rw [AllocationSound, fat32AllocateCluster, Allocatable]
    obtain ⟨full, same⟩ | ⟨i, ⟨low, bound, free⟩, first, same⟩ := allocateCluster_cases vol
    · have none : ¬(freeClusters count vol).Nonempty := fun ⟨c, mem⟩ => by
        obtain ⟨bounds, free⟩ := mem_freeClusters.mp mem
        exact full c bounds.1 (by omega) free
      rw [same, if_neg none]
      exact iff_of_true ⟨fun other => absurd rfl other, fun free => absurd free none⟩
        fun i least => absurd least.1.2.2 (full i (by have := least.1.1; omega) least.1.2.1)
    · rw [same]
      by_cases near : i < count + 2
      · have mem := mem_freeClusters.mpr ⟨⟨low, near⟩, free⟩
        have number : i ≠ badCluster := by omega
        rw [if_pos ⟨i, mem⟩, ← handed_iff words some agree mem]
        exact ⟨fun sound => sound.1 number, fun handed => ⟨fun _ => handed, fun _ _ => number⟩⟩
      have none : ¬(freeClusters count vol).Nonempty := fun ⟨c, mem⟩ => by
        obtain ⟨bounds, clear⟩ := mem_freeClusters.mp mem
        exact first c bounds.1 (by omega) clear
      rw [if_neg none]
      have least : IsLeast { i | count + 2 ≤ i ∧ i < vol.fatWords ∧ getNextCluster vol i = 0 } i :=
        ⟨⟨by omega, bound, free⟩, fun j ⟨behind, _, clear⟩ => Nat.le_of_not_lt fun before => first j (by omega) before clear⟩
      refine ⟨fun sound j other => ?_, fun lost => ⟨fun number => absurd (lost i least) number, fun free => absurd free none⟩⟩
      rw [other.unique least]
      by_contra number
      exact near (sound.1 number).range.2

/-- A table for one cluster, and a number of copies of it. -/
def smallTable (copies : Nat) : Volume :=
  { fat := fun _ => 0, fatWords := copies * 3, data := fun _ _ => 0, clusterBytes := 512, rootCluster := 2 }

theorem allocation_sound_single_copy :
    CopiesAgree 1 3 (smallTable 1) ∧ AllocationSound 1 1 3 .served (smallTable 1)
      (fat32AllocateCluster .served (smallTable 1)) := by
  have agree : CopiesAgree 1 3 (smallTable 1) := fun _ _ _ _ => rfl
  have free : (freeClusters 1 (smallTable 1)).Nonempty := ⟨2, by decide⟩
  refine ⟨agree, (allocation_sound_iff (by decide) (by decide) rfl (by decide) agree .served).mpr ?_⟩
  rw [Allocatable, if_pos free]

/-- The second copy still has the cluster as free. -/
theorem second_copy_not_marked :
    CopiesAgree 2 3 (smallTable 2) ∧ ¬AllocationSound 1 2 3 .served (smallTable 2)
      (fat32AllocateCluster .served (smallTable 2)) := by
  refine ⟨fun _ _ _ _ => rfl, fun sound => ?_⟩
  have mirror := (sound.1 (by decide)).agree 1 (by decide) 2 (by decide)
  exact absurd mirror (by decide)

/-- What is left after a cluster has been handed out. -/
theorem card_freeClusters_setCluster (mem : new ∈ freeClusters count vol) (word : value % 2 ^ 28 ≠ 0) :
    (freeClusters count (setCluster vol new value)).card + 1 = (freeClusters count vol).card := by
  rw [freeClusters_setCluster vol word, Finset.card_erase_add_one mem]

theorem Room.taken (room : Room count vol (searches + 1)) (mem : new ∈ freeClusters count vol) :
    Room count (setCluster vol new eof) searches := by
  refine room.imp (fun enough => ?_) fun tight => tight.setCluster (by decide)
  have : (freeClusters count (setCluster vol new eof)).card + 1 = _ := card_freeClusters_setCluster mem (by decide)
  omega

/-! ### A chain that is written -/

/-- Free clusters have been put behind the last of a chain, and nothing has changed outside it. -/
structure Extended (count start : Nat) (cells new : List Nat) (vol vol' : Volume) : Prop where
  owns : Owns count vol' start (cells ++ new)
  free : ∀ cluster ∈ new, getNextCluster vol cluster = 0
  only : Only (cells ++ new) vol vol'

namespace Extended

theorem refl (owns : Owns count vol start cells) : Extended count start cells [] vol vol where
  owns := by rwa [append_nil]
  free _ mem := absurd mem not_mem_nil
  only := Only.refl _ _

theorem trans (first : Extended count start cells new vol vol') (second : Extended count start (cells ++ new) new' vol' vol'') :
    Extended count start cells (new ++ new') vol vol'' := by
  have assoc : cells ++ (new ++ new') = cells ++ new ++ new' := (append_assoc _ _ _).symm
  refine ⟨by rw [assoc]; exact second.owns, fun cluster mem => ?_, ?_⟩
  · rcases mem_append.mp mem with old | young
    · exact first.free cluster old
    · have apart : cluster ∉ cells ++ new := fun old => (nodup_append.mp second.owns.nodup).2.2 cluster old cluster young rfl
      exact (first.only.fat cluster apart).symm.trans (second.free cluster young)
  · rw [assoc]
    exact (first.only.mono (subset_append_left _ _)).trans second.only

theorem setData (extended : Extended count start cells new vol vol') (mem : cluster ∈ cells ++ new) (bytes : Nat → UInt8) :
    Extended count start cells new vol (setData vol' cluster bytes) :=
  ⟨extended.owns.congr fun _ _ => rfl, extended.free, extended.only.trans (Only.setData mem _)⟩

end Extended

theorem length_of_last {cells : List Nat} (here : cells[i]? = some cluster) (last : cells[i + 1]? = none) :
    i + 1 = cells.length := by
  have := getElem?_eq_none_iff.mp last
  obtain ⟨inside, -⟩ := List.getElem?_eq_some_iff.mp here
  omega

section
variable (mounted : Mounted count vol)
include mounted

section
variable (owns : Owns count vol start cells) (here : cells[i]? = some cluster) (last : cells[i + 1]? = none)
    (mem : new ∈ freeClusters count vol)
include owns here last mem

/-- The chain is one cluster longer. -/
theorem Owns.append : Owns count (setCluster (setCluster vol new eof) cluster new) start (cells ++ [new]) := by
  obtain ⟨bounds, free⟩ := mem_freeClusters.mp mem
  have numbers := mounted.numbers
  have young : new ∉ cells := fun old => owns.allocated old free
  have length := length_of_last here last
  obtain ⟨front, rfl⟩ : ∃ front, cells = front ++ [cluster] := by
    refine ⟨cells.dropLast, ?_⟩
    have : cells.getLast? = some cluster := by
      rw [getLast?_eq_getElem?, ← length, Nat.add_sub_cancel, here]
    exact (dropLast_append_getLast? cluster this).symm
  have distinct := owns.nodup
  rw [nodup_append] at distinct
  have off : new ≠ cluster := fun same => young (same ▸ mem_append_right _ (mem_singleton.mpr rfl))
  refine ⟨?_, fun other mem => ?_⟩
  · rw [append_assoc]
    refine Chain.extend owns.chain (fun other mem => ?_) ?_ ?_
    · have apart := distinct.2.2 other mem cluster (mem_singleton.mpr rfl)
      have older : other ≠ new := fun same => young (same ▸ mem_append_left _ mem)
      simp only [Volume.next, getNextCluster_setCluster, if_neg apart, if_neg older]
    · have small : new % 2 ^ 28 = new := mod_eq_of_lt (by simp only [badCluster] at numbers; omega)
      rw [Volume.next, getNextCluster_setCluster, if_pos rfl, small, linkOf_of_lt (by omega)]
    · rw [Volume.next, getNextCluster_setCluster, if_neg off, getNextCluster_mark]
      rfl
  · rcases mem_append.mp mem with old | young
    · exact owns.range other old
    · exact mem_singleton.mp young ▸ bounds

theorem Extended.append : Extended count start cells [new] vol (setCluster (setCluster vol new eof) cluster new) := by
  have young : new ∈ cells ++ [new] := mem_append_right _ (mem_singleton.mpr rfl)
  have old : cluster ∈ cells ++ [new] := mem_append_left _ (mem_of_getElem? here)
  exact ⟨owns.append mounted here last mem, fun other listed => mem_singleton.mp listed ▸ (mem_freeClusters.mp mem).2,
    (Only.setCluster young _).trans (Only.setCluster old _)⟩

end

theorem Mounted.word_ne_zero (mem : new ∈ freeClusters count vol) : new % 2 ^ 28 ≠ 0 := by
  have numbers := mounted.numbers
  have bounds := (mem_freeClusters.mp mem).1
  simp only [badCluster] at numbers
  omega

section
variable {i : Nat} (owns : Owns count vol start cells) (here : cells[i]? = some cluster)
    (room : Room count vol (total - cells.length))
include owns here room

theorem nextOrNew_spec (further : i + 1 < total) (result : nextOrNew vol cluster = (r, vol')) :
    (r = none ∧ vol' = vol) ∨ ∃ new next, r = some next ∧ (cells ++ new)[i + 1]? = some next ∧
      Extended count start cells new vol vol' ∧ Room count vol' (total - (cells ++ new).length) := by
  have numbers := mounted.numbers
  have link := owns.link here
  unfold nextOrNew at result
  cases following : cells[i + 1]? with
  | some next =>
    rw [following] at link
    have inside := owns.range _ (mem_of_getElem? following)
    rw [eq_of_linkOf link, if_neg (not_endOfChain (by omega))] at result
    obtain ⟨rfl, rfl⟩ := mk.inj result
    refine .inr ⟨[], next, rfl, ?_, Extended.refl owns, ?_⟩
    all_goals rwa [append_nil]
  | none =>
    rw [following, linkOf_eq_none] at link
    have length := length_of_last here following
    obtain ⟨left, more⟩ : ∃ left, total - cells.length = left + 1 := ⟨total - cells.length - 1, by omega⟩
    rw [more] at room
    simp only [if_pos (show EndOfChain (getNextCluster vol cluster) from .inl link)] at result
    rcases search : allocateCluster vol with ⟨new, vol1⟩
    simp only [search] at result
    rcases allocateCluster_spec mounted room search with ⟨rfl, rfl, -⟩ | ⟨mem, rfl⟩
    · simp only [if_true] at result
      obtain ⟨rfl, rfl⟩ := mk.inj result
      exact .inl ⟨rfl, rfl⟩
    have bounds := (mem_freeClusters.mp mem).1
    simp only [if_neg (by omega : new ≠ badCluster)] at result
    obtain ⟨rfl, rfl⟩ := mk.inj result
    refine .inr ⟨[new], new, rfl, ?_, Extended.append mounted owns here following mem, ?_⟩
    · rw [length]
      exact getElem?_concat_length
    rw [length_append, length_singleton, show total - (cells.length + 1) = left by omega]
    -- the cluster before the new one was not free
    have used : cluster ∉ freeClusters count (setCluster vol new eof) := fun again => by
      have clear := (mem_freeClusters.mp again).2
      rw [getNextCluster_setCluster] at clear
      split at clear
      · exact absurd clear (by decide)
      · exact owns.allocated (mem_of_getElem? here) clear
    refine (room.taken mem).imp (fun enough => ?_) fun tight => tight.setCluster (mounted.word_ne_zero mem)
    rwa [freeClusters_setCluster _ (mounted.word_ne_zero mem), Finset.erase_eq_of_notMem used]

theorem writeSeek_spec (further : i + rounds < total)
    (result : writeSeek rounds cluster vol = (r, vol')) :
    ∃ new, Extended count start cells new vol vol' ∧ (r = none ∨ ∃ next, r = some next ∧
      (cells ++ new)[i + rounds]? = some next ∧ Room count vol' (total - (cells ++ new).length)) := by
  induction rounds generalizing i cluster vol cells with
  | zero =>
    obtain ⟨rfl, rfl⟩ := mk.inj result
    refine ⟨[], Extended.refl owns, .inr ⟨cluster, rfl, ?_, ?_⟩⟩
    all_goals rwa [append_nil]
  | succ rounds ih =>
    rw [writeSeek] at result
    rcases step : nextOrNew vol cluster with ⟨r1, vol1⟩
    rw [step] at result
    rcases nextOrNew_spec mounted owns here room (by omega) step with ⟨rfl, rfl⟩ | ⟨new, next, rfl, there, grown, room'⟩
    · obtain ⟨rfl, rfl⟩ := mk.inj result
      exact ⟨[], Extended.refl owns, .inl rfl⟩
    obtain ⟨new', grown', rest⟩ := ih (grown.only.mounted mounted) grown.owns there room' (by omega) result
    refine ⟨new ++ new', grown.trans grown', rest.imp_right fun ⟨last, found, place, room⟩ => ⟨last, found, ?_, ?_⟩⟩
    · rw [← append_assoc, show i + (rounds + 1) = i + 1 + rounds by omega]
      exact place
    · rwa [← append_assoc]

theorem writeLoop_spec (inside : offset < vol.clusterBytes)
    (fits : i * vol.clusterBytes + offset + data.length ≤ total * vol.clusterBytes)
    (result : writeLoop steps cluster offset data vol = (written, vol')) : ∃ new, Extended count start cells new vol vol' := by
  induction steps generalizing i cluster offset data written vol cells with
  | zero =>
    obtain ⟨rfl, rfl⟩ := mk.inj result
    exact ⟨[], Extended.refl owns⟩
  | succ steps ih =>
    rw [writeLoop] at result
    by_cases empty : data = []
    · rw [if_pos empty] at result
      obtain ⟨rfl, rfl⟩ := mk.inj result
      exact ⟨[], Extended.refl owns⟩
    simp only [if_neg empty] at result
    generalize chunk : min (vol.clusterBytes - offset) data.length = length at result
    generalize stored : setData vol cluster (overlay (vol.data cluster) offset (data.take length)) = vol1 at result
    have first := stored ▸ (Extended.refl owns).setData (mem_append_left _ (mem_of_getElem? here)) _
    by_cases more : length < data.length
    · have owns1 : Owns count vol1 start cells := by simpa only [append_nil] using first.owns
      have bytes := first.only.clusterBytes
      have after : i * vol.clusterBytes + offset + length = (i + 1) * vol.clusterBytes := by
        rw [add_one_mul]
        omega
      have further : i + 1 < total := by
        refine Nat.lt_of_mul_lt_mul_right (a := vol.clusterBytes) ?_
        omega
      have room1 : Room count vol1 (total - cells.length) := by
        subst stored
        exact room
      rw [if_pos more] at result
      rcases step : nextOrNew vol1 cluster with ⟨r1, vol2⟩
      simp only [step] at result
      rcases nextOrNew_spec (first.only.mounted mounted) owns1 here room1 further step with
        ⟨rfl, rfl⟩ | ⟨new, next, rfl, there, grown, room2⟩
      · obtain ⟨rfl, rfl⟩ := mk.inj result
        exact ⟨[], first⟩
      rcases rest : writeLoop steps next 0 (data.drop length) vol2 with ⟨left, vol3⟩
      simp only [rest] at result
      obtain ⟨rfl, rfl⟩ := mk.inj result
      have bytes2 := grown.only.clusterBytes.trans bytes
      obtain ⟨new', last⟩ := ih (grown.only.mounted (first.only.mounted mounted)) grown.owns there room2
        (bytes2 ▸ mounted.bytes) (by rw [bytes2, length_drop, Nat.add_zero, ← after]; omega) rest
      have second : Extended count start (cells ++ []) (new ++ new') vol1 vol3 := by
        rw [append_nil]
        exact grown.trans last
      exact ⟨new ++ new', first.trans second⟩
    · rw [if_neg more] at result
      obtain ⟨rfl, rfl⟩ := mk.inj result
      exact ⟨[], first⟩

end

/-- The length of the chain of a file of this size; one cluster more where the last is full. -/
def clustersFor (vol : Volume) (size : Nat) : Nat := size / vol.clusterBytes + 1

theorem writeChain_spec (owns : Owns count vol node.inode cells)
    (room : Room count vol (clustersFor vol (offset + data.length) - cells.length))
    (result : writeChain vol node offset data = (ret, node', vol')) : ∃ new, Extended count node.inode cells new vol vol' := by
  have positive := mounted.bytes
  have split := div_add_mod' offset vol.clusterBytes
  have total := lt_div_mul_add positive (a := offset + data.length)
  have reach : 0 + offset / vol.clusterBytes < clustersFor vol (offset + data.length) := by
    rw [Nat.zero_add]
    exact Nat.lt_succ_of_le (Nat.div_le_div_right (Nat.le_add_right _ _))
  unfold writeChain at result
  rcases seek : writeSeek (offset / vol.clusterBytes) node.inode vol with ⟨r, vol1⟩
  obtain ⟨new, grown, outcome⟩ := writeSeek_spec mounted owns owns.getElem_zero room reach seek
  rw [seek] at result
  rcases outcome with rfl | ⟨cluster, rfl, here, room1⟩
  · obtain ⟨rfl, rfl, rfl⟩ : _ ∧ _ ∧ _ := by simpa only [mk.injEq] using result
    exact ⟨new, grown⟩
  have bytes := grown.only.clusterBytes
  rcases step : writeLoop data.length cluster (offset % vol1.clusterBytes) data vol1 with ⟨written, vol2⟩
  simp only [step] at result
  obtain ⟨rfl, rfl, rfl⟩ : _ ∧ _ ∧ _ := by simpa only [mk.injEq] using result
  rw [Nat.zero_add] at here
  obtain ⟨new', last⟩ := writeLoop_spec (grown.only.mounted mounted) grown.owns here room1
    (by rw [bytes]; exact mod_lt _ positive) (by rw [bytes, split, clustersFor, add_one_mul]; omega) step
  exact ⟨new ++ new', grown.trans last⟩

end

end Sirius.Fs.Fat32
