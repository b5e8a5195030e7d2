import Sirius.Fs.FatDirectory
import Sirius.Fs.FatWrite
import Mathlib.Data.List.TakeWhile

/-! The slots of a directory: what of them its listing shows, and what the edits of a slot, of the
slots of an entry and of the chain of the directory leave as it was. -/
namespace Sirius.Fs.Fat32
open Support List Volume

variable {count : Nat} {vol vol' : Volume} {p q : Place}

namespace Volume

def live (vol : Volume) (ps : List Place) : List Place := ps.takeWhile fun p => vol.mark p ≠ 0

/-- A slot that stands for a file or directory. -/
def IsShort (vol : Volume) (p : Place) : Prop := vol.mark p ≠ 0xE5 ∧ vol.attr p ≠ 0x0F ∧ vol.attr p &&& 0x08 = 0

instance : DecidablePred vol.IsShort := fun _ => inferInstanceAs (Decidable (_ ∧ _ ∧ _))

def shorts (vol : Volume) (cells : List Nat) : List Place := (vol.live (vol.places cells)).filter vol.IsShort

theorem slot_congr (same : vol'.data p.1 = vol.data p.1) : vol'.slot p = vol.slot p := by
  funext k
  rw [slot, slot, same]

theorem mark_congr (same : vol'.slot p = vol.slot p) : vol'.mark p = vol.mark p := congrFun same 0

theorem attr_congr (same : vol'.slot p = vol.slot p) : vol'.attr p = vol.attr p := congrFun same 11

theorem mem_placesIn : p ∈ vol.placesIn cluster ↔ p.1 = cluster ∧ p.2 < vol.slotCount := by
  obtain ⟨c, i⟩ := p
  simp only [placesIn, mem_map, mem_range, Prod.mk.injEq]
  exact ⟨fun ⟨j, bound, same, index⟩ => ⟨same.symm, index ▸ bound⟩, fun ⟨same, bound⟩ => ⟨i, bound, same.symm, rfl⟩⟩

theorem mem_places : p ∈ vol.places cells ↔ p.1 ∈ cells ∧ p.2 < vol.slotCount := by
  simp only [places, mem_flatMap, mem_placesIn]
  exact ⟨fun ⟨_, mem, same, bound⟩ => ⟨same ▸ mem, bound⟩, fun ⟨mem, bound⟩ => ⟨p.1, mem, rfl, bound⟩⟩

theorem places_nodup (distinct : cells.Nodup) : (vol.places cells).Nodup := by
  refine nodup_flatMap.mpr ⟨fun cluster _ => ?_, distinct.imp fun apart p one two => ?_⟩
  · exact nodup_range.map fun i j same => (Prod.mk.inj same).2
  · exact apart ((mem_placesIn.mp one).1.symm.trans (mem_placesIn.mp two).1)

theorem places_congr (bytes : vol'.clusterBytes = vol.clusterBytes) : vol'.places = vol.places := by
  unfold places placesIn slotCount
  rw [bytes]

theorem live_cons (vol : Volume) (p : Place) (rest : List Place) :
    vol.live (p :: rest) = if vol.mark p = 0 then [] else p :: vol.live rest := by
  rw [live, takeWhile_cons]
  by_cases stop : vol.mark p = 0
  · simp [stop]
  · simp [stop, live]

theorem mark_of_mem_live (mem : p ∈ vol.live ps) : vol.mark p ≠ 0 := by
  have := mem_takeWhile_imp mem
  rwa [decide_eq_true_eq] at this

theorem mem_shorts : p ∈ vol.shorts cells ↔ p ∈ vol.live (vol.places cells) ∧ vol.IsShort p := by
  rw [shorts, mem_filter, decide_eq_true_iff]

theorem shorts_places (mem : p ∈ vol.shorts cells) : p.1 ∈ cells ∧ p.2 < vol.slotCount :=
  mem_places.mp ((takeWhile_sublist _).subset (mem_shorts.mp mem).1)

end Volume

/-! ### Listings -/

/-- A listing depends on the kind of each slot, on the aliases, and on the fragments of long names. -/
theorem scan_congr (same : ∀ p ∈ ps, vol'.mark p = vol.mark p ∧ vol'.attr p = vol.attr p ∧
    vol'.shortName p = vol.shortName p ∧ (vol.attr p = 0x0F → vol'.slot p = vol.slot p)) :
    scan vol' pending ps = scan vol pending ps := by
  induction ps generalizing pending with
  | nil => rfl
  | cons p later ih =>
    have rest : ∀ pending, scan vol' pending later = scan vol pending later :=
      fun _ => ih fun q mem => same q (mem_cons_of_mem _ mem)
    obtain ⟨mark, attr, short, long⟩ := same p mem_cons_self
    rw [scan, scan, mark, attr, short, rest]
    by_cases fragment : vol.attr p = 0x0F
    · rw [long fragment, rest]
    · simp only [if_neg fragment]

theorem scan_places (vol : Volume) (pending : Option LongName) (ps : List Place) :
    (scan vol pending ps).map Prod.fst = (vol.live ps).filter vol.IsShort := by
  induction ps generalizing pending with
  | nil => rfl
  | cons p rest ih =>
    rw [scan, live_cons]
    split_ifs with stop deleted fragment label
    · rfl
    all_goals simp [filter_cons, IsShort, *]

theorem shorts_of_scan (mem : (p, name) ∈ scan vol none (vol.places cells)) : p ∈ vol.shorts cells := by
  rw [shorts, ← scan_places vol none]
  exact mem_map_of_mem mem

/-- A slot is listed with one name. -/
theorem scan_name_unique (distinct : cells.Nodup) (one : (p, name) ∈ scan vol none (vol.places cells))
    (two : (p, name') ∈ scan vol none (vol.places cells)) : name = name' := by
  have nodup : ((scan vol none (vol.places cells)).map Prod.fst).Nodup := by
    rw [scan_places]
    exact ((places_nodup distinct).sublist (takeWhile_sublist _)).filter _
  exact congrArg Prod.snd (inj_on_of_nodup_map nodup one two rfl)

theorem listing_of_owns (numbers : count + 2 ≤ badCluster) (owns : Owns count vol dir cells) :
    listing vol dir = some (scan vol none (vol.places cells)) := by
  rw [listing, owns.clusters numbers, Option.map_some]

/-- The slots of clusters that have not changed. -/
theorem Only.slot (only : Only changed vol vol') (away : p.1 ∉ changed) : vol'.slot p = vol.slot p :=
  slot_congr (only.data p.1 away)

theorem Only.scan (only : Only changed vol vol') (apart : ∀ cluster ∈ cells, cluster ∉ changed) :
    scan vol' pending (vol'.places cells) = scan vol pending (vol.places cells) := by
  rw [places_congr only.clusterBytes]
  refine scan_congr fun p mem => ?_
  have same := only.slot (apart p.1 (mem_places.mp mem).1)
  exact ⟨mark_congr same, attr_congr same, by rw [shortName, same, shortName], fun _ => same⟩

theorem Only.shorts (only : Only changed vol vol') (apart : ∀ cluster ∈ cells, cluster ∉ changed) :
    vol'.shorts cells = vol.shorts cells := by
  rw [Volume.shorts, ← scan_places vol' none, only.scan apart, scan_places, Volume.shorts]

/-! ### Edits of one slot -/

namespace Volume

theorem slot_put_of_ne (other : q ≠ p) (fits : k + bytes.length ≤ 32) : (vol.put p k bytes).slot q = vol.slot q := by
  funext j
  rw [slot, slot]
  split
  case isFalse => rfl
  case isTrue inside =>
  by_cases same : q.1 = p.1
  · have index : q.2 ≠ p.2 := fun index => other (Prod.ext same index)
    rw [put, setData_data, same, Function.update_self, overlay_outside (by omega)]
  · rw [put, setData_data, Function.update_of_ne same]

theorem slot_put_self (fits : k + bytes.length ≤ 32) : (vol.put p k bytes).slot p = overlay (vol.slot p) k bytes := by
  funext j
  rw [slot, put, setData_data, Function.update_self]
  simp only [overlay, slot]
  by_cases inside : k ≤ j ∧ j < k + bytes.length
  · rw [if_pos (by omega), if_pos (by omega), if_pos inside]
    congr 1
    omega
  · rw [if_neg inside]
    split
    · rw [if_neg (by omega)]
    · rfl

theorem only_put (vol : Volume) (p : Place) (k : Nat) (bytes : List UInt8) : Only [p.1] vol (vol.put p k bytes) :=
  Only.setData (mem_singleton.mpr rfl) _

end Volume

/-! ### The slots of an entry deleted -/

/-- How many fragments stand before an index of a cluster. -/
def longRun (vol : Volume) (cluster : Nat) : Nat → Nat
  | 0 => 0
  | i + 1 => if vol.attr (cluster, i) = 0x0F then longRun vol cluster i + 1 else 0

def Erased (vol : Volume) (p q : Place) : Prop := q.1 = p.1 ∧ p.2 - longRun vol p.1 p.2 ≤ q.2 ∧ q.2 ≤ p.2

instance : Decidable (Erased vol p q) := inferInstanceAs (Decidable (_ ∧ _ ∧ _))

theorem longRun_congr (same : ∀ j < i, vol'.attr (cluster, j) = vol.attr (cluster, j)) :
    longRun vol' cluster i = longRun vol cluster i := by
  induction i with
  | zero => rfl
  | succ i ih =>
    rw [longRun, longRun, same i (Nat.lt_succ_self i), ih fun j below => same j (Nat.lt_succ_of_lt below)]

theorem attr_of_longRun (first : i - longRun vol cluster i ≤ j) (before : j < i) : vol.attr (cluster, j) = 0x0F := by
  induction i with
  | zero => omega
  | succ i ih =>
    rw [longRun] at first
    split at first
    case isTrue fragment =>
      rcases Nat.lt_succ_iff_lt_or_eq.mp before with earlier | rfl
      · exact ih (by omega) earlier
      · exact fragment
    case isFalse => omega

theorem slot_eraseBack (vol : Volume) (cluster i : Nat) (q : Place) : (eraseBack cluster i vol).slot q =
      if q.1 = cluster ∧ i - longRun vol cluster i ≤ q.2 ∧ q.2 < i then overlay (vol.slot q) 0 [0xE5] else vol.slot q := by
  induction i generalizing vol with
  | zero => rw [eraseBack, if_neg (by omega)]
  | succ i ih =>
    rw [eraseBack, longRun]
    split
    case isFalse => rw [if_neg (by omega)]
    case isTrue fragment =>
    have fits : 0 + [(0xE5 : UInt8)].length ≤ 32 := by decide
    have run : longRun (vol.put (cluster, i) 0 [0xE5]) cluster i = longRun vol cluster i :=
      longRun_congr fun j below => attr_congr (slot_put_of_ne (fun same => by
        have := (Prod.mk.inj same).2
        omega) fits)
    rw [ih, run]
    by_cases here : q = (cluster, i)
    · subst here
      rw [if_neg (by omega), if_pos ⟨rfl, by omega, Nat.lt_succ_self i⟩, slot_put_self fits]
    · have apart : ¬(q.1 = cluster ∧ q.2 = i) := fun ⟨one, two⟩ => here (Prod.ext one two)
      rw [slot_put_of_ne here fits]
      congr 1
      refine propext ⟨fun bounds => ?_, fun bounds => ?_⟩ <;> omega

theorem slot_eraseEntry (vol : Volume) (p q : Place) :
    (eraseEntry vol p).slot q = if Erased vol p q then overlay (vol.slot q) 0 [0xE5] else vol.slot q := by
  have fits : 0 + [(0xE5 : UInt8)].length ≤ 32 := by decide
  rw [eraseEntry]
  by_cases here : q = p
  · subst here
    rw [slot_put_self fits, slot_eraseBack, if_neg (by omega), if_pos ⟨rfl, Nat.sub_le _ _, Nat.le_refl _⟩]
  have apart : ¬(q.1 = p.1 ∧ q.2 = p.2) := fun ⟨one, two⟩ => here (Prod.ext one two)
  rw [slot_put_of_ne here fits, slot_eraseBack]
  unfold Erased
  congr 1
  refine propext ⟨fun bounds => ?_, fun bounds => ?_⟩ <;> omega

theorem only_eraseBack (vol : Volume) (cluster i : Nat) : Only [cluster] vol (eraseBack cluster i vol) := by
  fun_induction eraseBack cluster i vol with
  | case1 => exact Only.refl _ _
  | case2 i vol _ ih => exact (only_put vol (cluster, i) 0 _).trans ih
  | case3 => exact Only.refl _ _

theorem only_eraseEntry (vol : Volume) (p : Place) : Only [p.1] vol (eraseEntry vol p) :=
  (only_eraseBack vol p.1 p.2).trans (only_put _ p 0 _)

end Sirius.Fs.Fat32
