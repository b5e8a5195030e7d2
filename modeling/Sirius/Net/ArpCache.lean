import Sirius.Net.Arp
import Mathlib.Data.List.Induction

/-! The cache of hardware addresses as a first-in-first-out map: its slots are a window on the order in which the addresses
entered. -/
namespace Sirius.Net
open Function List

/-- `arp_init` clears the table. -/
def emptyArpCache : ArpCache := ⟨fun _ => ⟨0, 0, false⟩, 0⟩

/-- As many addresses as the cache has slots, those that entered last. -/
def lastEntered (order : List (BitVec 32)) : List (BitVec 32) := order.drop (order.length - arpCacheMax)

/-- An address enters when it is not among the last ones. -/
def enter (order : List (BitVec 32)) (ip : BitVec 32) : List (BitVec 32) :=
  if ip ∈ lastEntered order then order else order ++ [ip]

section
variable (inserts : List (BitVec 32 × Mac))

def insertAll : ArpCache := inserts.foldl (fun cache insert => arpCacheInsert cache insert.1 insert.2) emptyArpCache

def orderOf : List (BitVec 32) := inserts.foldl (fun order insert => enter order insert.1) []

/-- The hardware address of the latest insert. -/
def latest : BitVec 32 → Option Mac :=
  inserts.foldl (fun known insert => update known insert.1 (some insert.2)) fun _ => none

end

def ArpEntry.key (entry : ArpEntry) : Option (BitVec 32) := if entry.isValid then some entry.ipAddr else none

theorem matches_iff_key {cache : ArpCache} : cache.Matches ip i ↔ (cache.entries i).key = some ip := by
  simp [ArpCache.Matches, ArpEntry.key]

/-- A slot holds the last address whose place in the order is its own, modulo the size of the cache. -/
structure Window (order : List (BitVec 32)) (cache : ArpCache) : Prop where
  keys : ∀ i, (cache.entries i).key = order[i.val + 32 * ((order.length - 1 - i.val) / 32)]?
  victim : cache.victim.val = (order.length - 32) % 32

section
variable {order : List (BitVec 32)} {cache : ArpCache} (window : Window order cache)
include window

theorem Window.mem_iff : (∃ i, cache.Matches ip i) ↔ ip ∈ lastEntered order := by
  simp only [matches_iff_key, window.keys, lastEntered, mem_iff_getElem?, getElem?_drop]
  constructor
  · rintro ⟨i, here⟩
    have bound := (List.getElem?_eq_some_iff.mp here).1
    refine ⟨i.val + 32 * ((order.length - 1 - i.val) / 32) - (order.length - 32), ?_⟩
    rwa [Nat.add_sub_of_le (show order.length - 32 ≤ _ by omega)]
  · rintro ⟨k, here⟩
    have bound := (List.getElem?_eq_some_iff.mp here).1
    have last : order.length ≤ order.length - 32 + k + 32 := by omega
    generalize order.length - 32 + k = place at here bound last
    refine ⟨⟨place % 32, Nat.mod_lt _ (by decide)⟩, ?_⟩
    rwa [show place % 32 + 32 * ((order.length - 1 - place % 32) / 32) = place by omega]

theorem Window.notMem (absent : cache.find ip = none) : ip ∉ lastEntered order := fun entered => by
  obtain ⟨i, isMatch⟩ := window.mem_iff.mpr entered
  exact ArpCache.find_none absent i isMatch

/-- The next slot takes the address that enters. -/
theorem Window.put (next : i.val = order.length % 32) (ip : BitVec 32) (mac : Mac) (victim : Fin 32)
    (moved : victim.val = (order.length + 1 - 32) % 32) :
    Window (order ++ [ip]) { cache.set i ⟨ip, mac, true⟩ with victim := victim } := by
  refine ⟨fun j => ?_, by rw [length_append]; exact moved⟩
  rw [length_append, length_singleton, Nat.add_sub_cancel]
  by_cases same : j = i
  · subst same
    rw [show j.val + 32 * ((order.length - j.val) / 32) = order.length by omega, getElem?_concat_length]
    simp [ArpEntry.key, ArpCache.set]
  · have apart : j.val ≠ order.length % 32 := fun place => same (Fin.ext (place.trans next.symm))
    have bound : j.val < 32 := j.isLt
    refine (congrArg ArpEntry.key (update_of_ne same _ _)).trans ?_
    rw [window.keys, show (order.length - j.val) / 32 = (order.length - 1 - j.val) / 32 by omega, getElem?_append]
    split
    · rfl
    · rw [getElem?_eq_none (by omega), getElem?_eq_none (by simp only [length_singleton]; omega)]

/-- Free slots are filled from the first on. -/
theorem Window.free_next (free : cache.free = some i) : i.val = order.length := by
  obtain ⟨unused, slot, bound, rfl, before⟩ := find?_eq_some_iff_getElem.mp free
  have empty := window.keys (finRange 32)[slot]
  rw [ArpEntry.key, if_neg (by simpa using unused), eq_comm, getElem?_eq_none_iff] at empty
  have late : ¬order.length < slot := fun more => by
    have used := window.keys ((finRange 32).get ⟨order.length, more.trans bound⟩)
    rw [ArpEntry.key, if_pos (by simpa using before order.length more), eq_comm] at used
    have inside := (List.getElem?_eq_some_iff.mp used).1
    simp at inside
  simp only [getElem_finRange, Fin.val_cast] at empty ⊢
  omega

theorem Window.insert (ip : BitVec 32) (mac : Mac) : Window (enter order ip) (arpCacheInsert cache ip mac) := by
  rw [arpCacheInsert, enter]
  cases found : cache.find ip with
  | some i =>
    rw [if_pos (window.mem_iff.mp ⟨i, ArpCache.find_some found⟩)]
    refine ⟨fun j => Eq.trans ?_ (window.keys j), window.victim⟩
    by_cases same : j = i
    · subst same
      simp [ArpEntry.key, ArpCache.set]
    · simp [ArpEntry.key, ArpCache.set, same]
  | none =>
    rw [if_neg (window.notMem found)]
    have moved := window.victim
    cases free : cache.free with
    | some i =>
      have next := window.free_next free
      have bound : i.val < 32 := i.isLt
      exact window.put (by omega) ip mac cache.victim (by omega)
    | none =>
      have full := window.keys 31
      rw [ArpEntry.key, if_pos (by simpa using find?_eq_none.mp free 31 (mem_finRange _)), eq_comm] at full
      have long : 31 < order.length := Nat.lt_of_le_of_lt (Nat.le_add_right _ _) (List.getElem?_eq_some_iff.mp full).1
      refine window.put (by omega) ip mac (cache.victim + 1) ?_
      rw [Fin.val_add]
      change (_ + 1) % 32 = _
      omega

end

theorem window_insertAll (inserts : List (BitVec 32 × Mac)) :
    Window (orderOf inserts) (insertAll inserts) ∧ CacheInv (latest inserts) (insertAll inserts) := by
  induction inserts using List.reverseRecOn with
  | nil => exact ⟨⟨fun _ => rfl, rfl⟩, nofun, nofun⟩
  | append_singleton front insert ih =>
    rw [orderOf, insertAll, latest, foldl_append, foldl_append, foldl_append]
    exact ⟨ih.1.insert insert.1 insert.2, ih.2.insert insert.1 insert.2⟩

/-- The valid entries are the addresses that entered last, each once, and a lookup gives what was learned last of them. -/
theorem arp_cache_first_in_first_out (inserts : List (BitVec 32 × Mac)) :
    (∀ ip i j, (insertAll inserts).Matches ip i → (insertAll inserts).Matches ip j → i = j) ∧
    (∀ ip, (∃ i, (insertAll inserts).Matches ip i) ↔ ip ∈ lastEntered (orderOf inserts)) ∧
    ∀ ip, arpCacheLookup (insertAll inserts) ip = if ip ∈ lastEntered (orderOf inserts) then latest inserts ip else none := by
  obtain ⟨window, inv⟩ := window_insertAll inserts
  refine ⟨inv.unique, fun ip => window.mem_iff, fun ip => ?_⟩
  cases found : (insertAll inserts).find ip with
  | none =>
    rw [if_neg (window.notMem found), arpCacheLookup, found]
    rfl
  | some i =>
    have looked : arpCacheLookup (insertAll inserts) ip = some _ := congrArg (Option.map _) found
    rw [if_pos (window.mem_iff.mp ⟨i, ArpCache.find_some found⟩), inv.lookup looked, looked]

end Sirius.Net
