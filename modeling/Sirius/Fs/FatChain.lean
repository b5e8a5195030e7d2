import Sirius.Fs.Fat32
import Sirius.Support.LinkedList
import Mathlib.Data.Finset.Card

/-! Chains of clusters: what the loops over a chain pass and read, what the search for a free
cluster gives, and how a chain is given back. -/
namespace Sirius.Fs.Fat32
open Support List

/-- A word of the table as a link; an end-of-chain mark links to nothing. -/
def linkOf (word : Nat) : Option Nat := if eof ≤ word then none else some word

def Volume.next (vol : Volume) (cluster : Nat) : Option Nat := linkOf (getNextCluster vol cluster)

/-- A chain that ends at an end-of-chain mark, all of whose clusters the volume has. -/
structure Owns (count : Nat) (vol : Volume) (start : Nat) (cells : List Nat) : Prop where
  chain : Chain vol.next (some start) cells
  range : ∀ cluster ∈ cells, 2 ≤ cluster ∧ cluster < count + 2

/-- A volume with `count` clusters, for each of which there is a word in the table. -/
structure Mounted (count : Nat) (vol : Volume) : Prop where
  bytes : 0 < vol.clusterBytes
  words : count + 2 ≤ vol.fatWords
  numbers : count + 2 ≤ badCluster

variable {count : Nat} {vol vol' : Volume}

@[simp] theorem linkOf_eq_none : linkOf word = none ↔ eof ≤ word := by
  simp [linkOf, ite_eq_left_iff, imp_false]

theorem eq_of_linkOf (link : linkOf word = some cluster) : word = cluster := by
  unfold linkOf at link
  split at link
  · cases link
  · exact Option.some.inj link

theorem linkOf_of_lt (number : cluster < badCluster) : linkOf cluster = some cluster := by
  rw [linkOf, if_neg]
  simp only [eof, badCluster] at number ⊢
  omega

theorem not_endOfChain (number : cluster < badCluster) : ¬EndOfChain cluster := by
  simp only [EndOfChain, eof, badCluster] at number ⊢
  omega

namespace Owns
variable (owns : Owns count vol start cells)
include owns

theorem start_mem : start ∈ cells := by
  cases cells with
  | nil => cases owns.chain
  | cons first rest => exact Option.some.inj owns.chain.1 ▸ mem_cons_self

theorem nodup : cells.Nodup := owns.chain.nodup

theorem unique (other : Owns count vol start others) : cells = others := owns.chain.unique other.chain

theorem congr (same : ∀ cluster ∈ cells, getNextCluster vol' cluster = getNextCluster vol cluster) :
    Owns count vol' start cells where
  chain := (visits_congr fun cluster mem => congrArg linkOf (same cluster mem)).mpr owns.chain
  range := owns.range

theorem length_le : cells.length ≤ count := by
  have within : cells ⊆ List.range' 2 count := fun cluster mem => by
    have := owns.range cluster mem
    exact mem_range'_1.mpr ⟨this.1, by omega⟩
  simpa only [length_range'] using (owns.nodup.subperm within).length_le

theorem getElem_zero : cells[0]? = some start := by
  cases cells with
  | nil => cases owns.chain
  | cons first rest => exact owns.chain.1.symm

theorem link (here : cells[i]? = some cluster) : linkOf (getNextCluster vol cluster) = cells[i + 1]? :=
  owns.chain.next_getElem here

theorem allocated (mem : cluster ∈ cells) : getNextCluster vol cluster ≠ 0 := by
  obtain ⟨i, here⟩ := mem_iff_getElem?.mp mem
  have link := owns.link here
  intro free
  rw [free] at link
  have last : 0 ∈ cells := mem_of_getElem? link.symm
  have := owns.range 0 last
  omega

end Owns

theorem clusters_of_chain (numbers : count + 2 ≤ badCluster) (chain : Chain vol.next (linkOf word) cells)
    (range : ∀ cluster ∈ cells, 2 ≤ cluster ∧ cluster < count + 2) (enough : cells.length < steps) :
    clusters vol steps word = some cells := by
  induction cells generalizing word steps with
  | nil =>
    obtain ⟨steps, rfl⟩ := Nat.exists_eq_add_one_of_ne_zero (Nat.ne_of_gt enough)
    rw [clusters, if_pos (.inl (linkOf_eq_none.mp chain))]
  | cons first rest ih =>
    obtain ⟨steps, rfl⟩ := Nat.exists_eq_add_one_of_ne_zero (Nat.ne_of_gt (Nat.zero_lt_of_lt enough))
    obtain rfl := eq_of_linkOf chain.1
    have inside := range word mem_cons_self
    have rest := ih chain.2 (fun cluster mem => range cluster (mem_cons_of_mem _ mem)) (Nat.lt_of_succ_lt_succ enough)
    rw [clusters, if_neg (not_endOfChain (by omega)), rest, Option.map_some]

theorem Owns.clusters (numbers : count + 2 ≤ badCluster) (owns : Owns count vol start cells) :
    clusters vol (chainLimit + 1) start = some cells := by
  have inside := owns.range start owns.start_mem
  refine clusters_of_chain numbers ((linkOf_of_lt (show start < badCluster by omega)) ▸ owns.chain) owns.range ?_
  have := owns.length_le
  simp only [badCluster, chainLimit] at numbers ⊢
  omega

end Sirius.Fs.Fat32
