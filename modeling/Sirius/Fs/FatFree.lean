import Sirius.Fs.FatWrite
import Mathlib.Data.Nat.Find

/-! `fat32_free_cluster_chain`: a chain that is given back. Each round reads the next word and frees the entry it leaves;
a read that fails is taken for the end of the chain, and a write that fails is not noticed. -/
namespace Sirius.Fs.Fat32
open Support Function List Nat

variable {count : Nat} {vol vol' : Volume}

/-- The cluster that so many words of the table lead to. -/
def follow (vol : Volume) (start i : Nat) : Nat := (getNextCluster vol)^[i] start

/-- So many clusters are visited, up to a mark, a free entry or a cluster visited before. -/
structure Visited (vol : Volume) (start rounds : Nat) : Prop where
  going : ∀ i < rounds, Going (follow vol start i)
  distinct : ∀ i < rounds, ∀ j < i, follow vol start j ≠ follow vol start i
  last : Going (follow vol start rounds) → ∃ j < rounds, follow vol start j = follow vol start rounds

/-- The entries of these clusters are free, and the upper four bits of their words as they were. -/
def zeroed (vol : Volume) (cells : List Nat) : Volume :=
  { vol with fat := fun cluster => if cluster ∈ cells then vol.fat cluster / 2 ^ 28 * 2 ^ 28 else vol.fat cluster }

/-- The clusters whose entries have been freed before a round. -/
def freedBefore (access : Nat → Access) (vol : Volume) (start round : Nat) : List Nat :=
  ((range round).filter fun i => (access i).set).map (follow vol start)

/-- The rounds before this one read the next word, and from an entry that is not freed yet. -/
def Reached (access : Nat → Access) (vol : Volume) (start round : Nat) : Prop :=
  ∀ i < round, Going (follow vol start i) ∧ (access i).get = true ∧ follow vol start i ∉ freedBefore access vol start i

section
variable {access : Nat → Access} {start round : Nat}

theorem follow_succ (vol : Volume) (start i : Nat) : follow vol start (i + 1) = getNextCluster vol (follow vol start i) :=
  iterate_succ_apply' _ _ _

theorem follow_add (same : follow vol start i = follow vol start j) (more : Nat) :
    follow vol start (more + i) = follow vol start (more + j) := by
  rw [follow, follow, iterate_add_apply, iterate_add_apply]
  exact congrArg _ same

theorem zeroed_nil (vol : Volume) : zeroed vol [] = vol := by simp [zeroed]

theorem getNextCluster_zeroed (vol : Volume) (cells : List Nat) (cluster : Nat) :
    getNextCluster (zeroed vol cells) cluster = if cluster ∈ cells then 0 else getNextCluster vol cluster := by
  rw [getNextCluster, zeroed, getNextCluster]
  dsimp only
  split
  · omega
  · rfl

theorem mem_freedBefore : cluster ∈ freedBefore access vol start round ↔
    ∃ i < round, (access i).set = true ∧ follow vol start i = cluster := by
  simp [freedBefore, and_assoc]

/-- One round more is one cluster more, if its entry can be written. -/
theorem zeroed_freedBefore (access : Nat → Access) (vol : Volume) (start round : Nat) :
    (if (access round).set then setCluster (zeroed vol (freedBefore access vol start round)) (follow vol start round) 0
      else zeroed vol (freedBefore access vol start round)) = zeroed vol (freedBefore access vol start (round + 1)) := by
  have grown : freedBefore access vol start (round + 1) = freedBefore access vol start round ++
      if (access round).set then [follow vol start round] else [] := by
    rw [freedBefore, range_succ, filter_append, map_append, freedBefore]
    split <;> simp [*]
  rw [grown]
  split
  · refine congrArg (fun fat => { vol with fat := fat }) (funext fun other => ?_)
    by_cases same : other = follow vol start round
    · subst same
      simp only [zeroed, update_self, mem_append, mem_singleton, or_true, if_true]
      split <;> omega
    · simp only [zeroed, update_of_ne same, mem_append, mem_singleton, same, or_false]
  · rw [append_nil]

theorem freeLoop_reached (reached : Reached access vol start round) (steps : Nat) : freeLoop access (steps + round) 0 start vol =
    freeLoop access steps round (follow vol start round) (zeroed vol (freedBefore access vol start round)) := by
  induction round generalizing steps with
  | zero =>
    rw [freedBefore, range_zero, filter_nil, map_nil, zeroed_nil]
    rfl
  | succ round ih =>
    obtain ⟨going, got, kept⟩ := reached round (Nat.lt_add_one round)
    rw [← succ_add_eq_add_succ, ih (fun i early => reached i (by omega)), freeLoop, if_pos going, if_pos got,
      getNextCluster_zeroed, if_neg kept, zeroed_freedBefore, follow_succ]

/-- More rounds do not change a result. -/
theorem freeLoop_mono (done : freeLoop access steps round cluster vol = some vol') (more : Nat) :
    freeLoop access (steps + more) round cluster vol = some vol' := by
  induction steps generalizing round cluster vol with
  | zero => cases done
  | succ steps ih =>
    rw [succ_add, freeLoop]
    rw [freeLoop] at done
    split at done
    next going => rw [if_pos going, ih done]
    next ended => rw [if_neg ended, done]

theorem Reached.outcome (reached : Reached access vol start round) (going : Going (follow vol start round))
    (last : ¬(Reached access vol start (round + 1) ∧ Going (follow vol start (round + 1)))) :
    freeLoop access (1 + (round + 1)) 0 start vol = some (zeroed vol (freedBefore access vol start (round + 1))) := by
  rw [Nat.add_left_comm, Nat.add_comm round, freeLoop_reached reached, freeLoop, if_pos going,
    zeroed_freedBefore, freeLoop, if_neg fun next => last ?_]
  split at next
  case isFalse => exact absurd (.inr rfl) next.1
  case isTrue got =>
    rw [getNextCluster_zeroed] at next
    split at next
    case isTrue => exact absurd rfl next.2
    case isFalse kept =>
      rw [← follow_succ] at next
      refine ⟨fun i early => ?_, next⟩
      rcases Nat.lt_succ_iff_lt_or_eq.mp early with before | rfl
      · exact reached i before
      · exact ⟨going, got, kept⟩

/-- Either every round is followed by another, or there is a last one. -/
theorem freeLoop_cases (access : Nat → Access) (vol : Volume) (start : Nat) :
    ((∀ i, Reached access vol start i ∧ Going (follow vol start i)) ∧ ∀ steps, freeLoop access steps 0 start vol = none) ∨
      ∃ last, (∀ i, Reached access vol start i ∧ Going (follow vol start i) ↔ i < last) ∧
        freeLoop access (1 + last) 0 start vol = some (zeroed vol (freedBefore access vol start last)) := by
  classical
  by_cases all : ∀ i, Reached access vol start i ∧ Going (follow vol start i)
  · refine .inl ⟨all, fun steps => ?_⟩
    have run := freeLoop_reached (all steps).1 0
    rw [Nat.zero_add] at run
    exact run
  have stops := not_forall.mp all
  refine .inr ⟨Nat.find stops, fun i => ⟨fun here => ?_, fun early => not_not.mp (Nat.find_min stops early)⟩, ?_⟩
  · by_contra late
    refine Nat.find_spec stops ?_
    rcases Nat.lt_or_eq_of_le (Nat.not_lt.mp late) with before | same
    · exact ⟨fun j early => here.1 j (by omega), (here.1 _ before).1⟩
    · exact same ▸ here
  · have stopped := Nat.find_spec stops
    have early : ∀ i < Nat.find stops, _ := fun i before => not_not.mp (Nat.find_min stops before)
    generalize Nat.find stops = last at stopped early
    cases last with
    | zero =>
      have ended : ¬Going start := fun going => stopped ⟨nofun, going⟩
      rw [freedBefore, range_zero, filter_nil, map_nil, zeroed_nil, freeLoop, if_neg ended]
    | succ round =>
      obtain ⟨reached, going⟩ := early round (Nat.lt_add_one round)
      exact Reached.outcome reached going stopped

theorem exists_visited (vol : Volume) (start : Nat) : ∃ rounds, Visited vol start rounds := by
  classical
  have again : ∃ n, Going (follow vol start n) → ∃ j < n, follow vol start j = follow vol start n := by
    by_contra never
    push Not at never
    have bound : ∀ i ∈ Finset.range (2 ^ 28 + 1), follow vol start (i + 1) ∈ Finset.range (2 ^ 28) := fun i _ => by
      rw [follow_succ, Finset.mem_range]
      exact mod_lt _ (by decide)
    obtain ⟨i, -, j, -, differ, same⟩ :=
      Finset.exists_ne_map_eq_of_card_lt_of_maps_to (by rw [Finset.card_range, Finset.card_range]; exact Nat.lt_add_one _) bound
    rcases Nat.lt_or_gt_of_ne differ with before | before
    · exact (never (j + 1)).2 (i + 1) (by omega) same
    · exact (never (i + 1)).2 (j + 1) (by omega) same.symm
  refine ⟨Nat.find again, fun i early => ?_, fun i early j before same => ?_, Nat.find_spec again⟩
  · by_contra ended
    exact Nat.find_min again early fun going => absurd going ended
  · exact Nat.find_min again early fun _ => ⟨j, before, same⟩

namespace Visited

theorem unique (one : Visited vol start rounds) (two : Visited vol start rounds') : rounds = rounds' := by
  have ordered : ∀ {m n}, Visited vol start m → Visited vol start n → ¬m < n := fun first second less => by
    obtain ⟨j, before, same⟩ := first.last (second.going _ less)
    exact second.distinct _ less j before same
  exact Nat.le_antisymm (Nat.not_lt.mp (ordered two one)) (Nat.not_lt.mp (ordered one two))

/-- A walk that goes on stays among the clusters visited. -/
theorem mem (visited : Visited vol start rounds) (i : Nat) (going : ∀ j ≤ i, Going (follow vol start j)) :
    ∃ j < rounds, follow vol start j = follow vol start i := by
  induction i using Nat.strongRecOn with
  | ind i ih =>
    by_cases inside : i < rounds
    · exact ⟨i, inside, rfl⟩
    obtain ⟨j, before, same⟩ := visited.last (going rounds (by omega))
    have back := follow_add same (i - rounds)
    rw [Nat.sub_add_cancel (by omega)] at back
    rw [← back]
    exact ih _ (by omega) fun k early => going k (by omega)

end Visited

/-- What is asked for: there is an end, and exactly the entries of the clusters visited are free. 1 is no cluster to start
from. -/
def FreesVisited (access : Nat → Access) (vol : Volume) (start : Nat) : Prop :=
  ∃ rounds steps, (if start = 1 then rounds = 0 else Visited vol start rounds) ∧
    fat32FreeClusterChain vol access steps start = some (zeroed vol ((range rounds).map (follow vol start)))

/-- Each cluster that is visited, if its entry is not free, has a round that is reached and writes the entry. -/
def EachWritten (access : Nat → Access) (vol : Volume) (start : Nat) : Prop :=
  ∀ rounds, Visited vol start rounds → ∀ i < rounds, getNextCluster vol (follow vol start i) ≠ 0 →
    ∃ r, Reached access vol start r ∧ follow vol start r = follow vol start i ∧ (access r).set = true

theorem fat32FreeClusterChain_iff (cluster : start ≠ 1) : (∃ steps, fat32FreeClusterChain vol access steps start = some vol') ↔
    ∃ steps, freeLoop access steps 0 start vol = some vol' := by
  simp only [fat32FreeClusterChain]
  split
  case isTrue none =>
    have ended : ¬Going start := by
      rintro ⟨going, nonzero⟩
      simp only [EndOfChain, eof, badCluster] at going none
      omega
    constructor
    · rintro ⟨-, done⟩
      refine ⟨1, ?_⟩
      rw [freeLoop, if_neg ended, done]
    · rintro ⟨steps, done⟩
      cases steps with
      | zero => cases done
      | succ steps =>
        rw [freeLoop, if_neg ended] at done
        exact ⟨0, done⟩
  case isFalse => rfl

/-- A cluster that the walk comes back to has been freed when it does. -/
theorem EachWritten.ends (each : EachWritten access vol start) :
    ¬∀ i, Reached access vol start i ∧ Going (follow vol start i) := by
  intro all
  obtain ⟨rounds, visited⟩ := exists_visited vol start
  obtain ⟨j, before, same⟩ := visited.last (all rounds).2
  have word : getNextCluster vol (follow vol start j) ≠ 0 := by
    rw [← follow_succ]
    exact (all (j + 1)).2.2
  obtain ⟨r, -, here, written⟩ := each rounds visited j before word
  -- one turn after the entry has been written
  have turn : follow vol start (rounds - j + r) = follow vol start r := by
    rw [follow_add here, Nat.sub_add_cancel before.le, ← same, here]
  exact ((all (rounds - j + r + 1)).1 _ (Nat.lt_add_one _)).2.2 (mem_freedBefore.mpr ⟨r, by omega, written, turn.symm⟩)

theorem zeroed_eq_iff (sub : ∀ cluster ∈ freed, cluster ∈ cells) :
    zeroed vol freed = zeroed vol cells ↔ ∀ cluster ∈ cells, getNextCluster vol cluster ≠ 0 → cluster ∈ freed := by
  constructor
  · intro same cluster mem word
    have words := congrArg (getNextCluster · cluster) same
    simp only [getNextCluster_zeroed, if_pos mem] at words
    by_contra out
    rw [if_neg out] at words
    exact word words
  · intro covered
    refine congrArg (fun fat => { vol with fat := fat }) (funext fun cluster => ?_)
    by_cases mem : cluster ∈ cells
    · by_cases done : cluster ∈ freed
      · rw [if_pos done, if_pos mem]
      · have free : getNextCluster vol cluster = 0 := by_contra fun word => done (covered cluster mem word)
        rw [if_neg done, if_pos mem]
        unfold getNextCluster at free
        omega
    · rw [if_neg fun done => mem (sub cluster done), if_neg mem]

/-- Giving back a chain ends, on any table, and frees exactly what is visited, if and only if every entry there is to be
freed is written. -/
theorem freeing_a_chain_ends_iff (access : Nat → Access) (vol : Volume) (start : Nat) :
    FreesVisited access vol start ↔ start = 1 ∨ EachWritten access vol start := by
  by_cases one : start = 1
  · refine iff_of_true ⟨0, 0, by rw [if_pos one], ?_⟩ (.inl one)
    rw [fat32FreeClusterChain, if_pos (by omega), range_zero, map_nil, zeroed_nil]
  obtain ⟨rounds, visited⟩ := exists_visited vol start
  have only : FreesVisited access vol start ↔
      ∃ steps, freeLoop access steps 0 start vol = some (zeroed vol ((range rounds).map (follow vol start))) := by
    rw [← fat32FreeClusterChain_iff one]
    constructor
    · rintro ⟨others, steps, isVisited, done⟩
      rw [if_neg one] at isVisited
      obtain rfl := isVisited.unique visited
      exact ⟨steps, done⟩
    · rintro ⟨steps, done⟩
      exact ⟨rounds, steps, by rwa [if_neg one], done⟩
  rw [only, or_iff_right one]
  rcases freeLoop_cases access vol start with ⟨all, never⟩ | ⟨last, here, result⟩
  · refine iff_of_false ?_ fun each => each.ends all
    rintro ⟨steps, done⟩
    cases (never steps).symm.trans done
  have sub : ∀ cluster ∈ freedBefore access vol start last, cluster ∈ (range rounds).map (follow vol start) := by
    intro cluster mem
    obtain ⟨i, early, -, rfl⟩ := mem_freedBefore.mp mem
    obtain ⟨reached, going⟩ := (here i).mpr early
    have walk : ∀ j ≤ i, Going (follow vol start j) := fun j le =>
      (Nat.lt_or_eq_of_le le).elim (fun before => (reached j before).1) fun same => same ▸ going
    obtain ⟨j, inside, same⟩ := visited.mem i walk
    exact mem_map.mpr ⟨j, mem_range.mpr inside, same⟩
  have same : (∃ steps, freeLoop access steps 0 start vol = some (zeroed vol ((range rounds).map (follow vol start)))) ↔
      zeroed vol (freedBefore access vol start last) = zeroed vol ((range rounds).map (follow vol start)) := by
    constructor
    · rintro ⟨steps, done⟩
      have one := freeLoop_mono done (1 + last)
      rw [Nat.add_comm, freeLoop_mono result steps] at one
      exact Option.some.inj one
    · exact fun same => ⟨1 + last, same ▸ result⟩
  rw [same, zeroed_eq_iff sub]
  constructor
  · intro covered others isVisited i inside word
    obtain rfl := isVisited.unique visited
    obtain ⟨r, early, written, same⟩ :=
      mem_freedBefore.mp (covered _ (mem_map.mpr ⟨i, mem_range.mpr inside, rfl⟩) word)
    exact ⟨r, ((here r).mpr early).1, same, written⟩
  · intro each cluster mem word
    obtain ⟨i, inside, rfl⟩ := mem_map.mp mem
    obtain ⟨r, reached, same, written⟩ := each rounds visited i (mem_range.mp inside) word
    have going := visited.going i (mem_range.mp inside)
    exact mem_freedBefore.mpr ⟨r, (here r).mp ⟨reached, same ▸ going⟩, written, same⟩

/-- A chain that starts in cluster 2, with the last one in 3. -/
def chainTable (next : Nat) : Volume :=
  { fat := fun cluster => if cluster = 2 then next else eof, fatWords := 8, data := fun _ _ => 0,
    clusterBytes := 512, rootCluster := 4 }

/-- When the first word cannot be read, the second cluster is lost; when no entry can be written, a cycle has no end. -/
theorem unread_word_loses_rest_of_chain : ¬FreesVisited (fun round => ⟨round != 0, true⟩) (chainTable 3) 2 ∧
    ∀ steps, fat32FreeClusterChain (chainTable 2) (fun _ => ⟨true, false⟩) steps 2 = none := by
  refine ⟨?_, fun steps => ?_⟩
  · rintro ⟨rounds, steps, visited, done⟩
    have two : Visited (chainTable 3) 2 2 := ⟨by decide, by decide, by decide⟩
    obtain rfl := Visited.unique visited two
    have result : freeLoop (fun round => ⟨round != 0, true⟩) 2 0 2 (chainTable 3) = some (setCluster (chainTable 3) 2 0) := rfl
    have same := freeLoop_mono result steps
    rw [Nat.add_comm, freeLoop_mono done 2] at same
    exact absurd (congrArg (getNextCluster · 3) (Option.some.inj same)) (by decide)
  · have loop : ∀ round, freeLoop (fun _ => ⟨true, false⟩) steps round 2 (chainTable 2) = none := by
      induction steps with
      | zero => exact fun _ => rfl
      | succ steps ih => exact fun round => ih (round + 1)
    exact loop 0

end

structure Freed (cells : List Nat) (vol vol' : Volume) : Prop where
  only : Only cells vol vol'
  words : ∀ cluster ∈ cells, getNextCluster vol' cluster = 0
  data : vol'.data = vol.data

theorem freed_zeroed (vol : Volume) (cells : List Nat) : Freed cells vol (zeroed vol cells) where
  only := ⟨rfl, rfl, rfl, fun cluster away => by simp [getNextCluster, zeroed, away], fun _ _ => rfl⟩
  words cluster mem := by
    simp only [getNextCluster, zeroed, mem, if_true]
    omega
  data := rfl

theorem follow_of_chain (chain : Chain vol.next (linkOf word) cells) :
    cells = (range cells.length).map (follow vol word) ∧ eof ≤ follow vol word cells.length := by
  induction cells generalizing word with
  | nil => exact ⟨rfl, linkOf_eq_none.mp chain⟩
  | cons first rest ih =>
    obtain rfl := eq_of_linkOf chain.1
    obtain ⟨cells, last⟩ := ih chain.2
    refine ⟨?_, last⟩
    rw [length_cons, range_succ_eq_map, map_cons, List.map_map]
    exact congrArg (word :: ·) cells

theorem freeClusterChain_of_owns (numbers : count + 2 ≤ badCluster) (owns : Owns count vol start cells) :
    ∃ vol', freeClusterChain vol start = some vol' ∧ Freed cells vol vol' := by
  have inside := owns.range start owns.start_mem
  have number : start < badCluster := by omega
  obtain ⟨walk, last⟩ := follow_of_chain (linkOf_of_lt number ▸ owns.chain)
  have freed : ∀ r, freedBefore (fun _ => ⟨true, true⟩) vol start r = (range r).map (follow vol start) := by simp [freedBefore]
  have reached : Reached (fun _ => ⟨true, true⟩) vol start cells.length := by
    intro i early
    have mem : follow vol start i ∈ cells := walk ▸ mem_map.mpr ⟨i, mem_range.mpr early, rfl⟩
    have bounds := owns.range _ mem
    refine ⟨⟨not_endOfChain (by omega), by omega⟩, rfl, fun before => ?_⟩
    obtain ⟨j, less, same⟩ := mem_map.mp (freed i ▸ before)
    have distinct := owns.nodup
    rw [walk] at distinct
    have := inj_on_of_nodup_map distinct (mem_range.mpr ((mem_range.mp less).trans early)) (mem_range.mpr early) same
    exact absurd this (mem_range.mp less).ne
  have length := owns.length_le
  obtain ⟨steps, enough⟩ : ∃ steps, chainLimit = steps + 1 + cells.length :=
    ⟨chainLimit - 1 - cells.length, by simp only [chainLimit, badCluster] at numbers ⊢; omega⟩
  refine ⟨zeroed vol cells, ?_, freed_zeroed vol cells⟩
  rw [freeClusterChain, fat32FreeClusterChain, if_neg (by omega), enough, freeLoop_reached reached, freeLoop,
    if_neg fun going => going.1 (.inl last), freed, ← walk]

end Sirius.Fs.Fat32
