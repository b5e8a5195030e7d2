import Mathlib.Data.List.Nodup
import Mathlib.Data.List.Infix

/-! Trees kept in a flat store: each node has an optional successor for each index, and
nothing but ownership, at most one path to a node, makes the store a tree. A walk
follows a path of indices from a root. -/
namespace Sirius.Support
variable {ν ι : Type} {store changed : ν → ι → Option ν} {root node : ν} {path : List ι}

def walk (store : ν → ι → Option ν) : ν → List ι → Option ν
  | node, [] => some node
  | node, i :: path => (store node i).bind fun next => walk store next path

theorem walk_nil (store : ν → ι → Option ν) (root : ν) : walk store root [] = some root := rfl

theorem walk_append (store : ν → ι → Option ν) (root : ν) (front back : List ι) :
    walk store root (front ++ back) = (walk store root front).bind (fun node => walk store node back) := by
  induction front generalizing root with
  | nil => rfl
  | cons i rest ih =>
    simp only [List.cons_append, walk]
    cases store root i with
    | none => rfl
    | some next => exact ih next

theorem walk_dead (stopped : walk store root front = none) (back : List ι) :
    walk store root (front ++ back) = none := by
  rw [walk_append, stopped]
  rfl

theorem walk_concat (reached : walk store root path = some node) (i : ι) :
    walk store root (path ++ [i]) = store node i := by
  rw [walk_append, reached]
  simp [walk]

theorem walk_of_blank (blank : ∀ i, store root i = none) (reached : walk store root path = some node) :
    path = [] ∧ node = root := by
  cases path with
  | nil => exact ⟨rfl, (Option.some.inj reached).symm⟩
  | cons i rest =>
    rw [walk, blank] at reached
    cases reached

/-- Nodes within the depth are reached by one path only. -/
def Owned (store : ν → ι → Option ν) (root : ν) (depth : Nat) : Prop :=
  ∀ front back node, front.length ≤ depth → back.length ≤ depth →
    walk store root front = some node → walk store root back = some node → front = back

theorem Owned.mono (owned : Owned store root depth) (less : shallow ≤ depth) : Owned store root shallow :=
  fun front back node one two => owned front back node (one.trans less) (two.trans less)

theorem Owned.of_walks (owned : Owned store root depth)
    (same : ∀ path, path.length ≤ depth → walk changed root path = walk store root path) : Owned changed root depth :=
  fun front back node one two first second =>
    owned front back node one two ((same front one).symm.trans first) ((same back two).symm.trans second)

/-- One more path leads somewhere, to a node that was not reached. -/
theorem Owned.one_more (owned : Owned store root depth) (now : walk changed root path = some fresh)
    (unreached : ∀ other, other.length ≤ depth → walk store root other ≠ some fresh)
    (others : ∀ other, other.length ≤ depth → other ≠ path → walk changed root other = walk store root other) :
    Owned changed root depth := by
  intro front back node one two first second
  have old : ∀ other, other.length ≤ depth → walk changed root other = some fresh → other = path := fun other short arrived => by
    by_contra differ
    exact unreached other short ((others other short differ).symm.trans arrived)
  by_cases new : node = fresh
  · rw [old front one (new ▸ first), old back two (new ▸ second)]
  have apart : ∀ other, walk changed root other = some node → other ≠ path := by
    rintro other arrived rfl
    exact new (Option.some.inj (arrived.symm.trans now))
  rw [others front one (apart front first)] at first
  rw [others back two (apart back second)] at second
  exact owned front back node one two first second

/-- A walk reads only the edges on its way. -/
theorem walk_congr (path : List ι)
    (agree : ∀ front i back node, path = front ++ i :: back → path.length = front.length + (back.length + 1) →
      walk store root front = some node → changed node i = store node i) :
    walk changed root path = walk store root path := by
  induction path generalizing root with
  | nil => rfl
  | cons i rest ih =>
    have first := agree [] i rest root rfl (Nat.zero_add _).symm rfl
    simp only [walk, first]
    cases edge : store root i with
    | none => rfl
    | some next =>
      apply ih
      intro front j back node split length reached
      refine agree (i :: front) j back node (by rw [split]; rfl) (by simp only [List.length_cons]; omega) ?_
      simpa only [walk, edge, Option.bind_some] using reached

section
variable {i : ι} {depth : Nat} (owned : Owned store root depth) (reached : walk store root path = some node)
  (kept : ∀ front n j, front.length ≤ depth → walk store root front = some n → ¬ (n = node ∧ j = i) → changed n j = store n j)
include owned reached kept

/-- Replacing an edge leaves every walk alone that does not take it. -/
theorem walk_apart (within : path.length ≤ depth) (other : List ι) (short : other.length ≤ depth + 1)
    (apart : ¬ (path ++ [i]) <+: other) : walk changed root other = walk store root other := by
  apply walk_congr
  intro front j back n split length arrived
  apply kept front n j (by omega) arrived
  rintro ⟨rfl, rfl⟩
  have same := owned front path n (by omega) within arrived reached
  apply apart
  rw [split, same]
  exact ⟨back, by simp⟩

theorem walk_changed (within : path.length ≤ depth) : walk changed root (path ++ [i]) = changed node i := by
  have still : walk changed root path = some node := by
    rw [walk_apart owned reached kept within path (by omega), reached]
    rintro ⟨back, extended⟩
    have := congrArg List.length extended
    simp at this
  rw [walk_concat still]

/-- An edge out of the last owned level does not matter to the levels above. -/
theorem walk_last (last : path.length = depth) (other : List ι) (short : other.length ≤ depth) :
    walk changed root other = walk store root other := by
  refine walk_apart owned reached kept last.le other (by omega) fun extended => ?_
  have := extended.length_le
  simp at this
  omega

/-- A fresh node without successors can be linked where there was no edge. It is reached by one path, and every other
walk is an old one. -/
theorem Owned.link_fresh (within : path.length < depth) (vacant : store node i = none)
    (unreached : ∀ other, other.length ≤ depth → walk store root other ≠ some fresh) (linked : changed node i = some fresh)
    (empty : ∀ j, changed fresh j = none) : Owned changed root depth ∧ walk changed root (path ++ [i]) = some fresh ∧
      (∀ j rest, walk changed root (path ++ [i] ++ j :: rest) = none) ∧
      ∀ other, other.length ≤ depth + 1 → other ≠ path ++ [i] → walk changed root other = walk store root other := by
  have arrives := (walk_changed owned reached kept within.le).trans linked
  have behind : ∀ j rest, walk changed root (path ++ [i] ++ j :: rest) = none := fun j rest => by
    rw [walk_append, arrives]
    simp [walk, empty]
  have others : ∀ other, other.length ≤ depth + 1 → other ≠ path ++ [i] →
      walk changed root other = walk store root other := fun other short differ => by
    by_cases extended : (path ++ [i]) <+: other
    · obtain ⟨rest, rfl⟩ := extended
      cases rest with
      | nil => exact absurd (List.append_nil _) differ
      | cons j rest => exact (behind j rest).trans (walk_dead ((walk_concat reached i).trans vacant) (j :: rest)).symm
    · exact walk_apart owned reached kept within.le other short extended
  exact ⟨owned.one_more arrives unreached fun other short => others other (by omega), arrives, behind, others⟩

end

/-! Post-order traversal of a stored tree down to a fixed depth, where the edges that
are followed may depend on the level: what it visits, and that it visits it once. -/

open List
open Option hiding some
variable {ν ι : Type} {edges : Nat → ν → ι → Option ν} {store : ν → ι → Option ν} {slots : List ι}
  {levels : Nat} {node found : ν} {path : List ι}

/-- The nodes below a node, children before parents, with so many levels left. -/
def postorder (edges : Nat → ν → ι → Option ν) (slots : List ι) : Nat → ν → List ν
  | 0, _ => []
  | levels + 1, node => slots.flatMap fun i =>
      match edges levels node i with
      | none => []
      | some next => postorder edges slots levels next ++ [next]

def visits (edges : Nat → ν → ι → Option ν) (slots : List ι) (levels : Nat) (node : ν) (i : ι) : List ν :=
  match edges levels node i with
  | none => []
  | some next => postorder edges slots levels next ++ [next]

theorem postorder_succ (edges : Nat → ν → ι → Option ν) (slots : List ι) (levels : Nat) (node : ν) :
    postorder edges slots (levels + 1) node = slots.flatMap (visits edges slots levels node) := rfl

/-- The way of the traversal along one path. -/
def descent (edges : Nat → ν → ι → Option ν) : Nat → ν → List ι → Option ν
  | _, node, [] => some node
  | 0, _, _ :: _ => none
  | levels + 1, node, i :: path => (edges levels node i).bind fun next => descent edges levels next path

/-- The visits below one slot are the ends of the descents that start there. -/
theorem mem_visits (i : ι) (deeper : ∀ next found, found ∈ postorder edges slots levels next ↔
      ∃ i path, descent edges levels next (i :: path) = some found) :
    found ∈ visits edges slots levels node i ↔
      ∃ path, descent edges (levels + 1) node (i :: path) = some found := by
  cases edge : edges levels node i with
  | none => simp [visits, descent, edge]
  | some next =>
    simp only [visits, descent, edge, bind_some, mem_append, mem_singleton, deeper]
    constructor
    · rintro (⟨j, path, reached⟩ | rfl)
      · exact ⟨j :: path, reached⟩
      · exact ⟨[], by cases levels <;> rfl⟩
    rintro ⟨path, reached⟩
    cases path with
    | nil =>
      have same : some next = some found := by cases levels <;> exact reached
      exact .inr (Option.some.inj same).symm
    | cons j rest => exact .inl ⟨j, rest, reached⟩

theorem mem_postorder (all : ∀ i, i ∈ slots) : found ∈ postorder edges slots levels node ↔
      ∃ i path, descent edges levels node (i :: path) = some found := by
  induction levels generalizing node found with
  | zero => simp [postorder, descent]
  | succ levels ih =>
    simp only [postorder_succ, mem_flatMap]
    constructor
    · rintro ⟨i, -, inside⟩
      exact ⟨i, (mem_visits i fun _ _ => ih).mp inside⟩
    · rintro ⟨i, reached⟩
      exact ⟨i, all i, (mem_visits i fun _ _ => ih).mpr reached⟩

/-- Where no node is reached twice, no node is visited twice. -/
theorem nodup_postorder (all : ∀ i, i ∈ slots) (distinct : slots.Nodup)
    (unique : ∀ front back found, descent edges levels node front = some found →
      descent edges levels node back = some found → front = back) :
    (postorder edges slots levels node).Nodup := by
  induction levels generalizing node with
  | zero => exact nodup_nil
  | succ levels ih =>
    have visit (i : ι) {found : ν} := @mem_visits _ _ edges slots levels node found i fun _ _ => mem_postorder all
    rw [postorder_succ, nodup_flatMap]
    constructor
    · intro i _
      unfold visits
      cases edge : edges levels node i with
      | none => exact nodup_nil
      | some next =>
        have below : ∀ path, descent edges (levels + 1) node (i :: path) = descent edges levels next path := by
          intro path
          simp [descent, edge]
        rw [nodup_append]
        refine ⟨?_, nodup_singleton _, ?_⟩
        · apply ih
          intro front back f first second
          rw [← below] at first second
          exact (List.cons.inj (unique _ _ f first second)).2
        intro visited deeper last self
        rw [mem_singleton] at self
        rintro rfl
        subst self
        obtain ⟨j, path, reached⟩ := (mem_postorder all).mp deeper
        rw [← below] at reached
        have here : descent edges (levels + 1) node [i] = some visited := by
          rw [below]
          cases levels <;> rfl
        cases unique _ _ _ reached here
    · apply distinct.imp
      intro i j differ visited first second
      obtain ⟨front, left⟩ := (visit i).mp first
      obtain ⟨back, right⟩ := (visit j).mp second
      exact differ (List.cons.inj (unique _ _ _ left right)).1

/-- A traversal that follows edges of a store only walks in it. -/
theorem walk_of_descent (within : ∀ levels node i next, edges levels node i = some next → store node i = some next)
    (reached : descent edges levels node path = some found) :
    walk store node path = some found ∧ path.length ≤ levels := by
  induction path generalizing levels node with
  | nil =>
    cases levels with
    | zero => exact ⟨reached, Nat.le_refl _⟩
    | succ levels => exact ⟨reached, Nat.zero_le _⟩
  | cons i rest ih =>
    cases levels with
    | zero => cases reached
    | succ levels =>
      obtain ⟨next, edge, deeper⟩ := bind_eq_some_iff.mp reached
      obtain ⟨walked, short⟩ := ih deeper
      refine ⟨?_, Nat.succ_le_succ short⟩
      simpa only [walk, within levels node i next edge, bind_some] using walked

/-- A walk whose edges are all followed is a descent. -/
theorem descent_of_walk (short : path.length ≤ levels)
    (followed : ∀ front i back n, path = front ++ i :: back → walk store node front = some n →
      edges (levels - 1 - front.length) n i = store n i)
    (reached : walk store node path = some found) : descent edges levels node path = some found := by
  induction path generalizing levels node with
  | nil => cases levels <;> exact reached
  | cons i rest ih =>
    cases levels with
    | zero => cases short
    | succ levels =>
      obtain ⟨next, edge, deeper⟩ := bind_eq_some_iff.mp reached
      have first := followed [] i rest node rfl rfl
      simp only [Nat.add_sub_cancel, length_nil, Nat.sub_zero, edge] at first
      simp only [descent, first, bind_some]
      apply ih (Nat.le_of_succ_le_succ short) _ deeper
      intro front j back n split arrived
      have later := followed (i :: front) j back n (by rw [split]; rfl) (by
        simpa only [walk, edge, bind_some] using arrived)
      rw [← later]
      congr 1
      simp only [length_cons]
      omega

end Sirius.Support
