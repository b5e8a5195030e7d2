import Mathlib.Data.Set.Insert

/-! Trees given by a relation between a node and its children: a path from the root to every
node, no second parent. The three edits of such a tree are a new leaf, a leaf less, and a
subtree that moves to another parent. -/
namespace Sirius.Support
open Relation

variable {α : Type*} {Child Child' : α → α → Prop} {root : α} {nodes : Set α}

structure RootedTree (Child : α → α → Prop) (root : α) (nodes : Set α) : Prop where
  root_mem : root ∈ nodes
  parent_mem : Child p c → p ∈ nodes
  child_mem : Child p c → c ∈ nodes
  orphan : ¬Child p root
  single : Child p c → Child q c → p = q
  reached : n ∈ nodes → ReflTransGen Child root n

/-- The nodes met on the way down from the root, without the root. -/
inductive Path (Child : α → α → Prop) (root : α) : List α → α → Prop
  | root : Path Child root [] root
  | child : Path Child root path p → Child p c → Path Child root (path ++ [c]) c

theorem Path.of_reached (reached : ReflTransGen Child root n) : ∃ path, Path Child root path n := by
  induction reached with
  | refl => exact ⟨[], .root⟩
  | tail _ child ih =>
    obtain ⟨path, walk⟩ := ih
    exact ⟨_, walk.child child⟩

namespace RootedTree

theorem path_unique (tree : RootedTree Child root nodes) (one : Path Child root path n)
    (other : Path Child root path' n) : path' = path := by
  induction one generalizing path' with
  | root =>
    cases other with
    | root => rfl
    | child _ child => exact absurd child tree.orphan
  | child _ child ih =>
    cases other with
    | root => exact absurd child tree.orphan
    | child walk child' =>
      obtain rfl := tree.single child' child
      rw [ih walk]

theorem existsUnique_path (tree : RootedTree Child root nodes) (mem : n ∈ nodes) :
    ∃! path, Path Child root path n := by
  obtain ⟨path, walk⟩ := Path.of_reached (tree.reached mem)
  exact ⟨path, walk, fun _ other => tree.path_unique walk other⟩

theorem acyclic (tree : RootedTree Child root nodes) (n : α) : ¬TransGen Child n n := by
  intro cycle
  have mem : n ∈ nodes := by
    obtain ⟨_, _, child⟩ := TransGen.tail'_iff.mp cycle
    exact tree.child_mem child
  -- A cycle through a child goes through its only parent, and so on up to the root.
  induction tree.reached mem with
  | refl =>
    obtain ⟨_, _, child⟩ := TransGen.tail'_iff.mp cycle
    exact tree.orphan child
  | tail _ child ih =>
    obtain ⟨p, below, last⟩ := TransGen.tail'_iff.mp cycle
    obtain rfl := tree.single last child
    exact ih (.head' child below) (tree.parent_mem child)

theorem leaf (root : α) : RootedTree (fun _ _ : α => False) root {root} where
  root_mem := rfl
  parent_mem := False.elim
  child_mem := False.elim
  orphan := id
  single none := none.elim
  reached mem := by rw [Set.mem_singleton_iff.mp mem]

section
variable (tree : RootedTree Child root nodes)
include tree

/-- A new node below `parent`. -/
theorem insert (parent : p ∈ nodes) (fresh : new ∉ nodes) (edges : ∀ a b, Child' a b ↔ Child a b ∨ a = p ∧ b = new) :
    RootedTree Child' root (insert new nodes) where
  root_mem := .inr tree.root_mem
  parent_mem child := by
    rcases (edges _ _).mp child with old | ⟨rfl, -⟩
    · exact .inr (tree.parent_mem old)
    · exact .inr parent
  child_mem child := by
    rcases (edges _ _).mp child with old | ⟨-, rfl⟩
    · exact .inr (tree.child_mem old)
    · exact .inl rfl
  orphan child := by
    rcases (edges _ _).mp child with old | ⟨-, rfl⟩
    · exact tree.orphan old
    · exact fresh tree.root_mem
  single first second := by
    rcases (edges _ _).mp first with old | ⟨rfl, rfl⟩ <;> rcases (edges _ _).mp second with old' | ⟨rfl, same⟩
    · exact tree.single old old'
    · exact absurd (same ▸ tree.child_mem old) fresh
    · exact absurd (tree.child_mem old') fresh
    · rfl
  reached mem := by
    have old : ∀ {n}, n ∈ nodes → ReflTransGen Child' root n := fun mem =>
      ReflTransGen.mono (fun _ _ child => (edges _ _).mpr (.inl child)) _ _ (tree.reached mem)
    rcases mem with rfl | mem
    · exact (old parent).tail ((edges _ _).mpr (.inr ⟨rfl, rfl⟩))
    · exact old mem

/-- A path to a node that is not below `away` does not use the link that leads to `away`. -/
theorem reached_avoiding (mem : n ∈ nodes) (apart : ¬ReflTransGen Child away n) :
    ReflTransGen (fun a b => Child a b ∧ b ≠ away) root n := by
  induction tree.reached mem with
  | refl => exact .refl
  | tail _ child ih =>
    have above : ¬ReflTransGen Child away _ := fun below => apart (below.tail child)
    refine (ih (tree.parent_mem child) above).tail ⟨child, ?_⟩
    rintro rfl
    exact apart .refl

/-- A leaf less. -/
theorem erase (child : Child p gone) (leaf : ∀ c, ¬Child gone c) (edges : ∀ a b, Child' a b ↔ Child a b ∧ b ≠ gone) :
    RootedTree Child' root (nodes \ {gone}) where
  root_mem := ⟨tree.root_mem, fun same => tree.orphan (Set.mem_singleton_iff.mp same ▸ child)⟩
  parent_mem link := by
    obtain ⟨old, -⟩ := (edges _ _).mp link
    refine ⟨tree.parent_mem old, ?_⟩
    rintro rfl
    exact leaf _ old
  child_mem link := ⟨tree.child_mem ((edges _ _).mp link).1, ((edges _ _).mp link).2⟩
  orphan link := tree.orphan ((edges _ _).mp link).1
  single first second := tree.single ((edges _ _).mp first).1 ((edges _ _).mp second).1
  reached mem := by
    refine ReflTransGen.mono (fun _ _ link => (edges _ _).mpr link) _ _ (tree.reached_avoiding mem.1 ?_)
    intro below
    rcases below.cases_head with rfl | ⟨c, link, -⟩
    · exact mem.2 rfl
    · exact leaf c link

/-- The subtree at `moved` hangs below `target` instead, which is not part of it. -/
theorem move (child : Child p moved) (parent : target ∈ nodes) (outside : ¬ReflTransGen Child moved target)
    (edges : ∀ a b, Child' a b ↔ Child a b ∧ b ≠ moved ∨ a = target ∧ b = moved) :
    RootedTree Child' root nodes where
  root_mem := tree.root_mem
  parent_mem link := by
    rcases (edges _ _).mp link with ⟨old, -⟩ | ⟨rfl, -⟩
    · exact tree.parent_mem old
    · exact parent
  child_mem link := by
    rcases (edges _ _).mp link with ⟨old, -⟩ | ⟨-, rfl⟩
    · exact tree.child_mem old
    · exact tree.child_mem child
  orphan link := by
    rcases (edges _ _).mp link with ⟨old, -⟩ | ⟨-, rfl⟩
    · exact tree.orphan old
    · exact tree.orphan child
  single first second := by
    rcases (edges _ _).mp first with ⟨old, ne⟩ | ⟨rfl, rfl⟩ <;>
      rcases (edges _ _).mp second with ⟨old', ne'⟩ | ⟨rfl, same⟩
    · exact tree.single old old'
    · exact absurd same ne
    · exact absurd rfl ne'
    · rfl
  reached {n} mem := by
    have kept : ∀ {n}, n ∈ nodes → ¬ReflTransGen Child moved n → ReflTransGen Child' root n :=
      fun mem apart => ReflTransGen.mono (fun _ _ link => (edges _ _).mpr (.inl link)) _ _
        (tree.reached_avoiding mem apart)
    have there := (kept parent outside).tail ((edges _ _).mpr (.inr ⟨rfl, rfl⟩))
    by_cases below : ReflTransGen Child moved n
    · -- Below `moved` no link has changed: none leads back to it.
      induction below with
      | refl => exact there
      | tail above link ih =>
        refine (ih (tree.parent_mem link)).tail ((edges _ _).mpr (.inl ⟨link, ?_⟩))
        rintro rfl
        exact tree.acyclic _ (.tail' above link)
    · exact kept mem below

end

end RootedTree

end Sirius.Support
