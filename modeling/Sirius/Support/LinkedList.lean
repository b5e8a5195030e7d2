import Mathlib.Data.List.Nodup

/-! Lists linked through a `next` field of their cells: what a traversal visits, and the
edits after which it still comes to an end. -/
namespace Sirius.Support
open Function
open List hiding head

variable [DecidableEq α] {next : α → Option α}

/-- A traversal from one link to another, with the cells on its way. -/
def Visits (next : α → Option α) : Option α → List α → Option α → Prop
  | start, [], stop => start = stop
  | start, cell :: rest, stop => start = some cell ∧ Visits next (next cell) rest stop

def Chain (next : α → Option α) (head : Option α) (cells : List α) : Prop := Visits next head cells none

omit [DecidableEq α] in
theorem visits_append : Visits next start (front ++ back) stop ↔
      ∃ middle, Visits next start front middle ∧ Visits next middle back stop := by
  induction front generalizing start with
  | nil => exact ⟨fun path => ⟨start, rfl, path⟩, fun ⟨_, same, path⟩ => same ▸ path⟩
  | cons cell rest ih =>
    simp only [cons_append, Visits, ih]
    exact ⟨fun ⟨here, middle, first, second⟩ => ⟨middle, ⟨here, first⟩, second⟩,
      fun ⟨middle, ⟨here, first⟩, second⟩ => ⟨here, middle, first, second⟩⟩

omit [DecidableEq α] in
theorem Chain.unique (first : Chain next head cells) (second : Chain next head others) : cells = others := by
  induction cells generalizing head others with
  | nil =>
    cases others with
    | nil => rfl
    | cons other rest => cases second.1.symm.trans first
  | cons cell rest ih =>
    cases others with
    | nil => cases first.1.symm.trans second
    | cons other back =>
      obtain rfl : cell = other := Option.some.inj (first.1.symm.trans second.1)
      rw [ih first.2 second.2]

omit [DecidableEq α] in
/-- A list that comes to an end passes no cell twice: from its second visit the traversal
would go on as from the first. -/
theorem Chain.nodup (chain : Chain next head cells) : cells.Nodup := by
  induction cells generalizing head with
  | nil => exact nodup_nil
  | cons cell rest ih =>
    refine nodup_cons.mpr ⟨fun again => ?_, ih chain.2⟩
    obtain ⟨front, back, rfl⟩ := append_of_mem again
    obtain ⟨_, -, -, tail⟩ := visits_append.mp chain.2
    have lengths := congrArg length (Chain.unique chain.2 tail)
    simp only [length_append, length_cons] at lengths
    omega

omit [DecidableEq α] in
/-- Only the links of the cells on the way count. -/
theorem visits_congr (same : ∀ cell ∈ cells, next' cell = next cell) :
    Visits next' start cells stop ↔ Visits next start cells stop := by
  induction cells generalizing start with
  | nil => exact Iff.rfl
  | cons first rest ih =>
    simp only [Visits, same first mem_cons_self, ih fun cell mem => same cell (mem_cons_of_mem _ mem)]

/-- Cells off the way may be relinked. -/
theorem visits_update (away : cell ∉ cells) :
    Visits (update next cell link) start cells stop ↔ Visits next start cells stop :=
  visits_congr fun other mem => update_of_ne (fun same : other = cell => away (same ▸ mem)) _ _

omit [DecidableEq α] in
theorem Chain.next_getElem (chain : Chain next head cells) (here : cells[i]? = some cell) :
    next cell = cells[i + 1]? := by
  induction cells generalizing head i with
  | nil => cases here
  | cons first rest ih =>
    cases i with
    | zero =>
      obtain rfl := Option.some.inj here
      cases rest with
      | nil => exact chain.2
      | cons second rest => exact chain.2.1
    | succ i => exact ih chain.2 here

omit [DecidableEq α] in
/-- A cell is hung on behind the last one. -/
theorem Chain.extend (chain : Chain next head (front ++ [last]))
    (same : ∀ cell ∈ front, next' cell = next cell) (link : next' last = some new) (stop : next' new = none) :
    Chain next' head (front ++ [last, new]) := by
  obtain ⟨middle, before, here, -⟩ := visits_append.mp chain
  exact visits_append.mpr ⟨middle, (visits_congr same).mpr before, here, link, stop⟩

theorem Chain.push (chain : Chain next head cells) (away : cell ∉ cells) :
    Chain (update next cell head) (some cell) (cell :: cells) := by
  refine ⟨rfl, ?_⟩
  rw [update_self]
  exact (visits_update away).mpr chain

/-- Unlinking a cell that is not the first. -/
theorem Chain.unlink (chain : Chain next head (front ++ previous :: cell :: back)) :
    Chain (update next previous (next cell)) head (front ++ previous :: back) := by
  have distinct := chain.nodup
  obtain ⟨middle, before, here, -, after⟩ := visits_append.mp chain
  have off : previous ∉ front ∧ previous ∉ back := by
    simp only [nodup_append, nodup_cons, mem_cons, not_or] at distinct
    exact ⟨fun earlier => distinct.2.2 previous earlier previous (.inl rfl) rfl, distinct.2.1.1.2⟩
  refine visits_append.mpr ⟨middle, (visits_update off.1).mpr before, here, ?_⟩
  rw [update_self]
  exact (visits_update off.2).mpr after

end Sirius.Support
