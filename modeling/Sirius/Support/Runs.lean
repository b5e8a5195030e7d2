import Mathlib.Logic.Relation

/-! Systems that move by labelled steps, and the run that a list of labels makes. -/
namespace Sirius.Support
open Relation
variable {State : Type*} {Label : Type*} {apply : Label → State → State} {condition : Label → State → Prop}

def runAll (apply : Label → State → State) (labels : List Label) (s : State) : State :=
  labels.foldl (fun s label => apply label s) s

/-- Each label meets the condition when its turn comes. -/
def AllMeet (apply : Label → State → State) (condition : Label → State → Prop) : List Label → State → Prop
  | [], _ => True
  | label :: rest, s => condition label s ∧ AllMeet apply condition rest (apply label s)

instance decidableAllMeet [∀ label s, Decidable (condition label s)] :
    ∀ labels s, Decidable (AllMeet apply condition labels s)
  | [], _ => isTrue trivial
  | _ :: rest, _ => haveI := decidableAllMeet rest; instDecidableAnd

theorem AllMeet.run (meet : AllMeet apply condition labels s) :
    ReflTransGen (fun before after => ∃ label, condition label before ∧ after = apply label before)
      s (runAll apply labels s) := by
  induction labels generalizing s with
  | nil => exact .refl
  | cons label rest ih => exact .head ⟨label, meet.1, rfl⟩ (ih meet.2)

theorem AllMeet.run_both {a b : Label → State → Prop} (meet : AllMeet apply (fun label s => a label s ∧ b label s) labels s) :
    ReflTransGen (fun before after => ∃ label, a label before ∧ b label before ∧ after = apply label before)
      s (runAll apply labels s) :=
  ReflTransGen.mono (fun _ _ ⟨label, ⟨first, second⟩, result⟩ => ⟨label, first, second, result⟩) _ _ meet.run

theorem AllMeet.and {a b : Label → State → Prop} (one : AllMeet apply a labels s) (two : AllMeet apply b labels s) :
    AllMeet apply (fun label s => a label s ∧ b label s) labels s := by
  induction labels generalizing s with
  | nil => trivial
  | cons label rest ih => exact ⟨⟨one.1, two.1⟩, ih one.2 two.2⟩

/-- What each step that meets the condition preserves holds at the end of the run. -/
theorem AllMeet.preserves {holds : State → Prop} (meet : AllMeet apply condition labels s) (start : holds s)
    (step : ∀ label s, condition label s → holds s → holds (apply label s)) : holds (runAll apply labels s) := by
  induction labels generalizing s with
  | nil => exact start
  | cons label rest ih => exact ih meet.2 (step label s meet.1 start)

/-- A condition that follows from another one as long as an invariant holds. -/
theorem AllMeet.imp (meet : AllMeet apply condition labels s) (holds : State → Prop) (start : holds s)
    (step : ∀ label s, holds s → condition label s → other label s ∧ holds (apply label s)) :
    AllMeet apply other labels s := by
  induction labels generalizing s with
  | nil => trivial
  | cons label rest ih =>
    obtain ⟨met, next⟩ := step label s start meet.1
    exact ⟨met, ih meet.2 next⟩

/-- Two conditions that agree as long as an invariant holds, which the second keeps, are met by the same
runs. -/
theorem allMeet_congr (holds : State → Prop) (start : holds s)
    (same : ∀ label s, holds s → (condition label s ↔ other label s))
    (step : ∀ label s, holds s → other label s → holds (apply label s)) :
    AllMeet apply condition labels s ↔ AllMeet apply other labels s := by
  refine ⟨fun meet => meet.imp holds start fun label s kept met => ?_,
    fun meet => meet.imp holds start fun label s kept met => ?_⟩
  · have also := (same label s kept).mp met
    exact ⟨also, step label s kept also⟩
  · exact ⟨(same label s kept).mpr met, step label s kept met⟩

/-! Loops with a state, that end with a result or go on with a new value. How many rounds there
are at most is given from outside; a loop without a result has not ended yet. -/

variable {α σ ρ : Type} {round : α → σ → (ρ ⊕ α) × σ}

def loop (round : α → σ → (ρ ⊕ α) × σ) : Nat → α → σ → Option (ρ × σ)
  | 0, _, _ => none
  | rounds + 1, a, s =>
    match round a s with
    | (.inl result, s) => some (result, s)
    | (.inr a, s) => loop round rounds a s

/-- What every round keeps gives what holds at the end. -/
theorem loop_result (holds : α → σ → Prop) (post : ρ → σ → Prop)
    (stop : ∀ a s result s', holds a s → round a s = (.inl result, s') → post result s')
    (next : ∀ a s a' s', holds a s → round a s = (.inr a', s') → holds a' s')
    (start : holds a s) (result : loop round rounds a s = some (r, s')) : post r s' := by
  induction rounds generalizing a s with
  | zero => cases result
  | succ rounds ih =>
    rw [loop] at result
    split at result
    case h_1 same =>
      cases result
      exact stop _ _ _ _ start same
    case h_2 same => exact ih (next _ _ _ _ start same) result

/-- With something that gets less in every round, so many rounds are enough. -/
theorem loop_ends (holds : α → σ → Prop) (measure : α → Nat)
    (next : ∀ a s a' s', holds a s → round a s = (.inr a', s') → holds a' s' ∧ measure a' < measure a)
    (start : holds a s) (enough : measure a < rounds) : ∃ r s', loop round rounds a s = some (r, s') := by
  induction rounds generalizing a s with
  | zero => omega
  | succ rounds ih =>
    rw [loop]
    split
    case h_1 => exact ⟨_, _, rfl⟩
    case h_2 same =>
      obtain ⟨kept, less⟩ := next _ _ _ _ start same
      exact ih kept (by omega)

end Sirius.Support
