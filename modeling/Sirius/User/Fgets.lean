import Sirius.User.Shell

/-! How far `fgets` writes. `of` counts the characters that line editing leaves, also those behind the end of the buffer;
the end of the text does not follow it there, and the newline and the terminator are not counted. -/
namespace Sirius.User.Shell

/-- How many characters of the line are left after one more. -/
def edited (left : Nat) (c : Char) : Nat := if c = '\x08' then left - 1 else left + 1

/-- What editing leaves of the line, its newline included. -/
def leftOver : Nat → List Char → Nat
  | left, [] => left
  | left, c :: stdin => if c = '\n' then left + 1 else leftOver (edited left c) stdin

/-- How often a backspace takes the last of `length` characters. -/
def falls (length : Nat) : Nat → List Char → Nat
  | _, [] => 0
  | left, c :: stdin =>
    if c = '\n' then 0 else (if c = '\x08' ∧ left = length then 1 else 0) + falls length (edited left c) stdin

def firstLine : List Char → List Char
  | [] => []
  | c :: stdin => if c = '\n' then [c] else c :: firstLine stdin

/-- `fgets` stays in the buffer and, without backspaces, stores as much of the line as the buffer has room for. -/
def Respects (length : Nat) (stdin : List Char) : Prop :=
  ∃ text, fgets length ⟨[], 0⟩ stdin = some text ∧ ('\x08' ∉ stdin → text = (firstLine stdin).take (length - 1))

/-- A count that does not fall from the length stays there. -/
theorem le_leftOver (full : length ≤ left) (none : falls length left stdin = 0) : length ≤ leftOver left stdin := by
  induction stdin generalizing left with
  | nil => exact full
  | cons c stdin ih => grind [leftOver, falls, edited]

section
variable {edit next : Edit} (positive : 0 < length) (size : edit.stored.length = min edit.of length + k)
  (once : k = 0 ∨ k = 1 ∧ edit.of < length)
include positive size once

/-- The text ends as many characters behind the count as there were falls. -/
theorem type_some (typed : edit.type length c = some next) : next.of = edited edit.of c ∧
    ∃ k', k' = k + (if c = '\x08' ∧ edit.of = length then 1 else 0) ∧ next.stored.length = min next.of length + k' ∧
      (k' = 0 ∨ k' = 1 ∧ next.of < length) := by
  grind [Edit.type, edited]

/-- Nothing is stored behind the last place of the buffer but after a fall. -/
theorem type_none (typed : edit.type length c = none) : k = 1 ∧ c ≠ '\x08' ∧ length ≤ edited edit.of c := by
  grind [Edit.type, edited]

theorem fgets_isSome_iff (stdin : List Char) : (fgets length edit stdin).isSome ↔ k + falls length edit.of stdin ≤ 1 ∧
    leftOver edit.of stdin + (k + falls length edit.of stdin) < length := by
  induction stdin generalizing edit k with
  | nil => grind [fgets, falls, leftOver]
  | cons c stdin ih =>
    rw [fgets, falls, leftOver]
    by_cases newline : c = '\n'
    · grind
    simp only [if_neg newline]
    cases typed : edit.type length c with
    | some next =>
      obtain ⟨of, k', more, size, once⟩ := type_some positive size once typed
      rw [← of, ← Nat.add_assoc k, ← more]
      exact ih size once
    | none =>
      obtain ⟨late, other, full⟩ := type_none positive size once typed
      have stays : falls length _ stdin = 0 → length ≤ leftOver _ stdin := le_leftOver full
      grind

end

theorem fgets_eq {edit : Edit} (clean : '\x08' ∉ stdin) (size : edit.stored.length < length → edit.of = edit.stored.length)
    (read : fgets length edit stdin = some text) : text = edit.stored ++ firstLine stdin ∧ text.length < length := by
  induction stdin generalizing edit with
  | nil => grind [fgets, firstLine]
  | cons c stdin ih =>
    obtain ⟨back, clean⟩ := not_or.mp (mt List.mem_cons.mpr clean)
    rw [fgets] at read
    rw [firstLine]
    by_cases newline : c = '\n'
    · grind
    rw [if_neg newline] at read ⊢
    obtain ⟨next, typed, read⟩ := Option.bind_eq_some_iff.mp read
    have size : next.stored.length < length → next.of = next.stored.length := by grind [Edit.type]
    have rest := ih clean size read
    grind [Edit.type]

/-- `fgets` respects its buffer exactly if the line fits with its terminator, where a backspace that takes the last of
`length` characters leaves it in the buffer, and does so once at most. -/
theorem fgets_respects_buffer_iff (positive : 2 ≤ length) (stdin : List Char) :
    Respects length stdin ↔ falls length 0 stdin ≤ 1 ∧ leftOver 0 stdin + falls length 0 stdin < length := by
  have start : (⟨[], 0⟩ : Edit).stored.length = min 0 length + 0 := (Nat.zero_min length).symm
  have inside := fgets_isSome_iff (Nat.zero_lt_of_lt positive) start (.inl rfl) stdin
  rw [Nat.zero_add] at inside
  rw [← inside, Option.isSome_iff_exists]
  refine ⟨fun ⟨text, read, _⟩ => ⟨text, read⟩, fun ⟨text, read⟩ => ⟨text, read, fun clean => ?_⟩⟩
  obtain ⟨rfl, short⟩ := fgets_eq clean (fun _ => rfl) read
  exact (List.take_of_length_le (by omega)).symm

theorem fgets_respects_buffer_edited : Respects 3 ['a', 'b', '\x08', '\n'] :=
  (fgets_respects_buffer_iff (by decide) _).mpr (by decide)

/-- Two characters for a buffer of two: the terminator goes behind it. -/
theorem fgets_leaves_its_buffer : ¬Respects 2 ['a', 'b'] := fun ⟨_, read, _⟩ => nomatch read

end Sirius.User.Shell
