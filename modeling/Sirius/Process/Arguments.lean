import Sirius.Process.Execve
import Sirius.Support.ByteFile

/-! The arguments on the page of the stack: the strings one behind the other at its end, the table of pointers below
them, and the count below the table. -/
namespace Sirius.Process
open Support Memory List

variable {bytes later : Nat → BitVec 8} {arguments argv : List CString} {table words : List (BitVec 64)}

/-- The eight bytes at a place, lowest first. -/
def WordAt (bytes : Nat → BitVec 8) (place : Nat) (word : BitVec 64) : Prop :=
  ∀ k < 8, bytes (place + k) = word.extractLsb' (k * 8) 8

theorem wordBytes_getD (words : List (BitVec 64)) (inside : i < words.length) (small : k < 8) :
    (words.flatMap wordBytes).getD (8 * i + k) 0 = words[i].extractLsb' (k * 8) 8 := by
  have word : (words.map wordBytes)[i]? = some (wordBytes words[i]) := by
    rw [List.getElem?_map, getElem?_eq_getElem inside, Option.map_some]
  rw [flatMap_def, getD_flatten _ (by simp [wordBytes]) word small]
  simp [wordBytes, small]

theorem flatMap_wordBytes_length (words : List (BitVec 64)) : (words.flatMap wordBytes).length = 8 * words.length := by
  simp [length_flatMap, wordBytes, Nat.mul_comm]

theorem wordAt_overwrite (words : List (BitVec 64)) (inside : i < words.length)
    (same : ∀ o, place ≤ o → o < place + 8 * words.length → later o = overwrite bytes place (words.flatMap wordBytes) o) :
    WordAt later (place + 8 * i) words[i] := by
  have length := flatMap_wordBytes_length words
  intro k small
  rw [same _ (by omega) (by omega), overwrite, if_pos (by omega), ← wordBytes_getD words inside small]
  congr 1
  omega

/-- The strings follow each other from an offset to the end of the page, and the table has their addresses. -/
def Strings (bytes : Nat → BitVec 8) : Nat → List CString → List (BitVec 64) → Prop
  | offset, [], table => offset = 4096 ∧ table = []
  | offset, argument :: rest, table => ∃ pointers,
      table = (userStackVirtualTop - BitVec.ofNat 64 (4096 - offset)) :: pointers ∧
      (∀ k ≤ argument.length, bytes (offset + k) = (argument ++ [0]).getD k 0) ∧
      Strings bytes (offset + (argument.length + 1)) rest pointers

theorem Strings.le (strings : Strings bytes offset arguments table) : offset ≤ 4096 := by
  induction arguments generalizing offset table with
  | nil => exact strings.1.le
  | cons argument rest ih =>
    obtain ⟨_, -, -, more⟩ := strings
    exact (Nat.le_add_right ..).trans (ih more)

theorem Strings.congr (strings : Strings bytes offset arguments table) (same : ∀ o, offset ≤ o → later o = bytes o) :
    Strings later offset arguments table := by
  induction arguments generalizing offset table with
  | nil => exact strings
  | cons argument rest ih =>
    obtain ⟨pointers, rfl, string, more⟩ := strings
    exact ⟨pointers, rfl, fun k small => (same _ (by omega)).trans (string k small), ih more fun o above => same o (by omega)⟩

theorem copyArguments_strings
    (copied : arguments.reverse.foldlM (copyArgument argc) ⟨4096, fun _ => 0, []⟩ = .ok page) :
    Strings page.bytes page.offset arguments page.table ∧ (arguments ≠ [] → 8 * (argc + 2) ≤ page.offset) := by
  induction arguments generalizing page with
  | nil =>
    cases copied
    exact ⟨⟨rfl, rfl⟩, nofun⟩
  | cons argument rest ih =>
    rw [reverse_cons, foldlM_append] at copied
    cases before : rest.reverse.foldlM (copyArgument argc) ⟨4096, fun _ => 0, []⟩ with
    | error _ =>
      rw [before] at copied
      cases copied
    | ok above =>
      rw [before] at copied
      obtain ⟨strings, -⟩ := ih before
      change [argument].foldlM (copyArgument argc) above = _ at copied
      simp only [foldlM_cons, foldlM_nil, bind_pure, copyArgument] at copied
      split at copied
      · cases copied
      case isFalse room =>
      cases copied
      dsimp only
      have place : above.offset - (argument.length + 1) + (argument.length + 1) = above.offset := by omega
      refine ⟨⟨above.table, rfl, fun k small => ?_, place.symm ▸ strings.congr fun o high => ?_⟩, fun _ => by omega⟩
      · rw [overwrite, if_pos (by rw [length_append, length_singleton]; omega), Nat.add_sub_cancel_left]
      · rw [overwrite, if_neg (by rw [length_append, length_singleton]; omega)]

theorem Strings.length (strings : Strings bytes offset arguments table) : table.length = arguments.length := by
  induction arguments generalizing offset table with
  | nil => rw [strings.2, length_nil, length_nil]
  | cons argument rest ih =>
    obtain ⟨pointers, rfl, -, more⟩ := strings
    rw [length_cons, ih more, length_cons]

/-- The string that a pointer of the table leads to. -/
theorem Strings.string (strings : Strings bytes offset arguments table) (inside : i < arguments.length) :
    ∃ place, table[i]? = some (userStackVirtualTop - BitVec.ofNat 64 (4096 - place)) ∧ offset ≤ place ∧
      place + (arguments[i].length + 1) ≤ 4096 ∧ ∀ k ≤ arguments[i].length, bytes (place + k) =
        (arguments[i] ++ [0]).getD k 0 := by
  induction arguments generalizing offset table i with
  | nil => cases inside
  | cons argument rest ih =>
    obtain ⟨pointers, rfl, string, more⟩ := strings
    cases i with
    | zero => exact ⟨offset, rfl, Nat.le_refl _, more.le, string⟩
    | succ i =>
      obtain ⟨place, pointer, above, rest⟩ := ih more (Nat.lt_of_succ_lt_succ inside)
      exact ⟨place, pointer, by omega, rest⟩

/-- What a program finds from its stack pointer on: the count, the pointers to its arguments and a null pointer, all below
the strings, which are on the same page. -/
def ArgumentsArrive (argv : List CString) (stackTop : BitVec 64) (bytes : Nat → BitVec 8) : Prop :=
  ∃ offset, stackTop.toNat = stackPage.virt.toNat + offset ∧ 8 ∣ stackTop.toNat ∧
    WordAt bytes offset (BitVec.ofNat 64 argv.length) ∧ WordAt bytes (offset + 8 * (argv.length + 1)) 0 ∧
    ∀ i, (inside : i < argv.length) → ∃ pointer place, WordAt bytes (offset + 8 * (i + 1)) pointer ∧
      pointer.toNat = stackPage.virt.toNat + place ∧
      offset + 8 * (argv.length + 2) ≤ place ∧ place + (argv[i].length + 1) ≤ 4096 ∧
      ∀ k ≤ argv[i].length, bytes (place + k) = (argv[i] ++ [0]).getD k 0

theorem stackAddress_toNat (inside : place ≤ 4096) :
    (userStackVirtualTop - BitVec.ofNat 64 (4096 - place)).toNat = stackPage.virt.toNat + place := by
  rw [BitVec.toNat_sub, BitVec.toNat_ofNat]
  change (2 ^ 64 - (4096 - place) % 2 ^ 64 + 0x7FFFFFFFF000) % 2 ^ 64 = 0x7FFFFFFFE000 + place
  omega

theorem finishArguments_arrive (strings : Strings page.bytes page.offset argv page.table)
    (room : 8 * (argv.length + 2) ≤ page.offset) :
    page.offset / 8 * 8 = (finishArguments argv.length page).1 + 8 * (argv.length + 2) ∧
      ArgumentsArrive argv (userStackVirtualTop - BitVec.ofNat 64 (4096 - (finishArguments argv.length page).1))
        (finishArguments argv.length page).2 := by
  have last := strings.le
  have count := strings.length
  have length : (page.table ++ [0]).length = argv.length + 1 := by rw [length_append, count, length_singleton]
  obtain ⟨offset, below⟩ : ∃ offset, page.offset / 8 * 8 = offset + 8 * (argv.length + 2) :=
    ⟨page.offset / 8 * 8 - 8 * (argv.length + 2), by omega⟩
  have start : page.offset / 8 * 8 - 8 * (argv.length + 1) = offset + 8 := by omega
  rw [finishArguments]
  rw [start, Nat.add_sub_cancel]
  generalize pointers : overwrite page.bytes (offset + 8) _ = inner
  generalize counted : overwrite inner offset _ = bytes
  have eight : (wordBytes (BitVec.ofNat 64 argv.length)).length = 8 := rfl
  have above : ∀ o, offset + 8 ≤ o → bytes o = inner o := fun o high => by
    rw [← counted, overwrite, if_neg (by omega)]
  have words : ∀ i, (inside : i < (page.table ++ [0]).length) → WordAt bytes (offset + 8 + 8 * i) (page.table ++ [0])[i] :=
    fun i inside => wordAt_overwrite _ inside fun o low _ => (above o low).trans (congrFun pointers.symm o)
  have strings : Strings bytes page.offset argv page.table := strings.congr fun o high => by
    rw [above o (by omega), ← pointers, overwrite, flatMap_wordBytes_length, if_neg (by omega)]
  refine ⟨below, offset, stackAddress_toNat (by omega), ?_, ?_, ?_, fun i inside => ?_⟩
  · rw [stackAddress_toNat (by omega)]
    exact Nat.dvd_add (by decide) (by omega)
  · exact wordAt_overwrite (i := 0) [BitVec.ofNat 64 argv.length] Nat.one_pos fun o _ _ => by
      rw [← counted, flatMap_singleton]
  · have null := words argv.length (by omega)
    rw [getElem_append_right (by omega), getElem_singleton] at null
    exact (by omega : offset + 8 + 8 * argv.length = offset + 8 * (argv.length + 1)) ▸ null
  · obtain ⟨place, pointer, low, high, string⟩ := strings.string inside
    have word := words i (by omega)
    rw [getElem_append_left (by omega), (List.getElem?_eq_some_iff.mp pointer).2] at word
    exact ⟨_, place, (by omega : offset + 8 + 8 * i = offset + 8 * (i + 1)) ▸ word, stackAddress_toNat (by omega), by omega, high,
      string⟩

/-- The page of the stack is filled without a write outside it: from the strings down, what is taken off the offset is
there to be taken. -/
theorem arguments_arrive {s : ExecState} (some : argv ≠ []) (done : (elfParseAndMap s content size tableOk argv).1 ≠ 0) :
    let after := (elfParseAndMap s content size tableOk argv).2
    ∃ m page, loadSegments s.proc.cr3 (loadPages content) s.machine = (true, m) ∧ copyArguments argv = .ok page ∧
      page.offset / 8 * 8 = (finishArguments argv.length page).1 + 8 * (argv.length + 2) ∧
      after.machine.mem (frameOf m.alloc.1) = pageWords (finishArguments argv.length page).2 ∧
      ArgumentsArrive argv after.proc.stackTop (finishArguments argv.length page).2 := by
  obtain ⟨m, loaded, built⟩ := elfParseAndMap_built done
  have nonempty := ((buildStack_spec _ tableOk argv).1.mp (congrArg Prod.fst built)).1
  obtain ⟨_, machine, outcome⟩ := buildStack_filled nonempty tableOk argv
  rw [built] at machine outcome
  obtain ⟨page, copied, rfl, proc⟩ := outcome rfl
  obtain ⟨strings, room⟩ := copyArguments_strings copied
  obtain ⟨exact, arrive⟩ := finishArguments_arrive strings (room some)
  refine ⟨m, page, loaded, copied, exact, ?_, ?_⟩
  · rw [machine]
    simp [fillPage, Machine.scratchMap]
  · rw [proc]
    exact arrive

theorem arguments_arrive_one :
    (elfParseAndMap loneProcess bareImage 64 true [[0x61]]).1 ≠ 0 ∧ ∃ page, copyArguments [[0x61]] = .ok page ∧
      ArgumentsArrive [[0x61]] (elfParseAndMap loneProcess bareImage 64 true [[0x61]]).2.proc.stackTop
        (finishArguments 1 page).2 := by
  have done : (elfParseAndMap loneProcess bareImage 64 true [[0x61]]).1 ≠ 0 := by decide +kernel
  obtain ⟨-, page, -, copied, -, -, arrive⟩ := arguments_arrive (cons_ne_nil _ _) done
  exact ⟨done, page, copied, arrive⟩

end Sirius.Process
