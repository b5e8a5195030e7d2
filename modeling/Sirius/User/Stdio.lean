import Sirius.Support.Runs
import Mathlib.Algebra.Group.Nat.Defs

/-! The streams of the C library: `fgetc.c`, `fread.c`, `ungetc.c`, `fseek.c` and `ftell.c`. A stream has an open
file, given by its bytes and the offset of the descriptor; where a seek leads to is up to the kernel. -/
namespace Sirius.User
open Support List

structure Stream where
  bytes : List UInt8
  offset : Nat
  ungetcBuf : UInt8
  hasUngetc : Bool

inductive StreamCall
  | fgetc
  | fread (size nmemb : Nat)
  /-- With the offset that `lseek` gives, if it succeeds. -/
  | fseek (target : Option Nat)
  | ftell
  | ungetc (c : Int)

namespace Stream

def rest (s : Stream) : List UInt8 := s.bytes.drop s.offset

/-- `read` of the descriptor. -/
def read (s : Stream) (count : Nat) : List UInt8 × Stream :=
  let got := s.rest.take count
  (got, { s with offset := s.offset + got.length })

end Stream

namespace StreamCall

/-- The bytes delivered, the value returned, and the stream afterwards. -/
def apply (s : Stream) : StreamCall → List UInt8 × Int × Stream
  | .fgetc =>
    let (got, s) := s.read 1
    (got, got.head?.elim (-1) fun ch => ch.toNat, s)
  | .fread size nmemb =>
    if size = 0 ∨ nmemb = 0 then ([], 0, s)
    else
      let (got, s) := s.read (size * nmemb % 2 ^ 64)
      (got, (got.length / size : Nat), s)
  | .fseek none => ([], -1, s)
  | .fseek (some target) => ([], 0, { s with offset := target, hasUngetc := false, ungetcBuf := 0 })
  | .ftell => ([], s.offset - if s.hasUngetc then 1 else 0, s)
  | .ungetc c =>
    if c = -1 ∨ s.hasUngetc then ([], -1, s)
    else ([], c, { s with ungetcBuf := UInt8.ofNat (c % 256).toNat, hasUngetc := true })

def next (call : StreamCall) (s : Stream) : Stream := (call.apply s).2.2

/-- How many bytes are asked for. -/
def count : StreamCall → Nat
  | .fgetc => 1
  | .fread size nmemb => if size = 0 ∨ nmemb = 0 then 0 else size * nmemb % 2 ^ 64
  | _ => 0

end StreamCall

/-- What is to be read next: the character that was pushed back, and the rest of the file. -/
def Stream.ahead (s : Stream) : List UInt8 := (if s.hasUngetc then [s.ungetcBuf] else []) ++ s.rest

namespace StreamCall

/-- The bytes that come next are delivered; a character pushed back comes before them; a seek leaves the rest of the file. -/
def Right (call : StreamCall) (s : Stream) : Prop :=
  (call.apply s).1 = s.ahead.take call.count ∧
    (call.next s).ahead = match call with
      | .fseek (some target) => s.bytes.drop target
      | .ungetc c => (if (call.apply s).2.1 = -1 then [] else [UInt8.ofNat (c % 256).toNat]) ++ s.ahead
      | _ => s.ahead.drop call.count

/-- While a character is pushed back, only bytes that are equal to it are read. -/
def Clean (call : StreamCall) (s : Stream) : Prop :=
  s.hasUngetc = true → s.rest.take call.count = replicate call.count s.ungetcBuf

theorem take_cons_iff (count : Nat) (b : UInt8) (bytes : List UInt8) :
    bytes.take count = (b :: bytes).take count ↔ bytes.take count = replicate count b := by
  induction count generalizing bytes with
  | zero => simp
  | succ count ih =>
    cases bytes with
    | nil => simp [replicate_succ]
    | cons first others =>
      simp only [take_succ_cons, replicate_succ, cons.injEq]
      refine and_congr_right fun same => ?_
      rw [same, ih]

/-- A call that reads takes its bytes from the file only. -/
theorem right_read_iff (count : Nat) (s : Stream) :
    s.rest.take count = s.ahead.take count ∧ (s.read count).2.ahead = s.ahead.drop count ↔
      (s.hasUngetc = true → s.rest.take count = replicate count s.ungetcBuf) := by
  have after : (s.read count).2.rest = s.rest.drop count := by
    rw [Stream.read, Stream.rest, ← drop_drop, ← Stream.rest, length_take]
    rcases Nat.le_total count s.rest.length with fits | short
    · rw [Nat.min_eq_left fits]
    · rw [Nat.min_eq_right short, drop_length, drop_of_length_le short]
  cases pushed : s.hasUngetc with
  | false => simp [Stream.ahead, after, show (s.read count).2.hasUngetc = false from pushed, pushed]
  | true =>
    have ahead : s.ahead = s.ungetcBuf :: s.rest := by simp [Stream.ahead, pushed]
    have ahead' : (s.read count).2.ahead = s.ungetcBuf :: s.rest.drop count := by
      rw [Stream.ahead, after]
      exact congrArg (· ++ _) (if_pos pushed)
    rw [ahead, ahead', take_cons_iff]
    refine ⟨fun right _ => right.1, fun clean => ⟨clean rfl, ?_⟩⟩
    cases count with
    | zero => rfl
    | succ count =>
      -- the byte before the last one read is the pushed one as well
      have last : s.rest[count]? = some s.ungetcBuf := by
        rw [← getElem?_take_of_succ, clean rfl, getElem?_replicate_of_lt (Nat.lt_succ_self count)]
      refine Eq.symm ?_
      rw [drop_succ_cons, drop_eq_getElem?_toList_append, last]
      rfl

theorem right_iff_clean (call : StreamCall) (s : Stream) : call.Right s ↔ call.Clean s := by
  cases call with
  | fgetc => exact right_read_iff 1 s
  | fread size nmemb =>
    by_cases none : size = 0 ∨ nmemb = 0
    · simp [Right, Clean, apply, next, count, none]
    · simp only [Right, Clean, apply, next, count, none, if_false]
      exact right_read_iff _ s
  | fseek target =>
    cases target with
    | none => simp [Right, Clean, apply, next, count]
    | some target => simp [Right, Clean, apply, next, count, Stream.ahead, Stream.rest]
  | ftell => simp [Right, Clean, apply, next, count]
  | ungetc c =>
    by_cases refused : c = -1 ∨ s.hasUngetc = true
    · simp [Right, Clean, apply, next, count, refused]
    · obtain ⟨eof, free⟩ := not_or.mp refused
      simp [Right, Clean, apply, next, count, Stream.ahead, Stream.rest, eof, free]

end StreamCall

/-- A stream gives what was pushed back and then the file, as long as nothing else is read behind a character pushed back. -/
theorem pushed_back_read_next_iff (s : Stream) (calls : List StreamCall) :
    AllMeet StreamCall.next StreamCall.Right calls s ↔ AllMeet StreamCall.next StreamCall.Clean calls s :=
  allMeet_congr (fun _ => True) trivial (fun call s _ => call.right_iff_clean s) fun _ _ _ _ => trivial

/-- The first of two bytes is read and pushed back, and the second one is read. -/
theorem pushed_back_skipped : ¬AllMeet StreamCall.next StreamCall.Right [.fgetc, .ungetc 97, .fgetc] ⟨[97, 98], 0, 0, false⟩ :=
  fun ⟨_, _, right, _⟩ => absurd right.1 (by decide)

end Sirius.User
