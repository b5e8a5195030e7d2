import Sirius.Drivers.Tty
import Sirius.Support.Runs

/-! The line discipline of a terminal in canonical mode: what is read of it, string by string, is
what was written to it, and the two counters say what waits in the input queue. -/
namespace Sirius.Drivers
open Support List Ring

variable {Tag : Type} {tty : TtyDevice Tag}

inductive TtyCall (Tag : Type)
  | write (buf : List (TtyChar Tag))
  | read (size : Int)

/-- A terminal with its history: the characters it accepted, as the queue has them, and the
strings that were read with the sizes that were asked for. -/
structure TtySession (Tag : Type) where
  tty : TtyDevice Tag
  accepted : List (TtyChar Tag)
  strings : List (Int × List (TtyChar Tag))

/-- `tty_read_from_in_queue` with the signed size of the source: a negative one waits for a line,
and then no character is fewer than it. -/
def ttyReadSigned (tty : TtyDevice Tag) (size : Int) : Option (List (TtyChar Tag) × TtyDevice Tag) :=
  if size < 0 then (ttyReadFromInQueue tty 1).map fun _ => ([], tty) else ttyReadFromInQueue tty size.toNat

namespace TtyCall

def apply (call : TtyCall Tag) (session : TtySession Tag) : TtySession Tag :=
  match call with
  | write buf =>
    let (escritos, tty) := ttyWriteToInQueue buf session.tty
    { session with tty := tty, accepted := session.accepted ++ (buf.take escritos).map lineEnd }
  | read size =>
    match ttyReadSigned session.tty size with
    | some (chars, tty) => { session with tty := tty, strings := session.strings ++ [(size, chars)] }
    | none => session

/-- A read is made only when a line is there. -/
def Timely (call : TtyCall Tag) (session : TtySession Tag) : Prop :=
  match call with
  | write _ => True
  | read _ => 0 < session.tty.linesAvailable

instance (call : TtyCall Tag) (session : TtySession Tag) : Decidable (call.Timely session) := by
  cases call with
  | write buf => exact isTrue trivial
  | read size => exact inferInstanceAs (Decidable (0 < session.tty.linesAvailable))

end TtyCall

def isNl (c : TtyChar Tag) : Bool := c.char = asciiNl

/-- The counters are the numbers of characters and of newlines in the queue. -/
structure Counted (tty : TtyDevice Tag) : Prop where
  raw : tty.rawCount = tty.input.contents.length
  lines : tty.linesAvailable = tty.input.contents.countP isNl

/-- A newline ends the string it is in. -/
def OneLine (chars : List (TtyChar Tag)) : Prop := ∀ c ∈ chars.dropLast, isNl c = false

theorem OneLine.cons (line : OneLine rest) (goes : isNl c = false) : OneLine (c :: rest) := by
  intro x mem
  cases rest with
  | nil => exact absurd mem not_mem_nil
  | cons next rest =>
    rcases mem_cons.mp mem with rfl | later
    · exact goes
    · exact line x later

/-! ### Writing -/

section
variable (counted : Counted tty)
include counted

theorem Counted.accept (canonical : tty.icanon = true) (room : isFull tty.input = false) (c : TtyChar Tag) :
    Counted (acceptChar tty c) ∧ (acceptChar tty c).input.contents = tty.input.contents ++ [c] := by
  have put := put_contents (room_of_head_ne (of_decide_eq_false room)) c
  refine ⟨⟨?_, ?_⟩, put⟩
  · show tty.rawCount + 1 = ((tty.input.put c).contents.length : Int)
    rw [put, counted.raw, length_append, length_singleton, Int.natCast_add]
    rfl
  show (if tty.icanon = true ∧ c.char = asciiNl then tty.linesAvailable + 1 else tty.linesAvailable) =
    ((tty.input.put c).contents.countP isNl : Int)
  rw [put, countP_append, countP_singleton, counted.lines]
  by_cases newline : c.char = asciiNl
  · simp [canonical, newline, isNl]
  · simp [newline, isNl]

theorem ttyWriteToInQueue_spec (canonical : tty.icanon = true) (buf : List (TtyChar Tag)) :
    Counted (ttyWriteToInQueue buf tty).2 ∧ (ttyWriteToInQueue buf tty).2.icanon = true ∧
      (ttyWriteToInQueue buf tty).2.input.contents =
        tty.input.contents ++ (buf.take (ttyWriteToInQueue buf tty).1).map lineEnd := by
  induction buf generalizing tty with
  | nil => exact ⟨counted, canonical, (append_nil _).symm⟩
  | cons c rest ih =>
    unfold ttyWriteToInQueue
    split
    · exact ⟨counted, canonical, (append_nil _).symm⟩
    case isFalse room =>
    obtain ⟨first, queued⟩ := counted.accept canonical (Bool.not_eq_true _ ▸ room) (lineEnd c)
    obtain ⟨after, mode, contents⟩ := ih first canonical
    refine ⟨after, mode, ?_⟩
    rw [contents, queued, take_succ_cons, map_cons, append_assoc, singleton_append]

/-! ### Reading -/

/-- What a read takes is the front of the queue, up to the size and through the first newline. -/
theorem takeChars_spec (size : Nat) (canonical : tty.icanon = true) :
    Counted (takeChars size tty).2 ∧ (takeChars size tty).2.icanon = true ∧
      tty.input.contents = (takeChars size tty).1 ++ (takeChars size tty).2.input.contents ∧ OneLine (takeChars size tty).1 := by
  induction size generalizing tty with
  | zero => exact ⟨counted, canonical, rfl, fun _ mem => absurd mem not_mem_nil⟩
  | succ size ih =>
    unfold takeChars
    split
    · exact ⟨counted, canonical, rfl, fun _ mem => absurd mem not_mem_nil⟩
    case isFalse nonempty =>
    have parts := advance_contents nonempty
    have raw := counted.raw
    have lines := counted.lines
    rw [parts, length_cons] at raw
    rw [parts, countP_cons] at lines
    dsimp only
    split
    case isTrue newline =>
      -- the newline is counted, so the counter of lines is not zero
      have ends : isNl (tty.input.slots tty.input.tail) = true := decide_eq_true newline.2
      rw [if_pos ends] at lines
      refine ⟨⟨?_, ?_⟩, canonical, parts, fun _ mem => absurd mem not_mem_nil⟩
      · show tty.rawCount - 1 = (tty.input.advance.contents.length : Int)
        omega
      · show (if 0 < tty.linesAvailable then tty.linesAvailable - 1 else tty.linesAvailable) =
          (tty.input.advance.contents.countP isNl : Int)
        omega
    case isFalse other =>
      have goes : isNl (tty.input.slots tty.input.tail) = false := decide_eq_false fun newline => other ⟨canonical, newline⟩
      rw [goes] at lines
      have shorter : Counted { tty with input := tty.input.advance, rawCount := tty.rawCount - 1 } := by
        refine ⟨?_, lines⟩
        show tty.rawCount - 1 = (tty.input.advance.contents.length : Int)
        omega
      obtain ⟨after, mode, contents, line⟩ := ih shorter canonical
      refine ⟨after, mode, ?_, ?_⟩
      · rw [parts, cons_append, ← contents]
      · exact line.cons goes

/-- When a line is there, a read that asks for characters gets some. -/
theorem takeChars_ne_nil (line : 0 < tty.linesAvailable) : (takeChars (size + 1) tty).1 ≠ [] := by
  have nonempty : ¬ tty.input.head = tty.input.tail := by
    intro same
    have none : tty.input.contents = [] := by
      rw [← length_eq_zero_iff, contents_length, used_eq_zero]
      exact same
    have lines := counted.lines
    rw [none, countP_nil] at lines
    omega
  rw [takeChars, if_neg nonempty]
  dsimp only
  split <;> exact cons_ne_nil _ _

/-- The read of a string: a size that is not positive takes nothing, and any other waits for a line. -/
theorem ttyReadSigned_spec (canonical : tty.icanon = true) (read : ttyReadSigned tty size = some (chars, tty')) :
    Counted tty' ∧ tty'.icanon = true ∧ tty.input.contents = chars ++ tty'.input.contents ∧ OneLine chars ∧
      (0 < size → chars ≠ []) := by
  have nothing : OneLine ([] : List (TtyChar Tag)) := fun _ mem => absurd mem not_mem_nil
  unfold ttyReadSigned at read
  split at read
  case isTrue negative =>
    obtain ⟨-, -, result⟩ := Option.map_eq_some_iff.mp read
    cases result
    exact ⟨counted, canonical, rfl, nothing, fun positive => by omega⟩
  unfold ttyReadFromInQueue at read
  split at read
  case isTrue zero =>
    cases read
    exact ⟨counted, canonical, rfl, nothing, fun positive => by omega⟩
  split at read
  case isTrue ready =>
    have line : 0 < tty.linesAvailable := (ready.resolve_right fun raw => raw.1 canonical).2
    obtain ⟨count, sized⟩ : ∃ count, size.toNat = count + 1 := Nat.exists_eq_succ_of_ne_zero ‹_›
    obtain ⟨after, mode, contents, single⟩ := takeChars_spec counted size.toNat canonical
    have some := @takeChars_ne_nil _ _ counted count line
    rw [← sized, Option.some.inj read] at some
    rw [Option.some.inj read] at after mode contents single
    exact ⟨after, mode, contents, single, fun _ => some⟩
  · cases read

end

/-! ### Whole sessions -/

namespace TtySession

structure Fresh (session : TtySession Tag) : Prop where
  canonical : session.tty.icanon = true
  empty : session.tty.input.contents = []
  raw : session.tty.rawCount = 0
  lines : session.tty.linesAvailable = 0
  accepted : session.accepted = []
  strings : session.strings = []

def output (session : TtySession Tag) : List (TtyChar Tag) := (session.strings.map Prod.snd).flatten

structure Disciplined (session : TtySession Tag) : Prop where
  canonical : session.tty.icanon = true
  counted : Counted session.tty
  strings : ∀ string ∈ session.strings, OneLine string.2 ∧ (0 < string.1 → string.2 ≠ [])
  order : session.accepted = session.output ++ session.tty.input.contents

theorem Fresh.disciplined {session : TtySession Tag} (fresh : session.Fresh) : session.Disciplined where
  canonical := fresh.canonical
  counted := ⟨by rw [fresh.raw, fresh.empty]; rfl, by rw [fresh.lines, fresh.empty]; rfl⟩
  strings := by
    rw [fresh.strings]
    exact fun _ mem => absurd mem not_mem_nil
  order := by rw [output, fresh.accepted, fresh.strings, fresh.empty]; rfl

theorem Disciplined.apply (disciplined : session.Disciplined) (call : TtyCall Tag) : (call.apply session).Disciplined := by
  cases call with
  | write buf =>
    obtain ⟨counted, canonical, contents⟩ := ttyWriteToInQueue_spec disciplined.counted disciplined.canonical buf
    refine ⟨canonical, counted, disciplined.strings, ?_⟩
    show session.accepted ++ _ = session.output ++ (ttyWriteToInQueue buf session.tty).2.input.contents
    rw [contents, disciplined.order, append_assoc]
  | read size =>
    rw [TtyCall.apply]
    split
    case h_2 => exact disciplined
    case h_1 chars tty read =>
    obtain ⟨counted, canonical, contents, line, some⟩ := ttyReadSigned_spec disciplined.counted disciplined.canonical read
    refine ⟨canonical, counted, ?_, ?_⟩
    · intro string mem
      rcases mem_append.mp mem with old | new
      · exact disciplined.strings string old
      · rw [mem_singleton.mp new]
        exact ⟨line, some⟩
    · have order := disciplined.order
      rw [contents, ← append_assoc] at order
      simpa only [output, map_append, map_cons, map_nil, flatten_append, flatten_singleton] using order

end TtySession

/-- In every sequence of calls the counters are right, a read of a positive size gets a non-empty string of
one line at most, and the strings together are the beginning of what was accepted. -/
theorem tty_line_discipline (start : TtySession Tag) (fresh : start.Fresh) (calls : List (TtyCall Tag))
    (timely : AllMeet TtyCall.apply TtyCall.Timely calls start) :
    let session := runAll TtyCall.apply calls start
    session.tty.rawCount = session.tty.input.contents.length ∧
      session.tty.linesAvailable = session.tty.input.contents.countP isNl ∧
      (∀ string ∈ session.strings, OneLine string.2 ∧ (0 < string.1 → string.2 ≠ [])) ∧
      session.output <+: session.accepted := by
  have disciplined := timely.preserves fresh.disciplined fun call _ _ kept => kept.apply call
  exact ⟨disciplined.counted.raw, disciplined.counted.lines, disciplined.strings, disciplined.order ▸ prefix_append _ _⟩

def newSession : TtySession Unit := { tty := emptyTty (), accepted := [], strings := [] }

def typed (chars : List UInt8) : List (TtyChar Unit) := chars.map fun c => ⟨c, ()⟩

def shortReads : List (TtyCall Unit) := [.write (typed [104, 105, 13]), .read 2, .read 9]

theorem tty_line_discipline_short :
    (runAll TtyCall.apply shortReads newSession).output <+: (runAll TtyCall.apply shortReads newSession).accepted :=
  (tty_line_discipline newSession ⟨rfl, rfl, rfl, rfl, rfl, rfl⟩ shortReads (by decide +kernel)).2.2.2

/-- A read of no characters comes back with an empty string although a line is there. -/
theorem empty_string_read : AllMeet TtyCall.apply TtyCall.Timely [.write (typed [10]), .read 0] newSession ∧
      (0, []) ∈ (runAll TtyCall.apply [.write (typed [10]), .read 0] newSession).strings := by
  decide +kernel

/-! ### A full queue -/

def Drainable (tty : TtyDevice Tag) : Prop := isFull tty.input = true → 0 < tty.linesAvailable

/-- What waits and is written leaves room in the queue, or has a newline in the part that the queue takes. -/
def TtyCall.Fits (call : TtyCall Tag) (session : TtySession Tag) : Prop :=
  match call with
  | write buf =>
    let waiting := session.tty.input.contents ++ buf.map lineEnd
    waiting.length < ttyBufSize - 1 ∨ ∃ c ∈ waiting.take (ttyBufSize - 1), isNl c
  | read _ => True

theorem isFull_iff {queue : Ring (TtyChar Tag) ttyBufSize} : isFull queue = true ↔ ttyBufSize - 1 ≤ queue.contents.length := by
  have bound := queue.used_lt
  rw [isFull, decide_eq_true_iff, full_iff, contents_length]
  omega

theorem Counted.drainable_iff (counted : Counted tty) :
    Drainable tty ↔ tty.input.contents.length < ttyBufSize - 1 ∨ ∃ c ∈ tty.input.contents, isNl c := by
  rw [Drainable, isFull_iff, counted.lines, Int.natCast_pos, countP_pos_iff, imp_iff_not_or, Nat.not_le]

theorem ttyWriteToInQueue_contents (buf : List (TtyChar Tag)) (tty : TtyDevice Tag) :
    (ttyWriteToInQueue buf tty).2.input.contents = (tty.input.contents ++ buf.map lineEnd).take (ttyBufSize - 1) := by
  have bound := Nat.le_sub_one_of_lt tty.input.used_lt
  rw [← contents_length] at bound
  induction buf generalizing tty with
  | nil => rw [map_nil, append_nil, take_of_length_le bound, ttyWriteToInQueue]
  | cons c rest ih =>
    unfold ttyWriteToInQueue
    split
    case isTrue full => rw [take_left' (Nat.le_antisymm bound (isFull_iff.mp full))]
    case isFalse room =>
    have put : (acceptChar tty (lineEnd c)).input.contents = tty.input.contents ++ [lineEnd c] :=
      put_contents (room_of_head_ne fun full => room (decide_eq_true full)) _
    rw [isFull_iff] at room
    rw [ih _ (by rw [put, length_append, length_singleton]; omega), put, append_assoc, singleton_append, map_cons]

/-- After every call of a run a full queue has a line for a reader exactly if no write fills the queue with
a part of a line. -/
theorem full_queue_drains_iff (start : TtySession Tag) (fresh : start.Fresh) (calls : List (TtyCall Tag)) :
    AllMeet TtyCall.apply (fun call session => Drainable (call.apply session).tty) calls start ↔
      AllMeet TtyCall.apply TtyCall.Fits calls start := by
  have step : ∀ (call : TtyCall Tag) session, session.Disciplined ∧ Drainable session.tty →
      (Drainable (call.apply session).tty ↔ call.Fits session) := by
    rintro (buf | size) session ⟨kept, drains⟩
    · rw [(kept.apply _).counted.drainable_iff]
      show (ttyWriteToInQueue buf session.tty).2.input.contents.length < _ ∨
        (∃ c ∈ (ttyWriteToInQueue buf session.tty).2.input.contents, _) ↔ _
      rw [ttyWriteToInQueue_contents, length_take, TtyCall.Fits]
      exact or_congr_left (by omega)
    refine iff_of_true ?_ trivial
    rw [TtyCall.apply]
    split
    case h_2 => exact drains
    case h_1 chars tty read =>
    obtain ⟨after, -, contents, -⟩ := ttyReadSigned_spec kept.counted kept.canonical read
    rw [kept.counted.drainable_iff, contents] at drains
    refine after.drainable_iff.mpr ?_
    cases chars with
    | nil => exact drains
    | cons c rest =>
      have bound := session.tty.input.used_lt
      rw [← contents_length, contents, length_append, length_cons] at bound
      exact .inl (by omega)
  have empty : Drainable start.tty := by
    rw [fresh.disciplined.counted.drainable_iff, fresh.empty]
    exact .inl (Nat.zero_lt_succ _)
  exact allMeet_congr (fun session => session.Disciplined ∧ Drainable session.tty) ⟨fresh.disciplined, empty⟩ step
    fun call session kept fits => ⟨kept.1.apply call, (step call session kept).mpr fits⟩

/-- A line that is complete, and so much of the next one that the queue is full. -/
theorem full_queue_drains_newline :
    let buf := typed (10 :: replicate 4095 97)
    isFull (ttyWriteToInQueue buf newSession.tty).2.input = true ∧
      AllMeet TtyCall.apply (fun call session => Drainable (call.apply session).tty) [.write buf] newSession := by
  intro buf
  have length : buf.length = 4096 := by simp only [buf, typed, length_map, length_cons, length_replicate]
  refine ⟨?_, (full_queue_drains_iff newSession ⟨rfl, rfl, rfl, rfl, rfl, rfl⟩ _).mpr ⟨.inr ⟨⟨10, ()⟩, ?_, rfl⟩, trivial⟩⟩
  · rw [isFull_iff, ttyWriteToInQueue_contents, length_take, length_append, length_map, length]
    decide
  · exact mem_cons_self

/-- A line of 4095 characters fills the queue before its end, and a reader waits for it. -/
theorem long_line_blocks : let tty := (ttyWriteToInQueue (typed (replicate 4095 97)) newSession.tty).2
    isFull tty.input = true ∧ tty.linesAvailable = 0 ∧ ttyReadSigned tty 1 = none := by
  intro tty
  obtain ⟨counted, mode, -⟩ := @ttyWriteToInQueue_spec Unit newSession.tty ⟨rfl, rfl⟩ rfl (typed (replicate 4095 97))
  have contents : tty.input.contents = replicate 4095 ⟨97, ()⟩ := by
    rw [ttyWriteToInQueue_contents, typed, map_replicate, map_replicate]
    exact take_replicate
  have lines : tty.linesAvailable = 0 := by
    rw [counted.lines, contents, countP_replicate]
    rfl
  refine ⟨isFull_iff.mpr ?_, lines, ?_⟩
  · rw [contents, length_replicate]
    decide
  · simp [ttyReadSigned, ttyReadFromInQueue, lines, show tty.icanon = true from mode]

end Sirius.Drivers
