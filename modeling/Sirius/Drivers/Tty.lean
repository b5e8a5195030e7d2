import Sirius.Support.Ring

/-! The two queues of a terminal: what is written to it comes out at the input, by lines in
canonical mode, and is echoed to the output. A character carries a tag that the terminal does
not look at. -/
namespace Sirius.Drivers
open Support List

def ttyBufSize : Nat := 4096
def asciiNl : UInt8 := 10
def asciiCr : UInt8 := 13

structure TtyChar (Tag : Type) where
  char : UInt8
  tag : Tag
deriving DecidableEq, Repr

structure TtyDevice (Tag : Type) where
  input : Ring (TtyChar Tag) ttyBufSize
  rawCount : Int
  linesAvailable : Int
  output : Ring (TtyChar Tag) ttyBufSize
  icanon : Bool
  echo : Bool

variable {Tag : Type}

def emptyTty (blank : Tag) : TtyDevice Tag where
  input := Ring.empty (fun _ => ⟨0, blank⟩) (by decide)
  rawCount := 0
  linesAvailable := 0
  output := Ring.empty (fun _ => ⟨0, blank⟩) (by decide)
  icanon := true
  echo := true

def isFull (queue : Ring (TtyChar Tag) ttyBufSize) : Bool := (queue.head + 1) % ttyBufSize = queue.tail

def ttyPutQueue (queue : Ring (TtyChar Tag) ttyBufSize) (c : TtyChar Tag) : Ring (TtyChar Tag) ttyBufSize :=
  if isFull queue then queue else queue.put c

section
variable (tty : TtyDevice Tag) (c : TtyChar Tag)

def lineEnd : TtyChar Tag := if c.char = asciiCr then { c with char := asciiNl } else c

/-- What `tty_write_to_in_queue` does with a character for which there is room. -/
def acceptChar : TtyDevice Tag where
  input := tty.input.put c
  rawCount := tty.rawCount + 1
  linesAvailable := if tty.icanon ∧ c.char = asciiNl then tty.linesAvailable + 1 else tty.linesAvailable
  output := if tty.echo then ttyPutQueue tty.output c else tty.output
  icanon := tty.icanon
  echo := tty.echo

def ttyWriteToInQueue : List (TtyChar Tag) → TtyDevice Tag → Nat × TtyDevice Tag
  | [], tty => (0, tty)
  | c :: rest, tty =>
    if isFull tty.input then (0, tty)
    else
      let written := ttyWriteToInQueue rest (acceptChar tty (lineEnd c))
      (written.1 + 1, written.2)

/-- The loop of `tty_read_from_in_queue` that copies characters, at most `size` of them. -/
def takeChars : Nat → TtyDevice Tag → List (TtyChar Tag) × TtyDevice Tag
  | 0, tty => ([], tty)
  | size + 1, tty =>
    if tty.input.head = tty.input.tail then ([], tty)
    else
      let c := tty.input.slots tty.input.tail
      let tty := { tty with input := tty.input.advance, rawCount := tty.rawCount - 1 }
      if tty.icanon ∧ c.char = asciiNl then
        ([c], { tty with
          linesAvailable := if 0 < tty.linesAvailable then tty.linesAvailable - 1 else tty.linesAvailable })
      else
        let rest := takeChars size tty
        (c :: rest.1, rest.2)

/-- No answer while there is no line, or in raw mode no character. -/
def ttyReadFromInQueue (size : Nat) : Option (List (TtyChar Tag) × TtyDevice Tag) :=
  if size = 0 then some ([], tty)
  else if tty.icanon ∧ 0 < tty.linesAvailable ∨ ¬tty.icanon ∧ 0 < tty.rawCount then some (takeChars size tty)
  else none

def ttyWriteToOutQueue (buf : List (TtyChar Tag)) : Nat × TtyDevice Tag :=
  let written := tty.output.fill buf
  (written.1, { tty with output := written.2 })

/-- No answer while the output is empty. -/
def ttyReadFromOutQueue (size : Nat) : Option (List (TtyChar Tag) × TtyDevice Tag) :=
  if size = 0 then some ([], tty)
  else if tty.output.head = tty.output.tail then none
  else
    let taken := tty.output.drain size
    some (taken.1, { tty with output := taken.2 })

end

/-- All that waits in the queues bears tags of these kinds. -/
structure Tagged (input output : Tag → Prop) (tty : TtyDevice Tag) : Prop where
  input : ∀ c ∈ tty.input.contents, input c.tag
  output : ∀ c ∈ tty.output.contents, output c.tag

section Tagged

variable {ins outs : Tag → Prop} {tty : TtyDevice Tag}

theorem lineEnd_tag (c : TtyChar Tag) : (lineEnd c).tag = c.tag := by
  unfold lineEnd
  split <;> rfl

theorem put_tagged {queue : Ring (TtyChar Tag) ttyBufSize} {kind : Tag → Prop} (room : isFull queue = false)
    (old : ∀ c ∈ queue.contents, kind c.tag) (new : kind c.tag) : ∀ x ∈ (queue.put c).contents, kind x.tag := by
  intro x mem
  rw [Ring.put_contents (Ring.room_of_head_ne (of_decide_eq_false room)), mem_append, mem_singleton] at mem
  rcases mem with mem | rfl
  · exact old x mem
  · exact new

section
variable (tagged : Tagged ins outs tty)
include tagged

theorem acceptChar_tagged (room : isFull tty.input = false) (new : ins c.tag)
    (echoed : outs c.tag) : Tagged ins outs (acceptChar tty c) := by
  refine ⟨put_tagged room tagged.input new, ?_⟩
  unfold acceptChar ttyPutQueue
  dsimp only
  split
  · split
    · exact tagged.output
    case isFalse outRoom => exact put_tagged (Bool.not_eq_true _ ▸ outRoom) tagged.output echoed
  · exact tagged.output

theorem ttyWriteToInQueue_tagged (new : ∀ c ∈ buf, ins c.tag ∧ outs c.tag) :
    Tagged ins outs (ttyWriteToInQueue buf tty).2 := by
  induction buf generalizing tty with
  | nil => exact tagged
  | cons c rest ih =>
    unfold ttyWriteToInQueue
    split
    · exact tagged
    case isFalse room =>
    obtain ⟨first, echoed⟩ := new c mem_cons_self
    refine ih (acceptChar_tagged tagged (Bool.not_eq_true _ ▸ room) ?_ ?_) fun x mem => new x (mem_cons_of_mem _ mem)
    all_goals rwa [lineEnd_tag]

theorem takeChars_tagged (size : Nat) :
    (∀ c ∈ (takeChars size tty).1, ins c.tag) ∧ Tagged ins outs (takeChars size tty).2 := by
  induction size generalizing tty with
  | zero => exact ⟨fun _ mem => absurd mem not_mem_nil, tagged⟩
  | succ size ih =>
    unfold takeChars
    split
    · exact ⟨fun _ mem => absurd mem not_mem_nil, tagged⟩
    case isFalse nonempty =>
    have parts := Ring.advance_contents nonempty
    have first := tagged.input _ (parts ▸ mem_cons_self)
    have rest : ∀ c ∈ tty.input.advance.contents, ins c.tag := fun c mem =>
      tagged.input c (parts ▸ mem_cons_of_mem _ mem)
    dsimp only
    split
    · refine ⟨fun c mem => ?_, rest, tagged.output⟩
      rw [mem_singleton.mp mem]
      exact first
    have shorter : Tagged ins outs { tty with input := tty.input.advance, rawCount := tty.rawCount - 1 } :=
      ⟨rest, tagged.output⟩
    obtain ⟨front, back⟩ := ih shorter
    refine ⟨fun c mem => ?_, back⟩
    rcases mem_cons.mp mem with rfl | mem
    · exact first
    · exact front c mem

theorem ttyReadFromInQueue_tagged (read : ttyReadFromInQueue tty size = some (chars, tty')) :
    (∀ c ∈ chars, ins c.tag) ∧ Tagged ins outs tty' := by
  unfold ttyReadFromInQueue at read
  split_ifs at read
  · cases read
    exact ⟨fun _ mem => absurd mem not_mem_nil, tagged⟩
  · have taken := takeChars_tagged tagged size
    rwa [Option.some.inj read] at taken

theorem ttyWriteToOutQueue_tagged (new : ∀ c ∈ buf, outs c.tag) :
    Tagged ins outs (ttyWriteToOutQueue tty buf).2 := by
  refine ⟨tagged.input, fun c mem => ?_⟩
  simp only [ttyWriteToOutQueue, Ring.fill_contents, mem_append] at mem
  rcases mem with mem | mem
  · exact tagged.output c mem
  · exact new c (mem_of_mem_take mem)

theorem ttyReadFromOutQueue_tagged
    (read : ttyReadFromOutQueue tty size = some (chars, tty')) :
    (∀ c ∈ chars, c ∈ tty.output.contents.take size ∧ outs c.tag) ∧ Tagged ins outs tty' := by
  unfold ttyReadFromOutQueue at read
  split_ifs at read
  · cases read
    exact ⟨fun _ mem => absurd mem not_mem_nil, tagged⟩
  · cases read
    obtain ⟨front, back⟩ := Ring.drain_spec size tty.output
    refine ⟨fun c mem => ?_, tagged.input, fun c mem => tagged.output c (mem_of_mem_drop (back ▸ mem))⟩
    rw [front] at mem
    exact ⟨mem, tagged.output c (mem_of_mem_take mem)⟩

end

end Tagged

end Sirius.Drivers
