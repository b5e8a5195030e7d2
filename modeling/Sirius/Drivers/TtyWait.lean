import Sirius.Drivers.Tty
import Sirius.Sched.WaitLaw

/-! A reader that sleeps on a terminal, and writers that wake it. The reader is the main thread of a
listed process; taking the lock of the terminal, marking the thread, giving the lock back, the call
of `schedule` and the wake-up are separate steps, and any processor may switch tasks between them.
Reads are of at least one character: a size of zero does not wait, and a negative one, which waits for a
line and then takes nothing of it, is left out. -/
namespace Sirius.Drivers
open Support Sched Function List

variable {Tag : Type}

/-- How far the reader is in `tty_read_from_in_queue` and in the `wait` that it calls. -/
inductive ReaderPc
  | outside
  | entering (size : Nat)
  | checking (size : Nat)
  | waiting (size : Nat)
  | marked (size : Nat)
  | unlocked (size : Nat)
  | scheduled (size : Nat)
  | leaving
deriving DecidableEq

def ReaderPc.Holds : ReaderPc → Prop
  | .checking _ | .waiting _ | .marked _ | .leaving => True
  | .outside | .entering _ | .unlocked _ | .scheduled _ => False

/-- How far a writer is in `tty_write_to_in_queue`. -/
inductive WriterPc (Tag : Type)
  | outside
  | entering (buf : List (TtyChar Tag))
  | writing (buf : List (TtyChar Tag))
  | waking
  | leaving

def WriterPc.Holds : WriterPc Tag → Prop
  | .writing _ | .waking | .leaving => True
  | .outside | .entering _ => False

inductive Party
  | reader
  | writer (w : Nat)
deriving DecidableEq

/-- `lock` is who holds `tty->lock`. -/
structure TtyRoom (n : Nat) (Tag : Type) where
  sched : State n
  tty : TtyDevice Tag
  lock : Option Party
  reader : ReaderPc
  writer : Nat → WriterPc Tag

inductive RoomEvent (n : Nat) (Tag : Type)
  | read (size : Nat)
  | readerStep (c : Fin n)
  | write (w : Nat) (buf : List (TtyChar Tag))
  | writerStep (w : Nat) (visited : List Pcb)
  | taskSwitch (c : Fin n)

variable (thread : Tcb) (chan : Nat)

namespace TtyRoom

/-- What the reader does next, on the processor where it runs. `chan` is the address of `read_wait`. -/
def readerStep (room : TtyRoom n Tag) (c : Fin n) : TtyRoom n Tag :=
  match room.reader with
  | .outside => room
  | .entering size => { room with lock := some .reader, reader := .checking size }
  | .checking size =>
    match ttyReadFromInQueue room.tty size with
    | some (_, tty) => { room with tty := tty, reader := .leaving }
    | none => { room with reader := .waiting size }
  | .waiting size =>
    { room with
      sched := room.sched.setThread thread ({ · with chan := some chan, state := .waiting })
      reader := .marked size }
  | .marked size => { room with lock := none, reader := .unlocked size }
  | .unlocked size => { room with sched := taskSwitch room.sched c, reader := .scheduled size }
  | .scheduled size => { room with lock := some .reader, reader := .checking size }
  | .leaving => { room with lock := none, reader := .outside }

def setWriter (room : TtyRoom n Tag) (w : Nat) (pc : WriterPc Tag) : TtyRoom n Tag :=
  { room with writer := update room.writer w pc }

def writerStep (room : TtyRoom n Tag) (w : Nat) (visited : List Pcb) : TtyRoom n Tag :=
  match room.writer w with
  | .outside => room
  | .entering buf => { room.setWriter w (.writing buf) with lock := some (.writer w) }
  | .writing buf =>
    let (escritos, tty) := ttyWriteToInQueue buf room.tty
    { room.setWriter w (if 0 < escritos then .waking else .leaving) with tty := tty }
  | .waking => { room.setWriter w .leaving with sched := wakeup room.sched chan visited }
  | .leaving => { room.setWriter w .outside with lock := none }

def ReaderGoes (room : TtyRoom n Tag) : Prop :=
  match room.reader with
  | .outside => False
  | .entering _ | .scheduled _ => room.lock = none
  | _ => True

def WriterGoes (room : TtyRoom n Tag) (w : Nat) (visited : List Pcb) : Prop :=
  match room.writer w with
  | .outside => False
  | .entering _ => room.lock = none
  | .waking => Chain room.sched.list.next room.sched.list.head visited
  | _ => True

end TtyRoom

namespace RoomEvent

def apply (event : RoomEvent n Tag) (room : TtyRoom n Tag) : TtyRoom n Tag :=
  match event with
  | read size => { room with reader := .entering size }
  | readerStep c => room.readerStep thread chan c
  | write w buf => room.setWriter w (.entering buf)
  | writerStep w visited => room.writerStep chan w visited
  | taskSwitch c => { room with sched := Sched.taskSwitch room.sched c }

/-- Code runs on a processor, a lock that is taken is spun on, and `wakeup` walks the whole list. -/
def Possible (event : RoomEvent n Tag) (room : TtyRoom n Tag) : Prop :=
  match event with
  | read size => size ≠ 0 ∧ room.reader = .outside
  | readerStep c => room.sched.current c = thread ∧ room.ReaderGoes
  | write w _ => room.writer w = .outside
  | writerStep w visited => room.WriterGoes w visited
  | taskSwitch _ => True

end RoomEvent

/-! ### Switching and waking -/

/-- The main thread of a process that `wakeup` visits does not wait on the channel afterwards. -/
theorem wakeup_wakes (listed : p ∈ visited) (main : (s.procs p).mainThread = some t)
    (anchored : s.stateOf t = .waiting → (s.threads t).chan = some chan) : (wakeup s chan visited).stateOf t ≠ .waiting := by
  intro asleep
  obtain ⟨before, after, rfl⟩ := append_of_mem listed
  rw [wakeup, foldl_append, foldl_cons] at asleep
  -- asleep at the end, so asleep and untouched all the way, also at its own turn
  have first := wakeup_keeps s chan before
  generalize reached : before.foldl (wakeupProcess chan) s = middle at asleep
  rw [wakeup, reached] at first
  have rest := (wakeup_keeps (wakeupProcess chan middle p) chan after).waiting t asleep
  have own : (wakeupProcess chan middle p).stateOf t = .waiting := by rw [State.stateOf, ← rest]; exact asleep
  have process := (first.keeps.mainThread p).trans main
  have turn : wakeupProcess chan middle p = wakeupThread middle chan t := by rw [wakeupProcess, process]
  rw [turn] at own
  have unchanged := (wakeupThread_keeps middle chan t).waiting t own
  have slept : middle.stateOf t = .waiting := by rw [State.stateOf, ← unchanged]; exact own
  have same := first.waiting t slept
  have earlier : s.stateOf t = .waiting := by rw [State.stateOf, ← same]; exact slept
  have channel : (middle.threads t).chan = some chan := by rw [same]; exact anchored earlier
  rw [wakeupThread, if_pos ⟨slept, channel⟩] at own
  cases (enqueueThread_readied (middle.setThread t ({ · with chan := none })) _ t).self.symm.trans own

/-! ### No wake-up is lost -/

theorem ttyWriteToInQueue_zero (none : (ttyWriteToInQueue buf tty).1 = 0) : (ttyWriteToInQueue buf tty).2 = tty := by
  cases buf with
  | nil => rfl
  | cons c rest =>
    rw [ttyWriteToInQueue] at none ⊢
    split at none
    case isTrue full => rw [if_pos full]
    case isFalse => cases none

theorem ttyWriteToInQueue_icanon (buf : List (TtyChar Tag)) (tty : TtyDevice Tag) :
    (ttyWriteToInQueue buf tty).2.icanon = tty.icanon := by
  fun_induction ttyWriteToInQueue buf tty with
  | case1 => rfl
  | case2 => rfl
  | case3 _ _ _ _ _ ih => exact ih

theorem takeChars_icanon (size : Nat) (tty : TtyDevice Tag) : (takeChars size tty).2.icanon = tty.icanon := by
  fun_induction takeChars size tty with
  | case4 _ _ _ _ _ _ _ ih => exact ih
  | _ => rfl

/-- A read that takes characters in canonical mode has seen a line. -/
theorem ttyReadFromInQueue_some (canonical : tty.icanon = true)
    (read : ttyReadFromInQueue tty size = some (chars, tty')) : tty'.icanon = true ∧ (tty' = tty ∨ 0 < tty.linesAvailable) := by
  unfold ttyReadFromInQueue at read
  split_ifs at read with zero ready
  · cases read
    exact ⟨canonical, .inl rfl⟩
  have mode := takeChars_icanon size tty
  rw [Option.some.inj read] at mode
  refine ⟨mode.trans canonical, .inr ?_⟩
  rcases ready with ⟨-, line⟩ | ⟨raw, -⟩
  · exact line
  · exact absurd canonical raw

theorem ttyReadFromInQueue_none (canonical : tty.icanon = true)
    (read : ttyReadFromInQueue tty size = none) : tty.linesAvailable ≤ 0 := by
  unfold ttyReadFromInQueue at read
  split_ifs at read with zero ready
  by_contra line
  exact ready (.inl ⟨canonical, by omega⟩)

namespace TtyRoom

/-- The thread is the main thread of a process on the list. -/
def Listed (room : TtyRoom n Tag) : Prop :=
  ∃ visited p, Chain room.sched.list.next room.sched.list.head visited ∧ p ∈ visited ∧
    (room.sched.procs p).mainThread = some thread

def Asleep (room : TtyRoom n Tag) : Prop := room.sched.stateOf thread = .waiting

structure Started (room : TtyRoom n Tag) : Prop where
  canonical : room.tty.icanon = true
  listed : room.Listed thread
  awake : ¬ room.Asleep thread
  reader : room.reader = .outside
  writer : ∀ w, room.writer w = .outside
  lock : room.lock = none

/-- A reader that sleeps although there is a line has a writer that is about to wake it. -/
structure Inv (room : TtyRoom n Tag) : Prop where
  canonical : room.tty.icanon = true
  listed : room.Listed thread
  reader : room.reader.Holds → room.lock = some .reader
  writer : ∀ w, (room.writer w).Holds → room.lock = some (.writer w)
  noLine : ∀ size, room.reader = .waiting size → room.tty.linesAvailable ≤ 0
  anchored : room.Asleep thread → (room.sched.threads thread).chan = some chan
  noticed : room.Asleep thread → 0 < room.tty.linesAvailable → ∃ w, room.writer w = .waking

variable {thread chan}

theorem Started.inv {room : TtyRoom n Tag} (started : room.Started thread) : room.Inv thread chan where
  canonical := started.canonical
  listed := started.listed
  reader := by rw [started.reader]; exact False.elim
  writer w := by rw [started.writer w]; exact False.elim
  noLine size there := by rw [started.reader] at there; cases there
  anchored asleep := absurd asleep started.awake
  noticed asleep := absurd asleep started.awake

namespace Inv
variable {room : TtyRoom n Tag}

section
variable (inv : room.Inv thread chan)
include inv

theorem noLine_of_lock (spared : ∀ w, room.lock ≠ some (.writer w)) (asleep : room.Asleep thread) :
    room.tty.linesAvailable ≤ 0 := by
  by_contra line
  obtain ⟨w, waking⟩ := inv.noticed asleep (by omega)
  exact spared w (inv.writer w (by rw [waking]; trivial))

/-- Nor while nobody has it. -/
theorem noLine_of_free (free : room.lock = none) (asleep : room.Asleep thread) : room.tty.linesAvailable ≤ 0 :=
  inv.noLine_of_lock (fun _ => by rw [free]; nofun) asleep

/-- A writer that holds the lock excludes the reader and every other writer. -/
theorem alone (held : room.lock = some party) (holds : (room.writer w).Holds) : party = .writer w :=
  Option.some.inj (held.symm.trans (inv.writer w holds))

/-- The reader goes on in its code and takes or leaves the lock. -/
theorem moveReader (holds : pc.Holds → held = some .reader)
    (others : ∀ w, (room.writer w).Holds → held = some (.writer w))
    (noLine : ∀ size, pc = .waiting size → room.tty.linesAvailable ≤ 0) :
    Inv thread chan { room with lock := held, reader := pc } :=
  { inv with reader := holds, writer := others, noLine := noLine }

theorem taken (free : room.lock = none) (size : Nat) :
    Inv thread chan { room with lock := some .reader, reader := .checking size } := by
  refine inv.moveReader (fun _ => rfl) (fun w holds => ?_) fun _ waits => by cases waits
  cases free.symm.trans (inv.writer w holds)

theorem given (held : room.lock = some .reader) (outside : ¬ pc.Holds) :
    Inv thread chan { room with lock := none, reader := pc } := by
  refine inv.moveReader (fun holds => absurd holds outside) (fun w holds => ?_) fun size waits => ?_
  · cases inv.alone held holds
  · rw [waits] at outside
    exact absurd trivial outside

/-- The scheduler runs: it puts nobody to sleep and knows nothing of channels. -/
theorem reschedule (keeps : Keeps room.sched s)
    (later : s.stateOf thread = .waiting → room.sched.stateOf thread = .waiting ∧
      (s.threads thread).chan = (room.sched.threads thread).chan) : Inv thread chan { room with sched := s } := by
  refine { inv with listed := ?_, anchored := fun asleep => ?_, noticed := fun asleep => inv.noticed (later asleep).1 }
  · obtain ⟨visited, p, chain, mem, main⟩ := inv.listed
    rw [← keeps.list] at chain
    exact ⟨visited, p, chain, mem, (keeps.mainThread p).trans main⟩
  · obtain ⟨before, same⟩ := later asleep
    exact same.trans (inv.anchored before)

theorem taskSwitch (c : Fin n) : Inv thread chan { room with sched := Sched.taskSwitch room.sched c } :=
  inv.reschedule (Marks.taskSwitch _ c).keeps fun asleep =>
    ⟨(taskSwitch_switched room.sched c).kept asleep nofun nofun, (Marks.taskSwitch _ c).field Thread.chan (fun _ _ => rfl) thread⟩

/-- The check that the reader makes under the lock: it goes to sleep only if there is no line. -/
theorem check (size : Nat) (here : room.reader = .checking size) (c : Fin n) :
    (room.readerStep thread chan c).Inv thread chan := by
  have holds : room.reader.Holds := by rw [here]; trivial
  have held := inv.reader holds
  rw [readerStep, here]
  dsimp only
  split
  case h_1 chars tty read =>
    obtain ⟨mode, same | line⟩ := ttyReadFromInQueue_some inv.canonical read
    · rw [same]
      exact { inv with reader := fun _ => held, noLine := fun _ waits => (by cases waits) }
    · refine { inv with canonical := mode, reader := fun _ => held, noLine := fun _ waits => (by cases waits)
                        noticed := fun asleep => ?_ }
      exact absurd (inv.noLine_of_lock (fun _ => by rw [inv.reader holds]; nofun) asleep) (by omega)
  case h_2 read =>
    exact { inv with reader := fun _ => held, noLine := fun _ _ => ttyReadFromInQueue_none inv.canonical read }

/-- The thread is marked while the reader has the lock and has seen no line. -/
theorem mark (size : Nat) (here : room.reader = .waiting size) (c : Fin n) :
    (room.readerStep thread chan c).Inv thread chan := by
  have held := inv.reader (by rw [here]; trivial)
  have noLine := inv.noLine size here
  have self : (room.sched.setThread thread ({ · with chan := some chan, state := .waiting })).threads thread =
      { room.sched.threads thread with chan := some chan, state := .waiting } := update_self _ _ _
  rw [readerStep, here]
  refine { inv with listed := inv.listed, reader := fun _ => held, noLine := fun _ waits => (by cases waits)
                    anchored := fun _ => ?_, noticed := fun _ line => ?_ }
  · rw [self]
  · exact absurd line (Int.not_lt.mpr noLine)

theorem readerStep (goes : room.ReaderGoes) (c : Fin n) : (room.readerStep thread chan c).Inv thread chan := by
  unfold ReaderGoes at goes
  cases here : room.reader with
  | outside => rw [here] at goes; exact goes.elim
  | entering size | scheduled size =>
    rw [here] at goes
    rw [TtyRoom.readerStep, here]
    exact inv.taken goes size
  | checking size => exact inv.check size here c
  | waiting size => exact inv.mark size here c
  | marked size | leaving =>
    rw [TtyRoom.readerStep, here]
    exact inv.given (inv.reader (by rw [here]; trivial)) not_false
  | unlocked size =>
    rw [TtyRoom.readerStep, here]
    exact (inv.taskSwitch c).moveReader False.elim inv.writer fun _ waits => by cases waits

/-! The steps of a writer -/

/-- A writer goes on in its code and takes or leaves the lock. -/
theorem moveWriter (own : pc.Holds → held = some (.writer w))
    (reads : room.reader.Holds → held = some .reader) (others : ∀ v, v ≠ w → (room.writer v).Holds → held = some (.writer v))
    (noticed : room.Asleep thread → 0 < room.tty.linesAvailable → ∃ v, v ≠ w ∧ room.writer v = .waking) :
    Inv thread chan { room.setWriter w pc with lock := held } := by
  refine { inv with reader := reads, writer := fun v holds => ?_, noticed := fun asleep line => ?_ }
  · by_cases here : v = w
    · subst here
      rw [show (room.setWriter v pc).writer v = pc from update_self _ _ _] at holds
      exact own holds
    · rw [show (room.setWriter w pc).writer v = room.writer v from update_of_ne here _ _] at holds
      exact others v here holds
  · obtain ⟨v, other, waking⟩ := noticed asleep line
    exact ⟨v, (update_of_ne other _ _).trans waking⟩

/-- Characters come in under the lock of the writer, who wakes the reader before giving it back. -/
theorem wrote (here : room.writer w = .writing buf) (visited : List Pcb) :
    (room.writerStep chan w visited).Inv thread chan := by
  have held := inv.writer w (by rw [here]; trivial)
  have noReader : ¬ room.reader.Holds := fun holds => by cases held.symm.trans (inv.reader holds)
  have mode := (ttyWriteToInQueue_icanon buf room.tty).trans inv.canonical
  rw [TtyRoom.writerStep, here]
  dsimp only
  by_cases some : 0 < (ttyWriteToInQueue buf room.tty).1
  · rw [if_pos some]
    refine { inv with canonical := mode, writer := fun v holds => ?_, noLine := fun size waits => ?_
                      noticed := fun _ _ => ⟨w, update_self _ _ _⟩ }
    · by_cases same : v = w
      · rw [same]
        exact held
      · rw [show (room.setWriter w .waking).writer v = room.writer v from update_of_ne same _ _] at holds
        exact inv.writer v holds
    · exact absurd (show room.reader.Holds by rw [show room.reader = .waiting size from waits]; trivial) noReader
  · rw [if_neg some, ttyWriteToInQueue_zero (Nat.eq_zero_of_not_pos some)]
    refine inv.moveWriter (fun _ => held) inv.reader (fun v _ => inv.writer v) fun asleep line => ?_
    obtain ⟨v, waking⟩ := inv.noticed asleep line
    exact ⟨v, fun same => (by cases here.symm.trans (same ▸ waking)), waking⟩

theorem writerStep (goes : room.WriterGoes w visited) : (room.writerStep chan w visited).Inv thread chan := by
  unfold WriterGoes at goes
  cases here : room.writer w with
  | outside => rw [here] at goes; exact goes.elim
  | entering buf =>
    rw [here] at goes
    rw [TtyRoom.writerStep, here]
    refine inv.moveWriter (fun _ => rfl) (fun holds => ?_) (fun v _ holds => ?_) fun asleep line => ?_
    · cases goes.symm.trans (inv.reader holds)
    · cases goes.symm.trans (inv.writer v holds)
    · exact absurd (inv.noLine_of_free goes asleep) (by omega)
  | writing buf =>
    exact inv.wrote here visited
  | waking =>
    rw [here] at goes
    rw [TtyRoom.writerStep, here]
    obtain ⟨others, p, chain, mem, main⟩ := inv.listed
    rw [chain.unique goes] at mem
    have awake := wakeup_wakes chan mem main inv.anchored
    have woken : Inv thread chan { room with sched := wakeup room.sched chan visited } :=
      inv.reschedule (wakeup_keeps room.sched chan visited).keeps fun asleep => absurd asleep awake
    exact woken.moveWriter (fun _ => inv.writer w (by rw [here]; trivial)) inv.reader (fun v _ => inv.writer v)
      fun asleep => absurd asleep awake
  | leaving =>
    have held := inv.writer w (by rw [here]; trivial)
    rw [TtyRoom.writerStep, here]
    refine inv.moveWriter False.elim (fun holds => ?_) (fun v other holds => ?_) fun asleep line => ?_
    · cases held.symm.trans (inv.reader holds)
    · cases inv.alone held holds
      exact absurd rfl other
    · obtain ⟨v, waking⟩ := inv.noticed asleep line
      exact ⟨v, fun same => (by cases here.symm.trans (same ▸ waking)), waking⟩

theorem apply (event : RoomEvent n Tag) (possible : event.Possible thread room) :
    (event.apply thread chan room).Inv thread chan := by
  cases event with
  | read size => exact inv.moveReader False.elim inv.writer (fun _ waits => by cases waits)
  | readerStep c => exact inv.readerStep possible.2 c
  | write w buf =>
    refine inv.moveWriter False.elim inv.reader (fun v _ => inv.writer v) fun asleep line => ?_
    obtain ⟨v, waking⟩ := inv.noticed asleep line
    exact ⟨v, fun same => (by cases (show room.writer w = .outside from possible).symm.trans (same ▸ waking)), waking⟩
  | writerStep w visited => exact inv.writerStep possible
  | taskSwitch c => exact inv.taskSwitch c

end

end Inv

end TtyRoom

/-- In no order of the steps is the reader left asleep on the terminal with a line there and the lock free. -/
theorem no_wakeup_lost_on_tty (start : TtyRoom n Tag) (started : start.Started thread) (events : List (RoomEvent n Tag))
    (possible : AllMeet (RoomEvent.apply thread chan) (RoomEvent.Possible thread) events start) :
    let room := runAll (RoomEvent.apply thread chan) events start
    ¬ (room.Asleep thread ∧ 0 < room.tty.linesAvailable ∧ room.lock = none) := by
  have inv := possible.preserves started.inv fun event room possible inv => inv.apply event possible
  dsimp only
  rintro ⟨asleep, line, free⟩
  exact absurd (inv.noLine_of_free free asleep) (by omega)

def quietRoom : TtyRoom 2 Unit where
  sched := twoCpus.sched
  tty := emptyTty ()
  lock := none
  reader := .outside
  writer := fun _ => .outside

/-- The reader is marked and has given the lock back when a line comes; the writer has not woken it yet. -/
def lineArrives : List (RoomEvent 2 Unit) :=
  [.read 8, .readerStep 0, .readerStep 0, .readerStep 0, .readerStep 0, .write 0 [⟨13, ()⟩], .writerStep 0 [], .writerStep 0 []]

theorem no_wakeup_lost_line_arrives : let room := runAll (RoomEvent.apply 2 7) lineArrives quietRoom
    room.Asleep 2 ∧ 0 < room.tty.linesAvailable ∧ room.lock ≠ none := by
  have asleep : (runAll (RoomEvent.apply 2 7) lineArrives quietRoom).Asleep 2 := by rw [TtyRoom.Asleep]; decide +kernel
  have line : 0 < (runAll (RoomEvent.apply 2 7) lineArrives quietRoom).tty.linesAvailable := by decide +kernel
  have started : quietRoom.Started 2 := ⟨rfl, ⟨[1], 1, ⟨rfl, rfl⟩, mem_cons_self, rfl⟩, nofun, rfl, fun _ => rfl, rfl⟩
  have possible : AllMeet (RoomEvent.apply 2 7) (RoomEvent.Possible 2) lineArrives quietRoom := by
    refine ⟨⟨by decide, rfl⟩, ⟨rfl, rfl⟩, ⟨rfl, trivial⟩, ⟨rfl, trivial⟩, ⟨rfl, trivial⟩, rfl, rfl, trivial, trivial⟩
  exact ⟨asleep, line, fun free => no_wakeup_lost_on_tty 2 7 quietRoom started lineArrives possible ⟨asleep, line, free⟩⟩

end Sirius.Drivers
