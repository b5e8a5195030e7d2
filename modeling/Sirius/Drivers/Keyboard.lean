import Sirius.Sched.WaitLaw
import Sirius.Support.Ring

/-! `keyboard.c`: the thread that takes keys from the ring and sleeps while there are none, and the interrupts
that bring keys, on any processor and between any two statements of the thread. -/
namespace Sirius.Drivers
open Support Sched Function State

structure KbdEvent where
  scancode : BitVec 8
  modifiersState : BitVec 8

/-- The packet that the handler makes of a byte, and `g_current_modifiers` afterwards. -/
def packet (modifiers byte : BitVec 8) : KbdEvent × BitVec 8 :=
  if byte &&& 0x80 ≠ 0 then
    let pure := byte &&& 0x7F
    let m := if pure = 0x2A then modifiers &&& ~~~1 else modifiers
    (⟨pure, modifiers ||| 0x80⟩, if pure = 0x36 then m &&& ~~~2 else m)
  else
    let m := if byte = 0x2A then modifiers ||| 1 else modifiers
    let m := if byte = 0x36 then m ||| 2 else m
    let m := if byte = 0x3A then m ^^^ 4 else m
    (⟨byte, m⟩, m)

/-- How far the thread is in `keyboard_get_event` and in the `wait` that it calls. -/
inductive GetPc
  | testing | entered | locked | anchored | marked | unlocked | scheduled | taking
deriving DecidableEq

/-- `chan` is the address of `g_kbd_wait`, `home` the processor of `thread_kbd`. A handler that is `waking` has stored
its packet and has still to wake the thread. -/
structure Keyboard (n : Nat) where
  sched : State n
  ring : Ring KbdEvent 128
  modifiers : BitVec 8
  thread : Tcb
  chan : Nat
  home : Fin n
  pc : GetPc
  waking : Bool

/-- A handler is two steps: the thread only makes room between its test of the ring and its store. -/
inductive KbdStep (n : Nat)
  | get | store (byte : BitVec 8) | wake | taskSwitch (c : Fin n)

namespace Keyboard

def get (k : Keyboard n) : Keyboard n :=
  match k.pc with
  | .testing => { k with pc := if k.ring.tail = k.ring.head then .entered else .taking }
  | .entered => { k with pc := .locked }
  | .locked => { k with pc := .anchored, sched := k.sched.setThread k.thread ({ · with chan := some k.chan }) }
  | .anchored => { k with pc := .marked, sched := k.sched.setState k.thread .waiting }
  | .marked => { k with pc := .unlocked }
  | .unlocked => { k with pc := .scheduled, sched := taskSwitch k.sched k.home }
  | .scheduled => { k with pc := .testing }
  | .taking => { k with pc := .testing, ring := k.ring.advance }

def store (k : Keyboard n) (byte : BitVec 8) : Keyboard n :=
  if byte = 0xFA ∨ byte = 0xE0 then k
  else
    let (event, modifiers) := packet k.modifiers byte
    let k := { k with modifiers := modifiers }
    if (k.ring.head + 1) % 128 ≠ k.ring.tail then { k with ring := k.ring.put event, waking := true } else k

abbrev Asleep (k : Keyboard n) : Prop := k.sched.stateOf k.thread = .waiting

/-- The thread has found the ring empty and has not marked itself. -/
def Tested (k : Keyboard n) : Prop := k.pc = .entered ∨ k.pc = .locked ∨ k.pc = .anchored

end Keyboard

namespace KbdStep

def apply (step : KbdStep n) (k : Keyboard n) : Keyboard n :=
  match step with
  | get => k.get
  | store byte => k.store byte
  | wake => { k with sched := wakeupThread k.sched k.chan k.thread, waking := false }
  | taskSwitch c => { k with sched := Sched.taskSwitch k.sched c }

/-- One handler runs at a time, and spins while the thread has `g_wait_lock`. -/
def Possible (step : KbdStep n) (k : Keyboard n) : Prop :=
  match step with
  | get => k.sched.current k.home = k.thread
  | store _ => k.waking = false
  | wake => k.waking = true ∧ k.pc ∉ [.locked, .anchored, .marked]
  | taskSwitch _ => True

/-- The thread is not woken between its test and the lock, with a key in the ring. -/
def InTime (step : KbdStep n) (k : Keyboard n) : Prop :=
  match step with
  | wake => k.pc = .entered → k.ring.head = k.ring.tail
  | _ => True

end KbdStep

namespace Keyboard

/-- A thread that sleeps, or is about to, has no key in the ring or a handler that will wake it. -/
structure Inv (k : Keyboard n) : Prop where
  awake : k.sched.current k.home = k.thread → k.Asleep → k.pc = .marked ∨ k.pc = .unlocked
  anchored : k.Asleep ∨ k.pc = .anchored → (k.sched.threads k.thread).chan = some k.chan
  noKey : k.Asleep ∨ k.Tested → k.ring.head = k.ring.tail ∨ k.waking = true

variable {k : Keyboard n}

theorem Inv.of_awake (awake : ¬ k.Asleep) (anchored : k.pc = .anchored → (k.sched.threads k.thread).chan = some k.chan)
    (noKey : k.Tested → k.ring.head = k.ring.tail ∨ k.waking = true) : k.Inv :=
  ⟨fun _ asleep => absurd asleep awake, fun either => anchored (either.resolve_left awake),
    fun either => noKey (either.resolve_left awake)⟩

namespace Inv
variable (inv : k.Inv)
include inv

/-- Past the mark only a sleeping thread matters. -/
theorem past (moved : ¬ Tested { k with pc := now })
    (awake : k.sched.current k.home = k.thread → k.Asleep → now = .marked ∨ now = .unlocked) :
    Inv { k with pc := now } where
  awake := awake
  anchored either := inv.anchored (.inl (either.resolve_right fun here => moved (.inr (.inr here))))
  noKey either := inv.noKey (.inl (either.resolve_right moved))

theorem taskSwitch (c : Fin n) : Inv { k with sched := Sched.taskSwitch k.sched c } := by
  have switched := taskSwitch_switched k.sched c
  have before : _ → k.Asleep := fun asleep => switched.kept asleep nofun nofun
  refine ⟨fun runs asleep => ?_, fun either => ?_, fun either => inv.noKey (either.imp_left before)⟩
  · by_cases here : k.home = c
    · subst here
      cases asleep.symm.trans ((congrArg _ runs).symm.trans switched.running)
    · exact inv.awake ((switched.current k.home here).symm.trans runs) (before asleep)
  · exact ((Marks.taskSwitch _ c).field Thread.chan (fun _ _ => rfl) k.thread).trans (inv.anchored (either.imp_left before))

theorem get (runs : k.sched.current k.home = k.thread) : (k.get).Inv := by
  have awake (outside : ¬ (k.pc = .marked ∨ k.pc = .unlocked)) : ¬ k.Asleep :=
    fun asleep => outside (inv.awake runs asleep)
  rw [Keyboard.get]
  cases here : k.pc <;> rw [here] at awake <;> dsimp only
  case testing =>
    by_cases empty : k.ring.tail = k.ring.head
    · rw [if_pos empty]
      exact .of_awake (awake (by decide)) (by simp) fun _ => .inl empty.symm
    · rw [if_neg empty]
      exact .of_awake (awake (by decide)) (by simp) (by simp [Tested])
  case entered => exact .of_awake (awake (by decide)) (by simp) fun _ => inv.noKey (.inr (.inl here))
  case locked =>
    refine .of_awake (fun asleep => awake (by decide) ?_) (fun _ => ?_) fun _ => inv.noKey (.inr (.inr (.inl here)))
    · rwa [Asleep, stateOf, setThread_threads, update_self] at asleep
    · rw [setThread_threads, update_self]
  case anchored =>
    refine ⟨fun _ _ => .inl rfl, fun _ => ?_, fun _ => inv.noKey (.inr (.inr (.inr here)))⟩
    rw [setState, setThread_threads, update_self]
    exact inv.anchored (.inr here)
  case marked => exact inv.past (by simp [Tested]) fun _ _ => .inr rfl
  case unlocked =>
    refine (inv.taskSwitch k.home).past (by simp [Tested]) fun now asleep => ?_
    cases asleep.symm.trans ((congrArg _ now).symm.trans (taskSwitch_switched k.sched k.home).running)
  case scheduled | taking => exact .of_awake (awake (by decide)) (by simp) (by simp [Tested])

theorem store (byte : BitVec 8) : (k.store byte).Inv := by
  rw [Keyboard.store]
  split
  · exact inv
  dsimp only
  split
  · exact { inv with noKey := fun _ => .inr rfl }
  · exact { inv with }

theorem wake (unlocked : k.pc ∉ [.locked, .anchored, .marked]) (inTime : k.pc = .entered → k.ring.head = k.ring.tail) :
    Inv { k with sched := wakeupThread k.sched k.chan k.thread, waking := false } := by
  refine .of_awake (fun asleep => ?_) (fun here => ?_) fun tested => .inl ?_
  · have same := (wakeupThread_keeps k.sched k.chan k.thread).waiting k.thread asleep
    have before : k.Asleep := (congrArg Thread.state same).symm.trans asleep
    cases (wakeupThread_woken ⟨before, inv.anchored (.inl before)⟩).1.symm.trans asleep
  · exact absurd (by simp [show k.pc = .anchored from here]) unlocked
  · rcases tested with entered | locked | anchored
    · exact inTime entered
    · exact absurd (by simp [show k.pc = .locked from locked]) unlocked
    · exact absurd (by simp [show k.pc = .anchored from anchored]) unlocked

end Inv

end Keyboard

/-- In no order of the steps, with every wake-up in time, does the thread sleep on a key that no handler has in hand. -/
theorem keyboard_thread_never_sleeps_on_keys (start : Keyboard n) (awake : ¬ start.Asleep)
    (outside : start.pc = .testing) (steps : List (KbdStep n))
    (inTime : AllMeet KbdStep.apply (fun step k => step.Possible k ∧ step.InTime k) steps start) :
    let k := runAll (KbdStep.apply) steps start
    ¬ (Sleeps k.sched k.chan k.thread ∧ k.ring.head ≠ k.ring.tail ∧ k.waking = false) := by
  have first : start.Inv := by
    refine .of_awake awake (fun here => ?_) fun tested => ?_
    · cases outside.symm.trans here
    · rw [Keyboard.Tested, outside] at tested
      simp at tested
  have inv := inTime.preserves first fun step k met inv => by
    cases step with
    | get => exact inv.get met.1
    | store byte => exact inv.store byte
    | wake => exact inv.wake met.1.2 met.2
    | taskSwitch c => exact inv.taskSwitch c
  dsimp only
  rintro ⟨asleep, key, done⟩
  rcases inv.noKey (.inl asleep.1) with empty | waking
  · exact key empty
  · cases done.symm.trans waking

def noKeys : Keyboard 2 := ⟨twoCpus.sched, .empty (fun _ => ⟨0, 0⟩) (by decide), 0, 2, 7, 0, .testing, false⟩

/-- The whole handler of a key runs when the thread has done some of its statements. -/
def keyDuring (before after : Nat) : List (KbdStep 2) :=
  .replicate before .get ++ [.store 0x1E, .wake] ++ .replicate after .get

theorem keyboard_thread_woken : ¬ Sleeps (runAll KbdStep.apply (keyDuring 5 0) noKeys).sched 7 2 := fun asleep =>
  keyboard_thread_never_sleeps_on_keys noKeys nofun rfl (keyDuring 5 0)
    ⟨⟨rfl, trivial⟩, ⟨rfl, trivial⟩, ⟨rfl, trivial⟩, ⟨rfl, trivial⟩, ⟨rfl, trivial⟩, ⟨rfl, trivial⟩,
      ⟨⟨rfl, by decide⟩, nofun⟩, trivial⟩ ⟨asleep, by decide +kernel, rfl⟩

/-- After the test and before the lock: the thread then sleeps on its key. -/
theorem keyboard_wakeup_lost : ∃ steps, AllMeet KbdStep.apply KbdStep.Possible steps noKeys ∧
    let k := runAll KbdStep.apply steps noKeys
    Sleeps k.sched k.chan k.thread ∧ k.ring.head ≠ k.ring.tail ∧ k.waking = false := by
  refine ⟨keyDuring 1 3, ⟨rfl, rfl, ⟨rfl, by decide⟩, rfl, rfl, rfl, trivial⟩, ?_, ?_, rfl⟩ <;> decide +kernel

end Sirius.Drivers
