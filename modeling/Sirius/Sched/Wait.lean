import Sirius.Sched.Placement
import Sirius.Support.Runs

/-! `wait`, statement by statement, among the other things that happen on the processors:
interrupts, wake-ups, locks, new threads and exits. The idle task only halts; whatever a
thread does besides is left open. -/
namespace Sirius.Sched
open Support

inductive WaitPc where
  | outside
  | entered
  | locking
  | locked
  | anchored
  | marked
  | released
  | restored
  | unlocked
  | scheduling
  | resumed
deriving DecidableEq

/-- The arguments of `wait` (whether it was given a lock) and the flags it has saved. -/
structure WaitCall where
  chan : Nat
  lk : Bool
  flags : Bool
deriving DecidableEq

/-- `resumesWith` is the interrupt flag of a saved context, `holder` the thread that has
taken the lock given to `wait`. -/
structure Machine (n : Nat) where
  sched : State n
  pc : Tcb → WaitPc
  call : Tcb → WaitCall
  interrupts : Fin n → Bool
  resumesWith : Tcb → Bool
  waitLock : Bool
  holder : Option Tcb

inductive Event (n : Nat) where
  | setInterrupts (c : Fin n) (on : Bool)
  | clone (c : Fin n) (flags : BitVec 32) (grants : Grants)
  | exit (c : Fin n) (code : BitVec 32) (visited : List Pcb)
  | spinLock (c : Fin n)
  | spinUnlock (c : Fin n)
  | enter (c : Fin n) (chan : Nat) (lk : Bool)
  | waitStep (c : Fin n)
  | wakeup (chan : Nat) (visited : List Pcb)
  | wakeupThread (chan : Nat) (t : Tcb)
  | timer (c : Fin n)

namespace Machine
variable (m : Machine n)

def setPc (t : Tcb) (pc : WaitPc) : Machine n := { m with pc := Function.update m.pc t pc }

def setFlag (c : Fin n) (on : Bool) : Machine n := { m with interrupts := Function.update m.interrupts c on }

/-- The context of the thread that is current now has been loaded. -/
def resume (c : Fin n) : Machine n := m.setFlag c (m.resumesWith (m.sched.current c))

/-- The current thread is switched out with the flag its context is saved with. -/
def switchOut (c : Fin n) (flag : Bool) : Machine n :=
  resume { m with sched := taskSwitch m.sched c
                  resumesWith := Function.update m.resumesWith (m.sched.current c) flag } c

/-- The statement of `wait` that the thread on a processor comes to next. -/
def waitStep (c : Fin n) : Machine n :=
  let t := m.sched.current c
  let call := m.call t
  match m.pc t with
  | .outside => m
  | .entered =>
    { (m.setFlag c false).setPc t .locking with
      call := Function.update m.call t { call with flags := m.interrupts c } }
  | .locking => { m.setPc t .locked with waitLock := true }
  | .locked => { m.setPc t .anchored with sched := m.sched.setThread t ({ · with chan := some call.chan }) }
  | .anchored => { m.setPc t .marked with sched := m.sched.setState t .waiting }
  | .marked => { m.setPc t .released with waitLock := false }
  | .released => (m.setFlag c call.flags).setPc t .restored
  | .restored => { m.setPc t .unlocked with holder := if call.lk then none else m.holder }
  | .unlocked => (m.setFlag c false).setPc t .scheduling
  | .scheduling => (m.setPc t .resumed).switchOut c false
  | .resumed => { m.setPc t .outside with holder := if call.lk then some t else m.holder }

/-- A lock that is taken is spun on. -/
def WaitPossible (c : Fin n) : Prop :=
  match m.pc (m.sched.current c) with
  | .outside => False
  | .locking => m.waitLock = false
  | .resumed => (m.call (m.sched.current c)).lk → m.holder = none
  | _ => True

/-- A thread other than the idle task runs on the processor, and not in `wait`. -/
structure Acts (c : Fin n) : Prop where
  busy : m.sched.current c ≠ m.sched.idle c
  outside : m.pc (m.sched.current c) = .outside

end Machine

def Event.Possible (event : Event n) (m : Machine n) : Prop :=
  match event with
  | .setInterrupts c _ => m.pc (m.sched.current c) = .outside
  | .clone c _ grants => m.Acts c ∧ ∀ t, grants.tcb = some t → t ∉ m.sched.tcbs
  | .exit c _ visited => m.Acts c ∧ ∃ stop, Visits m.sched.list.next m.sched.list.head visited stop
  | .spinLock c => m.Acts c ∧ m.holder = none
  | .spinUnlock c => m.Acts c
  | .enter c _ _ => m.Acts c
  | .waitStep c => m.WaitPossible c
  | .wakeup _ visited => m.waitLock = false ∧ ∃ stop, Visits m.sched.list.next m.sched.list.head visited stop
  | .wakeupThread _ _ => m.waitLock = false
  | .timer c => m.interrupts c = true

def Event.apply (event : Event n) (m : Machine n) : Machine n :=
  let s := m.sched
  match event with
  | .setInterrupts c on => m.setFlag c on
  | .clone c flags grants =>
    -- a new thread starts outside, with interrupts on as its parent has them in user mode
    match grants.tcb with
    | none => { m with sched := Sched.clone s c flags grants }
    | some t =>
      { m.setPc t .outside with
        sched := Sched.clone s c flags grants
        resumesWith := Function.update m.resumesWith t true }
  | .exit c code visited => { m with sched := schedulerExit s c code visited }.resume c
  | .spinLock c => { m with holder := some (s.current c) }
  | .spinUnlock _ => { m with holder := none }
  | .enter c chan lk =>
    { m.setPc (s.current c) .entered with
      call := Function.update m.call (s.current c) { chan := chan, lk := lk, flags := false } }
  | .waitStep c => m.waitStep c
  | .wakeup chan visited => { m with sched := Sched.wakeup s chan visited }
  | .wakeupThread chan t => { m with sched := Sched.wakeupThread s chan t }
  | .timer c => m.switchOut c true

def Step (before after : Machine n) : Prop := ∃ event : Event n, event.Possible before ∧ after = event.apply before

end Sirius.Sched
