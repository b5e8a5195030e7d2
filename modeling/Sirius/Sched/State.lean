import Sirius.Support.LinkedList
import Mathlib.Data.List.FinRange
import Mathlib.Algebra.GroupWithZero.Nat

/-! Threads, processes and processors, with the queues of `scheduler.c`. Control blocks are
named by their addresses; a ready queue is the list of the threads linked in it. -/
namespace Sirius.Sched
open Support Function

-- Named, so that definitions with the number of a processor share one proof.
instance someCpu : NeZero 1 := ⟨by decide⟩
instance someCpus : NeZero 2 := ⟨by decide⟩

abbrev Tcb := Nat

abbrev Pcb := Nat

inductive ThreadState where
  | ready | running | blocked | waiting | dead
deriving DecidableEq

inductive ProcessState where
  | embryo | ready | running | zombie | dead
deriving DecidableEq

structure Thread where
  tid : BitVec 32
  state : ThreadState
  cpuId : BitVec 32
  chan : Option Nat
  exitCode : BitVec 32
  owner : Option Pcb
deriving DecidableEq

structure Process where
  pid : BitVec 32
  ppid : BitVec 32
  state : ProcessState
  mainThread : Option Tcb
  exitCode : BitVec 32
  pendingSignals : BitVec 32
deriving DecidableEq

structure Cpu where
  current : Tcb
  idle : Tcb
  ready : List Tcb
deriving DecidableEq

/-- The global list: its head and the `next` field of every process. -/
structure ProcessList where
  head : Option Pcb
  next : Pcb → Option Pcb

/-- `tcbs` and `pcbs` are the control blocks that the heap has handed out. -/
structure State (n : Nat) where
  threads : Tcb → Thread
  procs : Pcb → Process
  cpus : Fin n → Cpu
  list : ProcessList
  nextTid : BitVec 32
  nextPid : BitVec 32
  tcbs : List Tcb
  pcbs : List Pcb

def getCpuDataBlock (n : Nat) (cpuId : BitVec 32) : Option (Fin n) :=
  if present : cpuId.toNat < n then some ⟨cpuId.toNat, present⟩ else none

namespace State
variable (s : State n)

def setThread (t : Tcb) (f : Thread → Thread) : State n :=
  { s with threads := update s.threads t (f (s.threads t)) }

def setState (t : Tcb) (state : ThreadState) : State n := s.setThread t ({ · with state := state })

def setProcess (p : Pcb) (f : Process → Process) : State n :=
  { s with procs := update s.procs p (f (s.procs p)) }

def setCpu (c : Fin n) (f : Cpu → Cpu) : State n :=
  { s with cpus := update s.cpus c (f (s.cpus c)) }

def stateOf (t : Tcb) : ThreadState := (s.threads t).state

def current (c : Fin n) : Tcb := (s.cpus c).current

def idle (c : Fin n) : Tcb := (s.cpus c).idle

def readyQueue (c : Fin n) : List Tcb := (s.cpus c).ready

def Queued (t : Tcb) : Prop := ∃ c, t ∈ s.readyQueue c

theorem same_places {s s' : State n} (cpus : s'.cpus = s.cpus) :
    s'.current = s.current ∧ s'.idle = s.idle ∧ s'.readyQueue = s.readyQueue := by
  refine ⟨funext fun c => ?_, funext fun c => ?_, funext fun c => ?_⟩
  · rw [current, current, cpus]
  · rw [idle, idle, cpus]
  · rw [readyQueue, readyQueue, cpus]

section Updates
variable (t : Tcb) (state : ThreadState) (c : Fin n)

@[simp] theorem setThread_threads (f : Thread → Thread) :
    (s.setThread t f).threads = update s.threads t (f (s.threads t)) := rfl

@[simp] theorem setProcess_procs (s : State n) (p : Pcb) (f : Process → Process) :
    (s.setProcess p f).procs = update s.procs p (f (s.procs p)) := rfl

@[simp] theorem setState_current : (s.setState t state).current = s.current := rfl

@[simp] theorem setState_idle : (s.setState t state).idle = s.idle := rfl

theorem setState_stateOf : (s.setState t state).stateOf = update s.stateOf t state :=
  funext (apply_update (fun _ => Thread.state) s.threads t _)

@[simp] theorem setState_stateOf_self : (s.setState t state).stateOf t = state := by
  rw [setState_stateOf, update_self]

theorem setState_stateOf_of_ne (other : u ≠ t) : (s.setState t state).stateOf u = s.stateOf u := by
  rw [setState_stateOf, update_of_ne other]

theorem setThread_field (field : Thread → β) (same : field (f (s.threads t)) = field (s.threads t)) (u : Tcb) :
    field ((s.setThread t f).threads u) = field (s.threads u) := by
  rw [setThread_threads, apply_update (fun _ => field), same, update_eq_self]

end Updates

end State

variable (s : State n) (c : Fin n)

def enqueueThread (cpu : Option (Fin n)) (t : Tcb) : State n :=
  match cpu with
  | none => s
  | some c => s.setCpu c fun cpu => { cpu with ready := cpu.ready ++ [t] }

def dequeueThread : Option Tcb × State n :=
  ((s.readyQueue c).head?, s.setCpu c fun cpu => { cpu with ready := cpu.ready.tail })

/-- The end of `task_switch` and of `scheduler_exit`. -/
def dispatch (next : Tcb) : State n :=
  (s.setState next .running).setCpu c fun cpu => { cpu with current := next }

/-- A thread that was still running goes to the end of the queue; the idle task never does. -/
def requeue : State n :=
  if s.stateOf (s.current c) = .running ∧ (s.threads (s.current c)).tid ≠ 0 then
    enqueueThread (s.setState (s.current c) .ready) (some c) (s.current c)
  else s

def taskSwitch : State n :=
  let current := s.current c
  let s := requeue s c
  match dequeueThread s c with
  | (some next, s) => dispatch s c next
  | (none, s) =>
    if (s.threads current).tid ≠ 0 ∧ s.stateOf current = .ready then dispatch s c current
    else dispatch s c (s.idle c)

/-- The loop at the end of `scheduler_exit`: what is left of the queue at the first thread
that is neither the one exiting nor dead. -/
def exitSkip (current : Tcb) (queue : List Tcb) : List Tcb :=
  queue.dropWhile fun t => t = current ∨ s.stateOf t = .dead

def exitSwitch : State n :=
  let queue := exitSkip s (s.current c) (s.readyQueue c)
  let s := s.setCpu c fun cpu => { cpu with ready := queue.tail }
  dispatch s c (queue.head?.getD (s.idle c))

variable (t : Tcb) (code : BitVec 32)

/-- What `wakeup` and `scheduler_exit` do to a thread they find asleep. -/
def makeReady : State n :=
  enqueueThread (s.setState t .ready) (getCpuDataBlock n (s.threads t).cpuId) t

/-- The part of `scheduler_exit` that looks for the parent among the processes visited. -/
def notifyParent (visited : List Pcb) (ppid : BitVec 32) : State n :=
  match visited.find? (fun p => (s.procs p).pid = ppid) with
  | none => s
  | some parent =>
    match (s.procs parent).mainThread with
    | none => s
    | some t => if s.stateOf t = .blocked then makeReady s t else s

/-- The process of the exiting thread becomes a zombie. -/
def exitProcess : State n :=
  match (s.threads t).owner with
  | none => s
  | some p => s.setProcess p fun proc => { proc with exitCode := code, state := .zombie }

def exitThread : State n :=
  s.setThread t fun thread => { thread with state := .dead, exitCode := code }

def exitNotify (visited : List Pcb) (t : Tcb) : State n :=
  match (s.threads t).owner with
  | none => s
  | some p => notifyParent s visited (s.procs p).ppid

def schedulerExit (visited : List Pcb) : State n :=
  let t := s.current c
  exitSwitch (exitNotify (exitProcess (exitThread s t code) t code) visited t) c

def schedulerReadyThread (here : Fin n) (t : Tcb) : State n :=
  let s := s.setState t .ready
  let cpu := (getCpuDataBlock n (s.threads t).cpuId).getD here
  let s := enqueueThread s (some cpu) t
  match (s.threads t).owner with
  | none => s
  | some p => if (s.procs p).state = .embryo then s.setProcess p ({ · with state := .ready }) else s

def schedulerReadyProcess (here : Fin n) (p : Pcb) : State n :=
  match (s.procs p).mainThread with
  | none => s
  | some t =>
    let s := s.setProcess p ({ · with state := .ready })
    enqueueThread s (some ((getCpuDataBlock n (s.threads t).cpuId).getD here)) t

end Sirius.Sched
