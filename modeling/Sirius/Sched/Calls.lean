import Mathlib.Data.List.Induction
import Sirius.Sched.State

/-! The calls that make, wake and end threads: `process_create`, `clone`, `wakeup`,
`sys_kill` and `sys_waitpid`. A walk over the process list is given by the processes it
visits. -/
namespace Sirius.Sched
open Support Function List State

def processListInsert (list : ProcessList) (proc : Pcb) : ProcessList where
  head := some proc
  next := update list.next proc list.head

/-- The loop of `process_list_remove`: the process before the one looked for, or the last;
nothing if the bound on its rounds is too small. -/
def findPrevious (next : Pcb → Option Pcb) (proc : Pcb) : Nat → Pcb → Option Pcb
  | 0, _ => none
  | rounds + 1, current =>
    match next current with
    | none => some current
    | some following => if following = proc then some current else findPrevious next proc rounds following

def processListRemove (list : ProcessList) (proc : Pcb) (rounds : Nat) : Option ProcessList :=
  match list.head with
  | none => some list
  | some first =>
    if first = proc then some { list with head := list.next first }
    else
      (findPrevious list.next proc rounds first).map fun current =>
        if list.next current = some proc then
          { list with next := update list.next current (list.next proc) }
        else list

section
variable (s : State n) (c : Fin n)

/-- The threads of a processor, counted in 32 bits. -/
def threadCount : Nat :=
  ((s.readyQueue c).length + if s.current c ≠ s.idle c then 1 else 0) % 2 ^ 32

def getCpuWithFewestThreads : Option (Fin n) :=
  ((List.finRange n).foldl
    (fun best c => if threadCount s c < best.2 then (some c, threadCount s c) else best) (none, 2 ^ 32 - 1)).1

def getCpuIdWithFewestThreads : BitVec 32 :=
  match getCpuWithFewestThreads s with
  | none => 0
  | some c => BitVec.ofNat 32 c

def userThreadCreate (t : Tcb) (cpuId : BitVec 32) : State n :=
  { s with
    threads := update s.threads t
      { tid := s.nextTid, state := .ready, cpuId := cpuId, chan := none, exitCode := 0, owner := none }
    nextTid := s.nextTid + 1
    tcbs := t :: s.tcbs }

/-- What the allocators answer: a block for the process, its page tables with all that goes
into them, and a block for the thread with its stack. -/
structure Grants where
  pcb : Option Pcb
  space : Bool
  tcb : Option Tcb

/-- A new process is numbered before the rest of it is there. -/
def numberProcess (p : Pcb) (ppid : BitVec 32) : State n :=
  { s with
    procs := update s.procs p
      { pid := s.nextPid, ppid := ppid, state := .embryo, mainThread := none, exitCode := 0, pendingSignals := 0 }
    nextPid := s.nextPid + 1 }

def insertProcess (p : Pcb) : State n := { s with list := processListInsert s.list p }

/-- The process gets its first thread and is listed. -/
def startProcess (p : Pcb) (t : Tcb) (cpuId : BitVec 32) : State n :=
  let s := userThreadCreate s t cpuId
  let s := s.setThread t ({ · with owner := some p })
  let s := s.setProcess p ({ · with mainThread := some t })
  insertProcess { s with pcbs := p :: s.pcbs } p

def processCreate (cpuId : BitVec 32) (grants : Grants) : State n :=
  match grants.pcb, grants.space, grants.tcb with
  | none, _, _ => s
  | some p, true, some t => startProcess (numberProcess s p 0) p t cpuId
  | some p, _, _ => numberProcess s p 0

def cloneVm : BitVec 32 := 0x100

def cloneFiles : BitVec 32 := 0x400

/-- With `CLONE_VM` the new thread belongs to the process of its parent, which is put into
the list again. -/
def cloneThread (parent : Pcb) (t : Tcb) : State n :=
  let s := userThreadCreate s t (getCpuIdWithFewestThreads s)
  let s := s.setThread t ({ · with owner := some parent })
  enqueueThread (insertProcess s parent) (some c) t

def cloneProcess (child : Pcb) (t : Tcb) : State n :=
  let s := startProcess s child t (getCpuIdWithFewestThreads s)
  enqueueThread (s.setProcess child ({ · with state := .ready })) (some c) t

def clone (flags : BitVec 32) (grants : Grants) : State n :=
  match (s.threads (s.current c)).owner with
  | none => s
  | some parent =>
    if flags &&& cloneVm ≠ 0 then
      match grants.tcb with
      | none => s
      | some t => cloneThread s c parent t
    else
      match grants.pcb, grants.space, grants.tcb with
      | none, _, _ => s
      | some child, true, some t => cloneProcess (numberProcess s child (s.procs parent).pid) c child t
      | some child, _, _ => numberProcess s child (s.procs parent).pid

/-- The body shared by `wakeup` and `wakeup_thread`. -/
def wakeupThread (chan : Nat) (t : Tcb) : State n :=
  if s.stateOf t = .waiting ∧ (s.threads t).chan = some chan then
    makeReady (s.setThread t ({ · with chan := none })) t
  else s

def wakeupProcess (chan : Nat) (s : State n) (p : Pcb) : State n :=
  match (s.procs p).mainThread with
  | none => s
  | some t => wakeupThread s chan t

def wakeup (chan : Nat) (visited : List Pcb) : State n := visited.foldl (wakeupProcess chan) s

def processFindByPid (visited : List Pcb) (pid : BitVec 32) : Option Pcb :=
  visited.find? fun p => (s.procs p).pid = pid

def maxSignals : Int := 32

def einval : Int := 22

def esrch : Int := 3

def sysKill (here : Fin n) (pid : BitVec 32) (sig : Int) (visited : List Pcb) : Int × State n :=
  if sig < 1 ∨ maxSignals < sig then (-einval, s)
  else match processFindByPid s visited pid with
    | none => (-esrch, s)
    | some target =>
      if (s.procs target).state = .zombie then (-einval, s)
      else
        let bit := BitVec.ofNat 32 (1 <<< (sig - 1).toNat)
        let s := s.setProcess target fun proc => { proc with pendingSignals := proc.pendingSignals ||| bit }
        match (s.procs target).mainThread with
        | none => (0, s)
        | some t =>
          if s.stateOf t ≠ .ready ∧ s.stateOf t ≠ .running then (0, schedulerReadyThread s here t) else (0, s)

def Awaits (parent : Pcb) (pid : BitVec 32) (p : Pcb) : Prop :=
  (s.procs p).ppid = (s.procs parent).pid ∧ (pid = -1 ∨ (s.procs p).pid = pid)

end

instance : Decidable (Awaits s parent pid p) := inferInstanceAs (Decidable (_ ∧ _))

/-- The scan of `sys_waitpid`: the last zombie among the children waited for, and whether
there are others. -/
def waitScan (s : State n) (visited : List Pcb) (parent : Pcb) (pid : BitVec 32) : Option Pcb × Bool :=
  visited.foldl
    (fun found p =>
      if Awaits s parent pid p then
        if (s.procs p).state = .zombie then (some p, found.2) else (found.1, true)
      else found)
    (none, false)

theorem waitScan_fst (s : State n) (visited : List Pcb) (parent : Pcb) (pid : BitVec 32) :
    (waitScan s visited parent pid).1 =
      (visited.filter fun p => Awaits s parent pid p ∧ (s.procs p).state = .zombie).getLast? := by
  induction visited using reverseRecOn with
  | nil => rfl
  | append_singleton rest p ih =>
    rw [waitScan] at ih
    rw [waitScan, foldl_append, filter_append]
    by_cases awaited : Awaits s parent pid p
    · by_cases zombie : (s.procs p).state = .zombie
      · simp [awaited, zombie]
      · simp [awaited, zombie, ih]
    · simp [awaited, ih]

theorem waitScan_zombie (found : waitScan s visited parent pid = (some child, others)) :
    (s.procs child).state = .zombie := by
  have last := (waitScan_fst s visited parent pid).symm.trans (congrArg Prod.fst found)
  exact (of_decide_eq_true (mem_filter.mp (mem_of_getLast? last)).2).2

theorem waitScan_none (found : waitScan s visited parent pid = (none, others)) (visit : p ∈ visited)
    (awaited : Awaits s parent pid p) : (s.procs p).state ≠ .zombie := by
  have last := (waitScan_fst s visited parent pid).symm.trans (congrArg Prod.fst found)
  intro zombie
  have listed : p ∈ visited.filter (fun p => Awaits s parent pid p ∧ (s.procs p).state = .zombie) :=
    mem_filter.mpr ⟨visit, decide_eq_true (And.intro awaited zombie)⟩
  rw [List.getLast?_eq_none_iff.mp last] at listed
  exact not_mem_nil listed

def collect (s : State n) (child : Pcb) : State n := s.setProcess child ({ · with state := .dead })

/-- One round of the loop of `sys_waitpid`, to the next call of `schedule` or to the end. -/
def sysWaitpidRound (s : State n) (c : Fin n) (pid : BitVec 32) (visited : List Pcb) : State n :=
  match (s.threads (s.current c)).owner with
  | none => s
  | some parent =>
    match waitScan s visited parent pid with
    | (some child, _) => collect s child
    | (none, false) => s
    | (none, true) => taskSwitch (s.setState (s.current c) .blocked) c

/-- The threads and the processors are as before; of the processes at most the block
that was handed out and given back has changed. -/
structure CloneFailed (s s' : State n) (grants : Grants) : Prop where
  threads : s'.threads = s.threads
  cpus : s'.cpus = s.cpus
  tcbs : s'.tcbs = s.tcbs
  pcbs : s'.pcbs = s.pcbs
  list : s'.list = s.list
  procs : ∀ p, s'.procs p = s.procs p ∨
    grants.pcb = some p ∧ (s'.procs p).state = .embryo ∧ (s'.procs p).mainThread = none

/-- There is a new thread, of the process of the caller or of a new one. -/
structure Cloned (s s' : State n) (c : Fin n) (grants : Grants) (t : Tcb) (owner : Pcb) : Prop where
  granted : grants.tcb = some t
  ready : s'.stateOf t = .ready
  owned : (s'.threads t).owner = some owner
  others : ∀ u, u ≠ t → s'.threads u = s.threads u
  cpus : s'.cpus = s.cpus
  tcbs : s'.tcbs = t :: s.tcbs
  process : (s.threads (s.current c)).owner = some owner ∧ s'.procs = s.procs ∧ s'.pcbs = s.pcbs ∨
    grants.pcb = some owner ∧ (∀ p, p ≠ owner → s'.procs p = s.procs p) ∧ (s'.procs owner).state = .ready ∧
      (s'.procs owner).mainThread = some t ∧ s'.pcbs = owner :: s.pcbs

theorem clone_cases (s : State n) (c : Fin n) (flags : BitVec 32) (grants : Grants) :
    CloneFailed s (clone s c flags grants) grants ∨
      ∃ t owner s', Cloned s s' c grants t owner ∧ clone s c flags grants = enqueueThread s' (some c) t := by
  have unchanged : CloneFailed s s grants := ⟨rfl, rfl, rfl, rfl, rfl, fun _ => .inl rfl⟩
  obtain ⟨pcb, space, tcb⟩ := grants
  rw [clone]
  cases owned : (s.threads (s.current c)).owner with
  | none => exact .inl unchanged
  | some parent =>
    dsimp only
    by_cases shares : flags &&& cloneVm ≠ 0
    · rw [if_pos shares]
      cases tcb with
      | none => exact .inl unchanged
      | some t =>
        refine .inr ⟨t, parent, _, ?_, rfl⟩
        refine ⟨rfl, ?_, ?_, fun u other => ?_, rfl, rfl, .inl ⟨owned, rfl, rfl⟩⟩
        · simp [stateOf, insertProcess, setThread_threads, userThreadCreate]
        · simp [insertProcess, setThread_threads]
        · simp only [insertProcess, setThread_threads, update_of_ne other, userThreadCreate]
    · rw [if_neg shares]
      have numbered : ∀ child, pcb = some child →
          CloneFailed s (numberProcess s child (s.procs parent).pid) ⟨pcb, space, tcb⟩ := by
        rintro child rfl
        refine ⟨rfl, rfl, rfl, rfl, rfl, fun p => ?_⟩
        by_cases here : p = child
        · subst here
          refine .inr ⟨rfl, ?_, ?_⟩
          all_goals simp [numberProcess]
        · exact .inl (update_of_ne here _ _)
      cases pcb with
      | none => exact .inl unchanged
      | some child =>
        cases space with
        | false => exact .inl (numbered child rfl)
        | true =>
          cases tcb with
          | none => exact .inl (numbered child rfl)
          | some t =>
            refine .inr ⟨t, child, _, ?_, rfl⟩
            refine ⟨rfl, ?_, ?_, fun u other => ?_, rfl, rfl, .inr ⟨rfl, fun p other => ?_, ?_, ?_, rfl⟩⟩
            · simp [stateOf, startProcess, insertProcess, setProcess, setThread_threads, userThreadCreate]
            · simp [startProcess, insertProcess, setProcess, setThread_threads]
            · simp only [startProcess, insertProcess, setProcess, setThread_threads,
                update_of_ne other, userThreadCreate, numberProcess]
            · simp only [startProcess, insertProcess, setProcess, setThread, userThreadCreate,
                update_of_ne other, numberProcess]
            · simp [setProcess]
            · simp [startProcess, insertProcess, setProcess]

/-! What the scheduler leaves alone: which threads and processes there are, how they are
linked, and what does not change in a control block once it has been filled in. -/

def Thread.identity (thread : Thread) : BitVec 32 × BitVec 32 × Option Pcb := (thread.tid, thread.cpuId, thread.owner)

def Process.identity (proc : Process) : BitVec 32 × BitVec 32 × Option Tcb := (proc.pid, proc.ppid, proc.mainThread)

structure Keeps (before after : State n) : Prop where
  list : after.list = before.list
  tcbs : after.tcbs = before.tcbs
  pcbs : after.pcbs = before.pcbs
  thread : ∀ t, (after.threads t).identity = (before.threads t).identity
  process : ∀ p, (after.procs p).identity = (before.procs p).identity

/-- Of the control blocks only the states of threads have changed. -/
structure Marks (before after : State n) : Prop where
  list : after.list = before.list
  tcbs : after.tcbs = before.tcbs
  pcbs : after.pcbs = before.pcbs
  procs : after.procs = before.procs
  thread : ∀ t, ∃ state, after.threads t = { before.threads t with state := state }

namespace Marks

theorem refl (s : State n) : Marks s s := ⟨rfl, rfl, rfl, rfl, fun _ => ⟨_, rfl⟩⟩

theorem trans (first : Marks a b) (second : Marks b c) : Marks a c := by
  refine ⟨second.list.trans first.list, second.tcbs.trans first.tcbs, second.pcbs.trans first.pcbs,
    second.procs.trans first.procs, fun t => ?_⟩
  obtain ⟨x, one⟩ := first.thread t
  obtain ⟨y, two⟩ := second.thread t
  exact ⟨y, by rw [two, one]⟩

theorem keeps (marks : Marks a b) : Keeps a b := by
  refine ⟨marks.list, marks.tcbs, marks.pcbs, fun t => ?_, fun p => by rw [marks.procs]⟩
  obtain ⟨_, same⟩ := marks.thread t
  rw [same, Thread.identity, Thread.identity]

theorem field (marks : Marks a b) (field : Thread → β)
    (fixed : ∀ thread state, field { thread with state := state } = field thread)
    (t : Tcb) : field (b.threads t) = field (a.threads t) := by
  obtain ⟨_, same⟩ := marks.thread t
  rw [same, fixed]

section
variable (s : State n) (cpu : Option (Fin n)) (c : Fin n) (t : Tcb)
include s

theorem setState (state : ThreadState) : Marks s (s.setState t state) := by
  refine ⟨rfl, rfl, rfl, rfl, fun u => ?_⟩
  rw [State.setState, setThread_threads, update_apply]
  split
  next here => exact ⟨state, here ▸ rfl⟩
  next => exact ⟨_, rfl⟩

theorem setCpu (f : Cpu → Cpu) : Marks s (s.setCpu c f) := ⟨rfl, rfl, rfl, rfl, fun _ => ⟨_, rfl⟩⟩

theorem enqueueThread : Marks s (enqueueThread s cpu t) := by
  cases cpu with
  | none => exact refl s
  | some c => exact setCpu s c fun cpu => { cpu with ready := cpu.ready ++ [t] }

theorem dispatch : Marks s (dispatch s c t) := (setState s t .running).trans (setCpu _ c _)

theorem requeue (c : Fin n) : Marks s (requeue s c) := by
  rw [Sched.requeue]
  split
  · exact (setState s _ .ready).trans (enqueueThread _ _ _)
  · exact refl s

theorem taskSwitch (c : Fin n) : Marks s (taskSwitch s c) := by
  have first := (requeue s c).trans (setCpu (Sched.requeue s c) c fun cpu => { cpu with ready := cpu.ready.tail })
  simp only [Sched.taskSwitch, dequeueThread]
  split
  next taken =>
    obtain ⟨-, rfl⟩ := Prod.mk.inj taken
    exact first.trans (dispatch _ c _)
  next empty =>
    obtain ⟨-, rfl⟩ := Prod.mk.inj empty
    split <;> exact first.trans (dispatch _ c _)

theorem makeReady : Marks s (makeReady s t) := (setState s t .ready).trans (enqueueThread _ _ _)

theorem exitNotify (visited : List Pcb) (t : Tcb) : Marks s (exitNotify s visited t) := by
  rw [Sched.exitNotify]
  split
  · exact refl s
  · rw [notifyParent]
    repeat' split
    all_goals first | exact makeReady s _ | exact refl s

theorem exitSwitch : Marks s (exitSwitch s c) := (setCpu s c _).trans (dispatch _ c _)

end

end Marks

namespace Keeps

theorem refl (s : State n) : Keeps s s := ⟨rfl, rfl, rfl, fun _ => rfl, fun _ => rfl⟩

theorem trans (first : Keeps a b) (second : Keeps b c) : Keeps a c where
  list := second.list.trans first.list
  tcbs := second.tcbs.trans first.tcbs
  pcbs := second.pcbs.trans first.pcbs
  thread := fun t => (second.thread t).trans (first.thread t)
  process := fun p => (second.process p).trans (first.process p)

theorem cpuId (keeps : Keeps a b) (t : Tcb) : (b.threads t).cpuId = (a.threads t).cpuId :=
  congrArg (fun identity => identity.2.1) (keeps.thread t)

theorem owner (keeps : Keeps a b) (t : Tcb) : (b.threads t).owner = (a.threads t).owner :=
  congrArg (fun identity => identity.2.2) (keeps.thread t)

theorem pid (keeps : Keeps a b) (p : Pcb) : (b.procs p).pid = (a.procs p).pid :=
  congrArg (fun identity => identity.1) (keeps.process p)

theorem ppid (keeps : Keeps a b) (p : Pcb) : (b.procs p).ppid = (a.procs p).ppid :=
  congrArg (fun identity => identity.2.1) (keeps.process p)

theorem mainThread (keeps : Keeps a b) (p : Pcb) : (b.procs p).mainThread = (a.procs p).mainThread :=
  congrArg (fun identity => identity.2.2) (keeps.process p)

section
variable (s : State n)
include s

theorem setThread (same : (f (s.threads t)).identity = (s.threads t).identity) : Keeps s (s.setThread t f) :=
  ⟨rfl, rfl, rfl, setThread_field s t Thread.identity same, fun _ => rfl⟩

variable (c : Fin n) (t : Tcb) (code : BitVec 32)

theorem setProcess (same : (f (s.procs p)).identity = (s.procs p).identity) : Keeps s (s.setProcess p f) := by
  refine ⟨rfl, rfl, rfl, fun _ => rfl, fun q => ?_⟩
  by_cases here : q = p
  · simp [State.setProcess, here, same]
  · simp only [State.setProcess, update_of_ne here]

theorem wakeupThread (chan : Nat) (t : Tcb) : Keeps s (wakeupThread s chan t) := by
  rw [Sched.wakeupThread]
  split
  · exact (setThread s rfl).trans (Marks.makeReady _ t).keeps
  · exact refl s

theorem exitProcess (t : Tcb) (code : BitVec 32) : Keeps s (exitProcess s t code) := by
  rw [Sched.exitProcess]
  split
  · exact refl s
  · exact setProcess s rfl

theorem exitThread : Keeps s (exitThread s t code) := setThread s rfl

theorem schedulerExit (visited : List Pcb) : Keeps s (schedulerExit s c code visited) := by
  have process := (exitThread s (s.current c) code).trans (exitProcess _ (s.current c) code)
  have notify := process.trans (Marks.exitNotify _ visited (s.current c)).keeps
  exact notify.trans (Marks.exitSwitch _ c).keeps

theorem schedulerReadyProcess (c : Fin n) (p : Pcb) : Keeps s (schedulerReadyProcess s c p) := by
  rw [Sched.schedulerReadyProcess]
  split
  · exact refl s
  · exact (setProcess s rfl).trans (Marks.enqueueThread _ _ _).keeps

end

end Keeps

section
variable (s : State n) (t : Tcb) (code : BitVec 32)
include s t code

theorem exitThread_stateOf : (exitThread s t code).stateOf = (s.setState t .dead).stateOf :=
  (funext (apply_update (fun _ => Thread.state) s.threads t _)).trans (setState_stateOf s t .dead).symm

@[simp] theorem exitProcess_threads : (exitProcess s t code).threads = s.threads := by
  rw [exitProcess]
  split <;> rfl

@[simp] theorem exitProcess_cpus : (exitProcess s t code).cpus = s.cpus := by
  rw [exitProcess]
  split <;> rfl

/-- A thread that ends and its process, before the parent is told. -/
theorem exitProcess_spec : let ended := exitProcess (exitThread s t code) t code
    ended.stateOf = (s.setState t .dead).stateOf ∧ ended.cpus = s.cpus ∧ Keeps s ended := by
  refine ⟨?_, exitProcess_cpus _ t code, (Keeps.exitThread s t code).trans (Keeps.exitProcess _ t code)⟩
  rw [← exitThread_stateOf s t code]
  funext u
  rw [stateOf, exitProcess_threads, stateOf]

end

end Sirius.Sched
