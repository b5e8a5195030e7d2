import Sirius.Sched.Placement
import Sirius.Support.Runs
import Mathlib.Data.List.TakeWhile

/-! What a change of thread does to the processor beside the scheduler: the stack for interrupts and
system calls, the address space, and the trap on the FPU, whose registers change hands only when
they are used. One processor is looked at. -/
namespace Sirius.Sched
open Support Function State

/-- `upper` are the upper halves of the YMM registers, `legacy` is all the rest. -/
structure Registers where
  legacy : Nat
  upper : Nat
deriving DecidableEq, Repr

/-- `stackTop` and `saved` are the fields `kernel_stack_top` and `fpu_state` of the threads, `pml4`
is the field `cr3` of the processes. -/
structure Core (n : Nat) where
  sched : State n
  stackTop : Tcb → Nat
  pml4 : Pcb → Nat
  kernelStackTop : Nat
  rsp0 : Nat
  cr3 : Nat
  ts : Bool
  fpuOwner : Option Tcb
  regs : Registers
  saved : Tcb → Registers
  avx2 : Bool

namespace Core
variable (k : Core n) (c : Fin n)

def current : Tcb := k.sched.current c

def idle : Tcb := k.sched.idle c

def ownerOf (t : Tcb) : Option Pcb := (k.sched.threads t).owner

/-- The address space is changed if the old one may be another. -/
def switchCr3 (current next : Tcb) : Nat :=
  match k.ownerOf next with
  | none => k.cr3
  | some p =>
    if k.pml4 p ≠ 0 ∧ ((k.sched.threads current).tid = 0 ∨ (k.ownerOf current).all fun q => k.pml4 q ≠ k.pml4 p) then k.pml4 p
    else k.cr3

def taskSwitch : Core n :=
  let sched := Sched.taskSwitch k.sched c
  let next := sched.current c
  { k with
    sched := sched
    cr3 := k.switchCr3 (k.current c) next
    rsp0 := k.stackTop next
    kernelStackTop := k.stackTop next
    ts := if some next ≠ k.fpuOwner then true else k.ts }

/-- There is always a current thread. -/
def schedule : Core n := k.taskSwitch c

/-- Of what `task_switch` does for the next thread only the address space is changed here. -/
def schedulerExit (code : BitVec 32) (visited : List Pcb) : Core n :=
  let sched := Sched.schedulerExit k.sched c code visited
  let next := sched.current c
  { k with
    sched := sched
    cr3 := match k.ownerOf next with
      | none => k.cr3
      | some p => if k.ownerOf (k.current c) ≠ some p then k.pml4 p else k.cr3 }

def saveFpu (regs area : Registers) : Registers := if k.avx2 then regs else { area with legacy := regs.legacy }

def restoreFpu (area regs : Registers) : Registers := if k.avx2 then area else { regs with legacy := area.legacy }

/-- In the field `exit_code`: the thread has used the FPU. -/
def fpuUsed : BitVec 32 := 0x1337FB

def UsedFpu (t : Tcb) : Prop := (k.sched.threads t).exitCode = fpuUsed

instance (t : Tcb) : Decidable (k.UsedFpu t) := inferInstanceAs (Decidable (_ = _))

/-- The owner's registers are saved, unless it is the current thread. -/
def saveOwner : Core n :=
  { k with
    saved := match k.fpuOwner with
      | some old => if old ≠ k.current c then update k.saved old (k.saveFpu k.regs (k.saved old)) else k.saved
      | none => k.saved }

/-- A thread's first use: its area is cleared and filled from the registers, of which `vzeroupper`
clears the upper halves. -/
def firstUse : Core n :=
  let regs := if k.avx2 then { k.regs with upper := 0 } else k.regs
  { k with
    regs := regs
    saved := update k.saved (k.current c) (k.saveFpu regs ⟨0, 0⟩)
    sched := k.sched.setThread (k.current c) ({ · with exitCode := fpuUsed }) }

def handleDeviceNotAvailable : Core n :=
  let k := { k with ts := false }
  let k := k.saveOwner c
  if k.fpuOwner ≠ some (k.current c) then
    let k := if k.UsedFpu (k.current c) then { k with regs := k.restoreFpu (k.saved (k.current c)) k.regs } else k.firstUse c
    { k with fpuOwner := some (k.current c) }
  else k

/-- An instruction that finds the trap set is taken up again behind the handler. -/
def trapped : Core n := if k.ts then k.handleDeviceNotAvailable c else k

def fpuInstruction (f : Registers → Registers) : Core n :=
  let k := k.trapped c
  { k with regs := f k.regs }

end Core

/-- The rest of the kernel between two steps: it makes threads and processes, wakes threads and loads
programs, and the current thread may go to sleep. -/
structure Elsewhere (c : Fin n) (k k' : Core n) : Prop where
  current : k'.current c = k.current c
  idle : k'.idle c = k.idle c
  running : (k'.sched.threads (k.current c)).identity = (k.sched.threads (k.current c)).identity
  idling : (k'.sched.threads (k.idle c)).identity = (k.sched.threads (k.idle c)).identity
  codes : ∀ t, (k'.sched.threads t).exitCode = (k.sched.threads t).exitCode
  dead : ∀ t, k.sched.stateOf t = .dead → k'.sched.stateOf t = .dead
  queue : ∀ t ∈ k'.sched.readyQueue c, k'.sched.stateOf t ≠ .dead
  stack : k'.stackTop (k.current c) = k.stackTop (k.current c)
  kernelStackTop : k'.kernelStackTop = k.kernelStackTop
  rsp0 : k'.rsp0 = k.rsp0
  spaces : ∀ p, k'.pml4 p ≠ 0
  space : ∀ p, k.ownerOf (k.current c) = some p → k.cr3 = k.pml4 p → k'.cr3 = k'.pml4 p
  ts : k'.ts = k.ts
  fpuOwner : k'.fpuOwner = k.fpuOwner
  regs : k'.regs = k.regs
  saved : k'.saved = k.saved
  avx2 : k'.avx2 = k.avx2

inductive SwitchCall (n : Nat) where
  | taskSwitch
  | schedule
  | exit (code : BitVec 32) (visited : List Pcb)
  | fpu (f : Registers → Registers)
  | other (after : Core n)

def SwitchCall.apply (c : Fin n) (call : SwitchCall n) (k : Core n) : Core n :=
  match call with
  | .taskSwitch => k.taskSwitch c
  | .schedule => k.schedule c
  | .exit code visited => k.schedulerExit c code visited
  | .fpu f => k.fpuInstruction c f
  | .other after => after

/-! ### Exits -/

/-- The end of the current thread wakes this one on the same processor. -/
def WakesOn (s : State n) (c : Fin n) (visited : List Pcb) (t : Tcb) : Prop :=
  ∃ p parent, (s.threads (s.current c)).owner = some p ∧
    visited.find? (fun q => (s.procs q).pid = (s.procs p).ppid) = some parent ∧ (s.procs parent).mainThread = some t ∧
    s.stateOf t = .blocked ∧ getCpuDataBlock n (s.threads t).cpuId = some c

/-- An exit finds no other thread to go on with. -/
structure NoneReady (s : State n) (c : Fin n) (visited : List Pcb) : Prop where
  queue : ∀ t ∈ s.readyQueue c, t = s.current c ∨ s.stateOf t = .dead
  asleep : ∀ t, ¬ WakesOn s c visited t

/-- The state in which `scheduler_exit` looks for the next thread. -/
structure Notified (s : State n) (c : Fin n) (code : BitVec 32) (visited : List Pcb) (s' : State n) : Prop where
  current : s'.current = s.current
  idle : s'.idle = s.idle
  states : ∀ t, s'.stateOf t = (s.setState (s.current c) .dead).stateOf t ∨
    t ≠ s.current c ∧ s.stateOf t = .blocked ∧ s'.stateOf t = .ready
  members : ∀ t ∈ s'.readyQueue c, t ∈ s.readyQueue c ∨ t ≠ s.current c ∧ WakesOn s c visited t
  codes : ∀ t, (s'.threads t).exitCode = if t = s.current c then code else (s.threads t).exitCode

theorem schedulerExit_notified (s : State n) (c : Fin n) (code : BitVec 32) (visited : List Pcb) :
    ∃ s', schedulerExit s c code visited = exitSwitch s' c ∧ Notified s c code visited s' := by
  obtain ⟨states, cpus, keeps⟩ := exitProcess_spec s (s.current c) code
  have codes : ∀ t, ((exitProcess (exitThread s (s.current c) code) (s.current c) code).threads t).exitCode =
      if t = s.current c then code else (s.threads t).exitCode := by
    intro t
    rw [exitProcess_threads, exitThread, setThread_threads, update_apply]
    split <;> rfl
  rw [schedulerExit]
  generalize exitProcess (exitThread s (s.current c) code) (s.current c) code = ended at states cpus keeps codes
  obtain ⟨current, idle, queue⟩ := same_places cpus
  refine ⟨_, rfl, ?_⟩
  have quiet : Notified s c code visited ended :=
    ⟨current, idle, fun t => .inl (congrFun states t), fun t queued => .inl (queue ▸ queued), codes⟩
  cases owned : (ended.threads (s.current c)).owner with
  | none =>
    rw [exitNotify, owned]
    exact quiet
  | some p =>
    rcases exitNotify_cases ended visited owned with ⟨same, -⟩ | ⟨parent, u, found, main, blocked, result⟩
    · rw [same]
      exact quiet
    have effect := enqueueThread_readied ended (getCpuDataBlock n (ended.threads u).cpuId) u
    have other : u ≠ s.current c := by
      rintro rfl
      rw [states, setState_stateOf_self] at blocked
      cases blocked
    have before : s.stateOf u = .blocked := by rwa [states, setState_stateOf_of_ne s _ _ other] at blocked
    rw [result]
    refine ⟨effect.current.trans current, effect.idle.trans idle, fun t => ?_, fun t queued => ?_, fun t => ?_⟩
    · by_cases here : t = u
      · exact .inr ⟨here ▸ other, here ▸ before, here ▸ effect.self⟩
      · exact .inl ((effect.others t here).trans (congrFun states t))
    · rcases mem_makeReady.mp queued with old | ⟨rfl, cpu⟩
      · exact .inl (queue ▸ old)
      · simp only [keeps.pid, keeps.ppid] at found
        refine .inr ⟨other, p, parent, keeps.owner _ ▸ owned, found, keeps.mainThread _ ▸ main, before, ?_⟩
        rw [← keeps.cpuId]
        exact cpu
    · rw [makeReady, enqueueThread_threads]
      exact (setState_field ended u .ready Thread.exitCode rfl t).trans (codes t)

theorem exitSwitch_idle {s : State n} (none : ∀ t ∈ s.readyQueue c, t = s.current c ∨ s.stateOf t = .dead) :
    (exitSwitch s c).current c = s.idle c := by
  have skipped : exitSkip s (s.current c) (s.readyQueue c) = [] := by
    rw [exitSkip, List.dropWhile_eq_nil_iff]
    exact fun t queued => decide_eq_true (none t queued)
  rw [exitSwitch, dispatch_current, update_self, skipped]
  exact congrFun (withQueue_idle s c []) c

theorem NoneReady.idle {s : State n} (none : NoneReady s c visited) (code : BitVec 32) :
    (schedulerExit s c code visited).current c = s.idle c := by
  obtain ⟨s', result, notified⟩ := schedulerExit_notified s c code visited
  rw [result, exitSwitch_idle, notified.idle]
  intro t queued
  rw [notified.current]
  rcases notified.members t queued with old | ⟨-, woken⟩
  · rcases none.queue t old with same | dead
    · exact .inl same
    rcases notified.states t with kept | ⟨-, blocked, -⟩
    · by_cases here : t = s.current c
      · exact .inl here
      · exact .inr (by rw [kept, setState_stateOf_of_ne s _ _ here, dead])
    · cases dead.symm.trans blocked
  · exact absurd woken (none.asleep t)

/-! ### The trap -/

section Trap
variable (k : Core n) (c : Fin n)

/-- What the handler leaves alone: the scheduler but for the exit code of the current thread, and
all of the processor but for the FPU. -/
structure FpuOnly (k k' : Core n) (t : Tcb) : Prop where
  cpus : k'.sched.cpus = k.sched.cpus
  threads : ∀ u, (k'.sched.threads u).identity = (k.sched.threads u).identity
  states : k'.sched.stateOf = k.sched.stateOf
  codes : ∀ u, u ≠ t → (k'.sched.threads u).exitCode = (k.sched.threads u).exitCode
  stackTop : k'.stackTop = k.stackTop
  pml4 : k'.pml4 = k.pml4
  kernelStackTop : k'.kernelStackTop = k.kernelStackTop
  rsp0 : k'.rsp0 = k.rsp0
  cr3 : k'.cr3 = k.cr3
  avx2 : k'.avx2 = k.avx2

theorem Core.firstUse_fpuOnly : FpuOnly k (k.firstUse c) (k.current c) where
  cpus := rfl
  threads := setThread_field k.sched (k.current c) (f := ({ · with exitCode := fpuUsed })) Thread.identity rfl
  states := funext (setThread_field k.sched (k.current c) (f := ({ · with exitCode := fpuUsed })) Thread.state rfl)
  codes := by
    intro u other
    rw [firstUse, setThread_threads, update_of_ne other]
  stackTop := rfl
  pml4 := rfl
  kernelStackTop := rfl
  rsp0 := rfl
  cr3 := rfl
  avx2 := rfl

/-- The handler finds the current thread the owner, or saves the owner's registers and gives the FPU
to the current thread. -/
theorem Core.handleDeviceNotAvailable_cases :
    (k.fpuOwner = some (k.current c) ∧ k.handleDeviceNotAvailable c = { k with ts := false }) ∨
      (k.fpuOwner ≠ some (k.current c) ∧ k.UsedFpu (k.current c) ∧ k.handleDeviceNotAvailable c =
        { k with
          ts := false
          fpuOwner := some (k.current c)
          saved := (k.saveOwner c).saved
          regs := k.restoreFpu ((k.saveOwner c).saved (k.current c)) k.regs }) ∨
      (k.fpuOwner ≠ some (k.current c) ∧ ¬ k.UsedFpu (k.current c) ∧ k.handleDeviceNotAvailable c =
        { (k.saveOwner c).firstUse c with ts := false, fpuOwner := some (k.current c) }) := by
  by_cases owner : k.fpuOwner = some (k.current c)
  · refine .inl ⟨owner, (if_neg (not_not.mpr owner)).trans ?_⟩
    have same : (k.saveOwner c).saved = k.saved := by
      rw [saveOwner, owner]
      exact if_neg (not_not.mpr rfl)
    exact congrArg (fun saved => { k with ts := false, saved := saved }) same
  · refine .inr ?_
    by_cases used : k.UsedFpu (k.current c)
    · refine .inl ⟨owner, used, (if_pos owner).trans ?_⟩
      exact congrArg (fun k' : Core n => { k' with fpuOwner := some (k'.current c) }) (if_pos used)
    · refine .inr ⟨owner, used, (if_pos owner).trans ?_⟩
      exact congrArg (fun k' : Core n => { k' with fpuOwner := some (k'.current c) }) (if_neg used)

theorem Core.handleDeviceNotAvailable_fpuOnly : FpuOnly k (k.handleDeviceNotAvailable c) (k.current c) := by
  rcases k.handleDeviceNotAvailable_cases c with ⟨-, result⟩ | ⟨-, -, result⟩ | ⟨-, -, result⟩
  · rw [result]
    exact ⟨rfl, fun _ => rfl, rfl, fun _ _ => rfl, rfl, rfl, rfl, rfl, rfl, rfl⟩
  · rw [result]
    exact ⟨rfl, fun _ => rfl, rfl, fun _ _ => rfl, rfl, rfl, rfl, rfl, rfl, rfl⟩
  · rw [result]
    exact { (k.saveOwner c).firstUse_fpuOnly c with }

theorem Core.fpuInstruction_fpuOnly (f : Registers → Registers) : FpuOnly k (k.fpuInstruction c f) (k.current c) := by
  rw [fpuInstruction, trapped]
  split
  · exact { k.handleDeviceNotAvailable_fpuOnly c with }
  · exact ⟨rfl, fun _ => rfl, rfl, fun _ _ => rfl, rfl, rfl, rfl, rfl, rfl, rfl⟩

/-- Behind the trap the current thread owns the FPU. -/
theorem Core.fpuInstruction_owner (f : Registers → Registers) :
    k.ts = true ∧ (k.fpuInstruction c f).ts = false ∧ (k.fpuInstruction c f).fpuOwner = some (k.current c) ∨
      k.ts = false ∧ (k.fpuInstruction c f).ts = false ∧ (k.fpuInstruction c f).fpuOwner = k.fpuOwner := by
  rw [fpuInstruction, trapped]
  cases set : k.ts with
  | true =>
    refine .inl ⟨rfl, ?_⟩
    rcases k.handleDeviceNotAvailable_cases c with ⟨owner, result⟩ | ⟨-, -, result⟩ | ⟨-, -, result⟩
    · rw [result]
      exact ⟨rfl, owner⟩
    all_goals
      rw [result]
      exact ⟨rfl, rfl⟩
  | false => exact .inr ⟨rfl, set, rfl⟩

end Trap

/-! ### What is installed -/

/-- The processor is set up for its current thread. The idle task needs nothing. -/
structure Installed (c : Fin n) (k : Core n) : Prop where
  kernelStackTop : k.current c ≠ k.idle c → k.kernelStackTop = k.stackTop (k.current c)
  rsp0 : k.current c ≠ k.idle c → k.rsp0 = k.stackTop (k.current c)
  cr3 : k.current c ≠ k.idle c → ∀ p, k.ownerOf (k.current c) = some p → k.cr3 = k.pml4 p
  ts : k.current c ≠ k.idle c → k.ts = true ∨ k.fpuOwner = some (k.current c)

structure SwitchInv (c : Fin n) (k : Core n) : Prop extends Installed c k where
  idleTid : (k.sched.threads (k.idle c)).tid = 0
  spaces : ∀ p, k.pml4 p ≠ 0

/-- No thread is left waiting for a processor that another one exits on. -/
def SwitchCall.Quiet (c : Fin n) (call : SwitchCall n) (k : Core n) : Prop :=
  match call with
  | .exit _ visited => NoneReady k.sched c visited
  | .other after => Elsewhere c k after
  | _ => True

theorem Keeps.tid (keeps : Keeps a b) (t : Tcb) : (b.threads t).tid = (a.threads t).tid :=
  congrArg (fun identity => identity.1) (keeps.thread t)

namespace SwitchInv
variable {k : Core n}

section
variable (inv : SwitchInv c k)
include inv

theorem taskSwitch : SwitchInv c (k.taskSwitch c) := by
  have keeps := (Marks.taskSwitch k.sched c).keeps
  have idle : (k.taskSwitch c).idle c = k.idle c := congrFun (taskSwitch_switched k.sched c).idle c
  refine ⟨⟨fun _ => rfl, fun _ => rfl, fun _ p owned => ?_, fun _ => ?_⟩, ?_, inv.spaces⟩
  · have owned' : k.ownerOf ((Sched.taskSwitch k.sched c).current c) = some p := (keeps.owner _).symm.trans owned
    change k.switchCr3 (k.current c) ((Sched.taskSwitch k.sched c).current c) = k.pml4 p
    rw [Core.switchCr3, owned']
    dsimp only
    split
    next => rfl
    next same =>
      simp only [not_and, not_or] at same
      obtain ⟨user, shared⟩ := same (inv.spaces p)
      have busy : k.current c ≠ k.idle c := fun same => user (same ▸ inv.idleTid)
      cases before : k.ownerOf (k.current c) with
      | none => simp [before] at shared
      | some q =>
        simp only [before, Option.all_some, decide_eq_true_eq, not_not] at shared
        exact (inv.cr3 busy q before).trans shared
  · by_cases owner : some ((Sched.taskSwitch k.sched c).current c) = k.fpuOwner
    · exact .inr owner.symm
    · exact .inl (if_pos owner)
  · rw [idle]
    exact (keeps.tid _).trans inv.idleTid

theorem schedulerExit (none : NoneReady k.sched c visited) (code : BitVec 32) :
    SwitchInv c (k.schedulerExit c code visited) := by
  have keeps := Keeps.schedulerExit k.sched c code visited
  have idle : (k.schedulerExit c code visited).idle c = k.idle c := by
    obtain ⟨s', result, notified⟩ := schedulerExit_notified k.sched c code visited
    exact (congrArg (idle · c) result).trans (congrFun ((exitSwitch_switched s' c).idle.trans notified.idle) c)
  have idling := (none.idle code).trans idle.symm
  refine ⟨⟨absurd idling, absurd idling, absurd idling, absurd idling⟩, ?_, inv.spaces⟩
  rw [idle]
  exact (keeps.tid _).trans inv.idleTid

theorem elsewhere (step : Elsewhere c k k') : SwitchInv c k' := by
  have identity := step.running
  refine ⟨⟨?_, ?_, ?_, ?_⟩, ?_, step.spaces⟩
  all_goals try rw [step.current, step.idle]
  · rw [step.kernelStackTop, step.stack]
    exact inv.kernelStackTop
  · rw [step.rsp0, step.stack]
    exact inv.rsp0
  · intro busy p owned
    have before : k.ownerOf (k.current c) = some p := (congrArg (fun identity => identity.2.2) identity).symm.trans owned
    exact step.space p before (inv.cr3 busy p before)
  · rw [step.ts, step.fpuOwner]
    exact inv.ts
  · rw [step.idle]
    exact (congrArg (fun identity => identity.1) step.idling).trans inv.idleTid

theorem fpuInstruction (f : Registers → Registers) : SwitchInv c (k.fpuInstruction c f) := by
  have only := k.fpuInstruction_fpuOnly c f
  obtain ⟨currents, idles, -⟩ := same_places only.cpus
  have current : (k.fpuInstruction c f).current c = k.current c := congrFun currents c
  have idle : (k.fpuInstruction c f).idle c = k.idle c := congrFun idles c
  refine ⟨⟨?_, ?_, ?_, ?_⟩, ?_, only.pml4 ▸ inv.spaces⟩
  all_goals rw [idle]
  all_goals try rw [current]
  · rw [only.kernelStackTop, only.stackTop]
    exact inv.kernelStackTop
  · rw [only.rsp0, only.stackTop]
    exact inv.rsp0
  · intro busy p owned
    rw [only.cr3, only.pml4]
    exact inv.cr3 busy p ((congrArg (fun identity => identity.2.2) (only.threads _)).symm.trans owned)
  · intro busy
    rcases k.fpuInstruction_owner c f with ⟨-, -, owner⟩ | ⟨clear, -, owner⟩
    · exact .inr owner
    · rcases inv.ts busy with set | owned
      · cases clear.symm.trans set
      · exact .inr (owner.trans owned)
  · exact (congrArg (fun identity => identity.1) (only.threads _)).trans inv.idleTid

theorem apply (call : SwitchCall n) (quiet : call.Quiet c k) : SwitchInv c (call.apply c k) := by
  cases call with
  | taskSwitch | schedule => exact inv.taskSwitch
  | exit code visited => exact inv.schedulerExit quiet code
  | fpu f => exact inv.fpuInstruction f
  | other after => exact inv.elsewhere quiet

end

end SwitchInv

/-- While no thread exits on a processor that others wait for, the processor is set up for the thread
it runs. -/
theorem switches_install_the_thread (c : Fin n) (k : Core n) (start : SwitchInv c k) (calls : List (SwitchCall n))
    (quiet : AllMeet (SwitchCall.apply c) (SwitchCall.Quiet c) calls k) :
    Installed c (runAll (SwitchCall.apply c) calls k) :=
  (quiet.preserves start fun call _ meets inv => inv.apply call meets).toInstalled

def twoReady : Core 1 where
  sched :=
    { threads := fun t => ⟨BitVec.ofNat 32 t, if t = 0 then .running else .ready, 0, none, 0, if t = 0 then none else some t⟩
      procs := fun p => ⟨BitVec.ofNat 32 p, 0, .running, some p, 0, 0⟩
      cpus := fun _ => ⟨0, 0, [1, 2]⟩
      list := ⟨none, fun _ => none⟩
      nextTid := 3
      nextPid := 3
      tcbs := [0, 1, 2]
      pcbs := [1, 2] }
  stackTop := fun t => 0x1000 * (t + 1)
  pml4 := fun p => 0x100000 * (p + 1)
  kernelStackTop := 0x1000
  rsp0 := 0x1000
  cr3 := 0x100000
  ts := true
  fpuOwner := none
  regs := ⟨0, 0⟩
  saved := fun _ => ⟨0, 0⟩
  avx2 := true

theorem twoReady_inv : SwitchInv 0 twoReady :=
  ⟨⟨absurd rfl, absurd rfl, absurd rfl, absurd rfl⟩, rfl, fun p => Nat.mul_ne_zero (by decide) p.succ_ne_zero⟩

/-- Both threads get the processor. -/
theorem switches_install_the_thread_twice :
    (runAll (SwitchCall.apply 0) [.taskSwitch, .schedule] twoReady).current 0 = 2 ∧
      Installed 0 (runAll (SwitchCall.apply 0) [.taskSwitch, .schedule] twoReady) :=
  ⟨by decide, switches_install_the_thread 0 twoReady twoReady_inv _ ⟨trivial, trivial, trivial⟩⟩

/-- The first thread exits while the second waits, which then runs on the stack of the first. -/
theorem exit_leaves_the_stack_of_the_exiting_thread :
    SwitchInv 0 twoReady ∧ (runAll (SwitchCall.apply 0) [.taskSwitch, .exit 0 []] twoReady).current 0 = 2 ∧
      (runAll (SwitchCall.apply 0) [.taskSwitch, .exit 0 []] twoReady).idle 0 = 0 ∧
      (runAll (SwitchCall.apply 0) [.taskSwitch, .exit 0 []] twoReady).kernelStackTop = twoReady.stackTop 1 ∧
      ¬ Installed 0 (runAll (SwitchCall.apply 0) [.taskSwitch, .exit 0 []] twoReady) := by
  refine ⟨twoReady_inv, by decide, by decide, by decide, fun installed => ?_⟩
  exact absurd (installed.kernelStackTop (by decide)) (by decide)

end Sirius.Sched
