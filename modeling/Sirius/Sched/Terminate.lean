import Sirius.Sched.Placement
import Sirius.Support.Runs

/-! A process that has ended does not run again, as long as no process ends while another
of its threads lives, and nobody sends a signal to a process that has been collected. -/
namespace Sirius.Sched
open Support Relation Option State

def Terminated (s : State n) (p : Pcb) : Prop := (s.procs p).state = .zombie ∨ (s.procs p).state = .dead

theorem terminated_setProcess_self (s : State n) (p : Pcb) (f : Process → Process) :
    Terminated (s.setProcess p f) p ↔ (f (s.procs p)).state = .zombie ∨ (f (s.procs p)).state = .dead := by
  rw [Terminated, setProcess_procs, Function.update_self]

theorem terminated_setProcess_of_ne (s : State n) (f : Process → Process) (other : q ≠ p) :
    Terminated (s.setProcess p f) q ↔ Terminated s q := by
  rw [Terminated, setProcess_procs, Function.update_of_ne other, Terminated]

inductive LifeCall (n : Nat) where
  | clone (c : Fin n) (flags : BitVec 32) (grants : Grants)
  | exit (c : Fin n) (code : BitVec 32) (visited : List Pcb)
  | kill (c : Fin n) (pid : BitVec 32) (sig : Int) (visited : List Pcb)
  | waitpid (c : Fin n) (pid : BitVec 32) (visited : List Pcb)
  | taskSwitch (c : Fin n)

/-- Calls are made by threads other than the idle task; a walk goes along the list; blocks
are fresh. -/
def LifeCall.Possible (call : LifeCall n) (s : State n) : Prop :=
  match call with
  | .clone c _ grants =>
    s.current c ≠ s.idle c ∧ (∀ t, grants.tcb = some t → t ∉ s.tcbs) ∧ ∀ p, grants.pcb = some p → p ∉ s.pcbs
  | .exit c _ visited => s.current c ≠ s.idle c ∧ ∃ stop, Visits s.list.next s.list.head visited stop
  | .kill c _ _ visited => s.current c ≠ s.idle c ∧ ∃ stop, Visits s.list.next s.list.head visited stop
  | .waitpid c _ visited => s.current c ≠ s.idle c ∧ ∃ stop, Visits s.list.next s.list.head visited stop
  | .taskSwitch _ => True

def LifeCall.apply (call : LifeCall n) (s : State n) : State n :=
  match call with
  | .clone c flags grants => Sched.clone s c flags grants
  | .exit c code visited => schedulerExit s c code visited
  | .kill c pid sig visited => (sysKill s c pid sig visited).2
  | .waitpid c pid visited => sysWaitpidRound s c pid visited
  | .taskSwitch c => Sched.taskSwitch s c

/-- A process ends with its last thread; a signal goes to no process that has been
collected. -/
def LifeCall.Clean (call : LifeCall n) (s : State n) : Prop :=
  match call with
  | .exit c _ _ => ∀ p, (s.threads (s.current c)).owner = some p →
      ∀ t ∈ s.tcbs, t ≠ s.current c → (s.threads t).owner = some p → s.stateOf t = .dead
  | .kill _ pid sig visited => 1 ≤ sig → sig ≤ maxSignals →
      ∀ p, processFindByPid s visited pid = some p → (s.procs p).state ≠ .dead
  | _ => True

def LifeStep (before after : State n) : Prop :=
  ∃ call : LifeCall n, call.Possible before ∧ after = call.apply before

def CleanLifeStep (before after : State n) : Prop :=
  ∃ call : LifeCall n, call.Possible before ∧ call.Clean before ∧ after = call.apply before

/-- The threads of processes that have ended are dead. In the middle of a call the thread
of one processor may be anything; all others run. -/
structure LifeInv (s : State n) (busy : Option (Fin n)) : Prop where
  placed : Placed s
  running : ∀ c, busy ≠ some c → s.stateOf (s.current c) = .running
  idleOwner : ∀ c, (s.threads (s.idle c)).owner = none
  mains : ∀ p t, (s.procs p).mainThread = some t → (s.threads t).owner = some p ∧ t ∈ s.tcbs
  known : Known s
  ended : ∀ p t, Terminated s p → (s.threads t).owner = some p → t ∈ s.tcbs → s.stateOf t = .dead

/-- What has ended stays so. -/
structure Lasts (s s' : State n) : Prop where
  pcbs : ∀ p ∈ s.pcbs, p ∈ s'.pcbs
  terminated : ∀ p ∈ s.pcbs, Terminated s p → Terminated s' p

theorem Lasts.of_procs (pcbs : s'.pcbs = s.pcbs) (procs : ∀ p, Terminated s p → Terminated s' p) : Lasts s s' :=
  ⟨fun _ listed => pcbs ▸ listed, fun p _ => procs p⟩

theorem Lasts.refl (s : State n) : Lasts s s := .of_procs rfl fun _ gone => gone

theorem Lasts.trans (first : Lasts a b) (second : Lasts b c) : Lasts a c where
  pcbs := fun p listed => second.pcbs p (first.pcbs p listed)
  terminated := fun p listed gone => second.terminated p (first.pcbs p listed) (first.terminated p listed gone)

namespace LifeInv
variable {s s' : State n} {busy : Option (Fin n)}

section
variable (inv : LifeInv s busy)
include inv

theorem mains_of_keeps (keeps : Keeps s s') :
    ∀ p t, (s'.procs p).mainThread = some t → (s'.threads t).owner = some p ∧ t ∈ s'.tcbs := by
  intro p t main
  rw [keeps.mainThread] at main
  rw [keeps.owner, keeps.tcbs]
  exact inv.mains p t main

theorem switched (placed : Placed s') (marks : Marks s s') (step : Switched s s' c)
    (only : ∀ d, busy = some d → d = c) : LifeInv s' none := by
  have keeps := marks.keeps
  refine ⟨placed, fun d _ => ?_, fun d => ?_, inv.mains_of_keeps keeps, inv.known.switched step, fun p t gone owned listed => ?_⟩
  · by_cases here : d = c
    · exact here ▸ step.running
    · rw [step.elsewhere inv.placed placed here]
      exact inv.running d fun same => here (only d same)
  · rw [step.idle, keeps.owner]
    exact inv.idleOwner d
  · rw [Terminated, marks.procs] at gone
    rw [keeps.owner] at owned
    have dead := inv.ended p t gone owned (keeps.tcbs ▸ listed)
    by_cases here : t = s'.current c
    · exfalso
      rcases step.chosen with queued | ⟨same, alive⟩ | idle
      · cases (inv.placed.ready (here ▸ queued)).symm.trans dead
      · rw [here, same] at dead
        rcases alive with running | ready
        · cases running.symm.trans dead
        · cases ready.symm.trans dead
      · rw [here, idle, inv.idleOwner] at owned
        cases owned
    · rcases step.states t here with same | ⟨-, running, -⟩
      · exact same.trans dead
      · cases running.symm.trans dead

theorem readied (placed : Placed s') (keeps : Keeps s s') (effect : Readied s s' t)
    (procs : ∀ p, Terminated s' p → Terminated s p) (alive : ∀ p, (s.threads t).owner = some p → ¬ Terminated s p)
    (away : ∀ c, s.current c ≠ t) (listed : t ∈ s.tcbs) : LifeInv s' busy := by
  refine ⟨placed, fun c other => ?_, fun c => ?_, inv.mains_of_keeps keeps, inv.known.readied effect listed,
    fun p u gone owned there => ?_⟩
  · rw [effect.current, effect.others _ (away c)]
    exact inv.running c other
  · rw [effect.idle, keeps.owner]
    exact inv.idleOwner c
  rw [keeps.owner] at owned
  have other : u ≠ t := by
    rintro rfl
    exact alive p owned (procs p gone)
  rw [effect.others u other]
  exact inv.ended p u (procs p gone) owned (keeps.tcbs ▸ there)

/-- Threads are where they were and as they were; what has changed is in the processes. -/
theorem of_procs (states : s'.stateOf = s.stateOf) (threads : ∀ t, (s'.threads t).identity = (s.threads t).identity)
    (cpus : s'.cpus = s.cpus) (tcbs : s'.tcbs = s.tcbs)
    (mains : ∀ p t, (s'.procs p).mainThread = some t → (s.procs p).mainThread = some t)
    (ended : ∀ p t, Terminated s' p → (s.threads t).owner = some p → t ∈ s.tcbs → s.stateOf t = .dead) : LifeInv s' busy := by
  obtain ⟨current, idle, queue⟩ := same_places cpus
  have owner : ∀ t, (s'.threads t).owner = (s.threads t).owner := fun t => congrArg (fun identity => identity.2.2) (threads t)
  refine ⟨inv.placed.of_same states (fun t => congrArg Prod.fst (threads t)) cpus, fun c other => ?_, fun c => ?_,
    fun p t main => ?_, fun c => ?_, fun p t gone owned there => ?_⟩
  · rw [current, states]
    exact inv.running c other
  · rw [idle, owner]
    exact inv.idleOwner c
  · rw [owner, tcbs]
    exact inv.mains p t (mains p t main)
  · rw [current, idle, queue, tcbs]
    exact inv.known c
  · rw [states]
    exact ended p t gone (owner t ▸ owned) (tcbs ▸ there)

/-- A process changes, but does not end. -/
theorem setProcess (same : (f (s.procs p)).identity = (s.procs p).identity)
    (alive : Terminated (s.setProcess p f) p ↔ Terminated s p) :
    LifeInv (s.setProcess p f) busy ∧ Lasts s (s.setProcess p f) := by
  have keeps := Keeps.setProcess s same
  have ended : ∀ q, Terminated (s.setProcess p f) q ↔ Terminated s q := by
    intro q
    by_cases here : q = p
    · exact here ▸ alive
    · exact terminated_setProcess_of_ne s f here
  refine ⟨inv.of_procs rfl (fun _ => rfl) rfl rfl (fun q t main => keeps.mainThread q ▸ main) fun q t gone => ?_,
    .of_procs rfl fun q => (ended q).mpr⟩
  exact inv.ended q t ((ended q).mp gone)

theorem joined (step : Joined s s' t) (fresh : t ∉ s.tcbs) (owned : (s'.threads t).owner = some owner)
    (alive : ¬ Terminated s' owner) (procs : ∀ p, p ≠ owner → s'.procs p = s.procs p)
    (main : ∀ u, (s'.procs owner).mainThread = some u → (s.procs owner).mainThread = some u ∨ u = t) : LifeInv s' busy := by
  refine ⟨step.placed, fun c other => ?_, fun c => ?_, fun p u first => ?_, step.known, fun p u gone owns there => ?_⟩
  · rw [step.current, step.states (step.notCurrent c)]
    exact inv.running c other
  · rw [step.idle, step.others _ (step.notIdle c)]
    exact inv.idleOwner c
  · have known : (s.procs p).mainThread = some u → (s'.threads u).owner = some p ∧ u ∈ s'.tcbs := by
      intro before
      obtain ⟨owns, there⟩ := inv.mains p u before
      rw [step.others u fun same => fresh (same ▸ there), step.tcbs]
      exact ⟨owns, List.mem_cons_of_mem _ there⟩
    by_cases here : p = owner
    · subst here
      rcases main u first with before | rfl
      · exact known before
      · rw [step.tcbs]
        exact ⟨owned, List.mem_cons_self⟩
    · rw [procs p here] at first
      exact known first
  · have other : p ≠ owner := by
      rintro rfl
      exact alive gone
    rw [Terminated, procs p other] at gone
    have old : u ≠ t := by
      rintro rfl
      exact other (some.inj (owns.symm.trans owned))
    rw [step.tcbs, List.mem_cons] at there
    rw [step.states old]
    exact inv.ended p u gone (step.others u old ▸ owns) (there.resolve_left old)

theorem busy_of_owned (owned : (s.threads t).owner = some p) (c : Fin n) : t ≠ s.idle c := by
  rintro rfl
  rw [inv.idleOwner] at owned
  cases owned

theorem current_alive (running : s.stateOf (s.current c) = .running) (owned : (s.threads (s.current c)).owner = some p) :
    ¬ Terminated s p := by
  intro gone
  cases running.symm.trans (inv.ended p _ gone owned (inv.known c).1)

theorem taskSwitch (c : Fin n) (only : ∀ d, busy = some d → d = c) :
    LifeInv (taskSwitch s c) none ∧ Lasts s (taskSwitch s c) := by
  have marks := Marks.taskSwitch s c
  refine ⟨inv.switched (inv.placed.taskSwitch c) marks (taskSwitch_switched s c) only, .of_procs marks.pcbs fun p gone => ?_⟩
  rwa [Terminated, marks.procs]

end

/-- The thread of a processor stops running, and so it may be anything but queued. -/
theorem stop (inv : LifeInv s none) (c : Fin n) (state : ThreadState) : LifeInv (s.setState (s.current c) state) (some c) := by
  have running := inv.running c nofun
  have out := inv.placed.unqueued (by rw [running]; nofun)
  have keeps := (Marks.setState s (s.current c) state).keeps
  refine ⟨inv.placed.setState out state, fun d other => ?_, fun d => ?_, inv.mains_of_keeps keeps, inv.known,
    fun p t gone owned there => ?_⟩
  · have apart : s.current d ≠ s.current c := fun same => other (congrArg some (inv.placed.alone same).symm)
    rw [setState_current, setState_stateOf_of_ne s _ _ apart]
    exact inv.running d nofun
  · rw [setState_idle, keeps.owner]
    exact inv.idleOwner d
  rw [keeps.owner] at owned
  have dead := inv.ended p t gone owned there
  have apart : t ≠ s.current c := by
    rintro rfl
    cases running.symm.trans dead
  rw [setState_stateOf_of_ne s _ _ apart]
  exact dead

theorem clone (inv : LifeInv s none) (freshThread : ∀ t, grants.tcb = some t → t ∉ s.tcbs)
    (fresh : ∀ p, grants.pcb = some p → p ∉ s.pcbs) (c : Fin n) (flags : BitVec 32) :
    LifeInv (clone s c flags grants) none ∧ Lasts s (clone s c flags grants) := by
  rcases clone_cases s c flags grants with failed | ⟨t, owner, made, new, result⟩
  · have states : (Sched.clone s c flags grants).stateOf = s.stateOf :=
      funext fun t => congrArg (fun threads => (threads t).state) failed.threads
    refine ⟨inv.of_procs states (fun t => by rw [failed.threads]) failed.cpus failed.tcbs (fun p t main => ?_)
      (fun p t gone => inv.ended p t ?_), fun p listed => failed.pcbs ▸ listed, fun p listed gone => ?_⟩
    · rcases failed.procs p with same | ⟨-, -, unset⟩
      · exact same ▸ main
      · rw [unset] at main
        cases main
    · rcases failed.procs p with same | ⟨-, embryo, -⟩
      · rwa [Terminated, same] at gone
      · rw [Terminated, embryo] at gone
        exact gone.elim nofun nofun
    · rcases failed.procs p with same | ⟨given, -⟩
      · rwa [Terminated, same]
      · exact absurd listed (fresh p given)
  · have unknown := freshThread t new.granted
    have step := enqueueThread_joined inv.placed inv.known unknown c new.ready new.others new.cpus new.tcbs
    rw [result]
    rcases new.process with ⟨ours, procs, pcbs⟩ | ⟨given, procs, ready, main, pcbs⟩
    · refine ⟨inv.joined step unknown new.owned ?_ (fun p _ => congrFun procs p) fun u first => .inl (procs ▸ first),
        .of_procs pcbs fun p gone => ?_⟩
      · rw [Terminated, (Marks.enqueueThread ..).procs, procs]
        exact inv.current_alive (inv.running c nofun) ours
      · rwa [Terminated, (Marks.enqueueThread ..).procs, procs]
    · refine ⟨inv.joined step unknown new.owned ?_ procs fun u first => .inr (some.inj (first.symm.trans main)),
        fun p listed => show p ∈ made.pcbs from pcbs ▸ List.mem_cons_of_mem _ listed, fun p listed gone => ?_⟩
      · rw [Terminated, (Marks.enqueueThread ..).procs, ready]
        exact fun gone => gone.elim nofun nofun
      · rwa [Terminated, (Marks.enqueueThread ..).procs, procs p fun same => fresh owner given (same ▸ listed)]

/-- A sleeping thread of a process that has not ended. -/
theorem schedulerReadyThread (inv : LifeInv s none) (notReady : s.stateOf t ≠ .ready) (notRunning : s.stateOf t ≠ .running)
    (owned : (s.threads t).owner = some p) (alive : ¬ Terminated s p) (there : t ∈ s.tcbs) (here : Fin n) :
    LifeInv (schedulerReadyThread s here t) none ∧ Lasts s (schedulerReadyThread s here t) := by
  have away : ∀ c, s.current c ≠ t := by
    rintro c rfl
    exact notRunning (inv.running c nofun)
  have out := inv.placed.unqueued notReady
  rw [Sched.schedulerReadyThread]
  generalize (getCpuDataBlock n ((s.setState t .ready).threads t).cpuId).getD here = cpu
  have placed := (inv.placed.setState out .ready).enqueue out (setState_stateOf_self s t _) (inv.busy_of_owned owned)
    (c := cpu) fun c same => absurd same (away c)
  have keeps := ((Marks.setState s t .ready).trans (Marks.enqueueThread _ (some cpu) t)).keeps
  have queued : LifeInv (enqueueThread (s.setState t .ready) (some cpu) t) none := by
    refine inv.readied placed keeps (enqueueThread_readied s (some cpu) t) (fun q gone => gone) (fun q owns gone => ?_) away there
    cases owned.symm.trans owns
    exact alive gone
  have lasts : Lasts s (enqueueThread (s.setState t .ready) (some cpu) t) := .of_procs rfl fun p gone => gone
  split
  · exact ⟨queued, lasts⟩
  split
  next embryo =>
    refine (queued.setProcess rfl ?_).imp_right lasts.trans
    rw [terminated_setProcess_self, Terminated, embryo]
    exact ⟨fun gone => gone.elim nofun nofun, fun gone => gone.elim nofun nofun⟩
  next => exact ⟨queued, lasts⟩

theorem sysKill (inv : LifeInv s none) (here : Fin n)
    (clean : 1 ≤ sig → sig ≤ maxSignals → ∀ p, processFindByPid s visited pid = some p → (s.procs p).state ≠ .dead) :
    LifeInv (sysKill s here pid sig visited).2 none ∧ Lasts s (sysKill s here pid sig visited).2 := by
  have still : LifeInv s none ∧ Lasts s s := ⟨inv, .refl s⟩
  rw [Sched.sysKill]
  split
  · exact still
  next range =>
    obtain ⟨low, high⟩ := not_or.mp range
    split
    · exact still
    next target found =>
      split
      · exact still
      next notZombie =>
        have alive := not_or.mpr ⟨notZombie, clean (not_lt.mp low) (not_lt.mp high) target found⟩
        generalize BitVec.ofNat 32 (1 <<< (sig - 1).toNat) = bit
        have same := terminated_setProcess_self s target
          (fun proc => { proc with pendingSignals := proc.pendingSignals ||| bit })
        have signalled := inv.setProcess rfl same
        dsimp only
        split
        · exact signalled
        next t main =>
          obtain ⟨owned, there⟩ := signalled.1.mains target t main
          split
          next asleep =>
            exact (signalled.1.schedulerReadyThread asleep.1 asleep.2 owned (fun gone => alive (same.mp gone)) there
              here).imp_right signalled.2.trans
          next => exact signalled

/-- A parent that is found blocked is asleep, and its process has not ended. -/
theorem exitNotify (inv : LifeInv s (some c)) (dead : s.stateOf (s.current c) = .dead) (visited : List Pcb) (t : Tcb) :
    LifeInv (exitNotify s visited t) (some c) := by
  cases owner : (s.threads t).owner with
  | none =>
    rw [Sched.exitNotify, owner]
    exact inv
  | some x =>
    rcases exitNotify_cases s visited owner with ⟨same, -⟩ | ⟨parent, u, -, main, blocked, result⟩
    · rw [same]
      exact inv
    obtain ⟨owned, there⟩ := inv.mains parent u main
    have away : ∀ d, s.current d ≠ u := by
      rintro d rfl
      by_cases here : c = d
      · cases (here ▸ dead).symm.trans blocked
      · cases (inv.running d fun same => here (some.inj same)).symm.trans blocked
    have placed := inv.placed.makeReady (by rw [blocked]; decide) (inv.busy_of_owned owned)
      (fun d _ same => absurd same (away d))
    rw [result]
    refine inv.readied placed (Marks.makeReady s u).keeps (enqueueThread_readied s _ u) (fun p gone => ?_) (fun p owns gone => ?_)
      away there
    · rwa [Terminated, (Marks.makeReady s u).procs] at gone
    · cases (inv.ended p u gone owns there).symm.trans blocked

theorem schedulerExit (inv : LifeInv s none) (c : Fin n) (code : BitVec 32) (visited : List Pcb)
    (last : ∀ p, (s.threads (s.current c)).owner = some p →
      ∀ t ∈ s.tcbs, t ≠ s.current c → (s.threads t).owner = some p → s.stateOf t = .dead) :
    LifeInv (schedulerExit s c code visited) none ∧ Lasts s (schedulerExit s c code visited) := by
  have stopped := inv.stop c .dead
  have dead := setState_stateOf_self s (s.current c) .dead
  obtain ⟨states, cpus, keeps⟩ := exitProcess_spec s (s.current c) code
  have kept := (Marks.setState s (s.current c) .dead).keeps
  have ended : LifeInv (exitProcess (exitThread s (s.current c) code) (s.current c) code) (some c) := by
    refine stopped.of_procs states (fun t => (keeps.thread t).trans (kept.thread t).symm) cpus keeps.tcbs
      (fun p t main => keeps.mainThread p ▸ main) fun p t gone owned there => ?_
    by_cases here : t = s.current c
    · exact here ▸ dead
    by_cases ours : (s.threads (s.current c)).owner = some p
    · rw [setState_stateOf_of_ne s _ _ here]
      exact last p ours t there here (kept.owner t ▸ owned)
    refine stopped.ended p t ?_ owned there
    rw [exitProcess] at gone
    split at gone
    · exact gone
    next q owner =>
      have other : p ≠ q := by
        rintro rfl
        exact ours ((Keeps.exitThread s (s.current c) code).owner _ ▸ owner)
      exact (terminated_setProcess_of_ne (exitThread s (s.current c) code) _ other).mp gone
  have current := (same_places cpus).1
  have notified := ended.exitNotify (by rw [current, states]; exact dead) visited (s.current c)
  refine ⟨notified.switched (notified.placed.exitSwitch c) (Marks.exitSwitch _ c) (exitSwitch_switched _ c)
    fun d same => (some.inj same).symm,
    .of_procs (Keeps.schedulerExit s c code visited).pcbs fun p gone => ?_⟩
  rw [Terminated, Sched.schedulerExit, (Marks.exitSwitch ..).procs, (Marks.exitNotify ..).procs, exitProcess]
  split
  · exact gone
  next q _ =>
    by_cases here : p = q
    · exact here ▸ (terminated_setProcess_self _ _ _).mpr (.inl rfl)
    · exact (terminated_setProcess_of_ne (exitThread s (s.current c) code) _ here).mpr gone

theorem sysWaitpidRound (inv : LifeInv s none) (c : Fin n) (pid : BitVec 32) (visited : List Pcb) :
    LifeInv (sysWaitpidRound s c pid visited) none ∧ Lasts s (sysWaitpidRound s c pid visited) := by
  have still : LifeInv s none ∧ Lasts s s := ⟨inv, .refl s⟩
  rw [Sched.sysWaitpidRound]
  split
  · exact still
  next parent _ =>
    split
    next child _ found =>
      refine inv.setProcess rfl ?_
      rw [terminated_setProcess_self]
      exact ⟨fun _ => .inl (waitScan_zombie found), fun _ => .inr rfl⟩
    next => exact still
    next =>
      refine ((inv.stop c .blocked).taskSwitch c fun d same => (some.inj same).symm).imp_right (Lasts.trans ?_)
      exact .of_procs rfl fun p gone => gone

end LifeInv

theorem LifeCall.apply_inv (call : LifeCall n) (inv : LifeInv s none) (possible : call.Possible s) (clean : call.Clean s) :
    LifeInv (call.apply s) none ∧ Lasts s (call.apply s) := by
  cases call with
  | clone c flags grants => exact inv.clone possible.2.1 possible.2.2 c flags
  | exit c code visited => exact inv.schedulerExit c code visited clean
  | kill c pid sig visited => exact inv.sysKill c clean
  | waitpid c pid visited => exact inv.sysWaitpidRound c pid visited
  | taskSwitch c => exact inv.taskSwitch c nofun

/-- The scheduler is up, and no process has ended yet. -/
structure Booted (s : State n) : Prop extends Settled s where
  alive : ∀ p ∈ s.pcbs, ¬ Terminated s p

theorem Booted.inv (booted : Booted s) : LifeInv s none :=
  ⟨booted.placed, fun c _ => booted.running c, booted.idleOwner, booted.mains, booted.known,
    fun p t gone owned there => absurd gone (booted.alive p (booted.owners t there p owned))⟩

theorem inv_of_run (inv : LifeInv s none) (run : ReflTransGen CleanLifeStep s s') : LifeInv s' none ∧ Lasts s s' := by
  induction run with
  | refl => exact ⟨inv, .refl s⟩
  | tail _ step ih =>
    obtain ⟨call, possible, clean, rfl⟩ := step
    exact (call.apply_inv ih.1 possible clean).imp_right ih.2.trans

def oneProcess : State 1 where
  threads := fun t =>
    { tid := if t = 2 then 1 else 0, state := .running, cpuId := 0, chan := none, exitCode := 0
      owner := if t = 2 then some 1 else none }
  procs := fun p =>
    { pid := 1, ppid := 0, state := .ready, mainThread := if p = 1 then some 2 else none, exitCode := 0, pendingSignals := 0 }
  cpus := fun _ => { current := 2, idle := 0, ready := [] }
  list := { head := some 1, next := fun _ => none }
  nextTid := 2
  nextPid := 2
  tcbs := [0, 2]
  pcbs := [1]

theorem oneProcess_booted : Booted oneProcess where
  placed := by
    refine ⟨by decide, ?_, ?_, by decide, ?_, ?_, by decide, by decide, by decide⟩
    all_goals
      intros
      have empty : ∀ c, oneProcess.readyQueue c = [] := by decide
      simp_all only [List.not_mem_nil, not_false_eq_true]
  running := by decide
  idleOwner := by decide
  mains := by
    intro p t main
    simp only [oneProcess] at main ⊢
    split at main
    next first =>
      cases main
      exact ⟨congrArg some first.symm, by decide⟩
    next => cases main
  known := by
    rw [Known]
    decide
  owners := by
    intro t _ p owned
    simp only [oneProcess] at owned ⊢
    split at owned
    · cases owned
      decide
    · cases owned
  alive := fun _ _ gone => gone.elim nofun nofun

def childCollected : List (LifeCall 1) :=
  [.clone 0 0 { pcb := some 3, space := true, tcb := some 4 }, .taskSwitch 0, .exit 0 0 [3, 1], .waitpid 0 (-1) [3, 1]]

theorem childCollected_meets :
    AllMeet LifeCall.apply (fun call s => call.Possible s ∧ call.Clean s) childCollected oneProcess := by
  refine ⟨⟨⟨by decide, ?_, ?_⟩, trivial⟩, ⟨trivial, trivial⟩, ⟨⟨by decide +kernel, none, rfl, rfl, rfl⟩, ?_⟩,
    ⟨⟨by decide +kernel, none, rfl, rfl, rfl⟩, trivial⟩, trivial⟩
  · rintro _ ⟨⟩
    decide
  · rintro _ ⟨⟩
    decide
  · intro p owned
    obtain rfl : 3 = p := some.inj owned
    decide +kernel

theorem childCollected_reached : ReflTransGen CleanLifeStep oneProcess (runAll LifeCall.apply childCollected oneProcess) :=
  childCollected_meets.run_both

theorem childCollected_ended : Terminated (runAll LifeCall.apply childCollected oneProcess) 3 := by
  refine .inr ?_
  decide +kernel

/-- The parent signals the child it has collected, and gives the processor away. -/
def collectedSignalled : List (LifeCall 1) := [.kill 0 2 9 [3, 1], .taskSwitch 0]

end Sirius.Sched
