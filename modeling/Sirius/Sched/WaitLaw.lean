import Sirius.Sched.Wait

/-! A thread runs in one place at a time, in every interleaving in which a wake-up sends no
thread that is still current on one processor to the queue of another. -/
namespace Sirius.Sched
open Support Relation State
open List hiding after
open Function (update update_self update_of_ne update_apply forall_update_iff)

/-- The thread has taken the lock of `wait` and not yet given it back. -/
def WaitPc.HoldsLock : WaitPc → Prop
  | .locked | .anchored | .marked => True
  | _ => False

/-- The thread has marked itself as waiting and not yet called the scheduler. -/
def WaitPc.Asleep : WaitPc → Prop
  | .marked | .released | .restored | .unlocked | .scheduling => True
  | _ => False

/-- A parent is woken only if it is blocked. -/
theorem exitNotify_of_unblocked {s : State n} (unblocked : ∀ t, s.stateOf t ≠ .blocked) : exitNotify s visited t = s := by
  simp only [exitNotify, notifyParent, if_neg (unblocked _)]
  repeat' split
  all_goals rfl

/-- Without blocked threads an exit is a change of thread after which one is dead. -/
theorem schedulerExit_switched {s : State n} (unblocked : ∀ t, s.stateOf t ≠ .blocked) (c : Fin n) (code : BitVec 32)
    (visited : List Pcb) : Switched (s.setState (s.current c) .dead) (schedulerExit s c code visited) c := by
  obtain ⟨states, cpus, keeps⟩ := exitProcess_spec s (s.current c) code
  rw [schedulerExit]
  generalize exitProcess (exitThread s (s.current c) code) (s.current c) code = ended at states cpus keeps
  have none : ∀ t, ended.stateOf t ≠ .blocked := by
    rw [states, setState_stateOf]
    exact (forall_update_iff s.stateOf fun _ state => state ≠ .blocked).mpr ⟨nofun, fun t _ => unblocked t⟩
  obtain ⟨current, idle, queue⟩ := same_places cpus
  obtain ⟨elsewhere, queues, idles, tcbs, running, changed, members, chosen⟩ := exitSwitch_switched ended c
  simp only [current, idle, queue, states, keeps.tcbs] at elsewhere queues idles tcbs changed members chosen
  rw [exitNotify_of_unblocked none]
  exact ⟨elsewhere, queues, idles, tcbs, running, changed, members, chosen⟩

/-- The lock of `wait` is held by at most one thread, and taken while one holds it. -/
structure LockInv (pc : Tcb → WaitPc) (lock : Bool) : Prop where
  locked : ∀ t, (pc t).HoldsLock → lock = true
  exclusive : ∀ t u, (pc t).HoldsLock → (pc u).HoldsLock → t = u

namespace LockInv

/-- A thread goes on without taking the lock. -/
theorem move (inv : LockInv pc lock) (held : new.HoldsLock → (pc t).HoldsLock) : LockInv (update pc t new) lock := by
  have old : ∀ u, (update pc t new u).HoldsLock → (pc u).HoldsLock :=
    (forall_update_iff pc fun u place => place.HoldsLock → (pc u).HoldsLock).mpr ⟨held, fun _ _ => id⟩
  exact ⟨fun u holds => inv.locked u (old u holds), fun u v first second => inv.exclusive u v (old u first) (old v second)⟩

/-- Acquiring a lock that was free. -/
theorem acquire (inv : LockInv pc false) : LockInv (update pc t new) true := by
  have only : ∀ u, (update pc t new u).HoldsLock → u = t := by
    intro u holds
    by_contra here
    rw [update_of_ne here] at holds
    cases inv.locked u holds
  exact ⟨fun _ _ => rfl, fun u v first second => (only u first).trans (only v second).symm⟩

/-- The holder gives the lock back. -/
theorem release (inv : LockInv pc lock) (holds : (pc t).HoldsLock) (free : ¬ new.HoldsLock) :
    LockInv (update pc t new) false := by
  have none : ∀ u, ¬ (update pc t new u).HoldsLock :=
    (forall_update_iff pc fun _ place => ¬ place.HoldsLock).mpr
      ⟨free, fun u here later => here (inv.exclusive u t later holds)⟩
  exact ⟨fun u later => absurd later (none u), fun u _ later => absurd later (none u)⟩

end LockInv

/-- The invariant of the interleavings, in terms of the kernel, of where threads are in
`wait` and of its lock. -/
structure WaitInv (s : State n) (pc : Tcb → WaitPc) (lock : Bool) : Prop where
  placed : Placed s
  sleeping : ∀ c, s.stateOf (s.current c) = .waiting → (pc (s.current c)).Asleep
  woken : ∀ c d, s.current c ∈ s.readyQueue d → (pc (s.current c)).Asleep ∧ ¬ (pc (s.current c)).HoldsLock
  lock : LockInv pc lock
  idleOutside : ∀ d, pc (s.idle d) = .outside
  idleAwake : ∀ d, s.stateOf (s.idle d) ≠ .waiting
  unblocked : ∀ t, s.stateOf t ≠ .blocked
  known : Known s
  waitingKnown : ∀ t, s.stateOf t = .waiting → t ∈ s.tcbs

/-- The same of a thread if it is the one to be woken. -/
def WakesAtHome (s : State n) (chan : Nat) (t : Tcb) : Prop :=
  s.stateOf t = .waiting → (s.threads t).chan = some chan → AtHome s t

abbrev Sleeps (s : State n) (chan : Nat) (t : Tcb) : Prop := s.stateOf t = .waiting ∧ (s.threads t).chan = some chan

def Untouched (s s' : State n) (t : Tcb) : Prop := s'.threads t = s.threads t ∧ ∀ c, t ∈ s'.readyQueue c ↔ t ∈ s.readyQueue c

/-- The thread is ready, and also in the queue of its processor. -/
def Woken (s s' : State n) (t : Tcb) : Prop :=
  s'.stateOf t = .ready ∧ ∀ c, t ∈ s'.readyQueue c ↔ t ∈ s.readyQueue c ∨ getCpuDataBlock n (s.threads t).cpuId = some c

theorem wakeupThread_woken (asleep : Sleeps s chan t) : Woken s (wakeupThread s chan t) t := by
  rw [wakeupThread, if_pos asleep]
  refine ⟨(enqueueThread_readied _ _ t).self, fun c => ?_⟩
  rw [mem_makeReady, setThread_field s t Thread.cpuId rfl, and_iff_right rfl]
  rfl

theorem wakeupThread_untouched (away : u = t → ¬Sleeps s chan t) : Untouched s (wakeupThread s chan u) t := by
  rw [wakeupThread]
  split
  next asleep =>
    have apart : t ≠ u := fun same => away same.symm (same ▸ asleep)
    refine ⟨?_, fun c => mem_makeReady.trans (or_iff_left fun woken => apart woken.1)⟩
    rw [makeReady, enqueueThread_threads]
    exact (update_of_ne apart _ _).trans (update_of_ne apart _ _)
  next => exact ⟨rfl, fun _ => Iff.rfl⟩

/-- What `wakeup` leaves as it was. -/
structure WakeKeeps (s s' : State n) : Prop where
  keeps : Keeps s s'
  current : s'.current = s.current
  waiting : ∀ t, s'.stateOf t = .waiting → s'.threads t = s.threads t

theorem wakeupThread_keeps (s : State n) (chan : Nat) (t : Tcb) : WakeKeeps s (wakeupThread s chan t) := by
  refine ⟨Keeps.wakeupThread s chan t, ?_, fun u asleep => (wakeupThread_untouched fun same before => ?_).1⟩
  · rw [wakeupThread]
    split
    · exact (enqueueThread_readied (s.setThread t ({ · with chan := none })) _ t).current
    · rfl
  · subst same
    cases (wakeupThread_woken before).1.symm.trans asleep

theorem WakeKeeps.trans (first : WakeKeeps a b) (second : WakeKeeps b c) : WakeKeeps a c := by
  refine ⟨first.keeps.trans second.keeps, second.current.trans first.current, fun t waiting => ?_⟩
  have same := second.waiting t waiting
  rw [stateOf, same] at waiting
  exact same.trans (first.waiting t waiting)

theorem wakeup_keeps (s : State n) (chan : Nat) (visited : List Pcb) : WakeKeeps s (wakeup s chan visited) := by
  induction visited generalizing s with
  | nil => exact ⟨.refl s, rfl, fun _ _ => rfl⟩
  | cons p rest ih =>
    rw [wakeup, foldl_cons, wakeupProcess]
    cases (s.procs p).mainThread with
    | none => exact ih s
    | some t => exact (wakeupThread_keeps s chan t).trans (ih _)

theorem WakesAtHome.later (home : WakesAtHome s chan t) (kept : WakeKeeps s s') : WakesAtHome s' chan t := by
  intro asleep anchored c d current block
  have same := kept.waiting t asleep
  rw [stateOf, same] at asleep
  rw [same] at anchored block
  rw [kept.current] at current
  exact home asleep anchored c d current block

namespace WaitInv
variable {s s' : State n} {pc : Tcb → WaitPc} {lock : Bool}

section
variable (inv : WaitInv s pc lock)
include inv

/-- A thread that is current and outside `wait` is in no queue. -/
theorem unqueued (outside : ¬ (pc (s.current c)).Asleep) : ¬ s.Queued (s.current c) := by
  rintro ⟨d, queued⟩
  exact outside (inv.woken c d queued).1

/-- A thread that is asleep and that the waking side finds is no idle task. -/
theorem busy (waiting : s.stateOf t = .waiting) (d : Fin n) : t ≠ s.idle d := by
  rintro rfl
  exact inv.idleAwake d waiting

theorem switched (placed : Placed s') (step : Switched s s' c) : WaitInv s' pc lock := by
  refine ⟨placed, fun d waiting => ?_, fun d e queued => ?_, inv.lock, fun d => ?_, fun d waiting => ?_,
    fun t blocked => ?_, inv.known.switched step, fun t waiting => step.tcbs ▸ inv.waitingKnown t (step.kept waiting nofun nofun)⟩
  · by_cases here : d = c
    · subst here
      rw [step.running] at waiting
      cases waiting
    · have before := step.kept waiting nofun nofun
      rw [step.current d here] at before ⊢
      exact inv.sleeping d before
  · by_cases here : d = c
    · subst here
      have ready := placed.ready queued
      rw [step.running] at ready
      cases ready
    · obtain rfl := placed.near queued
      rw [step.current d here, step.queue d here] at queued
      rw [step.current d here]
      exact inv.woken d d queued
  · rw [step.idle]
    exact inv.idleOutside d
  · rw [step.idle] at waiting
    exact inv.idleAwake d (step.kept waiting nofun nofun)
  · exact inv.unblocked t (step.kept blocked nofun nofun)

/-- Neither the processors nor the states of threads have changed. -/
theorem of_same (states : s'.stateOf = s.stateOf) (tids : ∀ t, (s'.threads t).tid = (s.threads t).tid) (cpus : s'.cpus = s.cpus)
    (tcbs : s'.tcbs = s.tcbs) : WaitInv s' pc lock := by
  obtain ⟨current, idle, queue⟩ := same_places cpus
  obtain ⟨placed, sleeping, woken, locks, idleOutside, idleAwake, unblocked, known, waitingKnown⟩ := inv
  have placed := placed.of_same states tids cpus
  simp only [Known, ← current, ← idle, ← queue, ← states,
    ← tcbs] at sleeping woken idleOutside idleAwake unblocked known waitingKnown
  exact ⟨placed, sleeping, woken, locks, idleOutside, idleAwake, unblocked, known, waitingKnown⟩

/-- A thread goes on in its code. -/
theorem setPc (locks : LockInv (update pc t new) lock') (sleeping : ∀ c, s.current c = t → s.stateOf t = .waiting → new.Asleep)
    (woken : ∀ c d, s.current c = t → t ∈ s.readyQueue d → new.Asleep ∧ ¬ new.HoldsLock)
    (idle : ∀ d, s.idle d = t → new = .outside) : WaitInv s (update pc t new) lock' := by
  refine ⟨inv.placed, fun c waiting => ?_, fun c d queued => ?_, locks, fun d => ?_, inv.idleAwake, inv.unblocked, inv.known,
    inv.waitingKnown⟩
  all_goals
    rw [update_apply]
    split
  next here => exact sleeping c here (here ▸ waiting)
  next => exact inv.sleeping c waiting
  next here => exact woken c d here (here ▸ queued)
  next => exact inv.woken c d queued
  next here => exact idle d here
  next => exact inv.idleOutside d

/-- The current thread, in no queue, changes its state; if it is to wait, it is in `wait`. -/
theorem setState (out : ¬ s.Queued (s.current c)) (state : ThreadState)
    (waits : state = .waiting → (pc (s.current c)).Asleep ∧ s.current c ≠ s.idle c) (runs : state ≠ .blocked) :
    WaitInv (s.setState (s.current c) state) pc lock := by
  refine ⟨inv.placed.setState out state, fun d waiting => ?_, inv.woken, inv.lock, inv.idleOutside,
    fun d waiting => ?_, fun t blocked => ?_, inv.known, fun t waiting => ?_⟩
  · rw [setState_current, setState_stateOf, update_apply] at waiting
    split at waiting
    next here => exact here ▸ (waits waiting).1
    next => exact inv.sleeping d waiting
  · rw [setState_idle, setState_stateOf, update_apply] at waiting
    split at waiting
    next here =>
      obtain rfl := inv.placed.idleHome here.symm
      exact (waits waiting).2 here.symm
    next => exact inv.idleAwake d waiting
  · rw [setState_stateOf, update_apply] at blocked
    split at blocked
    next => exact runs blocked
    next => exact inv.unblocked t blocked
  · rw [setState_stateOf, update_apply] at waiting
    split at waiting
    next here => exact here ▸ (inv.known c).1
    next => exact inv.waitingKnown t waiting

end

/-- A waiting thread that no longer holds the lock of `wait` is made ready. -/
theorem makeReady (inv : WaitInv s pc false) (waiting : s.stateOf t = .waiting) (home : AtHome s t) :
    WaitInv (makeReady s t) pc false := by
  have effect : Readied s (Sched.makeReady s t) t := enqueueThread_readied s _ t
  have placed : Placed (Sched.makeReady s t) :=
    inv.placed.makeReady (by rw [waiting]; exact nofun) (inv.busy waiting) home
  have kept : ∀ {x : ThreadState} u, (Sched.makeReady s t).stateOf u = x → x ≠ .ready → s.stateOf u = x := by
    intro x u now other
    by_cases here : u = t
    · subst here
      exact absurd (now.symm.trans effect.self) other
    · exact (effect.others u here) ▸ now
  refine ⟨placed, fun c asleep => ?_, fun c d queued => ?_, inv.lock, fun d => ?_, fun d asleep => ?_,
    fun u blocked => inv.unblocked u (kept u blocked nofun), inv.known.readied effect (inv.waitingKnown t waiting),
    fun u asleep => ?_⟩
  · rw [effect.current] at asleep ⊢
    exact inv.sleeping c (kept _ asleep nofun)
  · rw [effect.current] at queued ⊢
    rcases effect.members d _ queued with before | same
    · exact inv.woken c d before
    · have asleep := inv.sleeping c (same ▸ waiting)
      exact ⟨asleep, fun holds => nomatch inv.lock.locked _ holds⟩
  · rw [effect.idle]
    exact inv.idleOutside d
  · rw [effect.idle] at asleep
    exact inv.idleAwake d (kept _ asleep nofun)
  · rw [effect.tcbs]
    exact inv.waitingKnown u (kept u asleep nofun)

theorem wakeupThread (inv : WaitInv s pc false) (home : WakesAtHome s chan t) :
    WaitInv (wakeupThread s chan t) pc false := by
  rw [Sched.wakeupThread]
  split
  next asleep =>
    have states : (s.setThread t ({ · with chan := none })).stateOf = s.stateOf :=
      funext (setThread_field s t Thread.state rfl)
    have unanchored : WaitInv (s.setThread t ({ · with chan := none })) pc false :=
      inv.of_same states (setThread_field s t Thread.tid rfl) rfl rfl
    refine unanchored.makeReady (by rw [states]; exact asleep.1) ?_
    intro c d current block
    rw [setThread_field s t Thread.cpuId rfl t] at block
    exact home asleep.1 asleep.2 c d current block
  next => exact inv

theorem wakeup (inv : WaitInv s pc false)
    (home : ∀ p ∈ visited, ∀ t, (s.procs p).mainThread = some t → WakesAtHome s chan t) :
    WaitInv (wakeup s chan visited) pc false := by
  induction visited generalizing s with
  | nil => exact inv
  | cons p rest ih =>
    rw [Sched.wakeup, foldl_cons, wakeupProcess]
    cases main : (s.procs p).mainThread with
    | none => exact ih inv (fun q listed => home q (mem_cons_of_mem p listed))
    | some t =>
      have kept := wakeupThread_keeps s chan t
      refine ih (inv.wakeupThread (home p mem_cons_self t main)) fun q listed u owns => ?_
      rw [kept.keeps.mainThread] at owns
      exact (home q (mem_cons_of_mem p listed) u owns).later kept

section
variable (inv : WaitInv s pc lock)
include inv

theorem exit (outside : pc (s.current c) = .outside) (code : BitVec 32) (visited : List Pcb) :
    WaitInv (schedulerExit s c code visited) pc lock := by
  have out := inv.unqueued (c := c) (by rw [outside]; exact not_false)
  have dead := inv.setState out .dead nofun nofun
  obtain ⟨states, cpus, keeps⟩ := exitProcess_spec s (s.current c) code
  have tids := fun t => congrArg Prod.fst ((keeps.thread t).trans ((Marks.setState s (s.current c) .dead).keeps.thread t).symm)
  have ended := dead.of_same states tids cpus keeps.tcbs
  rw [schedulerExit, exitNotify_of_unblocked ended.unblocked]
  exact ended.switched (ended.placed.exitSwitch c) (exitSwitch_switched _ c)

theorem taskSwitch (c : Fin n) : WaitInv (taskSwitch s c) pc lock :=
  inv.switched (inv.placed.taskSwitch c) (taskSwitch_switched s c)

theorem joined (step : Joined s s' t) : WaitInv s' (update pc t .outside) lock := by
  refine ⟨step.placed, fun d waiting => ?_, fun d e listed => ?_, inv.lock.move False.elim, fun d => ?_, fun d waiting => ?_,
    fun u blocked => ?_, step.known, fun u waiting => ?_⟩
  · rw [step.current] at waiting ⊢
    rw [step.states (step.notCurrent d)] at waiting
    rw [update_of_ne (step.notCurrent d)]
    exact inv.sleeping d waiting
  · rw [step.current] at listed ⊢
    rw [update_of_ne (step.notCurrent d)]
    exact inv.woken d e ((step.members e _ listed).resolve_right (step.notCurrent d))
  · rw [step.idle, update_of_ne (step.notIdle d)]
    exact inv.idleOutside d
  · rw [step.idle, step.states (step.notIdle d)] at waiting
    exact inv.idleAwake d waiting
  · by_cases here : u = t
    · rw [here, step.self] at blocked
      cases blocked
    · rw [step.states here] at blocked
      exact inv.unblocked u blocked
  · rw [step.tcbs]
    by_cases here : u = t
    · exact here ▸ mem_cons_self
    · rw [step.states here] at waiting
      exact mem_cons_of_mem _ (inv.waitingKnown u waiting)

/-- A thread that nobody knows may be anywhere in its code. -/
theorem setPcFresh (fresh : t ∉ s.tcbs) : WaitInv s (update pc t .outside) lock := by
  refine inv.setPc (inv.lock.move False.elim) (fun c same => ?_) (fun c d same => ?_) fun d _ => rfl
  all_goals exact absurd (same ▸ (inv.known c).1) fresh

/-- Whether it succeeds or not. -/
theorem clone (fresh : ∀ t, grants.tcb = some t → t ∉ s.tcbs) (c : Fin n) (flags : BitVec 32) :
    WaitInv (clone s c flags grants) (grants.tcb.elim pc fun t => update pc t .outside) lock := by
  have unchanged : ∀ s' : State n, s'.threads = s.threads → s'.cpus = s.cpus → s'.tcbs = s.tcbs →
      WaitInv s' (grants.tcb.elim pc fun t => update pc t .outside) lock := by
    intro s' threads cpus tcbs
    have same := inv.of_same (funext fun t => by rw [stateOf, stateOf, threads]) (fun t => by rw [threads]) cpus tcbs
    cases given : grants.tcb with
    | none => exact same
    | some t => exact same.setPcFresh (tcbs ▸ fresh t given)
  rcases clone_cases s c flags grants with failed | ⟨t, owner, s', new, result⟩
  · exact unchanged _ failed.threads failed.cpus failed.tcbs
  · rw [result, new.granted]
    exact inv.joined (enqueueThread_joined inv.placed inv.known (fresh t new.granted) c new.ready new.others new.cpus new.tcbs)

/-- The current thread goes on in its code. -/
theorem advance (busy : ∀ d, s.idle d ≠ s.current c) (locks : LockInv (update pc (s.current c) new) lock')
    (moves : (pc (s.current c)).Asleep → new.Asleep ∧ ¬ new.HoldsLock) : WaitInv s (update pc (s.current c) new) lock' := by
  refine inv.setPc locks (fun d same waiting => ?_) (fun d e same queued => ?_) fun d same => absurd same (busy d)
  · exact (moves (same ▸ inv.sleeping d (same ▸ waiting))).1
  · exact moves (same ▸ (inv.woken d e (same ▸ queued)).1)

end

theorem busy_of_acts {m : Machine n} (inv : WaitInv m.sched m.pc m.waitLock) (acts : m.Acts c) (d : Fin n) :
    m.sched.idle d ≠ m.sched.current c := by
  intro same
  obtain rfl := inv.placed.idleHome same.symm
  exact acts.busy same.symm

/-- The thread is switched out in the call of `schedule`; it is no longer current, or it
was taken from the queue again. -/
theorem schedule (inv : WaitInv s pc lock) (busy : ∀ d, s.idle d ≠ s.current c) :
    WaitInv (Sched.taskSwitch s c) (update pc (s.current c) .resumed) lock := by
  have switched := taskSwitch_switched s c
  have later := inv.taskSwitch c
  have only : ∀ d, (Sched.taskSwitch s c).current d = s.current c → d = c := by
    intro d same
    by_contra here
    rw [switched.current d here] at same
    exact here (inv.placed.alone same)
  refine later.setPc (inv.lock.move False.elim) (fun d same waiting => ?_) (fun d e same queued => ?_) fun d same => ?_
  · obtain rfl := only d same
    rw [← same, switched.running] at waiting
    cases waiting
  · obtain rfl := only d same
    have ready := later.placed.ready queued
    rw [← same, switched.running] at ready
    cases ready
  · rw [switched.idle] at same
    exact absurd same (busy d)

theorem waitStep {m : Machine n} (inv : WaitInv m.sched m.pc m.waitLock) (possible : m.WaitPossible c) :
    WaitInv (m.waitStep c).sched (m.waitStep c).pc (m.waitStep c).waitLock := by
  have inside : m.pc (m.sched.current c) ≠ .outside := by
    intro outside
    rw [Machine.WaitPossible, outside] at possible
    exact possible
  have busy (d : Fin n) : m.sched.idle d ≠ m.sched.current c := fun same => inside (same ▸ inv.idleOutside d)
  rw [Machine.waitStep]
  cases place : m.pc (m.sched.current c) with
  | outside => exact absurd place inside
  | entered | resumed => exact inv.advance busy (inv.lock.move False.elim) (by rw [place]; exact False.elim)
  | locking =>
    rw [Machine.WaitPossible, place] at possible
    exact inv.advance busy (LockInv.acquire (possible ▸ inv.lock)) (by rw [place]; exact False.elim)
  | locked =>
    have anchored : WaitInv m.sched (update m.pc (m.sched.current c) .anchored) m.waitLock :=
      inv.advance busy (inv.lock.move fun _ => by rw [place]; exact trivial) (by rw [place]; exact False.elim)
    dsimp only
    refine anchored.of_same (funext (setThread_field m.sched _ Thread.state rfl)) ?_ rfl rfl
    exact setThread_field m.sched _ Thread.tid rfl
  | anchored =>
    have marked : WaitInv m.sched (update m.pc (m.sched.current c) .marked) m.waitLock :=
      inv.advance busy (inv.lock.move fun _ => by rw [place]; exact trivial) (by rw [place]; exact False.elim)
    have out := inv.unqueued (c := c) (by rw [place]; exact not_false)
    refine marked.setState out .waiting (fun _ => ⟨?_, (busy c).symm⟩) nofun
    rw [update_self]
    exact trivial
  | marked =>
    exact inv.advance busy (inv.lock.release (by rw [place]; exact trivial) not_false) (fun _ => ⟨trivial, not_false⟩)
  | released | restored | unlocked => exact inv.advance busy (inv.lock.move False.elim) (fun _ => ⟨trivial, not_false⟩)
  | scheduling => exact inv.schedule busy

end WaitInv

/-- A wake-up sends no thread that is still current to another processor. -/
def Event.WakesHome (event : Event n) (m : Machine n) : Prop :=
  match event with
  | .wakeup chan visited => ∀ p ∈ visited, ∀ t, (m.sched.procs p).mainThread = some t → WakesAtHome m.sched chan t
  | .wakeupThread chan t => WakesAtHome m.sched chan t
  | _ => True

theorem Event.apply_inv (event : Event n) {m : Machine n} (inv : WaitInv m.sched m.pc m.waitLock)
    (possible : event.Possible m) (home : event.WakesHome m) :
    WaitInv (event.apply m).sched (event.apply m).pc (event.apply m).waitLock := by
  cases event with
  | setInterrupts c on | spinLock c | spinUnlock c => exact inv
  | clone c flags grants =>
    have cloned := inv.clone possible.2 c flags
    simp only [Event.apply]
    cases given : grants.tcb with
    | none =>
      rw [given] at cloned
      exact cloned
    | some t =>
      rw [given] at cloned
      exact cloned
  | exit c code visited => exact inv.exit possible.1.outside code visited
  | enter c chan lk =>
    refine inv.advance (inv.busy_of_acts possible) (inv.lock.move False.elim) ?_
    rw [possible.outside]
    exact False.elim
  | waitStep c => exact inv.waitStep possible
  | wakeup chan visited =>
    obtain ⟨free, -⟩ := possible
    have woken := WaitInv.wakeup (free ▸ inv) home
    exact free ▸ woken
  | wakeupThread chan t =>
    have free : m.waitLock = false := possible
    have woken := WaitInv.wakeupThread (free ▸ inv) home
    exact free ▸ woken
  | timer c => exact inv.taskSwitch c

/-- The kernel when the processors have been started: nobody is in `wait` or blocked, and
no current thread is queued. -/
structure Started (m : Machine n) : Prop where
  placed : Placed m.sched
  outside : ∀ t, m.pc t = .outside
  free : m.waitLock = false
  running : ∀ c, m.sched.stateOf (m.sched.current c) = .running
  idle : ∀ c, m.sched.stateOf (m.sched.idle c) ≠ .waiting
  unblocked : ∀ t, m.sched.stateOf t ≠ .blocked
  known : Known m.sched
  waitingKnown : ∀ t, m.sched.stateOf t = .waiting → t ∈ m.sched.tcbs

theorem Started.inv (started : Started m) : WaitInv m.sched m.pc m.waitLock := by
  have none : ∀ t, ¬ (m.pc t).HoldsLock := fun t => by rw [started.outside t]; exact not_false
  refine ⟨started.placed, fun c waiting => ?_, fun c d queued => ?_, ⟨fun t holds => absurd holds (none t),
    fun t _ holds => absurd holds (none t)⟩, fun d => started.outside _, started.idle, started.unblocked, started.known,
    started.waitingKnown⟩
  · cases (started.running c).symm.trans waiting
  · cases (started.running c).symm.trans (started.placed.ready queued)

/-- No thread is current twice, no running thread is queued, none is queued twice. -/
structure OnePlace (s : State n) : Prop where
  current : ∀ c d, s.current c = s.current d → (∀ e, s.current c ≠ s.idle e) → c = d
  running : ∀ c, s.stateOf (s.current c) = .running → ¬ s.Queued (s.current c)
  once : ((finRange n).flatMap s.readyQueue).Nodup

theorem Placed.onePlace {s : State n} (placed : Placed s) : OnePlace s := by
  refine ⟨fun c d same _ => placed.alone same, fun c running => placed.unqueued (by rw [running]; exact nofun), ?_⟩
  refine nodup_flatMap.mpr ⟨fun c _ => placed.once c, (nodup_finRange n).imp ?_⟩
  intro c d other t first second
  exact other (placed.home first second)

def WakesHomeStep (before after : Machine n) : Prop :=
  ∃ event : Event n, event.Possible before ∧ event.WakesHome before ∧ after = event.apply before

/-- In every interleaving in which no wake-up sends a thread that is still current on one
processor to another, a thread is in one place. -/
theorem thread_in_one_place (start : Machine n) (started : Started start) (run : ReflTransGen WakesHomeStep start m) :
    OnePlace m.sched := by
  suffices inv : WaitInv m.sched m.pc m.waitLock from inv.placed.onePlace
  induction run with
  | refl => exact started.inv
  | tail _ step ih =>
    obtain ⟨event, possible, home, rfl⟩ := step
    exact event.apply_inv ih possible home

def twoCpus : Machine 2 where
  sched :=
    { threads := fun t =>
        { tid := if t = 2 then 1 else 0, state := .running, cpuId := 0, chan := none, exitCode := 0
          owner := if t = 2 then some 1 else none }
      procs := fun _ =>
        { pid := 1, ppid := 0, state := .ready, mainThread := some 2, exitCode := 0, pendingSignals := 0 }
      cpus := fun c => if c = 0 then { current := 2, idle := 0, ready := [] } else { current := 1, idle := 1, ready := [] }
      list := { head := some 1, next := fun _ => none }
      nextTid := 2
      nextPid := 2
      tcbs := [0, 1, 2]
      pcbs := [1] }
  pc := fun _ => .outside
  call := fun _ => { chan := 0, lk := false, flags := false }
  interrupts := fun _ => true
  resumesWith := fun _ => true
  waitLock := false
  holder := none

theorem twoCpus_started : Started twoCpus where
  placed := by
    refine ⟨by decide, ?_, ?_, by decide, ?_, ?_, by decide, by decide, by decide⟩
    all_goals
      intros
      have empty : ∀ c, twoCpus.sched.readyQueue c = [] := by decide
      simp_all only [not_mem_nil, not_false_eq_true]
  outside := fun _ => rfl
  free := rfl
  running := by decide
  idle := by decide
  unblocked := nofun
  known := by
    rw [Known]
    decide
  waitingKnown := nofun

def forked : Machine 2 :=
  (Event.timer 0).apply ((Event.clone 0 0 { pcb := some 3, space := true, tcb := some 4 }).apply twoCpus)

theorem forked_reached : ReflTransGen WakesHomeStep twoCpus forked := by
  refine .tail (.single ⟨.clone 0 0 _, ⟨⟨by decide, rfl⟩, ?_⟩, trivial, rfl⟩) ⟨.timer 0, ?_, trivial, rfl⟩
  · rintro _ ⟨⟩
    decide
  · rfl

theorem thread_in_one_place_forked :
    Started twoCpus ∧ ∃ m, ReflTransGen WakesHomeStep twoCpus m ∧ OnePlace m.sched ∧ m.sched.current 0 = 4 :=
  ⟨twoCpus_started, forked, forked_reached, thread_in_one_place twoCpus twoCpus_started forked_reached, by decide +kernel⟩

/-- The child waits and is woken before it has called the scheduler; the second processor
takes it from its queue. -/
def wokenEarly : List (Event 2) :=
  [.enter 0 7 false, .waitStep 0, .waitStep 0, .waitStep 0, .waitStep 0, .waitStep 0, .wakeup 7 [3, 1], .timer 1]

/-- The thread is current on both processors. -/
theorem woken_thread_runs_twice : Started twoCpus ∧ ∃ m, ReflTransGen Step twoCpus m ∧ ¬ OnePlace m.sched := by
  have possible : AllMeet Event.apply Event.Possible wokenEarly forked :=
    ⟨⟨by decide +kernel, rfl⟩, trivial, rfl, trivial, trivial, trivial, ⟨rfl, none, rfl, rfl, rfl⟩, rfl, trivial⟩
  refine ⟨twoCpus_started, runAll Event.apply wokenEarly forked, .trans ?_ possible.run, fun onePlace => ?_⟩
  · exact ReflTransGen.mono (fun _ _ ⟨event, possible, _, result⟩ => ⟨event, possible, result⟩) _ _ forked_reached
  let last := runAll Event.apply wokenEarly forked
  have same : last.sched.current 0 = last.sched.current 1 := by
    decide +kernel
  have busy : ∀ e, last.sched.current 0 ≠ last.sched.idle e := by
    decide +kernel
  cases onePlace.current 0 1 same busy

/-! ### Sleepers -/

section
variable {s : State n}

theorem wakeupProcess_untouched (away : (s.procs p).mainThread = some t → ¬Sleeps s chan t) :
    Untouched s (wakeupProcess chan s p) t ∧ (wakeupProcess chan s p).procs = s.procs := by
  rw [wakeupProcess]
  split
  · exact ⟨⟨rfl, fun _ => Iff.rfl⟩, rfl⟩
  next u main =>
    refine ⟨wakeupThread_untouched fun same => away (same ▸ main), ?_⟩
    rw [wakeupThread]
    split
    · exact (Marks.makeReady _ u).procs
    · rfl

theorem wakeup_untouched (visited : List Pcb) (away : ∀ p ∈ visited, (s.procs p).mainThread = some t → ¬Sleeps s chan t) :
    Untouched s (wakeup s chan visited) t := by
  induction visited generalizing s with
  | nil => exact ⟨rfl, fun _ => Iff.rfl⟩
  | cons p rest ih =>
    obtain ⟨first, procs⟩ := wakeupProcess_untouched (away p mem_cons_self)
    have later := @ih (wakeupProcess chan s p) (by
      rw [Sleeps, stateOf, first.1, procs]
      exact fun p member => away p (mem_cons_of_mem _ member))
    exact ⟨later.1.trans first.1, fun c => (later.2 c).trans (first.2 c)⟩

theorem wakeup_woken (member : p ∈ visited) (main : (s.procs p).mainThread = some t) (asleep : Sleeps s chan t) :
    Woken s (wakeup s chan visited) t := by
  induction visited generalizing s with
  | nil => cases member
  | cons q rest ih =>
    by_cases here : (s.procs q).mainThread = some t
    · have first : Woken s (wakeupProcess chan s q) t := by
        rw [wakeupProcess, here]
        exact wakeupThread_woken asleep
      have later := wakeup_untouched rest fun _ _ _ (again : Sleeps _ chan t) => nomatch first.1.symm.trans again.1
      exact ⟨(congrArg Thread.state later.1).trans first.1, fun c => (later.2 c).trans (first.2 c)⟩
    · obtain ⟨first, procs⟩ := wakeupProcess_untouched fun main => absurd main here
      have later := @ih (wakeupProcess chan s q) ((mem_cons.mp member).resolve_left fun same => here (same ▸ main))
        (procs ▸ main) (by rwa [Sleeps, stateOf, first.1])
      rw [Woken, first.1] at later
      exact ⟨later.1, fun c => (later.2 c).trans (or_congr_left (first.2 c))⟩

end

/-- `wakeup` comes to the end of the list; the threads that slept on the channel are ready, each in one queue, and the others
as they were. -/
def WakesSleepers (s : State n) (chan : Nat) : Prop :=
  ∃ visited, Chain s.list.next s.list.head visited ∧ ∀ t, ¬Sleeps (wakeup s chan visited) chan t ∧
    (Sleeps s chan t → (wakeup s chan visited).stateOf t = .ready ∧ ∃! c, t ∈ (wakeup s chan visited).readyQueue c) ∧
    (¬Sleeps s chan t → Untouched s (wakeup s chan visited) t)

/-- The list ends, and a thread that sleeps on the channel is the main thread of a process in it, with one queue that it is
in or belongs to. -/
def SleepersListed (s : State n) (chan : Nat) : Prop :=
  ∃ visited, Chain s.list.next s.list.head visited ∧ ∀ t, Sleeps s chan t →
    (∃ p ∈ visited, (s.procs p).mainThread = some t) ∧
      ∃! c, t ∈ s.readyQueue c ∨ getCpuDataBlock n (s.threads t).cpuId = some c

end Sirius.Sched
