import Sirius.Sched.Calls

/-! Where threads are: each in at most one ready queue, current on at most one processor,
and both at once only on the same processor. What the scheduler does keeps this, as long as
a thread that is still current is made ready on the processor it is current on. -/
namespace Sirius.Sched
open Support Function List State

structure Placed (s : State n) : Prop where
  once : ∀ c, (s.readyQueue c).Nodup
  home : ∀ {c d t}, t ∈ s.readyQueue c → t ∈ s.readyQueue d → c = d
  ready : ∀ {c t}, t ∈ s.readyQueue c → s.stateOf t = .ready
  alone : ∀ {c d}, s.current c = s.current d → c = d
  near : ∀ {c d}, s.current c ∈ s.readyQueue d → c = d
  idleOut : ∀ c d, s.idle c ∉ s.readyQueue d
  idleHome : ∀ {c d}, s.current d = s.idle c → d = c
  idleAlone : ∀ {c d}, s.idle d = s.idle c → d = c
  idleTid : ∀ c, (s.threads (s.idle c)).tid = 0

section Effects
variable (s : State n) (c : Fin n) (t : Tcb)

@[simp] theorem setCpu_readyQueue (f : Cpu → Cpu) :
    (s.setCpu c f).readyQueue = update s.readyQueue c (f (s.cpus c)).ready := comp_update Cpu.ready s.cpus c _

@[simp] theorem setCpu_current (f : Cpu → Cpu) :
    (s.setCpu c f).current = update s.current c (f (s.cpus c)).current := comp_update Cpu.current s.cpus c _

@[simp] theorem setCpu_idle (f : Cpu → Cpu) (same : (f (s.cpus c)).idle = s.idle c) : (s.setCpu c f).idle = s.idle := by
  have idle : (s.setCpu c f).idle = update s.idle c (f (s.cpus c)).idle := comp_update Cpu.idle s.cpus c _
  rw [idle, same, update_eq_self]

end Effects

def withQueue (s : State n) (c : Fin n) (queue : List Tcb) : State n :=
  s.setCpu c fun cpu => { cpu with ready := queue }

section WithQueue
variable (s : State n) (c : Fin n) (queue : List Tcb)

@[simp] theorem withQueue_readyQueue : (withQueue s c queue).readyQueue = update s.readyQueue c queue :=
  setCpu_readyQueue s c _

@[simp] theorem withQueue_current : (withQueue s c queue).current = s.current := by
  rw [withQueue, setCpu_current]
  exact update_eq_self c s.current

@[simp] theorem withQueue_idle : (withQueue s c queue).idle = s.idle := setCpu_idle s c _ rfl

@[simp] theorem withQueue_threads : (withQueue s c queue).threads = s.threads := rfl

@[simp] theorem withQueue_stateOf : (withQueue s c queue).stateOf = s.stateOf := rfl

end WithQueue

theorem enqueueThread_some (s : State n) (c : Fin n) (t : Tcb) :
    enqueueThread s (some c) t = withQueue s c (s.readyQueue c ++ [t]) := rfl

theorem mem_enqueued {s : State n} :
    u ∈ (withQueue s c (s.readyQueue c ++ [t])).readyQueue d ↔ u ∈ s.readyQueue d ∨ d = c ∧ u = t := by
  rw [withQueue_readyQueue]
  by_cases here : d = c
  · subst here
    rw [update_self, mem_append, mem_singleton, eq_self, true_and]
  · rw [update_of_ne here, or_iff_left fun same => here same.1]

theorem enqueueThread_threads (s : State n) (cpu : Option (Fin n)) (t : Tcb) : (enqueueThread s cpu t).threads = s.threads := by
  cases cpu <;> rfl

theorem mem_makeReady {s : State n} :
    u ∈ (makeReady s t).readyQueue c ↔ u ∈ s.readyQueue c ∨ u = t ∧ getCpuDataBlock n (s.threads t).cpuId = some c := by
  rw [makeReady]
  cases getCpuDataBlock n (s.threads t).cpuId with
  | none => exact (or_iff_left fun woken => nomatch woken.2).symm
  | some d =>
    rw [Option.some_inj, eq_comm (a := d), and_comm]
    exact mem_enqueued

theorem withQueue_self (s : State n) (c : Fin n) : withQueue s c (s.readyQueue c) = s := by
  have same : update s.cpus c { s.cpus c with ready := s.readyQueue c } = s.cpus := update_eq_self c s.cpus
  rw [withQueue, setCpu, same]

/-- What `task_switch` does: the queue, with the current thread at its end if it was
running, gives the next thread; from an empty queue nothing is taken. -/
theorem taskSwitch_cases (s : State n) (c : Fin n) : (∃ next rest, (requeue s c).readyQueue c = next :: rest ∧
        taskSwitch s c = dispatch (withQueue (requeue s c) c rest) c next) ∨
      (requeue s c = s ∧ s.readyQueue c = [] ∧
        ∃ next, (next = s.current c ∧ s.stateOf next = .ready ∨ next = s.idle c) ∧ taskSwitch s c = dispatch s c next) := by
  have taken : ∀ queue, (requeue s c).readyQueue c = queue →
      (requeue s c).setCpu c (fun cpu => { cpu with ready := cpu.ready.tail }) = withQueue (requeue s c) c queue.tail := by
    rintro _ rfl
    rfl
  simp only [taskSwitch, dequeueThread]
  cases queue : (requeue s c).readyQueue c with
  | cons next rest =>
    rw [taken _ queue]
    exact .inl ⟨next, rest, rfl, rfl⟩
  | nil =>
    have unchanged : requeue s c = s := by
      rw [requeue] at queue ⊢
      split at queue
      next running =>
        rw [enqueueThread_some, withQueue_readyQueue, update_self] at queue
        exact absurd (append_eq_nil_iff.mp queue).2 (cons_ne_nil _ _)
      next idle => rw [if_neg idle]
    rw [unchanged] at queue taken ⊢
    have emptied := queue ▸ withQueue_self s c
    rw [taken _ queue, tail_nil, emptied]
    refine .inr ⟨rfl, queue, ?_⟩
    dsimp only [List.head?_nil]
    split
    next still => exact ⟨s.current c, .inl ⟨rfl, still.2⟩, rfl⟩
    next => exact ⟨s.idle c, .inr rfl, rfl⟩

/-- `scheduler_exit` takes the first thread of the queue that it does not skip. -/
theorem exitSwitch_cases (s : State n) (c : Fin n) :
    (∃ next rest, next :: rest <:+ s.readyQueue c ∧ s.stateOf next ≠ .dead ∧
        exitSwitch s c = dispatch (withQueue s c rest) c next) ∨
      exitSwitch s c = dispatch (withQueue s c []) c (s.idle c) := by
  have suffixed : exitSkip s (s.current c) (s.readyQueue c) <:+ s.readyQueue c := dropWhile_suffix _
  have first : ∀ next rest, exitSkip s (s.current c) (s.readyQueue c) = next :: rest → s.stateOf next ≠ .dead := by
    intro next rest skipped dead
    have kept := List.head?_dropWhile_not (fun t => t = s.current c ∨ s.stateOf t = .dead) (s.readyQueue c)
    rw [show List.dropWhile _ (s.readyQueue c) = next :: rest from skipped] at kept
    simp [dead] at kept
  rw [exitSwitch]
  cases skipped : exitSkip s (s.current c) (s.readyQueue c) with
  | nil => exact .inr (congrArg (dispatch (withQueue s c []) c) (congrFun (withQueue_idle s c []) c))
  | cons next rest => exact .inl ⟨next, rest, skipped ▸ suffixed, first next rest skipped, rfl⟩

section Dispatch
variable (s : State n) (c : Fin n) (t : Tcb)

@[simp] theorem dispatch_readyQueue : (dispatch s c t).readyQueue = s.readyQueue := by
  rw [dispatch, setCpu_readyQueue]
  exact update_eq_self c s.readyQueue

@[simp] theorem dispatch_current : (dispatch s c t).current = update s.current c t :=
  setCpu_current _ c _

@[simp] theorem dispatch_idle : (dispatch s c t).idle = s.idle := setCpu_idle (s.setState t .running) c _ rfl

@[simp] theorem dispatch_stateOf_self : (dispatch s c t).stateOf t = .running := setState_stateOf_self s t _

theorem dispatch_stateOf_of_ne (other : u ≠ t) : (dispatch s c t).stateOf u = s.stateOf u :=
  setState_stateOf_of_ne s t _ other

end Dispatch

/-- What making a thread ready does, whichever queue it goes to. -/
structure Readied (s s' : State n) (t : Tcb) : Prop where
  current : s'.current = s.current
  idle : s'.idle = s.idle
  tcbs : s'.tcbs = s.tcbs
  self : s'.stateOf t = .ready
  others : ∀ u, u ≠ t → s'.stateOf u = s.stateOf u
  members : ∀ d, ∀ u ∈ s'.readyQueue d, u ∈ s.readyQueue d ∨ u = t

theorem enqueueThread_readied (s : State n) (cpu : Option (Fin n)) (t : Tcb) :
    Readied s (enqueueThread (s.setState t .ready) cpu t) t := by
  have self := setState_stateOf_self s t .ready
  have others := fun u other => setState_stateOf_of_ne s t .ready (u := u) other
  cases cpu with
  | none => exact ⟨rfl, rfl, rfl, self, others, fun d u queued => .inl queued⟩
  | some c =>
    refine ⟨withQueue_current (s.setState t .ready) c _, withQueue_idle (s.setState t .ready) c _, rfl, self, others, ?_⟩
    intro d u queued
    rw [enqueueThread_some, mem_enqueued] at queued
    exact queued.imp_right And.right

theorem setState_field (s : State n) (t : Tcb) (state : ThreadState) (field : Thread → β)
    (same : field { s.threads t with state := state } = field (s.threads t)) (u : Tcb) :
    field ((s.setState t state).threads u) = field (s.threads u) :=
  setThread_field s t field same u

theorem exitNotify_cases (s : State n) (visited : List Pcb) (owned : (s.threads t).owner = some x) :
    exitNotify s visited t = s ∧ (∀ p u, visited.find? (fun q => (s.procs q).pid = (s.procs x).ppid) = some p →
        (s.procs p).mainThread = some u → s.stateOf u ≠ .blocked) ∨
      ∃ p u, visited.find? (fun q => (s.procs q).pid = (s.procs x).ppid) = some p ∧ (s.procs p).mainThread = some u ∧
        s.stateOf u = .blocked ∧ exitNotify s visited t = makeReady s u := by
  have result : exitNotify s visited t = notifyParent s visited (s.procs x).ppid := by rw [exitNotify, owned]
  rw [result, notifyParent]
  cases found : visited.find? (fun q => (s.procs q).pid = (s.procs x).ppid) with
  | none => exact .inl ⟨rfl, by simp⟩
  | some parent =>
    cases main : (s.procs parent).mainThread with
    | none =>
      refine .inl ⟨by dsimp only; rw [main], fun p u same first => ?_⟩
      cases same
      cases main.symm.trans first
    | some u =>
      by_cases blocked : s.stateOf u = .blocked
      · exact .inr ⟨parent, u, rfl, main, blocked, by dsimp only; rw [main]; exact if_pos blocked⟩
      · refine .inl ⟨by dsimp only; rw [main]; exact if_neg blocked, fun p v same first => ?_⟩
        cases same
        cases main.symm.trans first
        exact blocked

/-- If the thread is still current on a processor, that is the one it will be queued on. -/
def AtHome (s : State n) (t : Tcb) : Prop :=
  ∀ c d, s.current c = t → getCpuDataBlock n (s.threads t).cpuId = some d → c = d

namespace Placed
variable {s : State n}

section
variable (placed : Placed s)
include placed

theorem unqueued (other : s.stateOf t ≠ .ready) : ¬ s.Queued t := by
  rintro ⟨c, queued⟩
  exact other (placed.ready queued)

/-- Threads have at most left the queues. -/
theorem fewer (current : s'.current = s.current) (idle : s'.idle = s.idle)
    (sub : ∀ d, List.Sublist (s'.readyQueue d) (s.readyQueue d)) (ready : ∀ {d t}, t ∈ s'.readyQueue d → s'.stateOf t = .ready)
    (tids : ∀ d, (s'.threads (s.idle d)).tid = (s.threads (s.idle d)).tid) : Placed s' where
  once d := (sub d).nodup (placed.once d)
  home first second := placed.home ((sub _).subset first) ((sub _).subset second)
  ready := ready
  alone := current ▸ placed.alone
  near queued := placed.near ((sub _).subset (current ▸ queued))
  idleOut d e queued := placed.idleOut d e ((sub e).subset (idle ▸ queued))
  idleHome := current ▸ idle ▸ placed.idleHome
  idleAlone := idle ▸ placed.idleAlone
  idleTid d := by rw [idle, tids, placed.idleTid]

/-- Neither the processors nor the states of threads have changed. -/
theorem of_same (states : s'.stateOf = s.stateOf) (tids : ∀ t, (s'.threads t).tid = (s.threads t).tid)
    (cpus : s'.cpus = s.cpus) : Placed s' := by
  obtain ⟨current, idle, queue⟩ := same_places cpus
  exact placed.fewer current idle (fun d => queue ▸ .refl _) (queue ▸ states ▸ placed.ready) fun d => tids _

theorem setState (out : ¬ s.Queued t) (state : ThreadState) : Placed (s.setState t state) := by
  refine placed.fewer rfl rfl (fun d => .refl _) (fun {c u} queued => ?_) fun d => setState_field s t state Thread.tid rfl _
  have other : u ≠ t := by
    rintro rfl
    exact out ⟨c, queued⟩
  rw [setState_stateOf_of_ne s t state other]
  exact placed.ready queued

theorem shrink (shorter : List.Sublist queue (s.readyQueue c)) : Placed (withQueue s c queue) := by
  have sub : ∀ d, List.Sublist ((withQueue s c queue).readyQueue d) (s.readyQueue d) := by
    intro d
    rw [withQueue_readyQueue]
    by_cases here : d = c
    · subst here
      rwa [update_self]
    · rw [update_of_ne here]
  exact placed.fewer (withQueue_current ..) (withQueue_idle ..) sub
    (fun queued => placed.ready ((sub _).subset queued)) fun d => rfl

/-- A thread in no queue goes to the end of one. If it is current somewhere, it has to be
on the same processor. -/
theorem enqueue (out : ¬ s.Queued t) (state : s.stateOf t = .ready) (busy : ∀ d, t ≠ s.idle d)
    (near : ∀ d, s.current d = t → d = c) : Placed (withQueue s c (s.readyQueue c ++ [t])) := by
  refine ⟨fun d => ?_, fun {d e u} first second => ?_, fun {d u} queued => ?_, ?_, fun {d e} queued => ?_,
    fun d e queued => ?_, ?_, ?_, ?_⟩
  all_goals try simp only [withQueue_current, withQueue_idle] at *
  · rw [withQueue_readyQueue]
    by_cases here : d = c
    · subst here
      rw [update_self]
      refine nodup_append.mpr ⟨placed.once d, nodup_singleton t, ?_⟩
      rintro u queued _ single rfl
      rw [mem_singleton] at single
      subst single
      exact out ⟨d, queued⟩
    · rw [update_of_ne here]
      exact placed.once d
  · rcases mem_enqueued.mp first with before | ⟨rfl, rfl⟩
    · rcases mem_enqueued.mp second with other | ⟨rfl, rfl⟩
      · exact placed.home before other
      · exact absurd ⟨d, before⟩ out
    · rcases mem_enqueued.mp second with other | ⟨rfl, -⟩
      · exact absurd ⟨e, other⟩ out
      · rfl
  · rcases mem_enqueued.mp queued with before | ⟨-, rfl⟩
    · exact placed.ready before
    · exact state
  · exact placed.alone
  · rcases mem_enqueued.mp queued with before | ⟨rfl, same⟩
    · exact placed.near before
    · exact near d same
  · rcases mem_enqueued.mp queued with before | ⟨-, same⟩
    · exact placed.idleOut d e before
    · exact busy d same.symm
  · exact placed.idleHome
  · exact placed.idleAlone
  · exact placed.idleTid

/-- A thread in no queue becomes current. -/
theorem dispatch (out : ¬ s.Queued t) (alone : ∀ d, s.current d = t → d = c) (idle : ∀ d, s.idle d = t → d = c) :
    Placed (dispatch s c t) := by
  refine ⟨?_, ?_, fun {d u} queued => ?_, fun {d e} same => ?_, fun {d e} queued => ?_, ?_, fun {d e} same => ?_, ?_, fun d => ?_⟩
  all_goals simp only [dispatch_readyQueue, dispatch_idle, dispatch_current, update_apply] at *
  · exact placed.once
  · exact placed.home
  · have other : u ≠ t := by
      rintro rfl
      exact out ⟨d, queued⟩
    rw [dispatch_stateOf_of_ne s c t other]
    exact placed.ready queued
  · split at same
    next here =>
      split at same
      next there => exact here.trans there.symm
      next => exact here.trans (alone e same.symm).symm
    next =>
      split at same
      next there => exact (alone d same).trans there.symm
      next => exact placed.alone same
  · split at queued
    · exact absurd ⟨e, queued⟩ out
    · exact placed.near queued
  · exact placed.idleOut
  · split at same
    next here => exact here.trans (idle d same.symm).symm
    next => exact placed.idleHome same
  · exact placed.idleAlone
  · exact (setState_field s t .running Thread.tid rfl _).trans (placed.idleTid d)

/-- A thread of the queue becomes current, and those before it leave the queue. -/
theorem dispatchQueued (part : t :: rest <:+ s.readyQueue c) : Placed (Sched.dispatch (withQueue s c rest) c t) := by
  have queued := part.subset mem_cons_self
  refine (placed.shrink ((sublist_cons_self t rest).trans part.sublist)).dispatch ?_ ?_ ?_
  · rintro ⟨d, still⟩
    rw [withQueue_readyQueue] at still
    by_cases here : d = c
    · subst here
      rw [update_self] at still
      exact (nodup_cons.mp (part.sublist.nodup (placed.once d))).1 still
    · rw [update_of_ne here] at still
      exact here (placed.home still queued)
  · intro d same
    rw [withQueue_current] at same
    exact placed.near (same ▸ queued)
  · intro d same
    rw [withQueue_idle] at same
    exact absurd (same ▸ queued) (placed.idleOut d c)

theorem dispatchIdle (c : Fin n) : Placed (Sched.dispatch s c (s.idle c)) :=
  placed.dispatch (fun ⟨d, queued⟩ => placed.idleOut c d queued) (fun _ same => placed.idleHome same)
    (fun _ same => placed.idleAlone same)

theorem requeue (c : Fin n) : Placed (requeue s c) := by
  rw [Sched.requeue]
  split
  next running =>
    have out := placed.unqueued (by rw [running.1]; decide)
    refine (placed.setState out .ready).enqueue out (setState_stateOf_self s _ _) ?_ fun d same => placed.alone same
    rintro d same
    exact running.2 (same ▸ placed.idleTid d)
  next => exact placed

theorem taskSwitch (c : Fin n) : Placed (taskSwitch s c) := by
  rcases taskSwitch_cases s c with ⟨next, rest, queue, result⟩ | ⟨-, empty, next, which, result⟩
  · rw [result]
    exact (placed.requeue c).dispatchQueued (queue ▸ suffix_rfl)
  rw [result]
  rcases which with ⟨rfl, -⟩ | rfl
  · refine placed.dispatch ?_ (fun d same => placed.alone same) fun d same => (placed.idleHome same.symm).symm
    rintro ⟨d, queued⟩
    obtain rfl := placed.near queued
    rw [empty] at queued
    exact not_mem_nil queued
  · exact placed.dispatchIdle c

theorem exitSwitch (c : Fin n) : Placed (exitSwitch s c) := by
  rcases exitSwitch_cases s c with ⟨next, rest, part, -, result⟩ | result
  · rw [result]
    exact placed.dispatchQueued part
  · have idle := (placed.shrink (nil_sublist (s.readyQueue c))).dispatchIdle c
    rw [withQueue_idle] at idle
    rw [result]
    exact idle

/-- A sleeping thread is made ready; if it is still current, its processor has to be the
one it is current on. -/
theorem makeReady (asleep : s.stateOf t ≠ .ready) (busy : ∀ d, t ≠ s.idle d) (home : AtHome s t) : Placed (makeReady s t) := by
  have out := placed.unqueued asleep
  rw [Sched.makeReady]
  cases cpu : getCpuDataBlock n (s.threads t).cpuId with
  | none => exact placed.setState out .ready
  | some c =>
    exact (placed.setState out .ready).enqueue out (setState_stateOf_self s t _) busy fun d same => home d c same cpu

end

end Placed

/-- What a change of thread on one processor does, whatever its reason. -/
structure Switched (s s' : State n) (c : Fin n) : Prop where
  current : ∀ d, d ≠ c → s'.current d = s.current d
  queue : ∀ d, d ≠ c → s'.readyQueue d = s.readyQueue d
  idle : s'.idle = s.idle
  tcbs : s'.tcbs = s.tcbs
  running : s'.stateOf (s'.current c) = .running
  states : ∀ t, t ≠ s'.current c →
    s'.stateOf t = s.stateOf t ∨ t = s.current c ∧ s.stateOf t = .running ∧ s'.stateOf t = .ready
  members : ∀ t ∈ s'.readyQueue c, t ∈ s.readyQueue c ∨ t = s.current c
  chosen : s'.current c ∈ s.readyQueue c ∨
    s'.current c = s.current c ∧ (s.stateOf (s.current c) = .running ∨ s.stateOf (s.current c) = .ready) ∨
    s'.current c = s.idle c

/-- A thread that neither runs nor is ready afterwards was so before. -/
theorem Switched.kept (switched : Switched s s' c) (now : s'.stateOf t = state) (notRunning : state ≠ .running)
    (notReady : state ≠ .ready) : s.stateOf t = state := by
  by_cases here : t = s'.current c
  · rw [here] at now
    exact absurd (now.symm.trans switched.running) notRunning
  · rcases switched.states t here with same | ⟨-, -, ready⟩
    · exact same ▸ now
    · exact absurd (now.symm.trans ready) notReady

/-- On the other processors everything goes on. -/
theorem Switched.elsewhere (switched : Switched s s' c) (placed : Placed s) (placed' : Placed s') (other : d ≠ c) :
    s'.stateOf (s'.current d) = s.stateOf (s.current d) := by
  have here := switched.current d other
  rcases switched.states _ fun same => other (placed'.alone same) with same | ⟨same, -⟩
  · rw [same, here]
  · exact absurd (placed.alone (here.symm.trans same)) other

theorem withQueue_withQueue (s : State n) (c : Fin n) (first second : List Tcb) :
    withQueue (withQueue s c first) c second = withQueue s c second := by
  simp [withQueue, setCpu, update_idem]

theorem dispatch_switched {next : Tcb} (s : State n) (members : ∀ t ∈ queue, t ∈ s.readyQueue c ∨ t = s.current c)
    (chosen : next ∈ s.readyQueue c ∨
      next = s.current c ∧ (s.stateOf (s.current c) = .running ∨ s.stateOf (s.current c) = .ready) ∨ next = s.idle c) :
    Switched s (dispatch (withQueue s c queue) c next) c := by
  have current : (dispatch (withQueue s c queue) c next).current c = next := by
    rw [dispatch_current, update_self]
  refine ⟨fun d other => ?_, fun d other => ?_, ?_, rfl, ?_, fun t other => ?_, fun t queued => ?_, ?_⟩
  · rw [dispatch_current, update_of_ne other, withQueue_current]
  · rw [dispatch_readyQueue, withQueue_readyQueue, update_of_ne other]
  · rw [dispatch_idle, withQueue_idle]
  · rw [current, dispatch_stateOf_self]
  · rw [current] at other
    rw [dispatch_stateOf_of_ne _ c next other, withQueue_stateOf]
    exact .inl rfl
  · rw [dispatch_readyQueue, withQueue_readyQueue, update_self] at queued
    exact members t queued
  · rw [current]
    exact chosen

/-- The running thread was made ready before. -/
theorem Switched.of_ready (running : s.stateOf (s.current c) = .running)
    (switched : Switched (s.setState (s.current c) .ready) s' c) : Switched s s' c := by
  refine ⟨switched.current, switched.queue, switched.idle, switched.tcbs, switched.running, fun u other => ?_,
    switched.members, switched.chosen.imp_right (Or.imp_left fun same => ⟨same.1, .inl running⟩)⟩
  rcases switched.states u other with same | ⟨rfl, impossible, -⟩
  · by_cases here : u = s.current c
    · rw [here, setState_stateOf_self] at same
      exact .inr ⟨here, here ▸ running, here ▸ same⟩
    · rw [setState_stateOf_of_ne s _ _ here] at same
      exact .inl same
  · cases (setState_stateOf_self s _ _).symm.trans impossible

theorem taskSwitch_switched (s : State n) (c : Fin n) : Switched s (taskSwitch s c) c := by
  rcases taskSwitch_cases s c with ⟨next, rest, queue, result⟩ | ⟨-, -, next, which, result⟩
  · rw [result]
    rw [requeue] at queue ⊢
    split at queue
    next running =>
      rw [if_pos running]
      have appended : (s.readyQueue c) ++ [s.current c] = next :: rest := by
        rw [← queue]
        exact ((congrFun (withQueue_readyQueue (s.setState (s.current c) .ready) c _) c).trans (update_self c _ _)).symm
      have member : ∀ t ∈ next :: rest, t ∈ s.readyQueue c ∨ t = s.current c := by
        intro t listed
        rw [← appended, mem_append, mem_singleton] at listed
        exact listed
      rw [enqueueThread_some, withQueue_withQueue]
      refine Switched.of_ready running.1 (dispatch_switched _ (fun t later => member t (mem_cons_of_mem _ later)) ?_)
      exact (member next mem_cons_self).imp_right fun same => .inl ⟨same, .inr (setState_stateOf_self s _ _)⟩
    next idle =>
      rw [if_neg idle]
      refine dispatch_switched s (fun t later => .inl ?_) (.inl ?_)
      · exact queue ▸ mem_cons_of_mem _ later
      · exact queue ▸ mem_cons_self
  · have switched : Switched s (dispatch (withQueue s c (s.readyQueue c)) c next) c := by
      refine dispatch_switched s (fun t queued => .inl queued) (.inr ?_)
      rcases which with ⟨rfl, ready⟩ | idle
      · exact .inl ⟨rfl, .inr ready⟩
      · exact .inr idle
    rw [withQueue_self] at switched
    exact result ▸ switched

theorem exitSwitch_switched (s : State n) (c : Fin n) : Switched s (exitSwitch s c) c := by
  rcases exitSwitch_cases s c with ⟨next, rest, part, -, result⟩ | result
  · rw [result]
    refine dispatch_switched s (fun t later => .inl ?_) (.inl ?_)
    · exact part.subset (mem_cons_of_mem _ later)
    · exact part.subset mem_cons_self
  · rw [result]
    exact dispatch_switched s (fun t impossible => absurd impossible not_mem_nil) (.inr (.inr rfl))

/-- Every thread the processors know of has a control block. -/
def Known (s : State n) : Prop :=
  ∀ c, s.current c ∈ s.tcbs ∧ s.idle c ∈ s.tcbs ∧ ∀ t ∈ s.readyQueue c, t ∈ s.tcbs

theorem Known.switched (known : Known s) (step : Switched s s' c) : Known s' := by
  intro d
  obtain ⟨current, idle, queue⟩ := known d
  rw [step.tcbs, step.idle]
  by_cases here : d = c
  · subst here
    refine ⟨?_, idle, fun t queued => ?_⟩
    · rcases step.chosen with taken | ⟨same, -⟩ | same
      · exact queue _ taken
      · exact same ▸ current
      · exact same ▸ idle
    · rcases step.members t queued with before | same
      · exact queue t before
      · exact same ▸ current
  · rw [step.current d here, step.queue d here]
    exact ⟨current, idle, queue⟩

/-- One thread has at most come to the queues. -/
theorem Known.grow {s s' : State n} (known : Known s) (current : s'.current = s.current)
    (idle : s'.idle = s.idle) (sub : s.tcbs ⊆ s'.tcbs)
    (members : ∀ d, ∀ u ∈ s'.readyQueue d, u ∈ s.readyQueue d ∨ u = t) (listed : t ∈ s'.tcbs) : Known s' := by
  intro c
  rw [current, idle]
  refine ⟨sub (known c).1, sub (known c).2.1, fun u queued => ?_⟩
  rcases members c u queued with before | rfl
  · exact sub ((known c).2.2 u before)
  · exact listed

theorem Known.readied (known : Known s) (effect : Readied s s' t) (listed : t ∈ s.tcbs) : Known s' :=
  known.grow effect.current effect.idle (effect.tcbs ▸ Subset.refl _) effect.members (effect.tcbs ▸ listed)

/-- The scheduler is up: every processor runs a thread, and the control blocks refer to
each other as they should. -/
structure Settled (s : State n) : Prop where
  placed : Placed s
  running : ∀ c, s.stateOf (s.current c) = .running
  idleOwner : ∀ c, (s.threads (s.idle c)).owner = none
  mains : ∀ p t, (s.procs p).mainThread = some t → (s.threads t).owner = some p ∧ t ∈ s.tcbs
  known : Known s
  owners : ∀ t ∈ s.tcbs, ∀ p, (s.threads t).owner = some p → p ∈ s.pcbs

/-- A new thread, which no processor knew, has gone to the queue of one. -/
structure Joined (s s' : State n) (t : Tcb) : Prop where
  placed : Placed s'
  known : Known s'
  current : s'.current = s.current
  idle : s'.idle = s.idle
  tcbs : s'.tcbs = t :: s.tcbs
  self : s'.stateOf t = .ready
  others : ∀ u, u ≠ t → s'.threads u = s.threads u
  members : ∀ d, ∀ u ∈ s'.readyQueue d, u ∈ s.readyQueue d ∨ u = t
  notCurrent : ∀ d, s.current d ≠ t
  notIdle : ∀ d, s.idle d ≠ t

theorem Joined.states (step : Joined s s' t) (other : u ≠ t) : s'.stateOf u = s.stateOf u :=
  congrArg Thread.state (step.others u other)

theorem enqueueThread_joined {s s' : State n} (placed : Placed s) (known : Known s) (fresh : t ∉ s.tcbs) (c : Fin n)
    (new : s'.stateOf t = .ready) (others : ∀ u, u ≠ t → s'.threads u = s.threads u) (cpus : s'.cpus = s.cpus)
    (tcbs : s'.tcbs = t :: s.tcbs) : Joined s (enqueueThread s' (some c) t) t := by
  obtain ⟨current, idle, queue⟩ := same_places cpus
  have notCurrent : ∀ d, s.current d ≠ t := fun d same => fresh (same ▸ (known d).1)
  have notIdle : ∀ d, s.idle d ≠ t := fun d same => fresh (same ▸ (known d).2.1)
  have notQueued : ∀ d, ∀ u ∈ s.readyQueue d, u ≠ t := fun d u queued same => fresh (same ▸ (known d).2.2 u queued)
  have before : Placed s' := by
    refine placed.fewer current idle (fun d => queue ▸ .refl _) (fun {d u} queued => ?_) fun d => by rw [others _ (notIdle d)]
    rw [queue] at queued
    rw [stateOf, others u (notQueued d u queued)]
    exact placed.ready queued
  have out : ¬ s'.Queued t := by
    rintro ⟨d, queued⟩
    rw [queue] at queued
    exact notQueued d t queued rfl
  have members : ∀ d, ∀ u ∈ (enqueueThread s' (some c) t).readyQueue d, u ∈ s.readyQueue d ∨ u = t := by
    intro d u listed
    rw [enqueueThread_some, mem_enqueued, queue] at listed
    exact listed.imp_right And.right
  have currents : (enqueueThread s' (some c) t).current = s.current := (withQueue_current s' c _).trans current
  have idles : (enqueueThread s' (some c) t).idle = s.idle := (withQueue_idle s' c _).trans idle
  have known' := known.grow currents idles (tcbs ▸ subset_cons_self t s.tcbs) members (tcbs ▸ mem_cons_self)
  refine ⟨?_, known', currents, idles, tcbs, new, others, members, notCurrent, notIdle⟩
  exact before.enqueue out new (fun d same => notIdle d (idle ▸ same.symm)) fun d same => absurd (current ▸ same) (notCurrent d)

end Sirius.Sched
