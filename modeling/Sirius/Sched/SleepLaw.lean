import Sirius.Sched.WaitLaw

/-! No thread sleeps with the lock it gave to `wait`, as long as `wait` is called with
interrupts off and on the processor the thread belongs to. With interrupts on, the timer
may come between the moment the thread is marked as waiting and the release of the lock. -/
namespace Sirius.Sched
open Support Relation State
open Function (update update_self update_of_ne update_apply)

namespace WaitPc

/-- From the call of `wait` to the call of the scheduler. -/
def Inside : WaitPc → Prop
  | .outside | .resumed => False
  | _ => True

/-- The saved flags are still to be restored. -/
def Saved : WaitPc → Prop
  | .locking | .locked | .anchored | .marked | .released => True
  | _ => False

/-- The thread is marked as waiting and has not yet released its lock. -/
def Holding : WaitPc → Prop
  | .marked | .released | .restored => True
  | _ => False

theorem Holding.inside {pc : WaitPc} (holding : pc.Holding) : pc.Inside := by
  cases pc <;> trivial

theorem Asleep.inside {pc : WaitPc} (asleep : pc.Asleep) : pc.Inside := by
  cases pc <;> trivial

end WaitPc

/-- What holds of each thread: in `wait` it stays current on its processor with interrupts
off, and if it waits and has the lock, it is about to release it. -/
structure ThreadOk (m : Machine n) (t : Tcb) : Prop where
  off : (m.pc t).Inside → ∃ c, m.sched.current c = t ∧ m.interrupts c = false ∧
    ∀ d, getCpuDataBlock n (m.sched.threads t).cpuId = some d → c = d
  flags : (m.pc t).Saved → (m.call t).flags = false
  passes : m.pc t ≠ .outside → (m.call t).lk = true
  holding : m.sched.stateOf t = .waiting → m.holder = some t → (m.pc t).Holding

structure SleepInv (m : Machine n) : Prop where
  wait : WaitInv m.sched m.pc m.waitLock
  threads : ∀ t, ThreadOk m t

/-- `wait` is called with the lock, with interrupts off, and on the processor the thread
belongs to. -/
def Event.QuietCall (event : Event n) (m : Machine n) : Prop :=
  match event with
  | .enter c _ lk => lk = true ∧ m.interrupts c = false ∧ AtHome m.sched (m.sched.current c)
  | _ => True

/-- An event that does not touch a thread nor, while it is in `wait`, its processor. -/
theorem ThreadOk.frame {m m' : Machine n} (ok : ThreadOk m t) (pc : m'.pc t = m.pc t) (call : m'.call t = m.call t)
    (cpuId : (m'.sched.threads t).cpuId = (m.sched.threads t).cpuId)
    (stays : ∀ c, (m.pc t).Inside → m.sched.current c = t → m.interrupts c = false →
      m'.sched.current c = t ∧ m'.interrupts c = false)
    (waiting : m'.sched.stateOf t = .waiting → m.sched.stateOf t = .waiting)
    (holder : m'.sched.stateOf t = .waiting → m'.holder = some t → m.holder = some t) : ThreadOk m' t := by
  refine ⟨fun inside => ?_, fun saved => ?_, fun inside => ?_, fun asleep holds => ?_⟩
  · rw [pc] at inside
    obtain ⟨c, current, off, home⟩ := ok.off inside
    obtain ⟨current, off⟩ := stays c inside current off
    exact ⟨c, current, off, fun d block => home d (cpuId ▸ block)⟩
  · rw [call]
    exact ok.flags (pc ▸ saved)
  · rw [call]
    exact ok.passes (pc ▸ inside)
  · rw [pc]
    exact ok.holding (waiting asleep) (holder asleep holds)

/-- A step of another thread on its own processor. -/
theorem ThreadOk.beside {m m' : Machine n} (ok : ThreadOk m t) (other : t ≠ m.sched.current c)
    (pc : m'.pc = update m.pc (m.sched.current c) place)
    (call : m'.call = update m.call (m.sched.current c) args)
    (thread : m'.sched.threads t = m.sched.threads t) (current : m'.sched.current = m.sched.current)
    (interrupts : m'.interrupts = update m.interrupts c flag)
    (holder : m'.holder = some t → m.holder = some t) : ThreadOk m' t := by
  refine ok.frame ?_ ?_ (by rw [thread]) (fun d _ here off => ?_) (fun waiting => ?_) fun _ => holder
  · rw [pc, update_of_ne other]
  · rw [call, update_of_ne other]
  · have apart : d ≠ c := by
      rintro rfl
      exact other here.symm
    rw [current, interrupts, update_of_ne apart]
    exact ⟨here, off⟩
  · rw [stateOf, ← thread]
    exact waiting

namespace SleepInv
variable {m : Machine n}

section
variable (inv : SleepInv m)
include inv

/-- Whoever is woken while still current is on the processor it belongs to. -/
theorem wakesAtHome (chan : Nat) (t : Tcb) : WakesAtHome m.sched chan t := by
  intro waiting _ c d current block
  have asleep := inv.wait.sleeping c (current ▸ waiting)
  obtain ⟨e, there, -, home⟩ := (inv.threads t).off (current ▸ asleep.inside)
  obtain rfl := inv.wait.placed.alone (current.trans there.symm)
  exact home d block

theorem wakesHome (event : Event n) : event.WakesHome m := by
  cases event with
  | wakeup chan visited => exact fun p _ t _ => inv.wakesAtHome chan t
  | wakeupThread chan t => exact inv.wakesAtHome chan t
  | _ => exact trivial

/-- A current thread that is not about to sleep is not waiting. -/
theorem awake (place : ¬ (m.pc (m.sched.current c)).Asleep) :
    m.sched.stateOf (m.sched.current c) ≠ .waiting :=
  fun waiting => place (inv.wait.sleeping c waiting)

/-- The thread in `wait` on a processor has it with interrupts off. -/
theorem here (inside : (m.pc (m.sched.current c)).Inside) :
    m.interrupts c = false ∧ ∀ d, getCpuDataBlock n (m.sched.threads (m.sched.current c)).cpuId = some d → c = d := by
  obtain ⟨d, current, off, home⟩ := (inv.threads _).off inside
  obtain rfl := inv.wait.placed.alone current
  exact ⟨off, home⟩

theorem waitStep_other (other : t ≠ m.sched.current c) : ThreadOk (m.waitStep c) t := by
  have ok := inv.threads t
  have same := (Function.update_eq_self (m.sched.current c) m.call).symm
  have flag := (Function.update_eq_self c m.interrupts).symm
  rw [Machine.waitStep]
  cases m.pc (m.sched.current c) with
  | outside => exact ok
  | entered => exact ok.beside other rfl rfl rfl rfl rfl id
  | locking | marked => exact ok.beside other rfl same rfl rfl flag id
  | locked | anchored => exact ok.beside other rfl same (update_of_ne other _ _) rfl flag id
  | released | unlocked => exact ok.beside other rfl same rfl rfl rfl id
  | restored =>
    refine ok.beside other rfl same rfl rfl flag fun holds => ?_
    dsimp only at holds
    split at holds
    · cases holds
    · exact holds
  | scheduling =>
    have switched := taskSwitch_switched m.sched c
    refine ok.frame (update_of_ne other _ _) rfl ((Marks.taskSwitch m.sched c).keeps.cpuId t) ?_ ?_ fun _ => id
    · intro d _ current off
      have apart : d ≠ c := by
        rintro rfl
        exact other current.symm
      exact ⟨(switched.current d apart).trans current, (update_of_ne apart _ _).trans off⟩
    · exact fun waiting => switched.kept waiting (by decide) (by decide)
  | resumed =>
    refine ok.beside other rfl same rfl rfl flag fun holds => ?_
    dsimp only at holds
    split at holds
    · exact absurd (Option.some.inj holds).symm other
    · exact holds

/-- The acting thread is still on its processor with interrupts off, further on in `wait`. -/
theorem onward (inside : (m.pc (m.sched.current c)).Inside)
    (pc : m'.pc (m.sched.current c) = place) (current : m'.sched.current c = m.sched.current c)
    (off : m'.interrupts c = false)
    (cpuId : (m'.sched.threads (m.sched.current c)).cpuId = (m.sched.threads (m.sched.current c)).cpuId)
    (flags : place.Saved → (m'.call (m.sched.current c)).flags = false)
    (passes : (m'.call (m.sched.current c)).lk = true)
    (holding : m'.sched.stateOf (m.sched.current c) = .waiting → m'.holder = some (m.sched.current c) → place.Holding) :
    ThreadOk m' (m.sched.current c) where
  off := fun _ => ⟨c, current, off, fun d block => (inv.here inside).2 d (cpuId ▸ block)⟩
  flags := fun saved => flags (pc ▸ saved)
  passes := fun _ => passes
  holding := fun waiting holds => pc ▸ holding waiting holds

end

/-- The acting thread has left the part of `wait` before the call of the scheduler. -/
theorem past (pc : m'.pc t = place) (left : ¬ place.Inside ∧ ¬ place.Saved)
    (passes : place ≠ .outside → (m'.call t).lk = true)
    (released : m'.sched.stateOf t = .waiting → m'.holder ≠ some t) : ThreadOk m' t where
  off := fun inside => absurd (pc ▸ inside) left.1
  flags := fun saved => absurd (pc ▸ saved) left.2
  passes := fun inside => passes (pc ▸ inside)
  holding := fun waiting holds => absurd holds (released waiting)

theorem waitStep_self (inv : SleepInv m) (inside : m.pc (m.sched.current c) ≠ .outside) :
    ThreadOk (m.waitStep c) (m.sched.current c) := by
  let self := m.sched.current c
  have ok := inv.threads self
  have passes := ok.passes inside
  have pc := fun place => update_self self place m.pc
  obtain ⟨place, same⟩ : ∃ place, m.pc self = place := ⟨_, rfl⟩
  have within : place.Inside → (m.pc self).Inside := same ▸ id
  have off : place.Inside → m.interrupts c = false := fun inside => (inv.here (same ▸ inside)).1
  have flags : place.Saved → (m.call self).flags = false := same ▸ ok.flags
  have awake : ¬place.Asleep → m.sched.stateOf self ≠ .waiting := same ▸ inv.awake
  have holding := same ▸ ok.holding
  rw [Machine.waitStep, same]
  cases place with
  | outside => exact absurd same inside
  | entered =>
    have call := fun args => update_self self args m.call
    refine inv.onward (within trivial) (pc .locking) rfl (update_self c _ _) rfl (fun _ => ?_) ?_ fun waiting _ => ?_
    · exact (congrArg WaitCall.flags (call _)).trans (off trivial)
    · exact (congrArg WaitCall.lk (call _)).trans passes
    · exact absurd waiting (awake not_false)
  | locking =>
    refine inv.onward (within trivial) (pc .locked) rfl (off trivial) rfl (fun _ => flags trivial) passes fun waiting _ => ?_
    exact absurd waiting (awake not_false)
  | locked =>
    let anchor : Thread → Thread := ({ · with chan := some (m.call self).chan })
    have cpuId := setThread_field m.sched self (f := anchor) Thread.cpuId rfl
    have state := setThread_field m.sched self (f := anchor) Thread.state rfl
    refine inv.onward (within trivial) (pc .anchored) rfl (off trivial) (cpuId _) (fun _ => flags trivial) passes
      fun waiting _ => ?_
    exact absurd ((state _).symm.trans waiting) (awake not_false)
  | anchored =>
    have cpuId := setState_field m.sched self .waiting Thread.cpuId rfl
    exact inv.onward (within trivial) (pc .marked) rfl (off trivial) (cpuId _) (fun _ => flags trivial) passes
      (fun _ _ => trivial)
  | marked =>
    exact inv.onward (within trivial) (pc .released) rfl (off trivial) rfl (fun _ => flags trivial) passes
      (fun _ _ => trivial)
  | released =>
    exact inv.onward (within trivial) (pc .restored) rfl ((update_self c _ _).trans (flags trivial)) rfl
      (fun _ => flags trivial) passes
      (fun _ _ => trivial)
  | restored =>
    refine inv.onward (within trivial) (pc .unlocked) rfl (off trivial) rfl False.elim passes fun _ holds => ?_
    cases (if_pos passes).symm.trans holds
  | unlocked =>
    refine inv.onward (within trivial) (pc .scheduling) rfl (update_self c _ _) rfl False.elim passes holding
  | scheduling =>
    refine past (pc .resumed) ⟨not_false, not_false⟩ (fun _ => passes) fun waiting => ?_
    exact holding ((taskSwitch_switched m.sched c).kept waiting (by decide) (by decide))
  | resumed =>
    refine past (pc .outside) ⟨not_false, not_false⟩ (absurd rfl) fun waiting _ => ?_
    exact awake not_false waiting

/-- A change of thread on a processor where nobody is in `wait`. -/
theorem elsewhere {m m' : Machine n} (ok : ThreadOk m t) (pc : m'.pc t = m.pc t) (call : m'.call t = m.call t)
    (keeps : Keeps m.sched m'.sched) (current : ∀ d, d ≠ c → m'.sched.current d = m.sched.current d)
    (interrupts : ∀ d, d ≠ c → m'.interrupts d = m.interrupts d)
    (away : (m.pc t).Inside → m.sched.current c = t → m.interrupts c ≠ false)
    (waiting : m'.sched.stateOf t = .waiting → m.sched.stateOf t = .waiting) (holder : m'.holder = m.holder) :
    ThreadOk m' t := by
  refine ok.frame pc call (keeps.cpuId t) (fun d inside here off => ?_) waiting fun _ holds => holder ▸ holds
  have apart : d ≠ c := by
    rintro rfl
    exact away inside here off
  exact ⟨(current d apart).trans here, (interrupts d apart).trans off⟩

theorem timer (inv : SleepInv m) (enabled : m.interrupts c = true) (t : Tcb) : ThreadOk ((Event.timer c).apply m) t := by
  have switched := taskSwitch_switched m.sched c
  refine elsewhere (inv.threads t) rfl rfl (Marks.taskSwitch m.sched c).keeps switched.current (fun d apart => ?_) (fun _ _ => ?_)
    (fun waiting => switched.kept waiting nofun nofun) rfl
  · exact update_of_ne apart _ _
  · rw [enabled]
    exact nofun

theorem exit (inv : SleepInv m) (acts : m.Acts c) (code : BitVec 32) (visited : List Pcb) (t : Tcb) :
    ThreadOk ((Event.exit c code visited).apply m) t := by
  have switched := schedulerExit_switched inv.wait.unblocked c code visited
  refine elsewhere (inv.threads t) rfl rfl (Keeps.schedulerExit m.sched c code visited) switched.current
    (fun d apart => update_of_ne apart _ _) (fun inside here => ?_) (fun waiting => ?_) rfl
  · rw [← here, acts.outside] at inside
    exact inside.elim
  have before := switched.kept waiting nofun nofun
  rw [setState_stateOf, update_apply] at before
  split at before
  · cases before
  · exact before

theorem woken {s' : State n} (inv : SleepInv m) (kept : WakeKeeps m.sched s') (t : Tcb) :
    ThreadOk { m with sched := s' } t := by
  refine (inv.threads t).frame rfl rfl (kept.keeps.cpuId t) (fun c _ here off => ?_) (fun waiting => ?_) fun _ => id
  · rw [kept.current]
    exact ⟨here, off⟩
  · rw [stateOf, ← kept.waiting t waiting]
    exact waiting

theorem enter (inv : SleepInv m) (acts : m.Acts c) (chan : Nat) (off : m.interrupts c = false)
    (home : AtHome m.sched (m.sched.current c)) (t : Tcb) : ThreadOk ((Event.enter c chan true).apply m) t := by
  by_cases here : t = m.sched.current c
  · subst here
    have pc : ((Event.enter c chan true).apply m).pc (m.sched.current c) = .entered := update_self _ _ _
    refine ⟨fun _ => ⟨c, rfl, off, fun d block => home c d rfl block⟩, fun saved => ?_, fun _ => ?_, fun waiting _ => ?_⟩
    · rw [pc] at saved
      exact saved.elim
    · exact congrArg WaitCall.lk (update_self (m.sched.current c) _ m.call)
    · exact absurd waiting (inv.awake (by rw [acts.outside]; exact not_false))
  · exact (inv.threads t).beside here rfl rfl rfl rfl (Function.update_eq_self c m.interrupts).symm id

/-- What `clone` leaves of the threads that there were. -/
theorem clone_keeps (s : State n) (c : Fin n) (flags : BitVec 32) (grants : Grants) :
    (clone s c flags grants).current = s.current ∧
      (∀ u, grants.tcb ≠ some u → (clone s c flags grants).threads u = s.threads u) ∧
      ∀ u, grants.tcb = some u → (clone s c flags grants).stateOf u = .waiting → s.stateOf u = .waiting := by
  rcases clone_cases s c flags grants with failed | ⟨t, owner, s', new, result⟩
  · refine ⟨(same_places failed.cpus).1, fun u _ => by rw [failed.threads], fun u _ waiting => ?_⟩
    rwa [stateOf, failed.threads] at waiting
  rw [result]
  refine ⟨(withQueue_current s' c _).trans (same_places new.cpus).1, fun u other => ?_, fun u same waiting => ?_⟩
  · exact new.others u fun here => other (here ▸ new.granted)
  · obtain rfl := Option.some.inj (new.granted.symm.trans same)
    cases new.ready.symm.trans waiting

theorem clone (inv : SleepInv m) (fresh : ∀ t, grants.tcb = some t → t ∉ m.sched.tcbs) (flags : BitVec 32) (t : Tcb) :
    ThreadOk ((Event.clone c flags grants).apply m) t := by
  obtain ⟨current, others, new⟩ := clone_keeps m.sched c flags grants
  have old : ∀ m' : Machine n, grants.tcb ≠ some t → m'.sched = Sched.clone m.sched c flags grants → m'.pc t = m.pc t →
      m'.call = m.call → m'.interrupts = m.interrupts → m'.holder = m.holder → ThreadOk m' t := by
    intro m' other sched pc call interrupts holder
    have thread := sched ▸ others t other
    refine (inv.threads t).frame pc (by rw [call]) (by rw [thread]) (fun d _ here off => ?_) (fun waiting => ?_)
      (fun _ holds => holder ▸ holds)
    · rw [sched, current, interrupts]
      exact ⟨here, off⟩
    · rw [stateOf, ← thread]
      exact waiting
  rw [Event.apply]
  cases given : grants.tcb with
  | none => exact old _ (by simp [given]) rfl rfl rfl rfl rfl
  | some u =>
    by_cases here : t = u
    · subst here
      refine past (update_self t _ _) ⟨not_false, not_false⟩ (absurd rfl) fun waiting _ => ?_
      exact fresh t given (inv.wait.waitingKnown t (new t given waiting))
    · exact old _ (by rw [given]; exact fun same => here (Option.some.inj same).symm) rfl (update_of_ne here _ _) rfl rfl rfl

theorem apply (inv : SleepInv m) (event : Event n) (possible : event.Possible m) (quiet : event.QuietCall m) :
    SleepInv (event.apply m) := by
  refine ⟨event.apply_inv inv.wait possible (inv.wakesHome event), fun t => ?_⟩
  cases event with
  | setInterrupts c on =>
    refine elsewhere (inv.threads t) rfl rfl (.refl _) (fun _ _ => rfl) (fun d apart => update_of_ne apart _ _)
      (fun inside here => ?_) id rfl
    rw [← here, show m.pc (m.sched.current c) = .outside from possible] at inside
    exact inside.elim
  | clone c flags grants => exact inv.clone possible.2 flags t
  | exit c code visited => exact inv.exit possible.1 code visited t
  | spinLock c =>
    refine (inv.threads t).frame rfl rfl rfl (fun _ _ here off => ⟨here, off⟩) id fun waiting holds => ?_
    obtain rfl := Option.some.inj holds
    exact absurd waiting (inv.awake (by rw [possible.1.outside]; exact not_false))
  | spinUnlock c => exact (inv.threads t).frame rfl rfl rfl (fun _ _ here off => ⟨here, off⟩) id (fun _ => nofun)
  | enter c chan lk =>
    obtain ⟨rfl, off, home⟩ := quiet
    exact inv.enter possible chan off home t
  | waitStep c =>
    by_cases here : t = m.sched.current c
    · subst here
      refine inv.waitStep_self fun outside => ?_
      rw [Event.Possible, Machine.WaitPossible, outside] at possible
      exact possible
    · exact inv.waitStep_other here
  | wakeup chan visited => exact inv.woken (wakeup_keeps m.sched chan visited) t
  | wakeupThread chan u => exact inv.woken (wakeupThread_keeps m.sched chan u) t
  | timer c => exact inv.timer possible t

end SleepInv

/-- A thread that waits and does not run, will not run, and has the lock. -/
structure SleepsHolding (m : Machine n) (t : Tcb) : Prop where
  waiting : m.sched.stateOf t = .waiting
  away : ∀ c, m.sched.current c ≠ t
  unqueued : ¬ m.sched.Queued t
  holds : m.holder = some t

def QuietStep (before after : Machine n) : Prop :=
  ∃ event : Event n, event.Possible before ∧ event.QuietCall before ∧ after = event.apply before

/-- In every interleaving in which `wait` is called with interrupts off, on the processor
the thread belongs to, no thread sleeps with the lock. -/
theorem no_thread_sleeps_holding (start : Machine n) (started : Started start) (unheld : start.holder = none)
    (run : ReflTransGen QuietStep start m) (t : Tcb) : ¬ SleepsHolding m t := by
  suffices inv : SleepInv m by
    intro sleeps
    obtain ⟨c, current, -⟩ := (inv.threads t).off ((inv.threads t).holding sleeps.waiting sleeps.holds).inside
    exact sleeps.away c current
  induction run with
  | refl =>
    have outside : ∀ t, ThreadOk start t := fun t =>
      SleepInv.past (started.outside t) ⟨not_false, not_false⟩ (absurd rfl) fun _ => by rw [unheld]; exact nofun
    exact ⟨started.inv, outside⟩
  | tail _ step ih =>
    obtain ⟨event, possible, quiet, rfl⟩ := step
    exact ih.apply event possible quiet

def sleepsQuietly : List (Event 2) :=
  [.setInterrupts 0 false, .spinLock 0, .enter 0 7 true, .waitStep 0, .waitStep 0, .waitStep 0, .waitStep 0, .waitStep 0,
    .waitStep 0, .waitStep 0, .waitStep 0, .waitStep 0]

theorem no_thread_sleeps_holding_quiet : Started twoCpus ∧ twoCpus.holder = none ∧
      ∃ m, ReflTransGen QuietStep twoCpus m ∧ m.sched.stateOf 2 = .waiting ∧ m.sched.current 0 = 0 ∧
        ∀ t, ¬ SleepsHolding m t := by
  have meet : AllMeet Event.apply (fun event m => event.Possible m ∧ event.QuietCall m) sleepsQuietly twoCpus := by
    refine ⟨⟨rfl, trivial⟩, ⟨⟨⟨by decide, rfl⟩, rfl⟩, trivial⟩, ⟨⟨by decide, rfl⟩, rfl, rfl, ?_⟩,
      ⟨trivial, trivial⟩, ⟨rfl, trivial⟩,
      ⟨trivial, trivial⟩, ⟨trivial, trivial⟩, ⟨trivial, trivial⟩, ⟨trivial, trivial⟩, ⟨trivial, trivial⟩, ⟨trivial, trivial⟩,
      ⟨trivial, trivial⟩, trivial⟩
    rw [AtHome]
    decide +kernel
  have run : ReflTransGen QuietStep twoCpus (runAll Event.apply sleepsQuietly twoCpus) := meet.run_both
  exact ⟨twoCpus_started, rfl, _, run, by decide +kernel, by decide +kernel,
    no_thread_sleeps_holding twoCpus twoCpus_started rfl run⟩

/-- With interrupts on, the timer comes when the thread has restored them. -/
def interrupted : List (Event 2) :=
  [.spinLock 0, .enter 0 7 true, .waitStep 0, .waitStep 0, .waitStep 0, .waitStep 0, .waitStep 0, .waitStep 0, .timer 0]

theorem interrupted_thread_sleeps_holding :
    Started twoCpus ∧ twoCpus.holder = none ∧ ∃ m, ReflTransGen Step twoCpus m ∧ ∃ t, SleepsHolding m t := by
  have meet : AllMeet Event.apply Event.Possible interrupted twoCpus :=
    ⟨⟨⟨by decide, rfl⟩, rfl⟩, ⟨by decide, rfl⟩, trivial, rfl, trivial, trivial, trivial, trivial, rfl, trivial⟩
  refine ⟨twoCpus_started, rfl, _, meet.run, 2, ?_, ?_, ?_, ?_⟩
  · decide +kernel
  · decide +kernel
  · rw [State.Queued]
    decide +kernel
  · decide +kernel

end Sirius.Sched
