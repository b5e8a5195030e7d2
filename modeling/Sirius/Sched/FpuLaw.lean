import Sirius.Sched.Switch

/-! The registers of the FPU under lazy switching. A thread that owns them finds them as it left
them, and one that does not is trapped; what the trap gives it are its own, unless it is new to the
FPU and another thread was there before. -/
namespace Sirius.Sched
open Support Function Sched.Core State

/-! ### The dead stay dead -/

section Dead
variable {s s' : State n} {c : Fin n}

theorem Switched.dead_of_dead (switched : Switched s s' c) (live : ∀ u ∈ s.readyQueue c, s.stateOf u ≠ .dead)
    (busy : t ≠ s.idle c) (dead : s.stateOf t = .dead) : s'.stateOf t = .dead := by
  by_cases here : t = s'.current c
  · rcases switched.chosen with queued | ⟨same, awake⟩ | idle
    · exact absurd dead (live t (here ▸ queued))
    · rw [here, same] at dead
      rw [dead] at awake
      rcases awake with running | ready
      · cases running
      · cases ready
    · exact absurd (here.trans idle) busy
  · rcases switched.states t here with same | ⟨-, running, -⟩
    · exact same.trans dead
    · cases dead.symm.trans running

theorem requeue_queued (queued : t ∈ (requeue s c).readyQueue c) :
    t ∈ s.readyQueue c ∨ t = s.current c ∧ s.stateOf t = .running := by
  rw [requeue] at queued
  split at queued
  next running =>
    rcases (enqueueThread_readied s (some c) (s.current c)).members c t queued with old | rfl
    · exact .inl old
    · exact .inr ⟨rfl, running.1⟩
  next => exact .inl queued

theorem taskSwitch_queued (queued : t ∈ (taskSwitch s c).readyQueue c) :
    t ∈ s.readyQueue c ∨ t = s.current c ∧ s.stateOf t = .running := by
  rcases taskSwitch_cases s c with ⟨next, rest, queue, result⟩ | ⟨-, -, next, -, result⟩
  · rw [result, dispatch_readyQueue, withQueue_readyQueue, update_self] at queued
    exact requeue_queued (queue ▸ List.mem_cons_of_mem next queued)
  · rw [result, dispatch_readyQueue] at queued
    exact .inl queued

theorem taskSwitch_live (live : ∀ t ∈ s.readyQueue c, s.stateOf t ≠ .dead) :
    ∀ t ∈ (taskSwitch s c).readyQueue c, (taskSwitch s c).stateOf t ≠ .dead := by
  intro t queued dead
  have before := (taskSwitch_switched s c).kept dead nofun nofun
  rcases taskSwitch_queued queued with old | ⟨-, running⟩
  · exact live t old before
  · cases before.symm.trans running

end Dead

structure Exited (s : State n) (c : Fin n) (s' : State n) : Prop where
  idle : s'.idle c = s.idle c
  live : ∀ t ∈ s'.readyQueue c, s'.stateOf t ≠ .dead
  dead : ∀ t, t ≠ s.idle c → t = s.current c ∨ s.stateOf t = .dead → s'.stateOf t = .dead
  codes : ∀ t, t ≠ s.current c → (s'.threads t).exitCode = (s.threads t).exitCode

theorem schedulerExit_exited {s : State n} (live : ∀ t ∈ s.readyQueue c, s.stateOf t ≠ .dead)
    (out : s.current c ∉ s.readyQueue c) (code : BitVec 32) (visited : List Pcb) :
    Exited s c (schedulerExit s c code visited) := by
  obtain ⟨told, result, notified⟩ := schedulerExit_notified s c code visited
  have alive : ∀ t ∈ told.readyQueue c, told.stateOf t ≠ .dead := by
    intro t queued dead
    rcases notified.states t with same | ⟨-, -, ready⟩
    · rcases notified.members t queued with old | ⟨other, woken⟩
      · have other : t ≠ s.current c := fun here => out (here ▸ old)
        rw [setState_stateOf_of_ne s _ _ other] at same
        exact live t old (same.symm.trans dead)
      · obtain ⟨_, _, -, -, -, blocked, -⟩ := woken
        rw [setState_stateOf_of_ne s _ _ other] at same
        cases (same.symm.trans dead).symm.trans blocked
    · cases dead.symm.trans ready
  have ended : ∀ t, t = s.current c ∨ s.stateOf t = .dead → told.stateOf t = .dead := by
    intro t gone
    rcases notified.states t with same | ⟨other, blocked, -⟩
    · by_cases here : t = s.current c
      · rw [same, here, setState_stateOf_self]
      · rw [same, setState_stateOf_of_ne s _ _ here]
        exact gone.resolve_left here
    · rcases gone with here | dead
      · exact absurd here other
      · cases dead.symm.trans blocked
  have switched := exitSwitch_switched told c
  rw [result]
  refine ⟨(congrFun switched.idle c).trans (congrFun notified.idle c), fun t queued dead => ?_,
    fun t busy gone => ?_, fun t other => ?_⟩
  · refine alive t ?_ (switched.kept dead nofun nofun)
    rcases exitSwitch_cases told c with ⟨next, rest, part, -, shape⟩ | shape
    · rw [shape, dispatch_readyQueue, withQueue_readyQueue, update_self] at queued
      exact part.subset (List.mem_cons_of_mem _ queued)
    · rw [shape, dispatch_readyQueue, withQueue_readyQueue, update_self] at queued
      cases queued
  · exact switched.dead_of_dead alive (congrFun notified.idle c ▸ busy) (ended t gone)
  · refine (setState_field _ _ .running Thread.exitCode rfl t).trans ?_
    exact (notified.codes t).trans (if_neg other)

/-! ### Whose registers -/

/-- `last` is what each thread left in the registers when it last used them. -/
structure Watched (n : Nat) where
  core : Core n
  last : Tcb → Option Registers

/-- What an FPU instruction of the running thread finds. -/
def Core.seen (k : Core n) (c : Fin n) : Registers := (k.trapped c).regs

def Watched.apply (c : Fin n) (call : SwitchCall n) (w : Watched n) : Watched n where
  core := call.apply c w.core
  last := match call with
    | .fpu f => update w.last (w.core.current c) (some (f (w.core.seen c)))
    | _ => w.last

/-- The idle task does not use the FPU, and a thread that exits with the FPU at hand leaves the
processor to the idle task. Without AVX there are no upper halves to change. -/
def SwitchCall.Isolating (c : Fin n) (call : SwitchCall n) (w : Watched n) : Prop :=
  match call with
  | .fpu f =>
    w.core.sched.stateOf (w.core.current c) = .running ∧ w.core.current c ≠ w.core.idle c ∧
      (w.core.avx2 = false → ∀ regs, (f regs).upper = 0)
  | .exit _ visited =>
    w.core.current c ∉ w.core.sched.readyQueue c ∧ (w.core.ts = true ∨ NoneReady w.core.sched c visited)
  | .other after => Elsewhere c w.core after
  | _ => True

/-- The thread may use the FPU: it is not the idle task and has not exited. -/
def Core.Counts (k : Core n) (c : Fin n) (t : Tcb) : Prop := t ≠ k.idle c ∧ k.sched.stateOf t ≠ .dead

structure FpuInv (c : Fin n) (w : Watched n) : Prop where
  live : ∀ t ∈ w.core.sched.readyQueue c, w.core.sched.stateOf t ≠ .dead
  clear : w.core.ts = false → w.core.fpuOwner = some (w.core.current c) ∨ w.core.current c = w.core.idle c
  own : ∀ t, w.core.Counts c t → w.core.fpuOwner = some t → w.core.UsedFpu t ∧ w.last t = some w.core.regs
  kept : ∀ t, w.core.Counts c t → w.core.fpuOwner ≠ some t → w.core.UsedFpu t →
    w.last t = some (w.core.restoreFpu (w.core.saved t) ⟨0, 0⟩)
  never : ∀ t, w.core.Counts c t → ¬ w.core.UsedFpu t → w.last t = none
  narrow : w.core.avx2 = false → w.core.regs.upper = 0

namespace FpuInv
variable {w : Watched n} {k' : Core n}

section
variable (inv : FpuInv c w)
include inv

/-- The FPU itself is left alone, and no dead thread comes back. -/
theorem of_sched (fpuOwner : k'.fpuOwner = w.core.fpuOwner) (regs : k'.regs = w.core.regs) (saved : k'.saved = w.core.saved)
    (avx2 : k'.avx2 = w.core.avx2)
    (counts : ∀ t, k'.Counts c t → w.core.Counts c t ∧ (k'.sched.threads t).exitCode = (w.core.sched.threads t).exitCode)
    (live : ∀ t ∈ k'.sched.readyQueue c, k'.sched.stateOf t ≠ .dead)
    (clear : k'.ts = false → k'.fpuOwner = some (k'.current c) ∨ k'.current c = k'.idle c) : FpuInv c ⟨k', w.last⟩ := by
  have used : ∀ t, k'.Counts c t → (k'.UsedFpu t ↔ w.core.UsedFpu t) := by
    intro t counted
    rw [UsedFpu, (counts t counted).2, UsedFpu]
  refine ⟨live, clear, fun t counted owner => ?_, fun t counted other before => ?_, fun t counted new => ?_, ?_⟩
  · rw [used t counted, regs]
    exact inv.own t (counts t counted).1 (fpuOwner ▸ owner)
  · rw [restoreFpu, avx2, saved]
    exact inv.kept t (counts t counted).1 (fpuOwner ▸ other) ((used t counted).mp before)
  · exact inv.never t (counts t counted).1 fun before => new ((used t counted).mpr before)
  · rw [avx2, regs]
    exact inv.narrow

theorem taskSwitch : FpuInv c ⟨w.core.taskSwitch c, w.last⟩ := by
  have switched := taskSwitch_switched w.core.sched c
  refine inv.of_sched rfl rfl rfl rfl (fun t counted => ?_) (taskSwitch_live inv.live) fun unset => ?_
  · have busy : t ≠ w.core.idle c := fun same => counted.1 (same.trans (congrFun switched.idle c).symm)
    refine ⟨⟨busy, fun dead => ?_⟩, (Marks.taskSwitch w.core.sched c).field Thread.exitCode (fun _ _ => rfl) t⟩
    exact counted.2 (switched.dead_of_dead inv.live busy dead)
  · by_cases owner : some ((Sched.taskSwitch w.core.sched c).current c) = w.core.fpuOwner
    · exact .inl owner.symm
    · exact absurd ((if_pos owner).symm.trans unset) (by simp)

theorem schedulerExit (out : w.core.current c ∉ w.core.sched.readyQueue c)
    (handed : w.core.ts = true ∨ NoneReady w.core.sched c visited) (code : BitVec 32) :
    FpuInv c ⟨w.core.schedulerExit c code visited, w.last⟩ := by
  have exited := schedulerExit_exited inv.live out code visited
  refine inv.of_sched rfl rfl rfl rfl (fun t counted => ?_) exited.live fun unset => ?_
  · have busy : t ≠ w.core.idle c := fun same => counted.1 (same.trans exited.idle.symm)
    refine ⟨⟨busy, fun dead => counted.2 (exited.dead t busy (.inr dead))⟩, exited.codes t fun here => ?_⟩
    exact counted.2 (exited.dead t busy (.inl here))
  · rcases handed with set | none
    · cases set.symm.trans unset
    · exact .inr ((none.idle code).trans exited.idle.symm)

theorem elsewhere (step : Elsewhere c w.core k') : FpuInv c ⟨k', w.last⟩ := by
  refine inv.of_sched step.fpuOwner step.regs step.saved step.avx2 (fun t counted => ⟨⟨?_, fun dead => ?_⟩, step.codes t⟩)
    step.queue ?_
  · exact step.idle ▸ counted.1
  · exact counted.2 (step.dead t dead)
  · rw [step.ts, step.fpuOwner, step.current, step.idle]
    exact inv.clear

theorem restore_of_narrow (area : Registers) : w.core.restoreFpu area w.core.regs = w.core.restoreFpu area ⟨0, 0⟩ := by
  rw [restoreFpu, restoreFpu]
  split
  · rfl
  next legacy => rw [inv.narrow (Bool.eq_false_iff.mpr legacy)]

theorem restore_of_save (area : Registers) : w.core.restoreFpu (w.core.saveFpu w.core.regs area) ⟨0, 0⟩ = w.core.regs := by
  rw [restoreFpu, saveFpu]
  split
  · rfl
  next legacy => rw [← inv.narrow (Bool.eq_false_iff.mpr legacy)]

/-- When the current thread's trap has saved the registers, every other thread has its own saved. -/
theorem saveOwner (counted : w.core.Counts c t) (other : t ≠ w.core.current c) (used : w.core.UsedFpu t) :
    w.last t = some (w.core.restoreFpu ((w.core.saveOwner c).saved t) ⟨0, 0⟩) := by
  rw [Core.saveOwner]
  cases owner : w.core.fpuOwner with
  | none => exact inv.kept t counted (by simp [owner]) used
  | some old =>
    by_cases here : t = old
    · subst here
      dsimp only
      rw [if_pos other, update_self, inv.restore_of_save]
      exact (inv.own t counted owner).2
    · have kept := inv.kept t counted (by rw [owner]; exact fun same => here (Option.some.inj same).symm) used
      dsimp only
      split
      · rw [update_of_ne here]
        exact kept
      · exact kept

end

theorem saveOwner_current (k : Core n) (c : Fin n) : (k.saveOwner c).saved (k.current c) = k.saved (k.current c) := by
  rw [Core.saveOwner]
  cases k.fpuOwner with
  | none => rfl
  | some old =>
    dsimp only
    split
    next other => rw [update_of_ne (Ne.symm other)]
    next => rfl

end FpuInv

/-- The FPU behind the trap: it is the current thread's, with its registers if it has any, and those
of every other thread are in the thread's area. A new thread finds the lower halves as they were. -/
structure Granted (c : Fin n) (w : Watched n) (k : Core n) : Prop where
  ts : k.ts = false
  owner : k.fpuOwner = some (w.core.current c)
  used : k.UsedFpu (w.core.current c)
  own : w.core.UsedFpu (w.core.current c) → w.last (w.core.current c) = some k.regs
  first : ¬ w.core.UsedFpu (w.core.current c) → k.regs = ⟨w.core.regs.legacy, 0⟩
  others : ∀ t, w.core.Counts c t → t ≠ w.core.current c → w.core.UsedFpu t →
    w.last t = some (k.restoreFpu (k.saved t) ⟨0, 0⟩)

namespace FpuInv
variable {w : Watched n}

section
variable (inv : FpuInv c w)
include inv

theorem trapped (counted : w.core.Counts c (w.core.current c)) : Granted c w (w.core.trapped c) := by
  have owned : w.core.fpuOwner = some (w.core.current c) → Granted c w { w.core with ts := false } := by
    intro owner
    obtain ⟨used, last⟩ := inv.own _ counted owner
    refine ⟨rfl, owner, used, fun _ => last, fun new => absurd used new, fun t there other before => ?_⟩
    refine inv.kept t there ?_ before
    rw [owner]
    exact fun same => other (Option.some.inj same).symm
  rw [Core.trapped]
  cases set : w.core.ts with
  | false =>
    have same : { w.core with ts := false } = w.core := by rw [← set]
    have grant := owned ((inv.clear set).resolve_right counted.1)
    rw [same] at grant
    exact grant
  | true =>
    rw [if_pos rfl]
    rcases w.core.handleDeviceNotAvailable_cases c with ⟨owner, result⟩ | ⟨other, used, result⟩ | ⟨other, new, result⟩
    · rw [result]
      exact owned owner
    · rw [result]
      refine ⟨rfl, rfl, used, fun _ => ?_, fun new => absurd used new,
        fun t there different before => inv.saveOwner there different before⟩
      rw [inv.restore_of_narrow, saveOwner_current]
      exact inv.kept _ counted other used
    have current : (w.core.saveOwner c).current c = w.core.current c := rfl
    rw [result]
    refine ⟨rfl, rfl, ?_, fun used => absurd used new, fun _ => ?_, fun t there different before => ?_⟩
    · rw [Core.UsedFpu, Core.firstUse, setThread_threads, current, update_self]
    · dsimp only [Core.firstUse, Core.saveOwner]
      split
      · rfl
      next legacy => rw [← inv.narrow (Bool.eq_false_iff.mpr legacy)]
    · dsimp only [Core.firstUse]
      rw [current, update_of_ne different]
      exact inv.saveOwner there different before

theorem fpuInstruction (isolating : (SwitchCall.fpu f).Isolating c w) : FpuInv c (w.apply c (.fpu f)) := by
  obtain ⟨running, busy, narrow⟩ := isolating
  have counted : w.core.Counts c (w.core.current c) := ⟨busy, by rw [running]; exact nofun⟩
  have granted := inv.trapped counted
  have only := w.core.fpuInstruction_fpuOnly c f
  obtain ⟨currents, idles, queues⟩ := same_places only.cpus
  have current := congrFun currents c
  have counts : ∀ t, (w.core.fpuInstruction c f).Counts c t → w.core.Counts c t := by
    intro t there
    exact ⟨fun same => there.1 (same.trans (congrFun idles c).symm), fun dead => there.2 (only.states ▸ dead)⟩
  have self : update w.last (w.core.current c) (some (f (w.core.seen c))) (w.core.current c) =
      some (w.core.fpuInstruction c f).regs := update_self _ _ _
  refine ⟨?_, fun _ => .inl (granted.owner.trans (congrArg some current.symm)), ?_, ?_, ?_, ?_⟩
  · intro t queued
    exact only.states ▸ inv.live t (queues ▸ queued)
  · intro t _ owner
    obtain rfl := Option.some.inj (granted.owner.symm.trans owner)
    exact ⟨granted.used, self⟩
  · intro t there other used
    have different : t ≠ w.core.current c := fun same => other (same ▸ granted.owner)
    have before := (only.codes t different).symm.trans used
    refine (update_of_ne different _ _).trans ?_
    exact granted.others t (counts t there) different before
  · intro t there new
    have different : t ≠ w.core.current c := fun same => new (same ▸ granted.used)
    refine (update_of_ne different _ _).trans ?_
    exact inv.never t (counts t there) fun used => new ((only.codes t different).trans used)
  · intro legacy
    exact narrow (only.avx2 ▸ legacy) _

theorem apply (call : SwitchCall n) (isolating : call.Isolating c w) : FpuInv c (w.apply c call) := by
  cases call with
  | taskSwitch | schedule => exact inv.taskSwitch
  | exit code visited => exact inv.schedulerExit isolating.1 isolating.2 code
  | fpu f => exact inv.fpuInstruction isolating
  | other after => exact inv.elsewhere isolating

end

end FpuInv

structure FpuFresh (c : Fin n) (k : Core n) : Prop where
  live : ∀ t ∈ k.sched.readyQueue c, k.sched.stateOf t ≠ .dead
  ts : k.ts = true ∨ k.current c = k.idle c
  fpuOwner : k.fpuOwner = none
  new : ∀ t, ¬ k.UsedFpu t
  upper : k.regs.upper = 0

theorem FpuFresh.inv (fresh : FpuFresh c k) : FpuInv c ⟨k, fun _ => none⟩ where
  live := fresh.live
  clear := fun clear => .inr (fresh.ts.resolve_left (by rw [clear]; exact nofun))
  own := fun t _ owner => by cases fresh.fpuOwner.symm.trans owner
  kept := fun t _ _ used => absurd used (fresh.new t)
  never := fun _ _ _ => rfl
  narrow := fun _ => fresh.upper

/-- While no thread exits with the FPU, every thread that has used it finds in the registers what it
left there, whoever was there since; a new thread finds their first contents only if they are there. -/
theorem lazy_fpu_isolates_threads (c : Fin n) (k : Core n) (fresh : FpuFresh c k) (calls : List (SwitchCall n))
    (isolating : AllMeet (Watched.apply c) (SwitchCall.Isolating c) calls ⟨k, fun _ => none⟩) (f : Registers → Registers)
    (use : (SwitchCall.fpu f).Isolating c (runAll (Watched.apply c) calls ⟨k, fun _ => none⟩)) :
    let w := runAll (Watched.apply c) calls ⟨k, fun _ => none⟩
    w.core.seen c = (w.last (w.core.current c)).getD k.regs ↔
      w.core.UsedFpu (w.core.current c) ∨ w.core.regs.legacy = k.regs.legacy := by
  have inv := isolating.preserves fresh.inv fun call _ meets inv => inv.apply call meets
  obtain ⟨running, busy, -⟩ := use
  generalize runAll (Watched.apply c) calls ⟨k, fun _ => none⟩ = w at inv running busy
  have counted : w.core.Counts c (w.core.current c) := ⟨busy, by rw [running]; exact nofun⟩
  have granted := inv.trapped counted
  dsimp only
  by_cases used : w.core.UsedFpu (w.core.current c)
  · rw [granted.own used]
    exact iff_of_true rfl (.inl used)
  · rw [inv.never _ counted used, Core.seen, granted.first used, Option.getD_none, or_iff_right used]
    exact ⟨congrArg Registers.legacy, fun same => by rw [same, ← fresh.upper]⟩

theorem twoReady_fresh : FpuFresh 0 twoReady := by
  refine ⟨by decide, .inl rfl, rfl, fun t => ?_, rfl⟩
  exact (by decide : (0 : BitVec 32) ≠ fpuUsed)

/-- Two threads take turns with the FPU. -/
def fpuTurns : List (SwitchCall 1) :=
  [.taskSwitch, .fpu fun _ => ⟨7, 8⟩, .taskSwitch, .fpu fun _ => ⟨9, 10⟩, .taskSwitch]

theorem lazy_fpu_isolates_threads_turns :
    let w := runAll (Watched.apply 0) fpuTurns ⟨twoReady, fun _ => none⟩
    w.core.fpuOwner = some 2 ∧ w.core.regs = ⟨9, 10⟩ ∧ w.core.current 0 = 1 ∧ w.core.seen 0 = ⟨7, 8⟩ := by
  have isolating : AllMeet (Watched.apply 0) (SwitchCall.Isolating 0) fpuTurns ⟨twoReady, fun _ => none⟩ :=
    ⟨trivial, ⟨by decide, by decide, nofun⟩, trivial, ⟨by decide, by decide, nofun⟩, trivial, trivial⟩
  have use : (SwitchCall.fpu id).Isolating 0 (runAll (Watched.apply 0) fpuTurns ⟨twoReady, fun _ => none⟩) :=
    ⟨by decide, by decide, nofun⟩
  refine ⟨by decide, by decide, by decide, ?_⟩
  have seen := (lazy_fpu_isolates_threads 0 twoReady twoReady_fresh fpuTurns isolating id use).mpr (by decide)
  exact seen.trans (by decide)

/-- The first thread leaves 7 in the registers, and the second, which has never used them, finds it
there. -/
theorem first_use_sees_another_thread : FpuFresh 0 twoReady ∧
      (let w := runAll (Watched.apply 0) [.taskSwitch, .fpu fun _ => ⟨7, 8⟩, .taskSwitch] ⟨twoReady, fun _ => none⟩
       w.core.current 0 = 2 ∧ w.last 2 = none ∧ w.core.seen 0 = ⟨7, 0⟩ ∧ twoReady.regs = ⟨0, 0⟩) :=
  ⟨twoReady_fresh, by decide⟩

end Sirius.Sched
