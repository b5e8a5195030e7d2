import Sirius.Sched.Placement
import Sirius.Support.Runs

/-! Parents in `sys_waitpid` and children in `scheduler_exit`, statement by statement. The
parent looks at its children and then marks itself as blocked; a child becomes a zombie and
then looks whether its parent is blocked. A child that looks in between wakes nobody. -/
namespace Sirius.Sched
open Support Relation Function List

/-- How far a thread has got in `sys_waitpid` or in `scheduler_exit`. -/
inductive FamilyPc where
  | outside
  | scan (pid : BitVec 32)
  | block (pid : BitVec 32)
  | schedule (pid : BitVec 32)
  | becomeZombie (code : BitVec 32)
  | notify
  | leave
  deriving DecidableEq

def FamilyPc.Waits (pid : BitVec 32) : FamilyPc → Prop
  | .scan waited | .block waited | .schedule waited => waited = pid
  | _ => False

/-- The thread runs with interrupts off and does not come back. -/
def FamilyPc.Exiting : FamilyPc → Prop
  | .becomeZombie _ | .notify | .leave => True
  | _ => False

/-- What a current thread at this point of its code is: it has not given up the processor. -/
def FamilyPc.Runs : FamilyPc → Prop
  | .outside | .scan _ | .block _ => True
  | _ => False

/-- Beside the scheduler, where each thread is, and which of the zombies have looked for
their parent. -/
structure Family (n : Nat) where
  sched : State n
  pc : Tcb → FamilyPc
  told : Pcb → Bool

namespace Family

variable (m : Family n) (t : Tcb)

def setPc (pc : FamilyPc) : Family n := { m with pc := update m.pc t pc }

/-- The scan; with it `sys_waitpid` returns, or goes on to block. -/
def scan (pid : BitVec 32) (visited : List Pcb) : Family n :=
  match (m.sched.threads t).owner with
  | none => m.setPc t .outside
  | some parent =>
    match waitScan m.sched visited parent pid with
    | (some child, _) => { m.setPc t .outside with sched := collect m.sched child }
    | (none, false) => m.setPc t .outside
    | (none, true) => m.setPc t (.block pid)

def becomeZombie (code : BitVec 32) : Family n :=
  { m.setPc t .notify with
    sched := exitProcess m.sched t code
    told := ((m.sched.threads t).owner).elim m.told (fun p => update m.told p false) }

def notify (visited : List Pcb) : Family n :=
  { m.setPc t .leave with
    sched := exitNotify m.sched visited t
    told := ((m.sched.threads t).owner).elim m.told (fun p => update m.told p true) }

def step (c : Fin n) (visited : List Pcb) : Family n :=
  let t := m.sched.current c
  match m.pc t with
  | .outside => m
  | .scan pid => m.scan t pid visited
  | .block pid => { m.setPc t (.schedule pid) with sched := m.sched.setState t .blocked }
  | .schedule pid => { m.setPc t (.scan pid) with sched := taskSwitch m.sched c }
  | .becomeZombie code => m.becomeZombie t code
  | .notify => m.notify t visited
  | .leave => { m with sched := exitSwitch m.sched c }

end Family

inductive FamilyEvent (n : Nat) where
  | waitpid (c : Fin n) (pid : BitVec 32)
  | exit (c : Fin n) (code : BitVec 32)
  | step (c : Fin n) (visited : List Pcb)
  | timer (c : Fin n)

section
variable (event : FamilyEvent n) (m : Family n)

/-- System calls are made by threads other than the idle task, a walk over the list goes to
its end, and a thread that exits has interrupts off. -/
def FamilyEvent.Possible : Prop :=
  match event with
  | .waitpid c _ => m.pc (m.sched.current c) = .outside ∧ m.sched.current c ≠ m.sched.idle c
  | .exit c _ => m.pc (m.sched.current c) = .outside ∧ m.sched.current c ≠ m.sched.idle c
  | .step _ visited => Chain m.sched.list.next m.sched.list.head visited
  | .timer c => ¬ (m.pc (m.sched.current c)).Exiting

def FamilyEvent.apply : Family n :=
  match event with
  | .waitpid c pid => m.setPc (m.sched.current c) (.scan pid)
  | .exit c code =>
    { m.setPc (m.sched.current c) (.becomeZombie code) with sched := exitThread m.sched (m.sched.current c) code }
  | .step c visited => m.step c visited
  | .timer c => { m with sched := taskSwitch m.sched c }

def FamilyStep (before after : Family n) : Prop :=
  ∃ event : FamilyEvent n, event.Possible before ∧ after = event.apply before

/-- `sys_waitpid` is called by the first thread of a process. While a process that exits
looks for its parent, the parent is not between its scan and its mark; and if it is marked
but has not left its processor yet, it will be queued there. -/
def FamilyEvent.Orderly : Prop :=
  let s := m.sched
  match event with
  | .waitpid c _ => ∀ p, (s.threads (s.current c)).owner = some p → (s.procs p).mainThread = some (s.current c)
  | .step c _ => m.pc (s.current c) = .notify → ∀ x, (s.threads (s.current c)).owner = some x →
      (∀ t ∈ s.tcbs, ∀ parent pid, m.pc t = .block pid → (s.threads t).owner = some parent → ¬ Awaits s parent pid x) ∧
        ∀ parent ∈ s.pcbs, (s.procs parent).pid = (s.procs x).ppid →
          ∀ t, (s.procs parent).mainThread = some t → s.stateOf t = .blocked → AtHome s t
  | _ => True

end

def OrderlyStep (before after : Family n) : Prop :=
  ∃ event : FamilyEvent n, event.Possible before ∧ event.Orderly before ∧ after = event.apply before

/-- The parent sleeps in `sys_waitpid`, and a child it waits for has exited and will not
wake it any more. -/
structure MissesExit (m : Family n) (t : Tcb) (parent x : Pcb) (pid : BitVec 32) : Prop where
  waits : (m.pc t).Waits pid
  owner : (m.sched.threads t).owner = some parent
  blocked : m.sched.stateOf t = .blocked
  unqueued : ¬ m.sched.Queued t
  child : x ∈ m.sched.pcbs
  awaited : Awaits m.sched parent pid x
  zombie : (m.sched.procs x).state = .zombie
  told : m.told x = true

/-- The processes form the list, with a number each. -/
structure Numbered (s : State n) (cells : List Pcb) : Prop where
  chain : Chain s.list.next s.list.head cells
  members : ∀ p, p ∈ s.pcbs ↔ p ∈ cells
  pids : ∀ p ∈ s.pcbs, ∀ q ∈ s.pcbs, (s.procs p).pid = (s.procs q).pid → p = q

structure FamilyInv (m : Family n) (cells : List Pcb) : Prop where
  placed : Placed m.sched
  running : ∀ c, (m.pc (m.sched.current c)).Runs → m.sched.stateOf (m.sched.current c) = .running
  idleOwner : ∀ c, (m.sched.threads (m.sched.idle c)).owner = none
  mains : ∀ p t, (m.sched.procs p).mainThread = some t → (m.sched.threads t).owner = some p ∧ t ∈ m.sched.tcbs
  known : Known m.sched
  owners : ∀ t ∈ m.sched.tcbs, ∀ p, (m.sched.threads t).owner = some p → p ∈ m.sched.pcbs
  numbered : Numbered m.sched cells
  callers : ∀ t pid p, (m.pc t).Waits pid → (m.sched.threads t).owner = some p → (m.sched.procs p).mainThread = some t
  heard : ∀ t pid p x, (m.pc t).Waits pid → (m.sched.threads t).owner = some p →
    m.sched.stateOf t = .blocked ∨ m.pc t = .block pid →
    x ∈ m.sched.pcbs → Awaits m.sched p pid x → (m.sched.procs x).state = .zombie → m.told x = false

theorem Keeps.awaits (keeps : Keeps s s') : Awaits s' parent wanted x ↔ Awaits s parent wanted x := by
  rw [Awaits, keeps.pid, keeps.pid, keeps.ppid, Awaits]

theorem Numbered.keep (numbered : Numbered s cells) (keeps : Keeps s s') : Numbered s' cells where
  chain := keeps.list ▸ numbered.chain
  members := fun p => keeps.pcbs ▸ numbered.members p
  pids := by
    intro p first q second same
    rw [keeps.pcbs] at first second
    rw [keeps.pid, keeps.pid] at same
    exact numbered.pids p first q second same

/-- The walk finds the process that has the number looked for. -/
theorem Numbered.find (numbered : Numbered s cells) (listed : p ∈ s.pcbs) (same : (s.procs p).pid = wanted) :
    cells.find? (fun q => (s.procs q).pid = wanted) = some p := by
  cases found : cells.find? (fun q => (s.procs q).pid = wanted) with
  | none => exact absurd (decide_eq_true same) (List.find?_eq_none.mp found p ((numbered.members p).mp listed))
  | some q =>
    have member := (numbered.members q).mpr (mem_of_find?_eq_some found)
    have number := of_decide_eq_true (List.find?_some found :)
    rw [numbered.pids q member p listed (number.trans same.symm)]

namespace FamilyInv
variable {m m' : Family n} {cells : List Pcb}

/-- After a step no zombie that a sleeper waits for has looked for its parent. -/
def Heard (m m' : Family n) : Prop :=
  ∀ t pid p x, (m'.pc t).Waits pid → (m.sched.threads t).owner = some p → m'.sched.stateOf t = .blocked ∨ m'.pc t = .block pid →
    x ∈ m.sched.pcbs → Awaits m.sched p pid x → (m'.sched.procs x).state = .zombie → m'.told x = false

section
variable (inv : FamilyInv m cells)
include inv

/-- What a step has to keep; all else is fixed in the control blocks. -/
theorem moved (keeps : Keeps m.sched m'.sched) (idle : m'.sched.idle = m.sched.idle) (placed : Placed m'.sched)
    (known : Known m'.sched)
    (running : ∀ c, (m'.pc (m'.sched.current c)).Runs → m'.sched.stateOf (m'.sched.current c) = .running)
    (callers : ∀ t pid, (m'.pc t).Waits pid →
      (m.pc t).Waits pid ∨ ∀ p, (m.sched.threads t).owner = some p → (m.sched.procs p).mainThread = some t) (heard : Heard m m') :
    FamilyInv m' cells where
  placed := placed
  running := running
  idleOwner := fun c => by
    rw [idle, keeps.owner]
    exact inv.idleOwner c
  mains := fun p t main => by
    rw [keeps.mainThread] at main
    rw [keeps.owner, keeps.tcbs]
    exact inv.mains p t main
  known := known
  owners := fun t listed p owned => by
    rw [keeps.owner] at owned
    exact keeps.pcbs ▸ inv.owners t (keeps.tcbs ▸ listed) p owned
  numbered := inv.numbered.keep keeps
  callers := fun t pid p waits owned => by
    rw [keeps.owner] at owned
    rw [keeps.mainThread]
    rcases callers t pid waits with before | main
    · exact inv.callers t pid p before owned
    · exact main p owned
  heard := fun t pid p x waits owned asleep child awaited zombie =>
    heard t pid p x waits (keeps.owner t ▸ owned) asleep (keeps.pcbs ▸ child) (keeps.awaits.mp awaited) zombie

/-- No thread has come to sleep or is about to, and no zombie has looked for its parent. -/
theorem heard_of (asleep : ∀ t pid, (m'.pc t).Waits pid → m'.sched.stateOf t = .blocked ∨ m'.pc t = .block pid →
      (m.pc t).Waits pid ∧ (m.sched.stateOf t = .blocked ∨ m.pc t = .block pid))
    (zombies : ∀ x, (m'.sched.procs x).state = .zombie → m'.told x = false ∨
      (m.sched.procs x).state = .zombie ∧ m'.told x = m.told x) : Heard m m' := by
  intro t pid p x waits owned sleeps child awaited zombie
  obtain ⟨before, slept⟩ := asleep t pid waits sleeps
  rcases zombies x zombie with quiet | ⟨old, same⟩
  · exact quiet
  · exact same.trans (inv.heard t pid p x before owned slept child awaited old)

theorem unqueued (runs : (m.pc (m.sched.current c)).Runs) : ¬ m.sched.Queued (m.sched.current c) :=
  inv.placed.unqueued (by rw [inv.running c runs]; nofun)

/-- A processor goes on with another thread. -/
theorem switched (s' : State n) (pc : FamilyPc) (placed : Placed s') (marks : Marks m.sched s') (step : Switched m.sched s' c)
    (waits : ∀ pid, pc.Waits pid → (m.pc (m.sched.current c)).Waits pid)
    (stays : ∀ pid, pc = .block pid → m.pc (m.sched.current c) = .block pid) :
    FamilyInv { m.setPc (m.sched.current c) pc with sched := s' } cells := by
  have elsewhere : ∀ t, t ≠ m.sched.current c → update m.pc (m.sched.current c) pc t = m.pc t :=
    fun t other => update_of_ne other _ _
  have before : ∀ {t pid}, (update m.pc (m.sched.current c) pc t).Waits pid → (m.pc t).Waits pid := by
    intro t pid waiting
    by_cases here : t = m.sched.current c
    · rw [here, update_self] at waiting
      exact here ▸ waits pid waiting
    · rwa [elsewhere t here] at waiting
  refine inv.moved marks.keeps step.idle placed (inv.known.switched step) (fun d runs => ?_)
    (fun _ _ waiting => .inl (before waiting))
    (inv.heard_of (fun t pid waiting asleep => ⟨before waiting, ?_⟩) fun x zombie => .inr ⟨marks.procs ▸ zombie, rfl⟩)
  · by_cases here : d = c
    · exact here ▸ step.running
    have same := step.current d here
    have other : m.sched.current d ≠ m.sched.current c := fun equal => here (inv.placed.alone equal)
    dsimp only [Family.setPc] at runs ⊢
    rw [same, elsewhere _ other] at runs
    rw [step.elsewhere inv.placed placed here]
    exact inv.running d runs
  · rcases asleep with blocked | stands
    · exact .inl (step.kept blocked nofun nofun)
    · by_cases here : t = m.sched.current c
      · subst here
        exact .inr (stays pid (by simpa only [Family.setPc, update_self] using stands))
      · exact .inr (by simpa only [Family.setPc, elsewhere t here] using stands)

abbrev OnMain (s : State n) (c : Fin n) : Prop :=
  ∀ p, (s.threads (s.current c)).owner = some p → (s.procs p).mainThread = some (s.current c)

section
variable (c : Fin n) (code : BitVec 32) (s' : State n) (pc : FamilyPc)

/-- The current thread goes on in its code and stays where it is. -/
theorem advance (told : Pcb → Bool) (keeps : Keeps m.sched s') (cpus : s'.cpus = m.sched.cpus) (placed : Placed s')
    (others : ∀ t, t ≠ m.sched.current c → s'.stateOf t = m.sched.stateOf t)
    (self : pc.Runs → s'.stateOf (m.sched.current c) = .running)
    (callers : ∀ pid, pc.Waits pid → (m.pc (m.sched.current c)).Waits pid ∨ OnMain m.sched c)
    (zombies : ∀ x, (s'.procs x).state = .zombie → told x = false ∨
      (m.sched.procs x).state = .zombie ∧ told x = m.told x)
    (heard : ∀ pid p x, pc.Waits pid → (m.sched.threads (m.sched.current c)).owner = some p →
      s'.stateOf (m.sched.current c) = .blocked ∨ pc = .block pid →
      x ∈ m.sched.pcbs → Awaits m.sched p pid x → (s'.procs x).state = .zombie → told x = false) :
    FamilyInv ⟨s', update m.pc (m.sched.current c) pc, told⟩ cells := by
  obtain ⟨current, idle, queue⟩ := State.same_places cpus
  have known : Known s' := by
    intro d
    rw [current, idle, queue, keeps.tcbs]
    exact inv.known d
  refine inv.moved keeps idle placed known (fun d runs => ?_) (fun t pid waiting => ?_) fun t pid p x waiting => ?_
  · dsimp only at runs ⊢
    rw [current] at runs ⊢
    by_cases here : m.sched.current d = m.sched.current c
    · rw [here, update_self] at runs
      rw [here]
      exact self runs
    · rw [update_of_ne here] at runs
      rw [others _ here]
      exact inv.running d runs
  · dsimp only at waiting
    by_cases here : t = m.sched.current c
    · subst here
      rw [update_self] at waiting
      exact callers pid waiting
    · rw [update_of_ne here] at waiting
      exact .inl waiting
  · intro owned asleep child awaited zombie
    dsimp only at waiting asleep zombie ⊢
    by_cases here : t = m.sched.current c
    · subst here
      rw [update_self] at waiting asleep
      exact heard pid p x waiting owned asleep child awaited zombie
    rw [update_of_ne here] at waiting asleep
    rw [others t here] at asleep
    rcases zombies x zombie with quiet | ⟨old, same⟩
    · exact quiet
    · exact same.trans (inv.heard t pid p x waiting owned asleep child awaited old)

/-- As far as processes go, nothing happens. -/
theorem advance_still (self : pc.Runs → m.sched.stateOf (m.sched.current c) = .running)
    (callers : ∀ pid, pc.Waits pid → (m.pc (m.sched.current c)).Waits pid ∨ OnMain m.sched c)
    (heard : ∀ pid p x, pc.Waits pid → (m.sched.threads (m.sched.current c)).owner = some p →
      m.sched.stateOf (m.sched.current c) = .blocked ∨ pc = .block pid →
      x ∈ m.sched.pcbs → Awaits m.sched p pid x → (m.sched.procs x).state = .zombie → m.told x = false) :
    FamilyInv (m.setPc (m.sched.current c) pc) cells :=
  inv.advance c m.sched pc m.told (.refl _) rfl inv.placed (fun _ _ => rfl) self callers
    (fun _ zombie => .inr ⟨zombie, rfl⟩) heard

theorem waitpid (pid : BitVec 32) (outside : m.pc (m.sched.current c) = .outside)
    (main : OnMain m.sched c) :
    FamilyInv (m.setPc (m.sched.current c) (.scan pid)) cells := by
  have running := inv.running c (by rw [outside]; trivial)
  refine inv.advance_still c _ (fun _ => running) (fun _ _ => .inr main) fun _ p x _ _ asleep => ?_
  rcases asleep with blocked | stands
  · cases running.symm.trans blocked
  · cases stands

theorem exit (outside : m.pc (m.sched.current c) = .outside) :
    FamilyInv { m.setPc (m.sched.current c) (.becomeZombie code) with sched := exitThread m.sched (m.sched.current c) code }
      cells := by
  have out := inv.unqueued (c := c) (by rw [outside]; trivial)
  have states := exitThread_stateOf m.sched (m.sched.current c) code
  have keeps := Keeps.exitThread m.sched (m.sched.current c) code
  have tids := fun t =>
    congrArg Prod.fst ((keeps.thread t).trans ((Marks.setState m.sched (m.sched.current c) .dead).keeps.thread t).symm)
  refine inv.advance c _ _ m.told keeps rfl ((inv.placed.setState out .dead).of_same states tids rfl) (fun t other => ?_) nofun
    (fun _ waits => waits.elim) (fun x zombie => .inr ⟨zombie, rfl⟩) fun _ _ _ waits => waits.elim
  rw [states, State.setState_stateOf_of_ne _ _ _ other]

theorem scan (c : Fin n) (stands : m.pc (m.sched.current c) = .scan pid)
    (walked : Chain m.sched.list.next m.sched.list.head visited) :
    FamilyInv (m.scan (m.sched.current c) pid visited) cells := by
  have running := inv.running c (by rw [stands]; trivial)
  have returns : FamilyInv (m.setPc (m.sched.current c) .outside) cells :=
    inv.advance_still c _ (fun _ => running) (fun _ waits => waits.elim) fun _ _ _ waits => waits.elim
  obtain rfl : visited = cells := walked.unique inv.numbered.chain
  rw [Family.scan]
  split
  · exact returns
  next parent owned =>
    split
    next child _ found =>
      refine inv.advance c _ _ m.told (Keeps.setProcess _ rfl) rfl (inv.placed.of_same rfl (fun _ => rfl) rfl) (fun _ _ => rfl)
        (fun _ => running) (fun _ waits => waits.elim) (fun x zombie => .inr ⟨?_, rfl⟩) fun _ _ _ waits => waits.elim
      rw [collect, State.setProcess_procs] at zombie
      by_cases here : x = child
      · rw [here, update_self] at zombie
        cases zombie
      · rwa [update_of_ne here] at zombie
    next => exact returns
    next found =>
      refine inv.advance_still c _ (fun _ => running)
        (fun waited waits => .inl ?_) fun waited p x waits owns _ child awaited zombie => ?_
      · rw [stands]
        exact waits
      · -- the scan has seen every child, and no zombie among those waited for
        cases owned.symm.trans owns
        cases waits
        exact absurd zombie (waitScan_none found ((inv.numbered.members x).mp child) awaited)

theorem block (stands : m.pc (m.sched.current c) = .block pid) :
    FamilyInv { m.setPc (m.sched.current c) (.schedule pid) with sched := m.sched.setState (m.sched.current c) .blocked }
      cells := by
  have out := inv.unqueued (c := c) (by rw [stands]; trivial)
  refine inv.advance c _ _ m.told (Marks.setState _ _ _).keeps rfl (inv.placed.setState out .blocked)
    (fun t other => State.setState_stateOf_of_ne _ _ _ other) nofun (fun waited waits => .inl ?_)
    (fun x zombie => .inr ⟨zombie, rfl⟩) (fun waited p x waits owned _ child awaited zombie => ?_)
  · rw [stands]
    exact waits
  · cases waits
    exact inv.heard _ pid p x (by rw [stands]; rfl) owned (.inr stands) child awaited zombie

theorem becomeZombie : FamilyInv (m.becomeZombie (m.sched.current c) code) cells := by
  have threads := exitProcess_threads m.sched (m.sched.current c) code
  have states : (exitProcess m.sched (m.sched.current c) code).stateOf = m.sched.stateOf :=
    funext fun t => congrArg (fun threads => (threads t).state) threads
  have cpus := exitProcess_cpus m.sched (m.sched.current c) code
  refine inv.advance c _ _ _ (Keeps.exitProcess _ _ _) cpus (inv.placed.of_same states (fun t => by rw [threads]) cpus)
    (fun t _ => congrFun states t) nofun (fun _ waits => waits.elim) (fun x zombie => ?_) fun _ _ _ waits => waits.elim
  rw [exitProcess] at zombie
  cases owned : (m.sched.threads (m.sched.current c)).owner with
  | none =>
    rw [owned] at zombie
    exact .inr ⟨zombie, rfl⟩
  | some p =>
    rw [owned] at zombie
    dsimp only [Option.elim] at zombie ⊢
    by_cases here : x = p
    · rw [here, update_self]
      exact .inl rfl
    · rw [State.setProcess_procs, update_of_ne here] at zombie
      rw [update_of_ne here]
      exact .inr ⟨zombie, rfl⟩

/-- Whoever waits for a process is found by it. -/
theorem parent_found (waits : (m.pc t).Waits pid) (owned : (m.sched.threads t).owner = some p)
    (awaited : Awaits m.sched p pid x) :
    cells.find? (fun q => (m.sched.procs q).pid = (m.sched.procs x).ppid) = some p ∧
      (m.sched.procs p).mainThread = some t ∧ t ∈ m.sched.tcbs := by
  have main := inv.callers t pid p waits owned
  have there := (inv.mains p t main).2
  exact ⟨inv.numbered.find (inv.owners t there p owned) awaited.1.symm, main, there⟩

/-- A process has looked for its parent: it is enough that no thread that still sleeps waits
for it. -/
theorem told (marks : Marks m.sched s') (current : s'.current = m.sched.current)
    (idle : s'.idle = m.sched.idle) (placed : Placed s') (known : Known s')
    (running : ∀ d, m.sched.stateOf (m.sched.current d) = .running → s'.stateOf (m.sched.current d) = .running)
    (ahead : ∀ t ∈ m.sched.tcbs, ∀ parent pid, m.pc t = .block pid → (m.sched.threads t).owner = some parent →
      ¬ Awaits m.sched parent pid x)
    (sleepers : ∀ t, s'.stateOf t = .blocked → m.sched.stateOf t = .blocked ∧ ∀ pid p, (m.pc t).Waits pid →
      (m.sched.threads t).owner = some p → ¬ Awaits m.sched p pid x) :
    FamilyInv ⟨s', update m.pc (m.sched.current c) .leave, update m.told x true⟩ cells := by
  have waits : ∀ {t pid}, (update m.pc (m.sched.current c) .leave t).Waits pid →
      (m.pc t).Waits pid ∧ update m.pc (m.sched.current c) .leave t = m.pc t := by
    intro t pid waiting
    by_cases here : t = m.sched.current c
    · rw [here, update_self] at waiting
      exact waiting.elim
    · rw [update_of_ne here] at waiting
      exact ⟨waiting, update_of_ne here _ _⟩
  refine inv.moved marks.keeps idle placed known (fun d runs => ?_) (fun t pid waiting => .inl (waits waiting).1)
    (fun t pid p y waiting owned asleep child awaited zombie => ?_)
  · dsimp only at runs ⊢
    rw [current] at runs ⊢
    by_cases here : m.sched.current d = m.sched.current c
    · rw [here, update_self] at runs
      exact runs.elim
    · rw [update_of_ne here] at runs
      exact running d (inv.running d runs)
  · obtain ⟨before, same⟩ := waits waiting
    dsimp only at asleep zombie ⊢
    rw [same] at asleep
    rw [marks.procs] at zombie
    have other : y ≠ x := by
      rintro rfl
      rcases asleep with blocked | stands
      · exact (sleepers t blocked).2 pid p before owned awaited
      · exact ahead t (inv.parent_found before owned awaited).2.2 p pid stands owned awaited
    rw [update_of_ne other]
    exact inv.heard t pid p y before owned (asleep.imp_left fun blocked => (sleepers t blocked).1) child awaited zombie

end

/-- The thread that exits looks for its parent; whoever waits for its process is awake
afterwards. -/
theorem notifyOwner (owned : (m.sched.threads (m.sched.current c)).owner = some x)
    (ahead : ∀ t ∈ m.sched.tcbs, ∀ parent pid, m.pc t = .block pid → (m.sched.threads t).owner = some parent →
      ¬ Awaits m.sched parent pid x)
    (home : ∀ parent ∈ m.sched.pcbs, (m.sched.procs parent).pid = (m.sched.procs x).ppid →
      ∀ t, (m.sched.procs parent).mainThread = some t → m.sched.stateOf t = .blocked → AtHome m.sched t) :
    FamilyInv ⟨exitNotify m.sched cells (m.sched.current c), update m.pc (m.sched.current c) .leave,
      update m.told x true⟩ cells := by
  rcases exitNotify_cases m.sched cells owned with ⟨same, awake⟩ | ⟨parent, u, found, main, blocked, result⟩
  · rw [same]
    refine inv.told c m.sched (.refl _) rfl rfl inv.placed inv.known (fun _ running => running) ahead
      (fun t blocked => ⟨blocked, fun pid p waits owned awaited => ?_⟩)
    obtain ⟨found, main, -⟩ := inv.parent_found waits owned awaited
    exact awake p t found main blocked
  have effect : Readied m.sched (makeReady m.sched u) u := enqueueThread_readied m.sched _ u
  have listed := (inv.numbered.members parent).mpr (mem_of_find?_eq_some found)
  have number : (m.sched.procs parent).pid = (m.sched.procs x).ppid := of_decide_eq_true (List.find?_some found :)
  obtain ⟨owns, there⟩ := inv.mains parent u main
  have busy : ∀ d, u ≠ m.sched.idle d := by
    rintro d rfl
    rw [inv.idleOwner] at owns
    cases owns
  have placed := inv.placed.makeReady (by rw [blocked]; nofun) busy (home parent listed number u main blocked)
  rw [result]
  refine inv.told c _ (Marks.makeReady _ u) effect.current effect.idle placed
    (inv.known.readied effect there) (fun d running => ?_) ahead fun t asleep => ?_
  · have other : m.sched.current d ≠ u := by
      rintro rfl
      cases running.symm.trans blocked
    rw [effect.others _ other]
    exact running
  have other : t ≠ u := by
    rintro rfl
    cases effect.self.symm.trans asleep
  refine ⟨effect.others t other ▸ asleep, fun pid p waits owned awaited => ?_⟩
  obtain ⟨also, first, -⟩ := inv.parent_found waits owned awaited
  cases found.symm.trans also
  exact other (Option.some.inj (first.symm.trans main))

theorem taskSwitch (c : Fin n) (pc : FamilyPc) (waits : ∀ pid, pc.Waits pid → (m.pc (m.sched.current c)).Waits pid)
    (stays : ∀ pid, pc = .block pid → m.pc (m.sched.current c) = .block pid) :
    FamilyInv { m.setPc (m.sched.current c) pc with sched := taskSwitch m.sched c } cells :=
  inv.switched _ pc (inv.placed.taskSwitch c) (Marks.taskSwitch _ c) (taskSwitch_switched _ c) waits stays

theorem step (c : Fin n) (possible : (FamilyEvent.step c visited).Possible m) (orderly : (FamilyEvent.step c visited).Orderly m) :
    FamilyInv (m.step c visited) cells := by
  have same : m.setPc (m.sched.current c) (m.pc (m.sched.current c)) = m := by rw [Family.setPc, update_eq_self]
  rw [Family.step]
  cases stands : m.pc (m.sched.current c) with
  | outside => exact inv
  | scan pid => exact inv.scan c stands possible
  | block pid => exact inv.block c stands
  | schedule pid =>
    refine inv.taskSwitch c (.scan pid) (fun waited waits => ?_) (by simp)
    rw [stands]
    exact waits
  | becomeZombie code => exact inv.becomeZombie c code
  | notify =>
    obtain rfl : visited = cells := possible.unique inv.numbered.chain
    dsimp only [Family.notify, Family.setPc]
    cases owned : (m.sched.threads (m.sched.current c)).owner with
    | none =>
      rw [exitNotify, owned]
      exact inv.advance_still c .leave False.elim (fun _ waits => waits.elim) (fun _ _ _ waits => waits.elim)
    | some x =>
      obtain ⟨ahead, home⟩ := orderly stands x owned
      exact inv.notifyOwner owned ahead home
  | leave =>
    have switched := inv.switched _ (m.pc (m.sched.current c)) (inv.placed.exitSwitch c) (Marks.exitSwitch _ c)
      (exitSwitch_switched _ c) (fun _ waits => waits) fun _ stays => stays
    rwa [same] at switched

end

end FamilyInv

theorem FamilyEvent.apply_inv (event : FamilyEvent n) (inv : FamilyInv m cells) (possible : event.Possible m)
    (orderly : event.Orderly m) : FamilyInv (event.apply m) cells := by
  cases event with
  | waitpid c pid => exact inv.waitpid c pid possible.1 orderly
  | exit c code => exact inv.exit c code possible.1
  | step c visited => exact inv.step c possible orderly
  | timer c =>
    have switched := inv.taskSwitch c (m.pc (m.sched.current c)) (fun _ waits => waits) fun _ stays => stays
    rwa [Family.setPc, update_eq_self] at switched

/-- The scheduler is up, the processes are listed, and no thread is in one of the calls. -/
structure FamilyStart (m : Family n) : Prop where
  settled : Settled m.sched
  numbered : ∃ cells, Numbered m.sched cells
  outside : ∀ t, m.pc t = .outside

theorem FamilyStart.inv (start : FamilyStart m) : ∃ cells, FamilyInv m cells := by
  obtain ⟨cells, numbered⟩ := start.numbered
  have nobody : ∀ t pid, ¬ (m.pc t).Waits pid := by
    intro t pid waits
    rw [start.outside] at waits
    exact waits
  obtain ⟨placed, running, idleOwner, mains, known, owners⟩ := start.settled
  exact ⟨cells, placed, fun c _ => running c, idleOwner, mains, known, owners, numbered,
    fun t pid _ waits => absurd waits (nobody t pid), fun t pid _ _ waits => absurd waits (nobody t pid)⟩

def parentAndChild : Family 2 where
  sched :=
    { threads := fun t =>
        { tid := BitVec.ofNat 32 (t - 1), state := .running, cpuId := if t = 3 then 1 else 0, chan := none, exitCode := 0
          owner := if t = 2 then some 1 else if t = 3 then some 2 else none }
      procs := fun p =>
        { pid := BitVec.ofNat 32 p, ppid := if p = 2 then 1 else 0, state := .ready
          mainThread := if p = 1 then some 2 else if p = 2 then some 3 else none
          exitCode := 0, pendingSignals := 0 }
      cpus := fun c => if c = 0 then { current := 2, idle := 0, ready := [] } else { current := 3, idle := 1, ready := [] }
      list := { head := some 2, next := fun p => if p = 2 then some 1 else none }
      nextTid := 3
      nextPid := 3
      tcbs := [0, 1, 2, 3]
      pcbs := [2, 1] }
  pc := fun _ => .outside
  told := fun _ => false

theorem parentAndChild_start : FamilyStart parentAndChild where
  settled := by
    refine ⟨?_, by decide, by decide, fun p t main => ?_, by rw [Known]; decide, fun t _ p owned => ?_⟩
    · refine ⟨by decide, ?_, ?_, by decide, ?_, ?_, by decide, by decide, by decide⟩
      all_goals
        intros
        have empty : ∀ c, parentAndChild.sched.readyQueue c = [] := by decide
        simp_all only [not_mem_nil, not_false_eq_true]
    · simp only [parentAndChild] at main ⊢
      split at main
      next first =>
        cases main
        exact ⟨congrArg some first.symm, by decide⟩
      next =>
        split at main
        next second =>
          cases main
          exact ⟨congrArg some second.symm, by decide⟩
        next => cases main
    · simp only [parentAndChild] at owned ⊢
      split at owned
      · cases owned
        decide
      · split at owned
        · cases owned
          decide
        · cases owned
  numbered := ⟨[2, 1], ⟨rfl, rfl, rfl⟩, fun _ => .rfl, by decide⟩
  outside := fun _ => rfl

def parentFirst : List (FamilyEvent 2) :=
  [.waitpid 0 (-1), .step 0 [2, 1], .step 0 [2, 1], .step 0 [2, 1], .exit 1 0, .step 1 [2, 1], .step 1 [2, 1]]

/-- The child exits, and looks for its parent, right after the scan. -/
def childBetween : List (FamilyEvent 2) :=
  [.waitpid 0 (-1), .step 0 [2, 1], .exit 1 0, .step 1 [2, 1], .step 1 [2, 1], .step 0 [2, 1], .step 0 [2, 1]]

end Sirius.Sched
