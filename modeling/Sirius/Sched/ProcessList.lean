import Sirius.Sched.Calls
import Mathlib.Data.Finset.Insert
import Mathlib.Data.Finset.Erase

/-! The global process list over whole histories: it stays a list as long as no process
that is in it is put into it again, which is what `clone` with `CLONE_VM` does. -/
namespace Sirius.Sched
open Support Relation
open Finset hiding mem_cons
open List hiding Chain after

/-- The kernel and, beside it, the processes that were inserted and not yet removed. -/
structure Listed (n : Nat) where
  state : State n
  members : Finset Pcb

def createInserts (grants : Grants) : Option Pcb :=
  if grants.space ∧ grants.tcb.isSome then grants.pcb else none

def cloneInserts (s : State n) (c : Fin n) (flags : BitVec 32) (grants : Grants) : Option Pcb :=
  match (s.threads (s.current c)).owner with
  | none => none
  | some parent =>
    if flags &&& cloneVm ≠ 0 then if grants.tcb.isSome then some parent else none
    else createInserts grants

def withMember (members : Finset Pcb) : Option Pcb → Finset Pcb
  | none => members
  | some p => insert p members

/-- `process_destroy` gives the thread back, but neither unlinks the process nor frees it. -/
def processDestroy (s : State n) (p : Pcb) : State n :=
  match (s.procs p).mainThread with
  | none => s
  | some t => { s with tcbs := s.tcbs.erase t }

/-- The heap hands out blocks that are not in use. -/
structure Grants.Fresh (grants : Grants) (s : State n) : Prop where
  pcb : ∀ p, grants.pcb = some p → p ∉ s.pcbs
  tcb : ∀ t, grants.tcb = some t → t ∉ s.tcbs

inductive ListCall (n : Nat) where
  | create (cpuId : BitVec 32) (grants : Grants)
  | ready (c : Fin n) (p : Pcb)
  | clone (c : Fin n) (flags : BitVec 32) (grants : Grants)
  | taskSwitch (c : Fin n)
  | exit (c : Fin n) (code : BitVec 32) (visited : List Pcb)
  | destroy (p : Pcb)
  | remove (p : Pcb) (rounds : Nat)

section
variable (call : ListCall n) (k : Listed n)

/-- The blocks are fresh, a walk goes along the list, and a loop comes to its end. -/
def ListCall.Possible (s : State n) : Prop :=
  match call with
  | .create _ grants => grants.Fresh s
  | .clone _ _ grants => grants.Fresh s
  | .exit _ _ visited => ∃ stop, Visits s.list.next s.list.head visited stop
  | .remove p rounds => (processListRemove s.list p rounds).isSome
  | .ready _ _ | .taskSwitch _ | .destroy _ => True

def ListCall.apply : Listed n :=
  let s := k.state
  match call with
  | .create cpuId grants => ⟨processCreate s cpuId grants, withMember k.members (createInserts grants)⟩
  | .ready c p => ⟨schedulerReadyProcess s c p, k.members⟩
  | .clone c flags grants => ⟨Sched.clone s c flags grants, withMember k.members (cloneInserts s c flags grants)⟩
  | .taskSwitch c => ⟨Sched.taskSwitch s c, k.members⟩
  | .exit c code visited => ⟨schedulerExit s c code visited, k.members⟩
  | .destroy p => ⟨processDestroy s p, k.members⟩
  | .remove p rounds => ⟨{ s with list := (processListRemove s.list p rounds).getD s.list }, k.members.erase p⟩

/-- No process that is in the list makes a thread with `CLONE_VM`. -/
def ListCall.Clean : Prop :=
  match call with
  | .clone c flags grants =>
    flags &&& cloneVm ≠ 0 → ∀ p, cloneInserts k.state c flags grants = some p → p ∉ k.members
  | _ => True

def ListStep (before after : Listed n) : Prop :=
  ∃ call : ListCall n, call.Possible before.state ∧ after = call.apply before

def CleanListStep (before after : Listed n) : Prop :=
  ∃ call : ListCall n, call.Possible before.state ∧ call.Clean before ∧ after = call.apply before

/-- The traversal ends and has visited the members. -/
def IsList : Prop :=
  ∃ cells, Chain k.state.list.next k.state.list.head cells ∧ cells.Nodup ∧ ∀ p, p ∈ cells ↔ p ∈ k.members

end

structure ListInv (k : Listed n) : Prop where
  isList : IsList k
  allocated : ∀ p ∈ k.members, p ∈ k.state.pcbs
  owners : ∀ t p, (k.state.threads t).owner = some p → p ∈ k.state.pcbs

/-- What matters to the list. -/
structure KeepsList (before after : State n) : Prop where
  list : after.list = before.list
  pcbs : after.pcbs = before.pcbs
  owner : ∀ t, (after.threads t).owner = (before.threads t).owner

theorem Keeps.keepsList (keeps : Keeps before after) : KeepsList before after :=
  ⟨keeps.list, keeps.pcbs, keeps.owner⟩

/-- What `process_create` and `clone` do to the list and to the blocks. -/
structure Inserts (before after : State n) (inserted : Option Pcb) : Prop where
  list : after.list = inserted.elim before.list (processListInsert before.list)
  pcbs : ∀ p ∈ before.pcbs, p ∈ after.pcbs
  owner : ∀ t p, (after.threads t).owner = some p → p ∈ after.pcbs ∨ ∃ u, (before.threads u).owner = some p
  member : ∀ p, inserted = some p → p ∈ after.pcbs ∨ ∃ u, (before.threads u).owner = some p

theorem Inserts.none (kept : KeepsList before after) : Inserts before after none where
  list := kept.list
  pcbs := fun _ present => kept.pcbs ▸ present
  owner := fun t _ owned => .inr ⟨t, kept.owner t ▸ owned⟩
  member := fun _ impossible => nomatch impossible

theorem Inserts.andThen (inserts : Inserts before middle inserted) (kept : KeepsList middle after) :
    Inserts before after inserted where
  list := kept.list.trans inserts.list
  pcbs := fun p present => kept.pcbs ▸ inserts.pcbs p present
  owner := fun t p owned => kept.pcbs ▸ inserts.owner t p (kept.owner t ▸ owned)
  member := fun p here => kept.pcbs ▸ inserts.member p here

section
variable (s : State n) (p : Pcb) (t : Tcb) (cpuId : BitVec 32)

/-- A new thread is owned by the process that is inserted. -/
theorem owner_userThreadCreate (p : Pcb)
    (owned : ((((userThreadCreate s t cpuId).setThread t ({ · with owner := some p })).threads u).owner) = some q) :
    q = p ∨ (s.threads u).owner = some q := by
  rw [State.setThread_threads] at owned
  by_cases here : u = t
  · rw [here, Function.update_self] at owned
    exact .inl (Option.some.inj owned).symm
  · simp only [Function.update_of_ne here, userThreadCreate] at owned
    exact .inr owned

theorem inserts_startProcess : Inserts s (startProcess s p t cpuId) (some p) where
  list := rfl
  pcbs := fun _ present => mem_cons_of_mem _ present
  owner := by
    intro u q owned
    rcases owner_userThreadCreate s t cpuId p owned with rfl | before
    · exact .inl mem_cons_self
    · exact .inr ⟨u, before⟩
  member := by
    rintro _ ⟨⟩
    exact .inl mem_cons_self

theorem inserts_cloneThread (c : Fin n) (t : Tcb) (owned : (s.threads (s.current c)).owner = some parent) :
    Inserts s (cloneThread s c parent t) (some parent) := by
  refine Inserts.andThen ?_ (Marks.enqueueThread _ (some c) t).keeps.keepsList
  refine ⟨rfl, fun _ present => present, ?_, ?_⟩
  · intro u q later
    rcases owner_userThreadCreate s t _ parent later with rfl | before
    · exact .inr ⟨_, owned⟩
    · exact .inr ⟨u, before⟩
  · rintro _ ⟨⟩
    exact .inr ⟨_, owned⟩

theorem inserts_processCreate (grants : Grants) :
    Inserts s (processCreate s cpuId grants) (createInserts grants) := by
  obtain ⟨pcb, space, tcb⟩ := grants
  cases pcb <;> cases space <;> cases tcb
  case some.true.some p t =>
    have started := inserts_startProcess (numberProcess s p 0) p t cpuId
    exact { started with }
  all_goals exact .none ⟨rfl, rfl, fun _ => rfl⟩

theorem inserts_clone (c : Fin n) (flags : BitVec 32) (grants : Grants) :
    Inserts s (clone s c flags grants) (cloneInserts s c flags grants) := by
  rw [clone, cloneInserts]
  cases owned : (s.threads (s.current c)).owner with
  | none => exact .none ⟨rfl, rfl, fun _ => rfl⟩
  | some parent =>
    obtain ⟨pcb, space, tcb⟩ := grants
    dsimp only
    by_cases shares : flags &&& cloneVm ≠ 0
    · rw [if_pos shares, if_pos shares]
      cases tcb with
      | none => exact .none ⟨rfl, rfl, fun _ => rfl⟩
      | some t => exact inserts_cloneThread s c t owned
    rw [if_neg shares, if_neg shares]
    cases pcb <;> cases space <;> cases tcb
    case some.true.some child t =>
      have started := inserts_startProcess (numberProcess s child (s.procs parent).pid) child t
        (getCpuIdWithFewestThreads (numberProcess s child (s.procs parent).pid))
      exact { started with }
    all_goals exact .none ⟨rfl, rfl, fun _ => rfl⟩

end

/-- Where the loop of `process_list_remove` stops, on a list that ends. -/
theorem findPrevious_spec {next : Pcb → Option Pcb} (chain : Chain next (some current) (current :: rest))
    (found : findPrevious next proc rounds current = some previous) :
    (∃ front back, current :: rest = front ++ previous :: proc :: back) ∧ next previous = some proc ∨
      proc ∉ rest ∧ next previous = none := by
  induction rounds generalizing current rest with
  | zero => cases found
  | succ rounds ih =>
    rw [findPrevious] at found
    cases rest with
    | nil =>
      have last := chain.2
      rw [last] at found
      cases found
      exact .inr ⟨not_mem_nil, last⟩
    | cons following back =>
      have link := chain.2.1
      rw [link] at found
      dsimp only at found
      by_cases here : following = proc
      · rw [if_pos here] at found
        cases found
        subst here
        exact .inl ⟨⟨[], back, rfl⟩, link⟩
      rw [if_neg here] at found
      rcases ih ⟨rfl, chain.2.2⟩ found with ⟨⟨front, tail, split⟩, stops⟩ | ⟨absent, stops⟩
      · exact .inl ⟨⟨current :: front, tail, congrArg (current :: ·) split⟩, stops⟩
      · refine .inr ⟨fun present => ?_, stops⟩
        rcases mem_cons.mp present with same | later
        · exact here same.symm
        · exact absent later

theorem processListRemove_spec (chain : Chain list.next list.head cells)
    (removed : processListRemove list proc rounds = some after) : Chain after.next after.head (cells.erase proc) := by
  rw [processListRemove] at removed
  cases cells with
  | nil =>
    have empty : list.head = none := chain
    rw [empty] at removed
    cases removed
    exact chain
  | cons first rest =>
    have distinct := chain.nodup
    have head := chain.1
    rw [head] at removed
    dsimp only at removed
    by_cases here : first = proc
    · rw [if_pos here] at removed
      cases removed
      rw [← here, erase_cons_head]
      exact chain.2
    rw [if_neg here] at removed
    obtain ⟨previous, found, rfl⟩ := Option.map_eq_some_iff.mp removed
    rcases findPrevious_spec ⟨rfl, chain.2⟩ found with ⟨⟨front, back, split⟩, link⟩ | ⟨absent, stops⟩
    · rw [if_pos link]
      rw [split] at chain distinct ⊢
      have off : proc ∉ front ++ [previous] := by
        intro earlier
        rw [append_cons] at distinct
        exact (nodup_append.mp distinct).2.2 proc earlier proc mem_cons_self rfl
      rw [append_cons, erase_append_right _ off, erase_cons_head, ← append_cons]
      exact head ▸ chain.unlink
    · rw [if_neg (by rw [stops]; exact fun impossible => nomatch impossible)]
      have away : proc ∉ first :: rest := by
        intro present
        rcases mem_cons.mp present with same | later
        · exact here same.symm
        · exact absent later
      rw [erase_of_not_mem away]
      exact chain

section
variable {s : State n} (inv : ListInv ⟨s, members⟩)
include inv

theorem ListInv.keep (kept : KeepsList s after) : ListInv ⟨after, members⟩ where
  isList := by
    have isList := inv.isList
    rw [IsList] at isList ⊢
    rw [kept.list]
    exact isList
  allocated := fun p member => kept.pcbs ▸ inv.allocated p member
  owners := fun t p owned => kept.pcbs ▸ inv.owners t p (kept.owner t ▸ owned)

/-- Putting a process into the list that is not in it. -/
theorem ListInv.inserts (inserts : Inserts s after inserted)
    (absent : ∀ p, inserted = some p → p ∉ members) : ListInv ⟨after, withMember members inserted⟩ := by
  have known : ∀ q, q ∈ after.pcbs ∨ (∃ u, (s.threads u).owner = some q) → q ∈ after.pcbs := by
    rintro q (here | ⟨u, owned⟩)
    · exact here
    · exact inserts.pcbs q (inv.owners u q owned)
  have listed := inserts.list
  obtain ⟨cells, chain, distinct, same⟩ := inv.isList
  refine ⟨?_, fun q member => ?_, fun t q owned => known q (inserts.owner t q owned)⟩
  · rw [IsList, listed]
    cases inserted with
    | none => exact ⟨cells, chain, distinct, same⟩
    | some p =>
      have longer := chain.push (mt (same p).mp (absent p rfl))
      refine ⟨p :: cells, longer, longer.nodup, fun q => ?_⟩
      rw [withMember, mem_cons, mem_insert, same]
  · cases inserted with
    | none => exact inserts.pcbs q (inv.allocated q member)
    | some p =>
      rcases mem_insert.mp member with rfl | old
      · exact known q (inserts.member q rfl)
      · exact inserts.pcbs q (inv.allocated q old)

theorem ListInv.remove (removed : processListRemove s.list p rounds = some list) :
    ListInv ⟨{ s with list := list }, members.erase p⟩ := by
  obtain ⟨cells, chain, distinct, same⟩ := inv.isList
  have shorter := processListRemove_spec chain removed
  refine ⟨⟨cells.erase p, shorter, shorter.nodup, ?_⟩, ?_, inv.owners⟩
  · intro q
    rw [distinct.mem_erase_iff, mem_erase, same]
  · intro q member
    exact inv.allocated q (mem_of_mem_erase member)

end

theorem createInserts_pcb (inserted : createInserts grants = some p) : grants.pcb = some p := by
  rw [createInserts] at inserted
  split at inserted
  · exact inserted
  · cases inserted

/-- Without `CLONE_VM` the process inserted is the new one. -/
theorem cloneInserts_pcb (own : ¬ flags &&& cloneVm ≠ 0) (inserted : cloneInserts s c flags grants = some p) :
    grants.pcb = some p := by
  rw [cloneInserts] at inserted
  split at inserted
  · cases inserted
  · rw [if_neg own] at inserted
    exact createInserts_pcb inserted

theorem ListCall.apply_inv (call : ListCall n) (inv : ListInv k) (possible : call.Possible k.state)
    (clean : call.Clean k) : ListInv (call.apply k) := by
  obtain ⟨s, members⟩ := k
  cases call with
  | create cpuId grants =>
    refine inv.inserts (inserts_processCreate s cpuId grants) fun p inserted member => ?_
    exact possible.pcb p (createInserts_pcb inserted) (inv.allocated p member)
  | ready c p => exact inv.keep (Keeps.schedulerReadyProcess s c p).keepsList
  | clone c flags grants =>
    refine inv.inserts (inserts_clone s c flags grants) fun p inserted member => ?_
    by_cases shares : flags &&& cloneVm ≠ 0
    · exact clean shares p inserted member
    · exact possible.pcb p (cloneInserts_pcb shares inserted) (inv.allocated p member)
  | taskSwitch c => exact inv.keep (Marks.taskSwitch s c).keeps.keepsList
  | exit c code visited => exact inv.keep (Keeps.schedulerExit s c code visited).keepsList
  | destroy p =>
    simp only [ListCall.apply, processDestroy]
    split
    · exact inv
    · exact inv.keep ⟨rfl, rfl, fun _ => rfl⟩
  | remove p rounds =>
    obtain ⟨list, removed⟩ := Option.isSome_iff_exists.mp possible
    simp only [ListCall.apply, removed, Option.getD_some]
    exact inv.remove removed

structure NoProcesses (s : State n) : Prop where
  empty : s.list.head = none
  unowned : ∀ t, (s.threads t).owner = none

/-- In every history in which no listed process makes a thread with `CLONE_VM`, the process
list ends, passes no process twice, and holds what was inserted and not removed. -/
theorem process_list_is_list (boot : State n) (start : NoProcesses boot)
    (run : ReflTransGen CleanListStep ⟨boot, ∅⟩ k) : IsList k := by
  suffices inv : ListInv k from inv.isList
  induction run with
  | refl =>
    refine ⟨⟨[], start.empty, nodup_nil, fun p => ?_⟩, fun p member => ?_, fun t p owned => ?_⟩
    · exact iff_of_false not_mem_nil (notMem_empty p)
    · exact absurd member (notMem_empty p)
    · rw [start.unowned t] at owned
      cases owned
  | tail _ step ih =>
    obtain ⟨call, possible, clean, rfl⟩ := step
    exact call.apply_inv ih possible clean

def oneCpu : State 1 where
  threads := fun _ => { tid := 0, state := .running, cpuId := 0, chan := none, exitCode := 0, owner := none }
  procs := fun _ => { pid := 0, ppid := 0, state := .embryo, mainThread := none, exitCode := 0, pendingSignals := 0 }
  cpus := fun _ => { current := 0, idle := 0, ready := [] }
  list := { head := none, next := fun _ => none }
  nextTid := 1
  nextPid := 1
  tcbs := [0]
  pcbs := []

theorem oneCpu_noProcesses : NoProcesses oneCpu := ⟨rfl, fun _ => rfl⟩

def newProcess : Grants := { pcb := some 1, space := true, tcb := some 2 }

def firstProcess : Listed 1 :=
  (ListCall.taskSwitch 0).apply ((ListCall.ready 0 1).apply ((ListCall.create 0 newProcess).apply ⟨oneCpu, ∅⟩))

theorem firstProcess_reached : ReflTransGen CleanListStep ⟨oneCpu, ∅⟩ firstProcess := by
  have created : CleanListStep ⟨oneCpu, ∅⟩ ((ListCall.create 0 newProcess).apply ⟨oneCpu, ∅⟩) := by
    refine ⟨.create 0 newProcess, ⟨?_, ?_⟩, trivial, rfl⟩
    · rintro _ ⟨⟩
      exact not_mem_nil
    · rintro _ ⟨⟩
      decide
  refine ReflTransGen.single created |>.tail ⟨.ready 0 1, trivial, trivial, rfl⟩ |>.tail ?_
  exact ⟨.taskSwitch 0, trivial, trivial, rfl⟩

/-- Fork keeps the list. -/
theorem process_list_is_list_fork :
    NoProcesses oneCpu ∧ ∃ k, ReflTransGen CleanListStep ⟨oneCpu, ∅⟩ k ∧ IsList k ∧ k.members = {4, 1} := by
  have forked : ReflTransGen CleanListStep ⟨oneCpu, ∅⟩
      ((ListCall.clone 0 0 { pcb := some 4, space := true, tcb := some 3 }).apply firstProcess) := by
    refine firstProcess_reached.tail ⟨.clone 0 0 _, ⟨?_, ?_⟩, fun shares => absurd rfl shares, rfl⟩
    all_goals
      rintro _ ⟨⟩
      decide
  exact ⟨oneCpu_noProcesses, _, forked, process_list_is_list oneCpu oneCpu_noProcesses forked, by decide⟩

/-- A process that makes a thread with `CLONE_VM` is inserted before itself. -/
theorem clone_vm_closes_list : NoProcesses oneCpu ∧ ∃ k, ReflTransGen ListStep ⟨oneCpu, ∅⟩ k ∧ ¬ IsList k := by
  refine ⟨oneCpu_noProcesses,
    (ListCall.clone 0 cloneVm { pcb := none, space := false, tcb := some 3 }).apply firstProcess, ?_, ?_⟩
  · have first : ReflTransGen ListStep ⟨oneCpu, ∅⟩ firstProcess :=
      ReflTransGen.mono (fun _ _ ⟨call, possible, _, result⟩ => ⟨call, possible, result⟩) _ _ firstProcess_reached
    refine first.tail ⟨.clone 0 cloneVm _, ⟨?_, ?_⟩, rfl⟩
    · rintro _ ⟨⟩
    · rintro _ ⟨⟩
      decide
  rintro ⟨cells, chain, -, -⟩
  generalize listed : ListCall.apply _ firstProcess = k at chain
  have head : k.state.list.head = some 1 := by
    rw [← listed]
    decide
  have itself : k.state.list.next 1 = some 1 := by
    rw [← listed]
    decide
  rw [head] at chain
  cases cells with
  | nil => cases chain
  | cons first rest =>
    obtain ⟨⟨⟩, again⟩ := chain
    rw [itself] at again
    have longer : Chain k.state.list.next (some 1) (1 :: rest) := ⟨rfl, itself.symm ▸ again⟩
    have lengths := congrArg length (longer.unique again)
    rw [length_cons] at lengths
    omega

end Sirius.Sched
