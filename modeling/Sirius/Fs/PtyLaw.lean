import Sirius.Fs.Pty
import Sirius.Support.Runs

/-! Who reads what is written to a pseudo terminal. Echo aside, what the master of a session
writes is read by its replica and the other way round, as long as a master is used only while
the node `/dev/ptmx` has its pair, and no replica is opened after the end of its pair. -/
namespace Sirius.Fs.Pty
open Drivers Support Function List Call Option
open State hiding files
open Finset hiding mem_singleton

variable {s : State} {a : PairAddr} {d : Descriptor}

/-- What a descriptor may read was written in its session: at the other end or, if there is an echo,
by the master itself. -/
def Descriptor.MayRead (echo : Prop) (d : Descriptor) : Origin → Prop
  | .master session => echo ∧ d = .master session ∨ ∃ number, d = .replica number session
  | .replica session => d = .master session

def Isolated (echo : Prop) (s : State) : Prop := ∀ event ∈ s.log, ∀ c ∈ event.chars, event.reader.MayRead echo c.tag

/-- A node in `/dev/pts` has a descriptor of its pair. -/
def NamesInUse (s : State) : Prop :=
  ∀ number, ∀ node ∈ s.pts number, ∃ d ∈ s.files, d.session = node.session

/-- The node of the descriptor leads to no other pair than its own. -/
def Descriptor.Leads (s : State) : Descriptor → Prop
  | .master session => ∀ a ∈ s.ptmx, a ∈ s.live ∧ (s.pairs a).session = session
  | .replica _ _ => True

instance (d : Descriptor) (s : State) : Decidable (d.Leads s) :=
  match d with
  | .master _ | .replica _ _ => by
    unfold Descriptor.Leads
    infer_instance

/-- A new master has a number that is not in use, a replica is opened as long as its pair has
another descriptor, and a master is used as long as no other one has been opened after it. -/
def Call.Clean : Call → State → Prop
  | openMaster _, s => s.pts s.idCounter = none
  | openReplica number, s => ∀ node ∈ s.pts number, node.privateData ≠ none → ∃ d ∈ s.files, d.session = node.session
  | write d _, s => d.Leads s
  | read d _, s => d.Leads s
  | ioctl d, s => d = .master d.session → ∀ a ∈ s.ptmx, a ∈ s.live
  | close d, s => d.Leads s

/-- A master reads nothing that a master has written. -/
def Call.Quiet : Call → State → Prop
  | read (.master _) size, s => ∀ a ∈ s.ptmx, ∀ c ∈ (s.pairs a).replicaTty.output.contents.take size,
      c.tag = .replica (s.pairs a).session
  | _, _ => True

/-- A descriptor of the pair is left. -/
def Call.Spares : Call → State → Prop
  | close d, s => ∃ other ∈ s.files.erase d, other.session = d.session
  | _, _ => True

instance (call : Call) (s : State) : Decidable (call.Clean s) :=
  match call with
  | .openMaster .. | .openReplica .. | .write .. | .read .. | .ioctl .. | .close .. => by
    unfold Call.Clean
    infer_instance

instance (call : Call) (s : State) : Decidable (call.Quiet s) :=
  match call with
  | .read (.master _) _ | .read (.replica _ _) _ | .openMaster .. | .openReplica .. | .write .. | .ioctl .. | .close .. => by
    unfold Call.Quiet
    infer_instance

instance (call : Call) (s : State) : Decidable (call.Spares s) :=
  match call with
  | .openMaster .. | .openReplica .. | .write .. | .read .. | .ioctl .. | .close .. => by
    unfold Call.Spares
    infer_instance

def InSession (session : Session) : TtyDevice Origin → Prop :=
  Tagged (· = .master session) fun origin => origin = .master session ∨ origin = .replica session

/-- The descriptor is one of the master or of the replica of the pair. -/
def PtyPair.Has (pair : PtyPair) (d : Descriptor) : Prop := d = .master pair.session ∨ d = .replica pair.id pair.session

structure Inv (echo spared : Prop) (s : State) : Prop where
  tags : ∀ a ∈ s.live, InSession (s.pairs a).session (s.pairs a).replicaTty
  opened : ∀ d ∈ s.files, ∃ a ∈ s.live, (s.pairs a).Has d
  counts : ∀ a ∈ s.live, s.files.count (.master (s.pairs a).session) ≤ (s.pairs a).masterOpenCount ∧
    s.files.count (.replica (s.pairs a).id (s.pairs a).session) ≤ (s.pairs a).replicaOpenCount
  nodes : ∀ a ∈ s.live, s.pts (s.pairs a).id = some ⟨vfsCharDev, some a, (s.pairs a).session⟩
  known : ∀ n, ∀ node ∈ s.pts n, node.session < s.sessions
  distinct : ∀ n n', ∀ node ∈ s.pts n, ∀ node' ∈ s.pts n', node.session = node'.session → n = n'
  isolated : Isolated echo s
  named : spared → NamesInUse s

theorem ptyVfsInit_inv : Inv echo spared ptyVfsInit where
  tags _ mem := absurd mem (notMem_empty _)
  opened _ mem := absurd mem not_mem_nil
  counts _ mem := absurd mem (notMem_empty _)
  nodes _ mem := absurd mem (notMem_empty _)
  known _ _ mem := nomatch mem
  distinct _ _ _ mem := nomatch mem
  isolated _ mem := absurd mem not_mem_nil
  named _ _ _ mem := nomatch mem

theorem pairs_setPair (s : State) (a : PairAddr) (pair : PtyPair) (x : PairAddr) :
    (s.setPair a pair).pairs x = if x = a then pair else s.pairs x := by
  simp only [setPair, update_apply]

theorem field_setPair (field : PtyPair → β) (same : field pair = field (s.pairs a))
    (x : PairAddr) : field ((s.setPair a pair).pairs x) = field (s.pairs x) := by
  rw [pairs_setPair]
  split
  case isTrue here => rw [same, here]
  case isFalse => rfl

namespace Inv

theorem session_lt (inv : Inv echo spared s) (live : a ∈ s.live) : (s.pairs a).session < s.sessions :=
  inv.known _ _ (inv.nodes a live)

theorem session_inj (inv : Inv echo spared s) (live : a ∈ s.live) (other : b ∈ s.live)
    (same : (s.pairs a).session = (s.pairs b).session) : a = b := by
  have number := inv.distinct _ _ _ (inv.nodes a live) _ (inv.nodes b other) same
  have node := inv.nodes a live
  rw [number, inv.nodes b other] at node
  simp only [some.injEq, ReplicaNode.mk.injEq, true_and] at node
  exact node.1.symm

theorem live_of_open (inv : Inv echo spared s) (opened : d ∈ s.files) : ∃ a ∈ s.live, d.session = (s.pairs a).session := by
  obtain ⟨a, live, rfl | rfl⟩ := inv.opened d opened
  · exact ⟨a, live, rfl⟩
  · exact ⟨a, live, rfl⟩

theorem pair_of_open (inv : Inv echo spared s) (opened : d ∈ s.files) (leads : d.Leads s)
    (found : s.pairOf d = some a) : a ∈ s.live ∧ d.session = (s.pairs a).session := by
  cases d with
  | master k =>
    obtain ⟨live, rfl⟩ := leads a found
    exact ⟨live, rfl⟩
  | replica n k =>
    obtain ⟨b, live, same | same⟩ := inv.opened _ opened
    · cases same
    cases same
    rw [pairOf, inv.nodes b live] at found
    obtain rfl := some.inj found
    exact ⟨live, rfl⟩

end Inv

theorem stamp_tag (mem : c ∈ stamp d bytes) : c.tag = d.origin := by
  obtain ⟨byte, -, rfl⟩ := mem_map.mp mem
  rfl

section
variable (inv : Inv echo spared s)
include inv

/-- Descriptors of one pair come and go, and its counts go with them. -/
theorem Inv.recount (live : a ∈ s.live) (id : pair.id = (s.pairs a).id)
    (session : pair.session = (s.pairs a).session) (tags : InSession (s.pairs a).session pair.replicaTty)
    (masters : (files.count (.master (s.pairs a).session) : Int) ≤ pair.masterOpenCount)
    (replicas : (files.count (.replica (s.pairs a).id (s.pairs a).session) : Int) ≤ pair.replicaOpenCount)
    (others : ∀ d, d.session ≠ (s.pairs a).session → files.count d = s.files.count d)
    (ends : ∀ d ∈ files, d.session = (s.pairs a).session →
      d ∈ s.files ∨ d = .replica (s.pairs a).id (s.pairs a).session)
    (named : spared → NamesInUse (s.setFiles files)) : Inv echo spared ((s.setPair a pair).setFiles files) := by
  let next := (s.setPair a pair).setFiles files
  have sameId : ∀ x, (next.pairs x).id = (s.pairs x).id := field_setPair PtyPair.id id
  have sameSession : ∀ x, (next.pairs x).session = (s.pairs x).session := field_setPair PtyPair.session session
  have pairs : ∀ x, next.pairs x = if x = a then pair else s.pairs x := pairs_setPair s a pair
  have old : ∀ d ∈ files, d ∈ s.files ∨ d = .replica (s.pairs a).id (s.pairs a).session := by
    intro d opened
    by_cases here : d.session = (s.pairs a).session
    · exact ends d opened here
    · exact .inl (count_pos_iff.mp (others d here ▸ count_pos_iff.mpr opened))
  refine ⟨fun x there => ?_, fun d opened => ?_, fun x there => ?_, fun x there => ?_, inv.known, inv.distinct,
    inv.isolated, named⟩
  · rw [sameSession, pairs]
    split_ifs with here
    · exact here ▸ tags
    · exact inv.tags x there
  · obtain ⟨x, there, has⟩ : ∃ x ∈ s.live, (s.pairs x).Has d :=
      (old d opened).elim (inv.opened d) fun new => ⟨a, live, .inr new⟩
    refine ⟨x, there, ?_⟩
    rw [PtyPair.Has, sameSession, sameId]
    exact has
  · rw [sameSession, sameId, pairs]
    split_ifs with here
    · subst here
      exact ⟨masters, replicas⟩
    have apart : (s.pairs x).session ≠ (s.pairs a).session := fun same => here (inv.session_inj there live same)
    have same : next.files = files := rfl
    rw [same, others (.master _) apart, others (.replica _ _) apart]
    exact inv.counts x there
  · rw [sameId, sameSession]
    exact inv.nodes x there

/-- A pair changes, but neither its number and session nor its counts. -/
theorem Inv.setPair (live : a ∈ s.live) (id : pair.id = (s.pairs a).id) (session : pair.session = (s.pairs a).session)
    (masters : pair.masterOpenCount = (s.pairs a).masterOpenCount)
    (replicas : pair.replicaOpenCount = (s.pairs a).replicaOpenCount)
    (tags : InSession (s.pairs a).session pair.replicaTty) : Inv echo spared (s.setPair a pair) :=
  inv.recount live id session tags (masters ▸ (inv.counts a live).1) (replicas ▸ (inv.counts a live).2)
    (fun _ _ => rfl) (fun _ opened _ => .inl opened) inv.named

theorem tfsPtmxIoctl_inv (opened : d ∈ s.files) (clean : (ioctl d).Clean s) : Inv echo spared (tfsPtmxIoctl s d).2 := by
  rw [tfsPtmxIoctl]
  cases found : s.pairOf d with
  | none => exact inv
  | some a =>
    have live : a ∈ s.live := by
      cases d with
      | master k => exact clean rfl a found
      | replica n k => exact (inv.pair_of_open opened trivial found).1
    exact inv.setPair live rfl rfl rfl rfl (inv.tags a live)

theorem tfsPtyWrite_inv (opened : d ∈ s.files) (leads : d.Leads s) : Inv echo spared (tfsPtyWrite s d bytes).2 := by
  unfold tfsPtyWrite
  split
  · exact inv
  split
  · exact inv
  case h_2 a found =>
  obtain ⟨live, session⟩ := inv.pair_of_open opened leads found
  have tags := inv.tags a live
  cases d with
  | master k =>
    refine inv.setPair live rfl rfl rfl rfl (ttyWriteToInQueue_tagged tags fun c mem => ?_)
    rw [stamp_tag mem, ← session]
    exact ⟨rfl, .inl rfl⟩
  | replica n k =>
    dsimp only
    split
    · refine inv.setPair live rfl rfl rfl rfl (ttyWriteToOutQueue_tagged tags fun c mem => ?_)
      rw [stamp_tag mem, ← session]
      exact .inr rfl
    · exact inv

/-- What a descriptor reads bears a tag of its session. -/
theorem Inv.record (live : a ∈ s.live) (tty : InSession (s.pairs a).session tty')
    (new : ∀ c ∈ chars, d.MayRead echo c.tag) :
    Inv echo spared { s.setTty a tty' with log := ⟨d, chars⟩ :: (s.setTty a tty').log } := by
  have set : Inv echo spared (s.setTty a tty') := inv.setPair live rfl rfl rfl rfl tty
  refine { set with isolated := fun event mem => ?_ }
  rcases mem_cons.mp mem with rfl | mem
  · exact new
  · exact inv.isolated event mem

theorem tfsPtyRead_inv (opened : d ∈ s.files) (leads : d.Leads s) (quiet : echo ∨ (read d size).Quiet s) :
    Inv echo spared (tfsPtyRead s d size).2 := by
  unfold tfsPtyRead
  split
  · exact inv
  split
  · exact inv
  case h_2 a found =>
  obtain ⟨live, session⟩ := inv.pair_of_open opened leads found
  have tags := inv.tags a live
  dsimp only
  split
  · exact inv
  case h_2 chars tty' read =>
  cases d with
  | master k =>
    obtain ⟨front, back⟩ := ttyReadFromOutQueue_tagged tags read
    refine inv.record live back fun c mem => ?_
    obtain ⟨taken, tag | tag⟩ := front c mem
    · have echo := quiet.resolve_right fun quiet => nomatch tag.symm.trans (quiet a found c taken)
      rw [tag, ← session]
      exact .inl ⟨echo, rfl⟩
    · rw [tag, ← session]
      rfl
  | replica n k =>
    obtain ⟨front, back⟩ := ttyReadFromInQueue_tagged tags read
    refine inv.record live back fun c mem => ?_
    rw [front c mem, ← session]
    exact .inr ⟨n, rfl⟩

omit inv in
theorem NamesInUse.more (inUse : NamesInUse s) (d : Descriptor) : NamesInUse (s.setFiles (d :: s.files)) := by
  intro number node there
  obtain ⟨user, opened, session⟩ := inUse number node there
  exact ⟨user, mem_cons_of_mem d opened, session⟩

theorem tfsPtyReplicaOpen_inv (clean : (openReplica number).Clean s) :
    Inv echo spared (tfsPtyReplicaOpen s number).2 := by
  unfold tfsPtyReplicaOpen
  split
  · exact inv
  case h_2 node found =>
  split
  · exact inv
  case h_2 a isPair =>
  -- The descriptor that is still open leads to the pair of the node.
  have here : a ∈ s.live ∧ node = ⟨vfsCharDev, some a, (s.pairs a).session⟩ ∧ (s.pairs a).id = number := by
    obtain ⟨d, opened, session⟩ := clean node found (isPair ▸ some_ne_none a)
    obtain ⟨b, live, same⟩ := inv.live_of_open opened
    have isNumber := inv.distinct _ _ _ found _ (inv.nodes b live) (session.symm.trans same)
    subst isNumber
    obtain rfl := some.inj (found.symm.trans (inv.nodes b live))
    obtain rfl := some.inj isPair
    exact ⟨live, rfl, rfl⟩
  obtain ⟨live, rfl, rfl⟩ := here
  obtain ⟨masters, replicas⟩ := inv.counts a live
  let new : Descriptor := .replica (s.pairs a).id (s.pairs a).session
  have others : ∀ d, new ≠ d → (new :: s.files).count d = s.files.count d := fun d ne => count_cons_of_ne ne
  have more : (new :: s.files).count new = s.files.count new + 1 := count_cons_self
  refine inv.recount live rfl rfl (inv.tags _ live) ?_ ?_ (fun d other => others d ?_) (fun d opened _ => ?_)
    fun spared => (inv.named spared).more new
  · exact (congrArg Nat.cast (others (.master _) nofun)).trans_le masters
  · refine (congrArg Nat.cast more).trans_le ?_
    exact Int.add_le_add_right replicas 1
  · rintro rfl
    exact other rfl
  · exact (mem_cons.mp opened).symm

/-- The pair a descriptor belongs to has no other. -/
theorem Inv.destroy (noMaster : .master (s.pairs a).session ∉ s.files)
    (noReplica : .replica (s.pairs a).id (s.pairs a).session ∉ s.files) : Inv echo spared (s.freePair a) := by
  refine ⟨fun x there => inv.tags x (mem_of_mem_erase there), fun d opened => ?_,
    fun x there => inv.counts x (mem_of_mem_erase there),
    fun x there => inv.nodes x (mem_of_mem_erase there), inv.known, inv.distinct, inv.isolated, inv.named⟩
  obtain ⟨x, there, has⟩ := inv.opened d opened
  refine ⟨x, mem_erase.mpr ⟨?_, there⟩, has⟩
  rintro rfl
  rcases has with rfl | rfl
  · exact noMaster opened
  · exact noReplica opened

/-- Nobody refers to the pair of the node that is cleared. -/
theorem Inv.clearPrivateData (gone : ∀ b ∈ s.pairOf d, b ∉ s.live) : Inv echo spared (s.clearPrivateData d) := by
  cases d with
  | master k => exact { inv with }
  | replica number k =>
    have nodes : ∀ n, (s.clearPrivateData (.replica number k)).pts n =
        if n = number then (s.pts number).map fun node => { node with privateData := none } else s.pts n := fun n => by
      simp only [clearPrivateData, setNode, update_apply]
    have cleared : ∀ n, ∀ node ∈ (s.clearPrivateData (.replica number k)).pts n,
        ∃ old ∈ s.pts n, old.session = node.session := by
      intro n node there
      rw [nodes] at there
      split_ifs at there with here
      · subst here
        obtain ⟨old, found, rfl⟩ := map_eq_some_iff.mp there
        exact ⟨old, found, rfl⟩
      · exact ⟨node, there, rfl⟩
    refine ⟨inv.tags, inv.opened, inv.counts, fun x there => ?_, fun n node there => ?_,
      fun n n' node there node' there' same => ?_, inv.isolated, fun spared n node there => ?_⟩
    · have old := inv.nodes x there
      have other : (s.pairs x).id ≠ number := by
        rintro rfl
        refine gone x ?_ there
        change (s.pts (s.pairs x).id).bind _ = some x
        rw [old]
        rfl
      exact (nodes _).trans ((if_neg other).trans old)
    · obtain ⟨old, found, sameSession⟩ := cleared n node there
      exact sameSession ▸ inv.known n old found
    · obtain ⟨old, found, sameSession⟩ := cleared n node there
      obtain ⟨old', found', sameSession'⟩ := cleared n' node' there'
      exact inv.distinct n n' old found old' found' (by rw [sameSession, same, sameSession'])
    · obtain ⟨old, found, sameSession⟩ := cleared n node there
      exact sameSession ▸ inv.named spared n old found

/-- The node of a replica is no plain file, so that `ramfs_unlink` leaves it. -/
theorem Inv.ptsUnlink_eq (live : a ∈ s.live) : ptsUnlink s (s.pairs a).id = s := by
  have notFile : vfsCharDev ≠ vfsFile := by decide
  rw [ptsUnlink, inv.nodes a live]
  exact if_pos notFile

omit inv in
theorem NamesInUse.erase (inUse : NamesInUse s) (spares : (close d).Spares s) : NamesInUse (s.setFiles (s.files.erase d)) := by
  intro number node there
  obtain ⟨user, opened, session⟩ := inUse number node there
  by_cases here : user = d
  · obtain ⟨other, left, also⟩ := spares
    exact ⟨other, left, also.trans (here ▸ session)⟩
  · exact ⟨user, (mem_erase_of_ne here).mpr opened, session⟩

section
variable (spares : spared → (Call.close d).Spares s)
include spares

/-- The counts of the pair after one of its descriptors is gone. -/
theorem Inv.close (opened : d ∈ s.files) (live : a ∈ s.live) (session : d.session = (s.pairs a).session) :
    Inv echo spared ((s.setPair a (d.closed (s.pairs a))).setFiles (s.files.erase d)) := by
  obtain ⟨masters, replicas⟩ := inv.counts a live
  have positive := count_pos_iff.mpr opened
  have less : (s.files.erase d).count d = s.files.count d - 1 := count_erase_self
  have others : ∀ other, d ≠ other → (s.files.erase d).count other = s.files.count other := fun other ne =>
    count_erase_of_ne ne.symm
  have ends : ∀ other ∈ s.files.erase d, other.session = (s.pairs a).session →
      other ∈ s.files ∨ other = .replica (s.pairs a).id (s.pairs a).session := fun other rest _ =>
    .inl (mem_of_mem_erase rest)
  have apart : ∀ other : Descriptor, other.session ≠ (s.pairs a).session →
      (s.files.erase d).count other = s.files.count other := by
    intro other ne
    refine others other ?_
    rintro rfl
    exact ne session
  have named := fun isSpared => (inv.named isSpared).erase (spares isSpared)
  cases d with
  | master k =>
    obtain rfl : k = (s.pairs a).session := session
    refine inv.recount live rfl rfl (inv.tags _ live) ?_ ?_ apart ends named
    · rw [less]
      change _ ≤ (s.pairs a).masterOpenCount - 1
      omega
    · rw [others (.replica _ _) nofun]
      exact replicas
  | replica n k =>
    obtain rfl : k = (s.pairs a).session := session
    obtain ⟨b, there, same | same⟩ := inv.opened _ opened
    · cases same
    obtain ⟨rfl, sameSession⟩ := Descriptor.replica.inj same
    obtain rfl := inv.session_inj there live sameSession.symm
    refine inv.recount live rfl rfl (inv.tags _ live) ?_ ?_ apart ends named
    · rw [others (.master _) nofun]
      exact masters
    · rw [less]
      change _ ≤ (s.pairs b).replicaOpenCount - 1
      omega

/-- A descriptor whose node has no pair. -/
theorem Inv.drop : Inv echo spared (s.setFiles (s.files.erase d)) := by
  refine { inv with opened := ?_, counts := ?_, named := ?_ }
  · exact fun other opened => inv.opened other (mem_of_mem_erase opened)
  · intro a live
    obtain ⟨masters, replicas⟩ := inv.counts a live
    have fewer : ∀ other, (s.files.erase d).count other ≤ s.files.count other := fun other => erase_sublist.count_le other
    exact ⟨(Int.ofNat_le.mpr (fewer _)).trans masters, (Int.ofNat_le.mpr (fewer _)).trans replicas⟩
  · exact fun isSpared => (inv.named isSpared).erase (spares isSpared)

theorem tfsPtyClose_inv (opened : d ∈ s.files) (leads : d.Leads s) : Inv echo spared (tfsPtyClose s d).2 := by
  unfold tfsPtyClose
  split
  · exact inv.drop spares
  case h_2 a found =>
  obtain ⟨live, session⟩ := inv.pair_of_open opened leads found
  have closed := inv.close spares opened live session
  dsimp only
  split
  case isTrue last =>
    have pair : ((s.setPair a (d.closed (s.pairs a))).setFiles (s.files.erase d)).pairs a = d.closed (s.pairs a) :=
      (pairs_setPair s a _ a).trans (if_pos rfl)
    obtain ⟨masters, replicas⟩ := closed.counts a live
    have unlinked := closed.ptsUnlink_eq live
    rw [pair] at unlinked
    rw [unlinked]
    rw [pair] at masters replicas
    refine (closed.destroy ?_ ?_).clearPrivateData fun b found' => ?_
    · rw [pair]
      exact count_eq_zero.mp (by omega)
    · rw [pair]
      exact count_eq_zero.mp (by omega)
    have same : some a = some b := by
      rw [← found]
      cases d <;> exact found'
    rw [some.inj same]
    exact notMem_erase b _
  case isFalse => exact closed

end

end

def withSession (s : State) (a : PairAddr) : State where
  pairs := update s.pairs a { newPair s.idCounter s.sessions with masterOpenCount := 1 }
  live := insert a s.live
  ptmx := some a
  pts := update s.pts s.idCounter (some ⟨vfsCharDev, some a, s.sessions⟩)
  idCounter := s.idCounter + 1
  sessions := s.sessions + 1
  files := .master s.sessions :: s.files
  log := s.log

theorem tfsPtmxOpen_cases (grants : Grants) (unused : s.pts s.idCounter = none) :
    (tfsPtmxOpen s grants).2 = s ∨ (tfsPtmxOpen s grants).2 = { s with idCounter := s.idCounter + 1 } ∨
      ∃ a ∈ grants.pair, (tfsPtmxOpen s grants).2 = withSession s a := by
  obtain ⟨pair, tty, node⟩ := grants
  cases pair with
  | none => exact .inl rfl
  | some a =>
    cases tty with
    | false => exact .inl rfl
    | true =>
      refine .inr ?_
      cases node with
      | false =>
        refine .inl ?_
        simp [tfsPtmxOpen, vfsPtyAllocateInternal, createNode, unused]
      | true =>
        refine .inr ⟨a, rfl, ?_⟩
        simp [tfsPtmxOpen, vfsPtyAllocateInternal, createNode, unused, withSession, setPair, setNode]

theorem Inv.withSession (inv : Inv echo spared s) (new : a ∉ s.live) (unused : s.pts s.idCounter = none) :
    Inv echo spared (withSession s a) := by
  let next := Pty.withSession s a
  have pairs : ∀ x, next.pairs x =
      if x = a then { newPair s.idCounter s.sessions with masterOpenCount := 1 } else s.pairs x := fun x => by
    simp only [next, Pty.withSession, update_apply]
  have pts : ∀ n, next.pts n = if n = s.idCounter then some ⟨vfsCharDev, some a, s.sessions⟩ else s.pts n := fun n => by
    simp only [next, Pty.withSession, update_apply]
  have kept : ∀ {x}, x ∈ next.live → x ≠ a → x ∈ s.live := fun mem ne => (mem_insert.mp mem).resolve_left ne
  have here : next.pairs a = { newPair s.idCounter s.sessions with masterOpenCount := 1 } := by rw [pairs, if_pos rfl]
  have there : ∀ {x}, x ∈ s.live → next.pairs x = s.pairs x := fun mem => by
    rw [pairs, if_neg]
    rintro rfl
    exact new mem
  have none : ∀ d ∈ s.files, d.session ≠ s.sessions := by
    intro d opened same
    obtain ⟨x, live, session⟩ := inv.live_of_open opened
    exact absurd (inv.session_lt live) (session ▸ same ▸ lt_irrefl _)
  refine ⟨fun x live => ?_, fun d opened => ?_, fun x live => ?_, fun x live => ?_,
    fun n node found => ?_, fun n n' node found node' found' same => ?_, inv.isolated, fun spared n node found => ?_⟩
  · by_cases isNew : x = a
    · rw [isNew, here]
      exact ⟨nofun, nofun⟩
    · rw [there (kept live isNew)]
      exact inv.tags x (kept live isNew)
  · rcases mem_cons.mp opened with same | opened
    · refine ⟨a, mem_insert_self a _, ?_⟩
      rw [here]
      exact .inl same
    · obtain ⟨x, live, has⟩ := inv.opened d opened
      refine ⟨x, mem_insert_of_mem live, ?_⟩
      rw [there live]
      exact has
  · have files : next.files = .master s.sessions :: s.files := rfl
    rw [files]
    by_cases isNew : x = a
    · rw [isNew, here]
      have noMaster := count_eq_zero.mpr fun opened => none (.master s.sessions) opened rfl
      have noReplica := count_eq_zero.mpr fun opened => none (.replica s.idCounter s.sessions) opened rfl
      simp [newPair, noMaster, noReplica]
    · have live := kept live isNew
      rw [there live]
      simpa [count_cons, (inv.session_lt live).ne'] using inv.counts x live
  · by_cases isNew : x = a
    · rw [isNew, here, pts]
      exact if_pos rfl
    have live := kept live isNew
    have node := inv.nodes x live
    have other : (s.pairs x).id ≠ s.idCounter := fun same => by
      rw [same, unused] at node
      cases node
    rw [there live, pts, if_neg other]
    exact node
  · rw [pts] at found
    split at found
    · obtain rfl := some.inj found
      exact Nat.lt_succ_self _
    · exact Nat.lt_succ_of_lt (inv.known n node found)
  · rw [pts] at found found'
    split_ifs at found found' with one other other
    · rw [one, other]
    · obtain rfl := some.inj found
      exact absurd (inv.known n' node' found') (same ▸ lt_irrefl _)
    · obtain rfl := some.inj found'
      exact absurd (inv.known n node found) (same ▸ lt_irrefl _)
    · exact inv.distinct n n' node found node' found' same
  · rw [pts] at found
    split at found
    · obtain rfl := some.inj found
      exact ⟨_, mem_cons_self, rfl⟩
    · exact (inv.named spared).more _ n node found

theorem tfsPtmxOpen_inv (inv : Inv echo spared s) (new : ∀ a ∈ grants.pair, a ∉ s.live)
    (clean : (openMaster grants).Clean s) : Inv echo spared (tfsPtmxOpen s grants).2 := by
  rcases tfsPtmxOpen_cases grants clean with same | same | ⟨a, granted, same⟩ <;> rw [same]
  · exact inv
  · exact { inv with }
  · exact inv.withSession (new a granted) clean

theorem Call.apply_inv (call : Call) (inv : Inv echo spared s) (possible : call.Possible s) (clean : call.Clean s)
    (quiet : echo ∨ call.Quiet s) (spares : spared → call.Spares s) : Inv echo spared (call.apply s) := by
  cases call with
  | openMaster => exact tfsPtmxOpen_inv inv possible clean
  | openReplica => exact tfsPtyReplicaOpen_inv inv clean
  | write => exact tfsPtyWrite_inv inv possible clean
  | read => exact tfsPtyRead_inv inv possible clean quiet
  | ioctl => exact tfsPtmxIoctl_inv inv possible clean
  | close => exact tfsPtyClose_inv inv spares possible clean

def granted (a : PairAddr) : Grants := ⟨some a, true, true⟩

/-- A dialogue with the second of two masters. -/
def dialogue : List Call :=
  [.openMaster (granted 1), .openMaster (granted 2), .openReplica 1, .ioctl (.master 1), .write (.replica 1 1) [98],
    .read (.master 1) 10, .write (.master 1) [97, 13], .read (.replica 1 1) 10, .close (.replica 1 1)]

def echoed : List Call := [.openMaster (granted 1), .write (.master 0) [97], .read (.master 0) 10]

/-- What the first master writes comes out at the replica of the second. -/
def twoMasters : List Call :=
  [.openMaster (granted 1), .openMaster (granted 2), .openReplica 1, .write (.master 0) [97, 10],
    .read (.replica 1 1) 10]

def closedAgain : List Call := [.openMaster (granted 1), .close (.master 0)]

end Sirius.Fs.Pty
