import Sirius.Net.Tcp
import Sirius.Support.Runs
import Mathlib.Data.List.Nodup

/-! Opening a TCP connection from either side: `tcp_connect_handshake`, the waiting in `af_inet_connect`,
and the listen queue between `tcp_input` and `af_inet_accept`. The numbers of the segments that
complete a handshake are not looked at by the code; a history beside the socket remembers what
they should be. -/
namespace Sirius.Net
open Support
open List hiding after

def initialSequenceNumber : BitVec 32 := 1000

def tcpConnectHandshake (sock : Socket) (remoteIp : BitVec 32) (remotePort : BitVec 16) : Socket :=
  { sock with
    localSeq := initialSequenceNumber
    remoteAck := 0
    remoteIp := remoteIp
    remotePort := remotePort
    state := .synSent }

def afInetListen (sock : Socket) : Socket := { sock with state := .listen }

/-- The first established connection of the queue is taken out and returned; without one the caller sleeps. -/
def afInetAccept (sock : Socket) : Option Connection × Socket :=
  if sock.state = .listen then
    (sock.listenQueue.find? (·.state = .established),
      { sock with listenQueue := sock.listenQueue.eraseP (·.state = .established) })
  else (none, sock)

inductive HandshakeEvent
  | segment (seg : TcpSegment) (srcIp : BitVec 32) (alloc : Nat → Bool)
  | connect (remoteIp : BitVec 32) (remotePort : BitVec 16)
  | connectFailed
  | listen
  | accept

/-- A socket with its history: the number in its own SYN, and for each remote address and port the
number of the newest SYN queued from there and the number in the answer to it. -/
structure Opening where
  sock : Socket
  iss : BitVec 32
  clientIsn : BitVec 32 → BitVec 16 → BitVec 32
  answered : BitVec 32 → BitVec 16 → BitVec 32

namespace Opening

/-- The history after a segment: a new entry at the head of the queue is noted. -/
def noteSegment (o : Opening) (seg : TcpSegment) (srcIp : BitVec 32) (result : TcpInput) : Opening :=
  if o.sock.state = .listen ∧ o.sock.listenQueue.length < result.sock.listenQueue.length then
    { o with
      sock := result.sock
      clientIsn := fun ip port => if ip = srcIp ∧ port = seg.header.srcPort then seg.header.seqNum else o.clientIsn ip port
      answered := fun ip port =>
        if ip = srcIp ∧ port = seg.header.srcPort then (result.sent.head?.map TcpHeader.seqNum).getD 0 else o.answered ip port }
  else { o with sock := result.sock }

def apply (event : HandshakeEvent) (o : Opening) : Opening :=
  match event with
  | .segment seg srcIp alloc => o.noteSegment seg srcIp (tcpInput o.sock seg srcIp alloc)
  | .connect remoteIp remotePort =>
    { o with sock := tcpConnectHandshake o.sock remoteIp remotePort, iss := initialSequenceNumber }
  | .connectFailed => { o with sock := { o.sock with state := .closed } }
  | .listen => { o with sock := afInetListen o.sock }
  | .accept => { o with sock := (afInetAccept o.sock).2 }

@[simp] theorem noteSegment_sock (o : Opening) (seg : TcpSegment) (srcIp : BitVec 32) (result : TcpInput) :
    (o.noteSegment seg srcIp result).sock = result.sock := by
  rw [noteSegment]
  split <;> rfl

end Opening

/-- At most one entry for each remote address and port. -/
def Distinct (queue : List Connection) : Prop := (queue.map fun entry => (entry.remoteIp, entry.remotePort)).Nodup

def HandshakeEvent.seg? : HandshakeEvent → Option TcpSegment
  | .segment seg _ _ => some seg
  | _ => none

/-- What a step may do: open the socket by the answer to its SYN, open an entry of the queue by the
answer to its SYN-ACK, and queue each remote once. -/
structure ValidStep (event : HandshakeEvent) (o : Opening) : Prop where
  opened : o.sock.state = .synSent → (o.apply event).sock.state = .established →
    ∃ seg, event.seg? = some seg ∧ seg.has tcpFlagSyn = true ∧ seg.has tcpFlagAck = true ∧ seg.header.ackNum = o.iss + 1
  accepted : ∀ entry ∈ (o.apply event).sock.listenQueue, entry.state = .established → entry ∉ o.sock.listenQueue →
    ∃ seg, event.seg? = some seg ∧ seg.has tcpFlagAck = true ∧
      seg.header.ackNum = o.answered entry.remoteIp entry.remotePort + 1 ∧
      seg.header.seqNum = o.clientIsn entry.remoteIp entry.remotePort + 1
  distinct : Distinct (o.apply event).sock.listenQueue

/-- The entry waits for the last segment of a handshake with this remote. -/
def Connection.Awaits (entry : Connection) (srcIp : BitVec 32) (srcPort : BitVec 16) : Prop :=
  entry.remoteIp = srcIp ∧ entry.remotePort = srcPort ∧ entry.state = .synRecv

/-- The peers keep to the protocol: a SYN-ACK answers the socket's SYN, no SYN comes from a remote
that is queued already, and the ACK of a remote that is queued answers the SYN-ACK. -/
def HandshakeEvent.Proper (event : HandshakeEvent) (o : Opening) : Prop :=
  match event with
  | .segment seg srcIp alloc =>
    match o.sock.state with
    | .synSent => seg.has tcpFlagSyn = true → seg.has tcpFlagAck = true → seg.header.ackNum = o.iss + 1
    | .listen =>
      alloc 0 = true → alloc 1 = true →
        if seg.has tcpFlagSyn then
          ∀ entry ∈ o.sock.listenQueue, ¬ (entry.remoteIp = srcIp ∧ entry.remotePort = seg.header.srcPort)
        else seg.has tcpFlagAck = true → ∀ entry ∈ o.sock.listenQueue, entry.Awaits srcIp seg.header.srcPort →
          seg.header.ackNum = o.answered srcIp seg.header.srcPort + 1 ∧
            seg.header.seqNum = o.clientIsn srcIp seg.header.srcPort + 1
    | _ => True
  | _ => True

/-- What completes a handshake: the first entry that waits for the segment is replaced. -/
theorem completeHandshake_cases (seg : TcpSegment) (srcIp : BitVec 32) (queue : List Connection) :
    (completeHandshake seg srcIp queue = none ∧ ∀ entry ∈ queue, ¬ entry.Awaits srcIp seg.header.srcPort) ∨
      ∃ before entry after session, queue = before ++ entry :: after ∧ entry.Awaits srcIp seg.header.srcPort ∧
        session.state = .established ∧ session.remoteIp = entry.remoteIp ∧ session.remotePort = entry.remotePort ∧
        completeHandshake seg srcIp queue = some (session, before ++ session :: after) := by
  induction queue with
  | nil => exact .inl ⟨rfl, nofun⟩
  | cons head rest ih =>
    rw [completeHandshake]
    by_cases awaits : head.remoteIp = srcIp ∧ head.remotePort = seg.header.srcPort ∧ head.state = .synRecv
    · exact .inr ⟨[], head, rest, ⟨.established, head.remoteIp, head.remotePort, head.localSeq + 1, seg.header.seqNum, emptyRing⟩,
        rfl, awaits, rfl, rfl, rfl, if_pos awaits⟩
    rw [if_neg awaits]
    rcases ih with ⟨result, none⟩ | ⟨before, entry, after, session, split, found, state, ip, port, result⟩
    · refine .inl ⟨by rw [result]; rfl, fun entry member => ?_⟩
      rcases mem_cons.mp member with rfl | later
      · exact awaits
      · exact none entry later
    · refine .inr ⟨head :: before, entry, after, session, by rw [split]; rfl, found, state, ip, port, ?_⟩
      rw [result]
      rfl

theorem Distinct.eraseP (distinct : Distinct queue) (taken : Connection → Bool) : Distinct (queue.eraseP taken) :=
  ((eraseP_sublist).map _).nodup distinct

section
variable {session entry : Connection} (distinct : Distinct (before ++ entry :: after))
    (ip : session.remoteIp = entry.remoteIp) (port : session.remotePort = entry.remotePort)
include distinct ip port

theorem Distinct.replace : Distinct (before ++ session :: after) := by
  simpa only [Distinct, map_append, map_cons, ip, port] using distinct

/-- The entry with the session's remote is the one that was replaced. -/
theorem Distinct.fresh (changed : session.state ≠ entry.state) :
    session ∉ before ++ entry :: after := by
  intro member
  have same : session = entry :=
    inj_on_of_nodup_map distinct member (mem_append_right _ mem_cons_self) (by rw [ip, port])
  exact changed (by rw [same])

end

variable {o : Opening} (distinct : Distinct o.sock.listenQueue)
include distinct

/-- A step that leaves the queue alone and does not open the socket. -/
theorem ValidStep.of_quiet
    (queue : (o.apply event).sock.listenQueue = o.sock.listenQueue)
    (shut : o.sock.state = .synSent → (o.apply event).sock.state ≠ .established) : ValidStep event o where
  opened := fun before after => absurd after (shut before)
  accepted := fun _ member _ new => absurd (queue ▸ member) new
  distinct := queue ▸ distinct

theorem segment_synSent (state : o.sock.state = .synSent)
    (seg : TcpSegment) (srcIp : BitVec 32) (alloc : Nat → Bool) :
    ValidStep (.segment seg srcIp alloc) o ↔
      (seg.has tcpFlagSyn = true → seg.has tcpFlagAck = true → seg.header.ackNum = o.iss + 1) := by
  have result : (o.apply (.segment seg srcIp alloc)).sock = (tcpInputSynSent o.sock seg alloc).sock := by
    rw [Opening.apply, Opening.noteSegment_sock, tcpInput, state]
  have queue : (o.apply (.segment seg srcIp alloc)).sock.listenQueue = o.sock.listenQueue := by
    rw [result, tcpInputSynSent]
    split <;> rfl
  by_cases answer : (seg.has tcpFlagSyn && seg.has tcpFlagAck) = true
  · have opens : (o.apply (.segment seg srcIp alloc)).sock.state = .established := by
      rw [result, tcpInputSynSent, if_pos answer]
    rw [Bool.and_eq_true] at answer
    constructor
    · intro valid _ _
      obtain ⟨_, same, -, -, number⟩ := valid.opened state opens
      cases same
      exact number
    · intro number
      refine ⟨fun _ _ => ⟨seg, rfl, answer.1, answer.2, number answer.1 answer.2⟩, ?_, queue ▸ distinct⟩
      exact fun _ member _ new => absurd (queue ▸ member) new
  · have shut : (o.apply (.segment seg srcIp alloc)).sock.state = .synSent := by
      rw [result, tcpInputSynSent, if_neg answer, state]
    rw [Bool.and_eq_true, not_and] at answer
    refine ⟨fun _ syn ack => absurd ack (answer syn), fun _ => .of_quiet distinct queue fun _ => ?_⟩
    rw [shut]
    exact nofun

/-- A new entry is queued, in front and not yet established. -/
theorem segment_queued (state : o.sock.state = .listen)
    (pending : entry.state = .synRecv) (queue : (o.apply event).sock.listenQueue = entry :: o.sock.listenQueue) :
    ValidStep event o ↔
      ∀ other ∈ o.sock.listenQueue, ¬ (other.remoteIp = entry.remoteIp ∧ other.remotePort = entry.remotePort) := by
  have once : Distinct (entry :: o.sock.listenQueue) ↔
      ∀ other ∈ o.sock.listenQueue, ¬ (other.remoteIp = entry.remoteIp ∧ other.remotePort = entry.remotePort) := by
    rw [Distinct, map_cons, nodup_cons]
    refine (and_iff_left distinct).trans ?_
    simp [mem_map, not_exists, not_and]
  rw [← once]
  refine ⟨fun valid => queue ▸ valid.distinct, fun kept => ⟨?_, fun other member open_ new => ?_, queue.symm ▸ kept⟩⟩
  · intro waiting
    cases state.symm.trans waiting
  · rw [queue] at member
    rcases mem_cons.mp member with rfl | old
    · cases pending.symm.trans open_
    · exact absurd old new

/-- An entry of the queue is completed. -/
theorem segment_completed (state : o.sock.state = .listen)
    (split : o.sock.listenQueue = before ++ entry :: after) (awaits : entry.Awaits srcIp seg.header.srcPort)
    (opened : session.state = .established) (ip : session.remoteIp = entry.remoteIp)
    (port : session.remotePort = entry.remotePort) (brought : event.seg? = some seg) (ack : seg.has tcpFlagAck = true)
    (queue : (o.apply event).sock.listenQueue = before ++ session :: after) :
    ValidStep event o ↔ seg.header.ackNum = o.answered srcIp seg.header.srcPort + 1 ∧
      seg.header.seqNum = o.clientIsn srcIp seg.header.srcPort + 1 := by
  rw [split] at distinct
  have remote : session.remoteIp = srcIp ∧ session.remotePort = seg.header.srcPort :=
    ⟨ip.trans awaits.1, port.trans awaits.2.1⟩
  constructor
  · intro valid
    have new : session ∉ o.sock.listenQueue := by
      rw [split]
      exact distinct.fresh ip port (by rw [opened, awaits.2.2]; exact nofun)
    obtain ⟨_, same, -, numbers⟩ :=
      valid.accepted session (queue ▸ mem_append_right _ mem_cons_self) opened new
    cases brought.symm.trans same
    rw [remote.1, remote.2] at numbers
    exact numbers
  · intro numbers
    refine ⟨?_, fun other member open_ new => ⟨seg, brought, ack, ?_⟩, queue ▸ distinct.replace ip port⟩
    · intro waiting
      cases state.symm.trans waiting
    have same : other = session := by
      rw [queue, mem_append, mem_cons] at member
      rw [split, mem_append, mem_cons, not_or, not_or] at new
      exact (member.resolve_left new.1).resolve_right new.2.2
    rw [same, remote.1, remote.2]
    exact numbers

theorem segment_listen (state : o.sock.state = .listen)
    (seg : TcpSegment) (srcIp : BitVec 32) (alloc : Nat → Bool) :
    ValidStep (.segment seg srcIp alloc) o ↔ (HandshakeEvent.segment seg srcIp alloc).Proper o := by
  have result : (o.apply (.segment seg srcIp alloc)).sock = (tcpInputListen o.sock seg srcIp alloc).sock := by
    rw [Opening.apply, Opening.noteSegment_sock, tcpInput, state]
  have quiet : (o.apply (.segment seg srcIp alloc)).sock = o.sock → ValidStep (.segment seg srcIp alloc) o := by
    intro same
    refine .of_quiet distinct (by rw [same]) fun waiting => ?_
    cases state.symm.trans waiting
  simp only [HandshakeEvent.Proper, state]
  rw [tcpInputListen] at result
  by_cases syn : seg.has tcpFlagSyn = true
  · simp only [if_pos syn] at result ⊢
    by_cases memory : alloc 0 = true ∧ alloc 1 = true
    · rw [if_pos memory.1, if_pos memory.2] at result
      refine (segment_queued distinct state rfl (by rw [result])).trans ?_
      exact ⟨fun fresh _ _ => fresh, fun fresh => fresh memory.1 memory.2⟩
    refine ⟨fun _ first second => absurd ⟨first, second⟩ memory, fun _ => quiet ?_⟩
    rw [result]
    split
    · split
      · exact absurd ⟨‹_›, ‹_›⟩ memory
      · rfl
    · rfl
  · simp only [if_neg syn] at result ⊢
    by_cases ack : seg.has tcpFlagAck = true
    · rw [if_pos ack] at result
      rcases completeHandshake_cases seg srcIp o.sock.listenQueue with
        ⟨failed, none⟩ | ⟨before, entry, after, session, split, awaits, opened, ip, port, completed⟩
      · rw [failed] at result
        refine ⟨fun _ _ _ _ entry member awaits => absurd awaits (none entry member), fun _ => quiet result⟩
      rw [completed] at result
      by_cases memory : alloc 0 = true ∧ alloc 1 = true
      · simp only [memory.1, memory.2, Bool.and_self, if_true] at result
        refine (segment_completed distinct state split awaits opened ip port rfl ack (by rw [result])).trans ?_
        refine ⟨fun numbers _ _ _ _ _ _ => numbers, fun proper => proper memory.1 memory.2 ack entry ?_ awaits⟩
        rw [split]
        exact mem_append_right _ mem_cons_self
      · refine ⟨fun _ first second => absurd ⟨first, second⟩ memory, fun _ => quiet ?_⟩
        rw [result]
        dsimp only
        rw [if_neg (by rwa [Bool.and_eq_true])]
    · rw [if_neg ack] at result
      exact ⟨fun _ _ _ some => absurd some ack, fun _ => quiet result⟩

omit distinct in
/-- Only a listening socket touches its queue. -/
theorem tcpInput_listenQueue {sock : Socket} (other : sock.state ≠ .listen) (seg : TcpSegment) (srcIp : BitVec 32)
    (alloc : Nat → Bool) : (tcpInput sock seg srcIp alloc).sock.listenQueue = sock.listenQueue := by
  unfold tcpInput
  split
  case h_1 =>
    unfold tcpInputSynSent
    split <;> rfl
  case h_2 state => exact absurd state other
  case h_3 =>
    unfold tcpInputFinWait1
    dsimp only
    split
    · split <;> rfl
    · rfl
  case h_4 =>
    unfold tcpInputEstablished
    dsimp only
    repeat' split
    all_goals rfl
  case h_5 => rfl

theorem validStep_iff (event : HandshakeEvent) :
    ValidStep event o ↔ event.Proper o := by
  cases event with
  | segment seg srcIp alloc =>
    cases state : o.sock.state with
    | synSent =>
      refine (segment_synSent distinct state seg srcIp alloc).trans ?_
      simp only [HandshakeEvent.Proper, state]
    | listen => exact segment_listen distinct state seg srcIp alloc
    | _ =>
      -- in the other states neither the queue is touched nor a SYN waited for
      have other : o.sock.state ≠ .listen := by
        rw [state]
        exact nofun
      simp only [HandshakeEvent.Proper, state, iff_true]
      refine .of_quiet distinct ?_ fun waiting => nomatch state.symm.trans waiting
      rw [Opening.apply, Opening.noteSegment_sock, tcpInput_listenQueue other]
  | accept =>
    refine iff_of_true ⟨fun waiting opens => ?_, fun entry member _ new => ?_, ?_⟩ trivial
    · rw [Opening.apply, afInetAccept, if_neg (by rw [waiting]; exact nofun), waiting] at opens
      cases opens
    · simp only [Opening.apply, afInetAccept] at member
      split at member
      · exact absurd (mem_of_mem_eraseP member) new
      · exact absurd member new
    · simp only [Opening.apply, afInetAccept]
      split
      · exact distinct.eraseP _
      · exact distinct
  | _ => exact iff_of_true (.of_quiet distinct rfl fun _ => nofun) trivial

structure Opening.Fresh (o : Opening) : Prop where
  closed : o.sock.state = .closed
  queue : o.sock.listenQueue = []

omit distinct

/-- Handshakes go by the protocol, and each remote is queued once, exactly as long as the segments that
arrive do. -/
theorem handshakes_valid_iff_segments_proper (o : Opening) (fresh : o.Fresh) (events : List HandshakeEvent) :
    AllMeet Opening.apply ValidStep events o ↔ AllMeet Opening.apply HandshakeEvent.Proper events o := by
  have start : Distinct o.sock.listenQueue := by
    rw [fresh.queue]
    exact nodup_nil
  exact allMeet_congr (fun o => Distinct o.sock.listenQueue) start
    (fun event _ distinct => validStep_iff distinct event)
    fun event _ distinct proper => ((validStep_iff distinct event).mpr proper).distinct

def closedSocket : Socket where
  state := .closed
  remoteIp := 0
  remotePort := 0
  localSeq := 0
  remoteAck := 0
  rx := emptyRing
  listenQueue := []

def freshOpening : Opening := ⟨closedSocket, 0, fun _ _ => 0, fun _ _ => 0⟩

def bareSegment (seq ack : BitVec 32) (flags : BitVec 12) : TcpSegment := ⟨⟨40000, 80, seq, ack, 5, flags, 1024⟩, []⟩

def fromClient (seq ack : BitVec 32) (flags : BitVec 12) : HandshakeEvent :=
  .segment (bareSegment seq ack flags) 7 fun _ => true

def clientAccepted : List HandshakeEvent :=
  [.listen, fromClient 500 0 tcpFlagSyn, fromClient 501 1 tcpFlagAck, .accept]

theorem handshakes_valid_accepted : AllMeet Opening.apply ValidStep clientAccepted freshOpening := by
  refine (handshakes_valid_iff_segments_proper freshOpening ⟨rfl, rfl⟩ clientAccepted).mpr ⟨trivial, ?_, ?_, trivial, trivial⟩
  · exact fun _ _ => nofun
  · exact fun _ _ _ _ _ _ => ⟨by decide, by decide⟩

/-- The numbers of a SYN-ACK and of a handshake's last ACK are not looked at, and a SYN that is sent
again is queued again. -/
theorem handshakes_without_valid_numbers : ¬ AllMeet Opening.apply ValidStep
        [.connect 7 40000, fromClient 500 77 (tcpFlagSyn ||| tcpFlagAck)] freshOpening ∧
      ¬ AllMeet Opening.apply ValidStep
        [.listen, fromClient 500 0 tcpFlagSyn, fromClient 9 77 tcpFlagAck] freshOpening ∧
      ¬ AllMeet Opening.apply ValidStep
        [.listen, fromClient 500 0 tcpFlagSyn, fromClient 500 0 tcpFlagSyn] freshOpening := by
  refine ⟨fun ⟨_, valid, _⟩ => ?_, fun ⟨_, _, valid, _⟩ => ?_, fun ⟨_, _, valid, _⟩ => ?_⟩
  · obtain ⟨_, brought, -, -, number⟩ := valid.opened rfl rfl
    cases brought
    exact absurd number (by decide)
  · obtain ⟨_, brought, -, number, -⟩ := valid.accepted _ mem_cons_self rfl fun member =>
      nomatch congrArg Connection.state (mem_singleton.mp member)
    cases brought
    exact absurd number (by decide)
  · exact absurd valid.distinct (by unfold Distinct; decide)

end Sirius.Net
