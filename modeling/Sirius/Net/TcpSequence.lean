import Sirius.Net.Connect
import Sirius.Net.TcpStream
import Mathlib.Data.List.Chain
import Mathlib.Data.List.TakeDrop

/-! The sequence numbers of the data that an ESTABLISHED connection sends. `tcp_send_stream` takes them
from `local_seq`, and the receive path overwrites `local_seq` with the acknowledgement number of
every segment whose payload it stores. -/
namespace Sirius.Net
open Support List

def tcpFlagPsh : BitVec 12 := 0x008

/-- One call of `tcp_send_stream`: `alloc` says whether there is memory for the packet, `output` is what
`ip_output` returns. -/
structure SendCall where
  buf : List UInt8
  localPort : BitVec 16
  remoteAddrLen : Nat
  alloc : Bool
  output : Int

/-- The size is computed in 32 bits. -/
def SendCall.tcpPacketSize (call : SendCall) : Nat := (sizeofTcpHeader + call.buf.length) % 2 ^ 32

structure SendStream where
  sock : Socket
  sent : Option TcpSegment := none
  ret : Int

def tcpSendStream (sock : Socket) (call : SendCall) : SendStream :=
  if call.buf.length = 0 then { sock := sock, ret := -1 }
  else if sock.state ≠ .established then { sock := sock, ret := -1 }
  else if call.remoteAddrLen = 0 then { sock := sock, ret := -2 }
  else if 1500 < sizeofIpHeader + call.tcpPacketSize then { sock := sock, ret := -3 }
  else if call.alloc = false then { sock := sock, ret := -4 }
  else
    { sock := { sock with localSeq := sock.localSeq + BitVec.ofNat 32 call.buf.length }
      sent := some
        { header :=
            { srcPort := call.localPort
              destPort := sock.remotePort
              seqNum := sock.localSeq
              ackNum := sock.remoteAck
              dataOffset := 5
              flags := tcpFlagAck ||| tcpFlagPsh
              windowSize := 2048 }
          rest := call.buf.take (call.tcpPacketSize - sizeofTcpHeader) }
      ret := if call.output < 0 then -5 else call.buf.length }

inductive StreamEvent
  | send (call : SendCall)
  | segment (seg : TcpSegment) (srcIp : BitVec 32) (alloc : Nat → Bool)
  | recvfrom (len : Nat)

/-- A connection with its history: the data segments sent, and the acknowledgement number of the
newest segment stored since the last of them. -/
structure Sending where
  sock : Socket
  sent : List TcpSegment
  ack : Option (BitVec 32)

def Sending.apply (event : StreamEvent) (conn : Sending) : Sending :=
  match event with
  | .send call =>
    match (tcpSendStream conn.sock call).sent with
    | none => conn
    | some seg => ⟨(tcpSendStream conn.sock call).sock, conn.sent ++ [seg], none⟩
  | .segment seg srcIp alloc =>
    { conn with
      sock := (tcpInput conn.sock seg srcIp alloc).sock
      ack := if Stores conn.sock seg then some seg.header.ackNum else conn.ack }
  | .recvfrom len =>
    match afInetRecvfrom conn.sock len with
    | none => conn
    | some result => { conn with sock := result.sock }

/-- The number behind the last byte of a segment. -/
def TcpSegment.ending (seg : TcpSegment) : BitVec 32 := seg.header.seqNum + BitVec.ofNat 32 seg.rest.length

/-- Each segment begins where the one before it ended. -/
def Consecutive (sent : List TcpSegment) : Prop := sent.IsChain fun seg next => next.header.seqNum = seg.ending

theorem consecutive_append (sent : List TcpSegment) (seg : TcpSegment) :
    Consecutive (sent ++ [seg]) ↔ Consecutive sent ∧ ∀ last ∈ sent.getLast?, seg.header.seqNum = last.ending := by
  rw [Consecutive, isChain_append]
  simp only [isChain_singleton, head?_singleton, Option.mem_some_iff, forall_eq', true_and, Consecutive]

/-- A longer buffer overflows the size of the packet. -/
def StreamEvent.Small : StreamEvent → Prop
  | .send call => sizeofTcpHeader + call.buf.length < 2 ^ 32
  | _ => True

/-- The call is refused before a packet is made. -/
def SendCall.Refused (call : SendCall) : Prop :=
  call.buf.length = 0 ∨ call.remoteAddrLen = 0 ∨ 1500 < sizeofIpHeader + call.tcpPacketSize ∨ call.alloc = false

/-- When data goes out, the newest segment stored since the last data has acknowledged all of it. -/
def StreamEvent.Caught (event : StreamEvent) (conn : Sending) : Prop :=
  match event with
  | .send call => ¬call.Refused → ∀ last ∈ conn.sent.getLast?, ∀ ack ∈ conn.ack, ack = last.ending
  | _ => True

structure Sending.Inv (conn : Sending) : Prop where
  state : conn.sock.state = .established
  next : ∀ last ∈ conn.sent.getLast?, conn.sock.localSeq = conn.ack.getD last.ending

/-- A call is refused and sends nothing, or sends its buffer under the next number. -/
theorem tcpSendStream_cases (sock : Socket) (established : sock.state = .established) (call : SendCall)
    (small : sizeofTcpHeader + call.buf.length < 2 ^ 32) :
    call.Refused ∧ (tcpSendStream sock call).sent = none ∨
      ¬call.Refused ∧ ∃ seg, (tcpSendStream sock call).sent = some seg ∧ seg.header.seqNum = sock.localSeq ∧
        (tcpSendStream sock call).sock.state = sock.state ∧ (tcpSendStream sock call).sock.localSeq = seg.ending := by
  have size : call.tcpPacketSize - sizeofTcpHeader = call.buf.length := by
    rw [SendCall.tcpPacketSize, Nat.mod_eq_of_lt small, Nat.add_sub_cancel_left]
  have whole : call.buf.take (call.tcpPacketSize - sizeofTcpHeader) = call.buf := by rw [size, take_length]
  rw [tcpSendStream, if_neg (not_not.mpr established)]
  split
  case isTrue empty => exact .inl ⟨.inl empty, rfl⟩
  split
  case isTrue nowhere => exact .inl ⟨.inr (.inl nowhere), rfl⟩
  split
  case isTrue long => exact .inl ⟨.inr (.inr (.inl long)), rfl⟩
  split
  case isTrue full => exact .inl ⟨.inr (.inr (.inr full)), rfl⟩
  case isFalse empty nowhere long full =>
    refine .inr ⟨?_, _, rfl, rfl, rfl, ?_⟩
    · exact not_or.mpr ⟨empty, not_or.mpr ⟨nowhere, not_or.mpr ⟨long, full⟩⟩⟩
    · rw [TcpSegment.ending, whole]

namespace Sending.Inv
variable {conn : Sending}

theorem send (inv : conn.Inv) (call : SendCall) (small : sizeofTcpHeader + call.buf.length < 2 ^ 32) :
    (conn.apply (.send call)).Inv ∧
      (Consecutive (conn.apply (.send call)).sent ↔ Consecutive conn.sent ∧ (StreamEvent.send call).Caught conn) := by
  rw [Sending.apply, StreamEvent.Caught]
  rcases tcpSendStream_cases conn.sock inv.state call small with ⟨refused, none⟩ | ⟨taken, seg, sent, seq, state, next⟩
  · simp only [none]
    exact ⟨inv, (and_iff_left fun taken => absurd refused taken).symm⟩
  simp only [sent]
  refine ⟨⟨state.trans inv.state, fun last member => ?_⟩, ?_⟩
  · rw [getLast?_concat, Option.mem_some_iff] at member
    exact member ▸ next
  rw [consecutive_append]
  refine and_congr_right fun _ => ⟨fun goes _ last member ack acked => ?_, fun caught last member => ?_⟩
  · have number := inv.next last member
    rw [show conn.ack = some ack from acked, Option.getD_some] at number
    rw [← number, ← seq]
    exact goes last member
  · rw [seq, inv.next last member]
    cases acked : conn.ack with
    | none => rfl
    | some ack => exact caught taken last member ack acked

theorem segment (inv : conn.Inv) (seg : TcpSegment) (srcIp : BitVec 32) (alloc : Nat → Bool) :
    (conn.apply (.segment seg srcIp alloc)).Inv := by
  refine ⟨tcpInput_established inv.state seg srcIp alloc, fun last member => ?_⟩
  simp only [Sending.apply]
  rcases tcpInput_cases inv.state seg srcIp alloc with ⟨bare, same, -⟩ | ⟨-, full, same, -⟩ | ⟨stores, result, -⟩
  · rw [same, if_neg fun stores => by rw [stores.1] at bare; cases bare]
    exact inv.next last member
  · rw [same, if_neg fun stores => absurd stores.2 (by omega)]
    exact inv.next last member
  · rw [if_pos stores, result]
    rfl

theorem recvfrom (inv : conn.Inv) (len : Nat) : (conn.apply (.recvfrom len)).Inv := by
  simp only [Sending.apply]
  split
  next => exact inv
  next result received =>
    have same : result.sock.state = conn.sock.state ∧ result.sock.localSeq = conn.sock.localSeq := by
      rw [afInetRecvfrom] at received
      repeat' split at received
      all_goals cases received
      all_goals exact ⟨rfl, rfl⟩
    exact ⟨same.1.trans inv.state, fun last member => same.2.trans (inv.next last member)⟩

/-- What one event does to the order of the segments sent. -/
theorem apply (inv : conn.Inv) (event : StreamEvent) (small : event.Small) :
    (conn.apply event).Inv ∧ (Consecutive (conn.apply event).sent ↔ Consecutive conn.sent ∧ event.Caught conn) := by
  cases event with
  | send call => exact inv.send call small
  | segment seg srcIp alloc => exact ⟨inv.segment seg srcIp alloc, (and_iff_left trivial).symm⟩
  | recvfrom len =>
    refine ⟨inv.recvfrom len, Iff.trans ?_ (and_iff_left trivial).symm⟩
    simp only [Sending.apply]
    split <;> rfl

theorem run (inv : conn.Inv) (events : List StreamEvent) (small : ∀ event ∈ events, event.Small) :
    Consecutive (runAll Sending.apply events conn).sent ↔
      Consecutive conn.sent ∧ AllMeet Sending.apply StreamEvent.Caught events conn := by
  induction events generalizing conn with
  | nil => exact (and_iff_left trivial).symm
  | cons event rest ih =>
    obtain ⟨next, step⟩ := inv.apply event (small event mem_cons_self)
    exact ((ih next fun later member => small later (mem_cons_of_mem _ member)).trans (and_congr_left' step)).trans and_assoc

end Sending.Inv

/-- The data segments of an ESTABLISHED connection carry consecutive numbers exactly if whenever data
goes out the newest acknowledgement received with data covers all that was sent before. -/
theorem data_consecutive_iff_acknowledged (sock : Socket) (state : sock.state = .established) (events : List StreamEvent)
    (small : ∀ event ∈ events, event.Small) :
    Consecutive (runAll Sending.apply events ⟨sock, [], none⟩).sent ↔
      AllMeet Sending.apply StreamEvent.Caught events ⟨sock, [], none⟩ := by
  have inv : Sending.Inv ⟨sock, [], none⟩ := ⟨state, nofun⟩
  exact (inv.run events small).trans (and_iff_right List.IsChain.nil)

def openSocket : Socket := { closedSocket with state := .established, localSeq := 1000, remoteAck := 500 }

def sendBytes (buf : List UInt8) : StreamEvent := .send ⟨buf, 40000, 16, true, 0⟩

def byteReceived (ack : BitVec 32) : StreamEvent :=
  .segment ⟨⟨80, 40000, 500, ack, 5, tcpFlagAck, 1024⟩, [42]⟩ 7 fun _ => true

theorem sendBytes_small (buf : List UInt8) (short : buf.length < 1000) : (sendBytes buf).Small := by
  simp only [sendBytes, StreamEvent.Small, sizeofTcpHeader]
  omega

/-- The other side has everything when the second segment goes out. -/
theorem data_consecutive_acknowledged :
    Consecutive (runAll Sending.apply [sendBytes [1, 2, 3], byteReceived 1003, sendBytes [4]] ⟨openSocket, [], none⟩).sent := by
  refine (data_consecutive_iff_acknowledged openSocket rfl _ ?_).mpr
    ⟨fun _ _ first => (nomatch first), trivial, fun _ last sent ack stored => ?_, trivial⟩
  · simp only [forall_mem_cons]
    exact ⟨sendBytes_small _ (by decide), trivial, sendBytes_small _ (by decide), nofun⟩
  · cases sent
    cases stored
    rfl

/-- The other side's data crosses with the first segment, and the second gets the same number. -/
theorem data_segments_share_a_number :
    (runAll Sending.apply [sendBytes [1, 2, 3], byteReceived 1000, sendBytes [4]] ⟨openSocket, [], none⟩).sent.map
      (fun seg => (seg.header.seqNum, seg.rest)) = [(1000, [1, 2, 3]), (1000, [4])] := by
  decide

/-! ### One call -/

/-- The length is returned and the buffer has gone to the IP layer under the old number, or an error is
returned and nothing has happened. -/
def AllOrNothing (sock : Socket) (call : SendCall) : Prop :=
  let result := tcpSendStream sock call
  (result.ret = call.buf.length ∧ result.sock.localSeq = sock.localSeq + BitVec.ofNat 32 call.buf.length ∧
      ∃ seg, result.sent = some seg ∧ seg.header.seqNum = sock.localSeq ∧ seg.rest = call.buf) ∨
    (result.ret < 0 ∧ result.sent = none ∧ result.sock.localSeq = sock.localSeq)

/-- Sending is all or nothing exactly if the call is refused at once, or `ip_output` returns no error, not even
the one for a packet that waits for ARP, and the size of the packet does not overflow. -/
theorem send_all_or_nothing_iff (sock : Socket) (state : sock.state = .established) (call : SendCall) :
    AllOrNothing sock call ↔ call.Refused ∨ 0 ≤ call.output ∧ sizeofTcpHeader + call.buf.length < 2 ^ 32 := by
  rw [AllOrNothing, tcpSendStream, if_neg (not_not.mpr state)]
  by_cases refused : call.Refused
  · refine iff_of_true (.inr ?_) (.inl refused)
    rcases refused with empty | remote | large | memory
    all_goals
      simp only [*, if_true]
      repeat' split
      all_goals simp
  have checks := refused
  simp only [SendCall.Refused, not_or] at checks
  have mtu := checks.2.2.1
  have whole : call.buf.take (call.tcpPacketSize - sizeofTcpHeader) = call.buf ↔
      sizeofTcpHeader + call.buf.length < 2 ^ 32 := by
    rw [take_eq_self_iff]
    simp only [SendCall.tcpPacketSize, sizeofTcpHeader, sizeofIpHeader] at mtu ⊢
    omega
  simp only [checks, if_false, refused, false_or, reduceCtorEq, false_and, and_false, or_false,
    Option.some.injEq, exists_eq_left', true_and, whole]
  refine and_congr_left fun _ => ?_
  split <;> omega

theorem send_all_or_nothing_sent : AllOrNothing openSocket ⟨[1, 2, 3], 40000, 16, true, 0⟩ :=
  (send_all_or_nothing_iff openSocket rfl _).mpr (.inr ⟨Int.le_refl 0, by decide⟩)

/-- A packet that waits for ARP is reported as an error, and sent later under a number that is used up. -/
theorem queued_segment_reported_lost : let result := tcpSendStream openSocket ⟨[1, 2, 3], 40000, 16, true, -11⟩
    result.ret = -5 ∧ result.sent.map (·.rest) = some [1, 2, 3] ∧ result.sock.localSeq = 1003 := by
  decide

end Sirius.Net
