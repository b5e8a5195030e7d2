import Sirius.Net.Tcp
import Mathlib.Algebra.Group.Nat.Defs

/-! An ESTABLISHED connection over any sequence of incoming segments and `recvfrom`
calls: which bytes reach the reader, and which bytes are acknowledged. The receive
path looks at neither the sequence number nor the next one expected, so both
properties hold exactly as far as the arriving segments supply them. -/
namespace Sirius.Net
open Support List Ring

inductive NetEvent
  | segment (seg : TcpSegment) (srcIp : BitVec 32) (alloc : Nat → Bool)
  | recvfrom (len : Nat)

/-- A connection with its history: `stored` counts the payload bytes put into the
ring so far, `delivered` is what `recvfrom` returned, and `acks` pairs each ACK
number sent with the value of `stored` at that moment. -/
structure Conn where
  sock : Socket
  stored : Nat
  delivered : List UInt8
  acks : List (BitVec 32 × Nat)

namespace Conn

def step (conn : Conn) : NetEvent → Conn
  | .segment seg srcIp alloc =>
    let result := tcpInput conn.sock seg srcIp alloc
    let stored := conn.stored + (result.sock.rx.used - conn.sock.rx.used)
    { conn with
      sock := result.sock
      stored := stored
      acks := conn.acks ++ result.sent.map (fun reply => (reply.ackNum, stored)) }
  | .recvfrom len =>
    match afInetRecvfrom conn.sock len with
    | none => conn
    | some result => { conn with sock := result.sock, delivered := conn.delivered ++ result.bytes }

def run (conn : Conn) (events : List NetEvent) : Conn := events.foldl step conn

@[simp] theorem run_nil (conn : Conn) : conn.run [] = conn := rfl

@[simp] theorem run_cons (conn : Conn) (event : NetEvent) (rest : List NetEvent) :
    conn.run (event :: rest) = (conn.step event).run rest := rfl

end Conn

/-- The segment is stored: it carries data and all of it fits into the ring. -/
def Stores (sock : Socket) (seg : TcpSegment) : Prop :=
  seg.carriesData = true ∧ seg.payload.length ≤ sock.rx.free
deriving Decidable

/-- Everything an ESTABLISHED socket can do with a segment. -/
theorem tcpInput_cases (open_ : sock.state = .established) (seg : TcpSegment)
    (srcIp : BitVec 32) (alloc : Nat → Bool) :
    let result := tcpInput sock seg srcIp alloc
    let ending := seg.header.seqNum + BitVec.ofNat 32 seg.payload.length
    (seg.carriesData = false ∧ result.sock = sock ∧ result.sent = []) ∨
    (seg.carriesData = true ∧ sock.rx.free < seg.payload.length ∧ result.sock = sock ∧
      result.sent.map TcpHeader.ackNum = if alloc 0 then [ending] else []) ∨
    (Stores sock seg ∧ result.sock = { sock with
        rx := sock.rx.putAll seg.payload, remoteAck := ending, localSeq := seg.header.ackNum } ∧
      result.sent.map TcpHeader.ackNum = if alloc 0 then [ending] else []) := by
  have entered : tcpInput sock seg srcIp alloc = tcpInputEstablished sock seg alloc := by
    simp only [tcpInput, open_]
  rw [entered]
  unfold tcpInputEstablished
  by_cases malformed : seg.hLen < sizeofTcpHeader ∨ seg.len < seg.hLen
  · left
    rw [if_pos malformed]
    refine ⟨?_, rfl, rfl⟩
    simp only [TcpSegment.carriesData, Bool.and_eq_false_iff, decide_eq_false_iff_not]
    omega
  rw [if_neg malformed]
  by_cases data : 0 < seg.payload.length ∧ seg.has tcpFlagAck = true
  · have carries : seg.carriesData = true := by
      simp only [TcpSegment.carriesData, Bool.and_eq_true, decide_eq_true_eq]
      exact ⟨⟨⟨by omega, by omega⟩, data.1⟩, data.2⟩
    right
    rw [if_pos data]
    by_cases full : sock.rx.free < seg.payload.length
    · left
      rw [if_pos full]
      refine ⟨carries, full, ?_⟩
      cases alloc 0 <;> simp [tcpReply]
    · right
      rw [if_neg full]
      refine ⟨⟨carries, by omega⟩, rfl, ?_⟩
      cases alloc 0 <;> simp [tcpReply]
  · left
    rw [if_neg data]
    refine ⟨?_, rfl, rfl⟩
    simp only [TcpSegment.carriesData, Bool.and_eq_false_iff, decide_eq_false_iff_not]
    by_contra all
    apply data
    simp only [not_or, not_not, Bool.not_eq_false] at all
    exact ⟨all.1.2, all.2⟩

theorem stores_room (stores : Stores sock seg) : sock.rx.used + seg.payload.length < socketBufferSize := by
  have fits := stores.2
  have := sock.rx.used_lt
  unfold free at fits
  omega

/-- What a stored segment adds to the history. -/
theorem putAll_used (stores : Stores sock seg) :
    (sock.rx.putAll seg.payload).used - sock.rx.used = seg.payload.length := by
  have grown := congrArg List.length (putAll_contents (stores_room stores))
  rw [length_append, contents_length, contents_length] at grown
  omega

/-- A segment of the peer's stream, from the given offset on and with the sequence
number that belongs there; `base` is the number of the stream's first byte. -/
def FromStream (stream : List UInt8) (base : BitVec 32) (offset : Nat) (seg : TcpSegment) : Prop :=
  seg.header.seqNum = base + BitVec.ofNat 32 offset ∧ seg.payload = (stream.drop offset).take seg.payload.length
deriving Decidable

structure Conn.Opened (conn : Conn) (base : BitVec 32) : Prop where
  state : conn.sock.state = .established
  expected : conn.sock.remoteAck = base
  drained : conn.sock.rx.contents = []
  stored : conn.stored = 0
  delivered : conn.delivered = []
  acks : conn.acks = []

/-- Every segment of the run comes from the stream, in whatever order. -/
def AllFromStream (stream : List UInt8) (base : BitVec 32) (events : List NetEvent) : Prop :=
  ∀ seg srcIp alloc, .segment seg srcIp alloc ∈ events → ∃ offset, FromStream stream base offset seg

/-- Each segment that gets stored begins with the first byte not stored before. -/
def InOrder (stream : List UInt8) (base : BitVec 32) : Conn → List NetEvent → Prop
  | _, [] => True
  | conn, event :: rest =>
    (match event with
      | .segment seg _ _ => Stores conn.sock seg → FromStream stream base conn.stored seg
      | .recvfrom _ => True) ∧ InOrder stream base (conn.step event) rest

/-- The reader's bytes followed by the ring's are what has been stored of the stream. -/
structure Conn.Follows (conn : Conn) (stream : List UInt8) : Prop where
  state : conn.sock.state = .established
  bytes : conn.delivered ++ conn.sock.rx.contents = stream.take conn.stored

theorem Conn.Follows.segment {conn : Conn} (follows : conn.Follows stream) (seg : TcpSegment)
    (srcIp : BitVec 32) (alloc : Nat → Bool)
    (inOrder : Stores conn.sock seg → FromStream stream base conn.stored seg) :
    (conn.step (.segment seg srcIp alloc)).Follows stream := by
  rcases tcpInput_cases follows.state seg srcIp alloc with
    ⟨-, same, -⟩ | ⟨-, -, same, -⟩ | ⟨stores, next, -⟩
  · refine ⟨?_, ?_⟩ <;> simp only [step, same, Nat.sub_self, Nat.add_zero]
    · exact follows.state
    · exact follows.bytes
  · refine ⟨?_, ?_⟩ <;> simp only [step, same, Nat.sub_self, Nat.add_zero]
    · exact follows.state
    · exact follows.bytes
  refine ⟨?_, ?_⟩ <;> simp only [step, next]
  · exact follows.state
  · have payload := (inOrder stores).2
    rw [putAll_contents (stores_room stores), ← append_assoc, follows.bytes,
      putAll_used stores, take_add, ← payload]

theorem Conn.Follows.recvfrom {conn : Conn} (follows : conn.Follows stream) (len : Nat) :
    (conn.step (.recvfrom len)).Follows stream := by
  simp only [step, afInetRecvfrom]
  split
  · exact follows
  rename_i result returned
  split at returned
  · cases returned
    exact ⟨follows.state, by simpa only [append_nil] using follows.bytes⟩
  split at returned
  · rw [if_pos follows.state] at returned
    cases returned
  cases returned
  obtain ⟨front, back⟩ := drain_spec len conn.sock.rx
  refine ⟨follows.state, ?_⟩
  simp only [front, back]
  rw [append_assoc, take_append_drop]
  exact follows.bytes

theorem Conn.Follows.run {conn : Conn} (follows : conn.Follows stream)
    (inOrder : InOrder stream base conn events) : (conn.run events).Follows stream := by
  induction events generalizing conn with
  | nil => exact follows
  | cons event rest ih =>
    cases event with
    | segment seg srcIp alloc => exact ih (follows.segment seg srcIp alloc inOrder.1) inOrder.2
    | recvfrom len => exact ih (follows.recvfrom len) inOrder.2

/-- The reader sees a prefix of the peer's stream in every state of a run in which
each stored segment continues the stream where the previous one stopped. -/
theorem recvfrom_delivers_prefix (stream : List UInt8) (base : BitVec 32) (conn : Conn)
    (events : List NetEvent) (opened : conn.Opened base)
    (inOrder : InOrder stream base conn events) : (conn.run events).delivered <+: stream := by
  have start : conn.Follows stream := ⟨opened.state, by
    rw [opened.delivered, opened.drained, opened.stored]
    rfl⟩
  have follows := start.run inOrder
  exact (prefix_append _ _).trans (follows.bytes ▸ take_prefix _ _)

def freshConn (base : BitVec 32) : Conn where
  sock := {
    state := .established
    remoteIp := 0
    remotePort := 0
    localSeq := 0
    remoteAck := base
    rx := emptyRing
    listenQueue := [] }
  stored := 0
  delivered := []
  acks := []

theorem freshConn_opened (base : BitVec 32) : (freshConn base).Opened base :=
  ⟨rfl, rfl, rfl, rfl, rfl, rfl⟩

def dataSegment (seq : BitVec 32) (bytes : List UInt8) : TcpSegment where
  header := {
    srcPort := 0
    destPort := 0
    seqNum := seq
    ackNum := 0
    dataOffset := 5
    flags := tcpFlagAck
    windowSize := 0 }
  rest := bytes

theorem recvfrom_delivers_prefix_two_segments :
    ((freshConn 7).run [.segment (dataSegment 7 [1, 2]) 0 fun _ => true, .recvfrom 1,
      .segment (dataSegment 9 [3]) 0 fun _ => true, .recvfrom 5]).delivered <+: [1, 2, 3, 4] :=
  recvfrom_delivers_prefix [1, 2, 3, 4] 7 (freshConn 7) _ (freshConn_opened 7)
    ⟨fun _ => by decide, trivial, fun _ => by decide, trivial, trivial⟩

/-- The second byte of the stream alone is handed to the reader as if it were the first. -/
theorem reordered_segment_reaches_reader :
    ¬ ∀ (stream : List UInt8) (base : BitVec 32) (conn : Conn) (events : List NetEvent),
      conn.Opened base → AllFromStream stream base events →
      (conn.run events).delivered <+: stream := by
  intro delivery
  have wrong := delivery [1, 2] 7 (freshConn 7)
    [.segment (dataSegment 8 [2]) 0 fun _ => true, .recvfrom 1] (freshConn_opened 7) (by
      intro seg srcIp alloc member
      simp only [mem_cons, not_mem_nil, or_false, reduceCtorEq, NetEvent.segment.injEq] at member
      obtain ⟨rfl, -, -⟩ := member
      exact ⟨1, by decide⟩)
  revert wrong
  decide

/-- Sequence-number order: `a` is at most half the number space behind `b`. -/
def seqLe (a b : BitVec 32) : Prop := (b - a).toNat < 2 ^ 31
deriving Decidable

theorem seqLe_add_right (a b n : BitVec 32) : seqLe (a + n) (b + n) ↔ seqLe a b := by
  have shift : b + n - (a + n) = b - a := by bv_omega
  simp only [seqLe, shift]

/-- The number after the last of `stored` bytes from a peer whose SYN had number `irs`. -/
def nextNum (irs : BitVec 32) (stored : Nat) : BitVec 32 := irs + 1 + BitVec.ofNat 32 stored

theorem nextNum_add (irs : BitVec 32) (stored len : Nat) :
    nextNum irs (stored + len) = nextNum irs stored + BitVec.ofNat 32 len := by
  simp only [nextNum, BitVec.ofNat_add, BitVec.add_assoc]

/-- No ACK number goes beyond the bytes stored by the time it was sent. -/
def Conn.AcksStored (conn : Conn) (irs : BitVec 32) : Prop :=
  ∀ ack ∈ conn.acks, seqLe ack.1 (nextNum irs ack.2)

/-- The peer's part: what fits starts no later than the next byte, and what does not
fit holds nothing that is not stored already. -/
def Overlaps (irs : BitVec 32) (conn : Conn) (seg : TcpSegment) : Prop :=
  if seg.payload.length ≤ conn.sock.rx.free then seqLe seg.header.seqNum (nextNum irs conn.stored)
  else seqLe (seg.header.seqNum + BitVec.ofNat 32 seg.payload.length) (nextNum irs conn.stored)
deriving Decidable

/-- `Overlaps` for every data segment of the run that finds a buffer for its answer. -/
def AllOverlap (irs : BitVec 32) : Conn → List NetEvent → Prop
  | _, [] => True
  | conn, event :: rest =>
    (match event with
      | .segment seg _ alloc => seg.carriesData = true → alloc 0 = true → Overlaps irs conn seg
      | .recvfrom _ => True) ∧ AllOverlap irs (conn.step event) rest

theorem Conn.step_recvfrom (conn : Conn) (len : Nat) : (conn.step (.recvfrom len)).acks = conn.acks ∧
      (conn.step (.recvfrom len)).sock.state = conn.sock.state := by
  simp only [step, afInetRecvfrom]
  split
  · exact ⟨rfl, rfl⟩
  rename_i result returned
  split at returned
  · cases returned
    exact ⟨rfl, rfl⟩
  split at returned
  · split at returned
    · cases returned
    · cases returned
      exact ⟨rfl, rfl⟩
  · cases returned
    exact ⟨rfl, rfl⟩

/-- One segment answers within bounds exactly when it overlaps what is stored. -/
theorem Conn.step_segment (open_ : conn.sock.state = .established)
    (seg : TcpSegment) (srcIp : BitVec 32) (alloc : Nat → Bool) (irs : BitVec 32) :
    let next := conn.step (.segment seg srcIp alloc)
    next.sock.state = .established ∧ ∃ added, next.acks = conn.acks ++ added ∧
      ((∀ ack ∈ added, seqLe ack.1 (nextNum irs ack.2)) ↔
        (seg.carriesData = true → alloc 0 = true → Overlaps irs conn seg)) := by
  have sent_map : ∀ (headers : List TcpHeader) (stored : Nat),
      headers.map (fun reply => (reply.ackNum, stored)) =
        (headers.map TcpHeader.ackNum).map (fun number => (number, stored)) := by
    intro headers stored
    rw [map_map]
    rfl
  rcases tcpInput_cases open_ seg srcIp alloc with
    ⟨empty, same, silent⟩ | ⟨carries, full, same, sent⟩ | ⟨stores, next, sent⟩
  · refine ⟨by simpa only [step, same] using open_, [], ?_, ?_⟩
    · simp [step, silent]
    · simp [empty]
  · refine ⟨by simpa only [step, same] using open_, _, rfl, ?_⟩
    rw [sent_map, sent]
    have kept : ¬ seg.payload.length ≤ conn.sock.rx.free := by omega
    cases answered : alloc 0 <;> simp [carries, Overlaps, kept, same]
  · refine ⟨by simpa only [step, next] using open_, _, rfl, ?_⟩
    rw [sent_map, sent]
    cases answered : alloc 0
    · simp
    · simp [next, putAll_used stores, nextNum_add, seqLe_add_right, stores.1, Overlaps, if_pos stores.2]

theorem Conn.acksStored_run (open_ : conn.sock.state = .established) (events : List NetEvent) :
    (conn.run events).AcksStored irs ↔ conn.AcksStored irs ∧ AllOverlap irs conn events := by
  induction events generalizing conn with
  | nil => simp only [run_nil, AllOverlap, and_true]
  | cons event rest ih =>
    rw [run_cons]
    cases event with
    | segment seg srcIp alloc =>
      obtain ⟨still, added, grown, bounded⟩ := step_segment open_ seg srcIp alloc irs
      rw [ih still]
      simp only [AcksStored, grown, forall_mem_append, AllOverlap, bounded, and_assoc]
    | recvfrom len =>
      obtain ⟨same, still⟩ := step_recvfrom conn len
      rw [ih (still.trans open_)]
      simp [AcksStored, same, AllOverlap]

/-- Acknowledgements stay within what was stored exactly in the runs whose data
segments all overlap the stored part of the stream. -/
theorem tcpInput_acks_stored (irs : BitVec 32) (conn : Conn) (events : List NetEvent)
    (opened : conn.Opened (irs + 1)) :
    (conn.run events).AcksStored irs ↔ AllOverlap irs conn events := by
  rw [Conn.acksStored_run opened.state]
  constructor
  · exact fun both => both.2
  intro overlap
  refine ⟨?_, overlap⟩
  intro ack member
  rw [opened.acks] at member
  cases member

theorem tcpInput_acks_stored_retransmission :
    ((freshConn 7).run [.segment (dataSegment 7 [1, 2]) 0 fun _ => true,
      .segment (dataSegment 8 [2, 3]) 0 fun _ => true]).AcksStored 6 :=
  (tcpInput_acks_stored 6 (freshConn 7) _ (freshConn_opened 7)).mpr
    ⟨fun _ _ => by decide, fun _ _ => by decide, trivial⟩

theorem dataSegment_carriesData (seq : BitVec 32) (nonempty : 0 < bytes.length) :
    (dataSegment seq bytes).carriesData = true := by
  have flag : (dataSegment seq bytes).has tcpFlagAck = true := by
    simp only [TcpSegment.has, dataSegment]
    decide
  have header : (dataSegment seq bytes).hLen = sizeofTcpHeader := by
    simp only [TcpSegment.hLen, dataSegment]
    decide
  simp only [TcpSegment.carriesData, header, flag, Bool.and_eq_true, decide_eq_true_eq]
  exact ⟨⟨⟨Nat.le_refl _, Nat.le_add_right _ _⟩, nonempty⟩, trivial⟩

/-- A segment that fills the empty ring to its last byte is stored. -/
theorem freshConn_fill (base : BitVec 32) (length : bytes.length = 16383) :
    let conn := (freshConn base).step (.segment (dataSegment base bytes) 0 fun _ => true)
    conn.sock.rx.free = 0 ∧ conn.stored = 16383 := by
  have empty : (freshConn base).sock.rx.used = 0 := rfl
  have payload : (dataSegment base bytes).payload = bytes := rfl
  have stores : Stores (freshConn base).sock (dataSegment base bytes) := by
    refine ⟨dataSegment_carriesData base (by omega), ?_⟩
    have room : (freshConn base).sock.rx.free = 16383 := rfl
    rw [payload]
    omega
  rcases tcpInput_cases (freshConn_opened base).state (dataSegment base bytes) 0 (fun _ => true) with
    ⟨silent, -⟩ | ⟨-, full, -⟩ | ⟨-, next, -⟩
  · rw [stores.1] at silent
    cases silent
  · exact absurd stores.2 (by omega)
  have grown := putAll_used stores
  rw [empty, Nat.sub_zero, payload, length] at grown
  have start : (freshConn base).stored = 0 := rfl
  have size : socketBufferSize = 16384 := rfl
  simp only [Conn.step, next, payload, free, grown, empty, start, size, and_self]

/-- Once the ring is full, the next byte in order is dropped, yet acknowledged. -/
theorem dropped_segment_is_acknowledged : ¬ ∀ (irs : BitVec 32) (conn : Conn) (events : List NetEvent),
      conn.Opened (irs + 1) → (conn.run events).AcksStored irs := by
  intro bounded
  obtain ⟨bytes, length⟩ : ∃ bytes : List UInt8, bytes.length = 16383 :=
    ⟨List.replicate 16383 0, length_replicate⟩
  have acks := bounded 6 (freshConn 7) [.segment (dataSegment 7 bytes) 0 fun _ => true,
    .segment (dataSegment (7 + 16383) [1]) 0 fun _ => true] (freshConn_opened 7)
  rw [Conn.acksStored_run (freshConn_opened 7).state] at acks
  obtain ⟨-, -, excess, -⟩ := acks
  obtain ⟨full, stored⟩ := freshConn_fill 7 length
  have overlap := excess (dataSegment_carriesData _ (by decide)) rfl
  have one : (dataSegment (7 + 16383) [1]).payload.length = 1 := rfl
  simp only [Overlaps, full, stored, one] at overlap
  revert overlap
  decide

end Sirius.Net
