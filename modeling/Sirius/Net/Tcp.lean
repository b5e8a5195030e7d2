import Sirius.Support.Ring

/-! Segment processing of `tcp.c` and the stream half of `af_inet_recvfrom`. Header
fields are kept in host order, sequence numbers are 32-bit words. A segment is its
20-byte header and the bytes behind it, options included. Locks, wake-ups and the
checksum of the replies are left out; `alloc i` is the outcome of the `i`-th
allocation a call makes. -/
namespace Sirius.Net
open Support

inductive TcpState
  | closed | synSent | listen | synRecv | established | finWait1 | finWait2 | closeWait | closing
  | lastAck | timeWait
deriving DecidableEq, Repr

def socketBufferSize : Nat := 16384
def sizeofIpHeader : Nat := 20
def sizeofTcpHeader : Nat := 20
def sizeofSockaddrIn : Nat := 16
def afInet : BitVec 16 := 2

def tcpFlagFin : BitVec 12 := 0x001
def tcpFlagSyn : BitVec 12 := 0x002
def tcpFlagAck : BitVec 12 := 0x010

/-- `dataOffset` and `flags` are the high and the low bits of `data_offset_flags`. -/
structure TcpHeader where
  srcPort : BitVec 16
  destPort : BitVec 16
  seqNum : BitVec 32
  ackNum : BitVec 32
  dataOffset : BitVec 4
  flags : BitVec 12
  windowSize : BitVec 16
deriving DecidableEq, Repr

structure TcpSegment where
  header : TcpHeader
  rest : List UInt8
deriving DecidableEq, Repr

namespace TcpSegment

variable (seg : TcpSegment) (flag : BitVec 12)

def len : Nat := sizeofTcpHeader + seg.rest.length

def hLen : Nat := seg.header.dataOffset.toNat * 4

def payload : List UInt8 := seg.rest.drop (seg.hLen - sizeofTcpHeader)

def has : Bool := seg.header.flags &&& flag != 0

end TcpSegment

/-- The part of a socket that belongs to one connection. -/
structure Connection where
  state : TcpState
  remoteIp : BitVec 32
  remotePort : BitVec 16
  localSeq : BitVec 32
  remoteAck : BitVec 32
  rx : Ring UInt8 socketBufferSize

structure Socket extends Connection where
  listenQueue : List Connection

/-- `session` is a socket put on the global list, `freed` says that this one was
taken off it and destroyed. -/
structure TcpInput where
  sock : Socket
  sent : List TcpHeader := []
  session : Option Connection := none
  freed : Bool := false
  ret : Int

section
variable (sock : Socket) (seg : TcpSegment)

def tcpReply (seq ack : BitVec 32) (flags : BitVec 12) (window : Nat) : TcpHeader where
  srcPort := seg.header.destPort
  destPort := seg.header.srcPort
  seqNum := seq
  ackNum := ack
  dataOffset := 5
  flags := flags
  windowSize := BitVec.ofNat 16 window

def emptyRing : Ring UInt8 socketBufferSize := Ring.empty (fun _ => 0) (by decide)

variable (srcIp : BitVec 32) (alloc : Nat → Bool)

def tcpInputSynSent : TcpInput :=
  if seg.has tcpFlagSyn && seg.has tcpFlagAck then
    let next := { sock with
      remoteAck := seg.header.seqNum + 1
      localSeq := seg.header.ackNum
      state := .established }
    { sock := next
      sent := if alloc 0 then [tcpReply seg next.localSeq next.remoteAck tcpFlagAck 2048] else []
      ret := 0 }
  else { sock := sock, ret := 0 }

/-- The pending connection that the handshake's last ACK completes becomes a session
socket in the same place of the queue. -/
def completeHandshake (seg : TcpSegment) (srcIp : BitVec 32) :
    List Connection → Option (Connection × List Connection)
  | [] => none
  | curr :: rest =>
    if curr.remoteIp = srcIp ∧ curr.remotePort = seg.header.srcPort ∧ curr.state = .synRecv then
      let session : Connection := {
        state := .established
        remoteIp := curr.remoteIp
        remotePort := curr.remotePort
        localSeq := curr.localSeq + 1
        remoteAck := seg.header.seqNum
        rx := emptyRing }
      some (session, session :: rest)
    else (completeHandshake seg srcIp rest).map fun (session, queue) => (session, curr :: queue)

def tcpInputListen : TcpInput :=
  if seg.has tcpFlagSyn then
    if alloc 0 then
      if alloc 1 then
        let pending : Connection := {
          state := .synRecv
          remoteIp := srcIp
          remotePort := seg.header.srcPort
          localSeq := sock.localSeq
          remoteAck := 0
          rx := emptyRing }
        { sock := { sock with listenQueue := pending :: sock.listenQueue }
          sent := [tcpReply seg sock.localSeq (seg.header.seqNum + 1) (tcpFlagSyn ||| tcpFlagAck) 2048]
          ret := 0 }
      else { sock := sock, ret := 0 }
    else { sock := sock, ret := -1 }
  else if seg.has tcpFlagAck then
    match completeHandshake seg srcIp sock.listenQueue with
    | none => { sock := sock, ret := 0 }
    | some (session, queue) =>
      -- `socket_create` takes the socket and its receive buffer from the heap
      if alloc 0 && alloc 1 then
        { sock := { sock with listenQueue := queue }, session := some session, ret := 0 }
      else { sock := sock, ret := -1 }
  else { sock := sock, ret := 0 }

def tcpInputFinWait1 : TcpInput :=
  if seg.has tcpFlagFin && seg.has tcpFlagAck then
    let next := { sock with
      remoteAck := seg.header.seqNum + 1
      localSeq := seg.header.ackNum
      state := .closed }
    if alloc 0 then
      { sock := next
        sent := [tcpReply seg next.localSeq next.remoteAck tcpFlagAck 2048]
        freed := true
        ret := 0 }
    else { sock := next, ret := -1 }
  else { sock := sock, ret := -1 }

/-- A segment whose header length is sane and that carries payload and an ACK. -/
def TcpSegment.carriesData : Bool :=
  decide (sizeofTcpHeader ≤ seg.hLen) && decide (seg.hLen ≤ seg.len) &&
    decide (0 < seg.payload.length) && seg.has tcpFlagAck

def tcpInputEstablished : TcpInput :=
  if seg.hLen < sizeofTcpHeader ∨ seg.len < seg.hLen then { sock := sock, ret := -2 }
  else if 0 < seg.payload.length ∧ seg.has tcpFlagAck = true then
    let payloadLen := BitVec.ofNat 32 seg.payload.length
    if sock.rx.free < seg.payload.length then
      -- the payload is dropped and a zero window announced
      if alloc 0 then
        { sock := sock
          sent := [tcpReply seg sock.localSeq (seg.header.seqNum + payloadLen) tcpFlagAck 0]
          ret := 0 }
      else { sock := sock, ret := -3 }
    else
      let next := { sock with
        rx := sock.rx.putAll seg.payload
        remoteAck := seg.header.seqNum + payloadLen
        localSeq := seg.header.ackNum }
      { sock := next
        sent := if alloc 0 then
            [tcpReply seg next.localSeq next.remoteAck tcpFlagAck (min next.rx.free 0xFFFF)]
          else []
        ret := 0 }
  else { sock := sock, ret := 0 }

/-- `tcp_input` once `tcp_input_lookup` has found the socket. -/
def tcpInput : TcpInput :=
  match sock.state with
  | .synSent => tcpInputSynSent sock seg alloc
  | .listen => tcpInputListen sock seg srcIp alloc
  | .finWait1 => tcpInputFinWait1 sock seg alloc
  | .established => tcpInputEstablished sock seg alloc
  | _ => { sock := sock, ret := 0 }

end

structure Recvfrom where
  sock : Socket
  bytes : List UInt8
  ret : Int

/-- `af_inet_recvfrom` on a stream socket; `none` is a caller put to sleep. -/
def afInetRecvfrom (sock : Socket) (len : Nat) : Option Recvfrom :=
  if len = 0 then some { sock := sock, bytes := [], ret := -1 }
  else if sock.rx.head = sock.rx.tail then
    if sock.state = .established then none else some { sock := sock, bytes := [], ret := 0 }
  else
    let drained := Ring.drain len sock.rx
    some { sock := { sock with rx := drained.2 }, bytes := drained.1, ret := drained.1.length }

end Sirius.Net
