import Sirius.Net.Tcp
import Sirius.Support.LittleEndian

/-! `udp_input` and the datagram half of `af_inet_recvfrom`. A datagram lies in the ring
behind its length and the address of its sender. Numbers are in memory as the machine has
them, lowest byte first; ports and addresses come from the net and are not turned round. -/
namespace Sirius.Net
open Support

def sizeofUdpHeader : Nat := 8

/-- Turn the two bytes of a number round. -/
def htons (n : BitVec 16) : BitVec 16 := n <<< 8 ||| n >>> 8

structure UdpHeader where
  srcPort : BitVec 16
  destPort : BitVec 16
  length : BitVec 16
  checksum : BitVec 16
deriving DecidableEq, Repr

structure UdpPacket where
  header : UdpHeader
  rest : List UInt8
deriving DecidableEq, Repr

namespace UdpPacket

variable (packet : UdpPacket)

def len : Nat := sizeofUdpHeader + packet.rest.length

def lengthField : Nat := (htons packet.header.length).toNat

def userDataLen : Nat := packet.lengthField - sizeofUdpHeader

def payload : List UInt8 := packet.rest.take packet.userDataLen

end UdpPacket

structure SockaddrIn where
  family : BitVec 16
  port : BitVec 16
  addr : BitVec 32
deriving DecidableEq, Repr

namespace SockaddrIn

def bytes (source : SockaddrIn) : List UInt8 :=
  leBytes 2 source.family.toNat ++ leBytes 2 source.port.toNat ++ leBytes 4 source.addr.toNat ++ leBytes 8 0

def ofBytes (bytes : List UInt8) : SockaddrIn where
  family := BitVec.ofNat 16 (leNat (bytes.take 2))
  port := BitVec.ofNat 16 (leNat ((bytes.drop 2).take 2))
  addr := BitVec.ofNat 32 (leNat ((bytes.drop 4).take 4))

end SockaddrIn

structure UdpSocket where
  port : BitVec 16
  rx : Ring UInt8 socketBufferSize

/-- Datagrams for the DHCP client go to `dhcp_input`. -/
inductive UdpAnswer
  | code (n : Int)
  | dhcp (payload : List UInt8)
deriving DecidableEq, Repr

def rxFree (rx : Ring UInt8 socketBufferSize) : Nat :=
  (BitVec.ofNat 32 rx.tail - BitVec.ofNat 32 rx.head - 1 + BitVec.ofNat 32 socketBufferSize).toNat % socketBufferSize

def udpInput (sock : UdpSocket) (packet : UdpPacket) (srcIp : BitVec 32) : UdpAnswer × UdpSocket :=
  if packet.lengthField > packet.len ∨ packet.lengthField < sizeofUdpHeader then (.code (-2), sock)
  else if packet.header.destPort ≠ sock.port then (.code 0, sock)
  else if packet.header.destPort = htons 68 then (.dhcp packet.payload, sock)
  else
    let totalRequired := 4 + sizeofSockaddrIn + packet.userDataLen
    if rxFree sock.rx < totalRequired then (.code (-3), sock)
    else
      let sourceAddr : SockaddrIn := { family := afInet, port := packet.header.srcPort, addr := srcIp }
      let rx := sock.rx.putAll (leBytes 4 packet.userDataLen)
      let rx := rx.putAll sourceAddr.bytes
      (.code 0, { sock with rx := rx.putAll packet.payload })

/-- What a call of `recvfrom` gives back: its result, what it wrote to the buffer and, if
there was room for one, the address. -/
structure Received where
  ret : Int
  bytes : List UInt8
  source : Option SockaddrIn
deriving DecidableEq, Repr

/-- `addrlen` is the room for an address, if one is asked for. Without a datagram the call
sleeps, and there is no result. -/
def udpRecvfrom (sock : UdpSocket) (len : Nat) (addrlen : Option Nat) : Option Received × UdpSocket :=
  if len = 0 then (some { ret := -1, bytes := [], source := none }, sock)
  else if sock.rx.head = sock.rx.tail then (none, sock)
  else
    let (sizeBytes, rx) := sock.rx.read 4
    let userDataLen := leNat sizeBytes
    let (addrBytes, rx) := rx.read sizeofSockaddrIn
    let source := if addrlen.any (sizeofSockaddrIn ≤ ·) then some (SockaddrIn.ofBytes addrBytes) else none
    let limit := if userDataLen < len then userDataLen else len
    let (bytes, rx) := rx.read limit
    let rx := if limit < userDataLen then rx.skip (userDataLen - limit) else rx
    (some { ret := limit, bytes := bytes, source := source }, { sock with rx := rx })

end Sirius.Net
