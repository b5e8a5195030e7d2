import Sirius.Net.Ip

/-! The checksum of a TCP segment, which also covers a pseudo header with the addresses. -/
namespace Sirius.Net
open Support
open List hiding sum

structure TcpPseudoHeader where
  srcIp : BitVec 32
  destIp : BitVec 32
  reserved : BitVec 8
  protocol : BitVec 8
  tcpLen : BitVec 16

def TcpPseudoHeader.bytes (pseudo : TcpPseudoHeader) : List UInt8 :=
  leBytes 4 pseudo.srcIp.toNat ++ leBytes 4 pseudo.destIp.toNat ++ leBytes 1 pseudo.reserved.toNat ++
    leBytes 1 pseudo.protocol.toNat ++ leBytes 2 pseudo.tcpLen.toNat

/-- The header as it lies in memory, its fields in the order of the network. -/
structure TcpWire where
  srcPort : BitVec 16
  destPort : BitVec 16
  seqNum : BitVec 32
  ackNum : BitVec 32
  dataOffsetFlags : BitVec 16
  windowSize : BitVec 16
  checksum : BitVec 16
  urgentPtr : BitVec 16

namespace TcpWire

/-- What lies before the checksum. -/
def front (tcp : TcpWire) : List UInt8 :=
  leBytes 2 tcp.srcPort.toNat ++ leBytes 2 tcp.destPort.toNat ++ leBytes 4 tcp.seqNum.toNat ++
    leBytes 4 tcp.ackNum.toNat ++ leBytes 2 tcp.dataOffsetFlags.toNat ++ leBytes 2 tcp.windowSize.toNat

def bytes (tcp : TcpWire) : List UInt8 := tcp.front ++ (leBytes 2 tcp.checksum.toNat ++ leBytes 2 tcp.urgentPtr.toNat)

end TcpWire

variable (pseudo : TcpPseudoHeader) (tcp : TcpWire) (data : List UInt8)

def tcpCalculateChecksum : BitVec 16 :=
  ~~~ BitVec.ofNat 16 (foldCarry (addWords (addWords (addWords 0 pseudo.bytes) tcp.bytes) data))

/-- Pseudo header, header and payload, with a zero behind an odd last byte. -/
def checksummed : List UInt8 :=
  let bytes := pseudo.bytes ++ tcp.bytes ++ data
  bytes ++ replicate (bytes.length % 2) 0

theorem TcpPseudoHeader.bytes_length : pseudo.bytes.length = 12 := by
  simp [bytes, leBytes_length]

theorem TcpWire.bytes_length : tcp.bytes.length = 20 := by
  simp [bytes, front, leBytes_length]

theorem wordSum_checksummed :
    wordSum (checksummed pseudo tcp data) = wordSum pseudo.bytes + wordSum tcp.bytes + wordSum data := by
  have even : (pseudo.bytes ++ tcp.bytes).length % 2 = 0 := by
    rw [length_append, pseudo.bytes_length, tcp.bytes_length]
  rw [checksummed, wordSum_padded, wordSum_append even, wordSum_append (by rw [pseudo.bytes_length])]

/-- The three loops add the words of the whole. -/
theorem tcpCalculateChecksum_eq (small : data.length ≤ 1460) :
    tcpCalculateChecksum pseudo tcp data = ipCalculateChecksum (checksummed pseudo tcp data) := by
  have first := wordSum_le pseudo.bytes
  have second := wordSum_le tcp.bytes
  have third := wordSum_le data
  rw [pseudo.bytes_length] at first
  rw [tcp.bytes_length] at second
  have sum := wordSum_checksummed pseudo tcp data
  rw [tcpCalculateChecksum, ipCalculateChecksum, addWords_eq (by omega : 0 + wordSum pseudo.bytes < _),
    addWords_eq (by omega : _ + wordSum tcp.bytes < _), addWords_eq (by omega), addWords_eq (by omega), sum,
      Nat.zero_add, Nat.zero_add]

/-- The checksum is one of the words. -/
theorem TcpWire.wordSum_bytes : wordSum tcp.bytes = wordSum { tcp with checksum := 0 }.bytes + tcp.checksum.toNat := by
  have even : tcp.front.length % 2 = 0 := by simp [front, leBytes_length]
  rw [bytes, bytes, wordSum_field even]
  rfl

/-- A segment whose checksum was computed over a zero field sums up to all ones. -/
theorem tcp_checksum_verifies (pseudo : TcpPseudoHeader) (tcp : TcpWire) (data : List UInt8) (small : data.length ≤ 1460) :
    let blank := { tcp with checksum := 0 }
    let checksum := tcpCalculateChecksum pseudo blank data
    foldCarry (wordSum (checksummed pseudo { tcp with checksum := checksum } data)) = 0xFFFF ∧
      checksum = ipCalculateChecksum (checksummed pseudo blank data) := by
  intro blank checksum
  have equal := tcpCalculateChecksum_eq pseudo blank data small
  refine ⟨?_, equal⟩
  have length : (checksummed pseudo blank data).length ≤ 1493 := by
    simp only [checksummed, length_append, length_replicate, pseudo.bytes_length, TcpWire.bytes_length]
    omega
  have value := ipCalculateChecksum_eq (length.trans (by decide))
  rw [← equal, wordSum_checksummed] at value
  have filled := foldCarry_complement (wordSum pseudo.bytes + wordSum blank.bytes + wordSum data)
  rw [wordSum_checksummed, TcpWire.wordSum_bytes]
  show foldCarry (_ + (wordSum blank.bytes + checksum.toNat) + _) = _
  rw [value]
  refine Eq.trans (congrArg foldCarry ?_) filled
  omega

/-- A segment of three bytes whose words add up to more than 16 bits. -/
theorem tcp_checksum_verifies_carries :
    let pseudo : TcpPseudoHeader := ⟨0xFE00A8C0, 0x0100A8C0, 0, 6, 0x1700⟩
    let blank : TcpWire := ⟨0xFFFF, 0x5000, 0xFFFFFFFF, 0xDEADBEEF, 0x1850, 0xFFFF, 0, 0⟩
    let data : List UInt8 := [0xFF, 0xFF, 0x61]
    let checksum := tcpCalculateChecksum pseudo blank data
    0x40000 ≤ wordSum (checksummed pseudo blank data) ∧
      foldCarry (wordSum (checksummed pseudo { blank with checksum := checksum } data)) = 0xFFFF ∧
      checksum = ipCalculateChecksum (checksummed pseudo blank data) := by
  intro pseudo blank data checksum
  exact ⟨by decide, tcp_checksum_verifies pseudo blank data (by decide)⟩

end Sirius.Net
