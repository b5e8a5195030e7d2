import Sirius.Net.ArpLaw
import Sirius.Net.Udp
import Sirius.Support.Checksum

/-! The bytes of an IPv4 packet: the header that `ip_output` puts before the payload, and what
`ip_input` makes of a packet that arrives. -/
namespace Sirius.Net
open Support BitVec Nat
open List hiding sum

def ipprotoIcmp : BitVec 8 := 1
def ipprotoTcp : BitVec 8 := 6
def ipprotoUdp : BitVec 8 := 17

/-- The loop over the words of `ip_calculate_checksum`; the sum has 32 bits. -/
def addWords (sum : Nat) : List UInt8 → Nat
  | [] => sum
  | [byte] => (sum + byte.toNat) % 2 ^ 32
  | low :: high :: rest => addWords ((sum + (low.toNat + 256 * high.toNat)) % 2 ^ 32) rest

def ipCalculateChecksum (data : List UInt8) : BitVec 16 := ~~~ BitVec.ofNat 16 (foldCarry (addWords 0 data))

structure IpHeader where
  versionIhl : BitVec 8
  tos : BitVec 8
  totalLen : BitVec 16
  id : BitVec 16
  flagsFragment : BitVec 16
  ttl : BitVec 8
  protocol : BitVec 8
  checksum : BitVec 16
  srcIp : BitVec 32
  destIp : BitVec 32
deriving DecidableEq, Repr

namespace IpHeader

/-- What lies before the checksum. -/
def front (ip : IpHeader) : List UInt8 :=
  leBytes 1 ip.versionIhl.toNat ++ leBytes 1 ip.tos.toNat ++ leBytes 2 ip.totalLen.toNat ++ leBytes 2 ip.id.toNat ++
    leBytes 2 ip.flagsFragment.toNat ++ leBytes 1 ip.ttl.toNat ++ leBytes 1 ip.protocol.toNat

def bytes (ip : IpHeader) : List UInt8 :=
  ip.front ++ leBytes 2 ip.checksum.toNat ++ (leBytes 4 ip.srcIp.toNat ++ leBytes 4 ip.destIp.toNat)

def ofBytes (bytes : List UInt8) : IpHeader where
  versionIhl := BitVec.ofNat 8 (leNat (bytes.take 1))
  tos := BitVec.ofNat 8 (leNat ((bytes.drop 1).take 1))
  totalLen := BitVec.ofNat 16 (leNat ((bytes.drop 2).take 2))
  id := BitVec.ofNat 16 (leNat ((bytes.drop 4).take 2))
  flagsFragment := BitVec.ofNat 16 (leNat ((bytes.drop 6).take 2))
  ttl := BitVec.ofNat 8 (leNat ((bytes.drop 8).take 1))
  protocol := BitVec.ofNat 8 (leNat ((bytes.drop 9).take 1))
  checksum := BitVec.ofNat 16 (leNat ((bytes.drop 10).take 2))
  srcIp := BitVec.ofNat 32 (leNat ((bytes.drop 12).take 4))
  destIp := BitVec.ofNat 32 (leNat ((bytes.drop 16).take 4))

end IpHeader

def Frame.blankHeader (frame : Frame) : IpHeader where
  versionIhl := 4 <<< 4 ||| 5
  tos := 0
  totalLen := htons (BitVec.ofNat 16 (sizeofIpHeader + frame.payload.length))
  id := htons frame.id
  flagsFragment := htons 0x4000
  ttl := 64
  protocol := frame.protocol
  checksum := 0
  srcIp := frame.srcIp
  destIp := frame.destIp

def Frame.ipHeader (frame : Frame) : IpHeader :=
  { frame.blankHeader with checksum := ipCalculateChecksum frame.blankHeader.bytes }

def Frame.ipPacket (frame : Frame) : List UInt8 := frame.ipHeader.bytes ++ frame.payload

/-- A packet is dropped with a code, or goes to the handler of its protocol with the payload, its
length and the address of the sender. -/
inductive IpAnswer
  | code (n : Int)
  | udpInput (data : List UInt8) (len : Nat) (srcIp : BitVec 32)
  | tcpInput (data : List UInt8) (len : Nat) (srcIp : BitVec 32)
  | icmpInput (data : List UInt8) (len : Nat) (srcIp : BitVec 32) (ip : IpHeader)
deriving DecidableEq, Repr

def ipInput (myIp : BitVec 32) (packet : List UInt8) : IpAnswer :=
  if packet.length < sizeofIpHeader then .code (-1)
  else
    let ip := IpHeader.ofBytes packet
    let version := (ip.versionIhl >>> 4) &&& 0x0F
    if version ≠ 4 then .code (-2)
    else
      let ihl := ((ip.versionIhl &&& 0x0F) * 4).toNat
      if ihl < sizeofIpHeader ∨ packet.length < ihl then .code (-3)
      else if ipCalculateChecksum (packet.take ihl) ≠ 0 then .code (-4)
      else
        let totalLen := (htons ip.totalLen).toNat
        if packet.length < totalLen ∨ totalLen < ihl then .code (-5)
        else
          let ipPayloadLen := totalLen - ihl
          if ip.destIp ≠ myIp ∧ ip.destIp ≠ broadcastIp ∧ myIp ≠ 0 then .code 0
          else
            let ipPayload := (packet.drop ihl).take ipPayloadLen
            if ip.protocol = ipprotoUdp then .udpInput ipPayload ipPayloadLen ip.srcIp
            else if ip.protocol = ipprotoTcp then .tcpInput ipPayload ipPayloadLen ip.srcIp
            else if ip.protocol = ipprotoIcmp then .icmpInput ipPayload ipPayloadLen ip.srcIp ip
            else .code (-6)

/-! ### The checksum -/

theorem addWords_eq (small : sum + wordSum data < 2 ^ 32) : addWords sum data = sum + wordSum data := by
  fun_induction addWords sum data with
  | case1 sum => rfl
  | case2 sum byte => exact mod_eq_of_lt small
  | case3 sum low high rest ih =>
    rw [wordSum] at small
    have this := mod_eq_of_lt (a := sum + (low.toNat + 256 * high.toNat)) (b := 2 ^ 32) (by omega)
    rw [this] at ih
    rw [this, ih (by omega), wordSum]
    omega

theorem ipCalculateChecksum_eq (small : data.length ≤ 65536) :
    (ipCalculateChecksum data).toNat = 65535 - foldCarry (wordSum data) := by
  have sums := wordSum_le data
  have bound := foldCarry_lt (wordSum data)
  rw [ipCalculateChecksum, addWords_eq (by omega), zero_add, toNat_not, toNat_ofNat, mod_eq_of_lt bound]

/-- With the checksum filled in at an even place, the checksum is zero. -/
theorem checksum_filled (even : front.length % 2 = 0) (small : front.length + back.length < 65535) :
    ipCalculateChecksum (front ++ (leBytes 2 (ipCalculateChecksum (front ++ (leBytes 2 0 ++ back))).toNat ++ back)) = 0 := by
  have short (n : Nat) : (front ++ (leBytes 2 n ++ back)).length ≤ 65536 := by
    simp only [length_append, leBytes_length]
    omega
  refine eq_of_toNat_eq ?_
  rw [ipCalculateChecksum_eq (short _), wordSum_field even, ipCalculateChecksum_eq (short _), foldCarry_complement]
  rfl

namespace IpHeader

@[simp] theorem front_length (ip : IpHeader) : ip.front.length = 10 := by
  simp [front, leBytes_length]

@[simp] theorem bytes_length (ip : IpHeader) : ip.bytes.length = 20 := by
  simp [bytes, front_length, leBytes_length]

/-- A header with its checksum filled in has the checksum zero. -/
theorem checksum_bytes (ip : IpHeader) (blank : ip.checksum = 0) :
    ipCalculateChecksum { ip with checksum := ipCalculateChecksum ip.bytes }.bytes = 0 := by
  rw [bytes, bytes, blank, List.append_assoc, List.append_assoc]
  exact checksum_filled (congrArg (· % 2) ip.front_length) (by simp [leBytes_length])

/-! ### The fields -/

/-- A header is read as it was written. -/
theorem ofBytes_bytes (ip : IpHeader) (rest : List UInt8) : ofBytes (ip.bytes ++ rest) = ip := by
  cases ip with
  | mk versionIhl tos totalLen id flagsFragment ttl protocol checksum srcIp destIp =>
    simp only [ofBytes, mk.injEq]
    exact ⟨field_leBytes 1 versionIhl, field_leBytes 1 tos, field_leBytes 2 totalLen, field_leBytes 2 id,
      field_leBytes 2 flagsFragment, field_leBytes 1 ttl, field_leBytes 1 protocol, field_leBytes 2 checksum,
      field_leBytes 4 srcIp, field_leBytes 4 destIp⟩

end IpHeader

/-! ### From one host to another -/

theorem htons_htons (n : BitVec 16) : htons (htons n) = n := by
  refine eq_of_getLsbD_eq fun i bound => ?_
  have beyond : n.getLsbD (8 + (8 + i)) = false := getLsbD_of_ge n _ (by omega)
  simp only [htons, getLsbD_or, getLsbD_shiftLeft, getLsbD_ushiftRight, beyond]
  rcases lt_or_ge i 8 with low | high
  · simp [low, show 8 + i < 16 by omega]
  · simp [bound, show ¬ i < 8 by omega, show i - 8 < 8 by omega, show 8 + (i - 8) = i by omega, show ¬ 8 + i < 16 by omega]

inductive Transport
  | udp | tcp | icmp
deriving DecidableEq, Repr

namespace Transport

def protocol : Transport → BitVec 8
  | udp => ipprotoUdp
  | tcp => ipprotoTcp
  | icmp => ipprotoIcmp

def input (transport : Transport) (data : List UInt8) (len : Nat) (srcIp : BitVec 32) (ip : IpHeader) : IpAnswer :=
  match transport with
  | udp => .udpInput data len srcIp
  | tcp => .tcpInput data len srcIp
  | icmp => .icmpInput data len srcIp ip

end Transport

/-- A frame that `ip_output` made, whether it was sent or waits for a hardware address. -/
def IpOutput.Built (result : IpOutput) (link : Link) (frame : Frame) : Prop :=
  frame ∈ result.sent.map Prod.fst ∨ result.link.pending = frame :: link.pending

variable {frame : Frame}

theorem frame_of_built (built : (ipOutput link call tag).Built link frame) : frame = call.frame link tag := by
  have longer : link.pending ≠ frame :: link.pending := fun same => absurd (congrArg length same) (by simp)
  unfold IpOutput.Built at built
  rcases ipOutput_cases link call tag with ⟨same, sent, -⟩ | ⟨mac, -, sent, pending, -⟩ | ⟨-, sent, -, -, pending, -⟩
  · rw [same, sent] at built
    exact built.elim (fun mem => absurd mem not_mem_nil) fun same => absurd same longer
  · rw [sent, pending] at built
    exact built.elim mem_singleton.mp fun same => absurd same longer
  rw [sent, pending] at built
  rcases built with mem | same
  · exact absurd mem not_mem_nil
  · split at same
    · exact (cons.inj same).1.symm
    · exact absurd same longer

/-- The size of a payload that fits is in the header as it is. -/
theorem totalLen_ipHeader (small : frame.payload.length ≤ 1480) :
    (htons frame.ipHeader.totalLen).toNat = sizeofIpHeader + frame.payload.length := by
  have field : htons frame.ipHeader.totalLen = BitVec.ofNat 16 (sizeofIpHeader + frame.payload.length) := htons_htons _
  rw [field, toNat_ofNat, mod_eq_of_lt]
  rw [sizeofIpHeader]
  omega

/-- Every check of `ip_input` passes a packet as the sender makes it, and what lies behind the
packet is cut off by its length field. -/
theorem ipInput_ipPacket (small : frame.payload.length ≤ 1480) (transport : Transport)
    (protocol : frame.protocol = transport.protocol) (padding : List UInt8) :
    ipInput frame.destIp (frame.ipPacket ++ padding) =
      transport.input frame.payload frame.payload.length frame.srcIp frame.ipHeader := by
  have bytes : frame.ipPacket ++ padding = frame.ipHeader.bytes ++ (frame.payload ++ padding) := append_assoc _ _ _
  have length : (frame.ipPacket ++ padding).length = 20 + (frame.payload.length + padding.length) := by
    rw [bytes, length_append, length_append, IpHeader.bytes_length]
  have header : IpHeader.ofBytes (frame.ipPacket ++ padding) = frame.ipHeader := by
    rw [bytes, IpHeader.ofBytes_bytes]
  have first : (frame.ipPacket ++ padding).take 20 = frame.ipHeader.bytes := by
    rw [bytes, take_left' (IpHeader.bytes_length _)]
  have rest : (frame.ipPacket ++ padding).drop 20 = frame.payload ++ padding := by
    rw [bytes, drop_left' (IpHeader.bytes_length _)]
  have version : (frame.ipHeader.versionIhl >>> 4) &&& 0x0F = 4 := show ((0x45 : BitVec 8) >>> 4) &&& 0x0F = 4 by decide
  have ihl : ((frame.ipHeader.versionIhl &&& 0x0F) * 4).toNat = 20 := show (((0x45 : BitVec 8) &&& 0x0F) * 4).toNat = 20 by decide
  have sum : ipCalculateChecksum frame.ipHeader.bytes = 0 := IpHeader.checksum_bytes _ rfl
  have total := totalLen_ipHeader small
  have here : frame.ipHeader.destIp = frame.destIp := rfl
  have kind : frame.ipHeader.protocol = transport.protocol := protocol
  simp only [ipInput, header, version, ihl, first, sum, total, here, rest]
  rw [if_neg (by rw [length, sizeofIpHeader]; omega), if_neg (by simp), if_neg (by rw [length, sizeofIpHeader]; omega),
    if_neg (by simp), if_neg (by rw [length, sizeofIpHeader]; omega), if_neg (by simp)]
  have size : sizeofIpHeader + frame.payload.length - 20 = frame.payload.length := Nat.add_sub_cancel_left _ _
  rw [size, take_left, kind]
  cases transport <;> rfl

/-- What one host builds is accepted by the host it is for, and its transport layer gets the
payload, whatever lies behind the packet in the Ethernet frame. -/
theorem ipInput_accepts_ipOutput (link : Link) (call : IpCall) (tag : Nat) (transport : Transport) (padding : List UInt8)
    (small : call.data.length ≤ 1480) (protocol : call.protocol = transport.protocol)
    (built : (ipOutput link call tag).Built link frame) :
    ipInput call.destIp (frame.ipPacket ++ padding) =
      transport.input call.data call.data.length link.interfaceIp frame.ipHeader := by
  have whole : (call.frame link tag).payload = call.data := by
    refine take_of_length_le ?_
    rw [IpCall.ipPacketSize, mod_eq_of_lt (by omega)]
    omega
  have fits : (call.frame link tag).payload.length ≤ 1480 := by rwa [whole]
  have same := ipInput_ipPacket fits transport protocol padding
  rw [frame_of_built built]
  rwa [whole] at same

def pingLink : Link where
  cache := { entries := fun _ => { ipAddr := 0, macAddr := 0, isValid := false }, victim := 0 }
  pending := []
  packetId := 7
  interfaceIp := 0x0A02000A

def pingCall : IpCall where
  destIp := 0x0202000A
  protocol := ipprotoIcmp
  data := [8, 0, 0xF7, 0xFF, 0, 0, 0, 0]
  null := false
  alloc := true
  node := true
  driver := .done

theorem ipInput_accepts_ping : ipInput 0x0202000A ((pingCall.frame pingLink 0).ipPacket ++ [0, 0]) =
      .icmpInput [8, 0, 0xF7, 0xFF, 0, 0, 0, 0] 8 0x0A02000A (pingCall.frame pingLink 0).ipHeader :=
  ipInput_accepts_ipOutput pingLink pingCall 0 .icmp [0, 0] (by decide) rfl (.inr rfl)

end Sirius.Net
