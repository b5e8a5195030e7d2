import Sirius.Net.Ip

/-! `icmp.c`: a request for an echo is answered with its own bytes. What is printed is left out. -/
namespace Sirius.Net
open Support Nat
open List hiding sum

def icmpTypeEchoReply : UInt8 := 0
def icmpTypeEchoRequest : UInt8 := 8
def sizeofIcmpHeader : Nat := 8

/-- The request with type, code and checksum written over. -/
def echoReply (data : List UInt8) : List UInt8 :=
  let reply (checksum : BitVec 16) := [icmpTypeEchoReply, 0] ++ (leBytes 2 checksum.toNat ++ data.drop 4)
  reply (ipCalculateChecksum (reply 0))

/-- `block` is the answer of `kmalloc`; `call` says what `ip_output` meets. -/
def icmpInput (link : Link) (data : List UInt8) (srcIp : BitVec 32) (block : Bool) (call : IpCall) (tag : Nat) : IpOutput :=
  if data.length < sizeofIcmpHeader then { link := link, ret := -1 }
  else if data.head? = some icmpTypeEchoRequest then
    if block = false then { link := link, ret := -2 }
    else ipOutput link { call with destIp := srcIp, protocol := ipprotoIcmp, data := echoReply data, null := false } tag
  else { link := link, ret := 0 }

/-- A request is answered once, if there is memory: the answer is accepted by the sender, with the data of the
request and a checksum that is right, and is not answered. -/
theorem ping_answered_once (host asker : Link) (data padding : List UInt8) (call call' : IpCall) (tag tag' : Nat) (block : Bool)
    (kind : data.head? = some icmpTypeEchoRequest) (least : sizeofIcmpHeader ≤ data.length) (most : data.length ≤ 1480)
    (alloc : call.alloc = true) (node : call.node = true) :
    ∃ reply, (∀ frame, (icmpInput host data asker.interfaceIp true call tag).Built host frame ↔ frame = reply) ∧
      ipInput asker.interfaceIp (reply.ipPacket ++ padding) =
        .icmpInput (echoReply data) data.length host.interfaceIp reply.ipHeader ∧
      (echoReply data).drop 4 = data.drop 4 ∧ ipCalculateChecksum (echoReply data) = 0 ∧
      icmpInput asker (echoReply data) host.interfaceIp block call' tag' = { link := asker, ret := 0 } := by
  let answer : IpCall := { call with destIp := asker.interfaceIp, protocol := ipprotoIcmp, data := echoReply data, null := false }
  have long : ¬data.length < sizeofIcmpHeader := Nat.not_lt.mpr least
  rw [sizeofIcmpHeader] at least
  have length : (echoReply data).length = data.length := by
    simp only [echoReply, length_append, length_cons, length_nil, leBytes_length, length_drop]
    omega
  have size : answer.ipPacketSize = 20 + data.length := by
    rw [IpCall.ipPacketSize, show answer.data.length = data.length from length, mod_eq_of_lt (by omega)]
  have whole : (answer.frame host tag).payload = echoReply data :=
    take_of_length_le (by rw [size, Nat.add_sub_cancel_left]; exact length.le)
  have answered : icmpInput host data asker.interfaceIp true call tag = ipOutput host answer tag := by
    rw [icmpInput, if_neg long, if_pos kind, if_neg (by decide)]
  refine ⟨answer.frame host tag, fun frame => ?_, ?_, rfl, ?_, ?_⟩
  · rw [answered]
    refine ⟨frame_of_built, ?_⟩
    rintro rfl
    rw [ipOutput, if_neg (by simp [answer]), if_neg (by omega), if_neg (by simp [answer, alloc])]
    dsimp only
    split
    · exact .inl mem_cons_self
    · exact .inr (by simp [arpRetainPacket, answer, node])
  · have accepted := @ipInput_ipPacket (answer.frame host tag) (by rwa [whole, length]) .icmp rfl padding
    rwa [whole, length] at accepted
  · exact checksum_filled rfl (by simp; omega)
  · rw [icmpInput, length, if_neg long, if_neg (by simp [echoReply, icmpTypeEchoReply, icmpTypeEchoRequest])]

theorem ping_answered_once_ping :
    ∃ reply, (icmpInput pingLink pingCall.data 0x0202000A true pingCall 0).Built pingLink reply := by
  obtain ⟨reply, built, -⟩ := ping_answered_once pingLink { pingLink with interfaceIp := 0x0202000A } pingCall.data []
    pingCall pingCall 0 0 true rfl (by decide) (by decide) rfl rfl
  exact ⟨reply, (built reply).mpr rfl⟩

end Sirius.Net
