import Sirius.Net.Udp
import Sirius.Support.Runs
import Mathlib.Data.List.Forall2

/-! The ring of a datagram socket is a queue of datagrams: what `recvfrom` takes out of it
is one datagram at a time, in the order in which `udp_input` has put them in. -/
namespace Sirius.Net
open Support Relation List Ring

structure Datagram where
  payload : List UInt8
  source : SockaddrIn

def Datagram.encode (d : Datagram) : List UInt8 := leBytes 4 d.payload.length ++ d.source.bytes ++ d.payload

@[simp] theorem SockaddrIn.bytes_length (source : SockaddrIn) : source.bytes.length = sizeofSockaddrIn := by
  simp [bytes, leBytes_length, sizeofSockaddrIn]

theorem SockaddrIn.ofBytes_bytes (source : SockaddrIn) : ofBytes source.bytes = source := by
  obtain ⟨family, port, addr⟩ := source
  simp only [ofBytes, mk.injEq]
  exact ⟨field_leBytes 2 family, field_leBytes 2 port, field_leBytes 4 addr⟩

theorem Datagram.encode_length (d : Datagram) : d.encode.length = d.payload.length + 20 := by
  simp only [encode, length_append, leBytes_length, SockaddrIn.bytes_length, sizeofSockaddrIn]
  omega

/-- The free space, computed with 32-bit words, is that of the ring. -/
theorem rxFree_eq (rx : Ring UInt8 socketBufferSize) : rxFree rx = rx.free := by
  have headLt := rx.head_lt
  have tailLt := rx.tail_lt
  simp only [rxFree, free, used, socketBufferSize] at headLt tailLt ⊢
  have sum : (BitVec.ofNat 32 rx.tail - BitVec.ofNat 32 rx.head - 1 + BitVec.ofNat 32 16384).toNat =
      rx.tail + 16384 - rx.head - 1 := by
    have one : (1 : BitVec 32).toNat = 1 := rfl
    simp only [BitVec.toNat_add, BitVec.toNat_sub, BitVec.toNat_ofNat, one]
    omega
  split <;> omega

/-- The packet is whole, and for this socket. -/
structure UdpPacket.WellFormed (packet : UdpPacket) (sock : UdpSocket) : Prop where
  whole : packet.lengthField ≤ packet.len
  header : sizeofUdpHeader ≤ packet.lengthField
  port : packet.header.destPort = sock.port
  notDhcp : packet.header.destPort ≠ htons 68

def UdpPacket.datagram (packet : UdpPacket) (srcIp : BitVec 32) : Datagram where
  payload := packet.payload
  source := { family := afInet, port := packet.header.srcPort, addr := srcIp }

theorem UdpPacket.WellFormed.payload_length (formed : UdpPacket.WellFormed packet sock) :
    packet.payload.length = packet.userDataLen := by
  have whole := formed.whole
  rw [UdpPacket.payload, length_take]
  simp only [UdpPacket.len, UdpPacket.userDataLen] at whole ⊢
  omega

theorem UdpPacket.payload_lt (packet : UdpPacket) : packet.payload.length < 2 ^ 32 := by
  have field := (htons packet.header.length).isLt
  rw [payload, length_take]
  simp only [userDataLen, lengthField] at field ⊢
  omega

theorem UdpPacket.WellFormed.fits (formed : UdpPacket.WellFormed packet sock) :
    ¬ (packet.lengthField > packet.len ∨ packet.lengthField < sizeofUdpHeader) := by
  have := formed.whole
  have := formed.header
  omega

theorem udpInput_dropped (formed : packet.WellFormed sock) (srcIp : BitVec 32)
    (full : sock.rx.free < packet.payload.length + 20) : udpInput sock packet srcIp = (.code (-3), sock) := by
  rw [formed.payload_length, ← rxFree_eq] at full
  rw [udpInput, if_neg formed.fits, if_neg (not_not.mpr formed.port), if_neg formed.notDhcp, if_pos]
  simp only [sizeofSockaddrIn]
  omega

theorem udpInput_stored (formed : packet.WellFormed sock) (srcIp : BitVec 32)
    (room : packet.payload.length + 20 ≤ sock.rx.free) :
    (udpInput sock packet srcIp).1 = .code 0 ∧
      (udpInput sock packet srcIp).2.rx.contents = sock.rx.contents ++ (packet.datagram srcIp).encode := by
  have enough : ¬ rxFree sock.rx < 4 + sizeofSockaddrIn + packet.userDataLen := by
    rw [rxFree_eq, ← formed.payload_length]
    simp only [sizeofSockaddrIn]
    omega
  rw [udpInput, if_neg formed.fits, if_neg (not_not.mpr formed.port), if_neg formed.notDhcp, if_neg enough]
  refine ⟨rfl, ?_⟩
  have length := (packet.datagram srcIp).encode_length
  have code : leBytes 4 packet.userDataLen ++
      (SockaddrIn.bytes { family := afInet, port := packet.header.srcPort, addr := srcIp } ++ packet.payload) =
      (packet.datagram srcIp).encode := by
    rw [Datagram.encode, UdpPacket.datagram, formed.payload_length, append_assoc]
  dsimp only
  rw [putAll_append, putAll_append, code]
  apply putAll_contents
  rw [length]
  simp only [free, UdpPacket.datagram] at room ⊢
  omega

structure Queues (sock : UdpSocket) (queue : List Datagram) : Prop where
  contents : sock.rx.contents = queue.flatMap Datagram.encode
  sizes : ∀ d ∈ queue, d.payload.length < 2 ^ 32

theorem Queues.nil_of_empty (queues : Queues sock queue) (empty : sock.rx.head = sock.rx.tail) : queue = [] := by
  have none := sock.rx.contents_length.trans (sock.rx.used_eq_zero.mpr empty)
  rw [queues.contents] at none
  cases queue with
  | nil => rfl
  | cons d rest =>
    rw [flatMap_cons, length_append, d.encode_length] at none
    omega

/-- What a reader with this much room is to get of a datagram. -/
def Datagram.answer (d : Datagram) (len : Nat) (addrlen : Option Nat) : Received where
  ret := (min len d.payload.length : Nat)
  bytes := d.payload.take len
  source := if addrlen.any (sizeofSockaddrIn ≤ ·) then some d.source else none

/-- A datagram is taken out as a whole, however much of it the caller has room for. -/
theorem Queues.recvfrom (queues : Queues sock (d :: rest)) (positive : 0 < len) (addrlen : Option Nat) :
    (udpRecvfrom sock len addrlen).1 = some (d.answer len addrlen) ∧ Queues (udpRecvfrom sock len addrlen).2 rest := by
  obtain ⟨contents, sizes⟩ := queues
  have small : d.payload.length < 256 ^ 4 := sizes d mem_cons_self
  have nonempty : sock.rx.head ≠ sock.rx.tail := by
    intro empty
    cases Queues.nil_of_empty ⟨contents, sizes⟩ empty
  rw [flatMap_cons, Datagram.encode, append_assoc, append_assoc] at contents
  -- the ring holds the length, the address, what the caller has room for, and what is left
  obtain ⟨size, afterSize⟩ := read_append contents
  obtain ⟨addr, afterAddr⟩ := read_append afterSize
  have limit : (if d.payload.length < len then d.payload.length else len) = (d.payload.take len).length := by
    rw [length_take]
    split <;> omega
  rw [← take_append_drop len d.payload, append_assoc] at afterAddr
  obtain ⟨data, afterData⟩ := read_append afterAddr
  rw [leBytes_length] at size afterSize addr afterAddr data afterData
  rw [SockaddrIn.bytes_length] at addr afterAddr data afterData
  rw [udpRecvfrom, if_neg (by omega), if_neg nonempty]
  simp only [size, leNat_leBytes_of_lt small, limit, addr, SockaddrIn.ofBytes_bytes, data]
  refine ⟨?_, ?_, fun e later => sizes e (mem_cons_of_mem _ later)⟩
  · rw [length_take, Datagram.answer]
  split
  next short =>
    have left : d.payload.length - (d.payload.take len).length = (d.payload.drop len).length := by
      rw [length_take, length_drop]
      omega
    rw [left]
    rw [skip_contents (length_le_used afterData), afterData, List.drop_left]
  next whole =>
    have nothing : d.payload.drop len = [] := by
      rw [length_take] at whole
      exact drop_eq_nil_iff.mpr (by omega)
    rw [nothing] at afterData
    exact afterData

inductive UdpEvent
  | input (packet : UdpPacket) (srcIp : BitVec 32)
  | recvfrom (len : Nat) (addrlen : Option Nat)

/-- A socket with what has happened to it: the datagrams that were not dropped, and the
answers to the calls of `recvfrom`, each beside the room the caller had. -/
structure UdpHistory where
  sock : UdpSocket
  kept : List Datagram
  answers : List (Nat × Option Nat × Option Received)

def UdpEvent.apply (event : UdpEvent) (h : UdpHistory) : UdpHistory :=
  match event with
  | .input packet srcIp =>
    let (answer, sock) := udpInput h.sock packet srcIp
    { h with sock := sock, kept := if answer = .code (-3) then h.kept else h.kept ++ [packet.datagram srcIp] }
  | .recvfrom len addrlen =>
    let (result, sock) := udpRecvfrom h.sock len addrlen
    { h with sock := sock, answers := h.answers ++ [(len, addrlen, result)] }

/-- Packets are whole and for this socket; `recvfrom` is called when there is data. -/
def UdpEvent.Possible (event : UdpEvent) (h : UdpHistory) : Prop :=
  match event with
  | .input packet _ => packet.WellFormed h.sock
  | .recvfrom _ _ => h.sock.rx.head ≠ h.sock.rx.tail

def UdpEvent.AsksForData : UdpEvent → Prop
  | .input _ _ => True
  | .recvfrom len _ => 0 < len

def UdpStep (before after : UdpHistory) : Prop :=
  ∃ event : UdpEvent, event.Possible before ∧ after = event.apply before

def UdpReadingStep (before after : UdpHistory) : Prop :=
  ∃ event : UdpEvent, event.Possible before ∧ event.AsksForData ∧ after = event.apply before

def Answers (answer : Nat × Option Nat × Option Received) (d : Datagram) : Prop :=
  answer.2.2 = some (d.answer answer.1 answer.2.1)

/-- The answers are to the first of the datagrams kept, the others are in the ring. -/
def UdpInv (h : UdpHistory) : Prop :=
  ∃ delivered queue, h.kept = delivered ++ queue ∧ List.Forall₂ Answers h.answers delivered ∧ Queues h.sock queue

theorem udpInput_dropped_iff (formed : packet.WellFormed sock) (srcIp : BitVec 32) :
    (udpInput sock packet srcIp).1 = .code (-3) ↔ sock.rx.free < packet.payload.length + 20 := by
  refine ⟨fun dropped => ?_, fun full => congrArg Prod.fst (udpInput_dropped formed srcIp full)⟩
  by_contra room
  rw [(udpInput_stored formed srcIp (not_lt.mp room)).1] at dropped
  cases dropped

theorem UdpEvent.apply_inv (event : UdpEvent) (inv : UdpInv h) (possible : event.Possible h) (asks : event.AsksForData) :
    UdpInv (event.apply h) := by
  obtain ⟨delivered, queue, kept, answered, queues⟩ := inv
  cases event with
  | input packet srcIp =>
    by_cases full : h.sock.rx.free < packet.payload.length + 20
    · refine ⟨delivered, queue, ?_, answered, ?_⟩
      · simp only [apply, udpInput_dropped possible srcIp full, if_true]
        exact kept
      · simp only [apply, udpInput_dropped possible srcIp full]
        exact queues
    obtain ⟨code, contents⟩ := udpInput_stored possible srcIp (not_lt.mp full)
    have notDropped : ¬ UdpAnswer.code 0 = .code (-3) := nofun
    refine ⟨delivered, queue ++ [packet.datagram srcIp], ?_, answered, ?_, fun d member => ?_⟩
    · simp only [apply, code, if_neg notDropped]
      rw [kept, append_assoc]
    · rw [flatMap_append, flatMap_singleton, ← queues.contents]
      exact contents
    · rcases mem_append.mp member with before | last
      · exact queues.sizes d before
      · rw [mem_singleton.mp last]
        exact packet.payload_lt
  | recvfrom len addrlen =>
    cases queue with
    | nil =>
      have empty : h.sock.rx.used = 0 := by
        rw [← h.sock.rx.contents_length, queues.contents, flatMap_nil, length_nil]
      exact absurd (h.sock.rx.used_eq_zero.mp empty) possible
    | cons d rest =>
      obtain ⟨result, after⟩ := queues.recvfrom asks addrlen
      refine ⟨delivered ++ [d], rest, ?_, rel_append answered (.cons result .nil), after⟩
      rw [append_assoc]
      exact kept

/-- Each call gets the next datagram that was not dropped, with its sender; a datagram is
dropped exactly when it does not fit with its 20 bytes of length and address. -/
theorem udp_keeps_boundaries (start : UdpSocket) (empty : start.rx.head = start.rx.tail)
    (run : ReflTransGen UdpReadingStep ⟨start, [], []⟩ h) :
    List.Forall₂ Answers h.answers (h.kept.take h.answers.length) ∧ ∀ packet srcIp, packet.WellFormed h.sock →
        ((udpInput h.sock packet srcIp).1 = .code (-3) ↔ h.sock.rx.free < packet.payload.length + 20) := by
  refine ⟨?_, fun packet srcIp formed => udpInput_dropped_iff formed srcIp⟩
  have inv : UdpInv h := by
    induction run with
    | refl =>
      have nothing := eq_nil_of_length_eq_zero (start.rx.contents_length.trans (start.rx.used_eq_zero.mpr empty))
      exact ⟨[], [], rfl, .nil, nothing, nofun⟩
    | tail _ step ih =>
      obtain ⟨event, possible, asks, rfl⟩ := step
      exact event.apply_inv ih possible asks
  obtain ⟨delivered, queue, kept, answered, -⟩ := inv
  rw [kept, answered.length_eq, take_left]
  exact answered

def freshUdpSocket : UdpSocket := { port := htons 7, rx := emptyRing }

def threeBytes : UdpPacket where
  header := { srcPort := htons 9, destPort := htons 7, length := htons 11, checksum := 0 }
  rest := [1, 2, 3]

theorem threeBytes_formed : threeBytes.WellFormed freshUdpSocket := ⟨by decide, by decide, rfl, by decide⟩

theorem threeBytes_arrives (len : Nat) (addrlen : Option Nat) :
    (UdpEvent.recvfrom len addrlen).Possible ((UdpEvent.input threeBytes 0x0200000a).apply ⟨freshUdpSocket, [], []⟩) := by
  have moved : ((UdpEvent.input threeBytes 0x0200000a).apply ⟨freshUdpSocket, [], []⟩).sock.rx.head = 23 := by decide +kernel
  rw [UdpEvent.Possible, moved]
  decide +kernel

theorem udp_keeps_boundaries_truncated : freshUdpSocket.rx.head = freshUdpSocket.rx.tail ∧
      ∃ h, ReflTransGen UdpReadingStep ⟨freshUdpSocket, [], []⟩ h ∧ h.answers.length = 1 ∧
        List.Forall₂ Answers h.answers (h.kept.take h.answers.length) := by
  have meet : AllMeet UdpEvent.apply (fun event h => event.Possible h ∧ event.AsksForData)
      [.input threeBytes 0x0200000a, .recvfrom 2 none] ⟨freshUdpSocket, [], []⟩ :=
    ⟨⟨threeBytes_formed, trivial⟩, ⟨threeBytes_arrives 2 none, Nat.two_pos⟩, trivial⟩
  have run : ReflTransGen UdpReadingStep ⟨freshUdpSocket, [], []⟩
      (runAll UdpEvent.apply [.input threeBytes 0x0200000a, .recvfrom 2 none] ⟨freshUdpSocket, [], []⟩) := meet.run_both
  exact ⟨rfl, _, run, rfl, (udp_keeps_boundaries freshUdpSocket rfl run).1⟩

/-- A call without room is refused, and takes nothing. -/
theorem empty_buffer_is_refused : freshUdpSocket.rx.head = freshUdpSocket.rx.tail ∧
      ∃ h, ReflTransGen UdpStep ⟨freshUdpSocket, [], []⟩ h ∧
        ¬ List.Forall₂ Answers h.answers (h.kept.take h.answers.length) := by
  have meet : AllMeet UdpEvent.apply UdpEvent.Possible
      [.input threeBytes 0x0200000a, .recvfrom 0 none] ⟨freshUdpSocket, [], []⟩ :=
    ⟨threeBytes_formed, threeBytes_arrives 0 none, trivial⟩
  refine ⟨rfl, _, meet.run, fun answers => ?_⟩
  obtain ⟨first, -⟩ := forall₂_cons.mp answers
  cases first

end Sirius.Net
