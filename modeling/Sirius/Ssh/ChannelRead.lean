import Mathlib.Algebra.Order.BigOperators.Group.List
import Mathlib.Algebra.Order.Group.Nat
import Mathlib.Data.List.GetD
import Sirius.Ssh.RoundTrip
import Mathlib.Algebra.GroupWithZero.Nat

/-! `ssh_channel_read`: one packet a call, of which it copies as many bytes as the length field says, or as
the caller's buffer holds. The length comes from the peer and is compared with neither the packet nor
`rx_buffer`. -/
namespace Sirius.Ssh
open Support List Nat

/-- A byte of `rx_buffer`, which begins as zeros; `none` is memory behind it. -/
def Session.rxByte (session : Session) (i : Nat) : Option UInt8 :=
  if i < sshMaxPacketLen then some (session.rxBuffer.getD i 0) else none

structure ChannelRead where
  session : Session
  io : Io
  ret : Int
  out : List (Option UInt8) := []

section
variable (crypto : Crypto)

def sshChannelRead (session : Session) (io : Io) (maxLen : Nat) : ChannelRead :=
  if maxLen = 0 then { session := session, io := io, ret := -1 }
  else
    let outcome := sshProcessPacket crypto session io
    let session := outcome.session
    let io := outcome.io
    if outcome.ret ≠ 0 then { session := session, io := io, ret := -1 }
    else if session.rxBuffer.getD 5 0 ≠ sshMsgChannelData then { session := session, io := io, ret := 0 }
    else
      let dataLen := be32 (session.rxBuffer.drop 10)
      if dataLen = 0 then { session := session, io := io, ret := 0 }
      else
        let bytesACopiar := if dataLen < maxLen then dataLen else maxLen
        { session := session
          io := io
          ret := (BitVec.ofNat 32 bytesACopiar).toInt
          out := (range bytesACopiar).map fun i => session.rxByte (14 + i) }

/-- A call that received a packet: the payload, the length field as the buffer has it, and the answer. -/
structure Delivery where
  maxLen : Nat
  payload : List UInt8
  dataLen : Nat
  ret : Int
  out : List (Option UInt8)

/-- The data of a `SSH_MSG_CHANNEL_DATA`, behind the channel and the length. -/
def Delivery.field (d : Delivery) : List UInt8 := (d.payload.drop 8).take (be32 (d.payload.drop 4))

variable (maxLen : Nat) (s : Session × Io)

def delivery : Delivery :=
  let received := sshReceivePacket crypto s.1 s.2
  let read := sshChannelRead crypto s.1 s.2 maxLen
  { maxLen := maxLen
    payload := match received.result with
      | .error _ => []
      | .ok message => message.2
    dataLen := be32 (received.session.rxBuffer.drop 10)
    ret := read.ret
    out := read.out }

def readStep : Session × Io :=
  let read := sshChannelRead crypto s.1 s.2 maxLen
  (read.session, read.io)

def deliveries : List Nat → Session × Io → List Delivery
  | [], _ => []
  | maxLen :: rest, s => delivery crypto maxLen s :: deliveries rest (readStep crypto maxLen s)

/-- The buffer is not empty, and the packet that arrives is accepted and carries channel data. -/
def ReadsData : Prop :=
  0 < maxLen ∧ ∃ payload, (sshReceivePacket crypto s.1 s.2).result = .ok (sshMsgChannelData, payload)

end

/-- What is returned is in the data of the packet, and nothing is missing. -/
def DeliveredWhole (log : List Delivery) : Prop :=
  (∀ d ∈ log, d.ret = d.out.length ∧ d.out <+: d.field.map some) ∧ log.flatMap Delivery.out =
    (log.flatMap Delivery.field).map some

/-- As many bytes as the length field says are there, or as many as the buffer holds: the smaller of these is the
same as the smaller of the length and the bytes behind it in the payload. -/
def Delivery.Fits (d : Delivery) : Prop := min d.dataLen d.maxLen = min d.dataLen (d.payload.length - 8)

/-! ### What a packet leaves in the buffer -/

theorem readAll_length (want : Nat) (reads : List (List UInt8)) (complete : (readAll want reads).complete = true) :
    (readAll want reads).bytes.length = want := by
  fun_induction readAll want reads with
  | case1 => rfl
  | case2 => cases complete
  | case3 => cases complete
  | case4 want chunk reads fits later ih =>
    rw [length_append, ih complete]
    omega

/-- A packet in the buffer, with its type, padding and payload. -/
structure Stored (session : Session) (message : Message) : Prop where
  shape : ∃ packet filler stale, session.rxBuffer = packet ++ stale ∧ packet.length ≤ sshMaxPacketLen ∧
    packet.getD 5 0 = message.1 ∧ packet.drop 6 = message.2 ++ filler ∧ 4 ≤ filler.length

section
variable (crypto : Crypto) (session : Session) (io : Io) (packetLength : Nat)

section
variable (packet : List UInt8) (length : packet.length = 4 + packetLength) (fits : packet.length ≤ sshMaxPacketLen)
include length fits

theorem unpad_stored (filled : session.rxBuffer = packet ++ stale)
    (accepted : (unpad session io packetLength packet).result = .ok message) :
    Stored (unpad session io packetLength packet).session message := by
  rw [unpad] at accepted ⊢
  split_ifs at accepted ⊢ with padded
  cases accepted
  have least : sshMinPadLen = 4 := rfl
  refine ⟨packet, (packet.drop 6).drop (packetLength - (packet.getD 4 0).toNat - 2), stale, filled, fits, rfl, ?_, ?_⟩
  · exact (take_append_drop _ _).symm
  · rw [length_drop, length_drop]
    omega

theorem openSealed_stored (accepted : (openSealed crypto session io packetLength packet).result = .ok message) :
    Stored (openSealed crypto session io packetLength packet).session message := by
  rw [openSealed] at accepted ⊢
  split_ifs at accepted ⊢ with whole same
  have opened := aes128CtrCrypt_length crypto session.inboundKey session.inboundIv packet
  exact unpad_stored _ _ packetLength _ (opened.trans length) (opened ▸ fits) rfl accepted

end

theorem sshReceivePacket_stored (accepted : (sshReceivePacket crypto session io).result = .ok message) :
    Stored (sshReceivePacket crypto session io).session message := by
  rw [sshReceivePacket] at accepted ⊢
  dsimp only at accepted ⊢
  split_ifs at accepted ⊢ with header size blocks body sealing
  all_goals
    have four := readAll_length 4 io.reads (eq_true_of_ne_false header)
    have others := readAll_length _ _ (eq_true_of_ne_false body)
    generalize packetLengthOf crypto session (readAll 4 io.reads).bytes = packetLength at accepted size others ⊢
    have length : ((readAll 4 io.reads).bytes ++ (readAll packetLength (readAll 4 io.reads).reads).bytes).length =
        4 + packetLength := by rw [length_append, four, others]
  · exact openSealed_stored crypto _ _ packetLength _ length (by omega) accepted
  · exact unpad_stored _ _ packetLength _ length (by omega) rfl accepted

end

theorem getD_drop (bytes : List UInt8) (k i : Nat) : (bytes.drop k).getD i 0 = bytes.getD (k + i) 0 := by
  rw [getD_eq_getElem?_getD, getElem?_drop, ← getD_eq_getElem?_getD]

namespace Stored
variable {session : Session} {message : Message}

section
variable (stored : Stored session message)
include stored

theorem kind : session.rxBuffer.getD 5 0 = message.1 := by
  obtain ⟨packet, filler, stale, shape, -, kind, rest, long⟩ := stored.shape
  have length := congrArg length rest
  rw [length_drop, length_append] at length
  rw [shape, getD_append _ _ _ _ (by omega), kind]

/-- The payload begins six bytes into the buffer. -/
theorem payload : ∃ others, session.rxBuffer.drop 6 = message.2 ++ others := by
  obtain ⟨packet, filler, stale, shape, -, -, rest, long⟩ := stored.shape
  have length := congrArg length rest
  rw [length_drop, length_append] at length
  refine ⟨filler ++ stale, ?_⟩
  rw [shape, drop_append_of_le_length (by omega), rest, append_assoc]

theorem short : 6 + message.2.length + 4 ≤ sshMaxPacketLen := by
  obtain ⟨packet, filler, stale, -, fits, -, rest, long⟩ := stored.shape
  have length := congrArg length rest
  rw [length_drop, length_append] at length
  omega

/-- If the payload is long enough, the length field of the buffer is that of the payload. -/
theorem dataLen (long : 8 ≤ message.2.length) : be32 (session.rxBuffer.drop 10) = be32 (message.2.drop 4) := by
  obtain ⟨others, tail⟩ := stored.payload
  have ten : session.rxBuffer.drop 10 = (session.rxBuffer.drop 6).drop 4 := by rw [drop_drop]
  rw [ten, tail, drop_append_of_le_length (by omega)]
  have four : 4 ≤ (message.2.drop 4).length := by
    rw [length_drop]
    omega
  simp only [be32]
  rw [getD_append _ _ _ _ (by omega), getD_append _ _ _ _ (by omega), getD_append _ _ _ _ (by omega),
    getD_append _ _ _ _ (by omega)]

/-- Bytes of the data are bytes of the payload. -/
theorem rxByte (inside : i < (message.2.drop 8).length) : session.rxByte (14 + i) = some ((message.2.drop 8).getD i 0) := by
  have short := stored.short
  obtain ⟨others, tail⟩ := stored.payload
  rw [length_drop] at inside
  have byte : session.rxBuffer.getD (14 + i) 0 = (session.rxBuffer.drop 6).getD (8 + i) 0 := by
    rw [getD_drop, ← add_assoc]
  rw [Session.rxByte, if_pos (by omega), byte, tail, getD_append _ _ _ _ (by omega), getD_drop]

end

end Stored

section
variable (crypto : Crypto) (session : Session) (io : Io) (payload : List UInt8)

/-- The one call in terms of the packet that it received. -/
structure Answered (session : Session) (d : Delivery) : Prop where
  positive : 0 < d.maxLen
  stored : Stored session (sshMsgChannelData, d.payload)
  dataLen : d.dataLen = be32 (session.rxBuffer.drop 10)
  ret : d.ret = (BitVec.ofNat 32 (min d.dataLen d.maxLen)).toInt
  out : d.out = (range (min d.dataLen d.maxLen)).map fun i => session.rxByte (14 + i)

theorem sshChannelRead_data {next : Session} (positive : 0 < maxLen)
    (process : sshProcessPacket crypto session io = { session := next, io := later, ret := 0 })
    (kind : next.rxBuffer.getD 5 0 = sshMsgChannelData) :
    sshChannelRead crypto session io maxLen =
      { session := next
        io := later
        ret := (BitVec.ofNat 32 (min (be32 (next.rxBuffer.drop 10)) maxLen)).toInt
        out := (range (min (be32 (next.rxBuffer.drop 10)) maxLen)).map fun i => next.rxByte (14 + i) } := by
  rw [sshChannelRead, if_neg (by omega), process]
  dsimp only
  rw [if_neg (by decide), if_neg (not_not.mpr kind)]
  split
  next none =>
    rw [none, zero_min]
    rfl
  next =>
    have smaller : ∀ a b : Nat, (if a < b then a else b) = min a b := by
      intro a b
      split <;> omega
    rw [smaller]

theorem delivery_answered (accepted : ReadsData crypto maxLen s) :
    Answered (sshReceivePacket crypto s.1 s.2).session (delivery crypto maxLen s) := by
  obtain ⟨positive, payload, received⟩ := accepted
  have stored := sshReceivePacket_stored crypto s.1 s.2 received
  have process : sshProcessPacket crypto s.1 s.2 =
      { session := (sshReceivePacket crypto s.1 s.2).session, io := (sshReceivePacket crypto s.1 s.2).io, ret := 0 } := by
    rw [sshProcessPacket, received]
    rfl
  have read := sshChannelRead_data crypto s.1 s.2 positive process stored.kind
  have found : (delivery crypto maxLen s).payload = payload := by rw [delivery, received]
  exact ⟨positive, found ▸ stored, rfl, congrArg ChannelRead.ret read, congrArg ChannelRead.out read⟩

end

namespace Answered
variable {session : Session} {d : Delivery}

section
variable (answered : Answered session d)
include answered

theorem out_length : d.out.length = min d.dataLen d.maxLen := by
  rw [answered.out, length_map, length_range]

/-- A payload that is too short for a length has no data, whatever the buffer says. -/
theorem field_length : d.field.length = min d.dataLen (d.payload.length - 8) := by
  rw [Delivery.field, length_take, length_drop]
  by_cases long : 8 ≤ d.payload.length
  · rw [answered.dataLen, answered.stored.dataLen long]
  · omega

theorem fits_iff : d.Fits ↔ d.out.length = d.field.length := by
  rw [Delivery.Fits, answered.out_length, answered.field_length]

/-- Bytes that are not more than the data are the first of the data. -/
theorem starts (few : d.out.length ≤ d.field.length) : d.out <+: d.field.map some := by
  rw [prefix_iff_eq_take]
  apply ext_getElem
  · rw [length_take, length_map, min_eq_left few]
  intro i inside _
  have within : i < (d.payload.drop 8).length := by
    have part : d.field.length ≤ (d.payload.drop 8).length := length_take_le' ..
    omega
  have byte := answered.stored.rxByte within
  simp only [answered.out, getElem_map, getElem_range, byte, getElem_take, Delivery.field]
  rw [getD_eq_getElem _ _ within]

theorem whole (fits : d.Fits) : d.ret = d.out.length ∧ d.out = d.field.map some := by
  have same := answered.fits_iff.mp fits
  have short := answered.stored.short
  have max : sshMaxPacketLen = 35000 := rfl
  have few : d.out.length ≤ d.payload.length := by
    rw [same, answered.field_length]
    omega
  constructor
  · rw [answered.ret, ← answered.out_length, BitVec.toInt_eq_toNat_of_lt]
    · rw [BitVec.toNat_ofNat, mod_eq_of_lt (by dsimp only at short; omega)]
    · rw [BitVec.toNat_ofNat]
      dsimp only at short
      omega
  · have starts := answered.starts (le_of_eq same)
    exact starts.eq_of_length (by rw [length_map, same])

end

end Answered

/-! ### Runs -/

/-- Pieces that are nowhere longer than others, and as long in all, are as long everywhere. -/
theorem lengths_eq {pieces whole : Delivery → Nat} (log : List Delivery) (most : ∀ d ∈ log, pieces d ≤ whole d)
    (total : (log.map whole).sum ≤ (log.map pieces).sum) : ∀ d ∈ log, pieces d = whole d := by
  induction log with
  | nil => nofun
  | cons first rest ih =>
    rw [forall_mem_cons] at most ⊢
    simp only [map_cons, sum_cons] at total
    have others := sum_le_sum most.2
    exact ⟨by omega, ih most.2 (by omega)⟩

theorem deliveries_answered (crypto : Crypto) (sizes : List Nat)
    (accepted : AllMeet (readStep crypto) (ReadsData crypto) sizes s) :
    ∀ d ∈ deliveries crypto sizes s, ∃ session, Answered session d := by
  induction sizes generalizing s with
  | nil => nofun
  | cons maxLen rest ih =>
    rw [deliveries, forall_mem_cons]
    exact ⟨⟨_, delivery_answered crypto accepted.1⟩, ih accepted.2⟩

theorem fits_of_whole (log : List Delivery) (answered : ∀ d ∈ log, ∃ session, Answered session d) (whole : DeliveredWhole log) :
    ∀ d ∈ log, d.Fits := by
  obtain ⟨inside, all⟩ := whole
  have most : ∀ d ∈ log, d.out.length ≤ d.field.length := by
    intro d member
    have bound := (inside d member).2.length_le
    rwa [length_map] at bound
  have total := congrArg length all
  rw [length_map, length_flatMap, length_flatMap] at total
  intro d member
  obtain ⟨session, answer⟩ := answered d member
  exact answer.fits_iff.mpr (lengths_eq log most (le_of_eq total.symm) d member)

section
variable (crypto : Crypto) (session : Session)

/-- Exactly if each length field and buffer fit the data that is there, everything returned is data of
the packets, and all of it. -/
theorem channel_data_whole_iff_fits (io : Io) (sizes : List Nat)
    (accepted : AllMeet (readStep crypto) (ReadsData crypto) sizes (session, io)) :
    DeliveredWhole (deliveries crypto sizes (session, io)) ↔ ∀ d ∈ deliveries crypto sizes (session, io), d.Fits := by
  have answered := deliveries_answered crypto sizes accepted
  refine ⟨fits_of_whole _ answered, fun fits => ?_⟩
  have whole : ∀ d ∈ deliveries crypto sizes (session, io), d.ret = d.out.length ∧ d.out = d.field.map some := by
    intro d member
    obtain ⟨session, answer⟩ := answered d member
    exact answer.whole (fits d member)
  refine ⟨fun d member => ⟨(whole d member).1, ?_⟩, ?_⟩
  · simp only [(whole d member).2, prefix_rfl]
  · rw [map_flatMap]
    exact flatMap_congr fun d member => (whole d member).2

def dataPacket (payload : List UInt8) (padding : Nat) : List UInt8 :=
  be32Bytes (1 + 1 + payload.length + padding) ++ [UInt8.ofNat padding, sshMsgChannelData] ++ payload ++ replicate padding 0

def sealedReads (sender : Session) (plain : List UInt8) : Io where
  reads :=
    let body := (aes128CtrCrypt crypto sender.outboundKey sender.outboundIv plain).1
    [body.take 4, body.drop 4, sshHmacSha256Packet crypto sender.outboundMacKey sender.outboundSequence plain]
  writes := []
  random _ := 0

def hello : List UInt8 := be32Bytes 0 ++ lengthPrefixed [104, 105]

theorem channel_data_whole_hello : ReadsData toyCrypto 2
    (shellSession, sealedReads toyCrypto shellSession (dataPacket hello 16)) ∧
    DeliveredWhole (deliveries toyCrypto [2] (shellSession, sealedReads toyCrypto shellSession (dataPacket hello 16))) := by
  have accepted : ReadsData toyCrypto 2 (shellSession, sealedReads toyCrypto shellSession (dataPacket hello 16)) :=
    ⟨by decide, hello, by decide +kernel⟩
  refine ⟨accepted, (channel_data_whole_iff_fits toyCrypto shellSession _ [2] ⟨accepted, trivial⟩).mpr ?_⟩
  unfold Delivery.Fits
  decide +kernel

/-- A loop that gets all it asked for at once. -/
theorem readAll_chunk (whole : chunk.length = want) (some : 0 < want) (reads : List (List UInt8)) :
    Within want (chunk :: reads) ∧ readAll want (chunk :: reads) = ⟨chunk, true, reads⟩ := by
  obtain ⟨want, rfl⟩ := exists_eq_succ_of_ne_zero (ne_of_gt some)
  rw [Within, readAll, if_neg (by omega), whole, Nat.sub_self]
  have empty : readAll 0 reads = ⟨[], true, reads⟩ := by cases reads <;> rfl
  have nothing : Within 0 reads := by cases reads <;> trivial
  rw [empty]
  dsimp only
  rw [append_nil]
  exact ⟨⟨le_refl _, nothing⟩, rfl⟩

theorem sealedReads_received (mode : session.encrypted = true) (paired : Paired session session)
    (framed : Framed 16 message plain padding) : ∃ next io, sshReceivePacket crypto session (sealedReads crypto session plain) =
      ⟨next, io, .ok message⟩ ∧ next.rxBuffer = plain ++ session.rxBuffer.drop plain.length := by
  have length := framed.length
  have size := aes128CtrCrypt_length crypto session.outboundKey session.outboundIv plain
  have mac : (sshHmacSha256Packet crypto session.outboundMacKey session.outboundSequence plain).length = 32 :=
    crypto.sha256_length _
  generalize sealing : (aes128CtrCrypt crypto session.outboundKey session.outboundIv plain).1 = body at size
  generalize tagged : sshHmacSha256Packet crypto session.outboundMacKey session.outboundSequence plain = tag at mac
  have four : (body.take 4).length = 4 := by
    rw [length_take]
    omega
  have others : (body.drop 4).length = plain.length - 4 := by rw [length_drop, size]
  have number : packetLengthOf crypto session (body.take 4) = plain.length - 4 := by
    rw [packetLengthOf, mode, if_pos rfl, paired.key, paired.iv, ← sealing, aes128CtrCrypt_head _ _ _ _ (by omega), framed.size]
  have reads : (sealedReads crypto session plain).reads = [body.take 4, body.drop 4, tag] := by
    rw [sealedReads, sealing, tagged]
  generalize sealedReads crypto session plain = io at reads ⊢
  have header := readAll_chunk four (by decide) [body.drop 4, tag]
  have rest := readAll_chunk others (by omega) [tag]
  have obliging : Obliging crypto session io := by
    rw [Obliging, reads, header.2]
    rw [number, rest.2]
    exact ⟨header.1, rest.1, (readAll_chunk mac (by decide) []).1⟩
  have whole : io.reads.flatten = (protect crypto session plain).1 ++ [] := by
    rw [reads, protect, mode, if_pos rfl]
    simp [sealing, tagged, flatten_cons, flatten_nil, ← append_assoc, take_append_drop]
  have busy : [] ∉ io.reads := by
    rw [reads]
    intro empty
    simp only [mem_cons, not_mem_nil, or_false] at empty
    rcases empty with first | second | third
    · rw [← first] at four
      cases four
    · rw [← second] at others
      rw [length_nil] at others
      omega
    · rw [← third] at mac
      cases mac
  obtain ⟨next, later, received, buffer, -⟩ := sshReceivePacket_protect crypto paired
    (by rwa [mode, if_pos rfl]) whole busy obliging
  exact ⟨next, _, received, buffer⟩

/-- The length field promises five bytes, and one is there. -/
def boast : List UInt8 := be32Bytes 0 ++ be32Bytes 5 ++ [104]

theorem not_whole_of_packet (framed : Framed 16 (sshMsgChannelData, payload) plain padding) (maxLen : Nat)
    (positive : 0 < maxLen)
    (unfit : min (be32 (plain.drop 10)) maxLen ≠ min (be32 (plain.drop 10)) (payload.length - 8)) :
    AllMeet (readStep crypto) (ReadsData crypto) [maxLen] (shellSession, sealedReads crypto shellSession plain) ∧
      ¬ DeliveredWhole (deliveries crypto [maxLen] (shellSession, sealedReads crypto shellSession plain)) := by
  obtain ⟨next, io, received, buffer⟩ := sealedReads_received crypto shellSession rfl ⟨rfl, rfl, rfl, rfl, rfl⟩ framed
  have accepted : ReadsData crypto maxLen (shellSession, sealedReads crypto shellSession plain) :=
    ⟨positive, payload, congrArg Received.result received⟩
  refine ⟨⟨accepted, trivial⟩, fun whole => unfit ?_⟩
  have fits := fits_of_whole _ (deliveries_answered crypto [maxLen] ⟨accepted, trivial⟩) whole _ mem_cons_self
  rw [Delivery.Fits, delivery, received] at fits
  have stale : next.rxBuffer = plain := by
    rw [buffer]
    exact (congrArg (plain ++ ·) drop_nil).trans (append_nil plain)
  rwa [stale] at fits

end

/-- A buffer of one byte for two loses the second; a length that is not true returns padding as data. -/
theorem channel_data_lost_or_made_up : ∃ cut false : Crypto → Io, ∀ crypto,
    AllMeet (readStep crypto) (ReadsData crypto) [1] (shellSession, cut crypto) ∧
      ¬ DeliveredWhole (deliveries crypto [1] (shellSession, cut crypto)) ∧
      AllMeet (readStep crypto) (ReadsData crypto) [5] (shellSession, false crypto) ∧
      ¬ DeliveredWhole (deliveries crypto [5] (shellSession, false crypto)) := by
  refine ⟨(sealedReads · shellSession (dataPacket hello 16)),
    (sealedReads · shellSession (dataPacket boast 17)), fun crypto => ?_⟩
  have framedHello : Framed 16 (sshMsgChannelData, hello) (dataPacket hello 16) 16 :=
    ⟨⟨replicate 16 0, rfl, rfl⟩, by decide, by decide, rfl, by decide⟩
  have framedBoast : Framed 16 (sshMsgChannelData, boast) (dataPacket boast 17) 17 :=
    ⟨⟨replicate 17 0, rfl, rfl⟩, by decide, by decide, rfl, by decide⟩
  obtain ⟨cut, lost⟩ := not_whole_of_packet crypto framedHello 1 (by decide) (by decide)
  obtain ⟨long, foreign⟩ := not_whole_of_packet crypto framedBoast 5 (by decide) (by decide)
  exact ⟨cut, lost, long, foreign⟩

end Sirius.Ssh
