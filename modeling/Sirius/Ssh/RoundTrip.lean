import Sirius.Ssh.Server
import Sirius.Support.Runs

/-! What one session sends, a session with the same keys receives: padding, counter mode, MAC and sequence
numbers of `ssh_send_packet` and of the framing part of `ssh_process_packet` meet, however `write_hardware` and
`read_hardware` cut the stream. -/
namespace Sirius.Ssh
open Support List Nat UInt8

/-- The inbound side of one session is the outbound side of another. -/
structure Paired (sender receiver : Session) : Prop where
  encrypted : receiver.encrypted = sender.encrypted
  key : receiver.inboundKey = sender.outboundKey
  iv : receiver.inboundIv = sender.outboundIv
  macKey : receiver.inboundMacKey = sender.outboundMacKey
  sequence : receiver.inboundSequence = sender.outboundSequence

abbrev Message := UInt8 × List UInt8

/-- What the calls of `write_hardware` take of the packet, one after another. -/
def writePieces : List UInt8 → List Nat → List (List UInt8)
  | [], _ => []
  | _ :: _, [] => []
  | byte :: wire, taken :: writes =>
    if taken = 0 ∨ (byte :: wire).length < taken then []
    else (byte :: wire).take taken :: writePieces ((byte :: wire).drop taken) writes

/-- Each answer of `read_hardware` to a caller who wants so many bytes is as long as asked, or shorter. -/
def Within : Nat → List (List UInt8) → Prop
  | 0, _ => True
  | _ + 1, [] => True
  | want + 1, chunk :: reads => chunk.length ≤ want + 1 ∧ Within (want + 1 - chunk.length) reads

instance decidableWithin : ∀ want reads, Decidable (Within want reads)
  | 0, [] | 0, _ :: _ | _ + 1, [] => isTrue trivial
  | want + 1, chunk :: reads => haveI := decidableWithin (want + 1 - chunk.length) reads; instDecidableAnd

section
variable (crypto : Crypto)

def sendStep (message : Message) (s : Session × Io) : Session × Io :=
  let outcome := sshSendPacket crypto s.1 s.2 message.1 message.2
  (outcome.session, outcome.io)

def SendAccepts (message : Message) (s : Session × Io) : Prop := 0 < (sshSendPacket crypto s.1 s.2 message.1 message.2).ret

/-- What `write_hardware` is given for the messages. -/
def onWire : List Message → Session × Io → List (List UInt8)
  | [], _ => []
  | message :: rest, s =>
    (sshSendPacket crypto s.1 s.2 message.1 message.2).sent.flatMap (fun x => writePieces x.wire s.2.writes) ++
      onWire rest (sendStep crypto message s)

/-- The messages of the calls up to the first that fails. -/
def receiveAll : Nat → Session → Io → List Message
  | 0, _, _ => []
  | calls + 1, session, io =>
    let received := sshReceivePacket crypto session io
    match received.result with
    | .error _ => []
    | .ok message => message :: receiveAll calls received.session received.io

/-- The three loops of a call are answered by no more than they ask for. -/
def Obliging (session : Session) (io : Io) : Prop :=
  let header := readAll 4 io.reads
  let packetLength := packetLengthOf crypto session header.bytes
  let body := readAll packetLength header.reads
  Within 4 io.reads ∧ Within packetLength header.reads ∧ Within 32 body.reads

def ObligingAll : Nat → Session → Io → Prop
  | 0, _, _ => True
  | calls + 1, session, io =>
    let received := sshReceivePacket crypto session io
    Obliging crypto session io ∧ ObligingAll calls received.session received.io

instance decidableObligingAll : ∀ calls session io, Decidable (ObligingAll crypto calls session io)
  | 0, _, _ => isTrue trivial
  | calls + 1, session, io =>
    haveI : Decidable (Obliging crypto session io) := inferInstanceAs (Decidable (_ ∧ _ ∧ _))
    haveI := decidableObligingAll calls (sshReceivePacket crypto session io).session (sshReceivePacket crypto session io).io
    instDecidableAnd

end

/-! ### Transfers -/

theorem writePieces_flatten (wire : List UInt8) (writes : List Nat) (complete : (writeAll wire.length writes).1 = true) :
    (writePieces wire writes).flatten = wire := by
  fun_induction writePieces wire writes with
  | case1 => rfl
  | case2 => cases complete
  | case3 byte wire taken writes misfit =>
    rw [length_cons] at misfit complete
    rw [writeAll, if_pos misfit] at complete
    cases complete
  | case4 byte wire taken writes fits ih =>
    rw [length_cons] at fits complete
    rw [writeAll, if_neg fits] at complete
    rw [flatten_cons, ih (by rwa [length_drop]), take_append_drop]

theorem readAll_spec (want : Nat) (reads : List (List UInt8)) (within : Within want reads) (busy : [] ∉ reads)
    (enough : want ≤ reads.flatten.length) : ∃ later, readAll want reads = ⟨reads.flatten.take want, true, later⟩ ∧
      later.flatten = reads.flatten.drop want ∧ [] ∉ later := by
  induction reads generalizing want with
  | nil =>
    obtain rfl : want = 0 := le_zero.mp enough
    exact ⟨[], rfl, rfl, busy⟩
  | cons chunk reads ih =>
    cases want with
    | zero => exact ⟨chunk :: reads, rfl, rfl, busy⟩
    | succ want =>
      obtain ⟨fits, within⟩ := within
      rw [flatten_cons, length_append] at enough
      rw [mem_cons, not_or] at busy
      obtain ⟨later, read, rest, busy'⟩ := ih _ within busy.2 (by omega)
      have some : chunk.length ≠ 0 := fun none => busy.1 (length_eq_zero_iff.mp none).symm
      refine ⟨later, ?_, ?_, busy'⟩
      · rw [readAll, if_neg (by omega), read, flatten_cons, take_append, take_of_length_le fits]
      · rw [rest, flatten_cons, drop_append, drop_of_length_le fits, nil_append]

/-- What is asked for is the next part of the stream. -/
theorem readAll_append (part rest : List UInt8) (whole : reads.flatten = part ++ rest) (within : Within part.length reads)
    (busy : [] ∉ reads) : ∃ later, readAll part.length reads = ⟨part, true, later⟩ ∧ later.flatten = rest ∧ [] ∉ later := by
  obtain ⟨later, read, left, busy'⟩ := readAll_spec part.length reads within busy (by rw [whole, length_append]; omega)
  rw [whole, take_left] at read
  rw [whole, drop_left] at left
  exact ⟨later, read, left, busy'⟩

/-! ### Counter mode -/

theorem xor_cancel (text keystream : List UInt8) (short : text.length ≤ keystream.length) :
    zipWith (· ^^^ ·) (zipWith (· ^^^ ·) text keystream) keystream = text := by
  refine ext_getElem (by simp only [length_zipWith]; omega) fun i _ _ => ?_
  rw [getElem_zipWith, getElem_zipWith, UInt8.xor_assoc, UInt8.xor_self, UInt8.xor_zero]

section
variable (crypto : Crypto) (key iv src : List UInt8)

theorem ctrRounds_iv (blocks : Nat) (iv src other : List UInt8) :
    (ctrRounds crypto key blocks iv src).2 = (ctrRounds crypto key blocks iv other).2 := by
  induction blocks generalizing iv src other with
  | zero => rfl
  | succ blocks ih => exact ih (incrementIv iv) _ _

/-- Encrypted twice from one counter block is the text again, and the counter block ends up the same. -/
theorem aes128CtrCrypt_cancel :
    aes128CtrCrypt crypto key iv (aes128CtrCrypt crypto key iv src).1 = (src, (aes128CtrCrypt crypto key iv src).2) := by
  rw [Prod.ext_iff]
  constructor
  · rw [aes128CtrCrypt, aes128CtrCrypt_length, aes128CtrCrypt]
    rw [ctrRounds_fst, ctrRounds_fst, xor_cancel]
    rw [ctrKeystream_length]
    omega
  · rw [aes128CtrCrypt, aes128CtrCrypt_length, aes128CtrCrypt]
    exact ctrRounds_iv crypto key _ iv _ _

/-- The first bytes can be read before the rest is there. -/
theorem aes128CtrCrypt_head (long : 4 ≤ src.length) :
    zipWith (· ^^^ ·) ((aes128CtrCrypt crypto key iv src).1.take 4) (crypto.aesEncryptBlock key iv) = src.take 4 := by
  obtain ⟨blocks, count⟩ : ∃ blocks, (src.length + 15) / 16 = blocks + 1 := ⟨(src.length + 15) / 16 - 1, by omega⟩
  have length := crypto.block_length key iv
  rw [aes128CtrCrypt, count, ctrRounds_fst, ctrKeystream]
  refine ext_getElem (by simp only [length_zipWith, length_take, length_append]; omega) fun i _ bound => ?_
  rw [length_take] at bound
  rw [getElem_zipWith, getElem_take, getElem_take, getElem_zipWith, getElem_append_left (by omega), UInt8.xor_assoc,
    UInt8.xor_self, UInt8.xor_zero]

end

/-! ### Packets -/

/-- The packet in the clear, as `ssh_send_packet` lays it out. -/
structure Framed (blockSize : Nat) (message : Message) (plain : List UInt8) (padding : Nat) : Prop where
  shape : ∃ filler : List UInt8, filler.length = padding ∧
    plain = be32Bytes (1 + 1 + message.2.length + padding) ++ [ofNat padding, message.1] ++ message.2 ++ filler
  least : sshMinPadLen ≤ padding
  most : padding < 256
  aligned : plain.length % blockSize = 0
  fits : plain.length ≤ sshMaxPacketLen

theorem Framed.length (framed : Framed blockSize message plain padding) : plain.length = 6 + message.2.length + padding := by
  obtain ⟨filler, size, rfl⟩ := framed.shape
  simp only [length_append, be32Bytes_length, length_cons, length_nil, size]

theorem Framed.size (framed : Framed blockSize message plain padding) : be32 (plain.take 4) = plain.length - 4 := by
  have length := framed.length
  have fits := framed.fits
  have max : sshMaxPacketLen = 35000 := rfl
  obtain ⟨filler, -, shape⟩ := framed.shape
  have head : plain.take 4 = be32Bytes (1 + 1 + message.2.length + padding) ++ [] := by
    rw [shape, append_assoc, append_assoc, take_left' (be32Bytes_length _), append_nil]
  rw [head, be32_be32Bytes (by omega)]
  omega

theorem paddingLen_bounds (blockSize len : Nat) (small : blockSize ≤ 16) (large : 4 ≤ blockSize) :
    sshMinPadLen ≤ paddingLen blockSize len ∧ paddingLen blockSize len < 256 ∧
      (6 + len + paddingLen blockSize len) % blockSize = 0 := by
  have least : sshMinPadLen = 4 := rfl
  have part : (4 + 1 + 1 + len) % blockSize < blockSize := mod_lt _ (by omega)
  have whole := div_add_mod (4 + 1 + 1 + len) blockSize
  have total : 6 + len + (blockSize - (4 + 1 + 1 + len) % blockSize) = blockSize * ((4 + 1 + 1 + len) / blockSize + 1) := by
    rw [Nat.mul_add]
    omega
  simp only [paddingLen]
  split
  · refine ⟨by omega, by omega, ?_⟩
    rw [← Nat.add_assoc, total, add_mod_right, mul_mod_right]
  · refine ⟨by omega, by omega, ?_⟩
    rw [total, mul_mod_right]

theorem complete_of_pos (accepted : (0 : Int) < if complete then (n : Int) else -3) : complete = true := by
  cases complete with
  | true => rfl
  | false => cases accepted

variable (crypto : Crypto)

/-- What an accepted message puts on the wire, and what it leaves of the session. -/
theorem sshSendPacket_accepted (session : Session) (io : Io) (message : Message)
    (accepted : SendAccepts crypto message (session, io)) : ∃ plain padding,
      Framed (if session.encrypted then 16 else 8) message plain padding ∧
      (sshSendPacket crypto session io message.1 message.2).session = { session with
        outboundIv := (protect crypto session plain).2
        outboundSequence := session.outboundSequence + 1 } ∧
      ((sshSendPacket crypto session io message.1 message.2).sent.flatMap fun x => writePieces x.wire io.writes).flatten =
        (protect crypto session plain).1 := by
  have bounds := paddingLen_bounds (if session.encrypted then 16 else 8) message.2.length (by split <;> omega)
    (by split <;> omega)
  unfold SendAccepts at accepted
  unfold sshSendPacket at accepted ⊢
  generalize (if session.encrypted then 16 else 8 : Nat) = blockSize at accepted bounds ⊢
  generalize (if session.encrypted then 32 else 0 : Nat) = macLen at accepted ⊢
  obtain ⟨least, most, aligned⟩ := bounds
  dsimp only at accepted ⊢
  by_cases short : sshMaxPacketLen - 64 < message.2.length
  · rw [if_pos short] at accepted
    exact absurd accepted (show ¬ (0 : Int) < -1 by decide)
  rw [if_neg short] at accepted ⊢
  split at accepted
  · exact absurd accepted (show ¬ (0 : Int) < -1 by decide)
  next fits =>
  rw [if_neg fits]
  have filled : (randombytes io (paddingLen blockSize message.2.length)).1.length = paddingLen blockSize message.2.length := by
    rw [randombytes, length_map, length_range]
  refine ⟨_, _, ⟨⟨_, filled, rfl⟩, least, most, ?_, ?_⟩, rfl, ?_⟩
  · simp only [length_append, be32Bytes_length, length_cons, length_nil, filled]
    exact aligned
  · simp only [length_append, be32Bytes_length, length_cons, length_nil, filled]
    omega
  · rw [flatMap_singleton]
    apply writePieces_flatten
    exact complete_of_pos accepted

theorem unpad_framed (session : Session) (io : Io) (framed : Framed blockSize message plain padding) :
    unpad session io (plain.length - 4) plain =
      ⟨{ session with inboundSequence := session.inboundSequence + 1 }, io, .ok message⟩ := by
  have length := framed.length
  have least := framed.least
  obtain ⟨filler, size, shape⟩ := framed.shape
  have pad : (plain.getD 4 0).toNat = padding := by
    rw [shape]
    show (ofNat padding).toNat = padding
    rw [toNat_ofNat', mod_eq_of_lt framed.most]
  have kind : plain.getD 5 0 = message.1 := by
    rw [shape]
    rfl
  have payload : (plain.drop 6).take message.2.length = message.2 := by
    have head : (be32Bytes (1 + 1 + message.2.length + padding) ++ [ofNat padding, message.1]).length = 6 := rfl
    rw [shape, append_assoc, drop_left' head, take_left]
  have count : plain.length - 4 - padding - 2 = message.2.length := by omega
  rw [unpad, pad, kind, count, payload, if_neg (by omega)]

theorem openSealed_paired (paired : Paired sender receiver) (framed : Framed blockSize message plain padding)
    (body : List UInt8 × List UInt8) (sealing : body = aes128CtrCrypt crypto sender.outboundKey sender.outboundIv plain)
    (read : readAll 32 io.reads = ⟨sshHmacSha256Packet crypto sender.outboundMacKey sender.outboundSequence plain, true, later⟩) :
    openSealed crypto receiver io (plain.length - 4) body.1 =
      ⟨{ receiver.fill plain with inboundIv := body.2, inboundSequence := receiver.inboundSequence + 1 },
        { io with reads := later }, .ok message⟩ := by
  have opening : aes128CtrCrypt crypto receiver.inboundKey receiver.inboundIv body.1 = (plain, body.2) := by
    rw [paired.key, paired.iv, sealing, aes128CtrCrypt_cancel]
  have mac : sshHmacSha256Packet crypto receiver.inboundMacKey receiver.inboundSequence plain =
      sshHmacSha256Packet crypto sender.outboundMacKey sender.outboundSequence plain := by rw [paired.macKey, paired.sequence]
  rw [openSealed]
  rw [opening, read, mac]
  dsimp only
  rw [if_neg (by decide), if_neg (not_not.mpr rfl), unpad_framed _ _ framed]
  rfl

/-- The two loops that collect a packet. -/
theorem sshReceivePacket_collect (receiver : Session) (packet : List UInt8)
    (whole : io.reads.flatten = packet ++ rest) (busy : [] ∉ io.reads) (obliging : Obliging crypto receiver io)
    (size : packetLengthOf crypto receiver (packet.take 4) = packet.length - 4) (long : 10 ≤ packet.length)
    (fits : packet.length ≤ sshMaxPacketLen) (aligned : receiver.encrypted → packet.length % 16 = 0) :
    ∃ later, later.flatten = rest ∧ [] ∉ later ∧ Within 32 later ∧ sshReceivePacket crypto receiver io =
        if receiver.encrypted then openSealed crypto (receiver.fill packet) { io with reads := later } (packet.length - 4) packet
        else unpad (receiver.fill packet) { io with reads := later } (packet.length - 4) packet := by
  obtain ⟨first, second, third⟩ := obliging
  have four : (packet.take 4).length = 4 := by
    rw [length_take]
    omega
  have others : (packet.drop 4).length = packet.length - 4 := length_drop
  rw [← take_append_drop 4 packet, append_assoc] at whole
  obtain ⟨middle, header, afterHeader, busy'⟩ := readAll_append (packet.take 4) (packet.drop 4 ++ rest) whole (by rwa [four]) busy
  rw [four] at header
  rw [header] at second third
  rw [size, ← others] at second third
  obtain ⟨later, body, left, busy''⟩ := readAll_append (packet.drop 4) rest afterHeader second busy'
  rw [body] at third
  refine ⟨later, left, busy'', third, ?_⟩
  have blocks : ¬ (receiver.encrypted = true ∧ (packet.length - 4 + 4) % 16 ≠ 0) := by
    rw [Nat.sub_add_cancel (by omega)]
    exact fun wrong => wrong.2 (aligned wrong.1)
  rw [others] at body
  rw [sshReceivePacket]
  rw [header]
  dsimp only
  rw [size, if_neg (by decide), if_neg (by omega), body, if_neg blocks, take_append_drop]
  rfl

/-- A packet on the wire is received as it was sent, and both sides are ready for the next. -/
theorem sshReceivePacket_protect (paired : Paired sender receiver)
    (framed : Framed (if sender.encrypted then 16 else 8) message plain padding)
    (whole : io.reads.flatten = (protect crypto sender plain).1 ++ rest) (busy : [] ∉ io.reads)
    (obliging : Obliging crypto receiver io) : ∃ session later,
      sshReceivePacket crypto receiver io = ⟨session, { io with reads := later }, .ok message⟩ ∧
      session.rxBuffer = plain ++ receiver.rxBuffer.drop plain.length ∧
      Paired { sender with
        outboundIv := (protect crypto sender plain).2
        outboundSequence := sender.outboundSequence + 1 } session ∧ later.flatten = rest ∧ [] ∉ later := by
  have length := framed.length
  have least : 4 ≤ padding := framed.least
  cases mode : sender.encrypted with
  | false =>
    have clear := paired.encrypted.trans mode
    simp only [protect, mode, Bool.false_eq_true, if_false] at whole ⊢
    obtain ⟨later, left, busy', -, received⟩ := sshReceivePacket_collect crypto receiver plain whole busy obliging
      (by rw [packetLengthOf, clear]; exact framed.size) (by omega) framed.fits (by simp [clear])
    rw [clear, if_neg (by decide), unpad_framed _ _ framed] at received
    refine ⟨_, later, received, rfl, ⟨clear, paired.key, paired.iv, paired.macKey, ?_⟩, left, busy'⟩
    exact congrArg (· + 1) paired.sequence
  | true =>
    have hidden := paired.encrypted.trans mode
    simp only [protect, mode, if_true, append_assoc] at whole ⊢
    generalize sealing : aes128CtrCrypt crypto sender.outboundKey sender.outboundIv plain = body at whole ⊢
    have same : body.1.length = plain.length := by rw [← sealing, aes128CtrCrypt_length]
    have size : packetLengthOf crypto receiver (body.1.take 4) = body.1.length - 4 := by
      rw [packetLengthOf, hidden, if_pos rfl, paired.key, paired.iv, ← sealing,
        aes128CtrCrypt_head _ _ _ _ (by omega), framed.size, aes128CtrCrypt_length]
    rw [mode] at framed
    obtain ⟨later, left, busy', within, received⟩ := sshReceivePacket_collect crypto receiver body.1 whole busy obliging size
      (by omega) (same ▸ framed.fits) fun _ => same ▸ framed.aligned
    have mac : (sshHmacSha256Packet crypto sender.outboundMacKey sender.outboundSequence plain).length = 32 :=
      crypto.sha256_length _
    obtain ⟨last, read, left', busy''⟩ := readAll_append _ rest left (by rw [mac]; exact within) busy'
    rw [mac] at read
    have paired' : Paired sender (receiver.fill body.1) := { paired with }
    rw [hidden, if_pos rfl, same, openSealed_paired crypto paired' framed body sealing.symm read] at received
    refine ⟨_, last, received, ?_, ⟨hidden, paired.key, rfl, paired.macKey, ?_⟩, left', busy''⟩
    · show plain ++ (body.1 ++ receiver.rxBuffer.drop body.1.length).drop plain.length = _
      rw [← same, drop_left]
    · exact congrArg (· + 1) paired.sequence

/-- Every message that is accepted is received with its type and payload, in the order of sending and
without any other. -/
theorem ssh_round_trip (sender receiver : Session) (out inp : Io) (messages : List Message) (calls : Nat)
    (paired : Paired sender receiver) (accepted : AllMeet (sendStep crypto) (SendAccepts crypto) messages (sender, out))
    (whole : inp.reads.flatten = (onWire crypto messages (sender, out)).flatten) (busy : [] ∉ inp.reads)
    (obliging : ObligingAll crypto calls receiver inp) (enough : messages.length ≤ calls) :
    receiveAll crypto calls receiver inp = messages := by
  induction messages generalizing sender receiver out inp calls with
  | nil =>
    cases calls with
    | zero => rfl
    | succ calls =>
      -- the stream has ended, and the next call fails
      have ended : inp.reads = [] := by
        cases reads : inp.reads with
        | nil => rfl
        | cons chunk rest =>
          rw [reads] at whole busy
          exact absurd (append_eq_nil_iff.mp whole).1 fun none => busy (none ▸ mem_cons_self)
      rw [receiveAll, sshReceivePacket, ended]
      rfl
  | cons message rest ih =>
    obtain ⟨plain, padding, framed, session, wire⟩ := sshSendPacket_accepted crypto sender out message accepted.1
    cases calls with
    | zero => cases enough
    | succ calls =>
      rw [onWire, flatten_append, wire] at whole
      obtain ⟨next, later, received, -, paired', left, busy'⟩ :=
        sshReceivePacket_protect crypto paired framed whole busy obliging.1
      have obliging' := obliging.2
      rw [received] at obliging'
      rw [receiveAll, received]
      rw [ih _ next _ _ calls (session ▸ paired') accepted.2 left busy' obliging' (le_of_succ_le_succ enough)]

def shellSession : Session where
  state := .connectedShell
  encrypted := true
  hostPrivkey := []
  hostPubkey := []

def greeting : List Message := [(sshMsgChannelData, be32Bytes 0 ++ lengthPrefixed [104, 105]), (sshMsgDisconnect, [])]

def twoPieces : Io where
  reads := []
  writes := [30, 34, 48]
  random i := ofNat i

def byteByByte : Io where
  reads := (onWire toyCrypto greeting (shellSession, twoPieces)).flatten.map fun byte => [byte]
  writes := []
  random _ := 0

theorem ssh_round_trip_greeting : (onWire toyCrypto greeting (shellSession, twoPieces)).map length = [30, 34, 48] ∧
    receiveAll toyCrypto 3 shellSession byteByByte = greeting :=
  ⟨by decide +kernel, ssh_round_trip toyCrypto shellSession shellSession twoPieces byteByByte greeting 3
    ⟨rfl, rfl, rfl, rfl, rfl⟩ ⟨by unfold SendAccepts; decide +kernel, by unfold SendAccepts; decide +kernel, trivial⟩
    (by decide +kernel) (by decide +kernel) (by decide +kernel) (by decide)⟩

end Sirius.Ssh
