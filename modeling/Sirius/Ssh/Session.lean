import Sirius.Support.Bytes

/-! The session of `libssh.c` and its outgoing side. The primitives of `extra.c` and
TweetNaCl are parameters; what `read_hardware`, `write_hardware` and `randombytes`
deliver is a state that the calls consume. Locks and null checks are left out. -/
namespace Sirius.Ssh
open Support List

inductive SshState
  | disconnected | exchangeBanners | kexInit | kexDh | expectNewkeys | authStage | connectedShell
deriving DecidableEq, Repr

def sshMaxPacketLen : Nat := 35000
def sshMinPadLen : Nat := 4

def sshMsgDisconnect : UInt8 := 1
def sshMsgServiceRequest : UInt8 := 5
def sshMsgServiceAccept : UInt8 := 6
def sshMsgKexinit : UInt8 := 20
def sshMsgNewkeys : UInt8 := 21
def sshMsgKexdhInit : UInt8 := 30
def sshMsgKexdhReply : UInt8 := 31
def sshMsgUserauthRequest : UInt8 := 50
def sshMsgUserauthFailure : UInt8 := 51
def sshMsgUserauthSuccess : UInt8 := 52
def sshMsgChannelOpen : UInt8 := 90
def sshMsgChannelOpenConfirmation : UInt8 := 91
def sshMsgChannelData : UInt8 := 94
def sshMsgChannelRequest : UInt8 := 98
def sshMsgChannelSuccess : UInt8 := 99
def sshMsgChannelFailure : UInt8 := 100

/-- `aesEncryptBlock` includes the key expansion, `signOpen` is `none` for a
signature that does not verify. -/
structure Crypto where
  aesEncryptBlock : List UInt8 → List UInt8 → List UInt8
  sha256 : List UInt8 → List UInt8
  scalarmultBase : List UInt8 → List UInt8
  scalarmult : List UInt8 → List UInt8 → List UInt8
  signPubkey : List UInt8 → List UInt8
  sign : List UInt8 → List UInt8 → List UInt8
  signOpen : List UInt8 → List UInt8 → Option (List UInt8)
  block_length : ∀ key block, (aesEncryptBlock key block).length = 16
  sha256_length : ∀ message, (sha256 message).length = 32
  scalarmultBase_length : ∀ secret, (scalarmultBase secret).length = 32
  scalarmult_length : ∀ secret point, (scalarmult secret point).length = 32
  signPubkey_length : ∀ seed, (signPubkey seed).length = 32

/-- `reads` holds what each call of `read_hardware` returns and `writes` how much each
call of `write_hardware` takes; an empty read, a zero, and the end of either list are
a failed call. -/
structure Io where
  reads : List (List UInt8)
  writes : List Nat
  random : Nat → UInt8

structure SshDhCtx where
  secretX : List UInt8 := replicate 32 0
  publicY : List UInt8 := replicate 32 0
  clientE : List UInt8 := replicate 32 0
  sharedK : List UInt8 := replicate 32 0

/-- `sessionId` is `none` until `session_id_initialized` is set. -/
structure Session where
  state : SshState
  encrypted : Bool := false
  clientBanner : List UInt8 := []
  rxBuffer : List UInt8 := []
  clientKexinit : List UInt8 := []
  serverKexinit : List UInt8 := []
  hostPrivkey : List UInt8
  hostPubkey : List UInt8
  dhCtx : SshDhCtx := {}
  sessionId : Option (List UInt8) := none
  exchangeHash : List UInt8 := replicate 32 0
  inboundKey : List UInt8 := replicate 16 0
  inboundIv : List UInt8 := replicate 16 0
  inboundMacKey : List UInt8 := replicate 32 0
  outboundKey : List UInt8 := replicate 16 0
  outboundIv : List UInt8 := replicate 16 0
  outboundMacKey : List UInt8 := replicate 32 0
  inboundSequence : BitVec 32 := 0
  outboundSequence : BitVec 32 := 0
  clientChannelId : Nat := 0

def randombytes (io : Io) (len : Nat) : List UInt8 × Io :=
  ((range len).map io.random, { io with random := fun i => io.random (i + len) })

section
variable (crypto : Crypto)

/-- The counter block as a big-endian number, incremented with wrap-around. -/
def incrementIv (iv : List UInt8) : List UInt8 :=
  (iv.foldr (fun byte (carry, done) =>
    if carry then (byte + 1 == 0, (byte + 1) :: done) else (false, byte :: done)) (true, [])).2

/-- `blocks` rounds of the loop of `aes128_ctr_crypt`. -/
def ctrRounds (key : List UInt8) : Nat → List UInt8 → List UInt8 → List UInt8 × List UInt8
  | 0, iv, _ => ([], iv)
  | blocks + 1, iv, src =>
    let keystream := crypto.aesEncryptBlock key iv
    let rest := ctrRounds key blocks (incrementIv iv) (src.drop 16)
    (zipWith (· ^^^ ·) (src.take 16) keystream ++ rest.1, rest.2)

/-- The text and the counter block left for the next call. -/
def aes128CtrCrypt (key iv src : List UInt8) : List UInt8 × List UInt8 :=
  ctrRounds crypto key ((src.length + 15) / 16) iv src

def sshHmacSha256Packet (key : List UInt8) (sequence : BitVec 32) (packet : List UInt8) : List UInt8 :=
  let padded := key.take 32 ++ replicate 32 0
  let ipad := padded.map (· ^^^ 0x36)
  let opad := padded.map (· ^^^ 0x5c)
  crypto.sha256 (opad ++ crypto.sha256 (ipad ++ be32Bytes sequence.toNat ++ packet))

/-- A packet handed to `write_hardware`: the session that sent it, the packet before
and after encryption, and whether all of it went out. -/
structure Transmission where
  sender : Session
  msgType : UInt8
  payload : List UInt8
  plain : List UInt8
  wire : List UInt8
  complete : Bool

/-- What a function of the library leaves behind. -/
structure Outcome where
  session : Session
  io : Io
  sent : List Transmission := []
  ret : Int

def writeAll : Nat → List Nat → Bool × List Nat
  | 0, writes => (true, writes)
  | _ + 1, [] => (false, [])
  | left + 1, taken :: writes =>
    if taken = 0 ∨ left + 1 < taken then (false, writes) else writeAll (left + 1 - taken) writes

/-- One more block is always enough for the minimum, so the `while` is an `if`. -/
def paddingLen (blockSize payloadLen : Nat) : Nat :=
  let padding := blockSize - (4 + 1 + 1 + payloadLen) % blockSize
  if padding < sshMinPadLen then padding + blockSize else padding

/-- The packet on the wire and the counter block left for the next one. -/
def protect (session : Session) (plain : List UInt8) : List UInt8 × List UInt8 :=
  if session.encrypted then
    let sealing := aes128CtrCrypt crypto session.outboundKey session.outboundIv plain
    let mac := sshHmacSha256Packet crypto session.outboundMacKey session.outboundSequence plain
    (sealing.1 ++ mac, sealing.2)
  else (plain, session.outboundIv)

def sshSendPacket (session : Session) (io : Io) (msgType : UInt8) (payload : List UInt8) : Outcome :=
  let blockSize := if session.encrypted then 16 else 8
  let macLen := if session.encrypted then 32 else 0
  let padding := paddingLen blockSize payload.length
  let packetLength := 1 + 1 + payload.length + padding
  if sshMaxPacketLen - 64 < payload.length then { session := session, io := io, ret := -1 }
  else if sshMaxPacketLen < 4 + packetLength + macLen then { session := session, io := io, ret := -1 }
  else
    let (filler, io) := randombytes io padding
    let plain := be32Bytes packetLength ++ [UInt8.ofNat padding, msgType] ++ payload ++ filler
    let (wire, iv) := protect crypto session plain
    let next := { session with outboundIv := iv, outboundSequence := session.outboundSequence + 1 }
    let (complete, writes) := writeAll wire.length io.writes
    { session := next
      io := { io with writes := writes }
      sent := [⟨session, msgType, payload, plain, wire, complete⟩]
      ret := if complete then wire.length else -3 }

end
end Sirius.Ssh
