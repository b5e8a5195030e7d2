import Sirius.Ssh.Session

/-! The packet handlers of `libssh.c`. Each returns the code the source returns, and
what it parses from a payload is a function of its own, so that a property can speak
about a packet without running the handler. -/
namespace Sirius.Ssh
open Support List
variable (crypto : Crypto)

variable (session : Session) (io : Io)

variable (msgType : UInt8) (payload : List UInt8)

/-- The end of a handler that sends one packet, with the code for a failed sending. -/
def sendReply (code : Int) : Outcome :=
  let sending := sshSendPacket crypto session io msgType payload
  { sending with ret := if sending.ret ≤ 0 then code else 0 }

def sshUserauth : List UInt8 := ascii ['s', 's', 'h', '-', 'u', 's', 'e', 'r', 'a', 'u', 't', 'h']
def sshConnection : List UInt8 :=
  ascii ['s', 's', 'h', '-', 'c', 'o', 'n', 'n', 'e', 'c', 't', 'i', 'o', 'n']
def sshEd25519 : List UInt8 := ascii ['s', 's', 'h', '-', 'e', 'd', '2', '5', '5', '1', '9']

def kexinitPayload : List UInt8 :=
  let kexAlgo := ascii ['c', 'u', 'r', 'v', 'e', '2', '5', '5', '1', '9', '-', 's', 'h', 'a', '2', '5', '6']
  let cipher := ascii ['a', 'e', 's', '1', '2', '8', '-', 'c', 't', 'r']
  let mac := ascii ['h', 'm', 'a', 'c', '-', 's', 'h', 'a', '2', '-', '2', '5', '6']
  let comp := ascii ['n', 'o', 'n', 'e']
  (range 16).map UInt8.ofNat ++ lengthPrefixed kexAlgo ++ lengthPrefixed sshEd25519 ++
    lengthPrefixed cipher ++ lengthPrefixed cipher ++ lengthPrefixed mac ++ lengthPrefixed mac ++
    lengthPrefixed comp ++ lengthPrefixed comp ++ lengthPrefixed [] ++ lengthPrefixed [] ++
    [0, 0, 0, 0, 0]

def sshProcessKexinit : Outcome :=
  if session.state ≠ .kexInit then { session := session, io := io, ret := -2 }
  else if 4096 < payload.length + 1 then { session := session, io := io, ret := -3 }
  else
    let heard := { session with
      clientKexinit := sshMsgKexinit :: payload
      serverKexinit := sshMsgKexinit :: kexinitPayload }
    let answer := sendReply crypto heard io sshMsgKexinit kexinitPayload (-3)
    if answer.ret ≠ 0 then answer
    else { answer with session := { answer.session with state := .kexDh } }

/-- The bytes appended for the shared secret, `none` if the buffer is too small. -/
def sshAppendCurve25519Mpint (capacity index : Nat) (sharedK : List UInt8) : Option (List UInt8) :=
  let value := match sharedK.dropWhile (· == 0) with
    | [] => []
    | high :: low => if high &&& 0x80 ≠ 0 then 0 :: high :: low else high :: low
  if capacity - index < 4 + value.length then none else some (lengthPrefixed value)

def deriveKey (mpint exchangeHash sessionId : List UInt8) (letter : Char) (len : Nat) : List UInt8 :=
  (crypto.sha256 (mpint ++ exchangeHash ++ ascii [letter] ++ sessionId)).take len

def sshDeriveOutboundKeys : Option Session :=
  (sshAppendCurve25519Mpint 64 0 session.dhCtx.sharedK).map fun mpint =>
    let derive := deriveKey crypto mpint session.exchangeHash (session.sessionId.getD (replicate 32 0))
    { session with
      outboundKey := derive 'D' 16
      outboundIv := derive 'B' 16
      outboundMacKey := derive 'F' 32 }

def sshCryptoEnableInboundDecryption : Session :=
  match sshAppendCurve25519Mpint 40 0 session.dhCtx.sharedK with
  | none => session
  | some mpint =>
    let derive := deriveKey crypto mpint session.exchangeHash (session.sessionId.getD (replicate 32 0))
    { session with
      inboundIv := derive 'A' 16
      inboundKey := derive 'C' 16
      inboundMacKey := derive 'E' 32 }

def serverBanner : List UInt8 :=
  ascii ['S', 'S', 'H', '-', '2', '.', '0', '-', 'S', 'i', 'r', 'i', 'u', 's', 'S', 'S', 'H', '_', '0', '.', '1']

/-- The banner without the line end. -/
def stripLineEnd (banner : List UInt8) : List UInt8 :=
  (banner.reverse.dropWhile fun c => c == 13 || c == 10).reverse

def signResponse (blob : List UInt8) (maxLen : Nat) : Option (List UInt8) :=
  let signed := crypto.sign session.exchangeHash session.hostPrivkey
  if signed.length ≠ 96 then none
  else if crypto.signOpen signed session.hostPubkey ≠ some session.exchangeHash then none
  else
    let signature := lengthPrefixed sshEd25519 ++ lengthPrefixed (signed.take 64)
    let response := lengthPrefixed blob ++ lengthPrefixed session.dhCtx.publicY ++ lengthPrefixed signature
    if maxLen < response.length then none else some response

/-- The exchange hash and the outbound keys stay in the session also when the response
cannot be built. -/
def sshBuildKexdhReply (maxLen : Nat) : Session × Option (List UInt8) :=
  if maxLen < 512 ∨ 256 < session.clientBanner.length ∨ 4096 < session.clientKexinit.length ∨
      4096 < session.serverKexinit.length then (session, none)
  else
    let blob := lengthPrefixed sshEd25519 ++ lengthPrefixed session.hostPubkey
    let hashed := lengthPrefixed (stripLineEnd session.clientBanner) ++ lengthPrefixed serverBanner ++
      lengthPrefixed session.clientKexinit ++ lengthPrefixed session.serverKexinit ++
      lengthPrefixed blob ++ lengthPrefixed session.dhCtx.clientE ++ lengthPrefixed session.dhCtx.publicY
    if 4096 < hashed.length + 4 + 33 then (session, none)
    else match sshAppendCurve25519Mpint 4096 hashed.length session.dhCtx.sharedK with
      | none => (session, none)
      | some mpint =>
        let exchangeHash := crypto.sha256 (hashed ++ mpint)
        let agreed := { session with
          exchangeHash := exchangeHash
          sessionId := some (session.sessionId.getD exchangeHash) }
        match sshDeriveOutboundKeys crypto agreed with
        | none => (agreed, none)
        | some keyed => (keyed, signResponse crypto keyed blob maxLen)

def sshDhGenerateKeys (ctx : SshDhCtx) (io : Io) : SshDhCtx × Io :=
  let (secret, io) := randombytes io 32
  ({ ctx with secretX := secret, publicY := crypto.scalarmultBase secret }, io)

def sshDhComputeSharedSecret (ctx : SshDhCtx) : SshDhCtx :=
  { ctx with sharedK := crypto.scalarmult ctx.secretX ctx.clientE }

def sshProcessKexdhInit : Outcome :=
  if session.state ≠ .kexDh then { session := session, io := io, ret := -2 }
  else if payload.length < 4 then { session := session, io := io, ret := -3 }
  else if be32 payload ≠ 32 ∨ payload.length < 4 + 32 then { session := session, io := io, ret := -4 }
  else
    let (ctx, io) := sshDhGenerateKeys crypto { session.dhCtx with clientE := (payload.drop 4).take 32 } io
    let (built, response) :=
      sshBuildKexdhReply crypto { session with dhCtx := sshDhComputeSharedSecret crypto ctx } 512
    match response with
    | none => { session := built, io := io, ret := -5 }
    | some response =>
      let answer := sendReply crypto built io sshMsgKexdhReply response (-6)
      if answer.ret ≠ 0 then answer
      else
        let switch := sendReply crypto answer.session answer.io sshMsgNewkeys [] (-7)
        let both := { switch with sent := answer.sent ++ switch.sent }
        if switch.ret ≠ 0 then both
        else { both with session := { both.session with state := .expectNewkeys } }

def sshProcessNewkeys : Outcome :=
  if session.state ≠ .expectNewkeys then { session := session, io := io, ret := -2 }
  else
    { session := { sshCryptoEnableInboundDecryption crypto session with
        encrypted := true
        state := .authStage }
      io := io
      ret := 0 }

def serviceRequestError : Option Int :=
  if payload.length < 4 then some (-3)
  else if be32 payload ≠ 12 ∨ payload.length ≠ 4 + 12 then some (-4)
  else if payload.drop 4 ≠ sshUserauth then some (-5)
  else none

def sshProcessServiceRequest : Outcome :=
  if session.state ≠ .authStage then { session := session, io := io, ret := -2 }
  else match serviceRequestError payload with
    | some code => { session := session, io := io, ret := code }
    | none => sendReply crypto session io sshMsgServiceAccept (lengthPrefixed sshUserauth) (-6)

def validUsername : List UInt8 := ascii ['n', 'e', 'l', 's', 'o', 'n']
def validPassword : List UInt8 := ascii ['1', '2', '3', '4']
def passwordMethod : List UInt8 := ascii ['p', 'a', 's', 's', 'w', 'o', 'r', 'd']
def publickeyMethod : List UInt8 := ascii ['p', 'u', 'b', 'l', 'i', 'c', 'k', 'e', 'y']

/-- The part of a password request behind the method name. -/
def passwordVerdict (known : Bool) (rest : List UInt8) : Except Int Bool :=
  if rest.length < 1 then .error (-10)
  else if rest.getD 0 0 ≠ 0 then .ok false
  else if rest.length - 1 < 4 then .error (-11)
  else if be32 (rest.drop 1) ≠ rest.length - 5 then .error (-12)
  else .ok (decide (rest.drop 5 = validPassword) && known)

/-- The part of an authentication request behind the service name. -/
def methodVerdict (known : Bool) (rest : List UInt8) : Except Int Bool :=
  if rest.length < 4 then .error (-7)
  else if rest.length - 4 < be32 rest then .error (-8)
  -- only the six bytes the length allows for are compared
  else if be32 rest = 6 ∧ (rest.drop 4).take 6 = publickeyMethod.take 6 then .error (-9)
  else if be32 rest ≠ 8 ∨ (rest.drop 4).take 8 ≠ passwordMethod then .ok false
  else passwordVerdict known (rest.drop 12)

/-- The part behind the user name. -/
def serviceVerdict (known : Bool) (rest : List UInt8) : Except Int Bool :=
  if rest.length < 4 then .error (-4)
  else if rest.length - 4 < be32 rest then .error (-5)
  else if be32 rest ≠ 14 ∨ (rest.drop 4).take 14 ≠ sshConnection then .error (-6)
  else methodVerdict known (rest.drop 18)

/-- Whether the request is granted, or the code for one that cannot be parsed. -/
def userauthVerdict : Except Int Bool :=
  if payload.length < 4 then .error (-2)
  else if payload.length - 4 < be32 payload then .error (-3)
  else
    let known := decide (be32 payload = 6 ∧ (payload.drop 4).take 6 = validUsername)
    serviceVerdict known (payload.drop (4 + be32 payload))

def sshProcessUserauthRequest : Outcome :=
  match userauthVerdict payload with
  | .error code => { session := session, io := io, ret := code }
  | .ok true => sendReply crypto { session with state := .authStage } io sshMsgUserauthSuccess [] (-13)
  | .ok false =>
    sendReply crypto session io sshMsgUserauthFailure (lengthPrefixed passwordMethod ++ [0]) (-14)

structure ChannelRequest where
  recipientChannel : Nat
  requestType : List UInt8
  wantReply : Bool
  requestData : List UInt8
deriving DecidableEq

def parseChannelRequest : Except Int ChannelRequest :=
  let requestTypeLen := be32 (payload.drop 4)
  if payload.length < 9 then .error (-2)
  else if payload.length - 8 < requestTypeLen then .error (-3)
  else if payload.length - (8 + requestTypeLen) < 1 then .error (-4)
  else .ok {
    recipientChannel := be32 payload
    requestType := (payload.drop 8).take requestTypeLen
    wantReply := payload.getD (8 + requestTypeLen) 0 != 0
    requestData := payload.drop (9 + requestTypeLen) }

def shellType : List UInt8 := ascii ['s', 'h', 'e', 'l', 'l']
def windowChangeType : List UInt8 :=
  ascii ['w', 'i', 'n', 'd', 'o', 'w', '-', 'c', 'h', 'a', 'n', 'g', 'e']

/-- The handler of channel requests; it looks at no state of the session. -/
def sshProcessChannelRefresh : Outcome :=
  match parseChannelRequest payload with
  | .error code => { session := session, io := io, ret := code }
  | .ok request =>
    let recipient := be32Bytes request.recipientChannel
    if request.requestType = shellType then
      let shell := { session with state := .connectedShell }
      if request.wantReply then sendReply crypto shell io sshMsgChannelSuccess recipient (-5)
      else { session := shell, io := io, ret := 0 }
    else if request.requestType = windowChangeType then
      { session := session, io := io, ret := if request.requestData.length < 8 then -6 else 0 }
    else if request.wantReply then sendReply crypto session io sshMsgChannelFailure recipient (-7)
    else { session := session, io := io, ret := 0 }

def sessionType : List UInt8 := ascii ['s', 'e', 's', 's', 'i', 'o', 'n']
def sshChannelWindowSize : Nat := 65536
def sshChannelMaxPacketSize : Nat := 32768

/-- The peer's channel number, present as soon as it is read, and the code for a
request that is refused. -/
def parseChannelOpen : Option Nat × Option Int :=
  if payload.length < 4 then (none, some (-2))
  else if payload.length - 4 < be32 payload then (none, some (-3))
  else if be32 payload ≠ 7 ∨ (payload.drop 4).take 7 ≠ sessionType then (none, some (-4))
  else if payload.length - 11 < 12 then (none, some (-5))
  else
    let remoteChannel := be32 (payload.drop 11)
    if payload.length ≠ 23 then (some remoteChannel, some (-6))
    else if be32 (payload.drop 19) = 0 then (some remoteChannel, some (-7))
    else (some remoteChannel, none)

def sshProcessChannelOpen : Outcome :=
  let (channel, refusal) := parseChannelOpen payload
  let named := { session with clientChannelId := channel.getD session.clientChannelId }
  match refusal with
  | some code => { session := named, io := io, ret := code }
  | none =>
    sendReply crypto named io sshMsgChannelOpenConfirmation
      (be32Bytes named.clientChannelId ++ be32Bytes 0 ++ be32Bytes sshChannelWindowSize ++
        be32Bytes sshChannelMaxPacketSize) (-8)

/-! Receiving: the framing part of `ssh_process_packet`, its dispatch, the banner
exchange before it and the loop of `sshd` around it. -/

structure Reading where
  bytes : List UInt8
  complete : Bool
  reads : List (List UInt8)

/-- The loop that collects bytes until there are enough or a call fails. -/
def readAll : Nat → List (List UInt8) → Reading
  | 0, reads => ⟨[], true, reads⟩
  | _ + 1, [] => ⟨[], false, []⟩
  | want + 1, chunk :: reads =>
    if chunk.length = 0 ∨ want + 1 < chunk.length then ⟨[], false, reads⟩
    else
      let later := readAll (want + 1 - chunk.length) reads
      ⟨chunk ++ later.bytes, later.complete, later.reads⟩

/-- Bytes stored at the beginning of `rx_buffer`. -/
def Session.fill (session : Session) (bytes : List UInt8) : Session :=
  { session with rxBuffer := bytes ++ session.rxBuffer.drop bytes.length }

section
variable (crypto : Crypto)

structure Received where
  session : Session
  io : Io
  result : Except Int (UInt8 × List UInt8)

variable (session : Session) (io : Io)

/-- The message type and payload of a packet that is complete and in the clear. -/
def unpad (packetLength : Nat) (packet : List UInt8) : Received :=
  let counted := { session with inboundSequence := session.inboundSequence + 1 }
  let paddingLength := (packet.getD 4 0).toNat
  if paddingLength < sshMinPadLen ∨ packetLength < paddingLength + 2 then ⟨counted, io, .error (-6)⟩
  else ⟨counted, io, .ok (packet.getD 5 0, (packet.drop 6).take (packetLength - paddingLength - 2))⟩

/-- Decryption and the check of the MAC that follows the packet. -/
def openSealed (packetLength : Nat) (packet : List UInt8) : Received :=
  let opening := aes128CtrCrypt crypto session.inboundKey session.inboundIv packet
  let opened := { session.fill opening.1 with inboundIv := opening.2 }
  let mac := readAll 32 io.reads
  let io := { io with reads := mac.reads }
  if mac.complete = false then ⟨opened, io, .error (-7)⟩
  else if mac.bytes ≠ sshHmacSha256Packet crypto session.inboundMacKey session.inboundSequence opening.1 then
    ⟨opened, io, .error (-8)⟩
  else unpad opened io packetLength opening.1

def packetLengthOf (header : List UInt8) : Nat :=
  if session.encrypted then
    be32 (zipWith (· ^^^ ·) header (crypto.aesEncryptBlock session.inboundKey session.inboundIv))
  else be32 header

def sshReceivePacket : Received :=
  let header := readAll 4 io.reads
  let io := { io with reads := header.reads }
  let begun := session.fill header.bytes
  let packetLength := packetLengthOf crypto session header.bytes
  if header.complete = false then ⟨begun, io, .error (-2)⟩
  else if packetLength < 6 ∨ sshMaxPacketLen - 4 < packetLength then ⟨begun, io, .error (-4)⟩
  else if session.encrypted ∧ (packetLength + 4) % 16 ≠ 0 then ⟨begun, io, .error (-4)⟩
  else
    let body := readAll packetLength io.reads
    let io := { io with reads := body.reads }
    let packet := header.bytes ++ body.bytes
    let filled := session.fill packet
    if body.complete = false then ⟨filled, io, .error (-5)⟩
    else if session.encrypted then openSealed crypto filled io packetLength packet
    else unpad filled io packetLength packet

def sshDispatch (msgType : UInt8) (payload : List UInt8) : Outcome :=
  if msgType = sshMsgDisconnect then
    { session := { session with state := .disconnected }, io := io, ret := 0 }
  else if msgType = sshMsgKexinit then sshProcessKexinit crypto session io payload
  else if msgType = sshMsgKexdhInit then sshProcessKexdhInit crypto session io payload
  else if msgType = sshMsgNewkeys then sshProcessNewkeys crypto session io
  else if msgType = sshMsgServiceRequest then sshProcessServiceRequest crypto session io payload
  else if msgType = sshMsgUserauthRequest then sshProcessUserauthRequest crypto session io payload
  else if msgType = sshMsgChannelOpen then sshProcessChannelOpen crypto session io payload
  else if msgType = sshMsgChannelRequest then sshProcessChannelRefresh crypto session io payload
  else { session := session, io := io, ret := 0 }

def sshProcessPacket : Outcome :=
  let received := sshReceivePacket crypto session io
  match received.result with
  | .error code => { session := received.session, io := received.io, ret := code }
  | .ok (msgType, payload) => sshDispatch crypto received.session received.io msgType payload

def sshInitSession : Session × Io :=
  let (seed, io) := randombytes io 32
  ({ state := .exchangeBanners
     hostPrivkey := seed ++ crypto.signPubkey seed
     hostPubkey := crypto.signPubkey seed }, io)

end

/-- The peer's banner up to the line end or `left` bytes, `none` if a read fails. -/
def readBanner : Nat → List (List UInt8) → Option (List UInt8) × List (List UInt8)
  | 0, reads => (some [], reads)
  | left + 1, (ch :: _) :: reads =>
    if ch = 10 then (some [ch], reads)
    else
      let later := readBanner left reads
      (later.1.map (ch :: ·), later.2)
  | _ + 1, _ :: reads => (none, reads)
  | _ + 1, [] => (none, [])

/-- The first `S` of the banner has to begin `SSH-2.0`. -/
def bannerAccepted (banner : List UInt8) : Bool :=
  (banner.dropWhile fun c => c != 0 && c != 83).take 7 == serverBanner.take 7

def sshDoBannerExchange (session : Session) (io : Io) : Outcome :=
  match io.writes with
  | [] | 0 :: _ => { session := session, io := { io with writes := io.writes.tail }, ret := -2 }
  | _ :: writes =>
    let banner := readBanner 255 io.reads
    let io := { io with reads := banner.2, writes := writes }
    match banner.1 with
    | none => { session := session, io := io, ret := -3 }
    | some text =>
      let heard := { session with clientBanner := text }
      if bannerAccepted text then { session := { heard with state := .kexInit }, io := io, ret := 0 }
      else { session := heard, io := io, ret := -4 }

end Sirius.Ssh
