import Sirius.Ssh.Handlers

/-! A server driven packet by packet, with the history of what it received and sent.
What one packet can do to the session is said once here, for every handler. -/
namespace Sirius.Ssh
open Support List

structure Exchange where
  msgType : UInt8
  payload : List UInt8
  sent : List Transmission

structure Server where
  session : Session
  io : Io
  history : List Exchange
  ret : Int

def Server.log (server : Server) : List Transmission := server.history.flatMap Exchange.sent

section
variable (crypto : Crypto)

def Server.accept (io : Io) : Server :=
  let (session, io) := sshInitSession crypto io
  let opened := sshDoBannerExchange session io
  { session := opened.session, io := opened.io, history := [], ret := opened.ret }

def Server.step (server : Server) : Server :=
  let outcome := sshProcessPacket crypto server.session server.io
  { session := outcome.session
    io := outcome.io
    history := match (sshReceivePacket crypto server.session server.io).result with
      | .error _ => server.history
      | .ok (msgType, payload) => server.history ++ [⟨msgType, payload, outcome.sent⟩]
    ret := outcome.ret }

/-- At most `calls` rounds of the loop in `main`. -/
def sshdLoop : Nat → Server → Server
  | 0, server => server
  | calls + 1, server =>
    if server.session.state = .disconnected then server
    else
      let next := server.step crypto
      if next.ret ≠ 0 then next
      else if next.session.state = .connectedShell then next
      else sshdLoop calls next

end

theorem sshDoBannerExchange_ready (session : Session) (io : Io) : (sshDoBannerExchange session io).ret = 0 →
      (sshDoBannerExchange session io).session.state = .kexInit ∧
        (sshDoBannerExchange session io).session.encrypted = session.encrypted := by
  unfold sshDoBannerExchange
  split
  · exact nofun
  · exact nofun
  dsimp only
  split
  · exact nofun
  · split
    · exact fun _ => ⟨rfl, rfl⟩
    · exact nofun

/-- Encrypted with the sender's outbound key and followed by its MAC. -/
def Transmission.Sealed (crypto : Crypto) (x : Transmission) : Prop :=
  x.wire = (aes128CtrCrypt crypto x.sender.outboundKey x.sender.outboundIv x.plain).1 ++
    sshHmacSha256Packet crypto x.sender.outboundMacKey x.sender.outboundSequence x.plain

/-- The blocks that the rounds of `aes128_ctr_crypt` encrypt, one behind the other. -/
def ctrKeystream (crypto : Crypto) (key : List UInt8) : Nat → List UInt8 → List UInt8
  | 0, _ => []
  | blocks + 1, iv => crypto.aesEncryptBlock key iv ++ ctrKeystream crypto key blocks (incrementIv iv)

theorem ctrKeystream_length (crypto : Crypto) (key : List UInt8) (blocks : Nat) (iv : List UInt8) :
    (ctrKeystream crypto key blocks iv).length = 16 * blocks := by
  induction blocks generalizing iv with
  | zero => rfl
  | succ blocks ih => rw [ctrKeystream, length_append, crypto.block_length, ih, Nat.mul_succ, Nat.add_comm]

theorem ctrRounds_fst (crypto : Crypto) (key : List UInt8) (blocks : Nat) (iv src : List UInt8) :
    (ctrRounds crypto key blocks iv src).1 = zipWith (· ^^^ ·) src (ctrKeystream crypto key blocks iv) := by
  induction blocks generalizing iv src with
  | zero => exact zipWith_nil_right.symm
  | succ blocks ih =>
    have length := crypto.block_length key iv
    rw [ctrRounds, ih, ctrKeystream, ← take_append_drop 16 (zipWith _ src (_ ++ _)), take_zipWith, drop_zipWith,
      take_left' length,
      drop_left' length]

theorem aes128CtrCrypt_length (crypto : Crypto) (key iv src : List UInt8) :
    (aes128CtrCrypt crypto key iv src).1.length = src.length := by
  rw [aes128CtrCrypt, ctrRounds_fst, length_zipWith, ctrKeystream_length]
  omega

/-- A packet in the clear cannot pass for a sealed one: it is 32 bytes too short. -/
theorem not_sealed_of_clear {x : Transmission} (clear : x.wire = x.plain) : ¬ x.Sealed crypto := by
  intro sealing
  have lengths := congrArg length (clear.symm.trans sealing)
  rw [length_append, aes128CtrCrypt_length, sshHmacSha256Packet, crypto.sha256_length] at lengths
  omega

/-- The one packet a call sends, and what the call leaves of the session. -/
structure Sending (crypto : Crypto) (session : Session) (msgType : UInt8) (outcome : Outcome)
    (x : Transmission) : Prop where
  sent : outcome.sent = [x]
  kind : x.msgType = msgType
  sealing : x.Sealed crypto ↔ session.encrypted = true
  state : outcome.session.state = session.state
  encrypted : outcome.session.encrypted = session.encrypted

theorem protect_sealed (session : Session) (plain : List UInt8) (msgType : UInt8)
    (payload : List UInt8) (complete : Bool) :
    Transmission.Sealed crypto ⟨session, msgType, payload, plain, (protect crypto session plain).1, complete⟩ ↔
      session.encrypted = true := by
  cases mode : session.encrypted
  · simp only [Bool.false_eq_true, iff_false]
    apply not_sealed_of_clear
    simp [protect, mode]
  · simp [Transmission.Sealed, protect, mode]

theorem protect_length (session : Session) (plain : List UInt8) :
    plain.length ≤ (protect crypto session plain).1.length := by
  unfold protect
  split
  · rw [length_append, aes128CtrCrypt_length]
    exact Nat.le_add_right _ _
  · exact Nat.le_refl _

theorem transferred_pos {complete : Bool} {n : Nat} (positive : 0 < n) :
    (0 : Int) < (if complete then (n : Int) else -3) ↔ complete = true := by
  cases complete
  · simp
  · simpa using positive

section
variable (crypto : Crypto) (session : Session) (io : Io) (msgType : UInt8)

theorem sshSendPacket_sending (small : payload.length ≤ 1024) :
    ∃ x, Sending crypto session msgType (sshSendPacket crypto session io msgType payload) x ∧
      (0 < (sshSendPacket crypto session io msgType payload).ret ↔ x.complete = true) := by
  have size : sshMaxPacketLen = 35000 := rfl
  have padding : paddingLen (if session.encrypted then 16 else 8) payload.length ≤ 32 := by
    simp only [paddingLen]
    split <;> split <;> omega
  have mac : (if session.encrypted then 32 else 0) ≤ 32 := by split <;> omega
  simp only [sshSendPacket]
  rw [if_neg (by omega), if_neg (by omega)]
  refine ⟨_, ⟨rfl, rfl, protect_sealed _ _ _ _ _, rfl, rfl⟩, transferred_pos ?_⟩
  apply Nat.lt_of_lt_of_le _ (protect_length _ _)
  simp only [length_append, length_cons, be32Bytes_length]
  omega

theorem sendReply_sending (code : Int) (small : payload.length ≤ 1024) (negative : code < 0) :
    ∃ x, Sending crypto session msgType (sendReply crypto session io msgType payload code) x ∧
      ((sendReply crypto session io msgType payload code).ret = 0 ↔ x.complete = true) := by
  obtain ⟨x, sending, complete⟩ := sshSendPacket_sending crypto session io msgType small
  refine ⟨x, { sending with }, ?_⟩
  rw [← complete]
  simp only [sendReply]
  split <;> omega

end

theorem Sending.with_state (sending : Sending crypto session msgType outcome x) (state : SshState) :
    Sending crypto { session with state := state } msgType
      { outcome with session := { outcome.session with state := state } } x :=
  { sending with state := rfl }

/-- The server's own NEWKEYS, all of it on the wire. -/
def Transmission.IsNewkeys (x : Transmission) : Prop :=
  x.msgType = sshMsgNewkeys ∧ x.complete = true

/-- Behind the key exchange, which no state of this kind leads back to. -/
def Session.Past (session : Session) : Prop := session.state ≠ .kexInit ∧ session.state ≠ .kexDh

/-- What every packet can do at most: packets go out as the session was when it
arrived, and the server's NEWKEYS comes last and ends the key exchange. -/
structure Effect (crypto : Crypto) (session : Session) (outcome : Outcome) : Prop where
  sealing : ∀ x ∈ outcome.sent, x.Sealed crypto ↔ session.encrypted = true
  newkeys : ∀ x ∈ outcome.sent, x.IsNewkeys → outcome.session.Past
  last : outcome.sent.Pairwise fun x _ => ¬ x.IsNewkeys
  past : session.Past → outcome.session.Past

def shellRequest (msgType : UInt8) (payload : List UInt8) : Bool :=
  decide (msgType = sshMsgChannelRequest) &&
    match parseChannelRequest payload with
    | .error _ => false
    | .ok request => decide (request.requestType = shellType)

/-- A packet that makes a server in this state, past the key exchange, send one. -/
def elicitsReply (state : SshState) (msgType : UInt8) (payload : List UInt8) : Bool :=
  if msgType = sshMsgServiceRequest then
    decide (state = .authStage) && (serviceRequestError payload).isNone
  else if msgType = sshMsgUserauthRequest then (userauthVerdict payload).toBool
  else if msgType = sshMsgChannelOpen then (parseChannelOpen payload).2.isNone
  else if msgType = sshMsgChannelRequest then
    match parseChannelRequest payload with
    | .error _ => false
    | .ok request => request.wantReply && decide (request.requestType ≠ windowChangeType)
  else false

/-- The key exchange does not begin again, and without a request for it there is no shell. -/
def Session.Leads (session : Session) (asked : Prop) (next : Session) : Prop :=
  (session.Past → next.Past) ∧ (¬asked → session.state ≠ .connectedShell → next.state ≠ .connectedShell)

theorem Session.Leads.refl (session : Session) : session.Leads asked session := ⟨id, fun _ => id⟩

/-- What a handler does with its packet; past the key exchange it answers exactly the ones
that elicit a reply. -/
structure Handled (crypto : Crypto) (session : Session) (msgType : UInt8) (payload : List UInt8)
    (outcome : Outcome) : Prop extends Effect crypto session outcome where
  leads : session.Leads (shellRequest msgType payload = true) outcome.session
  answered : session.Past → (outcome.sent ≠ [] ↔ elicitsReply session.state msgType payload = true)

section
variable {session : Session} {outcome : Outcome}

theorem Handled.silent (sent : outcome.sent = [])
    (quiet : session.Past → elicitsReply session.state msgType payload = false)
    (leads : session.Leads (shellRequest msgType payload = true) outcome.session) :
    Handled crypto session msgType payload outcome :=
  ⟨⟨by simp [sent], by simp [sent], by simp [sent], leads.1⟩, leads, fun past => by simp [sent, quiet past]⟩

theorem Handled.refused (quiet : session.Past → elicitsReply session.state msgType payload = false) :
    Handled crypto session msgType payload { session := session, io := io, ret := code } :=
  .silent rfl quiet (.refl session)

theorem Handled.answer (elicits : session.Past → elicitsReply session.state msgType payload = true)
    (sending : Sending crypto answering kind outcome x)
    (other : kind ≠ sshMsgNewkeys) (same : answering.encrypted = session.encrypted)
    (leads : session.Leads (shellRequest msgType payload = true) answering) :
    Handled crypto session msgType payload outcome := by
  have after : session.Leads (shellRequest msgType payload = true) outcome.session := by
    simpa only [Session.Leads, Session.Past, sending.state] using leads
  refine ⟨⟨fun y member => ?_, fun y member own => ?_, by simp [sending.sent], after.1⟩, after,
    fun past => by simp [sending.sent, elicits past]⟩
  · rw [sending.sent, mem_singleton] at member
    rw [member, sending.sealing, same]
  · rw [sending.sent, mem_singleton] at member
    rw [member] at own
    exact absurd (sending.kind.symm.trans own.1) other

theorem Handled.reply (elicits : session.Past → elicitsReply session.state msgType payload = true)
    (small : bytes.length ≤ 1024) (negative : code < 0) (other : kind ≠ sshMsgNewkeys)
    (same : answering.encrypted = session.encrypted)
    (leads : session.Leads (shellRequest msgType payload = true) answering) :
    Handled crypto session msgType payload (sendReply crypto answering io kind bytes code) := by
  obtain ⟨x, sending, -⟩ := sendReply_sending crypto answering io kind code small negative
  exact .answer elicits sending other same leads

end

theorem kexinitPayload_length : kexinitPayload.length = 143 := by
  simp [kexinitPayload, sshEd25519]

theorem sshProcessKexinit_handled (session : Session) (io : Io) (payload : List UInt8) :
    Handled crypto session sshMsgKexinit payload (sshProcessKexinit crypto session io payload) := by
  unfold sshProcessKexinit
  split
  · exact .refused fun _ => rfl
  rename_i state
  rw [not_not] at state
  split
  · exact .refused fun _ => rfl
  have start {p : Prop} : session.Past → p := fun past => (past.1 state).elim
  have small : kexinitPayload.length ≤ 1024 := by rw [kexinitPayload_length]; decide
  obtain ⟨x, sending, -⟩ := sendReply_sending crypto
    { session with
      clientKexinit := sshMsgKexinit :: payload
      serverKexinit := sshMsgKexinit :: kexinitPayload }
    io sshMsgKexinit (-3) small (by decide)
  dsimp only
  split
  · exact .answer start sending (by decide) rfl (.refl session)
  · exact .answer start (sending.with_state .kexDh) (by decide) rfl ⟨start, fun _ _ => nofun⟩

theorem signResponse_length (built : signResponse crypto session blob maxLen = some response) :
    response.length ≤ maxLen := by
  simp only [signResponse] at built
  split at built
  · cases built
  split at built
  · cases built
  · split at built
    · cases built
    · cases built
      omega

theorem sshDeriveOutboundKeys_keeps (derived : sshDeriveOutboundKeys crypto session = some keyed) :
    keyed.state = session.state ∧ keyed.encrypted = session.encrypted := by
  simp only [sshDeriveOutboundKeys, Option.map_eq_some_iff] at derived
  obtain ⟨mpint, -, rfl⟩ := derived
  exact ⟨rfl, rfl⟩

theorem sshBuildKexdhReply_keeps (crypto : Crypto) (session : Session) (maxLen : Nat) :
    (sshBuildKexdhReply crypto session maxLen).1.state = session.state ∧
    (sshBuildKexdhReply crypto session maxLen).1.encrypted = session.encrypted ∧
    ∀ response, (sshBuildKexdhReply crypto session maxLen).2 = some response → response.length ≤ maxLen := by
  unfold sshBuildKexdhReply
  split
  · simp
  dsimp only
  split
  · simp
  split
  · simp
  split
  · simp
  · rename_i derived
    obtain ⟨state, encrypted⟩ := sshDeriveOutboundKeys_keeps derived
    exact ⟨state, encrypted, fun _ => signResponse_length⟩

/-- The two packets of the key exchange: the answer, and then NEWKEYS, with which the
exchange is over. -/
theorem Handled.exchange {answer switch : Outcome} (answering : Sending crypto built sshMsgKexdhReply answer x)
    (switching : Sending crypto answer.session sshMsgNewkeys switch y)
    (same : built.encrypted = session.encrypted) (active : ¬ session.Past)
    (shell : session.state ≠ .connectedShell → final.state ≠ .connectedShell)
    (past : y.complete = true → final.Past) :
    Handled crypto session msgType payload { switch with session := final, sent := answer.sent ++ switch.sent } := by
  have reply : ¬ x.IsNewkeys := by
    rintro ⟨kind, -⟩
    exact absurd (answering.kind.symm.trans kind) (by decide)
  have sent : ∀ z ∈ answer.sent ++ switch.sent, z = x ∨ z = y := by simp [answering.sent, switching.sent]
  refine ⟨⟨fun z member => ?_, fun z member own => ?_,
    by simp [answering.sent, switching.sent, reply], fun past => absurd past active⟩,
    ⟨fun past => absurd past active, fun _ => shell⟩, fun past => absurd past active⟩
  · rcases sent z member with rfl | rfl
    · rw [answering.sealing, same]
    · rw [switching.sealing, answering.encrypted, same]
  · rcases sent z member with rfl | rfl
    · exact absurd own reply
    · exact past own.2

section
variable (session : Session) (io : Io) (payload : List UInt8)

theorem sshProcessKexdhInit_handled :
    Handled crypto session sshMsgKexdhInit payload (sshProcessKexdhInit crypto session io payload) := by
  unfold sshProcessKexdhInit
  split
  · exact .refused fun _ => rfl
  rename_i state
  rw [not_not] at state
  split
  · exact .refused fun _ => rfl
  split
  · exact .refused fun _ => rfl
  have active : ¬ session.Past := fun past => past.2 state
  obtain ⟨ctx, later⟩ := sshDhGenerateKeys crypto { session.dhCtx with clientE := (payload.drop 4).take 32 } io
  dsimp only
  obtain ⟨same, encrypted, small⟩ := sshBuildKexdhReply_keeps crypto
    { session with dhCtx := sshDhComputeSharedSecret crypto ctx } 512
  split
  · exact .silent rfl (fun _ => rfl) ⟨fun past => absurd past active, fun _ => same.trans_ne⟩
  rename_i response built
  obtain ⟨x, answering, -⟩ := sendReply_sending crypto _ later sshMsgKexdhReply (-6)
    (Nat.le_trans (small response built) (by decide)) (by decide)
  split
  · exact .answer (fun past => absurd past active) answering (by decide) encrypted
      ⟨fun past => absurd past active, fun _ => same.trans_ne⟩
  obtain ⟨y, switching, complete⟩ := sendReply_sending crypto _ _ sshMsgNewkeys (-7)
    (show ([] : List UInt8).length ≤ 1024 by decide) (by decide)
  split
  · rename_i broken
    refine .exchange answering switching encrypted active ?_ ?_
    · rw [switching.state, answering.state]
      exact same.trans_ne
    · exact fun finished => absurd (complete.mpr finished) broken
  · exact .exchange answering switching encrypted active (fun _ => nofun) fun _ => ⟨by simp, by simp⟩

theorem sshProcessNewkeys_handled :
    Handled crypto session sshMsgNewkeys payload (sshProcessNewkeys crypto session io) := by
  unfold sshProcessNewkeys
  split
  · exact .refused fun _ => rfl
  · exact .silent rfl (fun _ => rfl) ⟨fun _ => ⟨by simp, by simp⟩, by simp⟩

theorem sshProcessServiceRequest_handled :
    Handled crypto session sshMsgServiceRequest payload (sshProcessServiceRequest crypto session io payload) := by
  unfold sshProcessServiceRequest
  split
  next state => exact .refused fun _ => by simp [elicitsReply, state]
  · rename_i state
    split
    next refused => exact .refused fun _ => by simp [elicitsReply, refused]
    · rename_i accepted
      exact .reply (fun _ => by simp [elicitsReply, not_not.mp state, accepted]) (by simp [sshUserauth]) (by decide)
        (by decide) rfl (.refl session)

theorem sshProcessUserauthRequest_handled :
    Handled crypto session sshMsgUserauthRequest payload (sshProcessUserauthRequest crypto session io payload) := by
  unfold sshProcessUserauthRequest
  split
  next refused => exact .refused fun _ => congrArg Except.toBool refused
  · rename_i granted
    exact .reply (fun _ => congrArg Except.toBool granted) (by simp) (by decide) (by decide) rfl
      ⟨fun _ => ⟨by simp, by simp⟩, by simp⟩
  · rename_i denied
    exact .reply (fun _ => congrArg Except.toBool denied) (by simp [passwordMethod]) (by decide) (by decide) rfl
      (.refl session)

theorem sshProcessChannelOpen_handled :
    Handled crypto session sshMsgChannelOpen payload (sshProcessChannelOpen crypto session io payload) := by
  unfold sshProcessChannelOpen
  dsimp only
  split
  next refused => exact .silent rfl (fun _ => congrArg Option.isNone refused) (.refl session)
  next accepted => exact .reply (fun _ => congrArg Option.isNone accepted) (by simp) (by decide) (by decide) rfl (.refl session)

theorem sshProcessChannelRefresh_handled :
    Handled crypto session sshMsgChannelRequest payload (sshProcessChannelRefresh crypto session io payload) := by
  have elicits : elicitsReply session.state sshMsgChannelRequest payload = match parseChannelRequest payload with
    | .error _ => false
    | .ok request => request.wantReply && decide (request.requestType ≠ windowChangeType) := rfl
  unfold sshProcessChannelRefresh
  split
  next refused => exact .refused fun _ => by rw [elicits, refused]
  rename_i request parsed
  rw [parsed] at elicits
  split
  · rename_i isShell
    have shell : session.Leads (shellRequest sshMsgChannelRequest payload = true)
        { session with state := .connectedShell } :=
      ⟨fun _ => ⟨by simp, by simp⟩, fun other => absurd (by simp [shellRequest, parsed, isShell]) other⟩
    have distinct : shellType ≠ windowChangeType := by decide
    split
    · rename_i wanted
      exact .reply (fun _ => by simp [elicits, wanted, isShell, distinct]) (by simp) (by decide) (by decide) rfl shell
    next unwanted => exact .silent rfl (fun _ => by simp [elicits, unwanted]) shell
  split
  next window => exact .refused fun _ => by simp [elicits, window]
  · rename_i window
    split
    · rename_i wanted
      exact .reply (fun _ => by simp [elicits, wanted, window]) (by simp) (by decide) (by decide) rfl (.refl session)
    next unwanted => exact .refused fun _ => by simp [elicits, unwanted]

end

theorem sshDispatch_handled (crypto : Crypto) (session : Session) (io : Io) (msgType : UInt8)
    (payload : List UInt8) : Handled crypto session msgType payload
      (sshDispatch crypto session io msgType payload) := by
  unfold sshDispatch
  split_ifs with disconnect kexinit kexdh newkeys service userauth opening request
  · exact disconnect ▸ .silent rfl (fun _ => rfl) ⟨fun _ => ⟨by simp, by simp⟩, by simp⟩
  · exact kexinit ▸ sshProcessKexinit_handled session io payload
  · exact kexdh ▸ sshProcessKexdhInit_handled session io payload
  · exact newkeys ▸ sshProcessNewkeys_handled session io payload
  · exact service ▸ sshProcessServiceRequest_handled session io payload
  · exact userauth ▸ sshProcessUserauthRequest_handled session io payload
  · exact opening ▸ sshProcessChannelOpen_handled session io payload
  · exact request ▸ sshProcessChannelRefresh_handled session io payload
  · exact .refused fun _ => by
      simp only [elicitsReply, if_neg service, if_neg userauth, if_neg opening, if_neg request]

theorem sshReceivePacket_keeps (crypto : Crypto) (session : Session) (io : Io) :
    (sshReceivePacket crypto session io).session.state = session.state ∧
      (sshReceivePacket crypto session io).session.encrypted = session.encrypted := by
  have unpadded : ∀ (s : Session) io packetLength packet,
      (unpad s io packetLength packet).session.state = s.state ∧
        (unpad s io packetLength packet).session.encrypted = s.encrypted := by
    intro s io packetLength packet
    unfold unpad
    dsimp only
    split <;> exact ⟨rfl, rfl⟩
  unfold sshReceivePacket openSealed
  dsimp only
  repeat' split
  all_goals first | exact unpadded _ _ _ _ | exact ⟨rfl, rfl⟩

variable {crypto : Crypto} {server : Server}

theorem step_received
    (received : (sshReceivePacket crypto server.session server.io).result = .ok (msgType, payload)) :
    let incoming := sshReceivePacket crypto server.session server.io
    let outcome := sshDispatch crypto incoming.session incoming.io msgType payload
    (server.step crypto).session = outcome.session ∧ (server.step crypto).ret = outcome.ret ∧
      (server.step crypto).history = server.history ++ [⟨msgType, payload, outcome.sent⟩] := by
  simp [Server.step, sshProcessPacket, received]

theorem step_failed (failed : (sshReceivePacket crypto server.session server.io).result = .error code) :
    (server.step crypto).session.state = server.session.state ∧
    (server.step crypto).session.encrypted = server.session.encrypted ∧
      (server.step crypto).ret = code ∧ (server.step crypto).history = server.history := by
  obtain ⟨state, encrypted⟩ := sshReceivePacket_keeps crypto server.session server.io
  simp only [Server.step, sshProcessPacket, failed, and_self, and_true]
  exact ⟨state, encrypted⟩

def clearPacket (msgType : UInt8) (payload : List UInt8) : List (List UInt8) :=
  [be32Bytes (payload.length + 6), [4, msgType] ++ payload ++ [0, 0, 0, 0]]

def clientBannerReads : List (List UInt8) := (ascii ['S', 'S', 'H', '-', '2', '.', '0', '\n']).map fun c => [c]

/-- Primitives for a run on fixed input: nothing is hidden and every signature verifies. -/
def toyCrypto : Crypto where
  aesEncryptBlock _ _ := replicate 16 0
  sha256 _ := replicate 32 0
  scalarmultBase _ := replicate 32 0
  scalarmult _ _ := replicate 32 0
  signPubkey _ := replicate 32 0
  sign message _ := replicate 64 0 ++ message
  signOpen signed _ := some (signed.drop 64)
  block_length _ _ := length_replicate
  sha256_length _ := length_replicate
  scalarmultBase_length _ := length_replicate
  scalarmult_length _ _ := length_replicate
  signPubkey_length _ := length_replicate

end Sirius.Ssh
